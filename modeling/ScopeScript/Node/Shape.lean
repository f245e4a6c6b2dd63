import ScopeScript.Value

/-!
# The shape of a tree

Messages and outlines show a tree as nothing but labels, leaves and values.
Such a shape is written in one line, or as an outline: every label on a line of
its own, and the parts on the lines after it, indented. A single part that has
no parts itself shares the line of its label.
-/

namespace ScopeScript

inductive Shape where
  | leaf (kind text : String)
  | value (text : String)
  | tree (label : String) (parts : List Shape)

def Leaf.shape (l : Leaf) : Shape := .leaf l.kind l.text

mutual

def Node.shape : Node → Shape
  | .leaf l => l.shape
  | .bare v => .value v.text
  | .literal v _ => .tree "literal" [.value v.text]
  | .array ns _ => .tree "array" (Node.shapes ns)
  | .unary op n _ => .tree "unary" [op.shape, n.shape]
  | .binary op l r _ => .tree "binop" [op.shape, l.shape, r.shape]
  | .index a b _ => .tree "index" [a.shape, b.shape]
  | .call a b _ => .tree "call" [a.shape, b.shape]
  | .arguments ns _ => .tree "args" (Node.shapes ns)
  | .parameters ns _ => .tree "params" (Node.shapes ns)
  | .function a b _ => .tree "fn" [a.shape, b.shape]
  | .expression n _ => .tree "exprstmt" [n.shape]
  | .print n _ => .tree "printstmt" [n.shape]
  | .declaration a b c _ => .tree "declaration" [a.shape, b.shape, c.shape]
  | .branch a b c _ => .tree "ifstmt" [a.shape, b.shape, c.shape]
  | .loop a b _ => .tree "whilestmt" [a.shape, b.shape]
  | .block ns _ => .tree "block" (Node.shapes ns)
  | .exit _ => .tree "breakstmt" []
  | .other label ns _ => .tree label (Node.shapes ns)

def Node.shapes : List Node → List Shape
  | [] => []
  | n :: ns => n.shape :: Node.shapes ns

end

namespace Shape

def atom? : Shape → Option String
  | .leaf _ text => some text
  | .value text => some text
  | .tree .. => none

def leafText (kind text : String) : String :=
  "Token(" ++ Text.entry kind ++ ", " ++ Text.entry text ++ ")"

def treeText (label : String) (parts : List String) : String :=
  "Tree(" ++ Text.entry label ++ ", " ++ Text.listing parts ++ ")"

/-- The lines of a label and its parts, given the lines of the parts. -/
def under (label : String) (parts : List Shape) (lines : List (List String)) : List String :=
  match parts.map atom? with
  | [some text] => [label ++ "\t" ++ text]
  | _ => label :: lines.flatten.map ("  " ++ ·)

end Shape

mutual

def Shape.inline : Shape → String
  | .leaf kind text => Shape.leafText kind text
  | .value text => text
  | .tree label parts => Shape.treeText label (Shape.inlines parts)

def Shape.inlines : List Shape → List String
  | [] => []
  | s :: ss => s.inline :: Shape.inlines ss

end

mutual

def Shape.lines : Shape → List String
  | .leaf _ text => [text]
  | .value text => [text]
  | .tree label parts => Shape.under label parts (Shape.linesOfAll parts)

def Shape.linesOfAll : List Shape → List (List String)
  | [] => []
  | s :: ss => s.lines :: Shape.linesOfAll ss

end

namespace Node

/-- A node inside a message: a leaf by its text alone. -/
def shown : Node → String
  | .leaf l => l.text
  | n => n.shape.inline

/-- The whole outline, every line ended. -/
def outline (n : Node) : String :=
  n.shape.lines.foldr (fun line rest => line ++ "\n" ++ rest) ""

end Node

end ScopeScript
