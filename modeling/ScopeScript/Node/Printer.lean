import ScopeScript.Node.Shape

/-!
# Printing trees

The prefix form of a tree puts the operator first and every node in
parentheses. The source form is a program, fully parenthesised, that parses to
the same tree.

Argument and parameter lists belong to the call or function around them;
elsewhere they are printed as listings of their entries.
-/

namespace ScopeScript

namespace Node

/-- An argument as an entry of a listing, given its printed text. -/
def argumentEntry (n : Node) (text : String) : String :=
  match n with
  | .leaf l => l.shape.inline
  | .bare _ | .arguments .. | .parameters .. => text
  | _ => Text.entry text

/-- The parts that a text stands for where a list of parts belongs: its characters. -/
def letters (s : String) : List String := s.toList.map Char.toString

end Node

mutual

def Node.prefixForm : Node → String
  | .leaf l => l.text
  | .bare v | .literal v _ => v.text
  | .array ns _ => "[" ++ Text.joined " " (Node.prefixForms ns) ++ "]"
  | .unary op n _ => "(" ++ op.text ++ " " ++ n.prefixForm ++ ")"
  | .binary op l r _ => "(" ++ op.text ++ " " ++ l.prefixForm ++ " " ++ r.prefixForm ++ ")"
  | .index a b _ => "([] " ++ a.prefixForm ++ " " ++ b.prefixForm ++ ")"
  | .call f (.arguments ns _) _ | .call f (.parameters ns _) _ =>
    "(" ++ Text.joined " " (f.prefixForm :: Node.prefixForms ns) ++ ")"
  | .call f a _ => "(" ++ Text.joined " " (f.prefixForm :: Node.letters a.prefixForm) ++ ")"
  | .arguments ns _ => Text.listing (List.zipWith Node.argumentEntry ns (Node.prefixForms ns))
  | .parameters ns _ => Text.listing ((Node.prefixForms ns).map Text.entry)
  | .function (.arguments ns _) b _ | .function (.parameters ns _) b _ =>
    "(fn (" ++ Text.joined " " (Node.prefixForms ns) ++ ") " ++ b.prefixForm ++ ")"
  | .function a b _ =>
    "(fn (" ++ Text.joined " " (Node.letters a.prefixForm) ++ ") " ++ b.prefixForm ++ ")"
  | .expression n _ => n.prefixForm
  | .print n _ => "(print " ++ n.prefixForm ++ ")"
  | .declaration a b c _ =>
    "(" ++ b.prefixForm ++ " " ++ a.prefixForm ++ " " ++ c.prefixForm ++ ")"
  | .branch a b c _ =>
    "(if " ++ a.prefixForm ++ " " ++ b.prefixForm ++ " " ++ c.prefixForm ++ ")"
  | .loop a b _ => "(while " ++ a.prefixForm ++ " " ++ b.prefixForm ++ ")"
  | .block ns _ => "(" ++ Text.joined " " ("block" :: Node.prefixForms ns) ++ ")"
  | .exit _ => "(break)"
  | .other s ns _ => Shape.treeText s (Node.prefixForms ns)

def Node.prefixForms : List Node → List String
  | [] => []
  | n :: ns => n.prefixForm :: Node.prefixForms ns

end

def Value.sourceForm : Value → String
  | .string s => String.ofList (Text.quoted s.toList)
  | .float x => x.sourceText
  | v => v.text

def Node.isLet : Node → Bool
  | .leaf l => l.kind = Kind.letWord.label
  | _ => false

def Node.bracedForm (statements : List String) : String :=
  if statements.isEmpty then "\x7b \x7d"
  else "\x7b " ++ Text.joined "; " statements ++ " \x7d"

mutual

def Node.sourceForm : Node → String
  | .leaf l => l.text
  | .bare v => v.text
  | .literal v _ => v.sourceForm
  | .array ns _ => "[" ++ Text.joined ", " (Node.sourceForms ns) ++ "]"
  | .unary op n _ => "(" ++ op.text ++ n.sourceForm ++ ")"
  | .binary op l r _ => "(" ++ l.sourceForm ++ " " ++ op.text ++ " " ++ r.sourceForm ++ ")"
  | .index a b _ => a.sourceForm ++ "[" ++ b.sourceForm ++ "]"
  | .call f (.arguments ns _) _ | .call f (.parameters ns _) _ =>
    f.sourceForm ++ "(" ++ Text.joined ", " (Node.sourceForms ns) ++ ")"
  | .call f a _ => f.sourceForm ++ "(" ++ Text.joined ", " (Node.letters a.sourceForm) ++ ")"
  | .arguments ns _ => Text.listing (List.zipWith Node.argumentEntry ns (Node.sourceForms ns))
  | .parameters ns _ => Text.listing ((Node.sourceForms ns).map Text.entry)
  | .function (.arguments ns _) b _ | .function (.parameters ns _) b _ =>
    "fn(" ++ Text.joined ", " (Node.sourceForms ns) ++ ") " ++ b.sourceForm
  | .function a b _ =>
    "fn(" ++ Text.joined ", " (Node.letters a.sourceForm) ++ ") " ++ b.sourceForm
  | .expression n _ => n.sourceForm
  | .print n _ => "print(" ++ n.sourceForm ++ ")"
  | .declaration a b c _ =>
    if b.isLet then "let " ++ a.sourceForm ++ " = " ++ c.sourceForm
    else a.sourceForm ++ " " ++ b.sourceForm ++ " " ++ c.sourceForm
  | .branch a b c _ =>
    "if (" ++ a.sourceForm ++ ") " ++ b.sourceForm ++ " else " ++ c.sourceForm
  | .loop a b _ => "while (" ++ a.sourceForm ++ ") " ++ b.sourceForm
  | .block ns _ => Node.bracedForm (Node.sourceForms ns)
  | .exit _ => "break"
  | .other s ns _ => Shape.treeText s (Node.sourceForms ns)

def Node.sourceForms : List Node → List String
  | [] => []
  | n :: ns => n.sourceForm :: Node.sourceForms ns

end

namespace Node

/-- The source form of a program: the statements of its block, each on a line. -/
def programForm : Node → String
  | .block ns _ => Text.joined "\n" (sourceForms ns)
  | n => n.sourceForm

end Node

mutual

/-- No literal of the tree holds an integer that is too long to be written. -/
def Node.isWritable : Node → Bool
  | .leaf _ | .exit _ => true
  | .bare v | .literal v _ => v.isWritable
  | .unary _ n _ | .expression n _ | .print n _ => n.isWritable
  | .binary _ a b _ | .index a b _ | .call a b _ | .function a b _ | .loop a b _ =>
    a.isWritable && b.isWritable
  | .declaration a b c _ | .branch a b c _ => a.isWritable && b.isWritable && c.isWritable
  | .array ns _ | .arguments ns _ | .parameters ns _ | .block ns _ | .other _ ns _ =>
    Node.allWritable ns

def Node.allWritable : List Node → Bool
  | [] => true
  | n :: ns => n.isWritable && Node.allWritable ns

end

namespace Node

/-- The printed form of a tree of at most `levels` levels. -/
def render? (form : Node → String) (levels : Nat) (n : Node) : Except Fault String :=
  if levels < n.height then .error .nestingLimit
  else if n.isWritable then .ok (form n)
  else .error .numeralTooLong

end Node

end ScopeScript
