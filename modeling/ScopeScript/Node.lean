import ScopeScript.Token

/-!
# Trees and values

A program is a tree whose leaves are names, operators and values. Values and
trees are one family: a literal holds a value, and a function value holds the
tree of its body. A function value also holds an identity, since two functions
are equal only if they are the same one.

The parser builds each node from the parts that its label asks for. `other`
holds trees that no program has.
-/

namespace ScopeScript

/-- A token kept in a tree: the name of its kind, its text and, for names, its place. -/
structure Leaf where
  kind : String
  text : String
  line : Option Nat := none
  column : Option Nat := none
  deriving DecidableEq

mutual

inductive Value where
  | int (i : Int)
  | float (x : Binary64)
  | string (s : String)
  | bool (b : Bool)
  | array (items : List Value)
  | function (identity : Nat) (parameters : List String) (body : Node)
  /-- The result of a statement that yields nothing. -/
  | absent
  /-- The result of a statement that leaves its loop. -/
  | breakSignal

inductive Node where
  | leaf (token : Leaf)
  | bare (value : Value)
  | literal (value : Value) (line : Option Nat)
  | array (items : List Node) (line : Option Nat)
  | unary (op : Leaf) (operand : Node) (line : Option Nat)
  | binary (op : Leaf) (left right : Node) (line : Option Nat)
  | index (collection position : Node) (line : Option Nat)
  | call (callee arguments : Node) (line : Option Nat)
  | arguments (items : List Node) (line : Option Nat)
  | parameters (items : List Node) (line : Option Nat)
  | function (parameters body : Node) (line : Option Nat)
  | expression (value : Node) (line : Option Nat)
  | print (value : Node) (line : Option Nat)
  | declaration (target kind value : Node) (line : Option Nat)
  | branch (condition consequence alternative : Node) (line : Option Nat)
  | loop (condition body : Node) (line : Option Nat)
  | block (statements : List Node) (line : Option Nat)
  | exit (line : Option Nat)
  | other (label : String) (children : List Node) (line : Option Nat)

end

instance : Inhabited Value := ⟨.absent⟩

instance : Inhabited Node := ⟨.exit none⟩

namespace Leaf

def nameKind : String := Kind.name.label

def name? (l : Leaf) : Option String := if l.kind = nameKind then some l.text else none

def ofName (t : Token) : Leaf := ⟨nameKind, t.datum.display, some t.line, some t.column⟩

end Leaf

namespace Node

/-- The label of a tree; leaves and bare values have none. -/
def label? : Node → Option String
  | .leaf _ | .bare _ => none
  | .literal .. => some "literal"
  | .array .. => some "array"
  | .unary .. => some "unary"
  | .binary .. => some "binop"
  | .index .. => some "index"
  | .call .. => some "call"
  | .arguments .. => some "args"
  | .parameters .. => some "params"
  | .function .. => some "fn"
  | .expression .. => some "exprstmt"
  | .print .. => some "printstmt"
  | .declaration .. => some "declaration"
  | .branch .. => some "ifstmt"
  | .loop .. => some "whilestmt"
  | .block .. => some "block"
  | .exit _ => some "breakstmt"
  | .other label .. => some label

def children : Node → List Node
  | .leaf _ | .bare _ | .exit _ => []
  | .literal v _ => [.bare v]
  | .unary op n _ => [.leaf op, n]
  | .binary op l r _ => [.leaf op, l, r]
  | .index a b _ | .call a b _ | .function a b _ | .loop a b _ => [a, b]
  | .declaration a b c _ | .branch a b c _ => [a, b, c]
  | .expression n _ | .print n _ => [n]
  | .array ns _ | .arguments ns _ | .parameters ns _ | .block ns _ | .other _ ns _ => ns

/-- The line of a node: that of a leaf, or the one recorded for a tree. -/
def line? : Node → Option Nat
  | .leaf l => l.line
  | .bare _ => none
  | .literal _ line | .array _ line | .unary _ _ line | .binary _ _ _ line | .index _ _ line
  | .call _ _ line | .arguments _ line | .parameters _ line | .function _ _ line
  | .expression _ line | .print _ line | .declaration _ _ _ line | .branch _ _ _ line
  | .loop _ _ line | .block _ line | .exit line | .other _ _ line => line

/-- Records a line on a tree. -/
def atLine (line : Nat) : Node → Node
  | .leaf l => .leaf l
  | .bare v => .bare v
  | .literal v _ => .literal v line
  | .array ns _ => .array ns line
  | .unary op n _ => .unary op n line
  | .binary op l r _ => .binary op l r line
  | .index a b _ => .index a b line
  | .call a b _ => .call a b line
  | .arguments ns _ => .arguments ns line
  | .parameters ns _ => .parameters ns line
  | .function a b _ => .function a b line
  | .expression n _ => .expression n line
  | .print n _ => .print n line
  | .declaration a b c _ => .declaration a b c line
  | .branch a b c _ => .branch a b c line
  | .loop a b _ => .loop a b line
  | .block ns _ => .block ns line
  | .exit _ => .exit line
  | .other s ns _ => .other s ns line

/-- The name that a node stands for, if it is the leaf of one. -/
def name? : Node → Option String
  | .leaf l => l.name?
  | _ => none

def isExpressionStatement : Node → Bool
  | .expression .. => true
  | _ => false

/-- The tree with a label, children and a line; a tree that has not the parts of its label
is kept as it is. -/
def ofParts (label : String) (children : List Node) (line : Option Nat) : Node :=
  match label, children with
  | "literal", [.bare v] => .literal v line
  | "array", ns => .array ns line
  | "unary", [.leaf op, n] => .unary op n line
  | "binop", [.leaf op, l, r] => .binary op l r line
  | "index", [a, b] => .index a b line
  | "call", [a, b] => .call a b line
  | "args", ns => .arguments ns line
  | "params", ns => .parameters ns line
  | "fn", [a, b] => .function a b line
  | "exprstmt", [n] => .expression n line
  | "printstmt", [n] => .print n line
  | "declaration", [a, b, c] => .declaration a b c line
  | "ifstmt", [a, b, c] => .branch a b c line
  | "whilestmt", [a, b] => .loop a b line
  | "block", ns => .block ns line
  | "breakstmt", [] => .exit line
  | label, ns => .other label ns line

theorem atLine_children (line : Nat) (n : Node) : (n.atLine line).children = n.children := by
  cases n <;> rfl

theorem atLine_label (line : Nat) (n : Node) : (n.atLine line).label? = n.label? := by
  cases n <;> rfl

end Node

mutual

def Node.height : Node → Nat
  | .leaf _ | .bare _ | .exit _ | .literal .. => 1
  | .unary _ n _ | .expression n _ | .print n _ => n.height + 1
  | .binary _ a b _ | .index a b _ | .call a b _ | .function a b _ | .loop a b _ =>
    max a.height b.height + 1
  | .declaration a b c _ | .branch a b c _ => max a.height (max b.height c.height) + 1
  | .array ns _ | .arguments ns _ | .parameters ns _ | .block ns _ | .other _ ns _ =>
    Node.heights ns + 1

def Node.heights : List Node → Nat
  | [] => 0
  | n :: ns => max n.height (Node.heights ns)

end

mutual

/-- Equality of values. Different variants are never equal, `1` and `1.0` included;
functions are equal if they are the same one. -/
def Value.equal : Value → Value → Bool
  | .int i, .int j => i = j
  | .float x, .float y => x.equal y
  | .string s, .string t => s = t
  | .bool b, .bool c => b = c
  | .array xs, .array ys => Value.equalAll xs ys
  | .function i _ _, .function j _ _ => i = j
  | _, _ => false

def Value.equalAll : List Value → List Value → Bool
  | [], [] => true
  | x :: xs, y :: ys => x.equal y && Value.equalAll xs ys
  | _, _ => false

end

def Leaf.same (l m : Leaf) : Bool := l.kind = m.kind && l.text = m.text

mutual

/-- Equality of trees up to lines and columns. -/
def Node.same : Node → Node → Bool
  | .leaf l, .leaf m => l.same m
  | .bare v, .bare w => v.equal w
  | .literal v _, .literal w _ => v.equal w
  | .array ns _, .array ms _ => Node.sameAll ns ms
  | .unary op n _, .unary op' n' _ => op.same op' && n.same n'
  | .binary op l r _, .binary op' l' r' _ => op.same op' && l.same l' && r.same r'
  | .index a b _, .index a' b' _ => a.same a' && b.same b'
  | .call a b _, .call a' b' _ => a.same a' && b.same b'
  | .arguments ns _, .arguments ms _ => Node.sameAll ns ms
  | .parameters ns _, .parameters ms _ => Node.sameAll ns ms
  | .function a b _, .function a' b' _ => a.same a' && b.same b'
  | .expression n _, .expression n' _ => n.same n'
  | .print n _, .print n' _ => n.same n'
  | .declaration a b c _, .declaration a' b' c' _ => a.same a' && b.same b' && c.same c'
  | .branch a b c _, .branch a' b' c' _ => a.same a' && b.same b' && c.same c'
  | .loop a b _, .loop a' b' _ => a.same a' && b.same b'
  | .block ns _, .block ms _ => Node.sameAll ns ms
  | .exit _, .exit _ => true
  | .other s ns _, .other t ms _ => decide (s = t) && Node.sameAll ns ms
  | _, _ => false

def Node.sameAll : List Node → List Node → Bool
  | [], [] => true
  | n :: ns, m :: ms => n.same m && Node.sameAll ns ms
  | _, _ => false

end

end ScopeScript
