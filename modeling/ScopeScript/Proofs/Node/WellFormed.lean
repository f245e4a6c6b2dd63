import ScopeScript.Node.Printer
import ScopeScript.Proofs.Grammar
import ScopeScript.Proofs.Lexer.Pieces

/-!
# Well-formed trees

The trees that programs have: names that a program can write, operators in
their canonical spelling, literals that have a text, and parts in the places
where the language has them. Lines and columns do not matter; a property of
floats says which ones may be literals.
-/

namespace ScopeScript

/-! ## Trees without places -/

def Leaf.unplaced (l : Leaf) : Leaf := ⟨l.kind, l.text, none, none⟩

mutual

/-- A tree without its lines and columns. -/
def Node.unplaced : Node → Node
  | .leaf l => .leaf l.unplaced
  | .bare v => .bare v
  | .literal v _ => .literal v none
  | .array ns _ => .array (Node.allUnplaced ns) none
  | .unary op n _ => .unary op.unplaced n.unplaced none
  | .binary op l r _ => .binary op.unplaced l.unplaced r.unplaced none
  | .index a b _ => .index a.unplaced b.unplaced none
  | .call f a _ => .call f.unplaced a.unplaced none
  | .arguments ns _ => .arguments (Node.allUnplaced ns) none
  | .parameters ns _ => .parameters (Node.allUnplaced ns) none
  | .function a b _ => .function a.unplaced b.unplaced none
  | .expression n _ => .expression n.unplaced none
  | .print n _ => .print n.unplaced none
  | .declaration a b c _ => .declaration a.unplaced b.unplaced c.unplaced none
  | .branch a b c _ => .branch a.unplaced b.unplaced c.unplaced none
  | .loop a b _ => .loop a.unplaced b.unplaced none
  | .block ns _ => .block (Node.allUnplaced ns) none
  | .exit _ => .exit none
  | .other s ns _ => .other s (Node.allUnplaced ns) none

def Node.allUnplaced : List Node → List Node
  | [] => []
  | n :: ns => n.unplaced :: Node.allUnplaced ns

end

@[simp] theorem Node.allUnplaced_nil : Node.allUnplaced [] = [] := rfl

@[simp] theorem Node.allUnplaced_cons (n : Node) (ns : List Node) :
    Node.allUnplaced (n :: ns) = n.unplaced :: Node.allUnplaced ns := rfl

@[simp] theorem Node.allUnplaced_append (ms ns : List Node) :
    Node.allUnplaced (ms ++ ns) = Node.allUnplaced ms ++ Node.allUnplaced ns := by
  induction ms with
  | nil => rfl
  | cons m ms ih => exact congrArg (m.unplaced :: ·) ih

@[simp] theorem Node.unplaced_atLine (n : Node) (line : Nat) :
    (n.atLine line).unplaced = n.unplaced := by
  cases n <;> rfl

/-! ## Names, operators and literals -/

def IsName (w : String) : Prop := Lexer.IsWord w ∧ Kind.ofWord w = .name

namespace Leaf

def IsName (l : Leaf) : Prop := l.kind = nameKind ∧ ScopeScript.IsName l.text

/-- The leaf of an operator in its canonical spelling. -/
def Spells (k : Kind) (l : Leaf) : Prop :=
  l.kind = k.label ∧ (l.text.toList, k) ∈ Lexer.symbols

def IsLet (l : Leaf) : Prop := l.kind = Kind.letWord.label ∧ l.text = "let"

end Leaf

namespace Binary64

def IsUnsigned (x : Binary64) : Prop := ∃ m q h, x = .finite false m q h

end Binary64

/-! ## Trees -/

inductive Category where
  | expression | statement | block
  deriving DecidableEq

section
variable (F : Binary64 → Prop)

namespace Node

inductive WellFormed : Category → Node → Prop where
  | int {i : Nat} {line : Option Nat} : i < 10 ^ Numeral.maxLength →
    WellFormed .expression (.literal (.int i) line)
  | float {x : Binary64} {line : Option Nat} : F x →
    WellFormed .expression (.literal (.float x) line)
  | string {s : String} {line : Option Nat} :
    WellFormed .expression (.literal (.string s) line)
  | bool {b : Bool} {line : Option Nat} : WellFormed .expression (.literal (.bool b) line)
  | name {l : Leaf} : l.IsName → WellFormed .expression (.leaf l)
  | unary {k : Kind} {op : Leaf} {n : Node} {line : Option Nat} :
    k = .minus ∨ k = .bang → op.Spells k → WellFormed .expression n →
    WellFormed .expression (.unary op n line)
  | binary {s : Stratum} {k : Kind} {op : Leaf} {a b : Node} {line : Option Nat} :
    k ∈ s.operators → op.Spells k → WellFormed .expression a → WellFormed .expression b →
    WellFormed .expression (.binary op a b line)
  | index {a b : Node} {line : Option Nat} : WellFormed .expression a →
    WellFormed .expression b → WellFormed .expression (.index a b line)
  | call {f : Leaf} {ns : List Node} {line line' : Option Nat} : f.IsName →
    (∀ n ∈ ns, WellFormed .expression n) →
    WellFormed .expression (.call (.leaf f) (.arguments ns line) line')
  | array {ns : List Node} {line : Option Nat} : (∀ n ∈ ns, WellFormed .expression n) →
    WellFormed .expression (.array ns line)
  | function {ps : List Node} {b : Node} {line line' : Option Nat} :
    (∀ p ∈ ps, ∃ l : Leaf, p = .leaf l ∧ l.IsName) → WellFormed .block b →
    WellFormed .expression (.function (.parameters ps line) b line')
  | statements {ns : List Node} {line : Option Nat} : (∀ n ∈ ns, WellFormed .statement n) →
    WellFormed .block (.block ns line)
  | block {n : Node} : WellFormed .block n → WellFormed .statement n
  | expression {n : Node} {line : Option Nat} : WellFormed .expression n →
    WellFormed .statement (.expression n line)
  | print {n : Node} {line : Option Nat} : WellFormed .expression n →
    WellFormed .statement (.print n line)
  | fresh {x op : Leaf} {n : Node} {line : Option Nat} : x.IsName → op.IsLet →
    WellFormed .expression n → WellFormed .statement (.declaration (.leaf x) (.leaf op) n line)
  | assign {k : Kind} {x op : Leaf} {n : Node} {line : Option Nat} : x.IsName →
    k.isAssignment = true → op.Spells k → WellFormed .expression n →
    WellFormed .statement (.declaration (.leaf x) (.leaf op) n line)
  | branch {a b c : Node} {line : Option Nat} : WellFormed .expression a →
    WellFormed .block b → WellFormed .block c → WellFormed .statement (.branch a b c line)
  | loop {a b : Node} {line : Option Nat} : WellFormed .expression a → WellFormed .block b →
    WellFormed .statement (.loop a b line)
  | exit {line : Option Nat} : WellFormed .statement (.exit line)

end Node

end

namespace Node

variable {F : Binary64 → Prop} {category : Category} {n : Node}

theorem WellFormed.atLine (line : Nat) (h : WellFormed F category n) :
    WellFormed F category (n.atLine line) := by
  induction h with
  | int h => exact .int h
  | float h => exact .float h
  | string => exact .string
  | bool => exact .bool
  | name h => exact .name h
  | unary hk hop h _ => exact .unary hk hop h
  | binary hk hop ha hb _ _ => exact .binary hk hop ha hb
  | index ha hb _ _ => exact .index ha hb
  | call hf h _ => exact .call hf h
  | array h _ => exact .array h
  | function hps h _ => exact .function hps h
  | statements h _ => exact .statements h
  | block _ ih => exact .block ih
  | expression h _ => exact .expression h
  | print h _ => exact .print h
  | fresh hx hop h _ => exact .fresh hx hop h
  | assign hx hk hop h _ => exact .assign hx hk hop h
  | branch ha hb hc _ _ _ => exact .branch ha hb hc
  | loop ha hb _ _ => exact .loop ha hb
  | exit => exact .exit

end Node

end ScopeScript
