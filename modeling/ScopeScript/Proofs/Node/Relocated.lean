import ScopeScript.Node.Shape
import ScopeScript.Proofs.Node.WellFormed

/-!
# Trees in other places

A relocation changes the lines and columns of a tree, also those of the bodies
of functions inside of values. Nothing else depends on them: texts, equality
and variants of values stay the same.
-/

namespace ScopeScript

/-- What is done to lines and to columns. -/
structure Relocation where
  line : Option Nat → Option Nat
  column : Option Nat → Option Nat

namespace Relocation

/-- `k` lines further down. -/
def below (k : Nat) : Relocation := ⟨Option.map (k + ·), id⟩

/-- No lines; the columns stay. -/
def lineless : Relocation := ⟨fun _ => none, id⟩

/-- One relocation after another. -/
def after (r' r : Relocation) : Relocation := ⟨r'.line ∘ r.line, r'.column ∘ r.column⟩

theorem below_zero : below 0 = ⟨id, id⟩ := by
  have hline : Option.map (0 + ·) = (id : Option Nat → Option Nat) := by
    funext line
    cases line with
    | none => rfl
    | some l => exact congrArg some (Nat.zero_add l)
  rw [below, hline]

end Relocation

def Leaf.relocated (r : Relocation) (l : Leaf) : Leaf :=
  { l with line := r.line l.line, column := r.column l.column }

mutual

def Value.relocated (r : Relocation) : Value → Value
  | .array vs => .array (Value.allRelocated r vs)
  | .function i ps b => .function i ps (b.relocated r)
  | .int i => .int i
  | .float x => .float x
  | .string s => .string s
  | .bool b => .bool b
  | .absent => .absent
  | .breakSignal => .breakSignal

def Value.allRelocated (r : Relocation) : List Value → List Value
  | [] => []
  | v :: vs => v.relocated r :: Value.allRelocated r vs

def Node.relocated (r : Relocation) : Node → Node
  | .leaf l => .leaf (l.relocated r)
  | .bare v => .bare (v.relocated r)
  | .literal v line => .literal (v.relocated r) (r.line line)
  | .array ns line => .array (Node.allRelocated r ns) (r.line line)
  | .unary op n line => .unary (op.relocated r) (n.relocated r) (r.line line)
  | .binary op a b line => .binary (op.relocated r) (a.relocated r) (b.relocated r) (r.line line)
  | .index a b line => .index (a.relocated r) (b.relocated r) (r.line line)
  | .call a b line => .call (a.relocated r) (b.relocated r) (r.line line)
  | .arguments ns line => .arguments (Node.allRelocated r ns) (r.line line)
  | .parameters ns line => .parameters (Node.allRelocated r ns) (r.line line)
  | .function a b line => .function (a.relocated r) (b.relocated r) (r.line line)
  | .expression n line => .expression (n.relocated r) (r.line line)
  | .print n line => .print (n.relocated r) (r.line line)
  | .declaration a b c line =>
    .declaration (a.relocated r) (b.relocated r) (c.relocated r) (r.line line)
  | .branch a b c line => .branch (a.relocated r) (b.relocated r) (c.relocated r) (r.line line)
  | .loop a b line => .loop (a.relocated r) (b.relocated r) (r.line line)
  | .block ns line => .block (Node.allRelocated r ns) (r.line line)
  | .exit line => .exit (r.line line)
  | .other s ns line => .other s (Node.allRelocated r ns) (r.line line)

def Node.allRelocated (r : Relocation) : List Node → List Node
  | [] => []
  | n :: ns => n.relocated r :: Node.allRelocated r ns

end

variable (r : Relocation)

theorem Value.allRelocated_eq_map (vs : List Value) :
    Value.allRelocated r vs = vs.map (Value.relocated r) := by
  induction vs with
  | nil => rw [Value.allRelocated, List.map_nil]
  | cons v vs ih => rw [Value.allRelocated, ih, List.map_cons]

theorem Node.allRelocated_eq_map (ns : List Node) :
    Node.allRelocated r ns = ns.map (Node.relocated r) := by
  induction ns with
  | nil => rw [Node.allRelocated, List.map_nil]
  | cons n ns ih => rw [Node.allRelocated, ih, List.map_cons]

/-! ## Relocations in sequence -/

theorem Leaf.relocated_id (l : Leaf) : l.relocated ⟨id, id⟩ = l := rfl

mutual

theorem Value.relocated_id (v : Value) : v.relocated ⟨id, id⟩ = v := by
  cases v <;> simp only [Value.relocated]
  case array vs => rw [Value.allRelocated_id]
  case function b => rw [Node.relocated_id]

theorem Value.allRelocated_id (vs : List Value) : Value.allRelocated ⟨id, id⟩ vs = vs := by
  cases vs with
  | nil => rw [Value.allRelocated]
  | cons v vs => rw [Value.allRelocated, Value.relocated_id, Value.allRelocated_id]

theorem Node.relocated_id (n : Node) : n.relocated ⟨id, id⟩ = n := by
  cases n <;>
    simp only [Node.relocated, Leaf.relocated_id, Value.relocated_id, Node.relocated_id,
      Node.allRelocated_id, id]

theorem Node.allRelocated_id (ns : List Node) : Node.allRelocated ⟨id, id⟩ ns = ns := by
  cases ns with
  | nil => rw [Node.allRelocated]
  | cons n ns => rw [Node.allRelocated, Node.relocated_id, Node.allRelocated_id]

end

section
variable (r' : Relocation)

theorem Leaf.relocated_relocated (l : Leaf) :
    (l.relocated r).relocated r' = l.relocated (r'.after r) := rfl

mutual

theorem Value.relocated_relocated (v : Value) :
    (v.relocated r).relocated r' = v.relocated (r'.after r) := by
  cases v <;> simp only [Value.relocated]
  case array vs => rw [Value.allRelocated_allRelocated]
  case function b => rw [Node.relocated_relocated]

theorem Value.allRelocated_allRelocated (vs : List Value) :
    Value.allRelocated r' (Value.allRelocated r vs) = Value.allRelocated (r'.after r) vs := by
  cases vs with
  | nil => simp only [Value.allRelocated]
  | cons v vs =>
    simp only [Value.allRelocated, Value.relocated_relocated v, Value.allRelocated_allRelocated vs]

theorem Node.relocated_relocated (n : Node) :
    (n.relocated r).relocated r' = n.relocated (r'.after r) := by
  cases n <;>
    simp only [Node.relocated, Leaf.relocated_relocated, Value.relocated_relocated,
      Node.relocated_relocated, Node.allRelocated_allRelocated, Relocation.after,
      Function.comp_apply]

theorem Node.allRelocated_allRelocated (ns : List Node) :
    Node.allRelocated r' (Node.allRelocated r ns) = Node.allRelocated (r'.after r) ns := by
  cases ns with
  | nil => simp only [Node.allRelocated]
  | cons n ns =>
    simp only [Node.allRelocated, Node.relocated_relocated n, Node.allRelocated_allRelocated ns]

end

end

/-! ## What stays the same -/

namespace Value

@[simp] theorem relocated_variant (v : Value) : (v.relocated r).variant = v.variant := by
  cases v <;> rfl

@[simp] theorem relocated_isBreak (v : Value) : (v.relocated r).isBreak = v.isBreak := by
  cases v <;> rfl

@[simp] theorem relocated_isResult (v : Value) : (v.relocated r).isResult = v.isResult := by
  cases v <;> rfl

mutual

@[simp] theorem relocated_text (v : Value) : (v.relocated r).text = v.text := by
  cases v <;> simp only [relocated, text]
  case array vs => rw [allRelocated_texts]

theorem allRelocated_texts (vs : List Value) : texts (allRelocated r vs) = texts vs := by
  cases vs with
  | nil => rw [allRelocated]
  | cons v vs => rw [allRelocated, texts, texts, relocated_text, allRelocated_texts]

end

mutual

@[simp] theorem relocated_isWritable (v : Value) :
    (v.relocated r).isWritable = v.isWritable := by
  cases v <;> simp only [relocated, isWritable]
  case array vs => rw [allRelocated_allWritable]

theorem allRelocated_allWritable (vs : List Value) :
    allWritable (allRelocated r vs) = allWritable vs := by
  cases vs with
  | nil => rw [allRelocated]
  | cons v vs =>
    rw [allRelocated, allWritable, allWritable, relocated_isWritable, allRelocated_allWritable]

end

@[simp] theorem relocated_display? (v : Value) : (v.relocated r).display? = v.display? := by
  have hdisplay : (v.relocated r).display = v.display := by
    cases v <;> first | rfl | exact relocated_text r _
  rw [display?, display?, relocated_isWritable, hdisplay]

mutual

@[simp] theorem relocated_equal (v w : Value) :
    (v.relocated r).equal (w.relocated r) = v.equal w := by
  cases v <;> cases w <;> simp only [relocated, equal]
  case array vs ws => rw [allRelocated_equalAll]

theorem allRelocated_equalAll (vs ws : List Value) :
    equalAll (allRelocated r vs) (allRelocated r ws) = equalAll vs ws := by
  cases vs <;> cases ws <;> simp only [allRelocated, equalAll]
  case cons v vs w ws => rw [relocated_equal, allRelocated_equalAll]

end

end Value

theorem Leaf.relocated_shape (l : Leaf) : (l.relocated r).shape = l.shape := rfl

namespace Node

@[simp] theorem relocated_name? (n : Node) : (n.relocated r).name? = n.name? := by
  cases n <;> rfl

@[simp] theorem relocated_children (n : Node) :
    (n.relocated r).children = n.children.map (Node.relocated r) := by
  cases n <;> simp only [relocated, children, allRelocated_eq_map, List.map_cons, List.map_nil]

theorem relocated_line? (hline : r.line none = none) (n : Node) :
    (n.relocated r).line? = r.line n.line? := by
  cases n <;> first | rfl | exact hline.symm

theorem relocated_atLine (line : Nat) (n : Node) :
    (n.atLine line).relocated (.below k) = (n.relocated (.below k)).atLine (k + line) := by
  cases n <;> rfl

mutual

@[simp] theorem relocated_shape (n : Node) : (n.relocated r).shape = n.shape := by
  cases n <;>
    simp only [relocated, shape, Leaf.relocated_shape, Value.relocated_text, relocated_shape,
      allRelocated_shapes]

theorem allRelocated_shapes (ns : List Node) : shapes (allRelocated r ns) = shapes ns := by
  cases ns with
  | nil => rw [allRelocated]
  | cons n ns => rw [allRelocated, shapes, shapes, relocated_shape, allRelocated_shapes]

end

@[simp] theorem relocated_shown (n : Node) : (n.relocated r).shown = n.shown := by
  have hshape := congrArg Shape.inline (relocated_shape r n)
  cases n <;> first | exact hshape | rfl

end Node

end ScopeScript
