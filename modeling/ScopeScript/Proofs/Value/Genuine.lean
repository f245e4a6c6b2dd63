import ScopeScript.Proofs.Node.Derived
import ScopeScript.Value.Operator

/-!
# Genuine values

A name holds a genuine value: neither the lack of a value nor the break signal,
at no depth of an array, and with a body from a program if it is a function.
The operators that programs can spell make genuine values or have a fault of
the program.
-/

namespace ScopeScript

/-! ## Parts of programs -/

/-- A node and the nodes below it. -/
inductive Node.PartOf : Node → Node → Prop where
  | self {n : Node} : PartOf n n
  | child {n m p : Node} : n ∈ m.children → PartOf m p → PartOf n p

/-- A part of a program that was read. -/
def Node.IsRead (n : Node) : Prop := ∃ nesting cs p, parse nesting cs = .ok p ∧ n.PartOf p

theorem Node.IsRead.child {n m : Node} (hm : m.IsRead) (hn : n ∈ m.children) : n.IsRead := by
  obtain ⟨nesting, cs, p, hp, hpart⟩ := hm
  exact ⟨nesting, cs, p, hp, .child hn hpart⟩

/-! ## Values -/

inductive Value.Genuine : Value → Prop where
  | int (i : Int) : Genuine (.int i)
  | float (x : Binary64) : Genuine (.float x)
  | string (s : String) : Genuine (.string s)
  | bool (b : Bool) : Genuine (.bool b)
  | array {items : List Value} : (∀ v ∈ items, Genuine v) → Genuine (.array items)
  | function {identity : Nat} {parameters : List String} {body : Node} : body.IsRead →
    body.WellFormed Binary64.IsLiteral .block → Genuine (.function identity parameters body)

theorem Value.Genuine.isResult {v : Value} (h : v.Genuine) : v.isResult = true := by
  cases h <;> rfl

/-- A value without values or trees inside. -/
inductive Value.Scalar : Value → Prop where
  | int (i : Int) : Scalar (.int i)
  | float (x : Binary64) : Scalar (.float x)
  | string (s : String) : Scalar (.string s)
  | bool (b : Bool) : Scalar (.bool b)

theorem Value.Scalar.genuine {v : Value} (h : v.Scalar) : v.Genuine := by
  cases h with
  | int i => exact .int i
  | float x => exact .float x
  | string s => exact .string s
  | bool b => exact .bool b

/-! ## Faults -/

namespace Fault

/-- The faults that no program has: trees of the wrong form, and files that are directories. -/
def isInternal : Fault → Bool
  | .runtime (.malformed _) _ | .isDirectory _ => true
  | _ => false

theorem isInternal_locate (line : Option Nat) (f : Fault) :
    (f.locate line).isInternal = f.isInternal := by
  unfold locate
  split
  next cause => cases cause <;> rfl
  next => rfl

/-- The result, if there is one, has a property; a fault is not an internal one. -/
inductive Yields {α : Type} (post : α → Prop) : Except Fault α → Prop where
  | ok {a : α} : post a → Yields post (.ok a)
  | error {f : Fault} : f.isInternal = false → Yields post (.error f)

variable {α β : Type} {mid : α → Prop} {post : β → Prop} {r : Except Fault α}

theorem Yields.of_ok {a : α} (h : Yields mid r) (hr : r = .ok a) : mid a := by
  subst hr
  cases h with
  | ok ha => exact ha

theorem Yields.mono {mid' : α → Prop} (h : Yields mid r) (hmono : ∀ a, mid a → mid' a) :
    Yields mid' r := by
  cases h with
  | ok ha => exact .ok (hmono _ ha)
  | error hf => exact .error hf

theorem Yields.map {g : α → β} (h : Yields mid r) (hg : ∀ a, mid a → post (g a)) :
    Yields post (r.map g) := by
  cases h with
  | ok ha => exact .ok (hg _ ha)
  | error hf => exact .error hf

theorem Yields.bind {f : α → Except Fault β} (h : Yields mid r)
    (hf : ∀ a, mid a → Yields post (f a)) : Yields post (r >>= f) := by
  cases h with
  | ok ha => exact hf _ ha
  | error he => exact .error he

theorem Yields.ite {c : Prop} [Decidable c] {r' : Except Fault α} (h : Yields mid r)
    (h' : Yields mid r') : Yields mid (if c then r else r') := by
  by_cases hc : c
  · rwa [if_pos hc]
  · rwa [if_neg hc]

end Fault

/-! ## Operators -/

namespace Value

open Fault (Yields)

variable {op : String} {a b : Value}

theorem floatOfInt_yields (i : Int) : Yields (fun _ => True) (floatOfInt i) :=
  .ite (.error rfl) (.ok trivial)

theorem onFloats_yields (f : Binary64 → Binary64 → Binary64) :
    Yields Scalar (onFloats op f a b) := by
  unfold onFloats
  split
  · exact (floatOfInt_yields _).map fun _ _ => .float _
  · exact (floatOfInt_yields _).map fun _ _ => .float _
  · exact .ok (.float _)
  · exact .error rfl

theorem arithmetic_yields (f : Int → Int → Int) (g : Binary64 → Binary64 → Binary64) :
    Yields Scalar (arithmetic op f g a b) := by
  unfold arithmetic
  split
  · exact .ok (.int _)
  · exact onFloats_yields g

theorem display?_yields (v : Value) : Yields (fun _ => True) v.display? :=
  .ite (.ok trivial) (.error rfl)

theorem add_yields : Yields Scalar (add a b) := by
  refine .ite (.ite ?_ (.error rfl)) (arithmetic_yields _ _)
  exact (display?_yields a).bind fun _ _ => (display?_yields b).bind fun _ _ => .ok (.string _)

theorem divide_yields : Yields Scalar (divide a b) := by
  refine .ite (.error rfl) ?_
  split
  · exact .ite (.ok (.int _)) (.ite (.error rfl) (.ok (.float _)))
  · exact onFloats_yields _

theorem modulo_yields : Yields Scalar (modulo a b) := by
  unfold modulo
  split
  · exact .ite (.error rfl) (.ok (.int _))
  · exact .ite (.error rfl) (.ite (.error rfl) (.ok (.float _)))
  · exact .error rfl

theorem order_yields (compare : Place → Place → Bool) :
    Yields Scalar (order op compare a b) := by
  refine .ite ?_ (.error rfl)
  split
  · exact .ok (.bool _)
  · exact .ok (.bool _)

theorem toBool_yields (context : String) (v : Value) :
    Yields (fun _ => True) (v.toBool context) := by
  cases v with
  | bool b => exact .ok trivial
  | _ => exact .error rfl

theorem both_yields : Yields Scalar (both a b) := by
  refine (toBool_yields _ a).bind fun s _ => .ite ?_ (.ok (.bool _))
  exact (toBool_yields _ b).bind fun _ _ => .ok (.bool _)

theorem either_yields : Yields Scalar (either a b) := by
  refine (toBool_yields _ a).bind fun s _ => .ite (.ok (.bool _)) ?_
  exact (toBool_yields _ b).bind fun _ _ => .ok (.bool _)

theorem negate_yields (v : Value) : Yields Scalar v.negate := by
  cases v with
  | int i => exact .ok (.int _)
  | float x => exact .ok (.float _)
  | _ => exact .error rfl

/-- The spellings of operators on two values; `.` has no values and `+=` and `-=` have none
but in statements. -/
def binarySpellings : List String :=
  ["==", "!=", "<", ">", "<=", ">=", "&&", "||", "%", "+", "-", "*", "/"]

theorem applyBinary_of_notMem (hop : op ∉ binarySpellings) (a b : Value) :
    a.applyBinary op b = .error (.malformed (.unknownOperator op)) := by
  unfold applyBinary
  split <;> first | rfl | exact absurd (by decide) hop

theorem applyBinary_scalar (hop : op ∈ binarySpellings) (a b : Value) :
    Yields Scalar (a.applyBinary op b) := by
  unfold applyBinary
  split
  · exact add_yields
  · exact arithmetic_yields _ _
  · exact arithmetic_yields _ _
  · exact divide_yields
  · exact modulo_yields
  · exact .ok (.bool _)
  · exact .ok (.bool _)
  · exact order_yields _
  · exact order_yields _
  · exact order_yields _
  · exact order_yields _
  · exact both_yields
  · exact either_yields
  next => simp_all [binarySpellings]

theorem applyUnary_scalar (hop : op = "-" ∨ op = "!") (v : Value) :
    Yields Scalar (v.applyUnary op) := by
  rcases hop with rfl | rfl
  · exact negate_yields v
  · exact (toBool_yields _ v).map fun _ _ => .bool _

theorem applyBinary_yields (hop : op ∈ binarySpellings) (a b : Value) :
    Yields Genuine (a.applyBinary op b) :=
  (applyBinary_scalar hop a b).mono fun _ => Scalar.genuine

theorem applyUnary_yields (hop : op = "-" ∨ op = "!") (v : Value) :
    Yields Genuine (v.applyUnary op) :=
  (applyUnary_scalar hop v).mono fun _ => Scalar.genuine

/-- Operators make scalars, whatever their spelling. -/
theorem scalar_of_applyBinary {v : Value} (h : a.applyBinary op b = .ok v) : v.Scalar := by
  by_cases hop : op ∈ binarySpellings
  · exact (applyBinary_scalar hop a b).of_ok h
  · rw [applyBinary_of_notMem hop] at h
    cases h

theorem scalar_of_applyUnary {v : Value} (h : a.applyUnary op = .ok v) : v.Scalar := by
  by_cases hop : op = "-" ∨ op = "!"
  · exact (applyUnary_scalar hop a).of_ok h
  · obtain ⟨hminus, hbang⟩ := not_or.mp hop
    unfold applyUnary at h
    split at h
    · exact absurd rfl hminus
    · exact absurd rfl hbang
    · cases h

/-! ## Indices -/

theorem toItems_yields (context : String) {v : Value} (hv : v.Genuine) :
    Yields (fun items => ∀ w ∈ items, w.Genuine) (v.toItems context) := by
  cases hv with
  | array h => exact .ok h
  | _ => exact .error rfl

theorem toInteger_yields (v : Value) : Yields (fun _ => True) v.toInteger := by
  unfold toInteger
  split
  · exact .ok trivial
  · split
    · exact .ok trivial
    · exact .error rfl
  · exact .error rfl

theorem toIndex_yields (v : Value) : Yields (fun _ => True) v.toIndex :=
  (toInteger_yields v).bind fun _ _ => .ite (.ok trivial) (.ite (.error rfl) (.error rfl))

theorem itemAt_yields {items : List Value} (h : ∀ v ∈ items, v.Genuine) (index : Nat) :
    Yields Genuine (itemAt items index) := by
  unfold itemAt
  split
  next v hv => exact .ok (h v (List.mem_of_getElem? hv))
  next => exact .ite (.error rfl) (.error rfl)

end Value

/-! ## Spellings -/

namespace Leaf

variable {l : Leaf} {k : Kind}

/-- An infix operator accesses a member, assigns or is an operator on two values. -/
theorem Spells.binary {s : Stratum} (hk : k ∈ s.operators) (h : l.Spells k) :
    l.text = "." ∨ l.text = "+=" ∨ l.text = "-=" ∨ l.text ∈ Value.binarySpellings := by
  have hall : ∀ p ∈ Lexer.symbols, p.2 ∈ s.operators →
      String.ofList p.1 = "." ∨ String.ofList p.1 = "+=" ∨ String.ofList p.1 = "-=" ∨
        String.ofList p.1 ∈ Value.binarySpellings := by
    cases s <;> decide
  have hspelled := hall _ h.2 hk
  rwa [String.ofList_toList] at hspelled

theorem Spells.unary (hk : k = .minus ∨ k = .bang) (h : l.Spells k) :
    l.text = "-" ∨ l.text = "!" := by
  have hall : ∀ p ∈ Lexer.symbols, p.2 = .minus ∨ p.2 = .bang →
      String.ofList p.1 = "-" ∨ String.ofList p.1 = "!" := by
    decide
  have hspelled := hall _ h.2 hk
  rwa [String.ofList_toList] at hspelled

end Leaf

end ScopeScript
