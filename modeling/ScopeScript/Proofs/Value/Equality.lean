import Mathlib.Data.List.Forall2
import ScopeScript.Value

/-!
# Equality of values

Equality compares variants and contents, and the items of arrays in pairs. It is
symmetric and transitive but not reflexive: a NaN equals nothing. Where neither
floats nor functions occur it is identity.
-/

namespace ScopeScript

namespace Binary64

variable {x y z : Binary64}

theorem equal_iff : x.equal y = true ↔
    x ≠ .nan ∧ y ≠ .nan ∧ (x = y ∨ x.isZero = true ∧ y.isZero = true) := by
  cases x <;> cases y <;> simp [equal]

theorem equal_symm (h : x.equal y = true) : y.equal x = true := by
  obtain ⟨hx, hy, hxy⟩ := equal_iff.mp h
  exact equal_iff.mpr ⟨hy, hx, hxy.imp Eq.symm And.symm⟩

theorem equal_trans (h : x.equal y = true) (h' : y.equal z = true) : x.equal z = true := by
  obtain ⟨hx, -, hxy⟩ := equal_iff.mp h
  obtain ⟨-, hz, hyz⟩ := equal_iff.mp h'
  refine equal_iff.mpr ⟨hx, hz, ?_⟩
  rcases hxy with rfl | ⟨hx₀, hy₀⟩
  · exact hyz
  · rcases hyz with rfl | ⟨-, hz₀⟩
    · exact .inr ⟨hx₀, hy₀⟩
    · exact .inr ⟨hx₀, hz₀⟩

end Binary64

namespace Value

/-- What holds of a value if it holds of its items holds of every value. -/
theorem items_induction {P : Value → Prop}
    (step : ∀ v, (∀ items, v = .array items → ∀ u ∈ items, P u) → P v) (v : Value) : P v :=
  step v fun items hv u hu =>
    have : sizeOf u < sizeOf v := by
      have hmem := List.sizeOf_lt_of_mem hu
      rw [hv, array.sizeOf_spec]
      omega
    items_induction step u
termination_by sizeOf v

/-! ## One step of comparing -/

/-- Values of one variant with the same contents, where `R` compares the items of arrays. -/
inductive Matches (R : Value → Value → Prop) : Value → Value → Prop where
  | int (i : Int) : Matches R (.int i) (.int i)
  | float {x y : Binary64} : x.equal y = true → Matches R (.float x) (.float y)
  | string (s : String) : Matches R (.string s) (.string s)
  | bool (b : Bool) : Matches R (.bool b) (.bool b)
  | array {vs ws : List Value} : List.Forall₂ R vs ws → Matches R (.array vs) (.array ws)
  | function {identity : Nat} {parameters parameters' : List String} {body body' : Node} :
    Matches R (.function identity parameters body) (.function identity parameters' body')

variable {u v w : Value} {vs ws : List Value}

theorem equalAll_iff :
    equalAll vs ws = true ↔ List.Forall₂ (fun v w => v.equal w = true) vs ws := by
  induction vs generalizing ws with
  | nil => cases ws <;> simp [equalAll]
  | cons v vs ih => cases ws <;> simp [equalAll, ih]

theorem equal_iff : v.equal w = true ↔ Matches (fun v w => v.equal w = true) v w := by
  constructor
  · intro h
    unfold equal at h
    split at h
    next i j =>
      obtain rfl := of_decide_eq_true h
      exact .int i
    next => exact .float h
    next s t =>
      obtain rfl := of_decide_eq_true h
      exact .string s
    next b c =>
      obtain rfl := of_decide_eq_true h
      exact .bool b
    next => exact .array (equalAll_iff.mp h)
    next i _ _ j _ _ =>
      obtain rfl := of_decide_eq_true h
      exact .function
    next => cases h
  · intro h
    cases h with
    | int i | string s | bool b | function => exact decide_eq_true rfl
    | float h => exact h
    | array h => exact equalAll_iff.mpr h

/-! ## Laws -/

theorem equal_symm (h : v.equal w = true) : w.equal v = true := by
  induction v using items_induction generalizing w with
  | step v ih =>
    refine equal_iff.mpr ?_
    cases equal_iff.mp h with
    | int i => exact .int i
    | float h => exact .float (Binary64.equal_symm h)
    | string s => exact .string s
    | bool b => exact .bool b
    | array hitems =>
      have hboth := (List.forall₂_and_left _ _).mpr ⟨ih _ rfl, hitems⟩
      exact .array (List.Forall₂.flip (hboth.imp fun v w h => h.1 h.2))
    | function => exact .function

theorem equal_comm (v w : Value) : v.equal w = w.equal v :=
  Bool.eq_iff_iff.mpr ⟨equal_symm, equal_symm⟩

theorem items_trans {us : List Value}
    (hus : ∀ u ∈ us, ∀ {v w}, u.equal v = true → v.equal w = true → u.equal w = true)
    (h : List.Forall₂ (fun v w => v.equal w = true) us vs)
    (h' : List.Forall₂ (fun v w => v.equal w = true) vs ws) :
    List.Forall₂ (fun v w => v.equal w = true) us ws := by
  induction h generalizing ws with
  | nil => exact h'
  | cons hu _ ih =>
    cases h' with
    | cons hv hrest =>
      obtain ⟨hhead, htail⟩ := List.forall_mem_cons.mp hus
      exact .cons (hhead hu hv) (ih htail hrest)

theorem equal_trans (h : u.equal v = true) (h' : v.equal w = true) : u.equal w = true := by
  induction u using items_induction generalizing v w with
  | step u ih =>
    refine equal_iff.mpr ?_
    cases equal_iff.mp h with
    | int _ | string _ | bool _ => exact equal_iff.mp h'
    | float hx =>
      cases equal_iff.mp h' with
      | float hy => exact .float (Binary64.equal_trans hx hy)
    | array hvs =>
      cases equal_iff.mp h' with
      | array hws => exact .array (items_trans (ih _ rfl) hvs hws)
    | function =>
      cases equal_iff.mp h' with
      | function => exact .function

/-! ## Places inside values -/

/-- The value at a place: the path gives an index into each array, the outermost first. -/
def at? : List Nat → Value → Option Value
  | [], v => some v
  | i :: path, .array items => items[i]?.bind (at? path)
  | _ :: _, _ => none

theorem Matches.variant_eq {R : Value → Value → Prop} (h : Matches R v w) :
    v.variant = w.variant := by
  cases h <;> rfl

theorem items_at {R : Value → Value → Prop} (h : List.Forall₂ R vs ws) (i : Nat) :
    Option.Rel R vs[i]? ws[i]? := by
  induction h generalizing i with
  | nil => exact .none
  | cons hv _ ih =>
    cases i with
    | zero => exact .some hv
    | succ i => exact ih i

/-- Equal values are of one variant at every place, and have the same places. -/
theorem variant_at (h : v.equal w = true) (path : List Nat) :
    (v.at? path).map variant = (w.at? path).map variant := by
  induction path generalizing v w with
  | nil => exact congrArg some (equal_iff.mp h).variant_eq
  | cons i path ih =>
    cases equal_iff.mp h with
    | @array vs ws hitems =>
      have hitem := items_at hitems i
      rw [at?, at?]
      generalize vs[i]? = o at hitem
      generalize ws[i]? = o' at hitem
      cases hitem with
      | none => rfl
      | some hequal => exact ih hequal
    | _ => rfl

/-! ## Identity -/

/-- A value that a name can hold, in which neither a float nor a function occurs. -/
inductive Discrete : Value → Prop where
  | int (i : Int) : Discrete (.int i)
  | string (s : String) : Discrete (.string s)
  | bool (b : Bool) : Discrete (.bool b)
  | array {items : List Value} : (∀ v ∈ items, Discrete v) → Discrete (.array items)

theorem Discrete.equal_iff_eq (h : v.Discrete) : v.equal w = true ↔ v = w := by
  constructor
  · intro hequal
    induction h generalizing w with
    | int _ | string _ | bool _ =>
      cases equal_iff.mp hequal
      rfl
    | array _ ih =>
      cases equal_iff.mp hequal with
      | array hitems =>
        have hboth := (List.forall₂_and_left _ _).mpr ⟨ih, hitems⟩
        have hsame := hboth.imp fun v w h => h.1 h.2
        rw [List.forall₂_eq_eq_eq] at hsame
        rw [hsame]
  · rintro rfl
    induction h with
    | int i => exact equal_iff.mpr (.int i)
    | string s => exact equal_iff.mpr (.string s)
    | bool b => exact equal_iff.mpr (.bool b)
    | array _ ih => exact equal_iff.mpr (.array (List.forall₂_same.mpr ih))

end Value

end ScopeScript
