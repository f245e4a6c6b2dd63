import ScopeScript.Proofs.Node.Relocated
import ScopeScript.Proofs.Value.Genuine

/-!
# Operators on values in other places

Operators and indices do not look at the places that the bodies of functions
carry along, and no fault of theirs has a line: relocating the values before
or after an operation comes to the same.
-/

namespace ScopeScript

abbrev Value.lineless (v : Value) : Value := v.relocated .lineless

abbrev Node.lineless (n : Node) : Node := n.relocated .lineless

/-- A tree without a line stays without one, and lines are dropped from all trees or from none. -/
structure Relocation.Uniform (r : Relocation) : Prop where
  none : r.line none = none
  drops {l : Nat} : r.line (some l) = Option.none → ∀ line, r.line line = Option.none

namespace Relocation.Uniform

theorem lineless : Relocation.lineless.Uniform := ⟨rfl, fun _ _ => rfl⟩

theorem ofMap (g : Nat → Nat) (column : Option Nat → Option Nat) :
    Relocation.Uniform ⟨Option.map g, column⟩ := ⟨rfl, nofun⟩

end Relocation.Uniform

namespace Fault

/-- The fault without the line of a node; its cause stays. -/
def lineless : Fault → Fault
  | .runtime cause _ => .runtime cause none
  | fault => fault

/-- The fault with the line of a node moved; its cause stays. -/
def relocated (r : Relocation) : Fault → Fault
  | .runtime cause line => .runtime cause (r.line line)
  | fault => fault

theorem relocated_lineless (fault : Fault) : fault.relocated .lineless = fault.lineless := by
  cases fault <;> rfl

theorem relocated_locate {r : Relocation} (hr : r.Uniform) (line : Option Nat) (fault : Fault) :
    (fault.locate line).relocated r = (fault.relocated r).locate (r.line line) := by
  unfold locate
  split
  next =>
    rw [relocated, relocated, hr.none]
  next hfault =>
    cases fault with
    | runtime cause line' =>
      cases line' with
      | none => exact absurd rfl (hfault cause)
      | some l =>
        rw [relocated]
        split
        next heq =>
          obtain ⟨rfl, hnone⟩ := runtime.inj heq
          rw [hnone, hr.drops hnone]
        next => rfl
    | _ => rfl

variable {α β : Type}

/-- Takes the lines from a result, those of a value as `f` says. -/
def strip (f : α → β) : Except Fault α → Except Fault β
  | .ok a => .ok (f a)
  | .error fault => .error fault.lineless

/-- Moves the lines of a result, those of a value as `f` says. -/
def moved (r : Relocation) (f : α → β) : Except Fault α → Except Fault β
  | .ok a => .ok (f a)
  | .error fault => .error (fault.relocated r)

theorem moved_lineless (f : α → β) (x : Except Fault α) : moved .lineless f x = strip f x := by
  cases x with
  | ok a => rfl
  | error fault => exact congrArg Except.error (relocated_lineless fault)

/-- No fault of this result has a line. -/
def Bare (x : Except Fault α) : Prop := x = strip id x

theorem Bare.moved {x : Except Fault α} (hx : Bare x) {r : Relocation} (hr : r.line none = none)
    (f : α → β) : moved r f x = strip f x := by
  cases x with
  | ok a => rfl
  | error fault =>
    rw [Fault.moved, strip, Except.error.inj hx]
    cases fault <;> simp only [lineless, Fault.relocated, hr]

variable {γ δ : Type} {f : α → β} {g : γ → δ} {r : Except Fault α} {r' : Except Fault β}

theorem strip_bind {h : α → Except Fault γ} {h' : β → Except Fault δ} (hr : r' = strip f r)
    (hh : ∀ a, h' (f a) = strip g (h a)) : r' >>= h' = strip g (r >>= h) := by
  rw [hr]
  cases r with
  | ok a => exact hh a
  | error fault => rfl

theorem strip_map {h : α → γ} {h' : β → δ} (hr : r' = strip f r)
    (hh : ∀ a, h' (f a) = g (h a)) : r'.map h' = strip g (r.map h) := by
  rw [hr]
  cases r with
  | ok a => exact congrArg Except.ok (hh a)
  | error fault => rfl

theorem strip_ite {c c' : Prop} [Decidable c] [Decidable c'] {x y : Except Fault α}
    {x' y' : Except Fault β} (hc : c' ↔ c) (hx : x' = strip f x) (hy : y' = strip f y) :
    (if c' then x' else y') = strip f (if c then x else y) := by
  by_cases h : c
  · rw [if_pos h, if_pos (hc.mpr h), hx]
  · rw [if_neg h, if_neg (mt hc.mp h), hy]

end Fault

namespace Value

open Fault (Bare strip strip_bind strip_map strip_ite)

variable {op : String} {a b : Value} {r : Relocation}

@[simp] theorem relocated_isString (v : Value) : (v.relocated r).isString = v.isString := by
  cases v <;> rfl

@[simp] theorem relocated_isTextLike (v : Value) :
    (v.relocated r).isTextLike = v.isTextLike := by
  cases v <;> rfl

@[simp] theorem relocated_isNumber (v : Value) : (v.relocated r).isNumber = v.isNumber := by
  cases v <;> rfl

@[simp] theorem relocated_isZero (v : Value) : (v.relocated r).isZero = v.isZero := by
  cases v <;> rfl

@[simp] theorem relocated_place? (v : Value) : (v.relocated r).place? = v.place? := by
  cases v <;> rfl

theorem relocated_mismatched :
    mismatched op (a.relocated r) (b.relocated r) = strip (relocated r) (mismatched op a b) := by
  rw [mismatched, mismatched, relocated_variant, relocated_variant]
  rfl

theorem strip_floatOfInt (i : Int) : floatOfInt i = strip id (floatOfInt i) :=
  strip_ite Iff.rfl rfl rfl

theorem relocated_onFloats (f : Binary64 → Binary64 → Binary64) :
    onFloats op f (a.relocated r) (b.relocated r) = strip (relocated r) (onFloats op f a b) := by
  cases a <;> cases b <;>
    first
    | rfl
    | exact strip_map (strip_floatOfInt _) fun _ => rfl

theorem relocated_arithmetic (f : Int → Int → Int) (g : Binary64 → Binary64 → Binary64) :
    arithmetic op f g (a.relocated r) (b.relocated r) =
      strip (relocated r) (arithmetic op f g a b) := by
  have hfloats : onFloats op g (a.relocated r) (b.relocated r) =
      strip (relocated r) (onFloats op g a b) := relocated_onFloats g
  cases a <;> cases b <;> first | rfl | exact hfloats

theorem strip_display? (v : Value) : (v.relocated r).display? = strip id v.display? := by
  rw [relocated_display?, display?]
  split <;> rfl

theorem relocated_concat :
    concat (a.relocated r) (b.relocated r) = strip (relocated r) (concat a b) := by
  refine strip_ite (by rw [relocated_isTextLike, relocated_isTextLike]) ?_ relocated_mismatched
  exact strip_bind (strip_display? a) fun s => strip_bind (strip_display? b) fun t => rfl

theorem relocated_add : add (a.relocated r) (b.relocated r) = strip (relocated r) (add a b) :=
  strip_ite (by rw [relocated_isString, relocated_isString]) relocated_concat
    (relocated_arithmetic _ _)

theorem relocated_divide :
    divide (a.relocated r) (b.relocated r) = strip (relocated r) (divide a b) := by
  refine strip_ite (by rw [relocated_isNumber, relocated_isZero]) rfl ?_
  have hfloats : onFloats "/" Binary64.div (a.relocated r) (b.relocated r) =
      strip (relocated r) (onFloats "/" Binary64.div a b) := relocated_onFloats _
  cases a <;> cases b <;>
    first
    | exact hfloats
    | exact strip_ite Iff.rfl rfl (strip_ite Iff.rfl rfl rfl)

theorem relocated_modulo :
    modulo (a.relocated r) (b.relocated r) = strip (relocated r) (modulo a b) := by
  cases a <;> cases b <;>
    first
    | rfl
    | exact strip_ite Iff.rfl rfl rfl
    | exact strip_ite Iff.rfl rfl (strip_ite Iff.rfl rfl rfl)

theorem relocated_order (compare : Place → Place → Bool) :
    order op compare (a.relocated r) (b.relocated r) = strip (relocated r) (order op compare a b) := by
  refine strip_ite (by rw [relocated_isNumber, relocated_isNumber]) ?_ relocated_mismatched
  rw [relocated_place?, relocated_place?]
  split <;> rfl

theorem strip_toBool (context : String) (v : Value) :
    (v.relocated r).toBool context = strip id (v.toBool context) := by
  cases v <;> rfl

theorem relocated_both : both (a.relocated r) (b.relocated r) = strip (relocated r) (both a b) :=
  strip_bind (strip_toBool _ a) fun _ => strip_ite Iff.rfl
    (strip_bind (strip_toBool _ b) fun _ => rfl) rfl

theorem relocated_either :
    either (a.relocated r) (b.relocated r) = strip (relocated r) (either a b) :=
  strip_bind (strip_toBool _ a) fun _ => strip_ite Iff.rfl rfl
    (strip_bind (strip_toBool _ b) fun _ => rfl)

theorem relocated_applyBinary (op : String) (a b : Value) :
    (a.relocated r).applyBinary op (b.relocated r) = strip (relocated r) (a.applyBinary op b) := by
  by_cases hop : op ∈ binarySpellings
  · have hequal := relocated_equal r a b
    simp only [binarySpellings, List.mem_cons, List.not_mem_nil, or_false] at hop
    rcases hop with rfl | rfl | rfl | rfl | rfl | rfl | rfl | rfl | rfl | rfl | rfl | rfl | rfl
    · exact congrArg (fun e => Except.ok (Value.bool e)) hequal
    · exact congrArg (fun e => Except.ok (Value.bool !e)) hequal
    · exact relocated_order _
    · exact relocated_order _
    · exact relocated_order _
    · exact relocated_order _
    · exact relocated_both
    · exact relocated_either
    · exact relocated_modulo
    · exact relocated_add
    · exact relocated_arithmetic _ _
    · exact relocated_arithmetic _ _
    · exact relocated_divide
  · rw [applyBinary_of_notMem hop, applyBinary_of_notMem hop]
    rfl

theorem relocated_applyUnary (op : String) (v : Value) :
    (v.relocated r).applyUnary op = strip (relocated r) (v.applyUnary op) := by
  unfold applyUnary
  split
  · cases v <;> rfl
  · exact strip_map (strip_toBool _ v) fun _ => rfl
  · rfl

/-! ## Indices -/

theorem relocated_toItems (context : String) (v : Value) :
    (v.relocated r).toItems context = strip (List.map (relocated r)) (v.toItems context) := by
  cases v with
  | array vs => exact congrArg Except.ok (allRelocated_eq_map r vs)
  | _ => rfl

theorem strip_toInteger (v : Value) : (v.relocated r).toInteger = strip id v.toInteger := by
  cases v with
  | float x =>
    change (Value.float x).toInteger = _
    unfold toInteger
    dsimp only
    split <;> rfl
  | _ => rfl

theorem strip_toIndex (v : Value) : (v.relocated r).toIndex = strip id v.toIndex :=
  strip_bind (strip_toInteger v) fun _ => strip_ite Iff.rfl rfl (strip_ite Iff.rfl rfl rfl)

theorem relocated_itemAt (items : List Value) (index : Nat) :
    itemAt (items.map (relocated r)) index = strip (relocated r) (itemAt items index) := by
  unfold itemAt
  rw [List.getElem?_map, List.length_map]
  cases items[index]? with
  | some v => rfl
  | none => exact strip_ite Iff.rfl rfl rfl

/-! ## Faults of operators

A relocation that moves nothing shows that the faults have no line. -/

theorem relocated_unmoved : relocated ⟨id, id⟩ = id := funext relocated_id

theorem bare_applyUnary (op : String) (v : Value) : Bare (v.applyUnary op) := by
  have h := relocated_applyUnary (r := ⟨id, id⟩) op v
  rwa [relocated_unmoved] at h

theorem bare_applyBinary (op : String) (a b : Value) : Bare (a.applyBinary op b) := by
  have h := relocated_applyBinary (r := ⟨id, id⟩) op a b
  rwa [relocated_unmoved] at h

theorem bare_display? (v : Value) : Bare v.display? := by
  have h := strip_display? (r := ⟨id, id⟩) v
  rwa [relocated_unmoved] at h

theorem bare_toItems (context : String) (v : Value) : Bare (v.toItems context) := by
  have h := relocated_toItems (r := ⟨id, id⟩) context v
  rwa [relocated_unmoved, List.map_id_fun] at h

theorem bare_toIndex (v : Value) : Bare v.toIndex := by
  have h := strip_toIndex (r := ⟨id, id⟩) v
  rwa [relocated_unmoved] at h

theorem bare_itemAt (items : List Value) (index : Nat) : Bare (itemAt items index) := by
  have h := relocated_itemAt (r := ⟨id, id⟩) items index
  rwa [relocated_unmoved, List.map_id] at h

end Value

end ScopeScript
