import ScopeScript.Proofs.Value.Genuine

/-!
# The variants that an operator takes

Each operator takes certain pairs of variants. Operands outside its table are a
mismatch, whatever values they are, and operands inside it never are. One thing
is decided by a value: a conjunction that begins with false, or a disjunction
that begins with true, has its result before the second operand is looked at.
-/

namespace ScopeScript

/-! ## Tables -/

namespace Variant

def isNumber : Variant → Bool
  | .integer | .float => true
  | _ => false

def isTextLike (u : Variant) : Bool := u.isNumber || u = .string

/-- The pairs of variants that the operator of a given spelling takes. -/
def takes (op : String) (u v : Variant) : Bool :=
  match op with
  | "+" => u.isNumber && v.isNumber ||
      (u = .string || v = .string) && (u.isTextLike && v.isTextLike)
  | "-" | "*" | "/" | "<" | ">" | "<=" | ">=" => u.isNumber && v.isNumber
  | "%" => u.isNumber && u = v
  | "&&" | "||" => u = .boolean && v = .boolean
  | "==" | "!=" => true
  | _ => false

/-- The mismatch that the operator reports, which follows from the variants as well. -/
def mismatch (op : String) (u v : Variant) : Mismatch :=
  match op with
  | "&&" | "||" => .expectsBoolean ("'" ++ op ++ "'") (if u = .boolean then v else u)
  | op => .operands op u v

end Variant

namespace Value

/-- An operand in front that decides a connective alone. -/
def settles (op : String) : Value → Bool
  | .bool b => if b then op = "||" else op = "&&"
  | _ => false

variable {op : String} {a b : Value} {taken : Bool} {what : Mismatch} {r : Except Fault Value}

/-- The outcome is the mismatch `what` if the operands are not taken, and no mismatch if
they are. -/
def Typed (taken : Bool) (what : Mismatch) (r : Except Fault Value) : Prop :=
  ∀ m line, r = .error (.runtime (.mismatch m) line) ↔ taken = false ∧ m = what ∧ line = none

theorem Typed.inside (h : ∀ m line, r ≠ .error (.runtime (.mismatch m) line)) :
    Typed true what r :=
  fun m line => ⟨fun hr => absurd hr (h m line), nofun⟩

theorem Typed.ok (v : Value) : Typed true what (.ok v) :=
  .inside fun _ _ hr => nomatch hr

theorem Typed.outside : Typed false what (.error (.mismatch what)) := by
  intro m line
  constructor
  · intro h
    cases h
    exact ⟨rfl, rfl, rfl⟩
  · rintro ⟨-, rfl, rfl⟩
    rfl

/-! ## Numbers -/

theorem isNumber_eq (v : Value) : v.isNumber = v.variant.isNumber := by
  cases v <;> rfl

theorem isTextLike_eq (v : Value) : v.isTextLike = v.variant.isTextLike := by
  cases v <;> rfl

theorem isString_eq (v : Value) : v.isString = decide (v.variant = .string) := by
  cases v <;> rfl

theorem isNumber_of_isZero {v : Value} (h : v.isZero = true) : v.variant.isNumber = true := by
  cases v with
  | int _ | float _ => rfl
  | _ => cases h

theorem floatOfInt_ne_mismatch {i : Int} (m : Mismatch) (line : Option Nat) :
    floatOfInt i ≠ .error (.runtime (.mismatch m) line) := by
  unfold floatOfInt
  dsimp only
  split <;> nofun

theorem onFloats_typed (f : Binary64 → Binary64 → Binary64)
    (h : ∀ i j, a = .int i → b = .int j → False) :
    Typed (a.variant.isNumber && b.variant.isNumber) (.operands op a.variant b.variant)
      (onFloats op f a b) := by
  cases a with
  | int i =>
    cases b with
    | int j => exact (h i j rfl rfl).elim
    | float y =>
      exact .inside fun m line hr => floatOfInt_ne_mismatch m line (Fault.map_eq_error_iff.mp hr)
    | _ => exact .outside
  | float x =>
    cases b with
    | int j =>
      exact .inside fun m line hr => floatOfInt_ne_mismatch m line (Fault.map_eq_error_iff.mp hr)
    | float y => exact .ok _
    | _ => exact .outside
  | _ => cases b <;> exact .outside

theorem arithmetic_typed (f : Int → Int → Int) (g : Binary64 → Binary64 → Binary64) :
    Typed (a.variant.isNumber && b.variant.isNumber) (.operands op a.variant b.variant)
      (arithmetic op f g a b) := by
  unfold arithmetic
  split
  · exact .ok _
  next h => exact onFloats_typed g h

theorem divide_typed : Typed (a.variant.isNumber && b.variant.isNumber)
    (.operands "/" a.variant b.variant) (divide a b) := by
  unfold divide
  split
  next hzero =>
    -- A zero is a number too, so that this test takes no pair out of the table.
    obtain ⟨ha, hb⟩ := Bool.and_eq_true_iff.mp hzero
    rw [← isNumber_eq, ha, isNumber_of_isZero hb]
    exact .inside fun m line hr => nomatch hr
  next =>
    split
    next i j =>
      refine .inside fun m line => ?_
      unfold quotient
      dsimp only
      split
      · nofun
      · split <;> nofun
    next h => exact onFloats_typed _ h

theorem modulo_typed : Typed (a.variant.isNumber && a.variant = b.variant)
    (.operands "%" a.variant b.variant) (modulo a b) := by
  cases a with
  | int i =>
    cases b with
    | int j =>
      refine .inside fun m line => ?_
      unfold modulo
      dsimp only
      split <;> nofun
    | _ => exact .outside
  | float x =>
    cases b with
    | float y =>
      refine .inside fun m line => ?_
      unfold modulo
      dsimp only
      split
      · nofun
      · split <;> nofun
    | _ => exact .outside
  | _ => cases b <;> exact .outside

theorem order_typed (compare : Place → Place → Bool) :
    Typed (a.variant.isNumber && b.variant.isNumber) (.operands op a.variant b.variant)
      (order op compare a b) := by
  unfold order
  rw [isNumber_eq, isNumber_eq]
  split
  next h =>
    rw [h]
    refine .inside fun m line => ?_
    split <;> nofun
  next h =>
    rw [Bool.not_eq_true] at h
    rw [h]
    exact .outside

/-! ## Texts -/

theorem display?_ne_mismatch (v : Value) (m : Mismatch) (line : Option Nat) :
    v.display? ≠ .error (.runtime (.mismatch m) line) := by
  unfold display?
  split <;> nofun

theorem concat_typed : Typed (a.variant.isTextLike && b.variant.isTextLike)
    (.operands "+" a.variant b.variant) (concat a b) := by
  unfold concat
  rw [isTextLike_eq, isTextLike_eq]
  split
  next h =>
    rw [h]
    refine .inside fun m line hr => ?_
    cases ha : a.display? with
    | error f =>
      rw [ha] at hr
      cases hr
      exact display?_ne_mismatch a m line ha
    | ok s =>
      cases hb : b.display? with
      | error f =>
        rw [ha, hb] at hr
        cases hr
        exact display?_ne_mismatch b m line hb
      | ok t =>
        rw [ha, hb] at hr
        cases hr
  next h =>
    rw [Bool.not_eq_true] at h
    rw [h]
    exact .outside

theorem add_typed : Typed (Variant.takes "+" a.variant b.variant)
    (.operands "+" a.variant b.variant) (add a b) := by
  unfold add
  rw [isString_eq, isString_eq]
  split
  next h =>
    -- A string is no number, so only the second half of the table matters.
    have htable : Variant.takes "+" a.variant b.variant =
        (a.variant.isTextLike && b.variant.isTextLike) := by
      generalize a.variant = u, b.variant = v at h
      revert h
      cases u <;> cases v <;> decide
    rw [htable]
    exact concat_typed
  next h =>
    have htable : Variant.takes "+" a.variant b.variant =
        (a.variant.isNumber && b.variant.isNumber) := by
      rw [Bool.not_eq_true] at h
      simp [Variant.takes, h]
    rw [htable]
    exact arithmetic_typed _ _

/-! ## Connectives -/

theorem both_typed (h : a.settles "&&" = false) :
    Typed (Variant.takes "&&" a.variant b.variant) (Variant.mismatch "&&" a.variant b.variant)
      (both a b) := by
  cases a with
  | bool s =>
    cases s with
    | false => cases h
    | true =>
      cases b with
      | bool _ => exact .ok _
      | _ => exact .outside
  | _ => exact .outside

theorem either_typed (h : a.settles "||" = false) :
    Typed (Variant.takes "||" a.variant b.variant) (Variant.mismatch "||" a.variant b.variant)
      (either a b) := by
  cases a with
  | bool s =>
    cases s with
    | true => cases h
    | false =>
      cases b with
      | bool _ => exact .ok _
      | _ => exact .outside
  | _ => exact .outside

/-! ## All operators -/

theorem applyBinary_typed (hop : op ∈ binarySpellings) (h : a.settles op = false) :
    Typed (Variant.takes op a.variant b.variant) (Variant.mismatch op a.variant b.variant)
      (a.applyBinary op b) := by
  simp only [binarySpellings, List.mem_cons, List.not_mem_nil, or_false] at hop
  rcases hop with rfl | rfl | rfl | rfl | rfl | rfl | rfl | rfl | rfl | rfl | rfl | rfl | rfl
  · exact .ok _
  · exact .ok _
  · exact order_typed _
  · exact order_typed _
  · exact order_typed _
  · exact order_typed _
  · exact both_typed h
  · exact either_typed h
  · exact modulo_typed
  · exact add_typed
  · exact arithmetic_typed _ _
  · exact arithmetic_typed _ _
  · exact divide_typed

theorem applyBinary_of_settles (h : a.settles op = true) : a.applyBinary op b = .ok a := by
  cases a with
  | bool s =>
    cases s with
    | true =>
      obtain rfl : op = "||" := of_decide_eq_true h
      rfl
    | false =>
      obtain rfl : op = "&&" := of_decide_eq_true h
      rfl
  | _ => cases h

/-- The variants of the operands decide whether an operator has a mismatch, and which one: it
has one outside its table and none inside, whatever the operands are. Only where the first
operand of a connective settles it, that operand is the result, whatever the second is. -/
theorem variants_decide_mismatch (hop : op ∈ binarySpellings) (a b : Value) :
    (a.settles op = false → ∀ m line, a.applyBinary op b = .error (.runtime (.mismatch m) line) ↔
      Variant.takes op a.variant b.variant = false ∧
        m = Variant.mismatch op a.variant b.variant ∧ line = none) ∧
    (a.settles op = true → a.applyBinary op b = .ok a) :=
  ⟨fun h => applyBinary_typed hop h, fun h => applyBinary_of_settles h⟩

/-- A text divided by zero has a mismatch and no division by zero. -/
theorem quotient_of_text_mismatched : "/" ∈ binarySpellings ∧
    (Value.string "a").settles "/" = false ∧
    (Value.string "a").applyBinary "/" (.int 0) =
      .error (.mismatch (.operands "/" .string .integer)) ∧
    (Value.bool true).settles "||" = true ∧
    (Value.bool true).applyBinary "||" (.bool false) = .ok (.bool true) := by
  have hquotient : "/" ∈ binarySpellings := by decide
  have hor : "||" ∈ binarySpellings := by decide
  have hmismatch := (variants_decide_mismatch hquotient (.string "a") (.int 0)).1 rfl
    (.operands "/" .string .integer) none
  have hsettled := (variants_decide_mismatch hor (.bool true) (.bool false)).2 rfl
  exact ⟨hquotient, rfl, hmismatch.mpr ⟨rfl, rfl, rfl⟩, rfl, hsettled⟩

/-- A conjunction takes an integer behind a false operand, which its table does not. -/
theorem conjunction_takes_integer :
    (Value.bool false).applyBinary "&&" (.int 1) = .ok (.bool false) ∧
    Variant.takes "&&" (Value.bool false).variant (Value.int 1).variant = false :=
  ⟨rfl, rfl⟩

end Value

end ScopeScript
