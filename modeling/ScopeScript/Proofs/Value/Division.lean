import ScopeScript.Proofs.Binary64.Overflow
import ScopeScript.Value.Operator

/-!
# Division of integers

The quotient of two integers is an integer exactly if the remainder is zero, and
multiplies back to the first one then. The remainder is that of truncated
division. A quotient that is not an integer is a float, unless it is too large
for one.
-/

namespace ScopeScript

namespace Binary64

theorem pack_ne_nan (s : Bool) (m : Nat) (q : Int) : pack s m q ≠ .nan := by
  unfold pack
  dsimp only
  split <;> split <;> rintro ⟨⟩

theorem round_ne_nan (s : Bool) (n d : Nat) : round s n d ≠ .nan := by
  unfold round
  split
  · nofun
  · exact pack_ne_nan s _ _

/-- The quotient of two integers is rounded to a finite number below the threshold. -/
theorem ofQuotient_finite {i j : Int} (hj : j ≠ 0)
    (h : i.natAbs < overflowThreshold * j.natAbs) :
    ∃ s m q hc, ofQuotient i j = .finite s m q hc := by
  have hfinite : (ofQuotient i j).isInfinite ≠ true := fun hinfinite =>
    Nat.not_le_of_lt h ((round_isInfinite_iff _ (Int.natAbs_pos.mpr hj)).mp hinfinite)
  cases hx : ofQuotient i j with
  | nan => exact absurd hx (round_ne_nan _ _ _)
  | infinite s => exact absurd (congrArg isInfinite hx) hfinite
  | finite s m q hc => exact ⟨s, m, q, hc, rfl⟩

end Binary64

namespace Value

variable {i j : Int}

theorem quotient_of_dvd (h : j ∣ i) : quotient i j = .ok (.int (i / j)) := if_pos h

theorem quotient_of_large (h : ¬j ∣ i) (hj : j ≠ 0)
    (hlarge : Binary64.overflowThreshold * j.natAbs ≤ i.natAbs) :
    quotient i j = .error .quotientTooLarge := by
  have hinfinite := (Binary64.round_isInfinite_iff ((i < 0) != (j < 0))
    (Int.natAbs_pos.mpr hj)).mpr hlarge
  exact (if_neg h).trans (if_pos hinfinite)

theorem quotient_of_small (h : ¬j ∣ i) (hj : j ≠ 0)
    (hsmall : i.natAbs < Binary64.overflowThreshold * j.natAbs) :
    ∃ s m q hc, quotient i j = .ok (.float (.finite s m q hc)) := by
  obtain ⟨s, m, q, hc, hx⟩ := Binary64.ofQuotient_finite hj hsmall
  have hquotient : quotient i j = .ok (.float (Binary64.ofQuotient i j)) := by
    refine (if_neg h).trans (if_neg ?_)
    rw [hx]
    exact Bool.false_ne_true
  exact ⟨s, m, q, hc, hx ▸ hquotient⟩

/-- The quotient is an integer if nothing remains, and only then. -/
theorem quotient_eq_int_iff {k : Int} : quotient i j = .ok (.int k) ↔ j ∣ i ∧ k = i / j := by
  constructor
  · intro h
    unfold quotient at h
    split at h
    next hdvd =>
      cases h
      exact ⟨hdvd, rfl⟩
    next =>
      dsimp only at h
      split at h <;> cases h
  · rintro ⟨hdvd, rfl⟩
    exact quotient_of_dvd hdvd

theorem applyBinary_quotient (hj : j ≠ 0) :
    (Value.int i).applyBinary "/" (.int j) = quotient i j := by
  have hzero : ((Value.int i).isNumber && (Value.int j).isZero) ≠ true := by
    simpa [isNumber, isZero] using hj
  exact if_neg hzero

theorem applyBinary_remainder (hj : j ≠ 0) :
    (Value.int i).applyBinary "%" (.int j) = .ok (.int (i.tmod j)) := if_neg hj

end Value

end ScopeScript
