import ScopeScript.Proofs.Binary64.Rounding

/-!
# Overflow

Rounding ends in an infinity exactly if the quotient reaches the point halfway
between the largest finite number and the power of two after it. The half goes
up there, since the largest significand is odd.
-/

namespace ScopeScript.Binary64

variable {n d k : Nat} {q : Int}

/-- The least quotient that is rounded to an infinity. -/
def overflowThreshold : Nat := (2 ^ 54 - 1) * 2 ^ 970

theorem le_overflowThreshold : 2 ^ 54 - 1 ≤ overflowThreshold := by
  have hpow : 0 < 2 ^ 970 := by positivity
  exact Nat.le_mul_of_pos_right _ hpow

/-! ## Bounds of the significand -/

theorem le_nearestQuotient_iff_of_even (hd : 0 < d) :
    2 * k ≤ nearestQuotient n d ↔ 4 * (k * d) ≤ 2 * n + d := by
  have hn : d * (n / d) + n % d = n := Nat.div_add_mod n d
  have hr : n % d < d := Nat.mod_lt n hd
  unfold nearestQuotient
  dsimp only
  generalize n / d = f at *
  generalize n % d = r at *
  rcases Nat.lt_trichotomy (f + 1) (2 * k) with hlt | heq | hgt
  · have hmul : (f + 2) * d ≤ 2 * k * d := Nat.mul_le_mul_right d hlt
    have hf : (f + 2) * d = d * f + 2 * d := by ring
    have hk : 2 * k * d = 2 * (k * d) := by ring
    split_ifs <;> omega
  · have hmul : (f + 1) * d = 2 * k * d := by rw [heq]
    have hf : (f + 1) * d = d * f + d := by ring
    have hk : 2 * k * d = 2 * (k * d) := by ring
    split_ifs <;> omega
  · have hmul : 2 * k * d ≤ f * d := Nat.mul_le_mul_right d (by omega)
    have hf : f * d = d * f := Nat.mul_comm f d
    have hk : 2 * k * d = 2 * (k * d) := by ring
    split_ifs <;> omega

theorem nearestQuotient_le (h : n < k * d) : nearestQuotient n d ≤ k := by
  have hfloor : n / d < k := Nat.div_lt_of_lt_mul (by rwa [Nat.mul_comm])
  unfold nearestQuotient
  dsimp only
  split_ifs <;> omega

/-! ## The exponent -/

theorem le_floorLog2_iff (hn : 0 < n) (hd : 0 < d) (q : Int) (k : Nat) :
    2 ^ k * (d * 2 ^ q.toNat) ≤ n * 2 ^ (-q).toNat ↔ q + k ≤ floorLog2 n d := by
  have hpos : (0 : ℚ) < (n : ℚ) / d := by positivity
  have hd' : (0 : ℚ) < d := Nat.cast_pos.mpr hd
  have hpow : (2 : ℚ) ^ (q + k) = 2 ^ k * 2 ^ q.toNat / 2 ^ (-q).toNat := by
    rw [zpow_add₀ two_ne_zero, zpow_natCast, zpow_eq_div two_ne_zero q]
    ring
  rw [floorLog2_eq_log hn hd, ← Int.zpow_le_iff_le_log Nat.one_lt_two hpos, Nat.cast_ofNat, hpow,
    div_le_div_iff₀ (by positivity) hd', ← Nat.cast_le (α := ℚ)]
  push_cast
  rw [← mul_assoc, mul_right_comm]

theorem pack_carried (s : Bool) (q : Int) : pack s (2 ^ 53) q = pack s (2 ^ 52) (q + 1) := rfl

theorem pack_isInfinite (s : Bool) {m : Nat} (hm : m < 2 ^ 53) (hlow : -1074 ≤ q)
    (hfull : 2 ^ 52 ≤ m ∨ q = -1074) : (pack s m q).isInfinite = true ↔ 971 < q := by
  have hcarry : m ≠ Nat.pow 2 53 := Nat.ne_of_lt hm
  simp only [pack, hcarry, if_false]
  split
  next hcanonical =>
    have hhigh : q ≤ 971 := hcanonical.2.2.1
    exact iff_of_false Bool.false_ne_true (by omega)
  next hcanonical =>
    refine iff_of_true rfl ?_
    by_contra hhigh
    exact hcanonical ⟨hm, hlow, by omega, hfull⟩

/-! ## The quotient -/

/-- The exponent that a quotient is rounded with. -/
def exponentOf (n d : Nat) : Int := max (floorLog2 n d - 52) (-1074)

/-- The significand that a quotient is rounded to, before a carry moves it. -/
def significandOf (n d : Nat) : Nat :=
  nearestQuotient (n * 2 ^ (-exponentOf n d).toNat) (d * 2 ^ (exponentOf n d).toNat)

theorem round_of_pos (s : Bool) (hn : 0 < n) :
    round s n d = pack s (significandOf n d) (exponentOf n d) := by
  simp only [round, if_neg hn.ne', Nat.pow_eq]
  rfl

theorem significandOf_le (hn : 0 < n) (hd : 0 < d) : significandOf n d ≤ 2 ^ 53 := by
  refine nearestQuotient_le (Nat.lt_of_not_le ?_)
  rw [le_floorLog2_iff hn hd, exponentOf]
  omega

theorem le_significandOf (hn : 0 < n) (hd : 0 < d) :
    2 ^ 52 ≤ significandOf n d ∨ exponentOf n d = -1074 := by
  refine or_iff_not_imp_right.mpr fun hleast => ?_
  have hge : 2 ^ 52 * (d * 2 ^ (exponentOf n d).toNat) ≤ n * 2 ^ (-exponentOf n d).toNat := by
    rw [le_floorLog2_iff hn hd]
    rw [exponentOf] at hleast ⊢
    omega
  have hpos : 0 < d * 2 ^ (exponentOf n d).toNat := Nat.mul_pos hd (Nat.two_pow_pos _)
  have heven := le_nearestQuotient_iff_of_even (n := n * 2 ^ (-exponentOf n d).toNat)
    (k := 2 ^ 51) hpos
  exact heven.mpr (by omega)

/-- The threshold is reached by an exponent beyond the last one, and by a carry at the last. -/
theorem overflowThreshold_le_iff (hn : 0 < n) (hd : 0 < d) : overflowThreshold * d ≤ n ↔
    971 < exponentOf n d ∨ exponentOf n d = 971 ∧ 2 ^ 53 ≤ significandOf n d := by
  have hlog (e : Nat) : 2 ^ 53 * (d * 2 ^ e) ≤ n ↔ (e : Int) + 53 ≤ floorLog2 n d := by
    have h := le_floorLog2_iff hn hd e 53
    rwa [Int.toNat_natCast, Int.toNat_neg_natCast, Nat.pow_zero, Nat.mul_one] at h
  have hdouble (e : Nat) : d * 2 ^ (e + 1) = 2 * (d * 2 ^ e) := by
    rw [Nat.pow_succ, ← Nat.mul_assoc, Nat.mul_comm]
  have hbelow := hlog 970
  have habove := hlog (970 + 1)
  have hlast (he : exponentOf n d = 971) : 2 ^ 53 ≤ significandOf n d ↔
      4 * (2 ^ 52 * (d * 2 ^ (970 + 1))) ≤ 2 * n + d * 2 ^ (970 + 1) := by
    have hpos : 0 < d * 2 ^ (970 + 1) := by positivity
    have hcarry := le_nearestQuotient_iff_of_even (n := n) (k := 2 ^ 52) hpos
    rw [significandOf, he, show (971 : Int).toNat = 970 + 1 from rfl,
      show (-(971 : Int)).toNat = 0 from rfl, Nat.pow_zero, Nat.mul_one]
    exact hcarry
  have hthreshold : overflowThreshold * d = (2 ^ 54 - 1) * (d * 2 ^ 970) := by
    rw [overflowThreshold, Nat.mul_assoc, Nat.mul_comm (2 ^ 970)]
  rw [hthreshold]
  rw [hdouble] at habove hlast
  generalize d * 2 ^ 970 = half at *
  rw [exponentOf] at *
  omega

theorem round_isInfinite_iff (s : Bool) (hd : 0 < d) :
    (round s n d).isInfinite = true ↔ overflowThreshold * d ≤ n := by
  rcases Nat.eq_zero_or_pos n with rfl | hn
  · have hpos : 0 < overflowThreshold * d :=
      Nat.mul_pos (Nat.lt_of_lt_of_le (by decide) le_overflowThreshold) hd
    exact iff_of_false Bool.false_ne_true (Nat.not_le_of_lt hpos)
  have hlow : -1074 ≤ exponentOf n d := Int.le_max_right ..
  rw [round_of_pos s hn, overflowThreshold_le_iff hn hd]
  rcases (significandOf_le hn hd).lt_or_eq with hlt | heq
  · rw [pack_isInfinite s hlt hlow (le_significandOf hn hd)]
    omega
  · rw [heq, pack_carried, pack_isInfinite s (by decide) (by omega) (.inl (Nat.le_refl _))]
    omega

end ScopeScript.Binary64
