import Mathlib.Algebra.Order.Field.Power
import Mathlib.Data.Int.Log
import Mathlib.Data.Rat.Floor
import Mathlib.Tactic.FieldSimp
import Mathlib.Tactic.Positivity
import ScopeScript.Binary64

/-!
# Rounding depends on the quotient alone

The numerator and the denominator enter only by their quotient: the exponent is
its binary logarithm, and the significand is the nearest integer to a multiple
of it. A number that is representable is its own rounding.
-/

namespace ScopeScript.Binary64

/-! ## The exponent -/

theorem zpow_eq_div {b : ℚ} (hb : b ≠ 0) (k : Int) : b ^ k = b ^ k.toNat / b ^ (-k).toNat := by
  rw [eq_div_iff (pow_ne_zero _ hb), ← zpow_natCast, ← zpow_natCast, ← zpow_add₀ hb]
  congr 1
  omega

variable {n d n' d' : Nat}

/-- A quotient compared with a power of two, both as integers. -/
theorem mul_pow_le_iff (hd : 0 < d) (k : Int) :
    d * 2 ^ k.toNat ≤ n * 2 ^ (-k).toNat ↔ (2 : ℚ) ^ k ≤ (n : ℚ) / d := by
  have hd' : (0 : ℚ) < d := Nat.cast_pos.mpr hd
  rw [zpow_eq_div two_ne_zero, div_le_div_iff₀ (by positivity) hd', ← Nat.cast_le (α := ℚ)]
  push_cast
  rw [mul_comm (d : ℚ)]

theorem floorLog2_eq_log (hn : 0 < n) (hd : 0 < d) :
    floorLog2 n d = Int.log 2 ((n : ℚ) / d) := by
  have hpos : (0 : ℚ) < (n : ℚ) / d := by positivity
  have hle (k : Int) : d * 2 ^ k.toNat ≤ n * 2 ^ (-k).toNat ↔ k ≤ Int.log 2 ((n : ℚ) / d) := by
    rw [mul_pow_le_iff hd]
    exact Int.zpow_le_iff_le_log Nat.one_lt_two hpos
  have hn₁ : (2 : ℚ) ^ n.log2 ≤ n := mod_cast Nat.log2_self_le hn.ne'
  have hn₂ : (n : ℚ) < 2 ^ (n.log2 + 1) := mod_cast Nat.lt_log2_self
  have hd₁ : (2 : ℚ) ^ d.log2 ≤ d := mod_cast Nat.log2_self_le hd.ne'
  have hd₂ : (d : ℚ) < 2 ^ (d.log2 + 1) := mod_cast Nat.lt_log2_self
  have hlow : (n.log2 : Int) - (d.log2 + 1 : Nat) ≤ Int.log 2 ((n : ℚ) / d) := by
    apply (Int.zpow_le_iff_le_log Nat.one_lt_two hpos).mp
    rw [Nat.cast_ofNat, zpow_sub₀ two_ne_zero, zpow_natCast, zpow_natCast]
    exact div_le_div₀ (by positivity) hn₁ (by positivity) hd₂.le
  have hhigh : Int.log 2 ((n : ℚ) / d) < ((n.log2 + 1 : Nat) : Int) - d.log2 := by
    apply (Int.lt_zpow_iff_log_lt Nat.one_lt_two hpos).mp
    rw [Nat.cast_ofNat, zpow_sub₀ two_ne_zero, zpow_natCast, zpow_natCast]
    exact div_lt_div₀ hn₂ hd₁ (by positivity) (by positivity)
  unfold floorLog2
  simp only [Nat.pow_eq, hle]
  split <;> omega

/-! ## The significand -/

theorem nearestQuotient_scale (c : Nat) (hc : 0 < c) :
    nearestQuotient (n * c) (d * c) = nearestQuotient n d := by
  have hlt : 2 * (n * c % (d * c)) < d * c ↔ 2 * (n % d) < d := by
    rw [Nat.mul_mod_mul_right, ← Nat.mul_assoc, Nat.mul_lt_mul_right hc]
  have hgt : d * c < 2 * (n * c % (d * c)) ↔ d < 2 * (n % d) := by
    rw [Nat.mul_mod_mul_right, ← Nat.mul_assoc, Nat.mul_lt_mul_right hc]
  simp only [nearestQuotient, hlt, hgt, Nat.mul_div_mul_right n d hc]

theorem nearestQuotient_mul (hd : 0 < d) : nearestQuotient (n * d) d = n := by
  have hzero : 2 * (n * d % d) < d := by rw [Nat.mul_mod_left]; exact hd
  simp only [nearestQuotient, hzero, if_true, Nat.mul_div_cancel n hd]

/-! ## The rounded number -/

theorem round_scale (s : Bool) (hd : 0 < d) (c : Nat) (hc : 0 < c) :
    round s (n * c) (d * c) = round s n d := by
  rcases Nat.eq_zero_or_pos n with rfl | hn
  · simp [round]
  have hlog : floorLog2 (n * c) (d * c) = floorLog2 n d := by
    have hc' : (c : ℚ) ≠ 0 := Nat.cast_ne_zero.mpr hc.ne'
    rw [floorLog2_eq_log (Nat.mul_pos hn hc) (Nat.mul_pos hd hc), floorLog2_eq_log hn hd]
    push_cast
    rw [mul_div_mul_right _ _ hc']
  have hnc : n * c ≠ 0 := (Nat.mul_pos hn hc).ne'
  simp only [round, hnc, hn.ne', if_false, hlog, Nat.mul_right_comm _ c,
    nearestQuotient_scale c hc]

theorem round_eq_of_mul_eq (s : Bool) (hd : 0 < d) (hd' : 0 < d') (h : n * d' = n' * d) :
    round s n d = round s n' d' := by
  rw [← round_scale s hd d' hd', h, Nat.mul_comm d d', round_scale s hd' d hd]

theorem floorLog2_scaled {m : Nat} {q : Int} (hm : 0 < m) :
    floorLog2 (m * 2 ^ q.toNat) (2 ^ (-q).toNat) = m.log2 + q := by
  have hnum : 0 < m * 2 ^ q.toNat := Nat.mul_pos hm (Nat.two_pow_pos _)
  rw [floorLog2_eq_log hnum (Nat.two_pow_pos _)]
  push_cast
  rw [mul_div_assoc, ← zpow_eq_div two_ne_zero]
  have hm' : (0 : ℚ) < m := Nat.cast_pos.mpr hm
  have hm₁ : (2 : ℚ) ^ m.log2 ≤ m := mod_cast Nat.log2_self_le hm.ne'
  have hm₂ : (m : ℚ) < 2 ^ (m.log2 + 1) := mod_cast Nat.lt_log2_self
  have hpos : (0 : ℚ) < m * 2 ^ q := by positivity
  have hlow : (m.log2 : Int) + q ≤ Int.log 2 ((m : ℚ) * 2 ^ q) := by
    apply (Int.zpow_le_iff_le_log Nat.one_lt_two hpos).mp
    rw [Nat.cast_ofNat, zpow_add₀ two_ne_zero, zpow_natCast]
    exact mul_le_mul_of_nonneg_right hm₁ (by positivity)
  have hhigh : Int.log 2 ((m : ℚ) * 2 ^ q) < ((m.log2 + 1 : Nat) : Int) + q := by
    apply (Int.lt_zpow_iff_log_lt Nat.one_lt_two hpos).mp
    rw [Nat.cast_ofNat, zpow_add₀ two_ne_zero, zpow_natCast]
    exact mul_lt_mul_of_pos_right hm₂ (by positivity)
  omega

/-- A number in canonical form is its own rounding. -/
theorem roundScaled_canonical (s : Bool) {m : Nat} {q : Int} (h : Canonical m q) :
    roundScaled s m q = .finite s m q h := by
  obtain ⟨hm, hlow, hhigh, hfull⟩ := h
  rcases Nat.eq_zero_or_pos m with rfl | hpos
  · obtain rfl : q = -1074 := hfull.resolve_left (by decide)
    rfl
  have hlog : (m.log2 : Int) + q - 52 ≤ q := by
    have := (Nat.log2_lt hpos.ne').mpr hm
    omega
  have hq : max (floorLog2 (m * 2 ^ q.toNat) (2 ^ (-q).toNat) - 52) (-1074) = q := by
    rw [floorLog2_scaled hpos]
    rcases hfull with hfull | rfl
    · have := (Nat.le_log2 hpos.ne').mpr hfull
      omega
    · omega
  have hne : m * 2 ^ q.toNat ≠ 0 := (Nat.mul_pos hpos (Nat.two_pow_pos _)).ne'
  have hmul : m * 2 ^ q.toNat * 2 ^ (-q).toNat = m * (2 ^ (-q).toNat * 2 ^ q.toNat) := by
    rw [Nat.mul_assoc, Nat.mul_comm (2 ^ q.toNat)]
  simp only [roundScaled, round, Nat.pow_eq, if_neg hne, hq, hmul]
  rw [nearestQuotient_mul (Nat.mul_pos (Nat.two_pow_pos _) (Nat.two_pow_pos _))]
  have hcarry : m ≠ Nat.pow 2 53 := Nat.ne_of_lt hm
  simp only [pack, hcarry, if_false]
  exact dif_pos ⟨hm, hlow, hhigh, hfull⟩

end ScopeScript.Binary64
