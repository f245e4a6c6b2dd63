import Mathlib.Data.List.TakeWhile
import Mathlib.Tactic.Ring
import ScopeScript.Binary64.Decimal
import ScopeScript.Proofs.Binary64.Rounding

/-!
# Decimal text reads back

The shortest decimal of a number reads back as the number by the way it is
found, and so does its exact expansion, which stands in for it. The positional
text spells a decimal of the same value.
-/

namespace ScopeScript

namespace Numeral

theorem isDigit_eq (c : Char) : isDigit c = c.isDigit := rfl

theorem ofDigits_eq (cs : List Char) : ofDigits cs = Nat.ofDigitChars 10 cs 0 :=
  Nat.ofDigitChars_eq_foldl.symm

theorem ofDigits_digits (n : Nat) : ofDigits (digits n) = n := by
  rw [ofDigits_eq, digits, Nat.ofDigitChars_ten_toDigits]

theorem isDigit_of_mem_digits {n : Nat} {c : Char} (h : c ∈ digits n) : isDigit c = true :=
  (isDigit_eq c).trans (Nat.isDigit_of_mem_toDigits (by decide) (by decide) h)

theorem ofDigits_append (cs ds : List Char) :
    ofDigits (cs ++ ds) = ofDigits cs * 10 ^ ds.length + ofDigits ds := by
  simp only [ofDigits_eq, Nat.ofDigitChars_append]
  rw [Nat.ofDigitChars_eq_ofDigitChars_zero, Nat.mul_comm]

theorem ofDigits_replicate_zero (n : Nat) : ofDigits (List.replicate n '0') = 0 := by
  rw [ofDigits_eq, Nat.ofDigitChars_replicate_zero, Nat.mul_zero]

theorem length_digits_le {n k : Nat} (hk : 0 < k) : (digits n).length ≤ k ↔ n < 10 ^ k :=
  Nat.length_toDigits_le_iff (by decide) hk

theorem isWritable_natCast {n : Nat} (h : n < 10 ^ maxLength) : isWritable n = true := by
  rw [isWritable, Int.natAbs_natCast]
  exact decide_eq_true h

end Numeral

namespace Decimal

def value (d : Decimal) : ℚ := d.units * 10 ^ d.exponent

theorem toBinary64_eq_of_value {d d' : Decimal} (s : Bool) (h : d.value = d'.value) :
    d.toBinary64 s = d'.toBinary64 s := by
  have hpow (k : Nat) : (10 : ℚ) ^ k ≠ 0 := pow_ne_zero _ (by norm_num)
  apply Binary64.round_eq_of_mul_eq s (Nat.pow_pos (by decide)) (Nat.pow_pos (by decide))
  rw [value, value, Binary64.zpow_eq_div (by norm_num), Binary64.zpow_eq_div (by norm_num),
    ← mul_div_assoc, ← mul_div_assoc, div_eq_div_iff (hpow _) (hpow _)] at h
  exact_mod_cast h

/-- The digits of a decimal are its normal digits and zeros after them. -/
theorem normalDigits_eq (d : Decimal) : ∃ z : Nat,
    Numeral.digits d.units = d.normalDigits.1 ++ List.replicate z '0' ∧
    d.normalDigits.2 = d.normalDigits.1.length + z + d.exponent := by
  let zeros := (Numeral.digits d.units).reverse.takeWhile (· = '0')
  have hzeros : zeros = List.replicate zeros.length '0' := by
    apply List.eq_replicate_of_mem
    intro c hc
    simpa using List.mem_takeWhile_imp hc
  have hdigits : Numeral.digits d.units = d.normalDigits.1 ++ List.replicate zeros.length '0' := by
    rw [← List.reverse_inj, List.reverse_append, List.reverse_replicate, ← hzeros]
    simp [normalDigits, zeros]
  refine ⟨zeros.length, hdigits, ?_⟩
  have hlength := congrArg List.length hdigits
  rw [List.length_append, List.length_replicate] at hlength
  simp only [normalDigits] at hlength ⊢
  omega

theorem value_normalDigits (d : Decimal) :
    value ⟨Numeral.ofDigits d.normalDigits.1, d.normalDigits.2 - d.normalDigits.1.length⟩ =
      d.value := by
  obtain ⟨z, hdigits, hpoint⟩ := d.normalDigits_eq
  have hunits := Numeral.ofDigits_digits d.units
  rw [hdigits, Numeral.ofDigits_append, List.length_replicate, Numeral.ofDigits_replicate_zero,
    Nat.add_zero] at hunits
  have hexponent : d.normalDigits.2 - d.normalDigits.1.length = z + d.exponent := by omega
  rw [value, value, hexponent, ← hunits, zpow_add₀ (by norm_num), zpow_natCast]
  push_cast
  ring

/-- A text of digits with a decimal point among them, and the decimal that it spells. -/
def Spells (text : List Char) (d : Decimal) : Prop :=
  ∃ whole fraction : List Char, text = whole ++ '.' :: fraction ∧ whole ≠ [] ∧ fraction ≠ [] ∧
    (∀ c ∈ whole ++ fraction, Numeral.isDigit c = true) ∧
    d = ⟨Numeral.ofDigits (whole ++ fraction), -fraction.length⟩

theorem isDigit_zeros {n : Nat} : ∀ c ∈ List.replicate n '0', Numeral.isDigit c = true := by
  intro c hc
  rw [List.eq_of_mem_replicate hc]
  rfl

variable {ds : List Char} (hds : ∀ c ∈ ds, Numeral.isDigit c = true)
include hds

theorem spells_fraction {n : Nat} (hne : ds ≠ []) :
    Spells ('0' :: '.' :: (List.replicate n '0' ++ ds))
      ⟨Numeral.ofDigits ds, -(n + ds.length : Nat)⟩ := by
  refine ⟨['0'], List.replicate n '0' ++ ds, rfl, by simp, by simp [hne], ?_, ?_⟩
  · exact List.forall_mem_append.mpr
      ⟨List.forall_mem_singleton.mpr rfl, List.forall_mem_append.mpr ⟨isDigit_zeros, hds⟩⟩
  · have hzeros : ['0'] ++ (List.replicate n '0' ++ ds) = List.replicate (n + 1) '0' ++ ds := by
      rw [← List.append_assoc, List.replicate_succ]
      rfl
    rw [hzeros, Numeral.ofDigits_append, Numeral.ofDigits_replicate_zero, List.length_append,
      List.length_replicate, Nat.zero_mul, Nat.zero_add]

theorem spells_whole {n : Nat} (hne : ds ≠ []) :
    Spells (ds ++ List.replicate n '0' ++ ['.', '0']) ⟨Numeral.ofDigits ds * 10 ^ (n + 1), -1⟩ := by
  refine ⟨ds ++ List.replicate n '0', ['0'], rfl, by simp [hne], by simp, ?_, ?_⟩
  · exact List.forall_mem_append.mpr
      ⟨List.forall_mem_append.mpr ⟨hds, isDigit_zeros⟩, List.forall_mem_singleton.mpr rfl⟩
  · have hzeros : ds ++ List.replicate n '0' ++ ['0'] = ds ++ List.replicate (n + 1) '0' := by
      rw [List.append_assoc, List.replicate_succ']
    rw [hzeros, Numeral.ofDigits_append, Numeral.ofDigits_replicate_zero, List.length_replicate]
    rfl

theorem spells_between {k : Nat} (hk : 0 < k) (hlt : k < ds.length) :
    Spells (ds.take k ++ '.' :: ds.drop k)
      ⟨Numeral.ofDigits ds, -(ds.length - k : Nat)⟩ := by
  have hne : ds ≠ [] := List.ne_nil_of_length_pos (Nat.lt_trans hk hlt)
  refine ⟨ds.take k, ds.drop k, rfl, by simp [hne]; omega, by simpa using hlt, ?_, ?_⟩
  · rw [List.take_append_drop]
    exact hds
  · rw [List.take_append_drop, List.length_drop]

theorem positional_spells (point : Int) (hne : ds ≠ []) :
    ∃ d : Decimal, Spells (Binary64.positional ds point) d ∧
      d.value = value ⟨Numeral.ofDigits ds, point - ds.length⟩ := by
  unfold Binary64.positional
  split
  next hpoint =>
    refine ⟨_, spells_fraction hds hne, ?_⟩
    congr 2
    push_cast
    omega
  next hpoint =>
    split
    next hlong =>
      refine ⟨_, spells_whole hds hne, ?_⟩
      generalize hn : (point - ds.length).toNat = n
      have hexponent : point - ds.length = (n : Int) := by omega
      rw [value, value, hexponent, zpow_natCast, zpow_neg_one]
      push_cast
      rw [pow_succ]
      field_simp
    next hlong =>
      refine ⟨_, spells_between hds (by omega) (by omega), ?_⟩
      congr 2
      omega

end Decimal

namespace Binary64

theorem decimalOfLength_reads {x : Binary64} {num den count : Nat} {top : Int} {d : Decimal}
    (h : decimalOfLength x num den top count = some d) : d.toBinary64 false = x := by
  have hfind := List.find?_some h
  exact beq_iff_eq.mp hfind

theorem exactDecimal_reads (m : Nat) (q : Int) :
    (exactDecimal m q).toBinary64 false = roundScaled false m q := by
  apply round_eq_of_mul_eq false (Nat.pow_pos (by decide)) (Nat.two_pow_pos _)
  have hpos : (min q 0).toNat = 0 := by omega
  have hneg : (-(min q 0)).toNat = (-q).toNat := by omega
  simp only [exactDecimal, hpos, hneg, Nat.pow_eq]
  rw [Nat.pow_zero, Nat.mul_one, Nat.mul_assoc, ← Nat.mul_pow]

theorem shortestDecimal_reads {m : Nat} {q : Int} (h : Canonical m q) :
    (shortestDecimal m q).toBinary64 false = .finite false m q h := by
  rw [← roundScaled_canonical false h, shortestDecimal]
  cases hfind : (List.range 17).findSome? fun i => decimalOfLength (roundScaled false m q)
      (m * 2 ^ q.toNat) (2 ^ (-q).toNat) (floorLog10 (m * 2 ^ q.toNat) (2 ^ (-q).toNat))
      (i + 1) with
  | none => exact exactDecimal_reads m q
  | some d =>
    obtain ⟨i, -, hi⟩ := List.exists_of_findSome?_eq_some hfind
    exact decimalOfLength_reads hi

/-- The positional text of a number without a sign spells a decimal that reads back. -/
theorem positionalText_spells {m : Nat} {q : Int} (h : Canonical m q) :
    ∃ d : Decimal, d.Spells (positionalText false m q) ∧
      d.toBinary64 false = .finite false m q h := by
  unfold positionalText
  split
  next hm =>
    subst hm
    obtain rfl : q = -1074 := h.2.2.2.resolve_left (by decide)
    have hzeros := Decimal.isDigit_zeros (n := 2)
    exact ⟨⟨0, -1⟩, ⟨['0'], ['0'], rfl, by decide, by decide, hzeros, rfl⟩, rfl⟩
  next hm =>
    have hreads := shortestDecimal_reads h
    have hvalue := (shortestDecimal m q).value_normalDigits
    obtain ⟨z, hdigits, -⟩ := (shortestDecimal m q).normalDigits_eq
    generalize (shortestDecimal m q).normalDigits = nd at hvalue hdigits ⊢
    obtain ⟨ds, point⟩ := nd
    have hds : ∀ c ∈ ds, Numeral.isDigit c = true := by
      intro c hc
      apply Numeral.isDigit_of_mem_digits (n := (shortestDecimal m q).units)
      rw [hdigits]
      exact List.mem_append_left _ hc
    have hne : ds ≠ [] := by
      rintro rfl
      have hzero : (shortestDecimal m q).value = Decimal.value ⟨0, 0⟩ := by
        rw [← hvalue]
        simp [Decimal.value, Numeral.ofDigits]
      rw [Decimal.toBinary64_eq_of_value false hzero] at hreads
      injection hreads with _ hm'
      exact hm hm'.symm
    obtain ⟨d, hspells, hd⟩ := Decimal.positional_spells hds point hne
    refine ⟨d, hspells, ?_⟩
    rw [Decimal.toBinary64_eq_of_value false (hd.trans hvalue), hreads]

end Binary64

end ScopeScript
