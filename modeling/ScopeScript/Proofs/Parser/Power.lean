import Mathlib.Tactic.SplitIfs
import ScopeScript.Proofs.Parser.Success

/-!
# Strata and binding powers

The parser tells the strata of the grammar apart by numbers. Each stratum has
the power of its operators, its right operand begins one step above it, and a
least power selects the loosest stratum that is bound at least as tightly.
-/

namespace ScopeScript

namespace Stratum

/-- The power of the infix operators; the prefix operators stand as high as an index. -/
def power : Stratum → Nat
  | .comparison => 1
  | .logic => 3
  | .remainder => 5
  | .additive => 7
  | .multiplicative => 9
  | .member => 11
  | .prefixed => Kind.indexPower

/-- The loosest stratum of at least the given power. -/
def ofPower (m : Nat) : Stratum :=
  if m ≤ 1 then .comparison
  else if m ≤ 3 then .logic
  else if m ≤ 5 then .remainder
  else if m ≤ 7 then .additive
  else if m ≤ 9 then .multiplicative
  else if m ≤ 11 then .member
  else .prefixed

theorem ofPower_succ (s : Stratum) : ofPower (s.power + 1) = s.tighter := by
  cases s <;> rfl

theorem le_power_ofPower {m : Nat} (h : m ≤ Kind.indexPower) : m ≤ (ofPower m).power := by
  unfold ofPower
  repeat' split
  all_goals assumption

theorem power_ofPower_le {m : Nat} {s : Stratum} (h : m ≤ s.power) :
    (ofPower m).power ≤ s.power := by
  unfold ofPower
  split_ifs <;> cases s <;> simp only [power, Kind.indexPower] at h ⊢ <;> omega

theorem power_lt_tighter {s : Stratum} (h : s ≠ .prefixed) : s.power < s.tighter.power := by
  revert h
  cases s <;> decide

theorem power_tighter_le {s s' : Stratum} (h : s.power < s'.power) :
    s.tighter.power ≤ s'.power := by
  revert h
  cases s <;> cases s' <;> decide

theorem power_injective {s s' : Stratum} (h : s.power = s'.power) : s = s' := by
  revert h
  cases s <;> cases s' <;> decide

theorem power_le_indexPower (s : Stratum) : s.power ≤ Kind.indexPower := by
  cases s <;> decide

theorem one_le_power (s : Stratum) : 1 ≤ s.power := by
  cases s <;> decide

theorem operators_prefixed_ne {s : Stratum} {k : Kind} (h : k ∈ s.operators) : s ≠ .prefixed := by
  rintro rfl
  cases h

end Stratum

namespace Kind

theorem infixPower?_eq_some_iff {k : Kind} {p : Nat} :
    k.infixPower? = some p ↔ ∃ s : Stratum, k ∈ s.operators ∧ s.power = p := by
  constructor
  · intro h
    cases k <;> simp only [infixPower?, Option.some.injEq, reduceCtorEq] at h <;> subst h
    case equal | notEqual | less | lessEqual | greater | greaterEqual =>
      exact ⟨.comparison, by decide, rfl⟩
    case conjunction | disjunction => exact ⟨.logic, by decide, rfl⟩
    case percent => exact ⟨.remainder, by decide, rfl⟩
    case plus | minus | plusAssign | minusAssign => exact ⟨.additive, by decide, rfl⟩
    case star | slash => exact ⟨.multiplicative, by decide, rfl⟩
    case dot => exact ⟨.member, by decide, rfl⟩
  · rintro ⟨s, hk, rfl⟩
    cases s <;> simp only [Stratum.operators, List.mem_cons, List.not_mem_nil, or_false] at hk
    case comparison => rcases hk with rfl | rfl | rfl | rfl | rfl | rfl <;> rfl
    case logic => rcases hk with rfl | rfl <;> rfl
    case remainder => subst hk; rfl
    case additive => rcases hk with rfl | rfl | rfl | rfl <;> rfl
    case multiplicative => rcases hk with rfl | rfl <;> rfl
    case member => subst hk; rfl

theorem infixPower?_of_endsExpression {k : Kind} (h : k.endsExpression = true) :
    k.infixPower? = none := by
  cases k <;> first | rfl | cases h

/-- An expression of a least power ends in front of this kind: it belongs to the statement
around, or it binds more weakly. -/
def Stops (m : Nat) (k : Kind) : Prop :=
  k.endsExpression = true ∨ (∃ p, k.infixPower? = some p ∧ p < m) ∨
    (k = .openBracket ∧ indexPower < m)

theorem Stops.mono {m m' : Nat} {k : Kind} (h : k.Stops m) (hm : m ≤ m') : k.Stops m' := by
  rcases h with h | ⟨p, hp, hlt⟩ | ⟨hk, hlt⟩
  · exact .inl h
  · exact .inr (.inl ⟨p, hp, Nat.lt_of_lt_of_le hlt hm⟩)
  · exact .inr (.inr ⟨hk, Nat.lt_of_lt_of_le hlt hm⟩)

theorem stops_zero {k : Kind} : k.Stops 0 ↔ k.endsExpression = true := by
  simp [Stops]

theorem Stops.not_openBracket {m : Nat} {k : Kind} (h : k.Stops m) (hm : m ≤ indexPower) :
    k ≠ .openBracket := by
  rintro rfl
  rcases h with h | ⟨p, hp, -⟩ | ⟨-, hlt⟩
  · cases h
  · cases hp
  · omega

/-- What ends an operand of the prefix operators ends it at each of their powers. -/
theorem Stops.below_prefixed {m : Nat} {k : Kind} (h : k.Stops indexPower)
    (hm : minusPower ≤ m) : k.Stops m := by
  rcases h with h | ⟨p, hp, -⟩ | ⟨-, hlt⟩
  · exact .inl h
  · refine .inr (.inl ⟨p, hp, Nat.lt_of_lt_of_le ?_ hm⟩)
    obtain ⟨s, hs, rfl⟩ := infixPower?_eq_some_iff.mp hp
    have hne := Stratum.operators_prefixed_ne hs
    revert hne
    cases s <;> decide
  · exact absurd hlt (Nat.lt_irrefl _)

theorem Stops.not_openParen {m : Nat} {k : Kind} (h : k.Stops m) : k ≠ .openParen := by
  rintro rfl
  rcases h with h | ⟨p, hp, -⟩ | ⟨hk, -⟩
  · cases h
  · cases hp
  · cases hk

end Kind

/-- An expression of a stratum is one of every looser stratum as well. -/
theorem Grammar.loosen {trailing : Bool} {s r : Stratum} {ts : List Token} {n : Node}
    (hs : s.power ≤ r.power) (h : Grammar trailing (.level r) ts [n]) :
    Grammar trailing (.level s) ts [n] := by
  rcases Nat.eq_or_lt_of_le hs with heq | hlt
  · rw [Stratum.power_injective heq]
    exact h
  · have hne : s ≠ .prefixed := by
      rintro rfl
      exact absurd (r.power_le_indexPower) (Nat.not_le.mpr hlt)
    have hdecr := Stratum.power_lt_tighter hne
    exact .tighten hne (loosen (Stratum.power_tighter_le hlt) h)
termination_by Kind.indexPower - s.power
decreasing_by
  have := r.power_le_indexPower
  omega

end ScopeScript
