import ScopeScript.Proofs.Environment.Stack
import ScopeScript.Proofs.Value.Mentions

/-!
# Stacks that differ in one binding

Two stacks with the same scopes, but for what one name is bound to in one of
them. Whatever is done by other names can be done on both and leaves that
binding as it is in each.
-/

namespace ScopeScript

namespace Scope

variable {x y : String} {v : Value} {s t : Scope}

/-- The bindings of all other names. -/
def without (x : String) (s : Scope) : Scope := s.filter fun b => b.1 ≠ x

theorem without_cons (x : String) (b : String × Value) (s : Scope) :
    without x (b :: s) = if b.1 = x then without x s else b :: without x s := by
  rw [without, List.filter_cons]
  by_cases h : b.1 = x <;> simp [h, without]

theorem lookup_without (hy : y ≠ x) (s : Scope) : (s.without x).lookup y = s.lookup y := by
  induction s with
  | nil => rfl
  | cons b s ih =>
    obtain ⟨z, w⟩ := b
    rw [without_cons, lookup_cons]
    split
    next hz => rw [ih, if_neg fun hyz => hy (hyz.trans hz)]
    next => rw [lookup_cons, ih]

theorem without_put (hy : y ≠ x) (v : Value) (s : Scope) :
    (s.put y v).without x = (s.without x).put y v := by
  induction s with
  | nil => rw [put, without_cons, if_neg hy, without, List.filter_nil, put]
  | cons b s ih =>
    obtain ⟨z, w⟩ := b
    rw [put, without_cons]
    by_cases hz : z = y
    · subst hz
      rw [if_pos rfl, without_cons, if_neg hy, if_neg hy, put, if_pos rfl]
    · rw [if_neg hz, without_cons, ih]
      by_cases hzx : z = x
      · rw [if_pos hzx, if_pos hzx]
      · rw [if_neg hzx, if_neg hzx, put, if_neg hz]

end Scope

namespace Environment

variable {x y : String} {v w : Option Value} {u : Value} {k : Nat} {s t : Scope}
  {ss ts us : List Scope}

/-- The stacks are the same, but for what `x` is bound to in the scope with `k` scopes further
in: to `v` in the first one and to `w` in the second one, if to anything. -/
inductive Differ (x : String) (v w : Option Value) : Nat → List Scope → List Scope → Prop where
  | here {s t : Scope} {ss : List Scope} : s.without x = t.without x → s.lookup x = v →
    t.lookup x = w → Differ x v w 0 (s :: ss) (t :: ss)
  | further {k : Nat} {s : Scope} {ss ts : List Scope} : Differ x v w k ss ts →
    Differ x v w (k + 1) (s :: ss) (s :: ts)

theorem Differ.ne_nil (h : Differ x v w k ss ts) : ss ≠ [] ∧ ts ≠ [] := by
  cases h <;> exact ⟨List.cons_ne_nil _ _, List.cons_ne_nil _ _⟩

/-! ## Other names -/

theorem visible_without (hy : y ≠ x) (ss : List Scope) :
    visible y (ss.map (Scope.without x)) = visible y ss := by
  induction ss with
  | nil => rfl
  | cons s ss ih => rw [List.map_cons, visible_cons, visible_cons, Scope.lookup_without hy, ih]

theorem assignIn_without (hy : y ≠ x) (u : Value) (ss : List Scope) :
    assignIn y u (ss.map (Scope.without x)) =
      (assignIn y u ss).map (List.map (Scope.without x)) := by
  induction ss with
  | nil => rfl
  | cons s ss ih =>
    rw [List.map_cons, assignIn, assignIn, Scope.has, Scope.lookup_without hy, ← Scope.has, ih]
    split
    · rw [Option.map_some, List.map_cons, Scope.without_put hy]
    · rw [Option.map_map, Option.map_map]
      rfl

theorem Differ.without_eq (h : Differ x v w k ss ts) :
    ss.map (Scope.without x) = ts.map (Scope.without x) := by
  induction h with
  | here hrest _ _ => rw [List.map_cons, List.map_cons, hrest]
  | further _ ih => rw [List.map_cons, List.map_cons, ih]

theorem Differ.visible (h : Differ x v w k ss ts) (hy : y ≠ x) : visible y ss = visible y ts := by
  rw [← visible_without hy ss, h.without_eq, visible_without hy]

theorem Differ.put (h : Differ x v w k (s :: ss) (t :: ts)) (hy : y ≠ x) (u : Value) :
    Differ x v w k (s.put y u :: ss) (t.put y u :: ts) := by
  cases h with
  | here hrest hs ht =>
    have hkept (s : Scope) : (s.put y u).lookup x = s.lookup x :=
      (Scope.lookup_put y x u s).trans (if_neg hy.symm)
    refine .here ?_ ((hkept s).trans hs) ((hkept t).trans ht)
    rw [Scope.without_put hy, Scope.without_put hy, hrest]
  | further h => exact .further h

theorem Differ.assignIn (h : Differ x v w k ss ts) (hy : y ≠ x) (u : Value) :
    (assignIn y u ss = none ∧ assignIn y u ts = none) ∨ ∃ ss' ts',
      assignIn y u ss = some ss' ∧ assignIn y u ts = some ts' ∧ Differ x v w k ss' ts' := by
  induction h with
  | @here s t ss hrest hs ht =>
    have hhas : t.has y = s.has y := by
      rw [Scope.has, Scope.has, ← Scope.lookup_without hy, ← hrest, Scope.lookup_without hy]
    rw [Environment.assignIn, Environment.assignIn, hhas]
    split
    · exact .inr ⟨_, _, rfl, rfl, (Differ.here hrest hs ht).put hy u⟩
    · cases Environment.assignIn y u ss with
      | none => exact .inl ⟨rfl, rfl⟩
      | some us => exact .inr ⟨_, _, rfl, rfl, .here hrest hs ht⟩
  | @further k s ss ts h ih =>
    rw [Environment.assignIn, Environment.assignIn]
    split
    · exact .inr ⟨_, _, rfl, rfl, .further h⟩
    · rcases ih with ⟨hss, hts⟩ | ⟨ss', ts', hss, hts, hdiffer⟩
      · exact .inl ⟨by rw [hss]; rfl, by rw [hts]; rfl⟩
      · exact .inr ⟨s :: ss', s :: ts', by rw [hss]; rfl, by rw [hts]; rfl, .further hdiffer⟩

end Environment

end ScopeScript
