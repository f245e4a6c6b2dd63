import Mathlib.Logic.Basic
import ScopeScript.Environment
import ScopeScript.Value

/-!
# Stacks of scopes

Two relations between stacks, the innermost scope first. `Settled` relates a
stack to a later one: the scopes have the names and variants that they had,
and what a scope further in hides has not changed at all. `Alike` relates two
stacks on which names mean the same.
-/

namespace ScopeScript

namespace Scope

/-- The names of a scope and the variants of their values. -/
def layout (s : Scope) : List (String × Variant) := s.map fun b => (b.1, b.2.variant)

theorem lookup_layout (x : String) (s : Scope) :
    s.layout.lookup x = (s.lookup x).map Value.variant := by
  induction s with
  | nil => rfl
  | cons b s ih =>
    obtain ⟨y, w⟩ := b
    change List.lookup x ((y, w.variant) :: layout s) = (List.lookup x ((y, w) :: s)).map _
    rw [List.lookup_cons, List.lookup_cons, ih]
    split <;> rfl

theorem has_eq_of_layout {s t : Scope} (h : s.layout = t.layout) (x : String) :
    s.has x = t.has x := by
  have hlookup : (s.lookup x).map Value.variant = (t.lookup x).map Value.variant := by
    rw [← lookup_layout, ← lookup_layout, h]
  have hsome := congrArg Option.isSome hlookup
  rwa [Option.isSome_map, Option.isSome_map] at hsome

theorem lookup_of_not_has {s : Scope} {x : String} (h : ¬s.has x = true) : s.lookup x = none :=
  Option.not_isSome_iff_eq_none.mp h

theorem layout_put {s : Scope} {x : String} {old v : Value} (h : s.lookup x = some old)
    (hv : v.variant = old.variant) : (s.put x v).layout = s.layout := by
  induction s with
  | nil => cases h
  | cons b s ih =>
    obtain ⟨y, w⟩ := b
    rw [lookup_cons] at h
    rw [put]
    split
    next hy =>
      rw [if_pos hy.symm] at h
      obtain rfl := Option.some.inj h
      simp [layout, hv]
    next hy =>
      rw [if_neg (Ne.symm hy)] at h
      exact congrArg ((y, w.variant) :: ·) (ih h)

theorem has_put (s : Scope) (x y : String) (v : Value) (h : s.has y = true) :
    (s.put x v).has y = true := by
  rw [has, lookup_put]
  split
  · rfl
  · exact h

end Scope

namespace Environment

def stack (e : Environment) : List Scope := e.innermost :: e.outer

def layout (e : Environment) : List (List (String × Variant)) := e.stack.map Scope.layout

/-- What a name stands for on a stack. -/
def visible (x : String) (ss : List Scope) : Option Value := ss.findSome? (List.lookup x)

theorem lookup?_eq (x : String) (e : Environment) : e.lookup? x = visible x e.stack := rfl

theorem visible_cons (x : String) (s : Scope) (ss : List Scope) :
    visible x (s :: ss) = (s.lookup x).or (visible x ss) := by
  rw [visible, List.findSome?_cons]
  cases s.lookup x <;> rfl

/-- Whether a name is bound shows in the names of the scopes. -/
theorem visible_isSome_of_layout {ss ts : List Scope}
    (h : ss.map Scope.layout = ts.map Scope.layout) (x : String) :
    (visible x ss).isSome = (visible x ts).isSome := by
  induction ss generalizing ts with
  | nil => cases ts with
    | nil => rfl
    | cons t ts => cases h
  | cons s ss ih => cases ts with
    | nil => cases h
    | cons t ts =>
      obtain ⟨hlayout, hrest⟩ := List.cons.inj h
      have hhas : (s.lookup x).isSome = (t.lookup x).isSome := Scope.has_eq_of_layout hlayout x
      rw [visible_cons, visible_cons, Option.isSome_or, Option.isSome_or, hhas, ih hrest]

theorem dropInnermost_stack {e : Environment} (h : e.outer ≠ []) :
    e.dropInnermost.stack = e.outer := by
  obtain ⟨s, ss⟩ := e
  cases ss with
  | nil => exact absurd rfl h
  | cons t ts => rfl

theorem assign?_eq_some {x : String} {v : Value} {e e' : Environment} :
    e.assign? x v = some e' ↔ assignIn x v e.stack = some e'.stack := by
  obtain ⟨s, ss⟩ := e
  obtain ⟨t, ts⟩ := e'
  simp only [assign?, stack, assignIn]
  split
  · simp
  · cases assignIn x v ss <;> simp

/-! ## Binding again -/

variable {x : String} {v : Value} {ss ts us : List Scope}

theorem assignIn_eq_none : assignIn x v ss = none ↔ visible x ss = none := by
  induction ss with
  | nil => simp [assignIn, visible]
  | cons s ss ih =>
    rw [assignIn, visible_cons]
    cases h : s.lookup x <;> simp [Scope.has, h, ih]

theorem visible_assignIn (h : assignIn x v ss = some ts) (y : String) :
    visible y ts = if y = x then some v else visible y ss := by
  induction ss generalizing ts with
  | nil => cases h
  | cons s ss ih =>
    rw [assignIn] at h
    split at h
    next =>
      cases h
      rw [visible_cons, visible_cons, Scope.lookup_put]
      split <;> rfl
    next hs =>
      obtain ⟨us, hus, rfl⟩ := Option.map_eq_some_iff.mp h
      rw [visible_cons, visible_cons, ih hus]
      split
      next hy =>
        rw [hy, Scope.lookup_of_not_has hs]
        rfl
      next => rfl

theorem assign?_of_eq_none {e : Environment} (h : assignIn x v e.stack = none) :
    e.assign? x v = none := by
  cases he : e.assign? x v with
  | none => rfl
  | some e' =>
    rw [assign?_eq_some, h] at he
    cases he

theorem assign?_of_eq_some {e : Environment} (h : assignIn x v e.stack = some ts) :
    ∃ e', e.assign? x v = some e' ∧ e'.stack = ts := by
  cases ts with
  | nil => cases assignIn_length h
  | cons t ts => exact ⟨⟨t, ts⟩, assign?_eq_some.mpr h, rfl⟩

/-- A name that is bound can be bound again. -/
theorem exists_assign? {e : Environment} (h : (e.lookup? x).isSome = true) (v : Value) :
    ∃ e', e.assign? x v = some e' := by
  cases hassign : assignIn x v e.stack with
  | none =>
    rw [lookup?_eq, assignIn_eq_none.mp hassign] at h
    cases h
  | some ts =>
    obtain ⟨e', he', -⟩ := assign?_of_eq_some hassign
    exact ⟨e', he'⟩

/-! ## A stack and a later one -/

/-- Each scope keeps its names and the variants of their values, and the values themselves
of the names that are hidden by a scope further in or from outside. -/
def Settled (hidden : String → Prop) : List Scope → List Scope → Prop
  | [], [] => True
  | s :: ss, t :: ts => s.layout = t.layout ∧ (∀ x, hidden x → s.lookup x = t.lookup x) ∧
      Settled (fun x => hidden x ∨ s.has x = true) ss ts
  | _, _ => False

variable {hidden hidden' : String → Prop}

theorem Settled.refl (hidden : String → Prop) (ss : List Scope) : Settled hidden ss ss := by
  induction ss generalizing hidden with
  | nil => trivial
  | cons s ss ih => exact ⟨rfl, fun _ _ => rfl, ih _⟩

theorem Settled.mono (h : Settled hidden ss ts) (hmono : ∀ x, hidden' x → hidden x) :
    Settled hidden' ss ts := by
  induction ss generalizing hidden hidden' ts with
  | nil => cases ts with
    | nil => trivial
    | cons t ts => exact h
  | cons s ss ih => cases ts with
    | nil => exact h
    | cons t ts =>
      obtain ⟨hlayout, hsame, hrest⟩ := h
      exact ⟨hlayout, fun x hx => hsame x (hmono x hx),
        ih hrest fun x => Or.imp_left (hmono x)⟩

theorem Settled.trans (h : Settled hidden ss ts) (h' : Settled hidden ts us) :
    Settled hidden ss us := by
  induction ss generalizing hidden ts us with
  | nil => cases ts with
    | nil => exact h'
    | cons t ts => exact h.elim
  | cons s ss ih => cases ts with
    | nil => exact h.elim
    | cons t ts => cases us with
      | nil => exact h'.elim
      | cons u us =>
        obtain ⟨hlayout, hsame, hrest⟩ := h
        obtain ⟨hlayout', hsame', hrest'⟩ := h'
        refine ⟨hlayout.trans hlayout', fun x hx => (hsame x hx).trans (hsame' x hx), ?_⟩
        refine ih hrest (hrest'.mono fun x => Or.imp_right fun hx => ?_)
        rwa [← Scope.has_eq_of_layout hlayout]

theorem Settled.layout (h : Settled hidden ss ts) :
    ss.map Scope.layout = ts.map Scope.layout := by
  induction ss generalizing hidden ts with
  | nil => cases ts with
    | nil => rfl
    | cons t ts => exact h.elim
  | cons s ss ih => cases ts with
    | nil => exact h.elim
    | cons t ts => rw [List.map_cons, List.map_cons, h.1, ih h.2.2]

theorem Settled.ne_nil (h : Settled hidden ss ts) (hss : ss ≠ []) : ts ≠ [] := by
  rintro rfl
  cases ss with
  | nil => exact hss rfl
  | cons s ss => exact h

theorem settled_assignIn {old : Value} (h : assignIn x v ss = some ts)
    (hold : visible x ss = some old) (hv : v.variant = old.variant) (hx : ¬hidden x) :
    Settled hidden ss ts := by
  induction ss generalizing hidden ts with
  | nil => cases h
  | cons s ss ih =>
    rw [assignIn] at h
    rw [visible_cons] at hold
    split at h
    next hs =>
      cases h
      obtain ⟨w, hw⟩ := Option.isSome_iff_exists.mp hs
      obtain rfl : w = old := by simpa [hw] using hold
      refine ⟨(Scope.layout_put hw hv).symm, fun y hy => ?_, .refl _ _⟩
      have hne : y ≠ x := by
        rintro rfl
        exact hx hy
      rw [Scope.lookup_put, if_neg hne]
    next hs =>
      obtain ⟨us, hus, rfl⟩ := Option.map_eq_some_iff.mp h
      rw [Scope.lookup_of_not_has hs, Option.none_or] at hold
      exact ⟨rfl, fun _ _ => rfl, ih hus hold fun h => h.elim hx hs⟩

/-! ## Two stacks at once -/

/-- The first `k` scopes are the same, and below them names mean the same. -/
def Alike : Nat → List Scope → List Scope → Prop
  | 0, ss, ts => ss ≠ [] ∧ ts ≠ [] ∧ ∀ x, visible x ss = visible x ts
  | k + 1, s :: ss, t :: ts => s = t ∧ Alike k ss ts
  | _ + 1, _, _ => False

variable {k : Nat}

theorem Alike.ne_nil (h : Alike k ss ts) : ss ≠ [] ∧ ts ≠ [] := by
  cases k with
  | zero => exact ⟨h.1, h.2.1⟩
  | succ k => cases ss with
    | nil => exact h.elim
    | cons s ss => cases ts with
      | nil => exact h.elim
      | cons t ts => exact ⟨List.cons_ne_nil _ _, List.cons_ne_nil _ _⟩

theorem Alike.visible (h : Alike k ss ts) (x : String) : visible x ss = visible x ts := by
  induction k generalizing ss ts with
  | zero => exact h.2.2 x
  | succ k ih => cases ss with
    | nil => exact h.elim
    | cons s ss => cases ts with
      | nil => exact h.elim
      | cons t ts =>
        obtain ⟨rfl, hrest⟩ := h
        rw [visible_cons, visible_cons, ih hrest]

theorem Alike.put {s t : Scope} (h : Alike k (s :: ss) (t :: ts)) (x : String) (v : Value) :
    Alike k (s.put x v :: ss) (t.put x v :: ts) := by
  cases k with
  | zero =>
    refine ⟨List.cons_ne_nil _ _, List.cons_ne_nil _ _, fun y => ?_⟩
    have hy := h.2.2 y
    rw [visible_cons, visible_cons] at hy
    rw [visible_cons, visible_cons, Scope.lookup_put, Scope.lookup_put]
    split
    · rfl
    · exact hy
  | succ k =>
    obtain ⟨rfl, hrest⟩ := h
    exact ⟨rfl, hrest⟩

theorem Alike.assignIn (h : Alike k ss ts) (x : String) (v : Value) :
    (assignIn x v ss = none ∧ assignIn x v ts = none) ∨
      ∃ us vs, assignIn x v ss = some us ∧ assignIn x v ts = some vs ∧ Alike k us vs := by
  induction k generalizing ss ts with
  | zero =>
    obtain ⟨hss, hts, hvisible⟩ := h
    cases hs : Environment.assignIn x v ss with
    | none => exact .inl ⟨rfl, by rwa [assignIn_eq_none, ← hvisible, ← assignIn_eq_none]⟩
    | some us =>
      have hne : Environment.assignIn x v ts ≠ none := by
        rw [Ne, assignIn_eq_none, ← hvisible, ← assignIn_eq_none, hs]
        exact Option.some_ne_none us
      obtain ⟨vs, hvs⟩ := Option.ne_none_iff_exists'.mp hne
      refine .inr ⟨us, vs, rfl, hvs, ?_, ?_, fun y => ?_⟩
      · exact List.ne_nil_of_length_pos (assignIn_length hs ▸ List.length_pos_iff.mpr hss)
      · exact List.ne_nil_of_length_pos (assignIn_length hvs ▸ List.length_pos_iff.mpr hts)
      · rw [visible_assignIn hs, visible_assignIn hvs, hvisible]
  | succ k ih => cases ss with
    | nil => exact h.elim
    | cons s ss => cases ts with
      | nil => exact h.elim
      | cons t ts =>
        obtain ⟨rfl, hrest⟩ := h
        rw [Environment.assignIn, Environment.assignIn]
        by_cases hs : s.has x = true
        · rw [if_pos hs, if_pos hs]
          exact .inr ⟨s.put x v :: ss, s.put x v :: ts, rfl, rfl, rfl, hrest⟩
        · rw [if_neg hs, if_neg hs]
          rcases ih hrest with ⟨hss, hts⟩ | ⟨us, vs, hus, hvs, halike⟩
          · exact .inl ⟨by rw [hss]; rfl, by rw [hts]; rfl⟩
          · exact .inr ⟨s :: us, s :: vs, by rw [hus]; rfl, by rw [hvs]; rfl, rfl, halike⟩

end Environment

end ScopeScript
