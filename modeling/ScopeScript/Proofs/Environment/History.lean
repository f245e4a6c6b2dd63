import Mathlib.Data.List.Infix
import Mathlib.Logic.Function.Basic
import ScopeScript.Proofs.Environment.Stack
import ScopeScript.Proofs.Eval.Stable

/-!
# Histories of scopes

A state answers a sequence of actions on its scopes, some of which fail. The
depth counts the scopes that are open, a failure changes nothing, and all ways
of reading see the innermost binding. Between the opening of a scope and its
end only those assignments reach the scopes outside that no scope inside holds
back, and the last one of each name stays.
-/

namespace ScopeScript

/-! ## Actions -/

/-- What can be done to the scopes of a state, and asked of them. -/
inductive Action where
  | push
  | pop
  | define (name : String) (v : Value)
  | assign (name : String) (v : Value)
  | read (name : String)
  | lookup (name : String)
  | locate (name : String)

inductive Answer where
  | done
  | scope (s : Scope)
  | value (v : Option Value)
  | place (i : Option Nat)

namespace Action

def perform : Action → Eval Answer
  | push => do
    Eval.pushScope
    return .done
  | pop => return .scope (← Eval.popScope)
  | define name v => do
    Eval.define name v
    return .done
  | assign name v => do
    Eval.assign name v
    return .done
  | read name => return .value (some (← Eval.lookup name))
  | lookup name => return .value (← Eval.lookup? name)
  | locate name => return .place ((← get).environment.holder? name)

def isPush : Action → Bool
  | push => true
  | _ => false

def isPop : Action → Bool
  | pop => true
  | _ => false

end Action

namespace State

/-- The state after a sequence of actions; after one that failed the next one follows. -/
def after (s : State) (as : List Action) : State := as.foldl (fun s a => (a.perform s).2) s

/-- The actions of a sequence, each with its outcome. -/
def log (s : State) : List Action → List (Action × Except Fault Answer)
  | [] => []
  | a :: as => (a, (a.perform s).1) :: log (a.perform s).2 as

end State

/-! ## One action -/

open Environment (assignIn)

namespace Action

variable {s : State} {x : String} {v : Value} {scope : Scope} {rest : List Scope}

theorem perform_push (s : State) :
    push.perform s = (.ok .done, { s with environment := s.environment.push }) := rfl

theorem perform_define (s : State) (x : String) (v : Value) : (define x v).perform s =
    (.ok .done, { s with environment := s.environment.define x v }) := rfl

theorem perform_lookup (s : State) (x : String) :
    (lookup x).perform s = (.ok (.value (s.environment.lookup? x)), s) := rfl

theorem perform_locate (s : State) (x : String) :
    (locate x).perform s = (.ok (.place (s.environment.holder? x)), s) := rfl

theorem perform_read (s : State) (x : String) : (read x).perform s =
    match s.environment.lookup? x with
    | some v => (.ok (.value (some v)), s)
    | none => (.error (.runtime (.undefinedVariable x) none), s) := by
  cases h : s.environment.lookup? x with
  | some v => exact Eval.bind_of_ok (Eval.lookup_of_bound h)
  | none => exact Eval.bind_of_error (Eval.lookup_of_unbound h)

theorem perform_assign (s : State) (x : String) (v : Value) : (assign x v).perform s =
    match s.environment.assign? x v with
    | some e => (.ok .done, { s with environment := e })
    | none => (.error (.runtime (.undefinedVariable x) none), s) := by
  have happly := Eval.assign_apply x v s
  cases h : s.environment.assign? x v with
  | some e =>
    rw [h] at happly
    exact Eval.bind_of_ok happly
  | none =>
    rw [h] at happly
    exact Eval.bind_of_error happly

theorem perform_pop (s : State) : pop.perform s =
    match s.environment.pop? with
    | some (scope, e) => (.ok (.scope scope), { s with environment := e })
    | none => (.error (.malformed .baseScope), s) := by
  obtain ⟨⟨scope, outer⟩, output, supply⟩ := s
  cases outer <;> rfl

/-- An action that fails changes nothing. -/
theorem perform_of_error {a : Action} {f : Fault} (h : (a.perform s).1 = .error f) :
    (a.perform s).2 = s := by
  cases a with
  | push | define _ _ | lookup _ | locate _ => cases h
  | pop =>
    obtain ⟨⟨scope, outer⟩, output, supply⟩ := s
    cases outer with
    | nil => rfl
    | cons scope rest => cases h
  | read x =>
    rw [perform_read]
    split <;> rfl
  | assign x v =>
    rw [perform_assign] at h ⊢
    split at h
    next => cases h
    next => rfl

/-- What fails is to pop the base scope, and to read or bind again a name without a binding. -/
theorem perform_error_iff {a : Action} {f : Fault} : (a.perform s).1 = .error f ↔
    a = pop ∧ s.environment.depth = 1 ∧ f = .malformed .baseScope ∨
      ∃ x, (a = read x ∨ ∃ v, a = assign x v) ∧ s.environment.lookup? x = none ∧
        f = .runtime (.undefinedVariable x) none := by
  constructor
  · intro h
    cases a with
    | push | define _ _ | lookup _ | locate _ => cases h
    | pop =>
      obtain ⟨⟨scope, outer⟩, output, supply⟩ := s
      cases outer with
      | nil => exact .inl ⟨rfl, rfl, (Except.error.inj h).symm⟩
      | cons scope rest => cases h
    | read x =>
      rw [perform_read] at h
      split at h
      next => cases h
      next hx => exact .inr ⟨x, .inl rfl, hx, (Except.error.inj h).symm⟩
    | assign x v =>
      rw [perform_assign] at h
      split at h
      next => cases h
      next hx =>
        refine .inr ⟨x, .inr ⟨v, rfl⟩, ?_, (Except.error.inj h).symm⟩
        by_contra hbound
        obtain ⟨e, he⟩ := Environment.exists_assign? (Option.isSome_iff_ne_none.mpr hbound) v
        cases hx.symm.trans he
  · rintro (⟨rfl, hdepth, rfl⟩ | ⟨x, rfl | ⟨v, rfl⟩, hx, rfl⟩)
    · obtain ⟨⟨scope, outer⟩, output, supply⟩ := s
      cases outer with
      | nil => rfl
      | cons scope rest => cases hdepth
    · rw [perform_read, hx]
    · rw [perform_assign, Environment.assign?_of_eq_none (Environment.assignIn_eq_none.mpr hx)]

/-! ### What becomes of the scopes -/

theorem stack_pop (h : s.environment.stack = scope :: rest) (hrest : rest ≠ []) :
    (pop.perform s).2.environment.stack = rest := by
  obtain ⟨⟨innermost, outer⟩, output, supply⟩ := s
  obtain ⟨rfl, rfl⟩ := List.cons.inj h
  cases outer with
  | nil => exact absurd rfl hrest
  | cons scope rest => rfl

theorem stack_define (h : s.environment.stack = scope :: rest) :
    ((define x v).perform s).2.environment.stack = scope.put x v :: rest := by
  obtain ⟨rfl, rfl⟩ := List.cons.inj h
  rfl

theorem stack_assign (s : State) (x : String) (v : Value) :
    ((assign x v).perform s).2.environment.stack =
      (assignIn x v s.environment.stack).getD s.environment.stack := by
  rw [perform_assign]
  cases h : assignIn x v s.environment.stack with
  | none =>
    rw [Environment.assign?_of_eq_none h]
    rfl
  | some ts =>
    obtain ⟨e, he, hts⟩ := Environment.assign?_of_eq_some h
    rw [he]
    exact hts

theorem perform_read_state (s : State) (x : String) : ((read x).perform s).2 = s := by
  rw [perform_read]
  split <;> rfl

/-- Depth goes up by one with each scope that is opened, and down by one with each that is
dropped. -/
theorem perform_depth (a : Action) (s : State) :
    (a.perform s).2.environment.depth + (if a.isPop && (a.perform s).1.isOk then 1 else 0) =
      s.environment.depth + (if a.isPush then 1 else 0) := by
  cases a with
  | push | define _ _ | lookup _ | locate _ => rfl
  | read x => rw [perform_read_state]; rfl
  | assign x v =>
    rw [perform_assign]
    cases h : s.environment.assign? x v with
    | none => rfl
    | some e => exact Environment.assign?_depth h
  | pop =>
    obtain ⟨⟨scope, outer⟩, output, supply⟩ := s
    cases outer <;> rfl

end Action

namespace State

theorem after_cons (s : State) (a : Action) (as : List Action) :
    s.after (a :: as) = (a.perform s).2.after as := rfl

theorem after_append (s : State) (as bs : List Action) :
    s.after (as ++ bs) = (s.after as).after bs := List.foldl_append

theorem after_depth (s : State) (as : List Action) :
    (s.after as).environment.depth + (s.log as).countP (fun p => p.1.isPop && p.2.isOk) =
      s.environment.depth + as.countP Action.isPush := by
  induction as generalizing s with
  | nil => rfl
  | cons a as ih =>
    have hstep := a.perform_depth s
    have hrest := ih (a.perform s).2
    rw [after_cons, log, List.countP_cons, List.countP_cons]
    dsimp only
    omega

end State

namespace Scope

theorem has_iff_mem {x : String} {s : Scope} : s.has x = true ↔ x ∈ s.map Prod.fst := by
  induction s with
  | nil => simp [has]
  | cons b s ih =>
    rw [has, lookup_cons, List.map_cons, List.mem_cons, ← ih, has]
    split
    next hx => simp [hx]
    next hx => simp [hx]

theorem names_put {x : String} {s : Scope} (h : s.has x = true) (v : Value) :
    (s.put x v).map Prod.fst = s.map Prod.fst := by
  induction s with
  | nil => cases h
  | cons b s ih =>
    rw [put]
    split
    next => rfl
    next hx =>
      rw [has, lookup_cons, if_neg (Ne.symm hx)] at h
      exact congrArg (b.1 :: ·) (ih h)

/-- What is left of an assignment to each name further out: none to a name of this scope. -/
def conceal (s : Scope) (last : String → Option Value) (x : String) : Option Value :=
  if s.has x then none else last x

theorem conceal_update_of_has {x : String} {s : Scope} (h : s.has x = true)
    (last : String → Option Value) (v : Option Value) :
    s.conceal (Function.update last x v) = s.conceal last := by
  funext y
  by_cases hy : y = x
  · rw [hy, conceal, conceal, if_pos h, if_pos h]
  · rw [conceal, conceal, Function.update_of_ne hy]

theorem conceal_update_of_not_has {x : String} {s : Scope} (h : ¬s.has x = true)
    (last : String → Option Value) (v : Option Value) :
    s.conceal (Function.update last x v) = Function.update (s.conceal last) x v := by
  funext y
  by_cases hy : y = x
  · rw [hy, Function.update_self, conceal, if_neg h, Function.update_self]
  · rw [Function.update_of_ne hy, conceal, conceal, Function.update_of_ne hy]

end Scope

/-! ## Reading -/

namespace Environment

variable {x : String} {v : Value} {ss ts : List Scope}

theorem visible_eq_none_iff : visible x ss = none ↔ ∀ s ∈ ss, s.has x = false := by
  rw [visible, List.findSome?_eq_none_iff]
  exact forall₂_congr fun s _ => (Option.isSome_eq_false_iff.trans Option.isNone_iff_eq_none).symm

/-- The nearest scope that binds a name, with the scopes further in and further out. -/
theorem exists_nearest (h : visible x ss = some v) : ∃ above s below, ss = above ++ s :: below ∧
    (∀ u ∈ above, u.has x = false) ∧ s.lookup x = some v := by
  obtain ⟨above, s, below, rfl, hs, habove⟩ := List.findSome?_eq_some_iff.mp h
  refine ⟨above, s, below, rfl, fun u hu => ?_, hs⟩
  rw [Scope.has, habove u hu]
  rfl

theorem holder?_of_nearest {e : Environment} {above below : List Scope} {s : Scope}
    (he : e.stack = above ++ s :: below) (habove : ∀ u ∈ above, u.has x = false)
    (hs : s.has x = true) : e.holder? x = some below.length := by
  have hindex : e.stack.findIdx? (Scope.has x) = some above.length := by
    rw [he, List.findIdx?_append, List.findIdx?_eq_none_iff.mpr habove, List.findIdx?_cons,
      if_pos hs, Option.none_or, Option.map_some, Nat.zero_add]
  have hlength : e.outer.length + 1 = above.length + (below.length + 1) := by
    have := congrArg List.length he
    simpa [stack] using this
  rw [holder?, ← stack, hindex, Option.map_some]
  congr 1
  omega

theorem holder?_of_unbound {e : Environment} (h : ∀ s ∈ e.stack, s.has x = false) :
    e.holder? x = none := by
  rw [holder?, ← stack, List.findIdx?_eq_none_iff.mpr h, Option.map_none]

/-! ## Assignments that pass by the inner scopes -/

theorem assignIn_append (inner outer : List Scope) (x : String) (v : Value) :
    ((∃ s ∈ inner, s.has x = true) ∧ ∃ inner', inner'.length = inner.length ∧
      assignIn x v (inner ++ outer) = some (inner' ++ outer)) ∨
    (∀ s ∈ inner, s.has x = false) ∧
      assignIn x v (inner ++ outer) = (assignIn x v outer).map (inner ++ ·) := by
  induction inner with
  | nil => exact .inr ⟨List.forall_mem_nil _, (Option.map_id' ..).symm⟩
  | cons s inner ih =>
    rw [List.cons_append, assignIn]
    by_cases hs : s.has x = true
    · rw [if_pos hs]
      exact .inl ⟨⟨s, List.mem_cons_self, hs⟩, s.put x v :: inner, rfl, rfl⟩
    · rw [if_neg hs]
      rcases ih with ⟨⟨t, ht, htx⟩, inner', hlength, hassign⟩ | ⟨hinner, hassign⟩
      · refine .inl ⟨⟨t, List.mem_cons_of_mem _ ht, htx⟩, s :: inner', by simp [hlength], ?_⟩
        rw [hassign]
        rfl
      · refine .inr ⟨List.forall_mem_cons.mpr ⟨by simpa using hs, hinner⟩, ?_⟩
        rw [hassign, Option.map_map]
        rfl

/-- A stack and a later one with the same names in each scope: the nearest scope that binds a
name has the value that `last` gives, if it gives one, and all else is as it was. -/
def Rewritten (last : String → Option Value) : List Scope → List Scope → Prop
  | [], [] => True
  | s :: ss, t :: ts => t.map Prod.fst = s.map Prod.fst ∧
      (∀ x, t.lookup x = if s.has x then (last x).or (s.lookup x) else none) ∧
      Rewritten (s.conceal last) ss ts
  | _, _ => False

theorem Rewritten.refl (ss : List Scope) : Rewritten (fun _ => none) ss ss := by
  induction ss with
  | nil => trivial
  | cons s ss ih =>
    have hnone : s.conceal (fun _ => none) = fun _ => none := funext fun x => ite_self none
    refine ⟨rfl, fun x => ?_, by rwa [hnone]⟩
    split
    next => rfl
    next hs => exact Scope.lookup_of_not_has hs

theorem Rewritten.length_eq {last : String → Option Value} (h : Rewritten last ss ts) :
    ts.length = ss.length := by
  induction ss generalizing last ts with
  | nil => cases ts with
    | nil => rfl
    | cons t ts => exact h.elim
  | cons s ss ih => cases ts with
    | nil => exact h.elim
    | cons t ts => exact congrArg (· + 1) (ih h.2.2)

/-- Binding a name again gives the nearest scope that binds it the new value. -/
theorem Rewritten.assign {last : String → Option Value} (h : Rewritten last ss ts) (x : String)
    (v : Value) :
    Rewritten (Function.update last x (some v)) ss ((assignIn x v ts).getD ts) := by
  induction ss generalizing last ts with
  | nil => cases ts with
    | nil => trivial
    | cons t ts => exact h.elim
  | cons s ss ih => cases ts with
    | nil => exact h.elim
    | cons t ts =>
      obtain ⟨hnames, hlookup, hrest⟩ := h
      have hhas : t.has x = s.has x := by
        rw [Bool.eq_iff_iff, Scope.has_iff_mem, Scope.has_iff_mem, hnames]
      rw [assignIn]
      by_cases hs : s.has x = true
      · rw [if_pos (hhas.trans hs), Option.getD_some]
        refine ⟨(Scope.names_put (hhas.trans hs) v).trans hnames, fun y => ?_,
          (Scope.conceal_update_of_has hs last _).symm ▸ hrest⟩
        rw [Scope.lookup_put]
        split
        next hy => rw [hy, if_pos hs, Function.update_self, Option.some_or]
        next hy => rw [hlookup, Function.update_of_ne hy]
      · have hstack : ((if t.has x = true then some (t.put x v :: ts) else
            (assignIn x v ts).map (t :: ·)).getD (t :: ts)) = t :: (assignIn x v ts).getD ts := by
          rw [hhas, if_neg hs]
          cases assignIn x v ts <;> rfl
        rw [hstack]
        refine ⟨hnames, fun y => ?_, (Scope.conceal_update_of_not_has hs last _).symm ▸ ih hrest⟩
        rw [hlookup]
        split
        next hy =>
          have hne : y ≠ x := fun hyx => hs (hyx ▸ hy)
          rw [Function.update_of_ne hne]
        next => rfl

/-- What is found in a scope of a stack that was rewritten. -/
theorem Rewritten.lookup {last : String → Option Value} (h : Rewritten last ss ts) {k : Nat}
    {s : Scope} (hs : ss[k]? = some s) : ∃ t, ts[k]? = some t ∧
      t.map Prod.fst = s.map Prod.fst ∧ ∀ x, t.lookup x =
        if ss.findIdx? (Scope.has x) = some k then (last x).or (s.lookup x) else s.lookup x := by
  induction ss generalizing last ts k with
  | nil => cases hs
  | cons u ss ih => cases ts with
    | nil => exact h.elim
    | cons t ts =>
      obtain ⟨hnames, hlookup, hrest⟩ := h
      cases k with
      | zero =>
        obtain rfl := Option.some.inj hs
        refine ⟨t, rfl, hnames, fun x => ?_⟩
        rw [hlookup, List.findIdx?_cons]
        by_cases hx : u.has x = true
        · rw [if_pos hx, if_pos hx, if_pos rfl]
        · rw [if_neg hx, if_neg hx, Scope.lookup_of_not_has hx, if_neg (by simp)]
      | succ k =>
        obtain ⟨t', ht', hnames', hlookup'⟩ := ih hrest hs
        refine ⟨t', ht', hnames', fun x => ?_⟩
        rw [hlookup', List.findIdx?_cons, Scope.conceal]
        by_cases hx : u.has x = true <;> simp [hx]

end Environment

/-! ## What reaches the scopes outside -/

namespace State

/-- After these actions, the scopes that were not open in `s`. -/
def opened (s : State) (as : List Action) : List Scope :=
  (s.after as).environment.stack.take ((s.after as).environment.depth - s.environment.depth)

/-- The action at place `i` binds `x` again to `v`, and none of the scopes opened by then binds
`x`. -/
def Escapes (s : State) (as : List Action) (i : Nat) (x : String) (v : Value) : Prop :=
  as[i]? = some (.assign x v) ∧ ∀ scope ∈ s.opened (as.take i), scope.has x = false

/-- The last assignment to `x` that no scope opened by then held back gave it the value `v`. -/
def EscapesLast (s : State) (as : List Action) (x : String) (v : Value) : Prop :=
  ∃ i, s.Escapes as i x v ∧ ∀ j w, i < j → ¬s.Escapes as j x w

variable {s : State} {as : List Action} {a : Action} {i : Nat} {x : String} {v w : Value}

theorem EscapesLast.unique (h : s.EscapesLast as x v) (h' : s.EscapesLast as x w) : v = w := by
  obtain ⟨i, hi, hlast⟩ := h
  obtain ⟨j, hj, hlast'⟩ := h'
  rcases Nat.lt_trichotomy i j with hlt | rfl | hgt
  · exact absurd hj (hlast j w hlt)
  · cases hi.1.symm.trans hj.1
    rfl
  · exact absurd hi (hlast' i v hgt)

theorem Escapes.lt_length (h : s.Escapes as i x v) : i < as.length :=
  (List.getElem?_eq_some_iff.mp h.1).1

theorem escapes_concat : s.Escapes (as ++ [a]) i x v ↔ s.Escapes as i x v ∨
    i = as.length ∧ a = .assign x v ∧ ∀ scope ∈ s.opened as, scope.has x = false := by
  unfold Escapes
  rcases Nat.lt_trichotomy i as.length with hlt | rfl | hgt
  · rw [List.getElem?_append_left hlt, List.take_append_of_le_length hlt.le]
    simp [hlt.ne]
  · simp
  · have hend : (as ++ [a])[i]? = none := List.getElem?_eq_none <| by
      rwa [List.length_append, List.length_singleton, Nat.succ_le_iff]
    simp [hend, hgt.ne', List.getElem?_eq_none hgt.le]

/-- For each name the value of the last assignment that escapes. -/
structure Remembers (s : State) (as : List Action) (last : String → Option Value) : Prop where
  some {x : String} {v : Value} : last x = some v → s.EscapesLast as x v
  none {x : String} : last x = none → ∀ i v, ¬s.Escapes as i x v

variable {last : String → Option Value}

theorem Remembers.last_eq (h : s.Remembers as last) (hv : s.EscapesLast as x v) :
    last x = .some v := by
  cases hx : last x with
  | none =>
    obtain ⟨i, hi, -⟩ := hv
    exact absurd hi (h.none hx i v)
  | some w => rw [(h.some hx).unique hv]

/-- An action that does not escape. -/
theorem Remembers.concat (h : s.Remembers as last)
    (ha : ∀ x v, a = .assign x v → ∃ scope ∈ s.opened as, scope.has x = true) :
    s.Remembers (as ++ [a]) last := by
  have hsame (i : Nat) (x : String) (v : Value) :
      s.Escapes (as ++ [a]) i x v ↔ s.Escapes as i x v := by
    rw [escapes_concat, or_iff_left]
    rintro ⟨-, hassign, hnone⟩
    obtain ⟨scope, hscope, hx⟩ := ha x v hassign
    rw [hnone scope hscope] at hx
    cases hx
  exact ⟨fun hx => by simpa only [EscapesLast, hsame] using h.some hx,
    fun hx => by simpa only [hsame] using h.none hx⟩

/-- An assignment that escapes is the last one of its name. -/
theorem Remembers.concat_assign (h : s.Remembers as last)
    (hx : ∀ scope ∈ s.opened as, scope.has x = false) :
    s.Remembers (as ++ [.assign x v]) (Function.update last x (.some v)) := by
  have hother {y : String} (hy : y ≠ x) (i : Nat) (w : Value) :
      s.Escapes (as ++ [.assign x v]) i y w ↔ s.Escapes as i y w := by
    rw [escapes_concat, or_iff_left]
    rintro ⟨-, hassign, -⟩
    cases hassign
    exact hy rfl
  constructor
  · intro y w hw
    by_cases hy : y = x
    · subst hy
      rw [Function.update_self] at hw
      cases hw
      refine ⟨as.length, escapes_concat.mpr (.inr ⟨rfl, rfl, hx⟩), fun j w hj hescapes => ?_⟩
      have hlength := hescapes.lt_length
      rw [List.length_append, List.length_singleton] at hlength
      omega
    · rw [Function.update_of_ne hy] at hw
      simpa only [EscapesLast, hother hy] using h.some hw
  · intro y hw
    by_cases hy : y = x
    · rw [hy, Function.update_self] at hw
      cases hw
    · rw [Function.update_of_ne hy] at hw
      simpa only [hother hy] using h.none hw

end State

/-! ## Between opening a scope and dropping it -/

/-- No scope is popped that was not pushed before, and none of those pushed stays. -/
def Action.Matched (as : List Action) : Prop :=
  (∀ p, p <+: as → p.countP isPop ≤ p.countP isPush) ∧ as.countP isPop = as.countP isPush

namespace State

variable {s t : State} {as : List Action} {inner outer : List Scope}
  {last : String → Option Value}

/-- The scopes after a scope was opened in `s` and actions were done that do not drop it: those
opened since and not dropped, and below them the scopes of `s` as the assignments that escape
have left them. -/
structure Within (s : State) (as : List Action) (inner outer : List Scope)
    (last : String → Option Value) : Prop where
  stack : (s.after (.push :: as)).environment.stack = inner ++ outer
  count : inner.length + as.countP Action.isPop = 1 + as.countP Action.isPush
  outer : Environment.Rewritten last s.environment.stack outer
  last : s.Remembers (.push :: as) last

theorem Within.opened (h : s.Within as inner outer last) : s.opened (.push :: as) = inner := by
  have hdepth : (s.after (.push :: as)).environment.depth - s.environment.depth = inner.length := by
    have hlength := congrArg List.length h.stack
    have hsame := h.outer.length_eq
    simp only [Environment.stack, List.length_append, List.length_cons] at hlength hsame
    simp only [Environment.depth]
    omega
  rw [State.opened, hdepth, h.stack, List.take_left]

theorem within_nil (s : State) : s.Within [] [[]] s.environment.stack fun _ => none where
  stack := rfl
  count := rfl
  outer := .refl _
  last := by
    refine ⟨nofun, fun {x} _ i v h => ?_⟩
    obtain rfl : i = 0 := Nat.lt_one_iff.mp h.lt_length
    cases h.1

theorem after_push_concat (s : State) (as : List Action) (a : Action) :
    s.after (.push :: (as ++ [a])) = (a.perform (s.after (.push :: as))).2 :=
  s.after_append (.push :: as) [a]

/-- An action that stays inside. -/
theorem Within.inside {a : Action} {inner' : List Scope} (h : s.Within as inner outer last)
    (hstack : (a.perform (s.after (.push :: as))).2.environment.stack = inner' ++ outer)
    (hlength : inner'.length + (if a.isPop then 1 else 0) =
      inner.length + (if a.isPush then 1 else 0))
    (ha : ∀ x v, a = .assign x v → ∃ scope ∈ inner, scope.has x = true) :
    s.Within (as ++ [a]) inner' outer last where
  stack := by rw [after_push_concat, hstack]
  count := by
    have hcount := h.count
    rw [List.countP_append, List.countP_append, List.countP_singleton, List.countP_singleton]
    omega
  outer := h.outer
  last := h.last.concat (h.opened ▸ ha)

theorem Within.assign {x : String} {v : Value} (h : s.Within as inner outer last) :
    ∃ inner' outer' last', s.Within (as ++ [.assign x v]) inner' outer' last' := by
  have hstack : (s.after (.push :: (as ++ [.assign x v]))).environment.stack =
      (assignIn x v (inner ++ outer)).getD (inner ++ outer) := by
    rw [after_push_concat, Action.stack_assign, h.stack]
  have hcount := h.count
  rcases Environment.assignIn_append inner outer x v with
    ⟨hinner, inner', hlength, hassign⟩ | ⟨hinner, hassign⟩
  · refine ⟨inner', outer, last, h.inside ?_ hlength fun y w hy => ?_⟩
    · rw [← after_push_concat, hstack, hassign, Option.getD_some]
    · cases hy
      exact hinner
  · refine ⟨inner, (assignIn x v outer).getD outer, Function.update last x (some v), ?_, ?_,
      h.outer.assign x v, h.last.concat_assign (h.opened ▸ hinner)⟩
    · rw [hstack, hassign]
      cases assignIn x v outer <;> rfl
    · rw [List.countP_append, List.countP_append, List.countP_singleton, List.countP_singleton]
      exact hcount

theorem Within.concat {a : Action} (h : s.Within as inner outer last)
    (has : as.countP Action.isPop ≤ as.countP Action.isPush)
    (ha : (as ++ [a]).countP Action.isPop ≤ (as ++ [a]).countP Action.isPush) :
    ∃ inner' outer' last', s.Within (as ++ [a]) inner' outer' last' := by
  have hcount := h.count
  cases inner with
  | nil =>
    rw [List.length_nil] at hcount
    omega
  | cons scope inner =>
    rw [List.length_cons] at hcount
    have hstack := h.stack
    generalize ht : s.after (.push :: as) = t at hstack
    cases a with
    | push =>
      refine ⟨[] :: scope :: inner, outer, last, h.inside ?_ rfl nofun⟩
      rw [ht, Action.perform_push]
      exact congrArg ([] :: ·) hstack
    | pop =>
      -- The scope that is dropped is not the first one that was opened.
      have hrest : inner ++ outer ≠ [] := by
        rw [List.countP_append, List.countP_append] at ha
        have hpops : [Action.pop].countP Action.isPop = 1 := rfl
        have hpushes : [Action.pop].countP Action.isPush = 0 := rfl
        exact List.append_ne_nil_of_left_ne_nil (List.ne_nil_of_length_pos (by omega)) _
      refine ⟨inner, outer, last, h.inside ?_ rfl nofun⟩
      rw [ht]
      exact Action.stack_pop hstack hrest
    | define x v =>
      refine ⟨scope.put x v :: inner, outer, last, h.inside ?_ rfl nofun⟩
      rw [ht]
      exact Action.stack_define hstack
    | assign x v => exact h.assign
    | read x =>
      refine ⟨scope :: inner, outer, last, h.inside ?_ rfl nofun⟩
      rw [ht, Action.perform_read_state, hstack]
    | lookup x | locate x =>
      refine ⟨scope :: inner, outer, last, h.inside ?_ rfl nofun⟩
      rw [ht]
      exact hstack

theorem exists_within (s : State)
    (h : ∀ p, p <+: as → p.countP Action.isPop ≤ p.countP Action.isPush) :
    ∃ inner outer last, s.Within as inner outer last := by
  induction as using List.reverseRecOn with
  | nil => exact ⟨_, _, _, s.within_nil⟩
  | append_singleton as a ih =>
    obtain ⟨inner, outer, last, hwithin⟩ := ih fun p hp => h p (hp.trans (List.prefix_append ..))
    exact hwithin.concat (h as (List.prefix_append ..)) (h _ (List.prefix_refl _))

/-- After the scope is dropped again only the assignments that escaped are left of it. -/
theorem after_enclosed (s : State) (h : Action.Matched as) :
    ∃ last, s.Remembers (.push :: (as ++ [.pop])) last ∧ Environment.Rewritten last
      s.environment.stack (s.after (.push :: (as ++ [.pop]))).environment.stack := by
  obtain ⟨inner, outer, last, hwithin⟩ := s.exists_within h.1
  have hone : inner.length = 1 := by
    have hcount := hwithin.count
    have hmatched := h.2
    omega
  obtain ⟨scope, rfl⟩ := List.length_eq_one_iff.mp hone
  have houter : outer ≠ [] :=
    List.ne_nil_of_length_pos (hwithin.outer.length_eq ▸ Nat.succ_pos _)
  refine ⟨last, hwithin.last.concat nofun, ?_⟩
  rw [after_push_concat, Action.stack_pop hwithin.stack houter]
  exact hwithin.outer

end State

/-- The three ways of reading a name agree: they find no binding, or the innermost one. -/
theorem Action.readings_agree (s : State) (x : String) :
    (∀ scope ∈ s.environment.stack, scope.has x = false) ∧
        ((read x).perform s).1 = .error (.runtime (.undefinedVariable x) none) ∧
        (lookup x).perform s = (.ok (.value none), s) ∧
        (locate x).perform s = (.ok (.place none), s) ∨
      ∃ above scope below v, s.environment.stack = above ++ scope :: below ∧
        (∀ u ∈ above, u.has x = false) ∧ scope.lookup x = some v ∧
        (read x).perform s = (.ok (.value (some v)), s) ∧
        (lookup x).perform s = (.ok (.value (some v)), s) ∧
        (locate x).perform s = (.ok (.place (some below.length)), s) := by
  rw [perform_read, perform_lookup, perform_locate]
  cases hx : s.environment.lookup? x with
  | none =>
    have hnone := Environment.visible_eq_none_iff.mp hx
    rw [Environment.holder?_of_unbound hnone]
    exact .inl ⟨hnone, rfl, rfl, rfl⟩
  | some v =>
    obtain ⟨above, scope, below, hstack, habove, hv⟩ := Environment.exists_nearest hx
    have hhas : scope.has x = true := by rw [Scope.has, hv]; rfl
    rw [Environment.holder?_of_nearest hstack habove hhas]
    exact .inr ⟨above, scope, below, v, hstack, habove, hv, rfl, rfl, rfl⟩

/-- The scopes of a state are an environment. Whatever sequence of actions is done, the depth is
that of the start with the scopes that were pushed and without those that were popped, of which
the base scope is none; an action that fails pops the base scope, or reads or binds again a name
that has no binding, and changes nothing; all readings see the innermost binding. A sequence in a
scope of its own keeps the names of the scopes outside: their values change only where the scope
is the nearest outside that binds a name and an assignment to the name escapes, and the last one
that does gives the value. -/
theorem scopes_follow_their_history :
    (∀ (s : State) (as : List Action),
      (s.after as).environment.depth + (s.log as).countP (fun p => p.1.isPop && p.2.isOk) =
        s.environment.depth + as.countP Action.isPush ∧
      1 ≤ (s.after as).environment.depth) ∧ ({} : State).environment.depth = 1 ∧
    (∀ (s : State) (a : Action) f,
      ((a.perform s).1 = .error f ↔
        a = .pop ∧ s.environment.depth = 1 ∧ f = .malformed .baseScope ∨
        ∃ x, (a = .read x ∨ ∃ v, a = .assign x v) ∧ s.environment.lookup? x = none ∧
          f = .runtime (.undefinedVariable x) none) ∧
      ((a.perform s).1 = .error f → (a.perform s).2 = s)) ∧
    (∀ (s : State) (x : String),
      (∀ scope ∈ s.environment.stack, scope.has x = false) ∧
          ((Action.read x).perform s).1 = .error (.runtime (.undefinedVariable x) none) ∧
          (Action.lookup x).perform s = (.ok (.value none), s) ∧
          (Action.locate x).perform s = (.ok (.place none), s) ∨
        ∃ above scope below v, s.environment.stack = above ++ scope :: below ∧
          (∀ u ∈ above, u.has x = false) ∧ scope.lookup x = some v ∧
          (Action.read x).perform s = (.ok (.value (some v)), s) ∧
          (Action.lookup x).perform s = (.ok (.value (some v)), s) ∧
          (Action.locate x).perform s = (.ok (.place (some below.length)), s)) ∧
    ∀ (s : State) (as : List Action), Action.Matched as →
      let all := .push :: (as ++ [.pop])
      (s.after all).environment.depth = s.environment.depth ∧
      ∀ k scope, s.environment.stack[k]? = some scope →
        ∃ scope', (s.after all).environment.stack[k]? = some scope' ∧
          scope'.map Prod.fst = scope.map Prod.fst ∧
          ∀ x, (s.environment.stack.findIdx? (Scope.has x) = some k → ∀ v,
              s.EscapesLast all x v → scope'.lookup x = some v) ∧
            (s.environment.stack.findIdx? (Scope.has x) ≠ some k ∨
              (∀ i v, ¬s.Escapes all i x v) → scope'.lookup x = scope.lookup x) := by
  refine ⟨fun s as => ⟨s.after_depth as, Nat.succ_pos _⟩, rfl,
    fun s a f => ⟨Action.perform_error_iff, Action.perform_of_error⟩, Action.readings_agree,
    fun s as has => ?_⟩
  obtain ⟨last, hlast, hrewritten⟩ := s.after_enclosed has
  refine ⟨hrewritten.length_eq, fun k scope hk => ?_⟩
  obtain ⟨scope', hk', hnames, hlookup⟩ := hrewritten.lookup hk
  refine ⟨scope', hk', hnames, fun x => ⟨fun hnearest v hv => ?_, fun hkept => ?_⟩⟩
  · rw [hlookup, if_pos hnearest, hlast.last_eq hv, Option.some_or]
  · rw [hlookup]
    split
    next hnearest =>
      have hnone := hkept.resolve_left (absurd hnearest)
      cases hx : last x with
      | none => rfl
      | some v =>
        obtain ⟨i, hi, -⟩ := hlast.some hx
        exact absurd hi (hnone i v)
    next => rfl

/-- An assignment to `x` before the scope binds `x` itself escapes, the later ones do not. -/
theorem assignment_escapes_until_name_is_bound :
    let s : State := { environment := ⟨[("x", .int 0), ("y", .int 5)], []⟩ }
    let as : List Action := [.assign "x" (.int 1), .push, .define "x" (.int 2),
      .assign "x" (.int 3), .pop, .define "x" (.int 7), .assign "x" (.int 8)]
    Action.Matched as ∧ s.EscapesLast (.push :: (as ++ [.pop])) "x" (.int 1) ∧
    (∃ scope, (s.after (.push :: (as ++ [.pop]))).environment.stack[0]? = some scope ∧
      scope.lookup "x" = some (.int 1) ∧ scope.lookup "y" = some (.int 5)) ∧
    (Action.pop.perform s).1 = .error (.malformed .baseScope) ∧ (Action.pop.perform s).2 = s := by
  intro s as
  have hmatched : Action.Matched as := by
    refine ⟨fun p hp => ?_, rfl⟩
    have hall : ∀ p ∈ as.inits, p.countP Action.isPop ≤ p.countP Action.isPush := by decide
    exact hall p ((List.mem_inits p as).mpr hp)
  have hx : s.EscapesLast (.push :: (as ++ [.pop])) "x" (.int 1) := by
    refine ⟨1, ⟨rfl, List.forall_mem_singleton.mpr rfl⟩, ?_⟩
    rintro j w hj ⟨hassign, hnone⟩
    match j with
    | 4 => exact Bool.noConfusion (hnone [("x", .int 2)] List.mem_cons_self)
    | 7 => exact Bool.noConfusion (hnone [("x", .int 7)] List.mem_cons_self)
    | 2 | 3 | 5 | 6 | 8 => cases hassign
    | j + 9 => cases hassign
  obtain ⟨-, -, hfails, -, henclosed⟩ := scopes_follow_their_history
  obtain ⟨-, hscopes⟩ := henclosed s as hmatched
  obtain ⟨scope, hscope, -, hlookup⟩ := hscopes 0 _ rfl
  have hy : ∀ i v, ¬s.Escapes (.push :: (as ++ [.pop])) i "y" v := by
    rintro i v ⟨hassign, -⟩
    have hmem := List.mem_of_getElem? hassign
    simp [as] at hmem
  have hpop : (Action.pop.perform s).1 = .error (.malformed .baseScope) := rfl
  exact ⟨hmatched, hx, ⟨scope, hscope, (hlookup "x").1 rfl _ hx, (hlookup "y").2 (.inr hy)⟩,
    hpop, (hfails s .pop _).2 hpop⟩

end ScopeScript
