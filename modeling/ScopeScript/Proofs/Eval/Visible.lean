import ScopeScript.Proofs.Eval.Frame

/-!
# What evaluation can see

Evaluation reads bindings by their names alone. On two stacks on which names
mean the same it ends in the same way, and names mean the same afterwards,
however the bindings are spread over scopes and whatever they hide. What is
hidden is neither read nor written.
-/

namespace ScopeScript

namespace Environment

/-- Every binding that a scope further in hides is still there, with its value. -/
def KeepsHidden (e e' : Environment) : Prop :=
  ∀ (above : List Scope) (s : Scope) (below : List Scope) (x : String) (v : Value),
    e.stack = above ++ s :: below → (∃ u ∈ above, u.has x = true) → s.lookup x = some v →
    ∃ above' s' below', e'.stack = above' ++ s' :: below' ∧ above'.length = above.length ∧
      below'.length = below.length ∧ s'.lookup x = some v

variable {hidden : String → Prop} {ss ts : List Scope}

theorem Settled.length_eq (h : Settled hidden ss ts) : ts.length = ss.length := by
  have hlength := congrArg List.length h.layout
  rwa [List.length_map, List.length_map, eq_comm] at hlength

theorem Settled.keeps {above below : List Scope} {s : Scope} {x : String} {v : Value}
    (h : Settled hidden (above ++ s :: below) ts)
    (hx : hidden x ∨ ∃ u ∈ above, u.has x = true) (hv : s.lookup x = some v) :
    ∃ above' s' below', ts = above' ++ s' :: below' ∧ above'.length = above.length ∧
      below'.length = below.length ∧ s'.lookup x = some v := by
  induction above generalizing hidden ts with
  | nil => cases ts with
    | nil => exact h.elim
    | cons t ts =>
      obtain ⟨-, hsame, hrest⟩ := h
      have hhidden : hidden x := hx.resolve_right fun ⟨u, hu, _⟩ => nomatch hu
      exact ⟨[], t, ts, rfl, rfl, hrest.length_eq, (hsame x hhidden).symm.trans hv⟩
  | cons u above ih => cases ts with
    | nil => exact h.elim
    | cons t ts =>
      obtain ⟨-, -, hrest⟩ := h
      have hx' : (hidden x ∨ u.has x = true) ∨ ∃ w ∈ above, w.has x = true := by
        rcases hx with hx | ⟨w, hw, hwx⟩
        · exact .inl (.inl hx)
        rcases List.mem_cons.mp hw with rfl | hw
        · exact .inl (.inr hwx)
        · exact .inr ⟨w, hw, hwx⟩
      obtain ⟨above', s', below', rfl, habove, hbelow, hlookup⟩ := ih hrest hx'
      exact ⟨t :: above', s', below', rfl, by simp [habove], hbelow, hlookup⟩

end Environment

namespace State

variable {s t : State}

theorem Grown.keepsHidden (h : Grown s t) : s.environment.KeepsHidden t.environment := by
  intro above scope below x v hstack hx hv
  cases above with
  | nil =>
    obtain ⟨u, hu, -⟩ := hx
    cases hu
  | cons u above =>
    obtain ⟨rfl, houter⟩ := List.cons.inj hstack
    have hx' : s.environment.innermost.has x = true ∨ ∃ w ∈ above, w.has x = true := by
      obtain ⟨w, hw, hwx⟩ := hx
      rcases List.mem_cons.mp hw with rfl | hw
      · exact .inl hwx
      · exact .inr ⟨w, hw, hwx⟩
    have hsettled := h.outer
    rw [houter] at hsettled
    obtain ⟨above', s', below', hts, habove, hbelow, hlookup⟩ := hsettled.keeps hx' hv
    refine ⟨t.environment.innermost :: above', s', below', ?_, by simp [habove], hbelow, hlookup⟩
    rw [Environment.stack, hts]
    rfl

/-- Two states whose first `k` scopes are the same, and that mean the same by names below. -/
structure Alike (k : Nat) (s t : State) : Prop where
  output : s.output = t.output
  supply : s.supply = t.supply
  stack : Environment.Alike k s.environment.stack t.environment.stack

theorem Alike.lookup {k : Nat} (h : Alike k s t) (x : String) :
    s.environment.lookup? x = t.environment.lookup? x := h.stack.visible x

end State

namespace Eval

open State (Alike)

/-- The computation ends in the same way on states that are alike, and leaves them alike. -/
def Agrees (α : Type) (x : Eval α) : Prop :=
  ∀ k s t, Alike k s t → (x s).1 = (x t).1 ∧ Alike k (x s).2 (x t).2

theorem Agrees.run {α : Type} {x : Eval α} (hx : Agrees α x) {k : Nat} {s t : State}
    (h : Alike k s t) : ∃ r u v, x s = (r, u) ∧ x t = (r, v) ∧ Alike k u v := by
  obtain ⟨hresult, hstate⟩ := hx k s t h
  exact ⟨_, _, (x t).2, rfl, Prod.ext hresult.symm rfl, hstate⟩

theorem agrees_assign (name : String) (v : Value) : Agrees _ (assign name v) := by
  intro k s t h
  rw [assign_apply, assign_apply]
  rcases h.stack.assignIn name v with ⟨hs, ht⟩ | ⟨us, vs, hs, ht, halike⟩
  · rw [Environment.assign?_of_eq_none hs, Environment.assign?_of_eq_none ht]
    exact ⟨rfl, h⟩
  · obtain ⟨e, he, rfl⟩ := Environment.assign?_of_eq_some hs
    obtain ⟨e', he', rfl⟩ := Environment.assign?_of_eq_some ht
    rw [he, he']
    exact ⟨rfl, h.output, h.supply, halike⟩

theorem agrees_bind {α β : Type} {x : Eval α} {f : α → Eval β} (hx : Agrees α x)
    (hf : ∀ a, Agrees β (f a)) : Agrees β (x >>= f) := by
  intro k s t h
  obtain ⟨r, u, v, hs, ht, hstate⟩ := hx.run h
  rw [bind_apply, bind_apply, hs, ht]
  cases r with
  | error e => exact ⟨rfl, hstate⟩
  | ok a => exact hf a k u v hstate

theorem stable_agrees : Stable Agrees where
  lift r k s t h := ⟨rfl, h⟩
  bind hx hf := agrees_bind hx hf
  located {α} line {x} hx k s t h := by
    obtain ⟨r, u, v, hs, ht, hstate⟩ := Agrees.run hx h
    rw [located, located, hs, ht]
    cases r with
    | error e => exact ⟨rfl, hstate⟩
    | ok a => exact ⟨rfl, hstate⟩
  lookup? name k s t h := ⟨congrArg Except.ok (h.lookup name), h⟩
  write text k s t h := ⟨rfl, congrArg (· ++ text) h.output, h.supply, h.stack⟩
  freshIdentity k s t h :=
    ⟨congrArg Except.ok h.supply, h.output, congrArg (· + 1) h.supply, h.stack⟩
  rebind name f _ k s t h := by
    rw [rebind_apply, rebind_apply, h.lookup name]
    split
    next => exact ⟨rfl, h⟩
    next old _ =>
      cases f old with
      | error e => exact ⟨rfl, h⟩
      | ok new => exact agrees_assign name new k s t h

theorem scoped_agrees : Scoped Agrees Agrees where
  inner := stable_agrees
  outer := stable_agrees
  weaken hx := hx
  define name v k s t h := ⟨rfl, h.output, h.supply, h.stack.put name v⟩
  inScope {α x} hx k s t h := by
    obtain ⟨hresult, hstate⟩ := hx (k + 1) { s with environment := s.environment.push }
      { t with environment := t.environment.push } ⟨h.output, h.supply, rfl, h.stack⟩
    have hrest : Environment.Alike k _ _ := hstate.stack.2
    obtain ⟨hs, ht⟩ := hrest.ne_nil
    refine ⟨hresult, hstate.output, hstate.supply, ?_⟩
    change Environment.Alike k (Environment.stack (Environment.dropInnermost _))
      (Environment.stack (Environment.dropInnermost _))
    rw [Environment.dropInnermost_stack hs, Environment.dropInnermost_stack ht]
    exact hrest

/-! ## An extra block -/

theorem program_singleton (ev : Node → Eval Value) (n : Node) :
    program ev [n] = ev n >>= fun v => pure (if v.isBreak then .absent else v) := by
  unfold program statements
  rw [bind_assoc]
  congr 1
  funext v
  by_cases hv : v.isBreak = true <;> simp [hv, statements]

/-- Statements in a block of their own print the same and end in the same way; only the
line of the block is new, for faults that have none. -/
theorem program_block (rounds depth : Nat) (ns : List Node) (line : Option Nat) (s : State) :
    (program (evalNode rounds (depth + 1)) [.block ns line] s).1 =
        ((program (evalNode rounds depth) ns s).1).mapError (Fault.locate line) ∧
      (program (evalNode rounds (depth + 1)) [.block ns line] s).2.output =
        (program (evalNode rounds depth) ns s).2.output := by
  have hpushed : Alike 0 { s with environment := s.environment.push } s :=
    ⟨rfl, rfl, List.cons_ne_nil _ _, List.cons_ne_nil _ _, fun _ => rfl⟩
  have hagrees : Agrees _ (statements (evalNode rounds depth) ns .absent) :=
    stable_agrees.statements (fun n _ => scoped_agrees.evalNode rounds depth n) .absent
  obtain ⟨r, u, v, hs, ht, hstate⟩ := hagrees.run hpushed
  have hblock : evalNode rounds (depth + 1) (.block ns line) =
      located line (inScope (statements (evalNode rounds depth) ns .absent)) := rfl
  rw [program_singleton, hblock, program, bind_apply, bind_apply, located, inScope, hs, ht]
  cases r with
  | error e => exact ⟨rfl, hstate.output⟩
  | ok v => exact ⟨rfl, hstate.output⟩

end Eval

/-- Of the scopes, only what their names stand for matters: on any two stacks on which it is
the same, a node ends in the same way, prints the same and leaves names meaning the same,
and what was hidden stays. So a program prints and yields the same in a block of its own. -/
theorem only_visible_bindings_matter :
    (∀ (rounds depth : Nat) (n : Node) (s : State) (e : Environment),
      (∀ x, s.environment.lookup? x = e.lookup? x) →
      let (r, t) := evalNode rounds depth n s
      let (r', t') := evalNode rounds depth n { s with environment := e }
      r = r' ∧ t.output = t'.output ∧
        (∀ x, t.environment.lookup? x = t'.environment.lookup? x) ∧
        s.environment.KeepsHidden t.environment ∧ e.KeepsHidden t'.environment) ∧
    (∀ (rounds depth : Nat) (ns : List Node) (line : Option Nat),
      let (r, t) := Eval.program (evalNode rounds depth) ns {}
      let (r', t') := Eval.program (evalNode rounds (depth + 1)) [.block ns line] {}
      r' = r.mapError (Fault.locate line) ∧ t'.output = t.output) := by
  constructor
  · intro rounds depth n s e hvisible
    have halike : State.Alike 0 s { s with environment := e } :=
      ⟨rfl, rfl, List.cons_ne_nil _ _, List.cons_ne_nil _ _, hvisible⟩
    have hagrees := Eval.scoped_agrees.evalNode rounds depth n
    obtain ⟨hresult, hstate⟩ := hagrees 0 _ _ halike
    have hkept := Eval.scoped_within.evalNode rounds depth n
    exact ⟨hresult, hstate.output, hstate.lookup, (hkept s).keepsHidden,
      (hkept { s with environment := e }).keepsHidden⟩
  · intro rounds depth ns line
    exact Eval.program_block rounds depth ns line {}

/-- `x = 2` where `x` is bound once, and where two scopes bind it below an empty one. -/
theorem hidden_binding_untouched_by_assignment : ∃ (n : Node) (s : State) (e : Environment),
    e.stack = [[], [("x", .int 1)], [("x", .int 0)]] ∧
    (evalNode 1 3 n s).1 = (evalNode 1 3 n { s with environment := e }).1 ∧
    (evalNode 1 3 n s).2.environment.stack = [[("x", .int 2)]] ∧
    (evalNode 1 3 n { s with environment := e }).2.environment.stack =
      [[], [("x", .int 2)], [("x", .int 0)]] ∧
    e.KeepsHidden (evalNode 1 3 n { s with environment := e }).2.environment := by
  let n : Node := .declaration (.leaf ⟨"IDENT", "x", some 1, some 1⟩)
    (.leaf ⟨"ASSIGN", "=", none, none⟩) (.literal (.int 2) none) (some 1)
  let s : State := { environment := ⟨[("x", .int 1)], []⟩ }
  let e : Environment := ⟨[], [[("x", .int 1)], [("x", .int 0)]]⟩
  have hvisible : ∀ x, s.environment.lookup? x = e.lookup? x := by
    intro x
    simp only [s, e, Environment.lookup?_eq, Environment.stack, Environment.visible_cons,
      Scope.lookup_cons]
    split <;> rfl
  obtain ⟨hresult, -, -, -, hkept⟩ := only_visible_bindings_matter.1 1 3 n s e hvisible
  exact ⟨n, s, e, rfl, hresult, rfl, rfl, hkept⟩

end ScopeScript
