import ScopeScript.Proofs.Environment.Stack
import ScopeScript.Proofs.Eval.Stable
import ScopeScript.Proofs.Node.RoundTrip
import ScopeScript.Session

/-!
# What evaluation leaves alone

However a computation ends, the scopes outside of its own keep their names and
the variants of their values, hidden bindings keep their values, and what was
printed stays. An expression leaves its own scope alone in the same way.
-/

namespace ScopeScript

open Environment (Settled)

namespace State

/-- A later state in which every scope has the names and variants that it had. -/
structure Calm (s t : State) : Prop where
  settled : Settled (fun _ => False) s.environment.stack t.environment.stack
  output : ∃ text, t.output = s.output ++ text

/-- A later state whose innermost scope may have got new names and variants. -/
structure Grown (s t : State) : Prop where
  innermost : ∀ x, s.environment.innermost.has x = true → t.environment.innermost.has x = true
  outer : Settled (fun x => s.environment.innermost.has x = true) s.environment.outer
    t.environment.outer
  output : ∃ text, t.output = s.output ++ text

variable {s t u : State}

theorem output_trans (h : ∃ text, t.output = s.output ++ text)
    (h' : ∃ text, u.output = t.output ++ text) : ∃ text, u.output = s.output ++ text := by
  obtain ⟨a, ha⟩ := h
  obtain ⟨b, hb⟩ := h'
  exact ⟨a ++ b, by rw [hb, ha, String.append_assoc]⟩

theorem Calm.refl (s : State) : Calm s s := ⟨.refl _ _, "", (String.append_empty).symm⟩

theorem Calm.trans (h : Calm s t) (h' : Calm t u) : Calm s u :=
  ⟨h.settled.trans h'.settled, output_trans h.output h'.output⟩

theorem Calm.grown (h : Calm s t) : Grown s t := by
  obtain ⟨hlayout, -, houter⟩ := h.settled
  refine ⟨fun x hx => ?_, houter.mono fun x hx => .inr hx, h.output⟩
  rwa [← Scope.has_eq_of_layout hlayout]

theorem Grown.trans (h : Grown s t) (h' : Grown t u) : Grown s u :=
  ⟨fun x hx => h'.innermost x (h.innermost x hx), h.outer.trans (h'.outer.mono h.innermost),
    output_trans h.output h'.output⟩

theorem Grown.depth (h : Grown s t) : t.environment.depth = s.environment.depth := by
  have hlength := congrArg List.length h.outer.layout
  rw [List.length_map, List.length_map] at hlength
  rw [Environment.depth, Environment.depth, hlength]

/-- A name that is bound stays bound. -/
theorem Grown.bound (h : Grown s t) {x : String}
    (hx : (s.environment.lookup? x).isSome = true) :
    (t.environment.lookup? x).isSome = true := by
  have houter := Environment.visible_isSome_of_layout h.outer.layout x
  rw [Environment.lookup?_eq, Environment.stack, Environment.visible_cons, Option.isSome_or,
    Bool.or_eq_true] at hx ⊢
  rw [← houter]
  exact hx.imp_left (h.innermost x)

/-- A state with the scopes of another one, the same names in each of them and values of the
same variants, and with more printed. -/
def Keeps (s t : State) : Prop :=
  t.environment.layout = s.environment.layout ∧ ∃ text, t.output = s.output ++ text

theorem Calm.keeps (h : Calm s t) : Keeps s t := ⟨h.settled.layout.symm, h.output⟩

end State

namespace Eval

open State (Calm Grown)

/-- The computation leads to a related state, however it ends. -/
def Within (R : State → State → Prop) (α : Type) (x : Eval α) : Prop := ∀ s, R s (x s).2

theorem stable_within {R : State → State → Prop} (hcalm : ∀ {s t}, Calm s t → R s t)
    (htrans : ∀ {s t u}, R s t → R t u → R s u) : Stable (Within R) where
  lift r s := hcalm (.refl s)
  bind {α β x f} hx hf s := by
    have hfirst := hx s
    rw [bind_apply]
    rcases hxs : x s with ⟨_ | a, t⟩
    · rwa [hxs] at hfirst
    · rw [hxs] at hfirst
      exact htrans hfirst (hf a t)
  located {α} line {x} hx s := by
    have hfirst := hx s
    unfold located
    rcases hxs : x s with ⟨_ | _, t⟩ <;> rwa [hxs] at hfirst
  lookup? name s := hcalm (.refl s)
  write text s := hcalm ⟨.refl _ _, text, rfl⟩
  freshIdentity s := hcalm ⟨.refl _ _, "", (String.append_empty).symm⟩
  rebind name f hf s := by
    rw [rebind_apply]
    split
    next => exact hcalm (.refl s)
    next old hold =>
      cases hnew : f old with
      | error e => exact hcalm (.refl s)
      | ok new =>
        rw [lift_ok_bind, assign_apply]
        split
        next e he =>
          have hsettled : Settled (fun _ => False) s.environment.stack e.stack :=
            Environment.settled_assignIn (Environment.assign?_eq_some.mp he) hold
              (hf old new hnew) id
          exact hcalm ⟨hsettled, "", (String.append_empty).symm⟩
        next => exact hcalm (.refl s)

theorem scoped_within : Scoped (Within Calm) (Within Grown) where
  inner := stable_within id .trans
  outer := stable_within Calm.grown .trans
  weaken hx s := (hx s).grown
  define name v s :=
    ⟨fun x hx => Scope.has_put _ name x v hx, .refl _ _, "", (String.append_empty).symm⟩
  inScope {α x} hx s := by
    have hinner := hx { s with environment := s.environment.push }
    have hsettled : Settled (fun _ => False) s.environment.stack _ :=
      hinner.outer.mono fun x hx => hx.elim
    have hstack := Environment.dropInnermost_stack (hsettled.ne_nil (List.cons_ne_nil _ _))
    refine ⟨?_, hinner.output⟩
    change Settled _ _ (Environment.stack (Environment.dropInnermost _))
    rw [hstack]
    exact hsettled

theorem block_calm (rounds depth : Nat) (ns : List Node) (s : State) :
    Calm s (block (evalNode rounds depth) ns s).2 :=
  scoped_within.block (fun n _ => scoped_within.evalNode rounds depth n) s

theorem expression_calm {F : Binary64 → Prop} {n : Node} (rounds depth : Nat)
    (hn : n.WellFormed F .expression) (s : State) : Calm s (evalNode rounds depth n s).2 :=
  scoped_within.evalNode_expression rounds depth hn s

theorem program_grown (rounds depth : Nat) (ns : List Node) (s : State) :
    Grown s (program (evalNode rounds depth) ns s).2 :=
  scoped_within.outer.program (fun n _ => scoped_within.evalNode rounds depth n) s

end Eval

/-! ## Sessions -/

namespace Session

open State (Calm Grown)

theorem log_state (stage : Stage) (s : Session) : (s.log stage).state = s.state := by
  unfold log
  split <;> rfl

theorem read_state (source : List Char) (s : Session) : (s.read source).2.state = s.state := by
  have hlogs : ∀ stages : List Stage,
      (stages.foldl (fun s stage => s.log stage) s).state = s.state := by
    intro stages
    induction stages generalizing s with
    | nil => rfl
    | cons stage stages ih => rw [List.foldl_cons, ih, log_state]
  unfold read
  split
  next stages result _ =>
    split
    · exact hlogs stages
    · exact hlogs stages

theorem report_state (f : Fault) (s : Session) : (s.report f).state = s.state := by
  dsimp only [report]
  split <;> rfl

theorem execute_grown (program : Node) (s : Session) :
    Grown s.state (s.execute program).2.state :=
  Eval.program_grown s.limits.rounds s.limits.depth program.children s.state

theorem run_grown (source : List Char) (s : Session) : Grown s.state (s.run source).2.state := by
  have hread := read_state source s
  unfold run
  rcases hs : s.read source with ⟨_ | program, u⟩ <;> rw [hs] at hread
  · exact hread ▸ (Calm.refl _).grown
  · have hgrown := execute_grown program (u.log (.executing program.children.length))
    rwa [log_state, hread] at hgrown

theorem evaluate_grown (source : List Char) (s : Session) :
    Grown s.state (s.evaluate source).2.state := by
  have hread := read_state source s
  unfold evaluate
  rcases hs : s.read source with ⟨_ | program, u⟩ <;> rw [hs] at hread
  · exact hread ▸ (Calm.refl _).grown
  · exact hread ▸ execute_grown program u

theorem present_grown (v : Value) (s : Session) : Grown s.state (s.present v).2.state := by
  unfold present
  split
  · exact (Calm.refl _).grown
  · split
    next text _ =>
      have hprinted : Calm s.state (s.print text).state :=
        ⟨.refl _ _, text ++ "\n", String.append_assoc ..⟩
      exact hprinted.grown
    next => exact (Calm.refl _).grown

theorem echo_grown (source : List Char) (s : Session) :
    Grown s.state (s.echo source).2.state := by
  have hgrown := evaluate_grown source s
  unfold echo
  rcases hs : s.evaluate source with ⟨f | ⟨v, isStatement⟩, u⟩ <;> rw [hs] at hgrown
  · dsimp only
    split
    · change Grown s.state (u.report f).state
      rwa [report_state]
    · exact hgrown
  · dsimp only
    split
    · exact hgrown
    · exact hgrown.trans (present_grown v u)

end Session

end ScopeScript
