import ScopeScript.Proofs.Eval.Frame
import ScopeScript.Proofs.Eval.Sound
import ScopeScript.Proofs.Parser.Faults

/-!
# States that programs reach

Programs run one after another on one state. Every state on the way is sound,
also in the midst of a program and after a program that has failed, so that no
program meets an internal fault of the evaluator.
-/

namespace ScopeScript

/-- The states that programs reach: the state at the start, those after a program and after
a part of one, and those with a scope more or less or with a parameter bound to an argument. -/
inductive State.Reached : State → Prop where
  | start : Reached {}
  | run {s : State} (limits : Limits) (source : List Char) : Reached s →
    Reached (runSource limits source s).2
  | part {s : State} {n : Node} {category : Category} (rounds depth : Nat) : Reached s →
    n.IsRead → n.WellFormed Binary64.IsLiteral category → Reached (evalNode rounds depth n s).2
  | push {s : State} : Reached s → Reached { s with environment := s.environment.push }
  | drop {s : State} : Reached s → Reached { s with environment := s.environment.dropInnermost }
  | argument {s t : State} {n : Node} {v : Value} (rounds depth : Nat) (x : String) : Reached s →
    n.IsRead → n.WellFormed Binary64.IsLiteral .expression →
    Eval.value (evalNode rounds depth) n s = (.ok v, t) → Reached (Eval.define x v t).2

/-- The faults that programs have; the bound on the rounds of a loop stands for a program that
does not end. -/
def Fault.isOrdinary : Fault → Bool
  | .lexical _ | .grammar .. | .nestingLimit => true
  | .integerTooLarge | .quotientTooLarge | .remainderDomain | .numeralTooLong => true
  | .runtime (.undefinedVariable _) _ | .runtime (.mismatch _) _ => true
  | .runtime (.indexOutOfBounds ..) _ | .runtime (.unknownFunction _) _ => true
  | .runtime (.arity ..) _ | .runtime .divisionByZero _ | .runtime .moduloByZero _ => true
  | .runtime (.malformed _) _ | .iterationLimit | .isDirectory _ => false

namespace Fault

variable {f : Fault}

theorem isOrdinary_of_not_internal (h : f.isInternal = false) :
    f.isOrdinary = true ∨ f = .iterationLimit := by
  cases f with
  | runtime cause line => cases cause <;> first | exact .inl rfl | cases h
  | iterationLimit => exact .inr rfl
  | isDirectory path => cases h
  | _ => exact .inl rfl

theorem not_internal_of_ordinary (h : f.isOrdinary = true) : f.isInternal = false := by
  cases f with
  | runtime cause line => cases cause <;> first | rfl | cases h
  | isDirectory path => cases h
  | _ => rfl

theorem Yields.not_internal {α : Type} {post : α → Prop} {r : Except Fault α}
    (h : Yields post r) (hr : r = .error f) : f.isInternal = false := by
  subst hr
  cases h with
  | error hf => exact hf

end Fault

theorem parse_error_ordinary {nesting : Nat} {cs : List Char} {f : Fault}
    (h : parse nesting cs = .error f) : f.isOrdinary = true := by
  rcases parse_error h with hgrammar | rfl | ⟨cause, rfl⟩
  · cases f with
    | grammar _ _ _ | nestingLimit => rfl
    | _ => cases hgrammar
  · rfl
  · rfl

theorem readProgram_result (limits : Limits) (source : List Char) :
    (readProgram limits source).2 = parse limits.nesting source := by
  unfold readProgram parse
  cases tokenize source <;> rfl

namespace Eval

open Value (Outcome)

variable {n : Node} {category : Category}

theorem ensures_part (rounds depth : Nat) (hread : n.IsRead)
    (hn : n.WellFormed Binary64.IsLiteral category) :
    Ensures (Outcome n.breakOpen) (evalNode rounds depth n) := by
  have hev := evalNode_obeys rounds depth
  cases category with
  | expression => exact (hev.expression hread hn).weaken fun _ hv => hv.mono nofun
  | statement => exact hev.statement hread hn
  | block => exact hev.statement hread (.block hn)

theorem ensures_execute (limits : Limits) (hread : n.IsRead)
    (hn : n.WellFormed Binary64.IsLiteral .block) :
    Ensures (Outcome false) (execute limits n) :=
  ensures_program ((evalNode_obeys limits.rounds limits.depth).block hread hn).2

theorem ensures_runSource (limits : Limits) (source : List Char) :
    Ensures (Outcome false) (runSource limits source) := by
  intro s hs
  unfold runSource
  rw [readProgram_result]
  cases hp : parse limits.nesting source with
  | error f => exact ⟨hs, .error (Fault.not_internal_of_ordinary (parse_error_ordinary hp))⟩
  | ok p =>
    exact ensures_execute limits ⟨_, _, p, hp, .self⟩ (Node.parse_wellFormed hp) s hs

theorem transient_grown (rounds depth : Nat) (xs : List String) (arguments body : List Node) :
    Within State.Grown Value (do
      bindArguments (evalNode rounds depth) xs arguments
      statements (evalNode rounds depth) body .absent) := by
  have hall := fun n => scoped_within.evalNode rounds depth n
  refine scoped_within.outer.bind (scoped_within.bindArguments xs fun n _ => hall n) fun _ => ?_
  exact scoped_within.outer.statements (fun n _ => hall n) _

/-- Where a computation has kept the scopes, the one that was opened for it is on top. -/
theorem popScope_pushed {α : Type} {x : Eval α} (hx : Within State.Grown α x) (s : State) :
    ∃ scope, (popScope (x (pushScope s).2).2).1 = .ok scope := by
  have hdepth := (hx (pushScope s).2).depth
  change _ = s.environment.depth + 1 at hdepth
  generalize (x (pushScope s).2).2 = t at hdepth
  obtain ⟨⟨innermost, outer⟩, output, supply⟩ := t
  cases outer with
  | nil =>
    rw [Environment.depth, Environment.depth] at hdepth
    cases hdepth
  | cons scope outer => exact ⟨innermost, rfl⟩

end Eval

theorem State.Reached.sound {s : State} (h : s.Reached) : s.Sound := by
  induction h with
  | start =>
    intro scope hscope b hb
    rw [List.mem_singleton.mp hscope] at hb
    cases hb
  | run limits source _ ih => exact (Eval.ensures_runSource limits source _ ih).1
  | part rounds depth _ hread hn ih => exact (Eval.ensures_part rounds depth hread hn _ ih).1
  | push _ ih => exact List.forall_mem_cons.mpr ⟨List.forall_mem_nil _, ih⟩
  | drop _ ih => exact ih.dropInnermost
  | argument rounds depth x _ hread hn hv ih =>
    obtain ⟨ht, hresult⟩ := Eval.ensures_value
      ((Eval.evalNode_obeys rounds depth).expression hread hn) _ ih
    rw [hv] at ht hresult
    cases hresult with
    | ok hgenuine => exact (Eval.Ensures.define x hgenuine _ ht).1

/-- Programs run one after another keep to genuine values and meet no internal fault: every
state that they reach is sound, a program and a part of one fail only as programs do, and the
scope that a block or a call has opened can be closed again. -/
theorem programs_meet_no_internal_fault :
    (∀ s : State, s.Reached → ∀ scope ∈ s.environment.scopes, ∀ b ∈ scope, b.2.Genuine) ∧
    (∀ (s : State) limits source f, s.Reached → (runSource limits source s).1 = .error f →
      f.isOrdinary = true ∨
        f = .iterationLimit ∧ ∃ p, parse limits.nesting source = .ok p) ∧
    (∀ (s : State) rounds depth (n : Node) category f, s.Reached → n.IsRead →
      n.WellFormed Binary64.IsLiteral category → (evalNode rounds depth n s).1 = .error f →
      f.isOrdinary = true ∨ f = .iterationLimit) ∧
    ∀ (s : State) rounds depth xs arguments body, ∃ scope, (Eval.popScope ((do
      Eval.bindArguments (evalNode rounds depth) xs arguments
      Eval.statements (evalNode rounds depth) body .absent : Eval Value)
        (Eval.pushScope s).2).2).1 = .ok scope := by
  refine ⟨fun s hs scope hscope => ?_, fun s limits source f hs hf => ?_,
    fun s rounds depth n category f hs hread hn hf => ?_,
    fun s rounds depth xs arguments body => ?_⟩
  · exact hs.sound scope (List.mem_reverse.mp hscope)
  · cases hp : parse limits.nesting source with
    | error e =>
      have he : e = f := by
        unfold runSource at hf
        rw [readProgram_result, hp] at hf
        exact Except.error.inj hf
      exact .inl (parse_error_ordinary (he ▸ hp))
    | ok p =>
      have hinternal := (Eval.ensures_runSource limits source s hs.sound).2.not_internal hf
      exact (Fault.isOrdinary_of_not_internal hinternal).imp_right fun hf => ⟨hf, p, rfl⟩
  · exact Fault.isOrdinary_of_not_internal
      ((Eval.ensures_part rounds depth hread hn s hs.sound).2.not_internal hf)
  · exact Eval.popScope_pushed (Eval.transient_grown rounds depth xs arguments body) s

/-- A program that binds `x` to a number, and a second one that calls it. -/
theorem call_meets_no_internal_fault : ∃ (s : State) (n : Node),
    (runSource ⟨20, 12, 12, 5⟩ "let x = 1".toList {}).2 = s ∧ s.Reached ∧
    (∀ scope ∈ s.environment.scopes, ∀ b ∈ scope, b.2.Genuine) ∧
    s.environment.scopes = [[("x", .int 1)]] ∧
    (runSource ⟨20, 12, 12, 5⟩ "x()".toList s).1 =
      .error (.runtime (.unknownFunction "x") (some 1)) ∧
    (Fault.runtime (.unknownFunction "x") (some 1)).isOrdinary = true ∧
    n.IsRead ∧ n.WellFormed Binary64.IsLiteral .statement ∧
    (evalNode 5 1 n s).1 = .error .nestingLimit ∧ Fault.isOrdinary .nestingLimit = true := by
  have hbinds : tokenize "let x = 1".toList = .ok [
      ⟨.letWord, .text "let", 1, 1, "let".toList⟩, ⟨.name, .text "x", 1, 5, ['x']⟩,
      ⟨.assign, .text "=", 1, 7, ['=']⟩, ⟨.number, .int 1, 1, 9, ['1']⟩,
      ⟨.endOfInput, .absent, 1, 10, []⟩] :=
    Fault.eq_ok_of_toOption (by decide +kernel)
  have hcalls : tokenize "x()".toList = .ok [⟨.name, .text "x", 1, 1, ['x']⟩,
      ⟨.openParen, .text "(", 1, 2, ['(']⟩, ⟨.closeParen, .text ")", 1, 3, [')']⟩,
      ⟨.endOfInput, .absent, 1, 4, []⟩] :=
    Fault.eq_ok_of_toOption (by decide +kernel)
  have hp : parse 20 "let x = 1".toList = .ok (.block [.declaration
      (.leaf ⟨"IDENT", "x", some 1, some 5⟩) (.leaf ⟨"LET", "let", none, none⟩)
      (.literal (.int 1) none) (some 1)] none) := Fault.bind_eq_ok_iff.mpr ⟨_, hbinds, rfl⟩
  have hq : parse 20 "x()".toList = .ok (.block [.expression
      (.call (.leaf ⟨"IDENT", "x", some 1, some 1⟩) (.arguments [] none) (some 1))
      (some 1)] none) := Fault.bind_eq_ok_iff.mpr ⟨_, hcalls, rfl⟩
  have hstate : (runSource ⟨20, 12, 12, 5⟩ "let x = 1".toList {}).2 =
      ⟨⟨[("x", .int 1)], []⟩, "", 0⟩ := by
    unfold runSource
    rw [readProgram_result, hp]
    rfl
  have hs : State.Reached ⟨⟨[("x", .int 1)], []⟩, "", 0⟩ := hstate ▸ State.Reached.start.run _ _
  have hfault : (runSource ⟨20, 12, 12, 5⟩ "x()".toList ⟨⟨[("x", .int 1)], []⟩, "", 0⟩).1 =
      .error (.runtime (.unknownFunction "x") (some 1)) := by
    unfold runSource
    rw [readProgram_result, hq]
    rfl
  obtain ⟨hgenuine, hrun, hpart, -⟩ := programs_meet_no_internal_fault
  cases Node.parse_wellFormed hq with
  | statements hns =>
    have hwell := hns _ (List.mem_cons_self ..)
    have hread := Node.IsRead.child ⟨_, _, _, hq, .self⟩ (List.mem_cons_self ..)
    exact ⟨_, _, hstate, hs, hgenuine _ hs, rfl, hfault,
      (hrun _ _ _ _ hs hfault).resolve_right nofun, hread, hwell, rfl,
      (hpart _ 5 1 _ _ _ hs hread hwell rfl).resolve_right nofun⟩

end ScopeScript
