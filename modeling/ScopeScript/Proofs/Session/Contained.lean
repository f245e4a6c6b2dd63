import ScopeScript.CommandLine
import ScopeScript.Proofs.Eval.Reached

/-!
# Failures of inputs

A session reports the faults of its stages and goes on. What it hands on is
arithmetic beyond the number format and numerals that are too long: these end
the prompt and the command line, and they can be met by reading an input, by
running it and by showing its value.
-/

namespace ScopeScript

/-- The faults of a program that belong to no stage and are not reported. -/
def Fault.isEscaping : Fault → Bool
  | .integerTooLarge | .quotientTooLarge | .remainderDomain | .numeralTooLong => true
  | _ => false

/-- A fault of an input that ends the session: it escapes, or a loop of the program does not
end. -/
def Fault.EndsSessions (f : Fault) : Prop := f.isEscaping = true ∨ f = .iterationLimit

/-- A fault that is not internal is reported, or it ends the session. -/
theorem Fault.endsSessions_of_not_reported {f : Fault} (h : f.isInternal = false)
    (hf : ¬f.isReported = true) : f.EndsSessions := by
  cases f with
  | lexical | grammar | runtime | nestingLimit => exact absurd rfl hf
  | iterationLimit => exact .inr rfl
  | isDirectory => cases h
  | _ => exact .inl rfl

namespace Session

variable {s t u : Session} {source : List Char} {f : Fault}

/-- What a report of a fault adds to the error output. -/
def reportText (traceback : Bool) (f : Fault) : String :=
  "Error: " ++ f.message ++ "\n" ++ if traceback then "\nPython traceback:\n" else ""

theorem report_errors (f : Fault) (s : Session) :
    (s.report f).errors = s.errors ++ reportText s.traceback f := by
  unfold report reportText complain
  dsimp only
  split
  next => simp only [String.append_assoc, String.append_empty]; rfl
  next => simp only [String.append_assoc, String.append_empty]

/-! ## Settings and the error output -/

/-- The settings are the same, and the error output has got entries of the log only. -/
structure Logged (s t : Session) : Prop where
  limits : t.limits = s.limits
  traceback : t.traceback = s.traceback
  logging : t.logging = s.logging
  errors : ∃ entries, t.errors = s.errors ++ entries ∧ (s.logging = false → entries = "")

namespace Logged

theorem refl (s : Session) : Logged s s :=
  ⟨rfl, rfl, rfl, "", String.append_empty.symm, fun _ => rfl⟩

theorem trans (h : Logged s t) (h' : Logged t u) : Logged s u := by
  obtain ⟨a, ha, hsilent⟩ := h.errors
  obtain ⟨b, hb, hsilent'⟩ := h'.errors
  refine ⟨h'.limits.trans h.limits, h'.traceback.trans h.traceback, h'.logging.trans h.logging,
    a ++ b, by rw [hb, ha, String.append_assoc], fun hs => ?_⟩
  rw [hsilent hs, hsilent' (h.logging.trans hs), String.append_empty]

theorem log (stage : Stage) (s : Session) : Logged s (s.log stage) := by
  unfold Session.log
  split
  next hs =>
    exact ⟨rfl, rfl, rfl, "slang.runner: " ++ stage.message ++ "\n",
      by simp only [complain, String.append_assoc], fun h => absurd (hs.symm.trans h) nofun⟩
  next => exact refl s

theorem read (source : List Char) (s : Session) : Logged s (s.read source).2 := by
  have hlogs : ∀ (stages : List Stage) (s : Session),
      Logged s (stages.foldl (fun s stage => s.log stage) s) := by
    intro stages
    induction stages with
    | nil => exact refl
    | cons stage stages ih => exact fun s => (log stage s).trans (ih _)
  unfold Session.read
  split
  next stages result _ =>
    obtain ⟨hlimits, htraceback, hlogging, herrors⟩ := hlogs stages s
    split <;> exact ⟨hlimits, htraceback, hlogging, herrors⟩

theorem execute (program : Node) (s : Session) : Logged s (s.execute program).2 :=
  ⟨rfl, rfl, rfl, "", String.append_empty.symm, fun _ => rfl⟩

theorem evaluate (source : List Char) (s : Session) : Logged s (s.evaluate source).2 := by
  have hread := read source s
  unfold Session.evaluate
  rcases hs : s.read source with ⟨_ | program, u⟩ <;> rw [hs] at hread
  · exact hread
  · exact hread.trans (execute program u)

end Logged

/-! ## Faults of inputs -/

theorem read_result (source : List Char) (s : Session) :
    (s.read source).1 = parse s.limits.nesting source := by
  rw [← readProgram_result]
  unfold read
  split
  next stages result h =>
    rw [h]
    split <;> rfl

theorem read_not_internal {nesting : Nat} (h : parse nesting source = .error f) :
    f.isInternal = false :=
  Fault.not_internal_of_ordinary (parse_error_ordinary h)

theorem execute_sound {p : Node} (hs : s.state.Sound)
    (hp : parse s.limits.nesting source = .ok p) :
    (s.execute p).2.state.Sound ∧ ∀ f, (s.execute p).1 = .error f → f.isInternal = false := by
  obtain ⟨hsound, hresult⟩ := Eval.ensures_execute s.limits ⟨_, _, p, hp, .self⟩
    (Node.parse_wellFormed hp) s.state hs
  exact ⟨hsound, fun f hf => hresult.not_internal hf⟩

theorem run_sound (hs : s.state.Sound) (source : List Char) :
    (s.run source).2.state.Sound ∧ ∀ f, (s.run source).1 = .error f → f.isInternal = false := by
  have hresult := read_result source s
  have hstate := read_state source s
  have hlogged := Logged.read source s
  unfold run
  rcases hread : s.read source with ⟨f | p, u⟩ <;> rw [hread] at hresult hstate hlogged
  · refine ⟨hstate ▸ hs, ?_⟩
    rintro _ ⟨⟩
    exact read_not_internal hresult.symm
  · have hlog := Logged.log (.executing p.children.length) u
    have hp : parse (u.log (.executing p.children.length)).limits.nesting source = .ok p := by
      rw [hlog.limits, hlogged.limits, ← hresult]
    refine execute_sound ?_ hp
    rwa [log_state, hstate]

theorem evaluate_sound (hs : s.state.Sound) (source : List Char) :
    (s.evaluate source).2.state.Sound ∧
      ∀ f, (s.evaluate source).1 = .error f → f.isInternal = false := by
  have hresult := read_result source s
  have hstate := read_state source s
  have hlogged := Logged.read source s
  unfold evaluate
  rcases hread : s.read source with ⟨f | p, u⟩ <;> rw [hread] at hresult hstate hlogged
  · refine ⟨hstate ▸ hs, ?_⟩
    rintro _ ⟨⟩
    exact read_not_internal hresult.symm
  · have hp : parse u.limits.nesting source = .ok p := by rw [hlogged.limits, ← hresult]
    obtain ⟨hafter, hfault⟩ := execute_sound (hstate ▸ hs) hp
    exact ⟨hafter, fun f hf => hfault f (Fault.map_eq_error_iff.mp hf)⟩

/-! ## Showing values -/

/-- Showing fails for a value with an integer that is too long. -/
theorem present_error_iff {v : Value} : (s.present v).1 = .error f ↔
    f = .numeralTooLong ∧ v ≠ .absent ∧ v.isWritable = false := by
  unfold present
  split
  next => exact ⟨nofun, fun h => absurd rfl h.2.1⟩
  next hv =>
    unfold Value.display?
    cases hwritable : v.isWritable with
    | true => exact ⟨nofun, fun h => nomatch h.2.2⟩
    | false =>
      refine ⟨?_, ?_⟩
      · rintro ⟨⟩
        exact ⟨rfl, hv, rfl⟩
      · rintro ⟨rfl, -⟩
        rfl

theorem present_environment (v : Value) (s : Session) :
    (s.present v).2.state.environment = s.state.environment := by
  unfold present
  split
  · rfl
  · split <;> rfl

/-- How an echo follows from an evaluation. -/
theorem echo_of_evaluate (source : List Char) (s : Session) :
    (∃ f, (s.evaluate source).1 = .error f ∧
      s.echo source = if f.isReported then (.ok (), (s.evaluate source).2.report f)
        else (.error f, (s.evaluate source).2)) ∨
    ∃ v isStatement, (s.evaluate source).1 = .ok (v, isStatement) ∧
      s.echo source = if isStatement then (.ok (), (s.evaluate source).2)
        else (s.evaluate source).2.present v := by
  unfold echo
  rcases s.evaluate source with ⟨f | ⟨v, isStatement⟩, u⟩
  · exact .inl ⟨f, rfl, rfl⟩
  · exact .inr ⟨v, isStatement, rfl, rfl⟩

theorem echo_sound (hs : s.state.Sound) (source : List Char) :
    (s.echo source).2.state.Sound ∧
      ∀ f, (s.echo source).1 = .error f → f.EndsSessions := by
  obtain ⟨hsound, hfault⟩ := evaluate_sound hs source
  rcases echo_of_evaluate source s with ⟨f, hf, hecho⟩ | ⟨v, isStatement, -, hecho⟩ <;> rw [hecho]
  · split
    next => exact ⟨by rwa [report_state], fun _ h => nomatch h⟩
    next hreported =>
      refine ⟨hsound, ?_⟩
      rintro _ ⟨⟩
      exact Fault.endsSessions_of_not_reported (hfault f hf) hreported
  · split
    next => exact ⟨hsound, fun _ h => nomatch h⟩
    next =>
      refine ⟨?_, fun f hf => .inl ((present_error_iff.mp hf).1 ▸ rfl)⟩
      rwa [State.Sound, present_environment]

/-! ## Reached sessions -/

theorem empty_sound (hs : s.state.environment = .empty) : s.state.Sound := by
  rw [State.Sound, hs]
  exact List.forall_mem_singleton.mpr (List.forall_mem_nil _)

theorem command_sound (hs : s.state.Sound) (line : List Char) : (s.command line).2.state.Sound := by
  unfold command
  dsimp only
  split
  · exact hs
  · split
    · exact hs
    · split
      · exact hs
      split
      · exact hs
      split <;> exact hs
    · exact empty_sound rfl
    · exact hs

/-- The sessions that inputs and commands lead to, from one in which no name is bound. -/
inductive Reached : Session → Prop where
  | start {s : Session} : s.state.environment = .empty → Reached s
  | run {s : Session} (source : List Char) : Reached s → Reached (s.run source).2
  | evaluate {s : Session} (source : List Char) : Reached s → Reached (s.evaluate source).2
  | echo {s : Session} (source : List Char) : Reached s → Reached (s.echo source).2
  | command {s : Session} (line : List Char) : Reached s → Reached (s.command line).2

theorem Reached.sound (h : s.Reached) : s.state.Sound := by
  induction h with
  | start hs => exact empty_sound hs
  | run source _ ih => exact (run_sound ih source).1
  | evaluate source _ ih => exact (evaluate_sound ih source).1
  | echo source _ ih => exact (echo_sound ih source).1
  | command line _ ih => exact command_sound ih line

/-- A fault of an input that is reported is added to the error output, behind entries of the
log, and the session goes on. -/
theorem echo_reports (h : (s.evaluate source).1 = .error f) (hf : f.isReported = true) :
    (s.echo source).1 = .ok () ∧ ∃ entries,
      (s.echo source).2.errors = s.errors ++ entries ++ reportText s.traceback f ∧
        (s.logging = false → entries = "") := by
  rcases echo_of_evaluate source s with ⟨g, hg, hecho⟩ | ⟨v, isStatement, hv, -⟩
  · cases h.symm.trans hg
    rw [hecho, if_pos hf]
    have hlogged := Logged.evaluate source s
    obtain ⟨entries, hentries, hsilent⟩ := hlogged.errors
    exact ⟨rfl, entries, by rw [report_errors, hentries, hlogged.traceback], hsilent⟩
  · cases h.symm.trans hv

/-- An echo fails with the faults that are not reported, and where the value that it shows has
an integer that is too long. -/
theorem echo_error_iff : (s.echo source).1 = .error f ↔
    (s.evaluate source).1 = .error f ∧ f.isReported = false ∨
    f = .numeralTooLong ∧
      ∃ v, (s.evaluate source).1 = .ok (v, false) ∧ v ≠ .absent ∧ v.isWritable = false := by
  unfold echo
  rcases s.evaluate source with ⟨g | ⟨v, isStatement⟩, u⟩
  · cases hreported : g.isReported with
    | true =>
      dsimp only
      rw [if_pos hreported]
      refine ⟨nofun, ?_⟩
      rintro (⟨⟨⟩, hf⟩ | ⟨-, v, hv, -⟩)
      · exact absurd (hreported.symm.trans hf) nofun
      · cases hv
    | false =>
      dsimp only
      rw [if_neg (hreported ▸ Bool.false_ne_true)]
      refine ⟨?_, ?_⟩
      · rintro ⟨⟩
        exact .inl ⟨rfl, hreported⟩
      · rintro (⟨⟨⟩, -⟩ | ⟨-, v, hv, -⟩)
        · rfl
        · cases hv
  · dsimp only
    refine ⟨fun h => ?_, ?_⟩
    · split at h
      next => cases h
      next hstatement =>
        obtain ⟨rfl, hshown⟩ := present_error_iff.mp h
        exact .inr ⟨rfl, v, by rw [Bool.eq_false_of_not_eq_true hstatement], hshown⟩
    · rintro (⟨hv, -⟩ | ⟨rfl, w, ⟨⟩, hshown⟩)
      · cases hv
      · exact present_error_iff.mpr ⟨rfl, hshown⟩

end Session

/-! ## The prompt -/

namespace Prompt

variable {p : Prompt} {f : Fault}

theorem openDepth_error {text : List Char} (h : openDepth text = .error f) :
    f = .numeralTooLong := by
  unfold openDepth at h
  split at h
  next => cases h
  next => cases h
  next g hlexical hg =>
    cases h
    rcases tokenize_error hg with rfl | ⟨cause, rfl⟩
    · rfl
    · exact absurd rfl (hlexical cause)

/-- What Enter does with a buffer that is not one line to be submitted. -/
theorem weigh_error {buffer : List Char}
    (h : (do
      if (← openDepth buffer) = 0 then return Decision.submit buffer
      else return .goOn (buffer ++ '\n' :: (← indent buffer)) : Except Fault Decision) = .error f) :
    f = .numeralTooLong := by
  cases hdepth : openDepth buffer with
  | error g =>
    rw [hdepth] at h
    cases h
    exact openDepth_error hdepth
  | ok n =>
    rw [indent, hdepth] at h
    cases n <;> cases h

theorem enter_error {buffer : List Char} (h : enter buffer = .error f) : f = .numeralTooLong := by
  unfold enter at h
  dsimp only at h
  split at h
  · exact weigh_error h
  split at h
  · cases h
  · exact weigh_error h

/-- One key keeps the state sound, and ends the prompt only with a fault that ends sessions. -/
theorem press_sound (hp : p.session.state.Sound) (k : Key) :
    (p.press k).2.session.state.Sound ∧
      ∀ f, (p.press k).1 = .error f → f.EndsSessions := by
  have hsubmit (text : List Char) : (p.submit text).2.session.state.Sound ∧
      ∀ f, (p.submit text).1 = .error f → f.EndsSessions := by
    unfold submit
    dsimp only
    split
    · exact ⟨hp, fun _ h => nomatch h⟩
    · have hcommand := Session.command_sound hp (Session.normalize text)
      rcases hs : p.session.command (Session.normalize text) with ⟨_ | _, s⟩ <;>
        rw [hs] at hcommand
      · exact Session.echo_sound hcommand (Session.normalize text)
      · exact ⟨hcommand, fun _ h => nomatch h⟩
  cases k with
  | text | backspace | interrupt => exact ⟨hp, fun _ h => nomatch h⟩
  | endOfInput =>
    unfold press
    dsimp only
    split <;> exact ⟨hp, fun _ h => nomatch h⟩
  | enter =>
    unfold press
    dsimp only
    split
    next f hf =>
      refine ⟨hp, ?_⟩
      rintro _ ⟨⟩
      exact .inl (enter_error hf ▸ rfl)
    next text _ => exact hsubmit text
    next => exact ⟨hp, fun _ h => nomatch h⟩

theorem pressAll_sound (hp : p.session.state.Sound) (ks : List Key) :
    (p.pressAll ks).2.session.state.Sound ∧
      ∀ f, (p.pressAll ks).1 = .error f → f.EndsSessions := by
  induction ks generalizing p with
  | nil => exact ⟨hp, fun _ h => nomatch h⟩
  | cons k ks ih =>
    obtain ⟨hsound, hfault⟩ := press_sound hp k
    unfold pressAll
    split
    next =>
      rcases hpress : p.press k with ⟨f | _, q⟩ <;> rw [hpress] at hsound hfault
      · exact ⟨hsound, hfault⟩
      · exact ih hsound
    next => exact ⟨hp, fun _ h => nomatch h⟩

end Prompt

/-! ## The command line -/

namespace CommandLine

variable {s : Session} {f : Fault}

/-- How a call may end: as it should, with the text of a wrong use, with a reported fault as
the end of the error output, or with a fault that ends sessions or that a file has. -/
def Outcome.Contained (o : Outcome) : Prop :=
  match o.exit with
  | .done | .misuse _ => True
  | .failed => ∃ entries traceback f, f.isReported = true ∧
      o.errors = entries ++ Session.reportText traceback f
  | .uncaught f => f.EndsSessions ∨ ∃ path, f = .isDirectory path

theorem failure_contained (hf : f.isInternal = false) (s : Session) :
    (failure f s).Contained := by
  unfold failure
  split
  next hreported => exact ⟨s.errors, s.traceback, f, hreported, Session.report_errors f s⟩
  next hreported => exact .inl (Fault.endsSessions_of_not_reported hf hreported)

theorem runProgram_contained (hs : s.state.Sound) (source : List Char) :
    (runProgram source s).Contained := by
  obtain ⟨-, hfault⟩ := Session.run_sound hs source
  unfold runProgram
  rcases hrun : s.run source with ⟨f | v, t⟩ <;> rw [hrun] at hfault
  · exact failure_contained (hfault f rfl) t
  · dsimp only
    rcases hpresent : t.present v with ⟨f | _, u⟩
    · exact .inl (.inl ((Session.present_error_iff.mp (congrArg Prod.fst hpresent)).1 ▸ rfl))
    · trivial

/-- The forms of a program fail only where it nests too deep or has a numeral too long. -/
theorem formsOf_error {o : Options} {limits : Limits} {program : Node}
    (h : formsOf o limits program = .error f) : f.isInternal = false := by
  have hrender (form : Node → String) :
      Fault.Yields (fun _ => True) (program.render? form limits.levels) := by
    unfold Node.render?
    split
    · exact .error rfl
    · exact .ite (.ok trivial) (.error rfl)
  have hforms : Fault.Yields (fun _ => True) (formsOf o limits program) := by
    have hnone (text : String) : Fault.Yields (fun _ => True) (pure text) := .ok trivial
    have hline : Fault.Yields (fun _ => True)
        ((program.render? Node.prefixForm limits.levels).map (· ++ "\n")) :=
      (hrender _).map fun _ _ => trivial
    unfold formsOf
    dsimp only
    refine .ite ((hrender _).bind fun outline _ => ?_) ((hnone "").bind fun outline _ => ?_)
    all_goals exact .ite (hline.bind fun _ _ => hnone _) ((hnone "").bind fun _ _ => hnone _)
  exact hforms.not_internal h

theorem showForms_contained (o : Options) (source : List Char) (s : Session) :
    (showForms o source s).Contained := by
  have hresult := Session.read_result source s
  unfold showForms
  rcases hread : s.read source with ⟨f | p, t⟩ <;> rw [hread] at hresult
  · exact failure_contained (Session.read_not_internal hresult.symm) t
  · dsimp only
    split
    next => trivial
    next f hf => exact failure_contained (formsOf_error hf) t

theorem process_contained (o : Options) (hs : s.state.Sound) (source : List Char) :
    (process o source s).Contained := by
  unfold process
  split
  · exact showForms_contained o source s
  · exact runProgram_contained hs source

theorem processSource_contained (o : Options) (w : Surroundings) (hs : s.state.Sound) :
    (processSource o w s).Contained := by
  have hinput : Outcome.Contained (if w.input.isEmpty then .ofSession (.misuse .emptyInput) s
      else process o w.input s) := by
    split
    · trivial
    · exact process_contained o hs w.input
  unfold processSource
  dsimp only
  split
  next => exact hinput
  next argument _ =>
    split
    next => exact hinput
    next =>
      split
      next => exact process_contained o hs _
      next => exact process_contained o hs _
      next path _ => exact .inr ⟨path, rfl⟩

theorem converse_contained (keys : List Key) (hs : s.state.Sound) :
    (converse keys s).Contained := by
  have hstart : (Prompt.start s).session.state.Sound := hs
  obtain ⟨-, hfault⟩ := Prompt.pressAll_sound hstart (keys ++ [.interrupt, .endOfInput])
  unfold converse Prompt.converse
  rcases hkeys : (Prompt.start s).pressAll (keys ++ [.interrupt, .endOfInput]) with ⟨f | _, p⟩ <;>
    rw [hkeys] at hfault ⊢
  · exact .inl (hfault f rfl)
  · trivial

theorem call_contained (arguments : List String) (w : Surroundings) :
    (call arguments w).Contained := by
  have hstart (o : Options) : (sessionOf o w).state.Sound := Session.empty_sound rfl
  unfold call
  split
  next => trivial
  next o _ =>
    dsimp only
    split
    next => exact converse_contained _ (hstart o)
    next => exact processSource_contained o w (hstart o)

end CommandLine

end ScopeScript
