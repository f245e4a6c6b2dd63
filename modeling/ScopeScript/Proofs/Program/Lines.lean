import ScopeScript.Proofs.Eval.Break
import ScopeScript.Proofs.Eval.Relocated
import ScopeScript.Proofs.Parser.Lines

/-!
# Runs on consecutive lines

Running two programs one after the other on one state is running the text of
both, with a line end in between: up to the lines that the second one is at.
Only the first exit of the first program decides whether the second one begins.
-/

namespace ScopeScript

namespace Eval

variable {ev : Node → Eval Value} {s t : State} {ns ms : List Node} {v : Value} {f : Fault}

theorem program_append (ns ms : List Node) : program ev (ns ++ ms) =
    statements ev ns .absent >>= fun v =>
      (if v.isBreak then pure v else statements ev ms v) >>= fun w =>
        pure (if w.isBreak then .absent else w) := by
  have habsent : ¬Value.absent.isBreak = true := nofun
  rw [program, statements_append ns ms habsent, bind_assoc]

theorem program_of_error (h : statements ev ns .absent s = (.error f, t)) (ms : List Node) :
    program ev (ns ++ ms) s = (.error f, t) := by
  rw [program_append, bind_apply, h]

theorem program_of_break (h : statements ev ns .absent s = (.ok .breakSignal, t))
    (ms : List Node) : program ev (ns ++ ms) s = (.ok .absent, t) := by
  rw [program_append, bind_apply, h]
  rfl

/-- After a normal end the second statements run on the state that the first ones have left;
their result is that of the last one. -/
theorem program_of_ok (h : statements ev ns .absent s = (.ok v, t)) (hv : ¬v.isBreak = true)
    (hms : ms ≠ []) : program ev (ns ++ ms) s = program ev ms t := by
  obtain ⟨m, ms, rfl⟩ := List.exists_cons_of_ne_nil hms
  rw [program_append, bind_apply, h]
  dsimp only
  rw [if_neg hv]
  rfl

/-- Programs that differ in nothing but lines do the same but for lines. -/
theorem program_relocated {ev : Node → Eval Value}
    (hev : ∀ n, Moves .lineless Value.lineless (ev n) (ev n.lineless))
    (h : ms.map Node.lineless = ns.map Node.lineless) (s : State) :
    stripped Value.lineless (program ev ms s) = stripped Value.lineless (program ev ns s) := by
  rw [← moved_lineless, ← moved_lineless, ← Moves.program hev ms s, ← Moves.program hev ns s]
  exact congrArg (fun ns => program ev ns (s.relocated .lineless)) h

end Eval

theorem runSource_of_parse (limits : Limits) {source : List Char} {p : Node}
    (h : parse limits.nesting source = .ok p) (s : State) :
    runSource limits source s = execute limits p s := by
  unfold runSource
  rw [readProgram_result, h]

/-- The run of a program comes to a break signal outside of all its loops, which ends it. -/
def StopsAtBreak (limits : Limits) (p : Node) (s : State) : Prop :=
  (Eval.statements (evalNode limits.rounds limits.depth) p.children .absent s).1 =
    .ok .breakSignal

/-- How a program runs in front of further statements: it fails or stops in the same way in
front of any others, or ends normally and hands its state on. -/
theorem execute_append (limits : Limits) (p : Node) (s : State) :
    (∃ f t, ¬StopsAtBreak limits p s ∧ ∀ ms, execute limits (.block (p.children ++ ms) none) s =
      (.error f, t)) ∨
    (∃ t, StopsAtBreak limits p s ∧ ∀ ms, execute limits (.block (p.children ++ ms) none) s =
      (.ok .absent, t)) ∨
    ∃ v t, ¬StopsAtBreak limits p s ∧ execute limits p s = (.ok v, t) ∧ ∀ ms, ms ≠ [] →
      execute limits (.block (p.children ++ ms) none) s = execute limits (.block ms none) t := by
  cases hrun : Eval.statements (evalNode limits.rounds limits.depth) p.children .absent s with
  | mk r t =>
  cases r with
  | error f =>
    refine .inl ⟨f, t, fun h => ?_, Eval.program_of_error hrun⟩
    rw [StopsAtBreak, hrun] at h
    cases h
  | ok v =>
    by_cases hv : v.isBreak = true
    · obtain rfl : v = .breakSignal := by cases v <;> first | rfl | cases hv
      exact .inr (.inl ⟨t, congrArg Prod.fst hrun, Eval.program_of_break hrun⟩)
    · refine .inr (.inr ⟨v, t, fun h => ?_, ?_, fun ms hms => Eval.program_of_ok hrun hv hms⟩)
      · rw [StopsAtBreak, hrun] at h
        cases h
        exact hv rfl
      · rw [execute, Eval.program, Eval.bind_apply, hrun]
        exact congrArg (fun w => (Except.ok w, t)) (if_neg hv)

theorem consecutive_lines_run_in_sequence (limits : Limits) {first second : List Char} {p q : Node}
    (hp : parse limits.nesting first = .ok p) (hq : parse limits.nesting second = .ok q)
    (hne : q.children ≠ []) : ∃ k,
    parse limits.nesting (first ++ '\n' :: second) =
      .ok (.block (p.children ++ q.children.map (Node.relocated (.below k))) none) ∧
    ∀ s,
      (∀ v, (runSource limits first s).1 = .ok v → ¬StopsAtBreak limits p s →
        Eval.stripped Value.lineless (runSource limits (first ++ '\n' :: second) s) =
          Eval.stripped Value.lineless (runSource limits second (runSource limits first s).2)) ∧
      (∀ f, (runSource limits first s).1 = .error f →
        runSource limits (first ++ '\n' :: second) s = runSource limits first s ∧
        ∀ ms, execute limits (.block (p.children ++ ms) none) s = runSource limits first s) ∧
      (StopsAtBreak limits p s → runSource limits (first ++ '\n' :: second) s =
        (.ok .absent, (runSource limits first s).2)) := by
  obtain ⟨k, hboth⟩ := parse_lines hp hq
  refine ⟨k, hboth, fun s => ?_⟩
  simp only [runSource_of_parse limits hp, runSource_of_parse limits hq,
    runSource_of_parse limits hboth]
  have halone : execute limits p s = execute limits (.block (p.children ++ []) none) s := by
    rw [List.append_nil]
    rfl
  rcases execute_append limits p s with
    ⟨f, t, hstop, hall⟩ | ⟨t, hstop, hall⟩ | ⟨v, t, hstop, hv, hgo⟩
  · rw [halone, hall, hall]
    exact ⟨fun _ h => (nomatch h), fun _ _ => ⟨rfl, hall⟩, fun h => absurd h hstop⟩
  · rw [halone, hall, hall]
    exact ⟨fun _ _ h => absurd hstop h, fun _ h => (nomatch h), fun _ => rfl⟩
  · rw [hv, hgo _ (mt List.map_eq_nil_iff.mp hne)]
    refine ⟨fun _ _ _ => ?_, fun _ h => (nomatch h), fun h => absurd h hstop⟩
    refine Eval.program_relocated (evalNode_lineless _ _) ?_ t
    simp only [Node.children, List.map_map]
    exact List.map_congr_left fun n _ => Node.relocated_relocated _ _ n

/-- A program that binds `x` to a number in front of one that calls `x`, the two the other way
round, and a break in front of the call. -/
theorem two_lines_run_in_sequence : ∃ k l m, ∃ p q r : Node,
    parse 20 ("let x = 1".toList ++ '\n' :: "x()".toList) =
      .ok (.block (p.children ++ q.children.map (Node.relocated (.below k))) none) ∧
    parse 20 ("x()".toList ++ '\n' :: "let x = 1".toList) =
      .ok (.block (q.children ++ p.children.map (Node.relocated (.below l))) none) ∧
    parse 20 ("break".toList ++ '\n' :: "x()".toList) =
      .ok (.block (r.children ++ q.children.map (Node.relocated (.below m))) none) ∧
    Eval.stripped Value.lineless
      (runSource ⟨20, 12, 12, 5⟩ ("let x = 1".toList ++ '\n' :: "x()".toList) {}) =
        (.error (.runtime (.unknownFunction "x") none), ⟨⟨[("x", .int 1)], []⟩, "", 0⟩) ∧
    runSource ⟨20, 12, 12, 5⟩ ("x()".toList ++ '\n' :: "let x = 1".toList) {} =
      (.error (.runtime (.unknownFunction "x") (some 1)), {}) ∧
    runSource ⟨20, 12, 12, 5⟩ ("break".toList ++ '\n' :: "x()".toList) {} = (.ok .absent, {}) := by
  have hbinds : tokenize "let x = 1".toList = .ok [
      ⟨.letWord, .text "let", 1, 1, "let".toList⟩, ⟨.name, .text "x", 1, 5, ['x']⟩,
      ⟨.assign, .text "=", 1, 7, ['=']⟩, ⟨.number, .int 1, 1, 9, ['1']⟩,
      ⟨.endOfInput, .absent, 1, 10, []⟩] :=
    Fault.eq_ok_of_toOption (by decide +kernel)
  have hcalls : tokenize "x()".toList = .ok [⟨.name, .text "x", 1, 1, ['x']⟩,
      ⟨.openParen, .text "(", 1, 2, ['(']⟩, ⟨.closeParen, .text ")", 1, 3, [')']⟩,
      ⟨.endOfInput, .absent, 1, 4, []⟩] :=
    Fault.eq_ok_of_toOption (by decide +kernel)
  have hstops : tokenize "break".toList = .ok [
      ⟨.breakWord, .text "break", 1, 1, "break".toList⟩, ⟨.endOfInput, .absent, 1, 6, []⟩] :=
    Fault.eq_ok_of_toOption (by decide +kernel)
  have hp : parse 20 "let x = 1".toList = .ok (.block [.declaration
      (.leaf ⟨"IDENT", "x", some 1, some 5⟩) (.leaf ⟨"LET", "let", none, none⟩)
      (.literal (.int 1) none) (some 1)] none) := Fault.bind_eq_ok_iff.mpr ⟨_, hbinds, rfl⟩
  have hq : parse 20 "x()".toList = .ok (.block [.expression
      (.call (.leaf ⟨"IDENT", "x", some 1, some 1⟩) (.arguments [] none) (some 1))
      (some 1)] none) := Fault.bind_eq_ok_iff.mpr ⟨_, hcalls, rfl⟩
  have hr : parse 20 "break".toList = .ok (.block [.exit (some 1)] none) :=
    Fault.bind_eq_ok_iff.mpr ⟨_, hstops, rfl⟩
  have hbound : runSource ⟨20, 12, 12, 5⟩ "let x = 1".toList {} =
      (.ok .absent, ⟨⟨[("x", .int 1)], []⟩, "", 0⟩) :=
    (runSource_of_parse ⟨20, 12, 12, 5⟩ hp {}).trans rfl
  have hfault : runSource ⟨20, 12, 12, 5⟩ "x()".toList {} =
      (.error (.runtime (.unknownFunction "x") (some 1)), {}) :=
    (runSource_of_parse ⟨20, 12, 12, 5⟩ hq {}).trans rfl
  have hdropped : runSource ⟨20, 12, 12, 5⟩ "break".toList {} = (.ok .absent, {}) :=
    (runSource_of_parse ⟨20, 12, 12, 5⟩ hr {}).trans rfl
  obtain ⟨k, hboth, hrun⟩ := consecutive_lines_run_in_sequence ⟨20, 12, 12, 5⟩ hp hq
    (List.cons_ne_nil _ _)
  obtain ⟨l, hboth', hrun'⟩ := consecutive_lines_run_in_sequence ⟨20, 12, 12, 5⟩ hq hp
    (List.cons_ne_nil _ _)
  obtain ⟨m, hstopped, hrest⟩ := consecutive_lines_run_in_sequence ⟨20, 12, 12, 5⟩ hr hq
    (List.cons_ne_nil _ _)
  refine ⟨k, l, m, _, _, _, hboth, hboth', hstopped, ?_, ?_, ?_⟩
  · rw [(hrun {}).1 .absent (congrArg Prod.fst hbound) (fun h => nomatch h), hbound,
      runSource_of_parse ⟨20, 12, 12, 5⟩ hq]
    rfl
  · rw [((hrun' {}).2.1 _ (congrArg Prod.fst hfault)).1, hfault]
  · rw [(hrest {}).2.2 rfl, hdropped]

end ScopeScript
