import ScopeScript.Proofs.Eval.Reached

/-!
# How far a break signal reaches

A break signal ends the statements of its block, and those of the blocks around
it, up to the loop, the call or the program that drops it. Nothing else is
evaluated on the way: what is left of the state is that of the break, without
the scopes of the blocks that were ended.
-/

namespace ScopeScript

namespace State

def push (s : State) : State := { s with environment := s.environment.push }

/-- The state without its `k` innermost scopes. -/
def dropped : Nat → State → State
  | 0, s => s
  | k + 1, s => { dropped k s with environment := (dropped k s).environment.dropInnermost }

end State

namespace Eval

variable {ev : Node → Eval Value} {n m : Node} {ns : List Node} {s t u : State} {v : Value}

theorem inScope_apply {α : Type} (x : Eval α) (s : State) :
    inScope x s = ((x s.push).1, (x s.push).2.dropped 1) := rfl

/-! ## One list of statements -/

/-- The statements in front of `m` end without a break, and `m` is next in the state `t`. -/
def Enters (ev : Node → Eval Value) (ns : List Node) (s : State) (m : Node) (t : State) : Prop :=
  ∃ before after last, ns = before ++ m :: after ∧
    statements ev before .absent s = (.ok last, t) ∧ ¬last.isBreak = true

theorem statements_append (before after : List Node) {last : Value} (hlast : ¬last.isBreak = true) :
    statements ev (before ++ after) last = statements ev before last >>= fun v =>
      if v.isBreak then pure v else statements ev after v := by
  induction before generalizing last with
  | nil => exact (if_neg hlast).symm
  | cons n before ih =>
    rw [List.cons_append, statements, statements, bind_assoc]
    congr 1
    funext v
    split
    next hv => exact (if_pos hv).symm
    next hv => exact ih hv

theorem Enters.breaks (h : Enters ev ns s m t) (hm : ev m t = (.ok .breakSignal, u)) :
    statements ev ns .absent s = (.ok .breakSignal, u) := by
  obtain ⟨before, after, last, rfl, hbefore, hlast⟩ := h
  rw [statements_append _ _ (by decide), bind_apply, hbefore]
  dsimp only
  rw [if_neg hlast, statements, bind_apply, hm]
  rfl

theorem Enters.block_breaks (h : Enters ev ns s.push m t) (hm : ev m t = (.ok .breakSignal, u)) :
    block ev ns s = (.ok .breakSignal, u.dropped 1) := by
  rw [block, inScope_apply, h.breaks hm]

/-! ## Blocks inside of blocks -/

theorem located_of_ok {α : Type} {x : Eval α} {a : α} (line : Option Nat) (h : x s = (.ok a, t)) :
    located line x s = (.ok a, t) := by
  rw [located, h]

/-- Evaluating `n` in the state `s` comes to a statement `m` inside of it in the state `t`,
through `k` blocks, plain ones or those of branches; the depths are those left for both. -/
inductive Arrives (rounds : Nat) : Nat → Node → State → Nat → Node → State → Nat → Prop where
  | here {d : Nat} {n : Node} {s : State} : Arrives rounds d n s d n s 0
  | block {d e k : Nat} {ns : List Node} {line : Option Nat} {n m : Node} {s t u : State} :
    Enters (evalNode rounds d) ns s.push n t → Arrives rounds d n t e m u k →
    Arrives rounds (d + 1) (.block ns line) s e m u (k + 1)
  | consequence {d e k : Nat} {a b c n m : Node} {line : Option Nat} {s r t u : State} :
    test (evalNode rounds d) "if" a s = (.ok true, r) →
    Enters (evalNode rounds d) b.children r.push n t → Arrives rounds d n t e m u k →
    Arrives rounds (d + 1) (.branch a b c line) s e m u (k + 1)
  | alternative {d e k : Nat} {a b c n m : Node} {line : Option Nat} {s r t u : State} :
    test (evalNode rounds d) "if" a s = (.ok false, r) →
    Enters (evalNode rounds d) c.children r.push n t → Arrives rounds d n t e m u k →
    Arrives rounds (d + 1) (.branch a b c line) s e m u (k + 1)

/-- A break of the inner statement is one of the outer statement. -/
theorem Arrives.breaks {rounds d e k : Nat} (h : Arrives rounds d n s e m t k)
    (hm : evalNode rounds e m t = (.ok .breakSignal, u)) :
    evalNode rounds d n s = (.ok .breakSignal, u.dropped k) := by
  induction h with
  | here => exact hm
  | block henters _ ih => exact located_of_ok _ (henters.block_breaks (ih hm))
  | consequence htest henters _ ih =>
    refine located_of_ok _ ?_
    rw [node, bind_apply, htest]
    exact henters.block_breaks (ih hm)
  | alternative htest henters _ ih =>
    refine located_of_ok _ ?_
    rw [node, bind_apply, htest]
    exact henters.block_breaks (ih hm)

/-- In a list of statements, evaluated from the state `s`, one breaks within `k` blocks and
leaves the state `w`. -/
def BreaksIn (rounds d : Nat) (ns : List Node) (s : State) (k : Nat) (w : State) : Prop :=
  ∃ n t e m u, Enters (evalNode rounds d) ns s n t ∧ Arrives rounds d n t e m u k ∧
    evalNode rounds e m u = (.ok .breakSignal, w)

/-- Later statements are not evaluated, neither in the list nor in the blocks inside. -/
theorem BreaksIn.statements_break {rounds d k : Nat} {w : State} (h : BreaksIn rounds d ns s k w) :
    statements (evalNode rounds d) ns .absent s = (.ok .breakSignal, w.dropped k) := by
  obtain ⟨n, t, e, m, u, henters, harrives, hm⟩ := h
  exact henters.breaks (harrives.breaks hm)

/-! ## Loops, calls and programs -/

/-- The number of rounds that a loop has ended without a break, from one state to another. -/
inductive Rounds (ev : Node → Eval Value) (condition : Node) (body : List Node) :
    Nat → State → State → Prop where
  | none {s : State} : Rounds ev condition body 0 s s
  | more {s t u w : State} {v : Value} {done : Nat} : test ev "while" condition s = (.ok true, t) →
    block ev body t = (.ok v, u) → ¬v.isBreak = true → Rounds ev condition body done u w →
    Rounds ev condition body (done + 1) s w

theorem Rounds.breaks {condition : Node} {body : List Node} {done count : Nat} {r w : State}
    (h : Rounds ev condition body done s t) (hcount : done < count)
    (htest : test ev "while" condition t = (.ok true, r))
    (hbody : block ev body r = (.ok .breakSignal, w)) :
    rounds ev condition body count s = (.ok .absent, w) := by
  induction h generalizing count with
  | none =>
    obtain ⟨count, rfl⟩ := Nat.exists_eq_add_of_lt hcount
    rw [Nat.zero_add, rounds, bind_apply, htest]
    dsimp only
    rw [if_pos rfl, bind_apply, hbody]
    rfl
  | more hfirst hblock hv _ ih =>
    cases count with
    | zero => exact absurd hcount (Nat.not_lt_zero _)
    | succ count =>
      rw [rounds, bind_apply, hfirst]
      dsimp only
      rw [if_pos rfl, bind_apply, hblock]
      dsimp only
      rw [if_neg hv]
      exact ih (Nat.lt_of_succ_lt_succ hcount) htest

theorem BreaksIn.loop_ends {rounds d done k : Nat} {a b : Node} {r w : State} (line : Option Nat)
    (hrounds : Rounds (evalNode rounds d) a b.children done s t) (hdone : done < rounds)
    (htest : test (evalNode rounds d) "while" a t = (.ok true, r))
    (h : BreaksIn rounds d b.children r.push k w) :
    evalNode rounds (d + 1) (.loop a b line) s = (.ok .absent, w.dropped (k + 1)) := by
  refine located_of_ok _ (hrounds.breaks hdone htest ?_)
  rw [block, inScope_apply, h.statements_break]
  rfl

theorem BreaksIn.call_ends {rounds d k : Nat} {xs : List String} {arguments body : List Node}
    {w : State} (hbind : bindArguments (evalNode rounds d) xs arguments s.push = (.ok (), t))
    (h : BreaksIn rounds d body t k w) :
    callFunction (evalNode rounds d) xs body arguments s = (.ok .absent, w.dropped (k + 1)) := by
  have hinside : inScope (do
      bindArguments (evalNode rounds d) xs arguments
      statements (evalNode rounds d) body .absent) s = (.ok .breakSignal, w.dropped (k + 1)) := by
    rw [inScope_apply, bind_apply, hbind]
    dsimp only
    rw [h.statements_break]
    rfl
  rw [callFunction, bind_apply, hinside]
  rfl

theorem BreaksIn.program_ends {rounds d k : Nat} {w : State} (h : BreaksIn rounds d ns s k w) :
    program (evalNode rounds d) ns s = (.ok .absent, w.dropped k) := by
  rw [program, bind_apply, h.statements_break]
  rfl

/-! ## Where no break signal comes out -/

theorem expression_not_breakOpen {F : Binary64 → Prop} (hn : n.WellFormed F .expression) :
    n.breakOpen = false := by
  cases hn <;> rfl

theorem dropped_ne_break (x : Eval Value) (s : State) :
    ((x >>= fun v => pure (if v.isBreak then .absent else v)) s).1 ≠ .ok .breakSignal := by
  rw [bind_apply]
  rcases x s with ⟨_ | v, t⟩
  · exact nofun
  · cases v <;> exact nofun

theorem located_ne_break {x : Eval Value} (line : Option Nat) (h : (x s).1 ≠ .ok .breakSignal) :
    (located line x s).1 ≠ .ok .breakSignal := by
  unfold located
  rcases hx : x s with ⟨_ | v, t⟩
  · exact nofun
  · rwa [hx] at h

theorem rounds_ne_break (condition : Node) (body : List Node) (count : Nat) (s : State) :
    (rounds ev condition body count s).1 ≠ .ok .breakSignal := by
  induction count generalizing s with
  | zero => exact nofun
  | succ count ih =>
    rw [rounds, bind_apply]
    rcases test ev "while" condition s with ⟨_ | b, t⟩
    · exact nofun
    cases b with
    | false => exact nofun
    | true =>
      dsimp only
      rw [if_pos rfl, bind_apply]
      rcases block ev body t with ⟨_ | v, u⟩
      · exact nofun
      dsimp only
      split
      · exact nofun
      · exact ih u

end Eval

open Eval (BreaksIn Rounds)

/-- Only statements that can leave a loop around them end with the break signal; expressions,
calls, loops and programs never do. When a statement inside of a list of statements breaks, the
rest of the list and of the blocks in between is left out, and the loop, the call or the program
ends in the state of the break without the scopes of its blocks. -/
theorem break_confined_to_loop_call_program :
    (∀ (s : State) rounds depth (n : Node) category, s.Reached → n.IsRead →
      n.WellFormed Binary64.IsLiteral category →
      (evalNode rounds depth n s).1 = .ok .breakSignal →
      category ≠ .expression ∧ n.breakOpen = true) ∧
    (∀ ev xs body arguments (s : State),
      (Eval.callFunction ev xs body arguments s).1 ≠ .ok .breakSignal) ∧
    (∀ rounds depth condition body line (s : State),
      (evalNode rounds depth (.loop condition body line) s).1 ≠ .ok .breakSignal) ∧
    (∀ limits program (s : State), (execute limits program s).1 ≠ .ok .breakSignal) ∧
    (∀ rounds d ns (s : State) k w, BreaksIn rounds d ns s k w →
      Eval.statements (evalNode rounds d) ns .absent s = (.ok .breakSignal, w.dropped k)) ∧
    (∀ rounds d condition body line done (s t r : State) k w,
      Rounds (evalNode rounds d) condition body.children done s t → done < rounds →
      Eval.test (evalNode rounds d) "while" condition t = (.ok true, r) →
      BreaksIn rounds d body.children r.push k w →
      evalNode rounds (d + 1) (.loop condition body line) s = (.ok .absent, w.dropped (k + 1))) ∧
    (∀ rounds d xs arguments body (s t : State) k w,
      Eval.bindArguments (evalNode rounds d) xs arguments s.push = (.ok (), t) →
      BreaksIn rounds d body t k w →
      Eval.callFunction (evalNode rounds d) xs body arguments s =
        (.ok .absent, w.dropped (k + 1))) ∧
    ∀ limits program (s : State) k w,
      BreaksIn limits.rounds limits.depth program.children s k w →
      execute limits program s = (.ok .absent, w.dropped k) := by
  refine ⟨fun s rounds depth n category hs hread hn hbreak => ?_,
    fun ev xs body arguments s => Eval.dropped_ne_break _ s,
    fun rounds depth condition body line s => ?_, fun limits program s => Eval.dropped_ne_break _ s,
    fun rounds d ns s k w h => h.statements_break,
    fun rounds d condition body line done s t r k w hrounds hdone htest h =>
      h.loop_ends line hrounds hdone htest,
    fun rounds d xs arguments body s t k w hbind h => h.call_ends hbind,
    fun limits program s k w h => h.program_ends⟩
  · have hpart := (Eval.ensures_part rounds depth hread hn s hs.sound).2
    rw [hbreak] at hpart
    cases hpart with
    | ok houtcome =>
      cases houtcome with
      | genuine h => cases h
      | breakSignal hopen =>
        refine ⟨?_, hopen⟩
        rintro rfl
        rw [Eval.expression_not_breakOpen hn] at hopen
        cases hopen
  · cases depth with
    | zero => exact nofun
    | succ depth =>
      exact Eval.located_ne_break _ (Eval.rounds_ne_break condition body.children rounds s)

/-- A loop with a break inside of a block, in front of a statement that would print. -/
theorem break_confined_in_loop : ∃ (a inner exit : Node) (line : Option Nat) (rest : List Node),
    parse 30 "while (true) \x7b \x7bbreak\x7d print(1) \x7d".toList =
      .ok (.block [.loop a (.block (inner :: rest) none) line] none) ∧
    State.Reached {} ∧ exit.IsRead ∧ exit.WellFormed Binary64.IsLiteral .statement ∧
    (evalNode 5 1 exit {}).1 = .ok .breakSignal ∧ exit.breakOpen = true ∧
    BreaksIn 5 2 (inner :: rest) (State.push {}) 1 (State.push (State.push {})) ∧
    Eval.statements (evalNode 5 2) (inner :: rest) .absent (State.push {}) =
      (.ok .breakSignal, State.push {}) ∧
    evalNode 5 3 (.loop a (.block (inner :: rest) none) line) {} = (.ok .absent, {}) ∧
    Eval.callFunction (evalNode 5 2) [] (inner :: rest) [] {} = (.ok .absent, {}) ∧
    execute ⟨30, 2, 10, 5⟩ (.block (inner :: rest) none) (State.push {}) =
      (.ok .absent, State.push {}) := by
  have htokens : tokenize "while (true) \x7b \x7bbreak\x7d print(1) \x7d".toList = .ok [
      ⟨.whileWord, .text "while", 1, 1, "while".toList⟩, ⟨.openParen, .text "(", 1, 7, ['(']⟩,
      ⟨.trueWord, .text "true", 1, 8, "true".toList⟩, ⟨.closeParen, .text ")", 1, 12, [')']⟩,
      ⟨.openBrace, .text "\x7b", 1, 14, ['\x7b']⟩, ⟨.openBrace, .text "\x7b", 1, 16, ['\x7b']⟩,
      ⟨.breakWord, .text "break", 1, 17, "break".toList⟩,
      ⟨.closeBrace, .text "\x7d", 1, 22, ['\x7d']⟩,
      ⟨.printWord, .text "print", 1, 24, "print".toList⟩, ⟨.openParen, .text "(", 1, 29, ['(']⟩,
      ⟨.number, .int 1, 1, 30, ['1']⟩, ⟨.closeParen, .text ")", 1, 31, [')']⟩,
      ⟨.closeBrace, .text "\x7d", 1, 33, ['\x7d']⟩, ⟨.endOfInput, .absent, 1, 34, []⟩] :=
    Fault.eq_ok_of_toOption (by decide +kernel)
  have hp : parse 30 "while (true) \x7b \x7bbreak\x7d print(1) \x7d".toList = .ok (.block
      [.loop (.literal (.bool true) none) (.block [.block [.exit (some 1)] (some 1),
        .print (.literal (.int 1) none) (some 1)] none) (some 1)] none) :=
    Fault.bind_eq_ok_iff.mpr ⟨_, htokens, rfl⟩
  have hread : Node.IsRead (.exit (some 1)) :=
    ⟨_, _, _, hp, .child (List.mem_cons_self ..) (.child (List.mem_cons_self ..)
      (.child (List.mem_cons_of_mem _ (List.mem_cons_self ..))
        (.child (List.mem_cons_self ..) .self)))⟩
  have hbreaks : BreaksIn 5 2 [.block [.exit (some 1)] (some 1),
      .print (.literal (.int 1) none) (some 1)] (State.push {}) 1 (State.push (State.push {})) :=
    ⟨_, _, 1, .exit (some 1), _, ⟨[], _, .absent, rfl, rfl, nofun⟩,
      .block ⟨[], _, .absent, rfl, rfl, nofun⟩ .here, rfl⟩
  obtain ⟨hopen, -, -, -, hstatements, hloop, hcall, hprogram⟩ :=
    break_confined_to_loop_call_program
  exact ⟨.literal (.bool true) none, .block [.exit (some 1)] (some 1), .exit (some 1), some 1, _,
    hp, .start, hread, .exit, rfl, (hopen {} 5 1 _ _ .start hread .exit rfl).2, hbreaks,
    hstatements _ _ _ _ _ _ hbreaks,
    hloop 5 2 _ (.block _ none) _ 0 _ _ _ _ _ .none (by decide) rfl hbreaks,
    hcall _ _ _ _ _ _ _ _ _ rfl hbreaks, hprogram ⟨30, 2, 10, 5⟩ (.block _ none) _ _ _ hbreaks⟩

end ScopeScript
