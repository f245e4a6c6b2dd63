import ScopeScript.Proofs.Parser.Locality
import ScopeScript.Proofs.Parser.Lockstep

/-!
# Looking one token ahead

A parser that succeeds has looked at the tokens that it has read and at the kind
of the one behind them. So it does the same wherever these tokens stand, in front
of any other token of that kind. The end of a list counts as an end token.
-/

namespace ScopeScript

open Token (headKind)

namespace Parser

variable {α β : Type} {j k : Nat} {ctx ctx' : Context} {ts us : List Token} {t : Token}

/-- Where `p` succeeds on these tokens, it reads `k` of them or more, and in front of any other
tokens that begin with a token of the same kind `q` reads the same ones with the same result. -/
def Peeks (k : Nat) (p q : Parser α) (ts : List Token) : Prop :=
  ∀ a us, p ts = .ok (a, us) → ∃ ws, ts = ws ++ us ∧ k ≤ ws.length ∧
    ∀ us', headKind us' .endOfInput = headKind us .endOfInput → q (ws ++ us') = .ok (a, us')

namespace Peeks

theorem of_stuck {p q : Parser α} (h : ∀ r, p ts ≠ .ok r) : Peeks k p q ts :=
  fun a us hrun => absurd hrun (h (a, us))

theorem weaken {p q : Parser α} (h : Peeks k p q ts) (hjk : j ≤ k) : Peeks j p q ts := by
  intro a us hrun
  obtain ⟨ws, hts, hlength, hsame⟩ := h a us hrun
  exact ⟨ws, hts, Nat.le_trans hjk hlength, hsame⟩

theorem pure (a : α) (ts : List Token) : Peeks 0 (Pure.pure a) (Pure.pure a) ts := by
  intro b us hrun
  obtain ⟨rfl, rfl⟩ := pure_eq_ok.mp hrun
  exact ⟨[], rfl, Nat.le_refl 0, fun us' _ => rfl⟩

theorem bind {p p' : Parser α} {q q' : α → Parser β} (hp : Peeks j p p' ts)
    (hq : ∀ a us, Peeks (k - j) (q a) (q' a) us) : Peeks k (p >>= q) (p' >>= q') ts := by
  intro b vs hrun
  obtain ⟨a, us, ha, hb⟩ := bind_eq_ok.mp hrun
  obtain ⟨ws, rfl, hws, hsame⟩ := hp a us ha
  obtain ⟨xs, rfl, hxs, hsame'⟩ := hq a us b vs hb
  refine ⟨ws ++ xs, (List.append_assoc ..).symm, ?_, fun vs' hvs' => ?_⟩
  · rw [List.length_append]
    omega
  · -- What the first part sees behind it is what the second one reads, or what comes next.
    have hhead : headKind (xs ++ vs') .endOfInput = headKind (xs ++ vs) .endOfInput := by
      rw [Token.headKind_append, Token.headKind_append, hvs']
    rw [List.append_assoc, bind_of_ok (hsame _ hhead)]
    exact hsame' vs' hvs'

theorem seen {q q' : Token → Parser α} (hctx : Alike ctx ctx')
    (hq : ∀ t t' : Token, t.kind = headKind ts .endOfInput → t'.kind = t.kind →
      Peeks k (q t) (q' t') ts) : Peeks k (current ctx >>= q) (current ctx' >>= q') ts := by
  intro a us hrun
  rw [bind_of_ok current_run] at hrun
  obtain ⟨ws, rfl, hlength, -⟩ := hq _ _ (kind_headD hctx.first_end) rfl a us hrun
  refine ⟨ws, rfl, hlength, fun us' hus' => ?_⟩
  have hkind : ((ws ++ us').headD ctx'.endToken).kind = ((ws ++ us).headD ctx.endToken).kind := by
    rw [kind_headD hctx.first_end, kind_headD hctx.second_end, Token.headKind_append,
      Token.headKind_append, hus']
  obtain ⟨ws', heq, -, hsame⟩ := hq _ _ (kind_headD hctx.first_end) hkind a us hrun
  obtain rfl := List.append_cancel_right heq
  rw [bind_of_ok current_run]
  exact hsame us' hus'

theorem exists_cons {ws : List Token} (h : t :: us = ws ++ ts) (hws : k + 1 ≤ ws.length) :
    ∃ xs, ws = t :: xs ∧ us = xs ++ ts := by
  cases ws with
  | nil => exact absurd hws (Nat.not_succ_le_zero k)
  | cons w xs =>
    obtain ⟨rfl, rfl⟩ := List.cons.inj h
    exact ⟨xs, rfl, rfl⟩

theorem taken {q q' : Token → Parser α} (hq : Peeks (k + 1) (q t) (q' t) (t :: us)) :
    Peeks (k + 1) (current ctx >>= q) (current ctx' >>= q') (t :: us) := by
  intro a vs hrun
  obtain ⟨ws, hts, hlength, hsame⟩ := hq a vs hrun
  obtain ⟨xs, rfl, rfl⟩ := exists_cons hts hlength
  exact ⟨t :: xs, rfl, hlength, hsame⟩

theorem behind {q q' : Token → Parser α} (hctx : Alike ctx ctx')
    (hq : ∀ u u' : Token, u.kind = headKind us .endOfInput → u'.kind = u.kind →
      Peeks (k + 1) (q u) (q' u') (t :: us)) :
    Peeks (k + 1) (second ctx >>= q) (second ctx' >>= q') (t :: us) := by
  intro a vs hrun
  rw [bind_of_ok second_run, List.tail_cons] at hrun
  obtain ⟨ws, hts, hlength, -⟩ := hq _ _ (kind_headD hctx.first_end) rfl a vs hrun
  obtain ⟨xs, rfl, rfl⟩ := exists_cons hts hlength
  refine ⟨t :: xs, rfl, hlength, fun vs' hvs' => ?_⟩
  have hkind : ((xs ++ vs').headD ctx'.endToken).kind = ((xs ++ vs).headD ctx.endToken).kind := by
    rw [kind_headD hctx.first_end, kind_headD hctx.second_end, Token.headKind_append,
      Token.headKind_append, hvs']
  obtain ⟨ws', heq, -, hsame⟩ := hq _ _ (kind_headD hctx.first_end) hkind a vs hrun
  obtain rfl := List.append_cancel_right (hts.symm.trans heq)
  exact hsame vs' hvs'

theorem advance {q q' : Unit → Parser α} (t : Token) (hq : Peeks (k - 1) (q ()) (q' ()) us) :
    Peeks k (advance >>= q) (advance >>= q') (t :: us) := by
  intro a vs hrun
  obtain ⟨ws, rfl, hlength, hsame⟩ := hq a vs hrun
  refine ⟨t :: ws, rfl, ?_, hsame⟩
  rw [List.length_cons]
  omega

theorem skip (kinds : List Kind) (ts : List Token) (hkinds : Kind.endOfInput ∉ kinds) :
    Peeks 0 (skip kinds) (skip kinds) ts := by
  intro _ us hrun
  obtain ⟨es, hes, rfl, hus⟩ := skip_ok hrun
  have hstop : headKind us .endOfInput ∉ kinds := by
    cases us with
    | nil => exact hkinds
    | cons u us => exact hus u us rfl
  refine ⟨es, rfl, Nat.zero_le _, fun us' hus' => skip_append hes ?_⟩
  rintro u vs rfl hu
  rw [Token.headKind_cons] at hus'
  exact hstop (hus' ▸ hu)

theorem rounds {loop loop' : Nat → Parser α} (hsettles : Settles loop')
    (hloop : ∀ n n', n ≤ n' → Peeks k (loop n) (loop' n') ts) :
    Peeks k (get >>= fun us => loop (us.length + 1)) (get >>= fun us => loop' (us.length + 1))
      ts := by
  intro a us hrun
  rw [bind_of_ok get_run] at hrun
  obtain ⟨ws, rfl, hlength, -⟩ := hloop _ _ (Nat.le_refl _) a us hrun
  refine ⟨ws, rfl, hlength, fun us' hus' => ?_⟩
  -- The second run may have fewer tokens, and so fewer rounds, than the first one.
  have hle : (ws ++ us).length + 1 ≤ (ws ++ us).length + (ws ++ us').length + 1 := by omega
  obtain ⟨ws', heq, -, hsame⟩ := hloop _ _ hle a us hrun
  obtain rfl := List.append_cancel_right heq
  rw [bind_of_ok get_run,
    ← hsettles _ ((ws ++ us).length + (ws ++ us').length + 1) (by omega)]
  exact hsame us' hus'

end Peeks

/-- One run and another one on tokens that agree as far as the first one looks. -/
def lookahead : Lockstep where
  Runs := Peeks
  Contexts := Alike
  Seen t t' := t'.kind = t.kind
  second_end h := h.second_end
  inHeader h := h.inHeader
  header h := ⟨h.first_end, h.second_end, rfl⟩
  seen_refl _ := rfl
  kind_eq h := h
  weaken := Peeks.weaken
  pure := Peeks.pure
  fail _ _ _ := .of_stuck fun _ => failAt_ne_ok
  tooDeep _ := .of_stuck fun _ => throw_ne_ok
  exhausted _ _ := .of_stuck fun _ => throw_ne_ok
  bind := Peeks.bind
  seen := Peeks.seen
  taken _ := Peeks.taken
  behind := Peeks.behind
  advance := Peeks.advance
  skip := Peeks.skip
  rounds := Peeks.rounds

/-- Two lists have the same `k` tokens in front and then a token of the same kind, where the end
of a list counts as an end token. -/
def SameAhead (k : Nat) (ts ts' : List Token) : Prop :=
  ts'.take k = ts.take k ∧
    headKind (ts'.drop k) .endOfInput = headKind (ts.drop k) .endOfInput

theorem Peeks.sameAhead {p q : Parser α} {a : α} (h : Peeks k p q ts)
    (hrun : p ts = .ok (a, us)) : us = ts.drop (ts.length - us.length) ∧
      ∀ ts', SameAhead (ts.length - us.length) ts ts' →
        q ts' = .ok (a, ts'.drop (ts.length - us.length)) := by
  obtain ⟨ws, rfl, -, hsame⟩ := h a us hrun
  have hlength : (ws ++ us).length - us.length = ws.length := by
    rw [List.length_append, Nat.add_sub_cancel]
  rw [hlength, List.drop_left]
  refine ⟨rfl, fun ts' ⟨hfront, hnext⟩ => ?_⟩
  rw [List.take_left] at hfront
  rw [List.drop_left] at hnext
  have hts' := List.take_append_drop ws.length ts'
  rw [hfront] at hts'
  have hrun' := hsame _ hnext
  rwa [hts'] at hrun'

/-- Where the parser succeeds from some offset of a list on, it reads a number of tokens, and it
reads them with the same result from any offset of any list on at which they stand with a token
of the same kind behind them. -/
def LooksOneAhead (p : Context → Parser α) : Prop :=
  ∀ inHeader ts i a us, p ⟨impliedEnd ts, inHeader⟩ (ts.drop i) = .ok (a, us) →
    ∃ k ≤ (ts.drop i).length, us = ts.drop (i + k) ∧
      ∀ ts' i', SameAhead k (ts.drop i) (ts'.drop i') →
        p ⟨impliedEnd ts', inHeader⟩ (ts'.drop i') = .ok (a, ts'.drop (i' + k))

theorem looksOneAhead_of_peeks {p : Context → Parser α}
    (h : ∀ ctx ctx' ts, Alike ctx ctx' → Peeks k (p ctx) (p ctx') ts) : LooksOneAhead p := by
  intro inHeader ts i a us hrun
  have hcontexts (ts' : List Token) :
      Alike ⟨impliedEnd ts, inHeader⟩ ⟨impliedEnd ts', inHeader⟩ :=
    ⟨kind_topContext, kind_topContext, rfl⟩
  obtain ⟨hus, -⟩ := (h _ _ (ts.drop i) (hcontexts ts)).sameAhead hrun
  refine ⟨_, Nat.sub_le _ _, hus.trans List.drop_drop, fun ts' i' hsame => ?_⟩
  rw [← List.drop_drop]
  exact ((h _ _ (ts.drop i) (hcontexts ts')).sameAhead hrun).2 _ hsame

/-- A statement and an expression of any least power that are read look at no more than the token
behind them, and of that token only at its kind. -/
theorem one_token_ahead_decides (nesting : Nat) :
    LooksOneAhead (fun ctx => statement ctx (descent nesting)) ∧
      ∀ power, LooksOneAhead fun ctx => expression ctx (descent nesting) power := by
  have hkeeps := lookahead.descent_keeps nesting
  have hprogress : (descent nesting).Progresses (fun _ => True) nesting :=
    descent_progresses (fun _ _ _ => trivial) nesting
  constructor
  · refine looksOneAhead_of_peeks (k := 0) fun ctx ctx' ts hctx => ?_
    exact Lockstep.statement (s := lookahead) hctx hkeeps hprogress
  · intro power
    refine looksOneAhead_of_peeks (k := 1) fun ctx ctx' ts hctx => ?_
    exact Lockstep.expression (s := lookahead) hctx hkeeps hprogress power

/-- A branch with a line end behind it in front of an assignment, and a difference in front of a
remainder: both are read in front of something else that begins alike. -/
theorem branch_and_difference_read_in_other_lists :
    let a : Token := ⟨.name, .text "a", 1, 1, ['a']⟩
    let b : Token := ⟨.name, .text "b", 4, 2, ['b']⟩
    let minus : Token := ⟨.minus, .text "-", 1, 3, ['-']⟩
    let percent : Token := ⟨.percent, .text "%", 1, 7, ['%']⟩
    let semicolon : Token := ⟨.semicolon, .text ";", 1, 2, [';']⟩
    let assign : Token := ⟨.assign, .text "=", 3, 3, ['=']⟩
    let branch : List Token := [⟨.ifWord, .text "if", 1, 4, ['i', 'f']⟩,
      ⟨.openParen, .text "(", 1, 6, ['(']⟩, a, ⟨.closeParen, .text ")", 1, 8, [')']⟩,
      ⟨.openBrace, .text "\x7b", 1, 10, ['\x7b']⟩, ⟨.closeBrace, .text "\x7d", 1, 11, ['\x7d']⟩,
      ⟨.newline, .text "\n", 1, 12, ['\n']⟩]
    (∃ n, statement ⟨impliedEnd (a :: semicolon :: (branch ++ [a, assign])), false⟩ (descent 3)
        ((a :: semicolon :: (branch ++ [a, assign])).drop 1) = .ok (some n, [a, assign]) ∧
      SameAhead 8 ((a :: semicolon :: (branch ++ [a, assign])).drop 1)
        ((semicolon :: (branch ++ [b, percent])).drop 0) ∧
      statement ⟨impliedEnd (semicolon :: (branch ++ [b, percent])), false⟩ (descent 3)
        ((semicolon :: (branch ++ [b, percent])).drop 0) = .ok (some n, [b, percent])) ∧
    ∃ n, expression ⟨impliedEnd [a, minus, b, percent], true⟩ (descent 3) 7
        ([a, minus, b, percent].drop 0) = .ok (n, [percent]) ∧
      SameAhead 3 ([a, minus, b, percent].drop 0) ([assign, a, minus, b, percent, assign].drop 1) ∧
      expression ⟨impliedEnd [assign, a, minus, b, percent, assign], true⟩ (descent 3) 7
        ([assign, a, minus, b, percent, assign].drop 1) = .ok (n, [percent, assign]) := by
  intro a b minus percent semicolon assign branch
  obtain ⟨hstatement, hexpression⟩ := one_token_ahead_decides 3
  constructor
  · have hrun :
        statement ⟨impliedEnd (a :: semicolon :: (branch ++ [a, assign])), false⟩ (descent 3)
        ((a :: semicolon :: (branch ++ [a, assign])).drop 1) = .ok
          (some (.branch (.leaf (.ofName a)) (.block [] none) (.block [] none) (some 1)),
            [a, assign]) := rfl
    have hsame : SameAhead 8 ((a :: semicolon :: (branch ++ [a, assign])).drop 1)
        ((semicolon :: (branch ++ [b, percent])).drop 0) := ⟨rfl, rfl⟩
    obtain ⟨k, hk, hrest, hother⟩ := hstatement _ _ _ _ _ hrun
    obtain rfl : k = 8 := by
      have hlength := congrArg List.length hrest
      simp [branch] at hk hlength
      omega
    exact ⟨_, hrun, hsame, hother _ 0 hsame⟩
  · have hrun : expression ⟨impliedEnd [a, minus, b, percent], true⟩ (descent 3) 7
        ([a, minus, b, percent].drop 0) = .ok (.binary (.ofOperator minus) (.leaf (.ofName a))
          (.leaf (.ofName b)) (some 1), [percent]) := rfl
    have hsame : SameAhead 3 ([a, minus, b, percent].drop 0)
        ([assign, a, minus, b, percent, assign].drop 1) := ⟨rfl, rfl⟩
    obtain ⟨k, hk, hrest, hother⟩ := hexpression 7 _ _ _ _ _ hrun
    obtain rfl : k = 3 := by
      have hlength := congrArg List.length hrest
      simp at hk hlength
      omega
    exact ⟨_, hrun, hsame, hother _ 1 hsame⟩

end Parser

end ScopeScript
