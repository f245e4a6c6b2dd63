import ScopeScript.Proofs.Parser.Completeness

/-!
# The parser and the grammar agree

Soundness and completeness together: an expression parser consumes a list of
tokens exactly if the grammar derives it at the stratum of the least power, and
a program is read exactly if its tokens are a list of statements.
-/

namespace ScopeScript

open Token (headKind AllNewlines)

/-- The expression of least power `m` for the node `n` is the whole of `e`, if a token of
kind `k` comes next. Above the power of an index only operands are left; a prefix operator
binds as far as ever. -/
def IsWhole (m : Nat) (e : List Token) (n : Node) (k : Kind) : Prop :=
  if m ≤ Kind.indexPower then Derives (.level (.ofPower m)) e [n] ∧ k.Stops m
  else (Derives .primary e [n] ∧ k.Stops m) ∨ (IsPrefixed e n ∧ k.Stops Kind.minusPower)

theorem isWhole_zero {e : List Token} {n : Node} {k : Kind} :
    IsWhole 0 e n k ↔ Derives .expression e [n] ∧ k.endsExpression = true := by
  rw [IsWhole, if_pos (Nat.zero_le _), Kind.stops_zero]
  rfl

namespace Parser

variable {ctx : Context} {ts us : List Token} {n : Node}

theorem operators_above {d : Descent} {m fuel : Nat} {left : Node} (hm : Kind.indexPower < m)
    (h : operators ctx d m fuel left ts = .ok (n, us)) : n = left ∧ us = ts := by
  cases fuel with
  | zero => exact absurd h throw_ne_ok
  | succ fuel =>
    rw [operators, bind_of_ok current_run, ite_eq_ok] at h
    rcases h with ⟨-, h⟩ | ⟨-, h⟩
    · exact pure_eq_ok.mp h
    rw [if_pos hm, ite_eq_ok] at h
    rcases h with ⟨-, h⟩ | ⟨-, h⟩
    · exact pure_eq_ok.mp h
    cases hp : (ts.headD ctx.endToken).kind.infixPower? with
    | none =>
      simp only [hp] at h
      exact absurd h failAt_ne_ok
    | some p =>
      obtain ⟨s, -, rfl⟩ := Kind.infixPower?_eq_some_iff.mp hp
      simp only [hp] at h
      rw [if_pos (Nat.lt_of_le_of_lt s.power_le_indexPower hm)] at h
      exact pure_eq_ok.mp h

variable (hEnd : ctx.endToken.kind = .endOfInput)
include hEnd

theorem isWhole_of_run {nesting m : Nat}
    (h : (descent nesting).expression ctx m ts = .ok (n, us)) :
    ∃ e, ts = e ++ us ∧ IsWhole m e n (headKind us .endOfInput) := by
  obtain ⟨e, rfl, he, hstop⟩ := (descent_sound nesting).expression hEnd h
  by_cases hm : m ≤ Kind.indexPower
  · rw [DerivesAbove, if_pos hm] at he
    exact ⟨e, rfl, by rw [IsWhole, if_pos hm]; exact ⟨he, hstop⟩⟩
  cases nesting with
  | zero => exact absurd h throw_ne_ok
  | succ nesting =>
    change expression ctx (descent nesting) m _ = _ at h
    rw [expression, bind_eq_ok] at h
    obtain ⟨left, xs, hleft, h⟩ := h
    rw [bind_of_ok get_run] at h
    obtain ⟨rfl, rfl⟩ := operators_above (Nat.lt_of_not_le hm) h
    obtain ⟨vs, hvs, hread⟩ := operand_sound hEnd (descent_sound nesting) hleft
    obtain rfl := List.append_cancel_right hvs
    refine ⟨e, rfl, ?_⟩
    rw [IsWhole, if_neg hm]
    rcases hread with h | ⟨h, hbang⟩
    · exact .inl ⟨h, hstop⟩
    · exact .inr ⟨h, (hbang.mono (by decide)).below_prefixed (Nat.le_refl _)⟩

theorem run_of_isWhole {nesting m : Nat} {e : List Token} (hk : 2 * e.length + 1 ≤ nesting)
    (h : IsWhole m e n (headKind us .endOfInput)) :
    (descent nesting).expression ctx m (e ++ us) = .ok (n, us) := by
  by_cases hm : m ≤ Kind.indexPower
  · rw [IsWhole, if_pos hm] at h
    exact Completes.run hEnd (completes h.1 ctx hEnd) hk (Stratum.le_power_ofPower hm) h.2
  obtain ⟨k, rfl⟩ := Nat.exists_eq_add_of_le' (show 1 ≤ nesting by omega)
  change expression ctx (descent k) m (e ++ us) = _
  rw [IsWhole, if_neg hm] at h
  rcases h with ⟨h, hstop⟩ | ⟨⟨op, vs, a, rfl, hop, h, rfl⟩, hstop⟩
  · obtain ⟨n', hn, hrun⟩ := completes h ctx hEnd (k := k) (r := us) (by omega) hstop.not_openParen
    cases hn
    rw [expression_of_operand hrun, operators_stop hEnd (Nat.succ_pos _) hstop]
  · rw [List.length_cons] at hk
    have hrun := unary_run hEnd (k := k) hop (completes h ctx hEnd) (by omega)
      (hstop.mono (by decide))
    have hle : Kind.minusPower ≤ m := Nat.le_trans (by decide) (Nat.le_of_not_le hm)
    have hstop := hstop.mono hle
    rw [List.cons_append, expression_of_operand hrun,
      operators_stop hEnd (Nat.succ_pos _) hstop]

/-- The expression parser of least power `m` consumes exactly the tokens `e` if and only if
they are a whole expression of that power; in front of a token that ends every expression,
the one of least power zero does if and only if `e` is an expression. -/
theorem expression_consumes_iff {nesting m : Nat} {e : List Token}
    (hnesting : 2 * e.length + 1 ≤ nesting) :
    ((descent nesting).expression ctx m (e ++ us) = .ok (n, us) ↔
      IsWhole m e n (headKind us .endOfInput)) ∧
    ((headKind us .endOfInput).endsExpression = true →
      ((descent nesting).expression ctx 0 (e ++ us) = .ok (n, us) ↔
        Derives .expression e [n])) := by
  have hiff {p : Nat} : (descent nesting).expression ctx p (e ++ us) = .ok (n, us) ↔
      IsWhole p e n (headKind us .endOfInput) := by
    constructor
    · intro h
      obtain ⟨vs, hvs, hwhole⟩ := isWhole_of_run hEnd h
      rw [List.append_cancel_right hvs]
      exact hwhole
    · exact run_of_isWhole hEnd hnesting
  refine ⟨hiff, fun hends => ?_⟩
  rw [hiff, isWhole_zero, and_iff_left hends]

omit hEnd in
/-- A difference of least power 2 ends in front of a comparison. -/
theorem expression_consumes_difference : ∃ (e us : List Token) (n : Node),
    tokenize "a - b == c".toList = .ok (e ++ us) ∧ 2 * e.length + 1 ≤ 7 ∧
    (descent 7).expression (topContext []) 2 (e ++ us) = .ok (n, us) ∧
    IsWhole 2 e n (headKind us .endOfInput) := by
  refine ⟨[⟨.name, .text "a", 1, 1, ['a']⟩, ⟨.minus, .text "-", 1, 3, ['-']⟩,
      ⟨.name, .text "b", 1, 5, ['b']⟩],
    [⟨.equal, .text "==", 1, 7, ['=', '=']⟩, ⟨.name, .text "c", 1, 10, ['c']⟩,
      ⟨.endOfInput, .absent, 1, 11, []⟩],
    .binary ⟨"MINUS", "-", none, none⟩ (.leaf ⟨"IDENT", "a", some 1, some 1⟩)
      (.leaf ⟨"IDENT", "b", some 1, some 5⟩) (some 1), Fault.eq_ok_of_toOption (by decide +kernel),
    by decide, rfl, ?_⟩
  have hEnd : (topContext []).endToken.kind = .endOfInput := rfl
  exact (expression_consumes_iff hEnd (Nat.le_refl 7)).1.mp rfl

/-! ## Programs and fragments -/

omit hEnd in
theorem derives_of_program {nesting : Nat} (h : program nesting ts = .ok n) :
    ∃ e us ns, ts = e ++ us ∧ headKind us .endOfInput = .endOfInput ∧ n = .block ns none ∧
      Derives (.statements .endOfInput) e ns := by
  rw [program, run'_eq_ok] at h
  obtain ⟨rest, h⟩ := h
  rw [programTree, bind_eq_ok] at h
  obtain ⟨ns, us, hns, h⟩ := h
  rw [blockBody, bind_of_ok get_run] at hns
  obtain ⟨e, hts, he⟩ := statements_sound kind_topContext (descent_sound nesting) hns
  rw [bind_of_ok current_run, ite_eq_ok, kind_headD kind_topContext] at h
  rcases h with ⟨hk, h⟩ | ⟨-, h⟩
  · obtain ⟨rfl, rfl⟩ := pure_eq_ok.mp h
    rw [hk] at he
    exact ⟨e, _, ns, hts, hk, rfl, he⟩
  · exact absurd h failAt_ne_ok

omit hEnd in
/-- A program is read up to the end of the input, whatever stands behind it. -/
theorem program_of_derives_append {nesting : Nat} {ns : List Node}
    (h : Derives (.statements .endOfInput) ts ns) (hus : headKind us .endOfInput = .endOfInput)
    (hnesting : 2 * ts.length + 2 ≤ nesting) :
    program nesting (ts ++ us) = .ok (.block ns none) := by
  rw [program, run'_eq_ok]
  have hns := completes h (topContext (ts ++ us)) kind_topContext (k := nesting)
    (r := us) hnesting (f := (ts ++ us).length + 1)
    (by simp only [List.length_append]; omega) hus rfl
  have hbody : blockBody (topContext (ts ++ us)) (descent nesting) (ts ++ us) = .ok (ns, us) := by
    rw [blockBody, bind_of_ok get_run, hns]
  have hstop : (us.headD (topContext (ts ++ us)).endToken).kind = .endOfInput := by
    rw [kind_headD kind_topContext, hus]
  refine ⟨us, ?_⟩
  rw [programTree, bind_of_ok hbody, bind_of_ok current_run, if_pos hstop]
  rfl

omit hEnd in
theorem program_of_derives {nesting : Nat} {stop : Token} {ns : List Node}
    (h : Derives (.statements .endOfInput) ts ns) (hstop : stop.kind = .endOfInput)
    (hnesting : 2 * ts.length + 2 ≤ nesting) :
    program nesting (ts ++ [stop]) = .ok (.block ns none) :=
  program_of_derives_append h hstop hnesting

omit hEnd in
theorem derives_of_fragment {nesting : Nat} (h : fragment nesting ts = .ok n) :
    ∃ e es us, ts = e ++ (es ++ us) ∧ AllNewlines es ∧
      headKind us .endOfInput = .endOfInput ∧ Derives .expression e [n] := by
  rw [fragment, run'_eq_ok] at h
  obtain ⟨rest, h⟩ := h
  rw [fragmentTree, bind_eq_ok] at h
  obtain ⟨m, us, hm, h⟩ := h
  obtain ⟨e, hts, he, -⟩ := (descent_sound nesting).expression kind_topContext hm
  rw [skip_newlines_bind] at h
  obtain ⟨es, vs, hes, rfl, -, h⟩ := h
  rw [bind_of_ok current_run, ite_eq_ok, kind_headD kind_topContext] at h
  rcases h with ⟨hk, h⟩ | ⟨-, h⟩
  · obtain ⟨rfl, rfl⟩ := pure_eq_ok.mp h
    exact ⟨e, es, _, hts, hes, hk, derivesAbove_zero.mp he⟩
  · exact absurd h failAt_ne_ok

omit hEnd in
/-- So is a fragment, behind which line ends may stand. -/
theorem fragment_of_derives_append {nesting : Nat} {es : List Token}
    (h : Derives .expression ts [n]) (hes : AllNewlines es)
    (hus : headKind us .endOfInput = .endOfInput) (hnesting : 2 * ts.length + 1 ≤ nesting) :
    fragment nesting (ts ++ (es ++ us)) = .ok n := by
  rw [fragment, run'_eq_ok]
  have hends : (headKind (es ++ us) .endOfInput).endsExpression = true :=
    hes.endsExpression (by rw [hus]; rfl)
  have hn : (descent nesting).expression (topContext (ts ++ (es ++ us))) 0 (ts ++ (es ++ us)) =
      .ok (n, es ++ us) :=
    Completes.run_zero kind_topContext (completes h _ kind_topContext) hnesting hends
  have hstop : (us.headD (topContext (ts ++ (es ++ us))).endToken).kind = .endOfInput := by
    rw [kind_headD kind_topContext, hus]
  refine ⟨us, ?_⟩
  rw [fragmentTree, bind_of_ok hn, skip_newlines_bind]
  refine ⟨es, us, hes, rfl, by rw [hus]; decide, ?_⟩
  rw [bind_of_ok current_run, if_pos hstop]
  rfl

omit hEnd in
theorem fragment_of_derives {nesting : Nat} {stop : Token} (h : Derives .expression ts [n])
    (hstop : stop.kind = .endOfInput) (hnesting : 2 * ts.length + 1 ≤ nesting) :
    fragment nesting (ts ++ [stop]) = .ok n :=
  fragment_of_derives_append h (List.forall_mem_nil _) hstop hnesting

end Parser

/-- Without operators and indices an expression is a primary. -/
theorem Grammar.primary_of_quiet {trailing : Bool} {symbol : Symbol} {ts : List Token}
    {ns : List Node} (h : Grammar trailing symbol ts ns) (hs : symbol.isExpression = true)
    (hquiet : ∀ t ∈ ts, t.kind.infixPower? = none ∧ t.kind ≠ .bang ∧ t.kind ≠ .openBracket) :
    Grammar trailing .primary ts ns := by
  induction h with
  | tighten _ _ ih | chain _ ih => exact ih rfl hquiet
  | primary h _ => exact h
  | @binary s ls rs op _ _ _ hop _ _ _ =>
    have hnone := (hquiet op (List.mem_append_right _ (List.mem_cons_self ..))).1
    rw [Kind.infixPower?_eq_some_iff.mpr ⟨s, hop, rfl⟩] at hnone
    cases hnone
  | @unary op _ _ hop _ _ =>
    obtain ⟨hnone, hbang, -⟩ := hquiet op (List.mem_cons_self ..)
    rcases hop with hop | hop
    · rw [hop] at hnone
      cases hnone
    · exact absurd hop hbang
  | @index _ _ o _ _ _ _ ho _ _ _ _ =>
    exact absurd ho (hquiet o (List.mem_append_right _ (List.mem_cons_self ..))).2.2
  | datum ht => exact .datum ht
  | truth ht => exact .truth ht
  | falsehood ht => exact .falsehood ht
  | name ht => exact .name ht
  | call hf h _ => exact .call hf h
  | group ho h hc _ => exact .group ho h hc
  | array h _ => exact .array h
  | function hf hps hbs _ _ => exact .function hf hps hbs
  | _ => cases hs

/-- A list of parameters may end in a comma. -/
theorem parameters_end_in_comma : ∃ (e : List Token) (stop : Token) (n : Node),
    tokenize "fn(a,)\x7b\x7d".toList = .ok (e ++ [stop]) ∧ stop.kind = .endOfInput ∧
    (Parser.descent 15).expression (Parser.topContext (e ++ [stop])) 0 (e ++ [stop]) =
      .ok (n, [stop]) ∧
    ∀ m : Node, ¬Grammar false .expression e [m] := by
  refine ⟨[⟨.fnWord, .text "fn", 1, 1, ['f', 'n']⟩, ⟨.openParen, .text "(", 1, 3, ['(']⟩,
      ⟨.name, .text "a", 1, 4, ['a']⟩, ⟨.comma, .text ",", 1, 5, [',']⟩,
      ⟨.closeParen, .text ")", 1, 6, [')']⟩, ⟨.openBrace, .text "\x7b", 1, 7, ['\x7b']⟩,
      ⟨.closeBrace, .text "\x7d", 1, 8, ['\x7d']⟩],
    ⟨.endOfInput, .absent, 1, 9, []⟩, _, Fault.eq_ok_of_toOption (by decide +kernel), rfl,
    rfl, ?_⟩
  intro m h
  have hprimary := h.primary_of_quiet rfl (by decide)
  generalize he : [_, _, _, _, _, _, _] = e at hprimary
  cases hprimary with
  | function _ hps _ =>
    cases hps with
    | parameters _ hnames hc =>
      simp only [List.cons_append, List.append_assoc, List.cons.injEq] at he
      obtain ⟨-, -, he⟩ := he
      cases hnames with
      | noNames =>
        obtain ⟨rfl, -⟩ := List.cons.inj he
        cases hc
      | lastName _ =>
        obtain ⟨-, he⟩ := List.cons.inj he
        obtain ⟨rfl, -⟩ := List.cons.inj he
        cases hc
      | moreNames _ _ hlast hnames =>
        obtain ⟨-, he⟩ := List.cons.inj he
        obtain ⟨-, he⟩ := List.cons.inj he
        cases hnames with
        | noNames => cases hlast rfl
        | lastName hx | moreNames hx _ _ _ =>
          obtain ⟨rfl, -⟩ := List.cons.inj he
          cases hx
  | datum _ | truth _ | falsehood _ | name _ => simp at he
  | call ht _ | group ht _ _ =>
    obtain ⟨rfl, -⟩ := List.cons.inj he
    cases ht
  | array hlist =>
    cases hlist with
    | bracketed ho _ _ _ =>
      obtain ⟨rfl, -⟩ := List.cons.inj he
      cases ho

end ScopeScript
