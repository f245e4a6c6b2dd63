import ScopeScript.Proofs.Parser.Soundness

/-!
# What is derivable is accepted

By induction on derivations, each parser reads back what the grammar derives,
in front of any tokens that its phrase may stand before. An expression of a
stratum is first shown to bring the parser into its loop over operators with
the whole phrase as left operand; the loop ends where the least power says.

A level of nesting is used up by a token that was read or by the step from a
statement to an expression, so twice the number of tokens bounds the levels.
-/

namespace ScopeScript

open Token (headKind AllNewlines AllSeparators)

namespace Stratum

/-- An expression of this stratum is whole in front of operators below this power. -/
def bound (s : Stratum) : Nat := if s = .prefixed then Kind.indexPower else s.power + 1

theorem bound_eq {s : Stratum} (h : s ≠ .prefixed) : s.bound = s.power + 1 := if_neg h

theorem power_le_bound (s : Stratum) : s.power ≤ s.bound := by
  cases s <;> decide

theorem bound_le_tighter {s : Stratum} (h : s ≠ .prefixed) : s.bound ≤ s.tighter.bound := by
  revert h
  cases s <;> decide

end Stratum

namespace Parser

variable {ctx : Context} {d : Descent} {ts us : List Token} {ns : List Node} {n : Node}

theorem operators_stop (hEnd : ctx.endToken.kind = .endOfInput) {m fuel : Nat}
    (hfuel : 0 < fuel) (h : (headKind us .endOfInput).Stops m) :
    operators ctx d m fuel n us = .ok (n, us) := by
  obtain ⟨fuel, rfl⟩ := Nat.exists_eq_succ_of_ne_zero (Nat.pos_iff_ne_zero.mp hfuel)
  rw [operators, bind_of_ok current_run, ite_eq_ok, kind_headD hEnd]
  rcases h with h | ⟨p, hp, hlt⟩ | ⟨hk, hlt⟩
  · exact .inl ⟨h, pure_eq_ok.mpr ⟨rfl, rfl⟩⟩
  · refine .inr ⟨fun hends => ?_, ?_⟩
    · rw [Kind.infixPower?_of_endsExpression hends] at hp
      cases hp
    rw [ite_eq_ok]
    refine .inr ⟨fun hk => ?_, ?_⟩
    · rw [hk] at hp
      cases hp
    simp only [hp]
    rw [if_pos hlt]
    rfl
  · refine .inr ⟨by rw [hk]; decide, ?_⟩
    rw [ite_eq_ok]
    refine .inl ⟨hk, ?_⟩
    rw [if_pos hlt]
    rfl

/-- What has to be shown of a phrase for the parser to be complete. -/
def Completes (ctx : Context) (ts : List Token) (ns : List Node) : Symbol → Prop
  | .level s => ∀ {k m : Nat} {r : List Token}, 2 * ts.length ≤ k → m ≤ s.power →
      (headKind r .endOfInput).Stops s.bound → ∃ n f, ns = [n] ∧ r.length < f ∧
        expression ctx (descent k) m (ts ++ r) = operators ctx (descent k) m f n r
  | .chain => ∀ {k m : Nat} {r : List Token}, 2 * ts.length ≤ k → m ≤ Kind.indexPower →
      headKind r .endOfInput ≠ .openParen → ∃ n f, ns = [n] ∧ r.length < f ∧
        expression ctx (descent k) m (ts ++ r) = operators ctx (descent k) m f n r
  | .primary => ∀ {k : Nat} {r : List Token}, 2 * ts.length ≤ k →
      headKind r .endOfInput ≠ .openParen → ∃ n, ns = [n] ∧
        operand ctx (descent k) (ts ++ r) = .ok (n, r)
  | .bracketed _ closing => ∀ {k : Nat} {r : List Token} {w : Expectation},
      2 * ts.length ≤ k → closing = .closeParen ∨ closing = .closeBracket →
      enclosed ctx (descent k) closing w (ts ++ r) = .ok (ns, r)
  | .items => ∀ {k f : Nat} {r : List Token} {closing : Kind}, 2 * ts.length + 1 ≤ k →
      ts.length < f → closing = .closeParen ∨ closing = .closeBracket →
      headKind r .endOfInput = closing →
      items ctx (descent k) closing f (ts ++ r) = .ok (ns, r)
  | .names => ∀ {f : Nat} {r : List Token}, ts.length < f →
      headKind r .endOfInput = .closeParen → parameterNames ctx f (ts ++ r) = .ok (ns, r)
  | .parameters => ∀ {r : List Token},
      parameterList ctx (ts ++ r) = .ok (.parameters ns none, r)
  | .braced => ∀ {k : Nat} {r : List Token}, 2 * ts.length ≤ k →
      braced ctx (descent k) (ts ++ r) = .ok (ns, r)
  | .statements next => ∀ {k f : Nat} {r : List Token}, 2 * ts.length + 2 ≤ k →
      ts.length < f → headKind r .endOfInput = next → next.endsBlock = true →
      statements ctx (descent k) f (ts ++ r) = .ok (ns, r)
  | .statement next => ∀ {k : Nat} {r vs : List Token} {t : Token}, 2 * ts.length + 1 ≤ k →
      ts = t :: vs → headKind r .endOfInput = next →
      (next = .closeParen → ctx.inHeader = true) →
      ∃ n, ns = [n] ∧ statementAt ctx (descent k) t (ts ++ r) = .ok (n, r)
  | .branch next => ∀ {k : Nat} {r : List Token}, 2 * ts.length ≤ k →
      headKind r .endOfInput = next →
      ∃ n, ns = [n] ∧ branch ctx (descent k) (ts ++ r) = .ok (n, r)
  | .alternative next => ∀ {k : Nat} {r : List Token}, 2 * ts.length + 1 ≤ k →
      headKind r .endOfInput = next → alternative ctx (descent k) (ts ++ r) = .ok (ns, r)
  | .clause next => ∀ {k : Nat} {r : List Token}, 2 * ts.length + 2 ≤ k →
      headKind r .endOfInput = next → ∃ o, ns = o.toList ∧
        clause ctx (descent k) next (ts ++ r) = .ok (o, r)
  | .test => ∀ {k : Nat} {r : List Token}, 2 * ts.length + 1 ≤ k →
      headKind r .endOfInput = .semicolon → ∃ n, ns = [n] ∧
        headerTest ctx (descent k) (ts ++ r) = .ok (n, r)

variable (hEnd : ctx.endToken.kind = .endOfInput)
include hEnd

/-! ## Expressions -/

theorem Completes.run {s : Stratum} {k m : Nat} {r : List Token}
    (h : Completes ctx ts [n] (.level s)) (hk : 2 * ts.length + 1 ≤ k) (hm : m ≤ s.power)
    (hus : (headKind r .endOfInput).Stops m) :
    (descent k).expression ctx m (ts ++ r) = .ok (n, r) := by
  obtain ⟨k, rfl⟩ := Nat.exists_eq_add_of_le' (Nat.le_of_add_left_le hk)
  have hstop := hus.mono (Nat.le_trans hm s.power_le_bound)
  obtain ⟨n', fuel, hn, hfuel, hrun⟩ := h (k := k) (by omega) hm hstop
  cases hn
  change expression ctx (descent k) m (ts ++ r) = _
  rw [hrun, operators_stop hEnd (by omega) hus]

theorem Completes.run_zero {k : Nat} {r : List Token} (h : Completes ctx ts [n] .expression)
    (hk : 2 * ts.length + 1 ≤ k) (hus : (headKind r .endOfInput).endsExpression = true) :
    (descent k).expression ctx 0 (ts ++ r) = .ok (n, r) :=
  h.run hEnd hk (by decide) (Kind.stops_zero.mpr hus)

omit hEnd in
theorem tighten_completes {s : Stratum} (hs : s ≠ .prefixed)
    (h : Completes ctx ts [n] (.level s.tighter)) : Completes ctx ts [n] (.level s) :=
  fun hk hm hus => h hk (Nat.le_trans hm (Nat.le_of_lt (Stratum.power_lt_tighter hs)))
    (hus.mono (Stratum.bound_le_tighter hs))

theorem binary_completes {s : Stratum} {ls rs : List Token} {op : Token} {a b : Node}
    (hop : op.kind ∈ s.operators) (hl : Completes ctx ls [a] (.level s))
    (hr : Completes ctx rs [b] (.level s.tighter)) :
    Completes ctx (ls ++ op :: rs) [.binary (.ofOperator op) a b op.line] (.level s) := by
  intro k m us hk hm hus
  have hs := Stratum.operators_prefixed_ne hop
  have hp := Kind.infixPower?_eq_some_iff.mpr ⟨s, hop, rfl⟩
  rw [Stratum.bound_eq hs] at hus
  simp only [List.length_append, List.length_cons] at hk
  obtain ⟨a', fuel, ha, hfuel, hrun⟩ := hl (k := k) (m := m) (r := op :: (rs ++ us)) (by omega) hm
    (.inr (.inl ⟨s.power, hp, by rw [Stratum.bound_eq hs]; omega⟩))
  cases ha
  simp only [List.length_cons, List.length_append] at hfuel
  obtain ⟨fuel, rfl⟩ := Nat.exists_eq_add_of_le' (Nat.one_le_of_lt hfuel)
  refine ⟨_, fuel, rfl, by omega, ?_⟩
  have hb := hr.run hEnd (k := k) (by omega)
    (Nat.succ_le_of_lt (Stratum.power_lt_tighter hs)) hus
  rw [List.append_assoc, List.cons_append, hrun, operators, bind_of_ok current_run,
    List.headD_cons, if_neg, if_neg]
  · simp only [hp]
    rw [if_neg (Nat.not_lt.mpr hm), bind_of_ok advance_run, List.tail_cons, bind_of_ok hb]
  · intro hk
    rw [hk] at hp
    cases hp
  · intro hends
    rw [Kind.infixPower?_of_endsExpression hends] at hp
    cases hp

omit hEnd in
theorem expression_of_operand {m : Nat} (h : operand ctx d ts = .ok (n, us)) :
    expression ctx d m ts = operators ctx d m (us.length + 1) n us := by
  rw [expression, bind_of_ok h, bind_of_ok get_run]

theorem unary_run {k : Nat} {op : Token} {a : Node} (hop : op.kind = .minus ∨ op.kind = .bang)
    (h : Completes ctx ts [a] (.level .prefixed)) (hk : 2 * ts.length + 1 ≤ k)
    (hus : (headKind us .endOfInput).Stops Kind.indexPower) :
    operand ctx (descent k) (op :: (ts ++ us)) =
      .ok (.unary (.ofOperator op) a op.line, us) := by
  rw [operand, bind_of_ok current_run, List.headD_cons]
  rcases hop with hop | hop <;> simp only [hop]
  · have ha := h.run hEnd (k := k) (m := Kind.minusPower) (by omega) (by decide)
      (hus.below_prefixed (by decide))
    rw [bind_of_ok advance_run, List.tail_cons, bind_of_ok ha]
    rfl
  · have ha := h.run hEnd (k := k) (m := Kind.bangPower) (by omega) (by decide)
      (hus.below_prefixed (by decide))
    rw [bind_of_ok advance_run, List.tail_cons, bind_of_ok ha]
    rfl

theorem unary_completes {op : Token} {a : Node} (hop : op.kind = .minus ∨ op.kind = .bang)
    (h : Completes ctx ts [a] (.level .prefixed)) :
    Completes ctx (op :: ts) [.unary (.ofOperator op) a op.line] (.level .prefixed) := by
  intro k m us hk _ hus
  rw [List.length_cons] at hk
  exact ⟨_, us.length + 1, rfl, Nat.lt_succ_self _,
    expression_of_operand (unary_run hEnd hop h (by omega) hus)⟩

omit hEnd in
theorem chain_completes (h : Completes ctx ts [n] .chain) :
    Completes ctx ts [n] (.level .prefixed) :=
  fun hk hm hus => h hk hm hus.not_openParen

omit hEnd in
theorem primary_completes (h : Completes ctx ts [n] .primary) : Completes ctx ts [n] .chain := by
  intro k m us hk hm hus
  obtain ⟨n', hn, hrun⟩ := h hk hus
  exact ⟨n', us.length + 1, hn, Nat.lt_succ_self _, expression_of_operand hrun⟩

theorem index_completes {cs ps : List Token} {o c : Token} {a b : Node}
    (ha : Completes ctx cs [a] .chain) (ho : o.kind = .openBracket)
    (hb : Completes ctx ps [b] .expression) (hc : c.kind = .closeBracket) :
    Completes ctx (cs ++ o :: (ps ++ [c])) [.index a b o.line] .chain := by
  intro k m us hk hm hus
  simp only [List.length_append, List.length_cons, List.length_nil] at hk
  obtain ⟨a', fuel, hn, hfuel, hrun⟩ := ha (k := k) (m := m) (r := o :: (ps ++ c :: us))
    (by omega) hm (by rw [Token.headKind_cons, ho]; decide)
  cases hn
  simp only [List.length_cons, List.length_append] at hfuel
  obtain ⟨fuel, rfl⟩ := Nat.exists_eq_add_of_le' (Nat.one_le_of_lt hfuel)
  refine ⟨_, fuel, rfl, by omega, ?_⟩
  have hp := hb.run_zero hEnd (k := k) (r := c :: us) (by omega)
    (by rw [Token.headKind_cons, hc]; rfl)
  have hclose := expect_run hEnd (w := .closeIndex) c us (by rw [hc]; decide)
  rw [hc] at hclose
  have hts : cs ++ o :: (ps ++ [c]) ++ us = cs ++ o :: (ps ++ c :: us) := by simp
  rw [hts, hrun, operators, bind_of_ok current_run, List.headD_cons, ho, if_neg (by decide),
    if_pos rfl, if_neg (Nat.not_lt.mpr hm), bind_of_ok advance_run, List.tail_cons, bind_of_ok hp,
    bind_of_ok hclose]

/-! ## Primaries -/

omit hEnd in
theorem datum_completes {t : Token} (ht : t.kind = .number ∨ t.kind = .string) :
    Completes ctx [t] [.literal t.datum.toValue none] .primary := by
  intro k us _ _
  refine ⟨_, rfl, ?_⟩
  rw [List.singleton_append, operand, bind_of_ok current_run, List.headD_cons]
  rcases ht with ht | ht <;> simp only [ht] <;> rfl

omit hEnd in
theorem truth_completes {t : Token} (ht : t.kind = .trueWord) :
    Completes ctx [t] [.literal (.bool true) none] .primary := by
  intro k us _ _
  refine ⟨_, rfl, ?_⟩
  rw [List.singleton_append, operand, bind_of_ok current_run, List.headD_cons]
  simp only [ht]
  rfl

omit hEnd in
theorem falsehood_completes {t : Token} (ht : t.kind = .falseWord) :
    Completes ctx [t] [.literal (.bool false) none] .primary := by
  intro k us _ _
  refine ⟨_, rfl, ?_⟩
  rw [List.singleton_append, operand, bind_of_ok current_run, List.headD_cons]
  simp only [ht]
  rfl

theorem name_completes {t : Token} (ht : t.kind = .name) :
    Completes ctx [t] [.leaf (.ofName t)] .primary := by
  intro k us _ hus
  refine ⟨_, rfl, ?_⟩
  rw [List.singleton_append, operand, bind_of_ok current_run, List.headD_cons]
  simp only [ht]
  rw [bind_of_ok advance_run, List.tail_cons, bind_of_ok current_run, kind_headD hEnd, if_neg hus]
  rfl

theorem call_completes {f : Token} {closing : Kind} (hf : f.kind = .name)
    (h : Grammar true (.bracketed .openParen closing) ts ns)
    (hts : Completes ctx ts ns (.bracketed .openParen .closeParen)) :
    Completes ctx (f :: ts) [.call (.leaf (.ofName f)) (.arguments ns none) f.line]
      .primary := by
  intro k us hk _
  rw [List.length_cons] at hk
  have hrun := hts (k := k) (r := us) (w := .closeArguments) (by omega) (.inl rfl)
  have ho : headKind (ts ++ us) .endOfInput = .openParen := by
    cases h with
    | bracketed ho _ _ _ => exact ho
  refine ⟨_, rfl, ?_⟩
  rw [List.cons_append, operand, bind_of_ok current_run, List.headD_cons]
  simp only [hf]
  rw [bind_of_ok advance_run, List.tail_cons, bind_of_ok current_run, kind_headD hEnd, if_pos ho,
    bind_of_ok hrun]
  rfl

theorem group_completes {o c : Token} (ho : o.kind = .openParen)
    (h : Completes ctx ts [n] .expression) (hc : c.kind = .closeParen) :
    Completes ctx (o :: (ts ++ [c])) [n] .primary := by
  intro k us hk _
  simp only [List.length_append, List.length_cons, List.length_nil] at hk
  have hrun := h.run_zero hEnd (k := k) (r := c :: us) (by omega)
    (by rw [Token.headKind_cons, hc]; rfl)
  refine ⟨_, rfl, ?_⟩
  rw [List.cons_append, List.append_assoc, List.singleton_append, operand, bind_of_ok current_run,
    List.headD_cons]
  simp only [ho]
  rw [bind_of_ok advance_run, List.tail_cons, bind_of_ok hrun, accept_bind hEnd (by decide)]
  exact .inl ⟨c, us, rfl, hc, rfl⟩

omit hEnd in
theorem array_completes (h : Grammar true (.bracketed .openBracket .closeBracket) ts ns)
    (hts : Completes ctx ts ns (.bracketed .openBracket .closeBracket)) :
    Completes ctx ts [.array ns none] .primary := by
  intro k us hk _
  have hrun := hts (k := k) (r := us) (w := .closeArray) hk (.inr rfl)
  refine ⟨_, rfl, ?_⟩
  cases h with
  | bracketed ho _ _ _ =>
    rw [List.cons_append, operand, bind_of_ok current_run, List.headD_cons]
    simp only [ho]
    rw [List.cons_append] at hrun
    rw [bind_of_ok hrun]
    rfl

omit hEnd in
theorem functionRest_run {k : Nat} {r : List Token} {f : Token} {ps bs : List Token}
    {xs : List Node} (hps : Completes ctx ps xs .parameters) (hbs : Completes ctx bs ns .braced)
    (hk : 2 * bs.length ≤ k) : functionRest ctx (descent k) f (ps ++ (bs ++ r)) =
      .ok (.function (.parameters xs none) (.block ns none) f.line, r) := by
  rw [functionRest, bind_of_ok hps, bind_of_ok (hbs hk)]
  rfl

omit hEnd in
theorem function_completes {f : Token} {ps bs : List Token} {xs : List Node}
    (hf : f.kind = .fnWord) (hps : Completes ctx ps xs .parameters)
    (hbs : Completes ctx bs ns .braced) : Completes ctx (f :: (ps ++ bs))
      [.function (.parameters xs none) (.block ns none) f.line] .primary := by
  intro k us hk _
  simp only [List.length_append, List.length_cons] at hk
  refine ⟨_, rfl, ?_⟩
  rw [List.cons_append, List.append_assoc, operand, bind_of_ok current_run, List.headD_cons]
  simp only [hf]
  rw [bind_of_ok advance_run, List.tail_cons]
  exact functionRest_run hps hbs (by omega)

/-! ## Lists -/

theorem noItems_completes : Completes ctx [] [] .items := by
  intro k fuel us closing _ hfuel hclosing hus
  obtain ⟨fuel, rfl⟩ := Nat.exists_eq_add_of_le' (Nat.one_le_of_lt hfuel)
  rw [List.nil_append, items, bind_of_ok current_run, kind_headD hEnd, if_pos (.inl hus)]
  rfl

omit hEnd in
/-- Neither a closing token nor the end begins an expression. -/
theorem not_closed {t : Token} (ht : t.kind.beginsExpression = true) {closing : Kind}
    (hclosing : closing = .closeParen ∨ closing = .closeBracket) :
    ¬(t.kind = closing ∨ t.kind = .endOfInput) := by
  rintro (hk | hk)
  · rcases hclosing with rfl | rfl <;> rw [hk] at ht <;> cases ht
  · rw [hk] at ht
    cases ht

theorem lastItem_completes {es : List Token} (h : Derives .expression ts [n])
    (hts : Completes ctx ts [n] .expression) (hes : AllNewlines es) :
    Completes ctx (ts ++ es) [n] .items := by
  intro k fuel us closing hk hfuel hclosing hus
  obtain ⟨fuel, rfl⟩ := Nat.exists_eq_add_of_le' (Nat.one_le_of_lt hfuel)
  obtain ⟨t, vs, rfl, ht, -⟩ := h.leads
  simp only [List.length_append] at hk
  have hends := hes.endsExpression (r := us) (k := .endOfInput)
    (by rw [hus]; rcases hclosing with rfl | rfl <;> rfl)
  have hrun := hts.run_zero hEnd (k := k) (r := es ++ us) (by omega) hends
  have hnl : headKind us .endOfInput ≠ .newline := by
    rw [hus]
    rcases hclosing with rfl | rfl <;> decide
  rw [List.append_assoc, items, List.cons_append, bind_of_ok current_run, List.headD_cons,
    if_neg (not_closed ht hclosing), ← List.cons_append, bind_of_ok hrun, skip_newlines_bind]
  refine ⟨es, us, hes, rfl, hnl, ?_⟩
  rw [accept_bind hEnd (by decide)]
  refine .inr ⟨?_, rfl⟩
  rw [hus]
  rcases hclosing with rfl | rfl <;> decide

omit hEnd in
/-- The first token after the separators of a list is no line end. -/
theorem headKind_items_ne_newline {closing : Kind} (h : Derives .items ts ns)
    (hclosing : closing = .closeParen ∨ closing = .closeBracket)
    (hus : headKind us .endOfInput = closing) :
    headKind (ts ++ us) .endOfInput ≠ .newline := by
  have hexpression {vs ws : List Token} {m : Node} (hvs : Derives .expression vs [m]) :
      headKind (vs ++ ws) .endOfInput ≠ .newline := by
    obtain ⟨t, xs, rfl, ht, -⟩ := hvs.leads
    rintro hk
    rw [List.cons_append, Token.headKind_cons] at hk
    rw [hk] at ht
    cases ht
  cases h with
  | noItems =>
    rw [List.nil_append, hus]
    rcases hclosing with rfl | rfl <;> decide
  | lastItem h _ | moreItems h _ _ _ _ =>
    rw [List.append_assoc]
    exact hexpression h

theorem moreItems_completes {es fs vs : List Token} {c : Token} (h : Derives .expression ts [n])
    (hts : Completes ctx ts [n] .expression) (hes : AllNewlines es) (hc : c.kind = .comma)
    (hfs : AllNewlines fs) (hitems : Derives .items vs ns) (hvs : Completes ctx vs ns .items) :
    Completes ctx (ts ++ (es ++ c :: (fs ++ vs))) (n :: ns) .items := by
  intro k fuel us closing hk hfuel hclosing hus
  obtain ⟨fuel, rfl⟩ := Nat.exists_eq_add_of_le' (Nat.one_le_of_lt hfuel)
  obtain ⟨t, xs, rfl, ht, -⟩ := h.leads
  simp only [List.length_append, List.length_cons] at hk hfuel
  have hends := hes.endsExpression (r := c :: (fs ++ (vs ++ us))) (k := .endOfInput)
    (by rw [Token.headKind_cons, hc]; rfl)
  have hrun := hts.run_zero hEnd (k := k) (r := es ++ c :: (fs ++ (vs ++ us)))
    (by rw [List.length_cons]; omega) hends
  have hrest := hvs (k := k) (f := fuel) (r := us) (by omega) (by omega) hclosing hus
  have happend : t :: xs ++ (es ++ c :: (fs ++ vs)) ++ us =
      t :: xs ++ (es ++ c :: (fs ++ (vs ++ us))) := by simp
  rw [happend, items, List.cons_append, bind_of_ok current_run, List.headD_cons,
    if_neg (not_closed ht hclosing), ← List.cons_append, bind_of_ok hrun, skip_newlines_bind]
  refine ⟨es, _, hes, rfl, by rw [Token.headKind_cons, hc]; decide, ?_⟩
  rw [accept_bind hEnd (by decide)]
  refine .inl ⟨c, _, rfl, hc, ?_⟩
  rw [skip_newlines_bind]
  refine ⟨fs, _, hfs, rfl, headKind_items_ne_newline hitems hclosing hus, ?_⟩
  rw [bind_of_ok hrest]
  rfl

theorem bracketed_completes {opening closing : Kind} {o c : Token} {es : List Token}
    (_ : o.kind = opening) (hes : AllNewlines es) (h : Derives .items ts ns)
    (hts : Completes ctx ts ns .items) (hc : c.kind = closing) :
    Completes ctx (o :: (es ++ (ts ++ [c]))) ns (.bracketed opening closing) := by
  intro k us what hk hclosing
  simp only [List.length_append, List.length_cons, List.length_nil] at hk
  have hrun := hts (k := k) (f := (ts ++ c :: us).length + 1) (r := c :: us) (by omega)
    (by simp only [List.length_append]; omega) hclosing hc
  have hclose : expect ctx closing what (c :: us) = .ok (c, us) := by
    rw [← hc]
    apply expect_run hEnd c us
    rw [hc]
    rcases hclosing with rfl | rfl <;> decide
  have happend : o :: (es ++ (ts ++ [c])) ++ us = o :: (es ++ (ts ++ c :: us)) := by simp
  rw [happend, enclosed, bind_of_ok advance_run, List.tail_cons, skip_newlines_bind]
  refine ⟨es, _, hes, rfl, headKind_items_ne_newline h hclosing hc, ?_⟩
  rw [bind_of_ok get_run, bind_of_ok hrun, bind_of_ok hclose]
  rfl

theorem noNames_completes : Completes ctx [] [] .names := by
  intro fuel us hfuel hus
  obtain ⟨fuel, rfl⟩ := Nat.exists_eq_add_of_le' (Nat.one_le_of_lt hfuel)
  rw [List.nil_append, parameterNames, bind_of_ok current_run, kind_headD hEnd,
    if_pos (.inl hus)]
  rfl

theorem lastName_completes {x : Token} (hx : x.kind = .name) :
    Completes ctx [x] [.leaf (.ofName x)] .names := by
  intro fuel us hfuel hus
  obtain ⟨fuel, rfl⟩ := Nat.exists_eq_add_of_le' (Nat.one_le_of_lt hfuel)
  rw [List.singleton_append, parameterNames, bind_of_ok current_run, List.headD_cons,
    if_neg (by rw [hx]; decide), expect_bind hEnd (by decide)]
  refine ⟨x, us, rfl, hx, ?_⟩
  rw [accept_bind hEnd (by decide), hus]
  exact .inr ⟨by decide, rfl⟩

theorem moreNames_completes {x c : Token} (hx : x.kind = .name) (hc : c.kind = .comma)
    (hts : Completes ctx ts ns .names) :
    Completes ctx (x :: c :: ts) (.leaf (.ofName x) :: ns) .names := by
  intro fuel us hfuel hus
  obtain ⟨fuel, rfl⟩ := Nat.exists_eq_add_of_le' (Nat.one_le_of_lt hfuel)
  simp only [List.length_cons] at hfuel
  have hrest := hts (f := fuel) (r := us) (by omega) hus
  rw [List.cons_append, List.cons_append, parameterNames, bind_of_ok current_run, List.headD_cons,
    if_neg (by rw [hx]; decide), expect_bind hEnd (by decide)]
  refine ⟨x, _, rfl, hx, ?_⟩
  rw [accept_bind hEnd (by decide)]
  refine .inl ⟨c, _, rfl, hc, ?_⟩
  rw [bind_of_ok hrest]
  rfl

theorem parameters_completes {o c : Token} (ho : o.kind = .openParen)
    (hts : Completes ctx ts ns .names) (hc : c.kind = .closeParen) :
    Completes ctx (o :: (ts ++ [c])) ns .parameters := by
  intro us
  have hrun := hts (f := (ts ++ c :: us).length + 1) (r := c :: us)
    (by simp only [List.length_append]; omega) hc
  rw [List.cons_append, List.append_assoc, List.singleton_append, parameterList,
    expect_bind hEnd (by decide)]
  refine ⟨o, _, rfl, ho, ?_⟩
  rw [bind_of_ok get_run, bind_of_ok hrun, expect_bind hEnd (by decide)]
  exact ⟨c, us, rfl, hc, rfl⟩

/-! ## Blocks -/

theorem braced_completes {es : List Token} {o c : Token} (hes : AllNewlines es)
    (ho : o.kind = .openBrace) (hts : Completes ctx ts ns (.statements .closeBrace))
    (hc : c.kind = .closeBrace) : Completes ctx (es ++ o :: (ts ++ [c])) ns .braced := by
  intro k us hk
  simp only [List.length_append, List.length_cons, List.length_nil] at hk
  have hrun := hts (k := k) (f := (ts ++ c :: us).length + 1) (r := c :: us) (by omega)
    (by simp only [List.length_append]; omega) hc rfl
  have happend : es ++ o :: (ts ++ [c]) ++ us = es ++ o :: (ts ++ c :: us) := by simp
  rw [happend, braced, skip_newlines_bind]
  refine ⟨es, _, hes, rfl, by rw [Token.headKind_cons, ho]; decide, ?_⟩
  rw [bind_of_ok current_run, expect_bind hEnd (by decide)]
  refine ⟨o, _, rfl, ho, ?_⟩
  have hbody : blockBody ctx (descent k) (ts ++ c :: us) = .ok (ns, c :: us) := by
    rw [blockBody, bind_of_ok get_run, hrun]
  rw [bind_of_ok hbody, bind_of_ok current_run, expect_bind hEnd (by decide)]
  exact ⟨c, us, rfl, hc, rfl⟩

omit hEnd in
/-- Separators in front of anything else are skipped as a whole. -/
theorem skip_separators {ss : List Token} (hss : AllSeparators ss)
    (hnl : headKind us .endOfInput ≠ .newline) (hsemi : headKind us .endOfInput ≠ .semicolon) :
    skip [.newline, .semicolon] (ss ++ us) = .ok ((), us) := by
  apply skip_append (fun t ht => by simpa using hss t ht)
  rintro t vs rfl ht
  rcases List.mem_cons.mp ht with ht | ht
  · exact hnl ht
  · exact hsemi (List.mem_singleton.mp ht)

theorem noStatements_completes {next : Kind} {ss : List Token} (hss : AllSeparators ss) :
    Completes ctx ss [] (.statements next) := by
  intro k fuel us hk hfuel hus hnext
  obtain ⟨fuel, rfl⟩ := Nat.exists_eq_add_of_le' (Nat.one_le_of_lt hfuel)
  obtain ⟨k, rfl⟩ := Nat.exists_eq_add_of_le' (show 1 ≤ k by omega)
  have hskip : skip [.newline, .semicolon] (ss ++ us) = .ok ((), us) := by
    refine skip_separators hss ?_ ?_ <;> rw [hus] <;> rintro rfl <;> cases hnext
  have hends : next = .endOfInput ∨ next = .closeBrace := by
    cases next <;> first | exact .inl rfl | exact .inr rfl | cases hnext
  have hnone : statement ctx (descent k) (ss ++ us) = .ok (none, us) := by
    rw [statement, bind_of_ok hskip, bind_of_ok current_run, kind_headD hEnd, hus, if_pos hends]
    rfl
  rw [statements, bind_of_ok (p := (descent (k + 1)).statement ctx) hnone]
  rfl

omit hEnd in
theorem statement_run {ss : List Token} {t : Token} {k : Nat} (hss : AllSeparators ss)
    (ht : t.kind.beginsStatement = true)
    (h : statementAt ctx (descent k) t (t :: ts) = .ok (n, us)) :
    (descent (k + 1)).statement ctx (ss ++ t :: ts) = .ok (some (n.atLine t.line), us) := by
  change statement ctx (descent k) _ = _
  have hskip : skip [.newline, .semicolon] (ss ++ t :: ts) = .ok ((), t :: ts) := by
    refine skip_separators hss ?_ ?_ <;> rw [Token.headKind_cons] <;> intro hk <;> rw [hk] at ht <;>
      cases ht
  have hends : ¬(t.kind = .endOfInput ∨ t.kind = .closeBrace) := by
    rintro (hk | hk) <;> rw [hk] at ht <;> cases ht
  rw [statement, bind_of_ok hskip, bind_of_ok current_run, List.headD_cons, if_neg hends,
    bind_of_ok h]
  rfl

omit hEnd in
/-- No statement that follows another one begins with a closing parenthesis. -/
theorem headKind_statements {next : Kind} (h : Derives (.statements next) ts ns)
    (hnext : next.endsBlock = true) : headKind ts next ≠ .closeParen := by
  rintro hk
  cases h with
  | noStatements _ hss =>
    cases ts with
    | nil =>
      rw [Token.headKind_nil] at hk
      rw [hk] at hnext
      cases hnext
    | cons s ss =>
      rw [Token.headKind_cons] at hk
      rcases hss s (List.mem_cons_self ..) with hs | hs <;> rw [hs] at hk <;> cases hk
  | @moreStatements _ ss _ _ t _ _ hss ht _ =>
    cases ss with
    | nil =>
      have hbegin := ht.begins_statement
      rw [List.nil_append, Token.headKind_cons] at hk
      rw [hk] at hbegin
      cases hbegin
    | cons s ss =>
      rw [List.cons_append, Token.headKind_cons] at hk
      rcases hss s (List.mem_cons_self ..) with hs | hs <;> rw [hs] at hk <;> cases hk

omit hEnd in
theorem moreStatements_completes {next : Kind} {ss vs : List Token} {t : Token}
    (hss : AllSeparators ss) (h : Derives (.statement (headKind vs next)) (t :: ts) [n])
    (ht : Completes ctx (t :: ts) [n] (.statement (headKind vs next)))
    (hstatements : Derives (.statements next) vs ns)
    (hvs : Completes ctx vs ns (.statements next)) :
    Completes ctx (ss ++ t :: (ts ++ vs)) (n.atLine t.line :: ns) (.statements next) := by
  intro k fuel us hk hfuel hus hnext
  obtain ⟨fuel, rfl⟩ := Nat.exists_eq_add_of_le' (Nat.one_le_of_lt hfuel)
  obtain ⟨k, rfl⟩ := Nat.exists_eq_add_of_le' (show 1 ≤ k by omega)
  simp only [List.length_append, List.length_cons] at hk hfuel
  obtain ⟨m, hm, hrun⟩ := ht (k := k) (r := vs ++ us) (by rw [List.length_cons]; omega) rfl
    (by rw [Token.headKind_append, hus])
    (fun hclose => absurd hclose (headKind_statements hstatements hnext))
  cases hm
  rw [List.cons_append] at hrun
  have hone := statement_run hss h.begins_statement hrun
  have hrest := hvs (k := k + 1) (f := fuel) (r := us) (by omega) (by omega) hus hnext
  have happend : ss ++ t :: (ts ++ vs) ++ us = ss ++ t :: (ts ++ (vs ++ us)) := by simp
  rw [happend, statements, bind_of_ok hone]
  simp only
  rw [bind_of_ok hrest]
  rfl

/-! ## Statements -/

omit hEnd in
theorem block_completes {next : Kind} {o : Token} (ho : o.kind = .openBrace)
    (h : Completes ctx (o :: ts) ns .braced) :
    Completes ctx (o :: ts) [.block ns none] (.statement next) := by
  intro k us vs t hk hts _ _
  cases hts
  refine ⟨_, rfl, ?_⟩
  rw [statementAt, bind_of_ok second_run]
  simp only [ho]
  rw [bind_of_ok (h (by omega))]
  rfl

theorem print_completes {next : Kind} {w o c : Token} (hw : w.kind = .printWord)
    (ho : o.kind = .openParen) (h : Completes ctx ts [n] .expression)
    (hc : c.kind = .closeParen) (hnext : next.endsPrint = true) :
    Completes ctx (w :: o :: (ts ++ [c])) [.print n none] (.statement next) := by
  intro k us vs t hk hts hus hheader
  cases hts
  simp only [List.length_append, List.length_cons, List.length_nil] at hk
  have hrun := h.run_zero hEnd (k := k) (r := c :: us) (by omega)
    (by rw [Token.headKind_cons, hc]; rfl)
  have happend : w :: o :: (ts ++ [c]) ++ us = w :: o :: (ts ++ c :: us) := by simp
  refine ⟨_, rfl, ?_⟩
  rw [happend, statementAt, bind_of_ok second_run]
  simp only [hw]
  rw [printStatement, bind_of_ok advance_run, List.tail_cons, expect_bind hEnd (by decide)]
  refine ⟨o, _, rfl, ho, ?_⟩
  rw [bind_of_ok hrun, expect_bind hEnd (by decide)]
  refine ⟨c, us, rfl, hc, ?_⟩
  rw [bind_of_ok current_run, kind_headD hEnd, hus]
  cases next <;> first | rfl | (cases hnext; done) | simp only [hheader rfl, if_pos]
  rfl

theorem fresh_completes {next : Kind} {w x op : Token} (hw : w.kind = .letWord)
    (hx : x.kind = .name) (hop : op.kind = .assign) (h : Completes ctx ts [n] .expression)
    (hnext : next.endsExpression = true) :
    Completes ctx (w :: x :: op :: ts)
      [.declaration (.leaf (.ofName x)) (.leaf (.ofOperator w)) n none] (.statement next) := by
  intro k us vs t hk hts hus _
  cases hts
  simp only [List.length_cons] at hk
  have hrun := h.run_zero hEnd (k := k) (r := us) (by omega) (by rw [hus]; exact hnext)
  refine ⟨_, rfl, ?_⟩
  simp only [List.cons_append]
  rw [statementAt, bind_of_ok second_run]
  simp only [hw]
  rw [letStatement, bind_of_ok current_run, bind_of_ok advance_run, List.tail_cons,
    expect_bind hEnd (by decide)]
  refine ⟨x, _, rfl, hx, ?_⟩
  rw [expect_bind hEnd (by decide)]
  refine ⟨op, _, rfl, hop, ?_⟩
  rw [bind_of_ok hrun]
  rfl

theorem assign_completes {next : Kind} {x op : Token} (hx : x.kind = .name)
    (hop : op.kind.isAssignment = true) (h : Completes ctx ts [n] .expression)
    (hnext : next.endsExpression = true) :
    Completes ctx (x :: op :: ts)
      [.declaration (.leaf (.ofName x)) (.leaf (.ofOperator op)) n none] (.statement next) := by
  intro k us vs t hk hts hus _
  cases hts
  simp only [List.length_cons] at hk
  have hrun := h.run_zero hEnd (k := k) (r := us) (by omega) (by rw [hus]; exact hnext)
  refine ⟨_, rfl, ?_⟩
  simp only [List.cons_append]
  rw [statementAt, bind_of_ok second_run]
  simp only [hx]
  rw [List.tail_cons, List.headD_cons, if_pos ⟨trivial, hop⟩, assignStatement,
    bind_of_ok current_run, bind_of_ok advance_run, bind_of_ok current_run, bind_of_ok advance_run]
  simp only [List.tail_cons]
  rw [bind_of_ok hrun]
  rfl

omit hEnd in
theorem conditional_completes {next : Kind} {w : Token} (hw : w.kind = .ifWord)
    (h : Completes ctx (w :: ts) [n] (.branch next)) :
    Completes ctx (w :: ts) [n] (.statement next) := by
  intro k us vs t hk hts hus _
  cases hts
  obtain ⟨m, hm, hrun⟩ := h (k := k) (r := us) (by omega) hus
  refine ⟨m, hm, ?_⟩
  rw [List.cons_append] at hrun ⊢
  rw [statementAt, bind_of_ok second_run]
  simp only [hw]
  exact hrun

theorem condition_run {k : Nat} {o c : Token} {word : String} (ho : o.kind = .openParen)
    (h : Completes ctx ts [n] .expression) (hc : c.kind = .closeParen)
    (hk : 2 * ts.length + 1 ≤ k) :
    condition ctx (descent k) word (o :: (ts ++ c :: us)) = .ok (n, us) := by
  have hrun := h.run_zero hEnd (k := k) (r := c :: us) (by omega)
    (by rw [Token.headKind_cons, hc]; rfl)
  rw [condition, expect_bind hEnd (by decide)]
  refine ⟨o, _, rfl, ho, ?_⟩
  rw [bind_of_ok hrun, expect_bind hEnd (by decide)]
  exact ⟨c, us, rfl, hc, rfl⟩

theorem while_completes {next : Kind} {w o c : Token} {bs : List Token}
    (hw : w.kind = .whileWord) (ho : o.kind = .openParen) (h : Completes ctx ts [n] .expression)
    (hc : c.kind = .closeParen) (hbs : Completes ctx bs ns .braced) :
    Completes ctx (w :: o :: (ts ++ c :: bs)) [.loop n (.block ns none) none]
      (.statement next) := by
  intro k us vs t hk hts _ _
  cases hts
  simp only [List.length_append, List.length_cons] at hk
  have happend : w :: o :: (ts ++ c :: bs) ++ us = w :: o :: (ts ++ c :: (bs ++ us)) := by simp
  refine ⟨_, rfl, ?_⟩
  rw [happend, statementAt, bind_of_ok second_run]
  simp only [hw]
  rw [whileStatement, bind_of_ok advance_run, List.tail_cons,
    bind_of_ok (condition_run hEnd ho h hc (by omega)), bind_of_ok (hbs (by omega))]
  rfl

omit hEnd in
theorem exit_completes {next : Kind} {w : Token} (hw : w.kind = .breakWord) :
    Completes ctx [w] [.exit none] (.statement next) := by
  intro k us vs t _ hts _ _
  cases hts
  refine ⟨_, rfl, ?_⟩
  rw [List.singleton_append, statementAt, bind_of_ok second_run]
  simp only [hw]
  rfl

omit hEnd in
theorem named_completes {next : Kind} {f x : Token} {ps bs : List Token} {xs : List Node}
    (hf : f.kind = .fnWord) (hx : x.kind = .name) (hps : Completes ctx ps xs .parameters)
    (hbs : Completes ctx bs ns .braced) : Completes ctx (f :: x :: (ps ++ bs))
      [.declaration (.leaf (.ofName x)) (.leaf .ofLet)
        (.function (.parameters xs none) (.block ns none) f.line) none] (.statement next) := by
  intro k us vs t hk hts _ _
  cases hts
  simp only [List.length_append, List.length_cons] at hk
  have hrun := functionRest_run (f := f) (r := us) hps hbs (k := k) (by omega)
  have happend : f :: x :: (ps ++ bs) ++ us = f :: x :: (ps ++ (bs ++ us)) := by simp
  refine ⟨_, rfl, ?_⟩
  rw [happend, statementAt, bind_of_ok second_run]
  simp only [hf]
  rw [List.tail_cons, List.headD_cons, if_neg (by simp), if_pos ⟨trivial, hx⟩, functionStatement,
    bind_of_ok current_run, bind_of_ok advance_run, bind_of_ok current_run, bind_of_ok advance_run]
  simp only [List.tail_cons, List.headD_cons]
  rw [bind_of_ok hrun]
  rfl

omit hEnd in
theorem statementAt_of_beginsExpression {t : Token} (ht : t.kind.beginsExpression = true) :
    statementAt ctx d t = (do
      let next ← second ctx
      if t.kind = .name ∧ next.kind.isAssignment then assignStatement ctx d
      else if t.kind = .fnWord ∧ next.kind = .name then functionStatement ctx d
      else return .expression (← d.expression ctx 0) none) := by
  unfold statementAt
  cases hk : t.kind <;> first | rfl | (rw [hk] at ht; cases ht)

theorem expression_completes {next : Kind} (h : Derives .expression ts [n])
    (hts : Completes ctx ts [n] .expression) (hassign : Token.beginsAssignment ts = false)
    (hnext : next.endsExpression = true) :
    Completes ctx ts [.expression n none] (.statement next) := by
  intro k us vs t hk hcons hus _
  obtain ⟨x, xs, rfl, hx, hfn⟩ := h.leads
  cases hcons
  have hrun := hts.run_zero hEnd (k := k) (r := us) hk (by rw [hus]; exact hnext)
  refine ⟨_, rfl, ?_⟩
  rw [List.cons_append] at hrun ⊢
  rw [statementAt_of_beginsExpression hx, bind_of_ok second_run, List.tail_cons, if_neg, if_neg,
    bind_of_ok hrun]
  · rfl
  · rintro ⟨hf, hname⟩
    obtain ⟨o, ys, rfl, ho⟩ := hfn hf
    rw [List.cons_append, List.headD_cons, ho] at hname
    cases hname
  · rintro ⟨hname, hop⟩
    cases vs with
    | nil =>
      rw [List.nil_append, kind_headD hEnd, hus] at hop
      cases next <;> first | (cases hop; done) | cases hnext
    | cons op vs =>
      rw [List.cons_append, List.headD_cons] at hop
      simp [Token.beginsAssignment, hname, hop] at hassign

/-! ## Branches -/

theorem noAlternative_completes {next : Kind} (hnext : next.continuesBranch = false) :
    Completes ctx [] [] (.alternative next) := by
  intro k us _ hus
  rw [List.nil_append, alternative, bind_of_ok current_run, kind_headD hEnd, hus, if_neg, if_neg]
  · rfl
  · rintro rfl
    cases hnext
  · rintro rfl
    cases hnext

omit hEnd in
theorem chained_completes {next : Kind} {w : Token} (hw : w.kind = .elifWord)
    (h : Completes ctx (w :: ts) [n] (.branch next)) :
    Completes ctx (w :: ts) [n] (.alternative next) := by
  intro k us hk hus
  obtain ⟨k, rfl⟩ := Nat.exists_eq_add_of_le' (show 1 ≤ k by omega)
  obtain ⟨m, hm, hrun⟩ := h (k := k) (r := us) (by omega) hus
  cases hm
  rw [List.cons_append] at hrun ⊢
  rw [alternative, bind_of_ok current_run, List.headD_cons, if_pos hw,
    bind_of_ok (p := (descent (k + 1)).branch ctx) hrun]
  rfl

omit hEnd in
theorem otherwise_completes {next : Kind} {w : Token} {bs : List Token} (hw : w.kind = .elseWord)
    (h : Completes ctx bs ns .braced) : Completes ctx (w :: bs) ns (.alternative next) := by
  intro k us hk _
  rw [List.length_cons] at hk
  rw [List.cons_append, alternative, bind_of_ok current_run, List.headD_cons, hw,
    if_neg (by decide), if_pos rfl, bind_of_ok advance_run, List.tail_cons]
  exact h (by omega)

theorem branch_completes {next : Kind} {w o c : Token} {bs es rs : List Token} {ms : List Node}
    (ho : o.kind = .openParen) (h : Completes ctx ts [n] .expression) (hc : c.kind = .closeParen)
    (hbs : Completes ctx bs ns .braced) (hes : AllNewlines es)
    (halt : Derives (.alternative next) rs ms) (hrs : Completes ctx rs ms (.alternative next)) :
    Completes ctx (w :: o :: (ts ++ c :: (bs ++ (es ++ rs))))
      [.branch n (.block ns none) (.block ms none) w.line] (.branch next) := by
  intro k us hk hus
  simp only [List.length_append, List.length_cons] at hk
  have happend : w :: o :: (ts ++ c :: (bs ++ (es ++ rs))) ++ us =
      w :: o :: (ts ++ c :: (bs ++ (es ++ (rs ++ us)))) := by simp
  have hnl : headKind (rs ++ us) .endOfInput ≠ .newline := by
    cases halt with
    | noAlternative hnext =>
      rw [List.nil_append, hus]
      rintro rfl
      cases hnext
    | chained hw _ | otherwise hw _ =>
      rw [List.cons_append, Token.headKind_cons, hw]
      decide
  refine ⟨_, rfl, ?_⟩
  rw [happend, branch, bind_of_ok current_run, bind_of_ok advance_run, List.tail_cons,
    List.headD_cons, bind_of_ok (condition_run hEnd ho h hc (by omega)),
    bind_of_ok (hbs (by omega)), skip_newlines_bind]
  refine ⟨es, _, hes, rfl, hnl, ?_⟩
  rw [bind_of_ok (hrs (by omega) hus)]
  rfl

/-! ## Headers -/

theorem noTest_completes : Completes ctx [] [.literal (.bool true) none] .test := by
  intro k us _ hus
  refine ⟨_, rfl, ?_⟩
  rw [List.nil_append, headerTest, bind_of_ok current_run, kind_headD hEnd, if_pos hus]
  rfl

theorem someTest_completes (h : Derives .expression ts [n])
    (hts : Completes ctx ts [n] .expression) : Completes ctx ts [n] .test := by
  intro k us hk hus
  have hrun := hts.run_zero hEnd (k := k) (r := us) (by omega) (by rw [hus]; rfl)
  obtain ⟨t, xs, rfl, ht, -⟩ := h.leads
  refine ⟨_, rfl, ?_⟩
  rw [headerTest, List.cons_append, bind_of_ok current_run, List.headD_cons, if_neg]
  · exact hrun
  · intro hk
    rw [hk] at ht
    cases ht

theorem noClause_completes {next : Kind} : Completes ctx [] [] (.clause next) := by
  intro k us _ hus
  refine ⟨none, rfl, ?_⟩
  rw [List.nil_append, clause, bind_of_ok current_run, kind_headD hEnd, if_pos hus]
  rfl

theorem someClause_completes {next : Kind} {ss : List Token} {t : Token} (hss : AllSeparators ss)
    (h : Derives (.statement next) (t :: ts) [n])
    (ht : Completes ctx.header (t :: ts) [n] (.statement next)) (hne : headKind ss t.kind ≠ next) :
    Completes ctx (ss ++ t :: ts) [n.atLine t.line] (.clause next) := by
  intro k us hk hus
  obtain ⟨k, rfl⟩ := Nat.exists_eq_add_of_le' (show 1 ≤ k by omega)
  simp only [List.length_append, List.length_cons] at hk
  obtain ⟨m, hm, hrun⟩ := ht (k := k) (r := us) (by rw [List.length_cons]; omega) rfl hus
    (fun _ => rfl)
  cases hm
  rw [List.cons_append] at hrun
  have hone := statement_run hss h.begins_statement hrun
  refine ⟨some (n.atLine t.line), rfl, ?_⟩
  rw [List.append_assoc, List.cons_append, clause, bind_of_ok current_run, kind_headD hEnd,
    Token.headKind_append, Token.headKind_cons, if_neg hne]
  exact hone

theorem for_completes {next : Kind} {w o s s' c : Token} {is rs bs : List Token} {test : Node}
    {init step : List Node} (hw : w.kind = .forWord) (ho : o.kind = .openParen)
    (his : Completes ctx is init (.clause .semicolon)) (hs : s.kind = .semicolon)
    (hts : Completes ctx ts [test] .test) (hs' : s'.kind = .semicolon)
    (hrs : Completes ctx rs step (.clause .closeParen)) (hc : c.kind = .closeParen)
    (hbs : Completes ctx bs ns .braced) :
    Completes ctx (w :: o :: (is ++ s :: (ts ++ s' :: (rs ++ c :: bs))))
      [.block (init ++ [.loop test (.block (ns ++ step) none) w.line]) none]
      (.statement next) := by
  intro k us vs t hk hcons _ _
  cases hcons
  simp only [List.length_append, List.length_cons] at hk
  have happend : w :: o :: (is ++ s :: (ts ++ s' :: (rs ++ c :: bs))) ++ us =
      w :: o :: (is ++ s :: (ts ++ s' :: (rs ++ c :: (bs ++ us)))) := by simp
  obtain ⟨init', rfl, hinit⟩ := his (k := k)
    (r := s :: (ts ++ s' :: (rs ++ c :: (bs ++ us)))) (by omega) hs
  obtain ⟨step', rfl, hstep⟩ := hrs (k := k) (r := c :: (bs ++ us)) (by omega) hc
  obtain ⟨m, hm, htest⟩ := hts (k := k) (r := s' :: (rs ++ c :: (bs ++ us))) (by omega) hs'
  cases hm
  refine ⟨_, rfl, ?_⟩
  rw [happend, statementAt, bind_of_ok second_run]
  simp only [hw]
  rw [forStatement, bind_of_ok current_run, bind_of_ok advance_run, List.tail_cons,
    expect_bind hEnd (by decide)]
  refine ⟨o, _, rfl, ho, ?_⟩
  rw [bind_of_ok hinit, expect_bind hEnd (by decide)]
  refine ⟨s, _, rfl, hs, ?_⟩
  rw [bind_of_ok htest, expect_bind hEnd (by decide)]
  refine ⟨s', _, rfl, hs', ?_⟩
  rw [bind_of_ok hstep, expect_bind hEnd (by decide)]
  refine ⟨c, _, rfl, hc, ?_⟩
  rw [bind_of_ok (hbs (by omega))]
  rfl

/-! ## All symbols -/

omit hEnd in
theorem completes {symbol : Symbol} (h : Derives symbol ts ns) :
    ∀ ctx : Context, ctx.endToken.kind = .endOfInput → Completes ctx ts ns symbol := by
  induction h with
  | tighten hs _ ih => exact fun ctx hEnd => tighten_completes hs (ih ctx hEnd)
  | binary _ hop _ ihl ihr =>
    exact fun ctx hEnd => binary_completes hEnd hop (ihl ctx hEnd) (ihr ctx hEnd)
  | unary hop _ ih => exact fun ctx hEnd => unary_completes hEnd hop (ih ctx hEnd)
  | chain _ ih => exact fun ctx hEnd => chain_completes (ih ctx hEnd)
  | primary _ ih => exact fun ctx hEnd => primary_completes (ih ctx hEnd)
  | index _ ho _ hc iha ihb =>
    exact fun ctx hEnd => index_completes hEnd (iha ctx hEnd) ho (ihb ctx hEnd) hc
  | datum ht => exact fun _ _ => datum_completes ht
  | truth ht => exact fun _ _ => truth_completes ht
  | falsehood ht => exact fun _ _ => falsehood_completes ht
  | name ht => exact fun ctx hEnd => name_completes hEnd ht
  | call hf h ih => exact fun ctx hEnd => call_completes hEnd hf h (ih ctx hEnd)
  | group ho _ hc ih => exact fun ctx hEnd => group_completes hEnd ho (ih ctx hEnd) hc
  | array h ih => exact fun ctx hEnd => array_completes h (ih ctx hEnd)
  | function hf _ _ ihp ihb =>
    exact fun ctx hEnd => function_completes hf (ihp ctx hEnd) (ihb ctx hEnd)
  | bracketed ho hes h hc ih =>
    exact fun ctx hEnd => bracketed_completes hEnd ho hes h (ih ctx hEnd) hc
  | noItems => exact fun ctx hEnd => noItems_completes hEnd
  | lastItem h hes ih => exact fun ctx hEnd => lastItem_completes hEnd h (ih ctx hEnd) hes
  | moreItems h hes hc hfs h' ih ih' =>
    exact fun ctx hEnd => moreItems_completes hEnd h (ih ctx hEnd) hes hc hfs h' (ih' ctx hEnd)
  | parameters ho _ hc ih => exact fun ctx hEnd => parameters_completes hEnd ho (ih ctx hEnd) hc
  | noNames => exact fun ctx hEnd => noNames_completes hEnd
  | lastName hx => exact fun ctx hEnd => lastName_completes hEnd hx
  | moreNames hx hc _ _ ih => exact fun ctx hEnd => moreNames_completes hEnd hx hc (ih ctx hEnd)
  | braced hes ho _ hc ih => exact fun ctx hEnd => braced_completes hEnd hes ho (ih ctx hEnd) hc
  | noStatements _ hss => exact fun ctx hEnd => noStatements_completes hEnd hss
  | moreStatements hss h h' ih ih' =>
    exact fun ctx hEnd => moreStatements_completes hss h (ih ctx hEnd) h' (ih' ctx hEnd)
  | block ho _ ih => exact fun ctx hEnd => block_completes ho (ih ctx hEnd)
  | print hw ho _ hc hnext ih =>
    exact fun ctx hEnd => print_completes hEnd hw ho (ih ctx hEnd) hc hnext
  | fresh hw hx hop _ hnext ih =>
    exact fun ctx hEnd => fresh_completes hEnd hw hx hop (ih ctx hEnd) hnext
  | assign hx hop _ hnext ih =>
    exact fun ctx hEnd => assign_completes hEnd hx hop (ih ctx hEnd) hnext
  | conditional hw _ ih => exact fun ctx hEnd => conditional_completes hw (ih ctx hEnd)
  | «while» hw ho _ hc _ ih ihb =>
    exact fun ctx hEnd => while_completes hEnd hw ho (ih ctx hEnd) hc (ihb ctx hEnd)
  | «for» hw ho _ hs _ hs' _ hc _ ihi iht ihr ihb =>
    exact fun ctx hEnd =>
      for_completes hEnd hw ho (ihi ctx hEnd) hs (iht ctx hEnd) hs' (ihr ctx hEnd) hc (ihb ctx hEnd)
  | exit hw => exact fun _ _ => exit_completes hw
  | named hf hx _ _ ihp ihb =>
    exact fun ctx hEnd => named_completes hf hx (ihp ctx hEnd) (ihb ctx hEnd)
  | expression h hassign hnext ih =>
    exact fun ctx hEnd => expression_completes hEnd h (ih ctx hEnd) hassign hnext
  | branch ho _ hc _ hes halt ih ihb iha =>
    exact fun ctx hEnd =>
      branch_completes hEnd ho (ih ctx hEnd) hc (ihb ctx hEnd) hes halt (iha ctx hEnd)
  | noAlternative hnext => exact fun ctx hEnd => noAlternative_completes hEnd hnext
  | chained hw _ ih => exact fun ctx hEnd => chained_completes hw (ih ctx hEnd)
  | otherwise hw _ ih => exact fun ctx hEnd => otherwise_completes hw (ih ctx hEnd)
  | noTest => exact fun ctx hEnd => noTest_completes hEnd
  | someTest h ih => exact fun ctx hEnd => someTest_completes hEnd h (ih ctx hEnd)
  | noClause => exact fun ctx hEnd => noClause_completes hEnd
  | someClause hss h hne ih =>
    exact fun ctx hEnd => someClause_completes hEnd hss h (ih ctx.header hEnd) hne

end Parser

end ScopeScript
