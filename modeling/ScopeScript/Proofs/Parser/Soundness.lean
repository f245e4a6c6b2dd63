import ScopeScript.Proofs.Parser.Power

/-!
# What the parser accepts is derivable

Each parser is followed under the assumption that the parsers one level down
only accept what the grammar derives. In the loop over operators the left
operand is derivable for every operator that may come next: the right operand
before it has ended in front of this operator, so it binds no more tightly.
-/

namespace ScopeScript

open Token (headKind AllNewlines AllSeparators)

/-- A prefix operator with the expression that it binds. -/
def IsPrefixed (ts : List Token) (n : Node) : Prop :=
  ∃ op us a, ts = op :: us ∧ (op.kind = .minus ∨ op.kind = .bang) ∧
    Derives (.level .prefixed) us [a] ∧ n = .unary (.ofOperator op) a op.line

def IsOperand (ts : List Token) (n : Node) : Prop :=
  Derives .primary ts [n] ∨ IsPrefixed ts n

/-- The expressions whose outermost operators have at least the given power. -/
def DerivesAbove (m : Nat) (ts : List Token) (n : Node) : Prop :=
  if m ≤ Kind.indexPower then Derives (.level (.ofPower m)) ts [n] else IsOperand ts n

theorem IsOperand.derives {ts : List Token} {n : Node} (h : IsOperand ts n) :
    Derives (.level .prefixed) ts [n] := by
  rcases h with h | ⟨op, us, a, rfl, hop, h, rfl⟩
  · exact .chain (.primary h)
  · exact .unary hop h

theorem IsOperand.derivesAbove {ts : List Token} {n : Node} (h : IsOperand ts n) (m : Nat) :
    DerivesAbove m ts n := by
  unfold DerivesAbove
  split
  next hm => exact .loosen (Stratum.power_le_indexPower _) h.derives
  next => exact h

theorem derivesAbove_of_level {s : Stratum} {m : Nat} {ts : List Token} {n : Node}
    (hm : m ≤ s.power) (h : Derives (.level s) ts [n]) : DerivesAbove m ts n := by
  rw [DerivesAbove, if_pos (Nat.le_trans hm s.power_le_indexPower)]
  exact .loosen (Stratum.power_ofPower_le hm) h

theorem derivesAbove_succ {s : Stratum} {ts : List Token} {n : Node} (hs : s ≠ .prefixed) :
    DerivesAbove (s.power + 1) ts n ↔ Derives (.level s.tighter) ts [n] := by
  have hle : s.power + 1 ≤ Kind.indexPower :=
    Nat.lt_of_lt_of_le (Stratum.power_lt_tighter hs) s.tighter.power_le_indexPower
  rw [DerivesAbove, if_pos hle, Stratum.ofPower_succ]

theorem derivesAbove_zero {ts : List Token} {n : Node} :
    DerivesAbove 0 ts n ↔ Derives .expression ts [n] := Iff.rfl

theorem derivesAbove_minus {ts : List Token} {n : Node} :
    DerivesAbove Kind.minusPower ts n ↔ Derives (.level .prefixed) ts [n] := Iff.rfl

theorem derivesAbove_bang {ts : List Token} {n : Node} :
    DerivesAbove Kind.bangPower ts n ↔ Derives (.level .prefixed) ts [n] := Iff.rfl

namespace Parser

/-- What a statement parser has read when it returns `o` and leaves `us`. -/
def ReadStatement (ts : List Token) : Option Node → List Token → Prop
  | none, us => ∃ ss, AllSeparators ss ∧ ts = ss ++ us ∧ (headKind us .endOfInput).endsBlock
  | some n, us => ∃ ss t vs m, AllSeparators ss ∧ ts = ss ++ t :: (vs ++ us) ∧
      Derives (.statement (headKind us .endOfInput)) (t :: vs) [m] ∧ n = m.atLine t.line

structure Descent.Sound (d : Descent) : Prop where
  statement : ∀ {ctx : Context} {ts us : List Token} {o : Option Node},
    ctx.endToken.kind = .endOfInput → d.statement ctx ts = .ok (o, us) → ReadStatement ts o us
  branch : ∀ {ctx : Context} {ts us : List Token} {n : Node},
    ctx.endToken.kind = .endOfInput → d.branch ctx ts = .ok (n, us) →
    ∃ w vs, ts = w :: (vs ++ us) ∧ Derives (.branch (headKind us .endOfInput)) (w :: vs) [n]
  expression : ∀ {ctx : Context} {ts us : List Token} {n : Node} {m : Nat},
    ctx.endToken.kind = .endOfInput → d.expression ctx m ts = .ok (n, us) →
    ∃ vs, ts = vs ++ us ∧ DerivesAbove m vs n ∧ (headKind us .endOfInput).Stops m

theorem Descent.bottom_sound : Descent.bottom.Sound where
  statement _ h := absurd h throw_ne_ok
  branch _ h := absurd h throw_ne_ok
  expression _ h := absurd h throw_ne_ok

/-- What the loop over operators knows of its left operand `n`, which stands for `vs`, in
front of a token of kind `k`. -/
structure LeftOperand (m : Nat) (vs : List Token) (n : Node) (k : Kind) : Prop where
  above : DerivesAbove m vs n
  chain : k = .openBracket → Derives .chain vs [n]
  level : ∀ s : Stratum, k ∈ s.operators → Derives (.level s) vs [n]

theorem LeftOperand.of_stops {s : Stratum} {m : Nat} {vs : List Token} {n : Node} {k : Kind}
    (hm : m ≤ s.power) (hs : s ≠ .prefixed) (h : Derives (.level s) vs [n])
    (hk : k.Stops (s.power + 1)) : LeftOperand m vs n k where
  above := derivesAbove_of_level hm h
  chain hbracket := by
    have hle : s.power + 1 ≤ Kind.indexPower :=
      Nat.lt_of_lt_of_le (Stratum.power_lt_tighter hs) s.tighter.power_le_indexPower
    exact absurd hbracket (hk.not_openBracket hle)
  level s' hs' := by
    refine .loosen (r := s) ?_ h
    have hp := Kind.infixPower?_eq_some_iff.mpr ⟨s', hs', rfl⟩
    rcases hk with hends | ⟨p, hp', hlt⟩ | ⟨rfl, -⟩
    · rw [Kind.infixPower?_of_endsExpression hends] at hp
      cases hp
    · rw [hp, Option.some.injEq] at hp'
      omega
    · cases hp

theorem LeftOperand.of_chain {m : Nat} {vs : List Token} {n : Node} {k : Kind}
    (hm : m ≤ Kind.indexPower) (h : Derives .chain vs [n]) : LeftOperand m vs n k where
  above := derivesAbove_of_level (s := .prefixed) hm (.chain h)
  chain _ := h
  level s _ := .loosen (r := .prefixed) s.power_le_indexPower (.chain h)

theorem LeftOperand.of_operand {m : Nat} {vs : List Token} {n : Node} {k : Kind}
    (h : Derives .primary vs [n] ∨ (IsPrefixed vs n ∧ k.Stops Kind.bangPower)) :
    LeftOperand m vs n k := by
  have hop : IsOperand vs n := h.imp_right And.left
  refine ⟨hop.derivesAbove m, ?_, fun s _ => ?_⟩
  · rintro rfl
    rcases h with h | ⟨-, hstop⟩
    · exact .primary h
    · exact absurd rfl (hstop.not_openBracket (by decide))
  · exact .loosen (r := .prefixed) s.power_le_indexPower hop.derives

variable {ctx : Context} {d : Descent} {ts us : List Token} {ns : List Node} {n : Node}
  (hEnd : ctx.endToken.kind = .endOfInput) (hd : d.Sound)
include hEnd

/-! ## Lists -/

include hd in
theorem items_sound {close : Kind} {fuel : Nat}
    (h : items ctx d close fuel ts = .ok (ns, us)) :
    ∃ vs, ts = vs ++ us ∧ Derives .items vs ns := by
  induction fuel generalizing ts ns with
  | zero => exact absurd h throw_ne_ok
  | succ fuel ih =>
    rw [items, bind_of_ok current_run, ite_eq_ok] at h
    rcases h with ⟨-, h⟩ | ⟨-, h⟩
    · obtain ⟨rfl, rfl⟩ := pure_eq_ok.mp h
      exact ⟨[], rfl, .noItems⟩
    · rw [bind_eq_ok] at h
      obtain ⟨n, xs, hn, h⟩ := h
      obtain ⟨vs, rfl, hvs, -⟩ := hd.expression hEnd hn
      rw [skip_newlines_bind] at h
      obtain ⟨es, ys, hes, rfl, -, h⟩ := h
      rw [accept_bind hEnd (by decide)] at h
      rcases h with ⟨c, zs, rfl, hc, h⟩ | ⟨-, h⟩
      · rw [skip_newlines_bind] at h
        obtain ⟨fs, ws, hfs, rfl, -, h⟩ := h
        rw [bind_eq_ok] at h
        obtain ⟨ms, _, hms, h⟩ := h
        obtain ⟨rfl, rfl⟩ := pure_eq_ok.mp h
        obtain ⟨xs, rfl, hxs⟩ := ih hms
        exact ⟨vs ++ (es ++ c :: (fs ++ xs)), by simp, .moreItems hvs hes hc hfs hxs⟩
      · obtain ⟨rfl, rfl⟩ := pure_eq_ok.mp h
        exact ⟨vs ++ es, by simp, .lastItem hvs hes⟩

include hd in
theorem enclosed_sound {opening close : Kind} {what : Expectation} {o : Token}
    (ho : o.kind = opening) (hclose : close ≠ .endOfInput)
    (h : enclosed ctx d close what (o :: ts) = .ok (ns, us)) :
    ∃ vs, o :: ts = vs ++ us ∧ Derives (.bracketed opening close) vs ns := by
  rw [enclosed, bind_of_ok advance_run, skip_newlines_bind] at h
  obtain ⟨es, xs, hes, hts, -, h⟩ := h
  rw [bind_of_ok get_run, bind_eq_ok] at h
  obtain ⟨ms, ys, hms, h⟩ := h
  obtain ⟨vs, rfl, hvs⟩ := items_sound hEnd hd hms
  rw [expect_bind hEnd hclose] at h
  obtain ⟨c, zs, rfl, hc, h⟩ := h
  obtain ⟨rfl, rfl⟩ := pure_eq_ok.mp h
  rw [List.tail_cons] at hts
  exact ⟨o :: (es ++ (vs ++ [c])), by simp [hts], .bracketed ho hes hvs hc⟩

theorem parameterNames_sound {fuel : Nat} (h : parameterNames ctx fuel ts = .ok (ns, us)) :
    ∃ vs, ts = vs ++ us ∧ Derives .names vs ns := by
  induction fuel generalizing ts ns with
  | zero => exact absurd h throw_ne_ok
  | succ fuel ih =>
    rw [parameterNames, bind_of_ok current_run, ite_eq_ok] at h
    rcases h with ⟨-, h⟩ | ⟨-, h⟩
    · obtain ⟨rfl, rfl⟩ := pure_eq_ok.mp h
      exact ⟨[], rfl, .noNames⟩
    · rw [expect_bind hEnd (by decide)] at h
      obtain ⟨x, xs, rfl, hx, h⟩ := h
      rw [accept_bind hEnd (by decide)] at h
      rcases h with ⟨c, ys, rfl, hc, h⟩ | ⟨-, h⟩
      · rw [bind_eq_ok] at h
        obtain ⟨ms, _, hms, h⟩ := h
        obtain ⟨rfl, rfl⟩ := pure_eq_ok.mp h
        obtain ⟨vs, rfl, hvs⟩ := ih hms
        exact ⟨x :: c :: vs, rfl, .moreNames hx hc (fun _ => rfl) hvs⟩
      · obtain ⟨rfl, rfl⟩ := pure_eq_ok.mp h
        exact ⟨[x], rfl, .lastName hx⟩

theorem parameterList_sound (h : parameterList ctx ts = .ok (n, us)) :
    ∃ vs xs, ts = vs ++ us ∧ Derives .parameters vs xs ∧ n = .parameters xs none := by
  rw [parameterList, expect_bind hEnd (by decide)] at h
  obtain ⟨o, xs, rfl, ho, h⟩ := h
  rw [bind_of_ok get_run, bind_eq_ok] at h
  obtain ⟨ms, ys, hms, h⟩ := h
  obtain ⟨vs, rfl, hvs⟩ := parameterNames_sound hEnd hms
  rw [expect_bind hEnd (by decide)] at h
  obtain ⟨c, zs, rfl, hc, h⟩ := h
  obtain ⟨rfl, rfl⟩ := pure_eq_ok.mp h
  exact ⟨o :: (vs ++ [c]), ms, by simp, .parameters ho hvs hc, rfl⟩

/-! ## Blocks -/

include hd in
theorem statements_sound {fuel : Nat} (h : statements ctx d fuel ts = .ok (ns, us)) :
    ∃ vs, ts = vs ++ us ∧ Derives (.statements (headKind us .endOfInput)) vs ns := by
  induction fuel generalizing ts ns with
  | zero => exact absurd h throw_ne_ok
  | succ fuel ih =>
    rw [statements, bind_eq_ok] at h
    obtain ⟨o, xs, ho, h⟩ := h
    have hread := hd.statement hEnd ho
    cases o with
    | none =>
      obtain ⟨rfl, rfl⟩ := pure_eq_ok.mp h
      obtain ⟨ss, hss, rfl, hnext⟩ := hread
      exact ⟨ss, rfl, .noStatements hnext hss⟩
    | some n =>
      simp only [bind_eq_ok, pure_eq_ok] at h
      obtain ⟨ms, _, hms, rfl, rfl⟩ := h
      obtain ⟨ss, t, vs, m, hss, rfl, hm, rfl⟩ := hread
      obtain ⟨ws, rfl, hws⟩ := ih hms
      rw [Token.headKind_append] at hm
      exact ⟨ss ++ t :: (vs ++ ws), by simp, .moreStatements hss hm hws⟩

include hd in
theorem braced_sound (h : braced ctx d ts = .ok (ns, us)) :
    ∃ vs, ts = vs ++ us ∧ Derives .braced vs ns := by
  rw [braced, skip_newlines_bind] at h
  obtain ⟨es, xs, hes, rfl, -, h⟩ := h
  rw [bind_of_ok current_run, expect_bind hEnd (by decide)] at h
  obtain ⟨o, ys, rfl, ho, h⟩ := h
  rw [blockBody, bind_eq_ok] at h
  obtain ⟨ms, zs, hms, h⟩ := h
  obtain ⟨vs, rfl, hvs⟩ := statements_sound hEnd hd hms
  rw [bind_of_ok current_run, expect_bind hEnd (by decide)] at h
  obtain ⟨c, ws, rfl, hc, h⟩ := h
  obtain ⟨rfl, rfl⟩ := pure_eq_ok.mp h
  rw [Token.headKind_cons, hc] at hvs
  exact ⟨es ++ o :: (vs ++ [c]), by simp, .braced hes ho hvs hc⟩

include hd in
theorem functionRest_sound {f : Token} (h : functionRest ctx d f ts = .ok (n, us)) :
    ∃ ps bs xs ms, ts = ps ++ (bs ++ us) ∧ Derives .parameters ps xs ∧ Derives .braced bs ms ∧
      n = .function (.parameters xs none) (.block ms none) f.line := by
  rw [functionRest, bind_eq_ok] at h
  obtain ⟨p, ys, hp, h⟩ := h
  obtain ⟨ps, xs, rfl, hps, rfl⟩ := parameterList_sound hEnd hp
  rw [bind_eq_ok] at h
  obtain ⟨ms, zs, hms, h⟩ := h
  obtain ⟨bs, rfl, hbs⟩ := braced_sound hEnd hd hms
  obtain ⟨rfl, rfl⟩ := pure_eq_ok.mp h
  exact ⟨ps, bs, xs, ms, rfl, hps, hbs, rfl⟩

/-! ## Expressions -/

include hd in
theorem operand_sound (h : operand ctx d ts = .ok (n, us)) :
    ∃ vs, ts = vs ++ us ∧ (Derives .primary vs [n] ∨
      (IsPrefixed vs n ∧ (headKind us .endOfInput).Stops Kind.bangPower)) := by
  rw [operand, bind_of_ok current_run] at h
  cases ts with
  | nil =>
    rw [List.headD_nil, hEnd] at h
    exact absurd h failAt_ne_ok
  | cons t ts =>
    rw [List.headD_cons] at h
    cases ht : t.kind <;> simp only [ht] at h
    case number | string =>
      obtain ⟨rfl, rfl⟩ := pure_eq_ok.mp h
      exact ⟨[t], rfl, .inl (.datum (by simp [ht]))⟩
    case trueWord =>
      obtain ⟨rfl, rfl⟩ := pure_eq_ok.mp h
      exact ⟨[t], rfl, .inl (.truth ht)⟩
    case falseWord =>
      obtain ⟨rfl, rfl⟩ := pure_eq_ok.mp h
      exact ⟨[t], rfl, .inl (.falsehood ht)⟩
    case name =>
      rw [bind_of_ok advance_run, bind_of_ok current_run, ite_eq_ok, kind_headD hEnd] at h
      rcases h with ⟨ho, h⟩ | ⟨-, h⟩
      · obtain ⟨o, xs, hxs, ho⟩ := Token.eq_cons_of_headKind ho (by decide)
        rw [hxs, bind_eq_ok] at h
        obtain ⟨ns, ys, hns, h⟩ := h
        obtain ⟨rfl, rfl⟩ := pure_eq_ok.mp h
        obtain ⟨vs, hvs, hlist⟩ := enclosed_sound hEnd hd ho (by decide) hns
        rw [List.tail_cons] at hxs
        exact ⟨t :: vs, by rw [hxs, hvs]; rfl, .inl (.call ht hlist)⟩
      · obtain ⟨rfl, rfl⟩ := pure_eq_ok.mp h
        exact ⟨[t], rfl, .inl (.name ht)⟩
    case openParen =>
      rw [bind_of_ok advance_run, bind_eq_ok] at h
      obtain ⟨a, xs, ha, h⟩ := h
      obtain ⟨vs, hts, hvs, -⟩ := hd.expression hEnd ha
      rw [accept_bind hEnd (by decide)] at h
      rcases h with ⟨c, ys, rfl, hc, h⟩ | ⟨-, h⟩
      · obtain ⟨rfl, rfl⟩ := pure_eq_ok.mp h
        rw [List.tail_cons] at hts
        exact ⟨t :: (vs ++ [c]), by simp [hts], .inl (.group ht hvs hc)⟩
      · exact absurd h failAt_ne_ok
    case openBracket =>
      rw [bind_eq_ok] at h
      obtain ⟨ns, ys, hns, h⟩ := h
      obtain ⟨rfl, rfl⟩ := pure_eq_ok.mp h
      obtain ⟨vs, hvs, hlist⟩ := enclosed_sound hEnd hd ht (by decide) hns
      exact ⟨vs, hvs, .inl (.array hlist)⟩
    case fnWord =>
      rw [bind_of_ok advance_run] at h
      obtain ⟨ps, bs, xs, ms, hts, hps, hbs, rfl⟩ := functionRest_sound hEnd hd h
      rw [List.tail_cons] at hts
      exact ⟨t :: (ps ++ bs), by simp [hts], .inl (.function ht hps hbs)⟩
    case minus =>
      rw [bind_of_ok advance_run, bind_eq_ok] at h
      obtain ⟨a, xs, ha, h⟩ := h
      obtain ⟨rfl, rfl⟩ := pure_eq_ok.mp h
      obtain ⟨vs, hts, hvs, hstop⟩ := hd.expression hEnd ha
      rw [List.tail_cons] at hts
      exact ⟨t :: vs, by simp [hts],
        .inr ⟨⟨t, vs, a, rfl, .inl ht, derivesAbove_minus.mp hvs, rfl⟩,
          hstop.mono (by decide)⟩⟩
    case bang =>
      rw [bind_of_ok advance_run, bind_eq_ok] at h
      obtain ⟨a, xs, ha, h⟩ := h
      obtain ⟨rfl, rfl⟩ := pure_eq_ok.mp h
      obtain ⟨vs, hts, hvs, hstop⟩ := hd.expression hEnd ha
      rw [List.tail_cons] at hts
      exact ⟨t :: vs, by simp [hts],
        .inr ⟨⟨t, vs, a, rfl, .inr ht, derivesAbove_bang.mp hvs, rfl⟩, hstop⟩⟩
    all_goals exact absurd h failAt_ne_ok

include hd in
theorem operators_sound {m fuel : Nat} {left : Node} {vs : List Token}
    (hleft : LeftOperand m vs left (headKind ts .endOfInput))
    (h : operators ctx d m fuel left ts = .ok (n, us)) :
    ∃ ws, ts = ws ++ us ∧ DerivesAbove m (vs ++ ws) n ∧ (headKind us .endOfInput).Stops m := by
  induction fuel generalizing ts left vs with
  | zero => exact absurd h throw_ne_ok
  | succ fuel ih =>
    rw [operators, bind_of_ok current_run, ite_eq_ok, kind_headD hEnd] at h
    rcases h with ⟨hends, h⟩ | ⟨-, h⟩
    · obtain ⟨rfl, rfl⟩ := pure_eq_ok.mp h
      exact ⟨[], rfl, by simpa using hleft.above, .inl hends⟩
    rw [ite_eq_ok] at h
    rcases h with ⟨ho, h⟩ | ⟨-, h⟩
    · rw [ite_eq_ok] at h
      rcases h with ⟨hlt, h⟩ | ⟨hle, h⟩
      · obtain ⟨rfl, rfl⟩ := pure_eq_ok.mp h
        exact ⟨[], rfl, by simpa using hleft.above, .inr (.inr ⟨ho, hlt⟩)⟩
      have hchain := hleft.chain ho
      obtain ⟨o, xs, rfl, ho⟩ := Token.eq_cons_of_headKind ho (by decide)
      rw [bind_of_ok advance_run, bind_eq_ok] at h
      obtain ⟨b, ys, hb, h⟩ := h
      obtain ⟨ps, hxs, hps, -⟩ := hd.expression hEnd hb
      rw [expect_bind hEnd (by decide)] at h
      obtain ⟨c, zs, rfl, hc, h⟩ := h
      have hindex := Grammar.index hchain ho hps hc
      obtain ⟨ws, rfl, hws, hstop⟩ := ih (.of_chain (Nat.not_lt.mp hle) hindex) h
      rw [List.tail_cons] at hxs
      exact ⟨o :: (ps ++ c :: ws), by simp [hxs], by simpa using hws, hstop⟩
    · cases hp : (headKind ts .endOfInput).infixPower? with
      | none =>
        simp only [hp] at h
        exact absurd h failAt_ne_ok
      | some p =>
        simp only [hp] at h
        rw [ite_eq_ok] at h
        rcases h with ⟨hlt, h⟩ | ⟨hle, h⟩
        · obtain ⟨rfl, rfl⟩ := pure_eq_ok.mp h
          exact ⟨[], rfl, by simpa using hleft.above, .inr (.inl ⟨p, hp, hlt⟩)⟩
        obtain ⟨s, hs, rfl⟩ := Kind.infixPower?_eq_some_iff.mp hp
        have hlevel := hleft.level s hs
        obtain ⟨op, xs, rfl, hop⟩ := Token.eq_cons_of_headKind rfl (k := headKind ts .endOfInput)
          (by intro hend; rw [hend] at hp; cases hp)
        rw [bind_of_ok advance_run, bind_eq_ok] at h
        obtain ⟨b, ys, hb, h⟩ := h
        obtain ⟨rs, hxs, hrs, hstop⟩ := hd.expression hEnd hb
        have hne := Stratum.operators_prefixed_ne hs
        have hbinary := Grammar.binary hlevel hs ((derivesAbove_succ hne).mp hrs)
        obtain ⟨ws, rfl, hws, hstop⟩ := ih (.of_stops (Nat.not_lt.mp hle) hne hbinary hstop) h
        rw [List.tail_cons] at hxs
        exact ⟨op :: (rs ++ ws), by simp [hxs], by simpa using hws, hstop⟩

include hd in
theorem expression_sound {m : Nat} (h : expression ctx d m ts = .ok (n, us)) :
    ∃ vs, ts = vs ++ us ∧ DerivesAbove m vs n ∧ (headKind us .endOfInput).Stops m := by
  rw [expression, bind_eq_ok] at h
  obtain ⟨left, xs, hleft, h⟩ := h
  rw [bind_of_ok get_run] at h
  obtain ⟨vs, rfl, hvs⟩ := operand_sound hEnd hd hleft
  obtain ⟨ws, rfl, hws, hstop⟩ := operators_sound hEnd hd (.of_operand hvs) h
  exact ⟨vs ++ ws, by simp, hws, hstop⟩

/-! ## Statements -/

/-- What a parser of one statement has read, when the statement begins with `t`. -/
def ReadsStatement (t : Token) (ts us : List Token) (n : Node) : Prop :=
  ∃ vs, ts = vs ++ us ∧ Derives (.statement (headKind us .endOfInput)) (t :: vs) [n]

include hd in
theorem printStatement_sound {w : Token} (hw : w.kind = .printWord)
    (h : printStatement ctx d (w :: ts) = .ok (n, us)) : ReadsStatement w ts us n := by
  rw [printStatement, bind_of_ok advance_run, expect_bind hEnd (by decide)] at h
  obtain ⟨o, xs, hts, ho, h⟩ := h
  rw [bind_eq_ok] at h
  obtain ⟨a, ys, ha, h⟩ := h
  obtain ⟨vs, rfl, hvs, -⟩ := hd.expression hEnd ha
  rw [expect_bind hEnd (by decide)] at h
  obtain ⟨c, zs, rfl, hc, h⟩ := h
  rw [bind_of_ok current_run, kind_headD hEnd] at h
  have hnext : n = .print a none ∧ us = zs ∧ (headKind zs .endOfInput).endsPrint := by
    cases hk : headKind zs .endOfInput <;> simp only [hk] at h <;>
      first
      | exact absurd h failAt_ne_ok
      | skip
    case closeParen =>
      rw [ite_eq_ok] at h
      rcases h with ⟨-, h⟩ | ⟨-, h⟩
      · exact ⟨(pure_eq_ok.mp h).1, (pure_eq_ok.mp h).2, rfl⟩
      · exact absurd h failAt_ne_ok
    all_goals exact ⟨(pure_eq_ok.mp h).1, (pure_eq_ok.mp h).2, rfl⟩
  obtain ⟨rfl, rfl, hnext⟩ := hnext
  rw [List.tail_cons] at hts
  exact ⟨o :: (vs ++ [c]), by simp [hts], .print hw ho hvs hc hnext⟩

include hd in
theorem letStatement_sound {w : Token} (hw : w.kind = .letWord)
    (h : letStatement ctx d (w :: ts) = .ok (n, us)) : ReadsStatement w ts us n := by
  rw [letStatement, bind_of_ok current_run, bind_of_ok advance_run,
    expect_bind hEnd (by decide)] at h
  obtain ⟨x, xs, hts, hx, h⟩ := h
  rw [expect_bind hEnd (by decide)] at h
  obtain ⟨op, ys, rfl, hop, h⟩ := h
  rw [bind_eq_ok] at h
  obtain ⟨a, zs, ha, h⟩ := h
  obtain ⟨vs, rfl, hvs, hstop⟩ := hd.expression hEnd ha
  obtain ⟨rfl, rfl⟩ := pure_eq_ok.mp h
  rw [List.tail_cons] at hts
  exact ⟨x :: op :: vs, by simp [hts], .fresh hw hx hop hvs (Kind.stops_zero.mp hstop)⟩

include hd in
theorem assignStatement_sound {x : Token} (hx : x.kind = .name)
    (hop : (headKind ts .endOfInput).isAssignment)
    (h : assignStatement ctx d (x :: ts) = .ok (n, us)) : ReadsStatement x ts us n := by
  obtain ⟨op, xs, rfl, -⟩ := Token.eq_cons_of_headKind rfl (k := headKind ts .endOfInput)
    (by intro hend; rw [hend] at hop; cases hop)
  rw [assignStatement, bind_of_ok current_run, bind_of_ok advance_run, bind_of_ok current_run,
    bind_of_ok advance_run, bind_eq_ok] at h
  obtain ⟨a, zs, ha, h⟩ := h
  obtain ⟨vs, hxs, hvs, hstop⟩ := hd.expression hEnd ha
  obtain ⟨rfl, rfl⟩ := pure_eq_ok.mp h
  simp only [List.tail_cons] at hxs
  exact ⟨op :: vs, by simp [hxs], .assign hx hop hvs (Kind.stops_zero.mp hstop)⟩

include hd in
theorem condition_sound {word : String} (h : condition ctx d word ts = .ok (n, us)) :
    ∃ o vs c, ts = o :: (vs ++ c :: us) ∧ o.kind = .openParen ∧ Derives .expression vs [n] ∧
      c.kind = .closeParen := by
  rw [condition, expect_bind hEnd (by decide)] at h
  obtain ⟨o, xs, rfl, ho, h⟩ := h
  rw [bind_eq_ok] at h
  obtain ⟨a, ys, ha, h⟩ := h
  obtain ⟨vs, rfl, hvs, -⟩ := hd.expression hEnd ha
  rw [expect_bind hEnd (by decide)] at h
  obtain ⟨c, zs, rfl, hc, h⟩ := h
  obtain ⟨rfl, rfl⟩ := pure_eq_ok.mp h
  exact ⟨o, vs, c, rfl, ho, hvs, hc⟩

include hd in
theorem alternative_sound (hnl : headKind ts .endOfInput ≠ .newline)
    (h : alternative ctx d ts = .ok (ns, us)) :
    ∃ vs, ts = vs ++ us ∧ Derives (.alternative (headKind us .endOfInput)) vs ns := by
  rw [alternative, bind_of_ok current_run, kind_headD hEnd, ite_eq_ok] at h
  rcases h with ⟨helif, h⟩ | ⟨helif, h⟩
  · rw [bind_eq_ok] at h
    obtain ⟨m, _, hm, h⟩ := h
    obtain ⟨rfl, rfl⟩ := pure_eq_ok.mp h
    obtain ⟨e, fs, rfl, hfs⟩ := hd.branch hEnd hm
    exact ⟨e :: fs, rfl, .chained helif hfs⟩
  rw [ite_eq_ok] at h
  rcases h with ⟨helse, h⟩ | ⟨helse, h⟩
  · obtain ⟨e, xs, rfl, he⟩ := Token.eq_cons_of_headKind helse (by decide)
    rw [bind_of_ok advance_run] at h
    obtain ⟨fs, hxs, hfs⟩ := braced_sound hEnd hd h
    rw [List.tail_cons] at hxs
    exact ⟨e :: fs, by simp [hxs], .otherwise he hfs⟩
  · obtain ⟨rfl, rfl⟩ := pure_eq_ok.mp h
    refine ⟨[], rfl, .noAlternative ?_⟩
    cases hk : headKind us .endOfInput <;>
      first
      | rfl
      | exact absurd hk ‹_›

include hd in
theorem branch_sound (h : branch ctx d ts = .ok (n, us)) :
    ∃ w vs, ts = w :: (vs ++ us) ∧ Derives (.branch (headKind us .endOfInput)) (w :: vs) [n] := by
  rw [branch, bind_of_ok current_run, bind_of_ok advance_run, bind_eq_ok] at h
  obtain ⟨test, xs, htest, h⟩ := h
  obtain ⟨o, vs, c, hts, ho, hvs, hc⟩ := condition_sound hEnd hd htest
  cases ts with
  | nil => cases hts
  | cons w ts =>
    rw [List.tail_cons] at hts
    subst hts
    rw [bind_eq_ok] at h
    obtain ⟨ms, ys, hms, h⟩ := h
    obtain ⟨bs, rfl, hbs⟩ := braced_sound hEnd hd hms
    rw [skip_newlines_bind] at h
    obtain ⟨es, zs, hes, rfl, hnl, h⟩ := h
    rw [bind_eq_ok] at h
    obtain ⟨rest, ws, hrest, h⟩ := h
    obtain ⟨rfl, rfl⟩ := pure_eq_ok.mp h
    obtain ⟨fs, rfl, hfs⟩ := alternative_sound hEnd hd hnl hrest
    exact ⟨w, o :: (vs ++ c :: (bs ++ (es ++ fs))), by simp, .branch ho hvs hc hbs hes hfs⟩

include hd in
theorem whileStatement_sound {w : Token} (hw : w.kind = .whileWord)
    (h : whileStatement ctx d (w :: ts) = .ok (n, us)) : ReadsStatement w ts us n := by
  rw [whileStatement, bind_of_ok advance_run, bind_eq_ok] at h
  obtain ⟨test, xs, htest, h⟩ := h
  obtain ⟨o, vs, c, hts, ho, hvs, hc⟩ := condition_sound hEnd hd htest
  rw [bind_eq_ok] at h
  obtain ⟨ms, ys, hms, h⟩ := h
  obtain ⟨bs, rfl, hbs⟩ := braced_sound hEnd hd hms
  obtain ⟨rfl, rfl⟩ := pure_eq_ok.mp h
  rw [List.tail_cons] at hts
  exact ⟨o :: (vs ++ c :: bs), by simp [hts], .while hw ho hvs hc hbs⟩

include hd in
theorem clause_sound {close : Kind} {o : Option Node} (hclose : close.endsBlock = false)
    (h : clause ctx d close ts = .ok (o, us)) (hus : headKind us .endOfInput = close) :
    ∃ vs, ts = vs ++ us ∧ Derives (.clause close) vs o.toList := by
  rw [clause, bind_of_ok current_run, ite_eq_ok, kind_headD hEnd] at h
  rcases h with ⟨-, h⟩ | ⟨hne, h⟩
  · obtain ⟨rfl, rfl⟩ := pure_eq_ok.mp h
    exact ⟨[], rfl, .noClause⟩
  · have hHeader : ctx.header.endToken.kind = .endOfInput := hEnd
    have hread := hd.statement hHeader h
    cases o with
    | none =>
      obtain ⟨ss, -, rfl, hends⟩ := hread
      rw [hus, hclose] at hends
      cases hends
    | some n =>
      obtain ⟨ss, t, vs, m, hss, rfl, hm, rfl⟩ := hread
      rw [hus] at hm
      rw [Token.headKind_append, Token.headKind_cons] at hne
      exact ⟨ss ++ t :: vs, by simp, .someClause hss hm hne⟩

include hd in
theorem headerTest_sound (h : headerTest ctx d ts = .ok (n, us)) :
    ∃ vs, ts = vs ++ us ∧ Derives .test vs [n] := by
  rw [headerTest, bind_of_ok current_run, ite_eq_ok] at h
  rcases h with ⟨-, h⟩ | ⟨-, h⟩
  · obtain ⟨rfl, rfl⟩ := pure_eq_ok.mp h
    exact ⟨[], rfl, .noTest⟩
  · obtain ⟨vs, rfl, hvs, -⟩ := hd.expression hEnd h
    exact ⟨vs, rfl, .someTest hvs⟩

include hd in
theorem forStatement_sound {w : Token} (hw : w.kind = .forWord)
    (h : forStatement ctx d (w :: ts) = .ok (n, us)) : ReadsStatement w ts us n := by
  rw [forStatement, bind_of_ok current_run, bind_of_ok advance_run,
    expect_bind hEnd (by decide)] at h
  obtain ⟨o, xs, hts, ho, h⟩ := h
  rw [bind_eq_ok] at h
  obtain ⟨init, ys, hinit, h⟩ := h
  rw [expect_bind hEnd (by decide)] at h
  obtain ⟨s, zs, rfl, hs, h⟩ := h
  obtain ⟨is, rfl, his⟩ := clause_sound hEnd hd rfl hinit hs
  rw [bind_eq_ok] at h
  obtain ⟨test, xs, htest, h⟩ := h
  obtain ⟨vs, rfl, hvs⟩ := headerTest_sound hEnd hd htest
  rw [expect_bind hEnd (by decide)] at h
  obtain ⟨s', zs, rfl, hs', h⟩ := h
  rw [bind_eq_ok] at h
  obtain ⟨step, ys, hstep, h⟩ := h
  rw [expect_bind hEnd (by decide)] at h
  obtain ⟨c, xs, rfl, hc, h⟩ := h
  obtain ⟨rs, rfl, hrs⟩ := clause_sound hEnd hd rfl hstep hc
  rw [bind_eq_ok] at h
  obtain ⟨ms, ys, hms, h⟩ := h
  obtain ⟨bs, rfl, hbs⟩ := braced_sound hEnd hd hms
  obtain ⟨rfl, rfl⟩ := pure_eq_ok.mp h
  rw [List.tail_cons] at hts
  exact ⟨o :: (is ++ s :: (vs ++ s' :: (rs ++ c :: bs))), by simp [hts],
    .for hw ho his hs hvs hs' hrs hc hbs⟩

include hd in
theorem functionStatement_sound {f : Token} (hf : f.kind = .fnWord)
    (hx : headKind ts .endOfInput = .name)
    (h : functionStatement ctx d (f :: ts) = .ok (n, us)) : ReadsStatement f ts us n := by
  obtain ⟨x, xs, rfl, hx⟩ := Token.eq_cons_of_headKind hx (by decide)
  rw [functionStatement, bind_of_ok current_run, bind_of_ok advance_run, bind_of_ok current_run,
    bind_of_ok advance_run, bind_eq_ok] at h
  obtain ⟨a, zs, ha, h⟩ := h
  obtain ⟨ps, bs, names, ms, hxs, hps, hbs, rfl⟩ := functionRest_sound hEnd hd ha
  obtain ⟨rfl, rfl⟩ := pure_eq_ok.mp h
  simp only [List.tail_cons] at hxs
  exact ⟨x :: (ps ++ bs), by simp [hxs], .named hf hx hps hbs⟩

include hd in
theorem expressionStatement_sound {t : Token}
    (hassign : ¬(t.kind = .name ∧ (headKind ts .endOfInput).isAssignment = true))
    (h : d.expression ctx 0 (t :: ts) = .ok (n, us)) :
    ReadsStatement t ts us (.expression n none) := by
  obtain ⟨vs, hts, hvs, hstop⟩ := hd.expression hEnd h
  obtain ⟨x, xs, rfl, -⟩ := hvs.leads
  rw [List.cons_append, List.cons.injEq] at hts
  obtain ⟨rfl, rfl⟩ := hts
  refine ⟨xs, rfl, .expression hvs ?_ (Kind.stops_zero.mp hstop)⟩
  cases xs with
  | nil => rfl
  | cons y ys => simpa [Token.beginsAssignment] using hassign

include hd in
theorem otherStatement_sound {t : Token}
    (h : (if t.kind = .name ∧ (headKind ts .endOfInput).isAssignment then assignStatement ctx d
      else if t.kind = .fnWord ∧ headKind ts .endOfInput = .name then functionStatement ctx d
      else do return .expression (← d.expression ctx 0) none : Parser Node) (t :: ts) =
        .ok (n, us)) : ReadsStatement t ts us n := by
  rw [ite_eq_ok] at h
  rcases h with ⟨⟨ht, hop⟩, h⟩ | ⟨hassign, h⟩
  · exact assignStatement_sound hEnd hd ht hop h
  rw [ite_eq_ok] at h
  rcases h with ⟨⟨ht, hx⟩, h⟩ | ⟨-, h⟩
  · exact functionStatement_sound hEnd hd ht hx h
  · rw [bind_eq_ok] at h
    obtain ⟨a, xs, ha, h⟩ := h
    obtain ⟨rfl, rfl⟩ := pure_eq_ok.mp h
    exact expressionStatement_sound hEnd hd hassign ha

include hd in
theorem statementAt_sound {t : Token} (h : statementAt ctx d t (t :: ts) = .ok (n, us)) :
    ReadsStatement t ts us n := by
  rw [statementAt, bind_of_ok second_run, List.tail_cons, kind_headD hEnd] at h
  cases ht : t.kind <;> simp only [ht] at h
  case openBrace =>
    rw [bind_eq_ok] at h
    obtain ⟨ms, ys, hms, h⟩ := h
    obtain ⟨rfl, rfl⟩ := pure_eq_ok.mp h
    obtain ⟨bs, hts, hbs⟩ := braced_sound hEnd hd hms
    obtain ⟨o, bs, rfl⟩ := List.exists_cons_of_ne_nil hbs.braced_ne_nil
    rw [List.cons_append, List.cons.injEq] at hts
    obtain ⟨rfl, rfl⟩ := hts
    exact ⟨bs, rfl, .block ht hbs⟩
  case printWord => exact printStatement_sound hEnd hd ht h
  case letWord => exact letStatement_sound hEnd hd ht h
  case ifWord =>
    obtain ⟨w, vs, hts, hvs⟩ := branch_sound hEnd hd h
    cases hts
    exact ⟨vs, rfl, .conditional ht hvs⟩
  case elifWord | elseWord | structWord => exact absurd h failAt_ne_ok
  case whileWord => exact whileStatement_sound hEnd hd ht h
  case forWord => exact forStatement_sound hEnd hd ht h
  case breakWord =>
    rw [bind_of_ok advance_run] at h
    obtain ⟨rfl, rfl⟩ := pure_eq_ok.mp h
    exact ⟨[], rfl, .exit ht⟩
  all_goals exact otherStatement_sound hEnd hd (by simpa only [ht] using h)

include hd in
theorem statement_sound {o : Option Node} (h : statement ctx d ts = .ok (o, us)) :
    ReadStatement ts o us := by
  rw [statement, bind_eq_ok] at h
  obtain ⟨_, xs, hskip, h⟩ := h
  obtain ⟨ss, hss, rfl, -⟩ := skip_ok hskip
  have hss' : AllSeparators ss := fun t ht => by simpa using hss t ht
  rw [bind_of_ok current_run, ite_eq_ok, kind_headD hEnd] at h
  rcases h with ⟨hends, h⟩ | ⟨hends, h⟩
  · obtain ⟨rfl, rfl⟩ := pure_eq_ok.mp h
    refine ⟨ss, hss', rfl, ?_⟩
    rcases hends with hends | hends <;> rw [hends] <;> rfl
  · obtain ⟨t, xs, rfl, -⟩ := Token.eq_cons_of_headKind rfl fun hk => hends (.inl hk)
    rw [bind_eq_ok] at h
    obtain ⟨m, _, hm, h⟩ := h
    obtain ⟨rfl, rfl⟩ := pure_eq_ok.mp h
    obtain ⟨vs, rfl, hvs⟩ := statementAt_sound hEnd hd hm
    exact ⟨ss, t, vs, m, hss', rfl, hvs, rfl⟩

/-! ## All levels -/

omit hEnd in
theorem Descent.Sound.next (hd : d.Sound) : d.next.Sound where
  statement hEnd h := statement_sound hEnd hd h
  branch hEnd h := branch_sound hEnd hd h
  expression hEnd h := expression_sound hEnd hd h

omit hEnd in
theorem descent_sound (nesting : Nat) : (descent nesting).Sound := by
  induction nesting with
  | zero => exact Descent.bottom_sound
  | succ nesting ih => exact ih.next

end Parser

end ScopeScript
