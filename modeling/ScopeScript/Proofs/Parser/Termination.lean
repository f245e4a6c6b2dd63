import ScopeScript.Proofs.Parser.Progress

/-!
# Parsing ends

On every list of tokens, also on one without an end token, with one in the
middle or with comments in it, a program is read or has a fault of its grammar
as long as nesting is not limited. No parser moves back, and every round of a
loop ends it or leaves fewer tokens to the next round, so that one round more
than there are tokens is enough.
-/

namespace ScopeScript.Parser

variable {α β γ ι φ : Type} {ctx : Context} {d : Descent} {ts us : List Token} {t : Token}
  {m n : Nat}

/-! ## Rounds of loops -/

/-- Whatever `x` says about the next round, `q x` ends without it, or gives what the next round
gives on an end of the tokens that has `m` tokens less, changed by `g` at most. -/
def HandsOver (next : ι → φ → Parser α) (m : Nat) (q : φ → Parser β) (ts : List Token) : Prop :=
  (∃ r, ∀ x, q x ts = r) ∨
    ∃ (i : ι) (us : List Token) (g : α → β), us <:+ ts ∧ us.length + m ≤ ts.length ∧
      ∀ x, q x ts = Prod.map g id <$> next i x us

namespace HandsOver

variable {next : ι → φ → Parser α} {q q' : φ → Parser β}

theorem ends (p : Parser β) : HandsOver next m (fun _ => p) ts := .inl ⟨p ts, fun _ => rfl⟩

theorem again (i : ι) : HandsOver next 0 (next i) ts := by
  right
  refine ⟨i, ts, id, List.suffix_rfl, Nat.le_refl _, fun x => ?_⟩
  cases next i x ts <;> rfl

theorem map (h : HandsOver next m q ts) (g : β → γ) :
    HandsOver next m (fun x => q x >>= fun b => pure (g b)) ts := by
  have hrun (x : φ) : (q x >>= fun b => pure (g b)) ts = Prod.map g id <$> q x ts := by
    change (q x ts >>= fun r => Except.ok (g r.1, r.2)) = _
    cases q x ts <;> rfl
  rcases h with ⟨r, hr⟩ | ⟨i, us, g', hrest, hlength, hr⟩
  · left
    refine ⟨Prod.map g id <$> r, fun x => (hrun x).trans ?_⟩
    rw [hr]
  · right
    refine ⟨i, us, g ∘ g', hrest, hlength, fun x => (hrun x).trans ?_⟩
    rw [hr]
    cases next i x us <;> rfl

theorem ite {c : Prop} [Decidable c] (hq : c → HandsOver next m q ts)
    (hq' : ¬c → HandsOver next m q' ts) :
    HandsOver next m (fun x => if c then q x else q' x) ts := by
  by_cases hc : c
  · simp only [if_pos hc]
    exact hq hc
  · simp only [if_neg hc]
    exact hq' hc

theorem bind_run {p : Parser γ} {f : γ → φ → Parser β} {a : γ} {k : Nat}
    (hp : p ts = .ok (a, us)) (hrest : us <:+ ts) (hlength : us.length + k ≤ ts.length)
    (hf : HandsOver next (m - k) (f a) us) :
    HandsOver next m (fun x => p >>= fun a => f a x) ts := by
  rcases hf with ⟨r, hr⟩ | ⟨i, vs, g, hvs, hle, hr⟩
  · left
    exact ⟨r, fun x => (bind_of_ok hp).trans (hr x)⟩
  · right
    exact ⟨i, vs, g, hvs.trans hrest, by omega, fun x => (bind_of_ok hp).trans (hr x)⟩

theorem bind {p : Parser γ} {f : γ → φ → Parser β} {k : γ → Nat}
    (hp : Ends (fun _ => True) k p ts) (hf : ∀ a us, us.length + k a ≤ ts.length →
      HandsOver next (m - k a) (f a) us) : HandsOver next m (fun x => p >>= fun a => f a x) ts := by
  cases h : p ts with
  | error e =>
    left
    refine ⟨.error e, fun x => ?_⟩
    change (p ts >>= fun r => f r.1 x r.2) = _
    rw [h]
    rfl
  | ok r =>
    have hlength := hp.length r.1 r.2 h
    exact bind_run h (hp.rest r.1 r.2 h) hlength (hf r.1 r.2 hlength)

theorem bind_look {p : Parser γ} {f : γ → φ → Parser β} {a : γ} (hp : p ts = .ok (a, ts))
    (hf : HandsOver next m (f a) ts) : HandsOver next m (fun x => p >>= fun a => f a x) ts :=
  bind_run (k := 0) hp List.suffix_rfl (Nat.le_refl _) hf

theorem bind_advance {f : Unit → φ → Parser β} (hf : HandsOver next (m - 1) (f ()) us) :
    HandsOver next m (fun x => advance >>= fun a => f a x) (t :: us) :=
  bind_run advance_run (List.suffix_cons t us) (Nat.le_refl _) hf

theorem bind_accept (hEnd : ctx.endToken.kind = .endOfInput) {kind : Kind}
    (hkind : kind ≠ .endOfInput)
    (hq : ∀ us, us.length + 1 ≤ ts.length → HandsOver next (m - 1) q us)
    (hq' : HandsOver next m q' ts) :
    HandsOver next m (fun x => accept ctx kind >>= fun b => if b = true then q x else q' x) ts := by
  by_cases hts : (ts.headD ctx.endToken).kind = kind
  · cases ts with
    | nil => exact absurd (hts.symm.trans hEnd) hkind
    | cons t us =>
      have haccept : accept ctx kind (t :: us) = .ok (true, us) :=
        (accept_eq_ok hEnd hkind).mpr (.inl ⟨rfl, t, rfl, hts⟩)
      exact bind_run haccept (List.suffix_cons t us) (Nat.le_refl _) (hq us (Nat.le_refl _))
  · have haccept : accept ctx kind ts = .ok (false, ts) := by
      rw [accept, Parser.bind_of_ok current_run, if_neg hts]
      rfl
    exact bind_look haccept hq'

end HandsOver

/-- Every round of a loop ends it or leaves fewer tokens to the next round. -/
def Decreasing (loop : ι → Nat → Parser α) : Prop :=
  ∀ i ts, HandsOver loop 1 (fun rounds => loop i (rounds + 1)) ts

/-- One round more than there are tokens is enough. -/
theorem Decreasing.rounds_suffice {loop : ι → Nat → Parser α} (h : Decreasing loop) {i : ι}
    {rounds : Nat} (hrounds : ts.length < rounds) :
    loop i rounds ts = loop i (ts.length + 1) ts := by
  -- On the number of tokens; a round leaves fewer to the next one, but not just one fewer.
  induction hlength : ts.length using Nat.strong_induction_on generalizing i rounds ts with
  | _ k ih =>
    obtain ⟨rounds, rfl⟩ := Nat.exists_eq_succ_of_ne_zero (Nat.ne_zero_of_lt hrounds)
    rcases h i ts with ⟨r, hr⟩ | ⟨j, us, g, -, hshorter, hstep⟩
    · exact (hr rounds).trans (hr k).symm
    · have hfewer : us.length < k := by omega
      have hleft : us.length < rounds := by omega
      calc loop i (rounds + 1) ts
        _ = Prod.map g id <$> loop j rounds us := hstep rounds
        _ = Prod.map g id <$> loop j (us.length + 1) us := by rw [ih us.length hfewer hleft rfl]
        _ = Prod.map g id <$> loop j k us := by rw [ih us.length hfewer hfewer rfl]
        _ = loop i (k + 1) ts := (hstep k).symm

/-! ## The loops of the parsers -/

section
variable (hEnd : ctx.endToken.kind = .endOfInput) (hd : d.Progresses (fun _ => True) n)
include hEnd

omit hEnd in
/-- Tokens are skipped one by one. -/
theorem skip_cons (kinds : List Kind) (t : Token) (ts : List Token) : skip kinds (t :: ts) =
    if kinds.contains t.kind then skip kinds ts else .ok ((), t :: ts) := by
  rw [skip_run, List.dropWhile_cons]
  split <;> rfl

include hd in
theorem items_decreasing (close : Kind) : Decreasing fun (_ : Unit) => items ctx d close := by
  intro _ ts
  refine .bind_look current_run (.ite (fun _ => .ends _) fun _ => ?_)
  refine .bind (hd.expression 0 ts hEnd fun _ => trivial) fun s us hus => ?_
  refine .bind (Ends.skip _) fun _ vs hvs => ?_
  refine .bind_accept hEnd (by decide) (fun ws hws => ?_) (.ends _)
  exact .bind (Ends.skip _) fun _ xs hxs => (HandsOver.again ()).map (s :: ·)

theorem parameterNames_decreasing : Decreasing fun (_ : Unit) => parameterNames ctx := by
  intro _ ts
  refine .bind_look current_run (.ite (fun _ => .ends _) fun _ => ?_)
  refine .bind (Ends.expect (fun _ _ _ => trivial) hEnd (by decide) _) fun x us hus => ?_
  refine .bind_accept hEnd (by decide) (fun vs hvs => ?_) (.ends _)
  exact (HandsOver.again ()).map (Node.leaf (.ofName x) :: ·)

include hd in
theorem statements_decreasing : Decreasing fun (_ : Unit) => statements ctx d := by
  intro _ ts
  refine .bind (hd.statement ts hEnd fun _ => trivial) fun o us hus => ?_
  cases o with
  | none => exact .ends _
  | some s => exact (HandsOver.again ()).map (s :: ·)

include hd in
theorem operators_decreasing (power : Nat) :
    Decreasing fun left rounds => operators ctx d power rounds left := by
  intro left ts
  refine .bind_look current_run (.ite (fun _ => .ends _) fun hends => ?_)
  cases ts with
  | nil =>
    rw [List.headD_nil, hEnd] at hends
    exact absurd rfl hends
  | cons t us =>
    have hbehind (power : Nat) : Ends (fun _ => True) (fun _ => 1) (d.expression ctx power) us :=
      hd.expression power us hEnd fun _ => trivial
    rw [List.headD_cons]
    refine .ite (fun _ => .ite (fun _ => .ends _) fun _ => ?_) fun _ => ?_
    · refine .bind_advance (.bind (hbehind 0) fun s vs hvs => ?_)
      refine .bind (Ends.expect (fun _ _ _ => trivial) hEnd (by decide) _) fun _ ws hws => ?_
      exact .again (Node.index left s t.line)
    · cases t.kind.infixPower? with
      | none => exact .ends _
      | some p =>
        refine .ite (fun _ => .ends _) fun _ => .bind_advance ?_
        refine .bind (hbehind (p + 1)) fun s vs hvs => ?_
        exact .again (Node.binary (.ofOperator t) left s t.line)

/-- The same parsers with another one for the branch that follows. -/
def Descent.withBranch (d : Descent) (b : Context → Parser Node) : Descent := { d with branch := b }

omit hEnd in
theorem braced_withBranch (b : Context → Parser Node) :
    braced ctx (d.withBranch b) = braced ctx d := by
  have hstatements (fuel : Nat) : statements ctx (d.withBranch b) fuel = statements ctx d fuel := by
    induction fuel with
    | zero => rfl
    | succ fuel ih =>
      rw [statements, statements, ih]
      rfl
  have hbody : blockBody ctx (d.withBranch b) = blockBody ctx d := by
    simp only [blockBody, hstatements]
  simp only [braced, hbody]

include hd in
/-- A branch leaves fewer tokens to the branch that follows it. -/
theorem branch_decreasing (ts : List Token) :
    HandsOver (fun (_ : Unit) (b : Context → Parser Node) => b ctx) 1
      (fun b => branch ctx (d.withBranch b)) ts := by
  have hE : ∀ cause line column, (fun _ => True) (Fault.grammar cause line column) :=
    fun _ _ _ => trivial
  have hcondition (b : Context → Parser Node) (word : String) :
      condition ctx (d.withBranch b) word = condition ctx d word := rfl
  -- Only the last step of a branch looks at the parser for the next one.
  unfold branch alternative
  simp only [hcondition, braced_withBranch]
  refine .bind_look current_run (.bind Ends.advance fun _ us hus => ?_)
  refine .bind (condition_ends hE hEnd hd _ fun _ => trivial) fun test vs hvs => ?_
  refine .bind (braced_ends hE hEnd hd fun _ => trivial) fun body ws hws => ?_
  refine .bind (Ends.skip _) fun _ xs hxs => .map (.bind_look current_run ?_) _
  exact .ite (fun _ => (HandsOver.again ()).map fun s => [s]) fun _ => .ends _

end

/-- Each loop of the parsers of a level, with what it carries from round to round: statements of
a block, operators of an expression, elements of an array or arguments of a call, parameters of a
function, branches of a chain, and tokens that are skipped. -/
structure LoopsDecrease (ctx : Context) (d : Descent) : Prop where
  statements : Decreasing fun (_ : Unit) => statements ctx d
  operators (power : Nat) : Decreasing fun left rounds => operators ctx d power rounds left
  items (close : Kind) : Decreasing fun (_ : Unit) => items ctx d close
  parameterNames : Decreasing fun (_ : Unit) => parameterNames ctx
  branches (ts : List Token) : HandsOver (fun (_ : Unit) (b : Context → Parser Node) => b ctx) 1
    (fun b => branch ctx (d.withBranch b)) ts
  skip (kinds : List Kind) (t : Token) (ts : List Token) : skip kinds (t :: ts) =
    if kinds.contains t.kind then skip kinds ts else .ok ((), t :: ts)

/-- The bound on the rounds of a loop does not decide what the loop does: it is the same with
these rounds and with one round more than there are tokens. -/
structure RoundsSuffice (ctx : Context) (d : Descent) (rounds : Nat) (ts : List Token) : Prop where
  statements : statements ctx d rounds ts = statements ctx d (ts.length + 1) ts
  operators (power : Nat) (left : Node) :
    operators ctx d power rounds left ts = operators ctx d power (ts.length + 1) left ts
  items (close : Kind) : items ctx d close rounds ts = items ctx d close (ts.length + 1) ts
  parameterNames : parameterNames ctx rounds ts = parameterNames ctx (ts.length + 1) ts

theorem LoopsDecrease.roundsSuffice (h : LoopsDecrease ctx d) {rounds : Nat}
    (hrounds : ts.length < rounds) : RoundsSuffice ctx d rounds ts where
  statements := h.statements.rounds_suffice (i := ()) hrounds
  operators power left := (h.operators power).rounds_suffice (i := left) hrounds
  items close := (h.items close).rounds_suffice (i := ()) hrounds
  parameterNames := h.parameterNames.rounds_suffice (i := ()) hrounds

/-! ## Moving forward -/

/-- What a parser leaves is an end of what it is given. -/
def Forward (p : Parser α) : Prop :=
  ∀ ts a us, p ts = .ok (a, us) → us <:+ ts

theorem forward_of_ends {p : Parser α} {k : α → Nat}
    (h : ∀ ts, Ends (fun _ => True) k p ts) : Forward p :=
  fun ts => (h ts).rest

/-- No parser of a level moves back. -/
structure AllForward (ctx : Context) (d : Descent) : Prop where
  current : Forward (current ctx)
  second : Forward (second ctx)
  advance : Forward advance
  expect (kind : Kind) (what : Expectation) : Forward (expect ctx kind what)
  accept (kind : Kind) : Forward (accept ctx kind)
  skip (kinds : List Kind) : Forward (skip kinds)
  items (close : Kind) (rounds : Nat) : Forward (items ctx d close rounds)
  enclosed (close : Kind) (what : Expectation) : Forward (enclosed ctx d close what)
  parameterNames (rounds : Nat) : Forward (parameterNames ctx rounds)
  parameterList : Forward (parameterList ctx)
  statements (rounds : Nat) : Forward (statements ctx d rounds)
  blockBody : Forward (blockBody ctx d)
  braced : Forward (braced ctx d)
  functionRest (fn : Token) : Forward (functionRest ctx d fn)
  operand : Forward (operand ctx d)
  operators (power rounds : Nat) (left : Node) : Forward (operators ctx d power rounds left)
  expression (power : Nat) : Forward (expression ctx d power)
  printStatement : Forward (printStatement ctx d)
  letStatement : Forward (letStatement ctx d)
  assignStatement : Forward (assignStatement ctx d)
  condition (word : String) : Forward (condition ctx d word)
  alternative : Forward (alternative ctx d)
  branch : Forward (branch ctx d)
  whileStatement : Forward (whileStatement ctx d)
  clause (close : Kind) : Forward (clause ctx d close)
  headerTest : Forward (headerTest ctx d)
  forStatement : Forward (forStatement ctx d)
  functionStatement : Forward (functionStatement ctx d)
  statementAt (t : Token) (us vs : List Token) (s : Node) :
    statementAt ctx d t (t :: us) = .ok (s, vs) → vs <:+ t :: us
  statement : Forward (statement ctx d)

section
variable (hEnd : ctx.endToken.kind = .endOfInput) (hd : d.Progresses (fun _ => True) n)
include hEnd hd

theorem loopsDecrease : LoopsDecrease ctx d where
  statements := statements_decreasing hEnd hd
  operators := operators_decreasing hEnd hd
  items := items_decreasing hEnd hd
  parameterNames := parameterNames_decreasing hEnd
  branches := branch_decreasing hEnd hd
  skip := skip_cons

theorem allForward : AllForward ctx d := by
  have hE : ∀ cause line column, (fun _ : Fault => True) (.grammar cause line column) :=
    fun _ _ _ => trivial
  have hany {c : Prop} (_ : c) : True := trivial
  have hexpect (ts : List Token) (kind : Kind) (what : Expectation) :
      Ends (fun _ => True) (fun _ => 0) (expect ctx kind what) ts := by
    refine .bind_look current_run (.ite (fun _ => ?_) fun _ => .failAt hE _ _)
    exact Ends.advance.bind fun _ us hus => .pure rfl
  constructor
  case current => exact forward_of_ends fun ts => .bind_look get_run (.pure (k := fun _ => 0) rfl)
  case second => exact forward_of_ends fun ts => .bind_look get_run (.pure (k := fun _ => 0) rfl)
  case advance => exact forward_of_ends fun ts => .advance
  case expect => exact fun kind what => forward_of_ends fun ts => hexpect ts kind what
  case accept =>
    intro kind
    refine forward_of_ends (k := fun _ => 0) fun ts => .bind_look current_run ?_
    refine .ite (fun _ => ?_) fun _ => .pure rfl
    exact Ends.advance.bind fun _ us hus => .pure rfl
  case skip => exact fun kinds => forward_of_ends fun ts => .skip kinds
  case items =>
    exact fun close rounds => forward_of_ends fun ts => items_ends hEnd hd close hany hany
  case enclosed =>
    intro close what
    refine forward_of_ends (k := fun _ => 0) fun ts => Ends.advance.bind fun _ us hus => ?_
    refine (Ends.skip _).bind fun _ vs hvs => .bind_look get_run ?_
    refine (items_ends hEnd hd close hany hany).bind fun ns ws hws => ?_
    exact (hexpect ws close what).bind fun _ _ _ => .pure rfl
  case parameterNames =>
    exact fun rounds => forward_of_ends fun ts => parameterNames_ends hE hEnd hany
  case parameterList => exact forward_of_ends fun ts => parameterList_ends hE hEnd
  case statements =>
    exact fun rounds => forward_of_ends fun ts => statements_ends hEnd hd hany hany
  case blockBody => exact forward_of_ends fun ts => blockBody_ends hEnd hd hany
  case braced => exact forward_of_ends fun ts => braced_ends hE hEnd hd hany
  case functionRest =>
    exact fun fn => forward_of_ends fun ts => functionRest_ends hE hEnd hd fn hany
  case operand => exact forward_of_ends fun ts => operand_ends hE hEnd hd hany
  case operators =>
    exact fun power rounds left =>
      forward_of_ends fun ts => operators_ends hE hEnd hd power left hany hany
  case expression =>
    exact fun power => forward_of_ends fun ts => expression_ends hE hEnd hd power hany
  case printStatement => exact forward_of_ends fun ts => printStatement_ends hE hEnd hd hany
  case letStatement => exact forward_of_ends fun ts => letStatement_ends hE hEnd hd hany
  case assignStatement => exact forward_of_ends fun ts => assignStatement_ends hEnd hd hany
  case condition => exact fun word => forward_of_ends fun ts => condition_ends hE hEnd hd word hany
  case alternative => exact forward_of_ends fun ts => alternative_ends hE hEnd hd hany
  case branch => exact forward_of_ends fun ts => branch_ends hE hEnd hd hany
  case whileStatement => exact forward_of_ends fun ts => whileStatement_ends hE hEnd hd hany
  case clause => exact fun close => forward_of_ends fun ts => clause_ends hEnd hd close hany
  case headerTest => exact forward_of_ends fun ts => headerTest_ends hEnd hd hany
  case forStatement => exact forward_of_ends fun ts => forStatement_ends hE hEnd hd hany
  case functionStatement => exact forward_of_ends fun ts => functionStatement_ends hE hEnd hd hany
  case statementAt =>
    exact fun t us vs s h => (statementAt_ends hE hEnd hd hany).rest s vs h
  case statement => exact forward_of_ends fun ts => statement_ends hE hEnd hd hany

end

/-! ## Programs -/

/-- A parser that can have no other fault reads the tokens or has a fault of the grammar. -/
theorem outcome_of_ends {p : Parser α} {k : α → Nat}
    (h : Ends (fun f => ∃ cause line column, f = .grammar cause line column) k p ts) :
    (∃ a, p.run' ts = .ok a) ∨
      ∃ cause line column, p.run' ts = .error (.grammar cause line column) := by
  cases hp : p ts with
  | ok r =>
    left
    exact ⟨r.1, run'_eq_ok.mpr ⟨r.2, hp⟩⟩
  | error f =>
    right
    obtain ⟨cause, line, column, rfl⟩ := h.error f hp
    exact ⟨cause, line, column, run'_eq_error.mpr hp⟩

/-- Parsing ends on every list of tokens. Two levels of nesting for each token and two more are
enough for a tree or a fault of the grammar, for programs and for expressions, and fewer levels
have no other fault but that they are too few. On every level a statement and an expression that
are read have at least one token, no parser moves back, and every round of a loop ends it or
leaves fewer tokens, so that no loop is cut short by its bound. -/
theorem parsing_ends_on_every_list (ts : List Token) :
    (∀ nesting, 2 * ts.length + 2 ≤ nesting →
      ((∃ p, program nesting ts = .ok p) ∨
        ∃ cause line column, program nesting ts = .error (.grammar cause line column)) ∧
      ((∃ p, fragment nesting ts = .ok p) ∨
        ∃ cause line column, fragment nesting ts = .error (.grammar cause line column))) ∧
    (∀ nesting f, program nesting ts = .error f ∨ fragment nesting ts = .error f →
      (∃ cause line column, f = .grammar cause line column) ∨ f = .nestingLimit) ∧
    ∀ nesting (ctx : Context), ctx.endToken.kind = .endOfInput →
      (∀ s us, statement ctx (descent nesting) ts = .ok (some s, us) → us.length < ts.length) ∧
      (∀ power s us, expression ctx (descent nesting) power ts = .ok (s, us) →
        us.length < ts.length) ∧
      AllForward ctx (descent nesting) ∧ LoopsDecrease ctx (descent nesting) ∧
      ∀ rounds, ts.length < rounds → RoundsSuffice ctx (descent nesting) rounds ts := by
  refine ⟨fun nesting henough => ?_, fun nesting f hf => ?_, fun nesting ctx hEnd => ?_⟩
  · have hE : ∀ cause line column, ∃ cause' line' column',
        Fault.grammar cause line column = .grammar cause' line' column' :=
      fun cause line column => ⟨cause, line, column, rfl⟩
    constructor
    · exact outcome_of_ends (programTree_ends hE kind_topContext fun hlt => absurd hlt (by omega))
    · exact outcome_of_ends (fragmentTree_ends hE kind_topContext fun hlt => absurd hlt (by omega))
  · have hE (cause : ParseCause) (line column : Nat) :
        (∃ cause' line' column', Fault.grammar cause line column = .grammar cause' line' column') ∨
          Fault.grammar cause line column = .nestingLimit :=
      .inl ⟨cause, line, column, rfl⟩
    have hends : Ends (fun f => (∃ cause line column, f = .grammar cause line column) ∨
          f = .nestingLimit) (fun _ => 0) (programTree (topContext ts) (descent nesting)) ts ∧
        Ends (fun f => (∃ cause line column, f = .grammar cause line column) ∨
          f = .nestingLimit) (fun _ => 0) (fragmentTree (topContext ts) (descent nesting)) ts :=
      ⟨programTree_ends hE kind_topContext fun _ => .inr rfl,
        fragmentTree_ends hE kind_topContext fun _ => .inr rfl⟩
    rcases hf with hf | hf
    · exact hends.1.error f (run'_eq_error.mp hf)
    · exact hends.2.error f (run'_eq_error.mp hf)
  · have hd : (descent nesting).Progresses (fun _ => True) nesting :=
      descent_progresses (fun _ _ _ => trivial) nesting
    have hloops := loopsDecrease hEnd hd
    refine ⟨fun s us h => ?_, fun power s us h => ?_, allForward hEnd hd, hloops,
      fun rounds hrounds => hloops.roundsSuffice hrounds⟩
    · exact (statement_ends (fun _ _ _ => trivial) hEnd hd fun _ => trivial).length (some s) us h
    · exact (expression_ends (fun _ _ _ => trivial) hEnd hd power fun _ => trivial).length s us h

/-- An end token in the middle hides the comment behind it; without it the comment is a fault. The
statement in front of either leaves what follows the name. -/
theorem parsing_ends_around_a_comment :
    let a : Token := ⟨.name, .text "a", 1, 1, ['a']⟩
    let stop : Token := ⟨.endOfInput, .absent, 1, 2, []⟩
    let comment : Token := ⟨.comment, .text "# c", 1, 3, "# c".toList⟩
    (∃ p, program 8 [a, stop, comment] = .ok p) ∧
    (∃ cause line column, program 6 [a, comment] = .error (.grammar cause line column)) ∧
    (∀ f, program 1 [a, comment] = .error f →
      (∃ cause line column, f = .grammar cause line column) ∨ f = .nestingLimit) ∧
    ∃ s us, statement (topContext []) (descent 2) [a, stop, comment] = .ok (some s, us) ∧
      us.length < 3 := by
  intro a stop comment
  obtain ⟨hread, -, hforward⟩ := parsing_ends_on_every_list [a, stop, comment]
  obtain ⟨hfails, hfaults, -⟩ := parsing_ends_on_every_list [a, comment]
  refine ⟨?_, ?_, fun f h => hfaults 1 f (.inl h), ?_⟩
  · rcases (hread 8 (by decide)).1 with hok | ⟨cause, line, column, herror⟩
    · exact hok
    · have hsome : (program 8 [a, stop, comment]).toOption ≠ none := by decide
      rw [herror] at hsome
      exact absurd rfl hsome
  · rcases (hfails 6 (by decide)).1 with ⟨p, hok⟩ | herror
    · have hnone : (program 6 [a, comment]).toOption = none := by decide
      rw [hok] at hnone
      cases hnone
    · exact herror
  · have hstatement : statement (topContext []) (descent 2) [a, stop, comment] =
        .ok (some (.expression (.leaf (.ofName a)) (some 1)), [stop, comment]) := rfl
    exact ⟨_, _, hstatement, (hforward 2 _ rfl).1 _ _ hstatement⟩

end ScopeScript.Parser
