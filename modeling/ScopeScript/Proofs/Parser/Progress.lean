import ScopeScript.Proofs.Parser.Success

/-!
# Progress of the parsers

A parser leaves an end of the tokens that it is given, and a statement or an
expression that it reads has at least one token. So every round of a loop and
every way back to a statement or an expression is left with fewer tokens, with
one exception: a statement begins with the expression that it may consist of.
Two levels of nesting for each token, and two more, are therefore enough for
every list of tokens.
-/

namespace ScopeScript.Parser

variable {α β : Type} {E : Fault → Prop} {ctx : Context} {d : Descent} {ts us : List Token}
  {t : Token} {fuel n : Nat}

/-- On these tokens a parser has an allowed fault, or it leaves an end of them, which has `k a`
tokens less if the result is `a`. -/
structure Ends (E : Fault → Prop) (k : α → Nat) (p : Parser α) (ts : List Token) : Prop where
  error (f : Fault) : p ts = .error f → E f
  rest (a : α) (us : List Token) : p ts = .ok (a, us) → us <:+ ts
  length (a : α) (us : List Token) : p ts = .ok (a, us) → us.length + k a ≤ ts.length

namespace Ends

variable {j k : α → Nat} {m : β → Nat} {p q : Parser α} {f : α → Parser β}

theorem weaken (h : Ends E k p ts) (hjk : ∀ a, j a ≤ k a) : Ends E j p ts := by
  refine ⟨h.error, h.rest, fun a us hok => ?_⟩
  have hlength := h.length a us hok
  have hle := hjk a
  omega

theorem pure {a : α} (ha : k a = 0) : Ends E k (Pure.pure a) ts := by
  constructor
  · intro f h
    change Except.ok (a, ts) = .error f at h
    cases h
  · intro b us hok
    obtain ⟨rfl, rfl⟩ := pure_eq_ok.mp hok
    exact List.suffix_rfl
  · intro b us hok
    obtain ⟨rfl, rfl⟩ := pure_eq_ok.mp hok
    rw [ha, Nat.add_zero]

theorem throw {f : Fault} (hf : E f) : Ends E k (MonadExcept.throw f) ts :=
  ⟨fun _ h => Except.error.inj h ▸ hf, nofun, nofun⟩

theorem ite {c : Prop} [Decidable c] (hp : c → Ends E k p ts) (hq : ¬c → Ends E k q ts) :
    Ends E k (if c then p else q) ts := by
  split
  next hc => exact hp hc
  next hc => exact hq hc

/-- What the second of two parsers leaves is left by both. -/
theorem bind_run {a : α} {c : Nat} (hp : p ts = .ok (a, us)) (hrest : us <:+ ts)
    (hlength : us.length + c ≤ ts.length) (hf : Ends E (fun b => m b - c) (f a) us) :
    Ends E m (p >>= f) ts := by
  constructor
  · intro e he
    rw [bind_of_ok hp] at he
    exact hf.error e he
  · intro b vs hok
    rw [bind_of_ok hp] at hok
    exact (hf.rest b vs hok).trans hrest
  · intro b vs hok
    rw [bind_of_ok hp] at hok
    have hle := hf.length b vs hok
    omega

theorem bind (hp : Ends E k p ts) (hf : ∀ a us, us.length + k a ≤ ts.length →
    Ends E (fun b => m b - k a) (f a) us) : Ends E m (p >>= f) ts := by
  cases h : p ts with
  | error e =>
    have hrun : (p >>= f) ts = .error e := by
      change (p ts >>= fun x => f x.1 x.2) = _
      rw [h]
      rfl
    constructor
    · intro e' he
      cases hrun.symm.trans he
      exact hp.error e h
    · intro b vs hok
      cases hrun.symm.trans hok
    · intro b vs hok
      cases hrun.symm.trans hok
  | ok r =>
    have hlength := hp.length r.1 r.2 h
    exact bind_run h (hp.rest r.1 r.2 h) hlength (hf r.1 r.2 hlength)

/-- A parser that only looks at the tokens. -/
theorem bind_look {a : α} (hp : p ts = .ok (a, ts)) (hf : Ends E m (f a) ts) :
    Ends E m (p >>= f) ts :=
  bind_run (c := 0) hp List.suffix_rfl (Nat.le_refl _) hf

theorem bind_advance {f : Unit → Parser β} (hf : Ends E (fun b => m b - 1) (f ()) us) :
    Ends E m (advance >>= f) (t :: us) :=
  bind_run advance_run (List.suffix_cons t us) (Nat.le_refl _) hf

theorem advance : Ends E (fun _ => 0) advance ts := by
  constructor
  · intro f h
    cases advance_run.symm.trans h
  · intro a us hok
    cases hok
    exact List.tail_suffix ts
  · intro a us hok
    cases hok
    rw [List.length_tail]
    omega

theorem skip (kinds : List Kind) : Ends E (fun _ => 0) (skip kinds) ts := by
  constructor
  · intro f h
    cases skip_run.symm.trans h
  · intro a us hok
    cases hok
    exact List.dropWhile_suffix _
  · intro a us hok
    cases hok
    exact (List.dropWhile_suffix _).length_le

section
variable (hE : ∀ cause line column, E (.grammar cause line column))
  (hEnd : ctx.endToken.kind = .endOfInput)

include hE in
theorem failAt (t : Token) (cause : ParseCause) : Ends E k (failAt t cause) ts :=
  .throw (hE cause t.line t.column)

include hE hEnd in
theorem expect {kind : Kind} (hkind : kind ≠ .endOfInput) (what : Expectation) :
    Ends E (fun _ => 1) (expect ctx kind what) ts := by
  constructor
  · intro f h
    rw [Parser.expect, Parser.bind_of_ok current_run] at h
    split at h
    next => cases h
    next => exact (Ends.failAt (k := fun _ => 0) hE _ _).error f h
  · intro a us hok
    obtain ⟨rfl, -⟩ := (expect_eq_ok hEnd hkind).mp hok
    exact List.suffix_cons a us
  · intro a us hok
    obtain ⟨rfl, -⟩ := (expect_eq_ok hEnd hkind).mp hok
    exact Nat.le_refl _

include hEnd in
theorem bind_accept {kind : Kind} (hkind : kind ≠ .endOfInput)
    (hp : ∀ us, us.length + 1 ≤ ts.length → Ends E (fun a => k a - 1) p us)
    (hq : Ends E k q ts) :
    Ends E k (accept ctx kind >>= fun b => if b = true then p else q) ts := by
  by_cases hts : (ts.headD ctx.endToken).kind = kind
  · cases ts with
    | nil => exact absurd (hts.symm.trans hEnd) hkind
    | cons t us =>
      have haccept : accept ctx kind (t :: us) = .ok (true, us) :=
        (accept_eq_ok hEnd hkind).mpr (.inl ⟨rfl, t, rfl, hts⟩)
      exact bind_run haccept (List.suffix_cons t us) (Nat.le_refl _) (hp us (Nat.le_refl _))
  · have haccept : accept ctx kind ts = .ok (false, ts) := by
      rw [accept, Parser.bind_of_ok current_run, if_neg hts]
      rfl
    exact bind_look haccept hq

include hEnd in
/-- Where the current token is not the end token, there is a token. -/
theorem of_current (hts : (ts.headD ctx.endToken).kind ≠ .endOfInput)
    (h : ∀ t us, ts = t :: us → Ends E k p (t :: us)) : Ends E k p ts := by
  cases ts with
  | nil => exact absurd hEnd hts
  | cons t us => exact h t us rfl

end

end Ends

/-- The parsers one level down make progress if there are levels enough for their tokens. -/
structure Descent.Progresses (E : Fault → Prop) (n : Nat) (d : Descent) : Prop where
  statement {ctx : Context} (ts : List Token) : ctx.endToken.kind = .endOfInput →
    (n < 2 * ts.length + 2 → E .nestingLimit) →
    Ends E (fun o => o.toList.length) (d.statement ctx) ts
  branch {ctx : Context} (t : Token) (us : List Token) : ctx.endToken.kind = .endOfInput →
    (n < 2 * (t :: us).length + 1 → E .nestingLimit) → Ends E (fun _ => 1) (d.branch ctx) (t :: us)
  expression {ctx : Context} (power : Nat) (ts : List Token) : ctx.endToken.kind = .endOfInput →
    (n < 2 * ts.length + 1 → E .nestingLimit) →
    Ends E (fun _ => 1) (d.expression ctx power) ts

theorem Descent.bottom_progresses (E : Fault → Prop) : Descent.bottom.Progresses E 0 where
  statement _ _ hdeep := .throw (hdeep (Nat.succ_pos _))
  branch _ _ _ hdeep := .throw (hdeep (Nat.succ_pos _))
  expression _ _ _ hdeep := .throw (hdeep (Nat.succ_pos _))

section
variable (hE : ∀ cause line column, E (.grammar cause line column))
  (hEnd : ctx.endToken.kind = .endOfInput) (hd : d.Progresses E n)
include hEnd

/-! ## Lists -/

include hd in
theorem items_ends (close : Kind) (hfuel : fuel ≤ ts.length → E .iterationLimit)
    (hdeep : n < 2 * ts.length + 1 → E .nestingLimit) :
    Ends E (fun _ => 0) (items ctx d close fuel) ts := by
  induction fuel generalizing ts with
  | zero => exact .throw (hfuel (Nat.zero_le _))
  | succ fuel ih =>
    refine .bind_look current_run (.ite (fun _ => .pure rfl) fun _ => ?_)
    refine (hd.expression 0 ts hEnd hdeep).bind fun s us hus => ?_
    refine (Ends.skip _).bind fun _ vs hvs => ?_
    refine .bind_accept hEnd (by decide) (fun ws hws => ?_) (.pure rfl)
    refine (Ends.skip _).bind fun _ xs hxs => (ih ?_ ?_).bind fun _ _ _ => .pure rfl
    · intro hle
      exact hfuel (by omega)
    · intro hlt
      exact hdeep (by omega)

include hE hd in
theorem enclosed_ends (close : Kind) (hclose : close ≠ .endOfInput) (what : Expectation)
    (hdeep : n < 2 * ts.tail.length + 1 → E .nestingLimit) :
    Ends E (fun _ => 1) (enclosed ctx d close what) ts := by
  refine .bind_run (c := 0) advance_run (List.tail_suffix ts) (List.tail_suffix ts).length_le ?_
  refine (Ends.skip _).bind fun _ vs hvs => .bind_look get_run ?_
  refine (items_ends hEnd hd close ?_ ?_).bind fun ns ws hws => ?_
  · intro hle
    omega
  · intro hlt
    exact hdeep (by omega)
  · exact (Ends.expect hE hEnd hclose what).bind fun _ _ _ => .pure rfl

include hE in
theorem parameterNames_ends (hfuel : fuel ≤ ts.length → E .iterationLimit) :
    Ends E (fun _ => 0) (parameterNames ctx fuel) ts := by
  induction fuel generalizing ts with
  | zero => exact .throw (hfuel (Nat.zero_le _))
  | succ fuel ih =>
    refine .bind_look current_run (.ite (fun _ => .pure rfl) fun _ => ?_)
    refine (Ends.expect hE hEnd (by decide) _).bind fun x us hus => ?_
    refine .bind_accept hEnd (by decide) (fun vs hvs => ?_) (.pure rfl)
    refine (ih ?_).bind fun _ _ _ => .pure rfl
    intro hle
    exact hfuel (by omega)

include hE in
theorem parameterList_ends : Ends E (fun _ => 2) (parameterList ctx) ts := by
  refine (Ends.expect hE hEnd (by decide) _).bind fun _ us hus => .bind_look get_run ?_
  refine (parameterNames_ends hE hEnd ?_).bind fun ns vs hvs => ?_
  · intro hle
    omega
  · exact (Ends.expect hE hEnd (by decide) _).bind fun _ _ _ => .pure rfl

include hd in
theorem statements_ends (hfuel : fuel ≤ ts.length → E .iterationLimit)
    (hdeep : n < 2 * ts.length + 2 → E .nestingLimit) :
    Ends E (fun _ => 0) (statements ctx d fuel) ts := by
  induction fuel generalizing ts with
  | zero => exact .throw (hfuel (Nat.zero_le _))
  | succ fuel ih =>
    refine (hd.statement ts hEnd hdeep).bind fun o us hus => ?_
    cases o with
    | none => exact .pure rfl
    | some s =>
      rw [Option.toList_some, List.length_singleton] at hus
      refine (ih ?_ ?_).bind fun _ _ _ => .pure (Nat.zero_sub _)
      · intro hle
        exact hfuel (by omega)
      · intro hlt
        exact hdeep (by omega)

include hd in
theorem blockBody_ends (hdeep : n < 2 * ts.length + 2 → E .nestingLimit) :
    Ends E (fun _ => 0) (blockBody ctx d) ts := by
  refine .bind_look get_run (statements_ends hEnd hd ?_ hdeep)
  intro hle
  omega

include hE hd in
theorem braced_ends (hdeep : n < 2 * ts.length → E .nestingLimit) :
    Ends E (fun _ => 2) (braced ctx d) ts := by
  refine (Ends.skip _).bind fun _ us hus => .bind_look current_run ?_
  refine (Ends.expect hE hEnd (by decide) _).bind fun _ vs hvs => ?_
  refine (blockBody_ends hEnd hd ?_).bind fun ns ws hws => .bind_look current_run ?_
  · intro hlt
    exact hdeep (by omega)
  · exact (Ends.expect hE hEnd (by decide) _).bind fun _ _ _ => .pure rfl

include hE hd in
theorem functionRest_ends (fn : Token) (hdeep : n < 2 * ts.length → E .nestingLimit) :
    Ends E (fun _ => 4) (functionRest ctx d fn) ts := by
  refine (parameterList_ends hE hEnd).bind fun ps us hus => ?_
  refine (braced_ends hE hEnd hd ?_).bind fun body vs hvs => .pure rfl
  intro hlt
  exact hdeep (by omega)

/-! ## Expressions -/

include hE hd in
theorem operand_ends (hdeep : n < 2 * ts.length → E .nestingLimit) :
    Ends E (fun _ => 1) (operand ctx d) ts := by
  refine .bind_look current_run ?_
  by_cases hend : (ts.headD ctx.endToken).kind = .endOfInput
  · rw [hend]
    exact .failAt hE _ _
  refine .of_current hEnd hend fun t us hts => ?_
  subst hts
  rw [List.length_cons] at hdeep
  -- Behind the first token there are levels enough for an expression.
  have hbehind : n < 2 * us.length + 1 → E .nestingLimit := fun hlt => hdeep (by omega)
  rw [List.headD_cons]
  split
  · exact .bind_advance (.pure rfl)
  · exact .bind_advance (.pure rfl)
  · exact .bind_advance (.pure rfl)
  · exact .bind_advance (.pure rfl)
  · refine .bind_advance (.bind_look current_run (.ite (fun hopen => ?_) fun _ => .pure rfl))
    refine .of_current hEnd (by rw [hopen]; decide) fun o vs hus => ?_
    subst hus
    refine (enclosed_ends hE hEnd hd _ (by decide) _ ?_).bind fun ns ws hws => .pure rfl
    intro hlt
    rw [List.tail_cons] at hlt
    exact hdeep (by rw [List.length_cons]; omega)
  · refine .bind_advance ((hd.expression 0 us hEnd hbehind).bind fun s vs hvs => ?_)
    exact .bind_accept hEnd (by decide) (fun _ _ => .pure rfl) (.failAt hE t _)
  · refine (enclosed_ends hE hEnd hd _ (by decide) _ ?_).bind fun ns vs hvs => .pure rfl
    exact hbehind
  · refine .bind_advance ((functionRest_ends hE hEnd hd t ?_).weaken fun _ => Nat.zero_le _)
    intro hlt
    exact hbehind (by omega)
  · exact .bind_advance ((hd.expression _ us hEnd hbehind).bind fun _ _ _ => .pure rfl)
  · exact .bind_advance ((hd.expression _ us hEnd hbehind).bind fun _ _ _ => .pure rfl)
  · exact .failAt hE t _
  · exact .failAt hE t _

include hE hd in
theorem operators_ends (power : Nat) (left : Node) (hfuel : fuel ≤ ts.length → E .iterationLimit)
    (hdeep : n < 2 * ts.length → E .nestingLimit) :
    Ends E (fun _ => 0) (operators ctx d power fuel left) ts := by
  induction fuel generalizing ts left with
  | zero => exact .throw (hfuel (Nat.zero_le _))
  | succ fuel ih =>
    refine .bind_look current_run (.ite (fun _ => .pure rfl) fun hends => ?_)
    have hend : (ts.headD ctx.endToken).kind ≠ .endOfInput := by
      intro hend
      rw [hend] at hends
      exact hends rfl
    refine .of_current hEnd hend fun t us hts => ?_
    subst hts
    rw [List.length_cons] at hdeep hfuel
    have hbehind : n < 2 * us.length + 1 → E .nestingLimit := fun hlt => hdeep (by omega)
    rw [List.headD_cons]
    refine .ite (fun _ => .ite (fun _ => .pure rfl) fun _ => ?_) fun _ => ?_
    · refine .bind_advance ((hd.expression 0 us hEnd hbehind).bind fun s vs hvs => ?_)
      refine (Ends.expect hE hEnd (by decide) _).bind fun _ ws hws => ih _ ?_ ?_
      · intro hle
        exact hfuel (by omega)
      · intro hlt
        exact hdeep (by omega)
    · cases t.kind.infixPower? with
      | none => exact .failAt hE t _
      | some p =>
        refine .ite (fun _ => .pure rfl) fun _ => .bind_advance ?_
        refine (hd.expression _ us hEnd hbehind).bind fun s vs hvs => ih _ ?_ ?_
        · intro hle
          exact hfuel (by omega)
        · intro hlt
          exact hdeep (by omega)

include hE hd in
theorem expression_ends (power : Nat) (hdeep : n < 2 * ts.length → E .nestingLimit) :
    Ends E (fun _ => 1) (expression ctx d power) ts := by
  refine (operand_ends hE hEnd hd hdeep).bind fun s us hus => .bind_look get_run ?_
  refine operators_ends hE hEnd hd power s ?_ ?_
  · intro hle
    omega
  · intro hlt
    exact hdeep (by omega)

/-! ## Statements -/

include hE hd in
theorem printStatement_ends (hdeep : n < 2 * ts.length → E .nestingLimit) :
    Ends E (fun _ => 1) (printStatement ctx d) ts := by
  refine Ends.advance.bind fun _ us hus => ?_
  refine (Ends.expect hE hEnd (by decide) _).bind fun _ vs hvs => ?_
  refine (hd.expression 0 vs hEnd ?_).bind fun s ws hws => ?_
  · intro hlt
    exact hdeep (by omega)
  · refine (Ends.expect hE hEnd (by decide) _).bind fun _ xs hxs => .bind_look current_run ?_
    exact .ite (fun _ => .pure rfl) fun _ => .failAt hE _ _

include hE hd in
theorem letStatement_ends (hdeep : n < 2 * ts.length → E .nestingLimit) :
    Ends E (fun _ => 1) (letStatement ctx d) ts := by
  refine .bind_look current_run (Ends.advance.bind fun _ us hus => ?_)
  refine (Ends.expect hE hEnd (by decide) _).bind fun _ vs hvs => ?_
  refine (Ends.expect hE hEnd (by decide) _).bind fun _ ws hws => ?_
  refine (hd.expression 0 ws hEnd ?_).bind fun _ _ _ => .pure rfl
  intro hlt
  exact hdeep (by omega)

include hd in
theorem assignStatement_ends (hdeep : n < 2 * ts.length + 1 → E .nestingLimit) :
    Ends E (fun _ => 1) (assignStatement ctx d) ts := by
  refine .bind_look current_run (Ends.advance.bind fun _ us hus => ?_)
  refine .bind_look current_run (Ends.advance.bind fun _ vs hvs => ?_)
  refine (hd.expression 0 vs hEnd ?_).bind fun _ _ _ => .pure rfl
  intro hlt
  exact hdeep (by omega)

include hE hd in
theorem condition_ends (word : String) (hdeep : n < 2 * ts.length → E .nestingLimit) :
    Ends E (fun _ => 3) (condition ctx d word) ts := by
  refine (Ends.expect hE hEnd (by decide) _).bind fun _ us hus => ?_
  refine (hd.expression 0 us hEnd ?_).bind fun s vs hvs => ?_
  · intro hlt
    exact hdeep (by omega)
  · exact (Ends.expect hE hEnd (by decide) _).bind fun _ _ _ => .pure rfl

include hE hd in
theorem alternative_ends (hdeep : n < 2 * ts.length + 1 → E .nestingLimit) :
    Ends E (fun _ => 0) (alternative ctx d) ts := by
  refine .bind_look current_run (.ite (fun helif => ?_) fun _ => .ite (fun _ => ?_) fun _ => ?_)
  · refine .of_current hEnd (by rw [helif]; decide) fun t us hts => ?_
    subst hts
    exact (hd.branch t us hEnd hdeep).bind fun _ _ _ => .pure rfl
  · refine Ends.advance.bind fun _ us hus => (braced_ends hE hEnd hd ?_).weaken fun _ => ?_
    · intro hlt
      exact hdeep (by omega)
    · exact Nat.zero_le _
  · exact .pure rfl

include hE hd in
theorem branch_ends (hdeep : n < 2 * ts.length → E .nestingLimit) :
    Ends E (fun _ => 1) (branch ctx d) ts := by
  refine .bind_look current_run (Ends.advance.bind fun _ us hus => ?_)
  refine (condition_ends hE hEnd hd _ ?_).bind fun test vs hvs => ?_
  · intro hlt
    exact hdeep (by omega)
  refine (braced_ends hE hEnd hd ?_).bind fun ns ws hws => ?_
  · intro hlt
    exact hdeep (by omega)
  refine (Ends.skip _).bind fun _ xs hxs => ?_
  refine (alternative_ends hE hEnd hd ?_).bind fun _ _ _ => .pure rfl
  intro hlt
  exact hdeep (by omega)

include hE hd in
theorem whileStatement_ends (hdeep : n < 2 * ts.length → E .nestingLimit) :
    Ends E (fun _ => 1) (whileStatement ctx d) ts := by
  refine Ends.advance.bind fun _ us hus => ?_
  refine (condition_ends hE hEnd hd _ ?_).bind fun test vs hvs => ?_
  · intro hlt
    exact hdeep (by omega)
  refine (braced_ends hE hEnd hd ?_).bind fun _ _ _ => .pure rfl
  intro hlt
  exact hdeep (by omega)

include hd in
theorem clause_ends (close : Kind) (hdeep : n < 2 * ts.length + 2 → E .nestingLimit) :
    Ends E (fun _ => 0) (clause ctx d close) ts := by
  refine .bind_look current_run (.ite (fun _ => .pure rfl) fun _ => ?_)
  have hheader : ctx.header.endToken.kind = .endOfInput := hEnd
  exact (hd.statement ts hheader hdeep).weaken fun _ => Nat.zero_le _

include hd in
theorem headerTest_ends (hdeep : n < 2 * ts.length + 1 → E .nestingLimit) :
    Ends E (fun _ => 0) (headerTest ctx d) ts := by
  refine .bind_look current_run (.ite (fun _ => .pure rfl) fun _ => ?_)
  exact (hd.expression 0 ts hEnd hdeep).weaken fun _ => Nat.zero_le _

include hE hd in
theorem forStatement_ends (hdeep : n < 2 * ts.length → E .nestingLimit) :
    Ends E (fun _ => 1) (forStatement ctx d) ts := by
  refine .bind_look current_run (Ends.advance.bind fun _ us hus => ?_)
  refine (Ends.expect hE hEnd (by decide) _).bind fun _ vs hvs => ?_
  refine (clause_ends hEnd hd _ ?_).bind fun init ws hws => ?_
  · intro hlt
    exact hdeep (by omega)
  refine (Ends.expect hE hEnd (by decide) _).bind fun _ xs hxs => ?_
  refine (headerTest_ends hEnd hd ?_).bind fun test ys hys => ?_
  · intro hlt
    exact hdeep (by omega)
  refine (Ends.expect hE hEnd (by decide) _).bind fun _ zs hzs => ?_
  refine (clause_ends hEnd hd _ ?_).bind fun step as has => ?_
  · intro hlt
    exact hdeep (by omega)
  refine (Ends.expect hE hEnd (by decide) _).bind fun _ bs hbs => ?_
  refine (braced_ends hE hEnd hd ?_).bind fun _ _ _ => .pure rfl
  intro hlt
  exact hdeep (by omega)

include hE hd in
theorem functionStatement_ends (hdeep : n < 2 * ts.length → E .nestingLimit) :
    Ends E (fun _ => 1) (functionStatement ctx d) ts := by
  refine .bind_look current_run (Ends.advance.bind fun _ us hus => ?_)
  refine .bind_look current_run (Ends.advance.bind fun _ vs hvs => ?_)
  refine (functionRest_ends hE hEnd hd _ ?_).bind fun _ _ _ => .pure rfl
  intro hlt
  exact hdeep (by omega)

include hE hd in
theorem statementAt_ends (hdeep : n < 2 * (t :: us).length + 1 → E .nestingLimit) :
    Ends E (fun _ => 1) (statementAt ctx d t) (t :: us) := by
  have hless : n < 2 * (t :: us).length → E .nestingLimit := fun hlt => hdeep (by omega)
  refine .bind_look second_run ?_
  split
  · exact (braced_ends hE hEnd hd hless).bind fun _ _ _ => .pure rfl
  · exact printStatement_ends hE hEnd hd hless
  · exact letStatement_ends hE hEnd hd hless
  · exact branch_ends hE hEnd hd hless
  · exact .failAt hE t _
  · exact .failAt hE t _
  · exact whileStatement_ends hE hEnd hd hless
  · exact forStatement_ends hE hEnd hd hless
  · exact .bind_advance (.pure rfl)
  · exact .failAt hE t _
  · refine .ite (fun _ => assignStatement_ends hEnd hd hdeep) fun _ => ?_
    refine .ite (fun _ => functionStatement_ends hE hEnd hd hless) fun _ => ?_
    exact (hd.expression 0 _ hEnd hdeep).bind fun _ _ _ => .pure rfl

include hE hd in
theorem statement_ends (hdeep : n < 2 * ts.length + 1 → E .nestingLimit) :
    Ends E (fun o => o.toList.length) (statement ctx d) ts := by
  refine (Ends.skip _).bind fun _ us hus => .bind_look current_run ?_
  refine .ite (fun _ => .pure rfl) fun hend => ?_
  refine .of_current hEnd (fun h => hend (.inl h)) fun t vs hvs => ?_
  subst hvs
  refine (statementAt_ends (t := t) hE hEnd hd ?_).bind fun _ _ _ => .pure rfl
  intro hlt
  exact hdeep (by omega)

end

/-! ## All levels -/

section
variable (hE : ∀ cause line column, E (.grammar cause line column))
include hE

theorem descent_progresses (n : Nat) : (descent n).Progresses E n := by
  induction n with
  | zero => exact Descent.bottom_progresses E
  | succ n ih =>
    constructor
    · intro ctx ts hEnd hdeep
      exact statement_ends hE hEnd ih fun hlt => hdeep (by omega)
    · intro ctx t us hEnd hdeep
      exact branch_ends hE hEnd ih fun hlt => hdeep (by omega)
    · intro ctx power ts hEnd hdeep
      exact expression_ends hE hEnd ih power fun hlt => hdeep (by omega)

variable (hEnd : ctx.endToken.kind = .endOfInput)
include hEnd

theorem programTree_ends (hdeep : n < 2 * ts.length + 2 → E .nestingLimit) :
    Ends E (fun _ => 0) (programTree ctx (descent n)) ts := by
  refine (blockBody_ends hEnd (descent_progresses hE n) hdeep).bind fun ns us hus => ?_
  exact .bind_look current_run (.ite (fun _ => .pure rfl) fun _ => .failAt hE _ _)

theorem fragmentTree_ends (hdeep : n < 2 * ts.length + 1 → E .nestingLimit) :
    Ends E (fun _ => 0) (fragmentTree ctx (descent n)) ts := by
  refine ((descent_progresses hE n).expression 0 ts hEnd hdeep).bind fun s us hus => ?_
  refine (Ends.skip _).bind fun _ vs hvs => .bind_look current_run ?_
  exact .ite (fun _ => .pure rfl) fun _ => .failAt hE _ _

end

end ScopeScript.Parser
