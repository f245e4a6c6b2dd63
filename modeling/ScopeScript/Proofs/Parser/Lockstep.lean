import ScopeScript.Proofs.Parser.Termination

/-!
# Two runs in step

A parser is run twice, in contexts that match and on tokens that begin alike. A
relation between two such runs that the basic steps have and that sequencing
keeps is a relation between the runs of every parser, if the parsers one level
down have it. A parser looks at the token that comes next in two ways: either
what the runs see of it decides what they do, or both of them read it and it is
the same token.
-/

namespace ScopeScript

open Token (headKind)

namespace Parser

/-- One round more than there are tokens is enough for a loop. -/
def Settles {α : Type} (loop : Nat → Parser α) : Prop :=
  ∀ ts n, ts.length < n → loop n ts = loop (ts.length + 1) ts

theorem Decreasing.settles {ι α : Type} {loop : ι → Nat → Parser α} (h : Decreasing loop)
    (i : ι) : Settles (loop i) :=
  fun _ _ => h.rounds_suffice

/-- A relation between runs, with the contexts that it matches and with what may differ in a
token that both runs see and neither reads. The relation is between `p` and `q` on the tokens
of the first run, of which `p` reads at least `k` if it succeeds. -/
structure Lockstep where
  Runs : {α : Type} → (k : Nat) → (p q : Parser α) → List Token → Prop
  Contexts : Context → Context → Prop
  Seen : Token → Token → Prop
  second_end {c c' : Context} : Contexts c c' → c'.endToken.kind = .endOfInput
  inHeader {c c' : Context} : Contexts c c' → c'.inHeader = c.inHeader
  header {c c' : Context} : Contexts c c' → Contexts c.header c'.header
  seen_refl (t : Token) : Seen t t
  kind_eq {t t' : Token} : Seen t t' → t'.kind = t.kind
  weaken {α : Type} {j k : Nat} {p q : Parser α} {ts : List Token} :
    Runs k p q ts → j ≤ k → Runs j p q ts
  pure {α : Type} (a : α) (ts : List Token) : Runs 0 (Pure.pure a) (Pure.pure a) ts
  fail {α : Type} {k : Nat} {t t' : Token} (cause : ParseCause) (ts : List Token) :
    Seen t t' → Runs k (failAt t cause : Parser α) (failAt t' cause) ts
  tooDeep {α : Type} {k : Nat} (ts : List Token) :
    Runs k (throw .nestingLimit : Parser α) (throw .nestingLimit) ts
  exhausted {α : Type} {k : Nat} (q : Parser α) (ts : List Token) :
    Runs k (throw .iterationLimit) q ts
  bind {α β : Type} {j k : Nat} {p p' : Parser α} {q q' : α → Parser β} {ts : List Token} :
    Runs j p p' ts → (∀ a us, Runs (k - j) (q a) (q' a) us) → Runs k (p >>= q) (p' >>= q') ts
  seen {α : Type} {k : Nat} {c c' : Context} {q q' : Token → Parser α} {ts : List Token} :
    Contexts c c' → (∀ t t', t.kind = headKind ts .endOfInput → Seen t t' →
      Runs k (q t) (q' t') ts) → Runs k (current c >>= q) (current c' >>= q') ts
  taken {α : Type} {k : Nat} {c c' : Context} {q q' : Token → Parser α} {t : Token}
    {us : List Token} : Contexts c c' → Runs (k + 1) (q t) (q' t) (t :: us) →
      Runs (k + 1) (current c >>= q) (current c' >>= q') (t :: us)
  behind {α : Type} {k : Nat} {c c' : Context} {q q' : Token → Parser α} {t : Token}
    {us : List Token} : Contexts c c' → (∀ u u', u.kind = headKind us .endOfInput → Seen u u' →
      Runs (k + 1) (q u) (q' u') (t :: us)) →
      Runs (k + 1) (second c >>= q) (second c' >>= q') (t :: us)
  advance {α : Type} {k : Nat} {q q' : Unit → Parser α} {us : List Token} (t : Token) :
    Runs (k - 1) (q ()) (q' ()) us → Runs k (advance >>= q) (advance >>= q') (t :: us)
  skip (kinds : List Kind) (ts : List Token) : Kind.endOfInput ∉ kinds →
    Runs 0 (skip kinds) (skip kinds) ts
  rounds {α : Type} {k : Nat} {loop loop' : Nat → Parser α} {ts : List Token} :
    Settles loop' → (∀ n n', n ≤ n' → Runs k (loop n) (loop' n') ts) →
    Runs k (get >>= fun us => loop (us.length + 1)) (get >>= fun us => loop' (us.length + 1)) ts

namespace Lockstep

variable (s : Lockstep)

/-- The parsers one level down run in step. -/
structure Keeps (d : Descent) : Prop where
  statement {ctx ctx' : Context} (ts : List Token) : s.Contexts ctx ctx' →
    s.Runs 0 (d.statement ctx) (d.statement ctx') ts
  branch {ctx ctx' : Context} (t : Token) (us : List Token) : s.Contexts ctx ctx' →
    s.Runs 1 (d.branch ctx) (d.branch ctx') (t :: us)
  expression {ctx ctx' : Context} (power : Nat) (ts : List Token) : s.Contexts ctx ctx' →
    s.Runs 1 (d.expression ctx power) (d.expression ctx' power) ts

theorem bottom_keeps : s.Keeps .bottom where
  statement ts _ := s.tooDeep ts
  branch t us _ := s.tooDeep (t :: us)
  expression _ ts _ := s.tooDeep ts

variable {s} {α β : Type} {ctx ctx' : Context} {d : Descent} {ts us : List Token} {t : Token}
  {k n fuel fuel' : Nat}

theorem ite {c c' : Prop} [Decidable c] [Decidable c'] {p q p' q' : Parser α} (hc : c' ↔ c)
    (hp : c → s.Runs k p p' ts) (hq : ¬c → s.Runs k q q' ts) :
    s.Runs k (if c then p else q) (if c' then p' else q') ts := by
  by_cases h : c
  · rw [if_pos h, if_pos (hc.mpr h)]
    exact hp h
  · rw [if_neg h, if_neg (mt hc.mp h)]
    exact hq h

theorem bind_skip {kinds : List Kind} {q q' : Unit → Parser α}
    (hkinds : Kind.endOfInput ∉ kinds) (hq : ∀ us, s.Runs k (q ()) (q' ()) us) :
    s.Runs k (Parser.skip kinds >>= q) (Parser.skip kinds >>= q') ts :=
  s.bind (s.skip kinds ts hkinds) fun _ us => hq us

theorem bind_rounds {j : Nat} {loop loop' : Nat → Parser α} {q q' : α → Parser β}
    (hsettles : Settles loop')
    (hloop : ∀ n n', n ≤ n' → s.Runs j (loop n) (loop' n') ts)
    (hq : ∀ a us, s.Runs (k - j) (q a) (q' a) us) :
    s.Runs k (get >>= fun us => loop (us.length + 1) >>= q)
      (get >>= fun us => loop' (us.length + 1) >>= q') ts :=
  show s.Runs k ((get >>= fun us => loop (us.length + 1)) >>= q)
    ((get >>= fun us => loop' (us.length + 1)) >>= q') ts from
  s.bind (s.rounds hsettles hloop) hq

variable (hctx : s.Contexts ctx ctx')
include hctx

/-! ## Reading tokens -/

/-- A parser that reads the token that it looks at may also have read none. -/
theorem taken_zero {q q' : Token → Parser α} (hq : s.Runs 1 (q t) (q' t) (t :: us)) :
    s.Runs 0 (current ctx >>= q) (current ctx' >>= q') (t :: us) :=
  s.weaken (s.taken hctx hq) (Nat.zero_le 1)

theorem expect {kind : Kind} (what : Expectation) (hkind : kind ≠ .endOfInput) :
    s.Runs 1 (expect ctx kind what) (expect ctx' kind what) ts := by
  by_cases hts : headKind ts .endOfInput = kind
  · obtain ⟨t, us, rfl, ht⟩ := Token.eq_cons_of_headKind hts hkind
    refine s.taken hctx ?_
    rw [if_pos ht]
    exact s.advance t (s.pure t us)
  · refine s.seen hctx fun t t' ht hseen => ?_
    rw [if_neg (ht ▸ hts), if_neg (s.kind_eq hseen ▸ ht ▸ hts)]
    exact s.fail _ ts hseen

theorem accept {kind : Kind} (hkind : kind ≠ .endOfInput) :
    s.Runs 0 (accept ctx kind) (accept ctx' kind) ts := by
  by_cases hts : headKind ts .endOfInput = kind
  · obtain ⟨t, us, rfl, ht⟩ := Token.eq_cons_of_headKind hts hkind
    refine taken_zero hctx ?_
    rw [if_pos ht]
    exact s.advance t (s.pure true us)
  · refine s.seen hctx fun t t' ht hseen => ?_
    rw [if_neg (ht ▸ hts), if_neg (s.kind_eq hseen ▸ ht ▸ hts)]
    exact s.pure false ts

variable (hd : s.Keeps d) (hprogress : d.Progresses (fun _ => True) n)

/-! ## Lists -/

include hd in
theorem items {close : Kind} (hfuel : fuel ≤ fuel') :
    s.Runs 0 (items ctx d close fuel) (items ctx' d close fuel') ts := by
  induction fuel generalizing fuel' ts with
  | zero => exact s.exhausted _ ts
  | succ fuel ih =>
    obtain ⟨fuel', rfl⟩ := Nat.exists_eq_add_of_le' (Nat.le_of_add_left_le hfuel)
    refine s.seen hctx fun t t' _ hseen => ite (by rw [s.kind_eq hseen]) (fun _ => s.pure _ ts)
      fun _ => s.bind (hd.expression 0 ts hctx) fun m us => bind_skip (by decide) fun vs => ?_
    refine s.bind (accept hctx (by decide)) fun b ws => ite Iff.rfl (fun _ => ?_)
      fun _ => s.pure _ ws
    refine bind_skip (by decide) fun xs => ?_
    exact s.bind (ih (Nat.le_of_succ_le_succ hfuel)) fun ms ys => s.pure _ ys

include hd hprogress in
theorem enclosed {close : Kind} {what : Expectation} (hclose : close ≠ .endOfInput) :
    s.Runs 1 (enclosed ctx d close what) (enclosed ctx' d close what) (t :: us) := by
  have hsettles := (items_decreasing (s.second_end hctx) hprogress close).settles ()
  refine s.advance t (bind_skip (by decide) fun vs => ?_)
  refine bind_rounds hsettles (fun _ _ => items hctx hd) fun ns ws => ?_
  exact s.bind (expect hctx what hclose) fun _ xs => s.pure ns xs

theorem parameterNames (hfuel : fuel ≤ fuel') :
    s.Runs 0 (parameterNames ctx fuel) (parameterNames ctx' fuel') ts := by
  induction fuel generalizing fuel' ts with
  | zero => exact s.exhausted _ ts
  | succ fuel ih =>
    obtain ⟨fuel', rfl⟩ := Nat.exists_eq_add_of_le' (Nat.le_of_add_left_le hfuel)
    refine s.seen hctx fun t t' _ hseen => ite (by rw [s.kind_eq hseen]) (fun _ => s.pure _ ts)
      fun _ => s.bind (expect hctx _ (by decide)) fun x us => ?_
    refine s.bind (accept hctx (by decide)) fun b vs => ite Iff.rfl (fun _ => ?_)
      fun _ => s.pure _ vs
    exact s.bind (ih (Nat.le_of_succ_le_succ hfuel)) fun ns ws => s.pure _ ws

theorem parameterList : s.Runs 1 (parameterList ctx) (parameterList ctx') ts := by
  have hsettles := (parameterNames_decreasing (s.second_end hctx)).settles ()
  refine s.bind (expect hctx _ (by decide)) fun _ us => ?_
  refine bind_rounds hsettles (fun _ _ => parameterNames hctx) fun ns vs => ?_
  exact s.bind (expect hctx _ (by decide)) fun _ ws => s.pure _ ws

/-! ## Blocks -/

include hd in
theorem statements (hfuel : fuel ≤ fuel') :
    s.Runs 0 (statements ctx d fuel) (statements ctx' d fuel') ts := by
  induction fuel generalizing fuel' ts with
  | zero => exact s.exhausted _ ts
  | succ fuel ih =>
    obtain ⟨fuel', rfl⟩ := Nat.exists_eq_add_of_le' (Nat.le_of_add_left_le hfuel)
    refine s.bind (hd.statement ts hctx) fun o us => ?_
    cases o with
    | none => exact s.pure _ us
    | some m =>
      exact s.bind (ih (Nat.le_of_succ_le_succ hfuel)) fun ms vs => s.pure _ vs

include hd hprogress in
theorem blockBody : s.Runs 0 (blockBody ctx d) (blockBody ctx' d) ts :=
  s.rounds ((statements_decreasing (s.second_end hctx) hprogress).settles ())
    fun _ _ => statements hctx hd

include hd hprogress in
theorem braced : s.Runs 1 (braced ctx d) (braced ctx' d) ts := by
  refine bind_skip (by decide) fun us => s.seen hctx fun u u' _ hseen => ?_
  rw [s.kind_eq hseen]
  refine s.bind (expect hctx _ (by decide)) fun _ vs => ?_
  refine s.bind (blockBody hctx hd hprogress) fun ns ws => s.seen hctx fun w w' _ hseen => ?_
  rw [s.kind_eq hseen]
  exact s.bind (expect hctx _ (by decide)) fun _ xs => s.pure ns xs

include hd hprogress in
theorem functionRest (fn : Token) :
    s.Runs 1 (functionRest ctx d fn) (functionRest ctx' d fn) ts := by
  refine s.bind (parameterList hctx) fun ps us => ?_
  refine s.bind (braced hctx hd hprogress) fun body vs => ?_
  exact s.pure _ vs

/-! ## Expressions -/

include hd hprogress in
theorem operand : s.Runs 1 (operand ctx d) (operand ctx' d) ts := by
  cases ts with
  | nil =>
    refine s.seen hctx fun t t' ht hseen => ?_
    rw [s.kind_eq hseen, ht]
    exact s.fail _ [] hseen
  | cons t us =>
    refine s.taken hctx ?_
    cases t.kind
    case number | string | trueWord | falseWord => exact s.advance t (s.pure _ us)
    case name =>
      refine s.advance t (s.seen hctx fun o o' ho hseen => ite (by rw [s.kind_eq hseen])
        (fun hopen => ?_) fun _ => s.pure _ us)
      obtain ⟨o, vs, rfl, -⟩ := Token.eq_cons_of_headKind (ho.symm.trans hopen) (by decide)
      refine s.bind (enclosed hctx hd hprogress (by decide)) ?_
      exact fun ns ws => s.pure _ ws
    case openParen =>
      refine s.advance t (s.bind (hd.expression 0 us hctx) fun m vs => ?_)
      refine s.bind (accept hctx (by decide)) fun b ws => ite Iff.rfl (fun _ => s.pure m ws) ?_
      exact fun _ => s.fail _ ws (s.seen_refl t)
    case openBracket =>
      exact s.bind (enclosed hctx hd hprogress (by decide)) fun ns vs => s.pure _ vs
    case fnWord =>
      exact s.advance t (s.weaken (functionRest hctx hd hprogress t) (Nat.zero_le 1))
    case minus | bang =>
      refine s.advance t (s.bind (hd.expression _ us hctx) ?_)
      exact fun m vs => s.pure _ vs
    all_goals exact s.fail _ _ (s.seen_refl t)

include hd in
theorem operators {power : Nat} {left : Node} (hfuel : fuel ≤ fuel') :
    s.Runs 0 (operators ctx d power fuel left) (operators ctx' d power fuel' left) ts := by
  induction fuel generalizing fuel' ts left with
  | zero => exact s.exhausted _ ts
  | succ fuel ih =>
    obtain ⟨fuel', rfl⟩ := Nat.exists_eq_add_of_le' (Nat.le_of_add_left_le hfuel)
    have hfuel := Nat.le_of_succ_le_succ hfuel
    -- What ends the loop is decided by the kind of a token that is not read.
    by_cases hends : (headKind ts .endOfInput).endsExpression = true
    · refine s.seen hctx fun t t' ht hseen => ?_
      rw [s.kind_eq hseen, ht, if_pos hends, if_pos hends]
      exact s.pure left ts
    cases ts with
    | nil => exact absurd rfl hends
    | cons t us =>
      rw [Token.headKind_cons] at hends
      by_cases hopen : t.kind = .openBracket
      · by_cases hpower : Kind.indexPower < power
        · refine s.seen hctx fun o o' ho hseen => ?_
          rw [s.kind_eq hseen, ho, Token.headKind_cons, if_neg hends, if_pos hopen, if_pos hpower,
            if_neg hends, if_pos hopen, if_pos hpower]
          exact s.pure left _
        · refine taken_zero hctx ?_
          rw [if_neg hends, if_pos hopen, if_neg hpower, if_neg hends, if_pos hopen, if_neg hpower]
          refine s.advance t (s.bind (hd.expression 0 us hctx) ?_)
          refine fun m vs => s.bind (expect hctx _ (by decide)) ?_
          exact fun _ ws => ih hfuel
      · cases hp : t.kind.infixPower? with
        | none =>
          refine s.seen hctx fun o o' ho hseen => ?_
          rw [s.kind_eq hseen, ho, Token.headKind_cons, if_neg hends, if_neg hopen, hp,
            if_neg hends, if_neg hopen]
          exact s.fail _ _ hseen
        | some p =>
          by_cases hpower : p < power
          · refine s.seen hctx fun o o' ho hseen => ?_
            rw [s.kind_eq hseen, ho, Token.headKind_cons, if_neg hends, if_neg hopen, hp,
              if_neg hends, if_neg hopen]
            simp only [if_pos hpower]
            exact s.pure left _
          · refine taken_zero hctx ?_
            rw [if_neg hends, if_neg hopen, hp, if_neg hends, if_neg hopen]
            simp only [if_neg hpower]
            refine s.advance t (s.bind (hd.expression _ us hctx) ?_)
            exact fun m vs => ih hfuel

include hd hprogress in
theorem expression (power : Nat) :
    s.Runs 1 (expression ctx d power) (expression ctx' d power) ts := by
  refine s.bind (operand hctx hd hprogress) fun left us => ?_
  exact s.rounds ((operators_decreasing (s.second_end hctx) hprogress power).settles left)
    fun _ _ => operators hctx hd

/-! ## Statements -/

include hd in
theorem printStatement : s.Runs 1 (printStatement ctx d) (printStatement ctx' d) (t :: us) := by
  refine s.advance t (s.bind (expect hctx _ (by decide)) fun _ vs => ?_)
  refine s.bind (hd.expression 0 vs hctx) fun m ws => ?_
  refine s.bind (expect hctx _ (by decide)) fun _ xs => ?_
  refine s.seen hctx fun x x' _ hseen => ite ?_ (fun _ => s.pure _ xs) fun _ => s.fail _ xs hseen
  rw [s.kind_eq hseen, s.inHeader hctx]

include hd in
theorem letStatement : s.Runs 1 (letStatement ctx d) (letStatement ctx' d) (t :: us) := by
  refine s.taken hctx (s.advance t ?_)
  refine s.bind (expect hctx _ (by decide)) fun x vs => ?_
  refine s.bind (expect hctx _ (by decide)) fun _ ws => ?_
  refine s.bind (hd.expression 0 ws hctx) fun m xs => ?_
  exact s.pure _ xs

include hd in
theorem assignStatement {x : Token} :
    s.Runs 1 (assignStatement ctx d) (assignStatement ctx' d) (x :: t :: us) := by
  refine s.taken hctx (s.advance x (taken_zero hctx ?_))
  refine s.advance t (s.bind (hd.expression 0 us hctx) fun m vs => ?_)
  exact s.pure _ vs

include hd in
theorem condition (word : String) :
    s.Runs 1 (condition ctx d word) (condition ctx' d word) ts := by
  refine s.bind (expect hctx _ (by decide)) fun _ us => ?_
  refine s.bind (hd.expression 0 us hctx) fun m vs => ?_
  exact s.bind (expect hctx _ (by decide)) fun _ ws => s.pure m ws

include hd hprogress in
theorem alternative : s.Runs 0 (alternative ctx d) (alternative ctx' d) ts := by
  refine s.seen hctx fun u u' hu hseen => ?_
  rw [s.kind_eq hseen]
  refine ite Iff.rfl (fun helif => ?_) fun _ => ite Iff.rfl (fun helse => ?_) fun _ => s.pure [] ts
  · obtain ⟨t, us, rfl, -⟩ := Token.eq_cons_of_headKind (hu.symm.trans helif) (by decide)
    exact s.bind (hd.branch t us hctx) fun m vs => s.pure [m] vs
  · obtain ⟨t, us, rfl, -⟩ := Token.eq_cons_of_headKind (hu.symm.trans helse) (by decide)
    exact s.advance t (s.weaken (braced hctx hd hprogress) (Nat.zero_le 1))

include hd hprogress in
theorem branch : s.Runs 1 (branch ctx d) (branch ctx' d) (t :: us) := by
  refine s.taken hctx (s.advance t ?_)
  refine s.bind (condition hctx hd _) fun test vs => ?_
  refine s.bind (braced hctx hd hprogress) fun body ws => ?_
  refine bind_skip (by decide) fun xs => ?_
  exact s.bind (alternative hctx hd hprogress) fun rest ys => s.pure _ ys

include hd hprogress in
theorem whileStatement : s.Runs 1 (whileStatement ctx d) (whileStatement ctx' d) (t :: us) := by
  refine s.advance t ?_
  refine s.bind (condition hctx hd _) fun test vs => ?_
  refine s.bind (braced hctx hd hprogress) fun body ws => ?_
  exact s.pure _ ws

include hd in
theorem clause (close : Kind) : s.Runs 0 (clause ctx d close) (clause ctx' d close) ts := by
  refine s.seen hctx fun u u' _ hseen => ite (by rw [s.kind_eq hseen]) (fun _ => s.pure none ts) ?_
  exact fun _ => hd.statement ts (s.header hctx)

include hd in
theorem headerTest : s.Runs 0 (headerTest ctx d) (headerTest ctx' d) ts := by
  refine s.seen hctx fun u u' _ hseen => ite (by rw [s.kind_eq hseen]) (fun _ => s.pure _ ts) ?_
  exact fun _ => s.weaken (hd.expression 0 ts hctx) (Nat.zero_le 1)

include hd hprogress in
theorem forStatement : s.Runs 1 (forStatement ctx d) (forStatement ctx' d) (t :: us) := by
  refine s.taken hctx (s.advance t ?_)
  refine s.bind (expect hctx _ (by decide)) fun _ vs => ?_
  refine s.bind (clause hctx hd _) fun init ws => ?_
  refine s.bind (expect hctx _ (by decide)) fun _ xs => ?_
  refine s.bind (headerTest hctx hd) fun test ys => ?_
  refine s.bind (expect hctx _ (by decide)) fun _ zs => ?_
  refine s.bind (clause hctx hd _) fun step as => ?_
  refine s.bind (expect hctx _ (by decide)) fun _ bs => ?_
  refine s.bind (braced hctx hd hprogress) fun body cs => ?_
  exact s.pure _ cs

include hd hprogress in
theorem functionStatement {f : Token} :
    s.Runs 1 (functionStatement ctx d) (functionStatement ctx' d) (f :: t :: us) := by
  refine s.taken hctx (s.advance f (taken_zero hctx ?_))
  refine s.advance t ?_
  refine s.bind (functionRest hctx hd hprogress f) fun value vs => ?_
  exact s.pure _ vs

include hd hprogress in
theorem statementAt : s.Runs 1 (statementAt ctx d t) (statementAt ctx' d t) (t :: us) := by
  refine s.behind hctx fun u u' hu hseen => ?_
  have hstop {k : Kind} (hk : k.isAssignment = true) : k ≠ .endOfInput := by
    rintro rfl
    cases hk
  rw [s.kind_eq hseen, hu]
  split
  · exact s.bind (braced hctx hd hprogress) fun ns vs => s.pure _ vs
  · exact printStatement hctx hd
  · exact letStatement hctx hd
  · exact branch hctx hd hprogress
  · exact s.fail _ _ (s.seen_refl t)
  · exact s.fail _ _ (s.seen_refl t)
  · exact whileStatement hctx hd hprogress
  · exact forStatement hctx hd hprogress
  · exact s.advance t (s.pure _ us)
  · exact s.fail _ _ (s.seen_refl t)
  · refine ite Iff.rfl (fun ⟨_, hop⟩ => ?_) fun _ => ite Iff.rfl (fun ⟨_, hx⟩ => ?_) fun _ => ?_
    · obtain ⟨op, vs, rfl, -⟩ := Token.eq_cons_of_headKind rfl (hstop hop)
      exact assignStatement hctx hd
    · obtain ⟨x, vs, rfl, -⟩ := Token.eq_cons_of_headKind hx (by decide)
      exact functionStatement hctx hd hprogress
    · exact s.bind (hd.expression 0 _ hctx) fun m vs => s.pure _ vs

include hd hprogress in
theorem statement : s.Runs 0 (statement ctx d) (statement ctx' d) ts := by
  refine bind_skip (by decide) fun us => ?_
  by_cases hends : headKind us .endOfInput = .endOfInput ∨ headKind us .endOfInput = .closeBrace
  · refine s.seen hctx fun u u' hu hseen => ?_
    rw [s.kind_eq hseen, hu, if_pos hends, if_pos hends]
    exact s.pure none us
  · cases us with
    | nil => exact absurd (.inl rfl) hends
    | cons t vs =>
      rw [Token.headKind_cons] at hends
      refine taken_zero hctx ?_
      rw [if_neg hends, if_neg hends]
      exact s.bind (statementAt hctx hd hprogress) fun m ws => s.pure _ ws

/-! ## All levels -/

omit hctx in
theorem descent_keeps (s : Lockstep) (nesting : Nat) : s.Keeps (descent nesting) := by
  induction nesting with
  | zero => exact s.bottom_keeps
  | succ nesting ih =>
    have hprogress : (descent nesting).Progresses (fun _ => True) nesting :=
      descent_progresses (fun _ _ _ => trivial) nesting
    exact {
      statement := fun ts hctx => statement hctx ih hprogress
      branch := fun t us hctx => branch hctx ih hprogress
      expression := fun power ts hctx => expression hctx ih hprogress power }

theorem programTree (nesting : Nat) :
    s.Runs 0 (programTree ctx (descent nesting)) (programTree ctx' (descent nesting)) ts := by
  have hprogress : (descent nesting).Progresses (fun _ => True) nesting :=
    descent_progresses (fun _ _ _ => trivial) nesting
  refine s.bind (blockBody hctx (s.descent_keeps nesting) hprogress) fun ns us => ?_
  refine s.seen hctx fun t t' _ hseen => ite (by rw [s.kind_eq hseen]) (fun _ => s.pure _ us) ?_
  exact fun _ => s.fail _ us hseen

theorem fragmentTree (nesting : Nat) :
    s.Runs 0 (fragmentTree ctx (descent nesting)) (fragmentTree ctx' (descent nesting)) ts := by
  refine s.bind ((s.descent_keeps nesting).expression 0 ts hctx) fun m us => ?_
  refine bind_skip (by decide) fun vs => s.seen hctx fun t t' _ hseen => ?_
  exact ite (by rw [s.kind_eq hseen]) (fun _ => s.pure m vs) fun _ => s.fail _ vs hseen

end Lockstep

end Parser

end ScopeScript
