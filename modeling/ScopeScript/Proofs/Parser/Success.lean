import Mathlib.Data.List.TakeWhile
import ScopeScript.Proofs.Grammar.Leading

/-!
# When a parser succeeds

A parser is a function of the unread tokens. For each of the small parsers that
the others are put together from, a lemma says on which tokens it succeeds and
what it leaves; a bind succeeds if both of its parts do.
-/

namespace ScopeScript

namespace Token

@[simp] theorem headKind_nil (k : Kind) : headKind [] k = k := rfl

@[simp] theorem headKind_cons (t : Token) (ts : List Token) (k : Kind) :
    headKind (t :: ts) k = t.kind := rfl

@[simp] theorem headKind_append (ts us : List Token) (k : Kind) :
    headKind (ts ++ us) k = headKind ts (headKind us k) := by
  cases ts <;> rfl

/-- A kind that ends no list of tokens is that of a first token. -/
theorem eq_cons_of_headKind {ts : List Token} {k : Kind} (h : headKind ts .endOfInput = k)
    (hk : k ≠ .endOfInput) : ∃ t us, ts = t :: us ∧ t.kind = k := by
  cases ts with
  | nil => exact absurd h.symm hk
  | cons t us => exact ⟨t, us, rfl, h⟩

/-- Line ends may stand between an expression and a token that ends it. -/
theorem AllNewlines.endsExpression {es r : List Token} {k : Kind} (hes : AllNewlines es)
    (hus : (headKind r k).endsExpression = true) :
    (headKind (es ++ r) k).endsExpression = true := by
  cases es with
  | nil => exact hus
  | cons e es =>
    rw [List.cons_append, headKind_cons, hes e (List.mem_cons_self ..)]
    rfl

end Token

open Token (headKind AllNewlines AllSeparators)

namespace Parser

variable {α β : Type} {ctx : Context} {d : Descent} {ts us : List Token}

/-! ## Sequencing -/

theorem bind_eq_ok {p : Parser α} {f : α → Parser β} {r : β × List Token} :
    (p >>= f) ts = .ok r ↔ ∃ a us, p ts = .ok (a, us) ∧ f a us = .ok r := by
  change (p ts >>= fun x => f x.1 x.2) = .ok r ↔ _
  cases h : p ts with
  | error e => simp [bind, Except.bind]
  | ok x =>
    obtain ⟨a, us⟩ := x
    constructor
    · intro hf
      exact ⟨a, us, rfl, hf⟩
    · rintro ⟨b, vs, hb, hf⟩
      cases hb
      exact hf

theorem bind_of_ok {p : Parser α} {f : α → Parser β} {a : α} (h : p ts = .ok (a, us)) :
    (p >>= f) ts = f a us := by
  change (p ts >>= fun x => f x.1 x.2) = _
  rw [h]
  rfl

@[simp] theorem pure_eq_ok {a b : α} : (pure a : Parser α) ts = .ok (b, us) ↔ b = a ∧ us = ts := by
  change Except.ok (a, ts) = Except.ok (b, us) ↔ _
  simp [eq_comm]

theorem ite_eq_ok {c : Prop} [Decidable c] {p q : Parser α} {r : α × List Token} :
    (if c then p else q) ts = .ok r ↔ (c ∧ p ts = .ok r) ∨ (¬c ∧ q ts = .ok r) := by
  by_cases hc : c <;> simp [hc]

@[simp] theorem failAt_ne_ok {t : Token} {cause : ParseCause} {r : α × List Token} :
    (failAt t cause : Parser α) ts ≠ .ok r := nofun

@[simp] theorem throw_ne_ok {f : Fault} {r : α × List Token} :
    (throw f : Parser α) ts ≠ .ok r := nofun

/-! ## Reading tokens -/

theorem get_run : (get : Parser (List Token)) ts = .ok (ts, ts) := rfl

theorem current_run : current ctx ts = .ok (ts.headD ctx.endToken, ts) := rfl

theorem second_run : second ctx ts = .ok (ts.tail.headD ctx.endToken, ts) := rfl

theorem advance_run : advance ts = .ok ((), ts.tail) := rfl

theorem skip_run {kinds : List Kind} :
    skip kinds ts = .ok ((), ts.dropWhile fun t => kinds.contains t.kind) := rfl

/-- The current token has the kind of the first one; past the end it is an end token. -/
theorem kind_headD (hEnd : ctx.endToken.kind = .endOfInput) :
    (ts.headD ctx.endToken).kind = headKind ts .endOfInput := by
  cases ts with
  | nil => exact hEnd
  | cons t ts => rfl

theorem expect_eq_ok (hEnd : ctx.endToken.kind = .endOfInput) {k : Kind} {what : Expectation}
    {t : Token} (hk : k ≠ .endOfInput) :
    expect ctx k what ts = .ok (t, us) ↔ ts = t :: us ∧ t.kind = k := by
  rw [expect, bind_of_ok current_run, ite_eq_ok, bind_of_ok advance_run, pure_eq_ok,
    kind_headD hEnd]
  simp only [failAt_ne_ok, and_false, or_false]
  constructor
  · rintro ⟨hx, rfl, rfl⟩
    obtain ⟨x, xs, rfl, hx⟩ := Token.eq_cons_of_headKind hx hk
    exact ⟨rfl, hx⟩
  · rintro ⟨rfl, ht⟩
    exact ⟨ht, rfl, rfl⟩

theorem expect_run (hEnd : ctx.endToken.kind = .endOfInput) {w : Expectation} (t : Token)
    (us : List Token) (hk : t.kind ≠ .endOfInput) :
    expect ctx t.kind w (t :: us) = .ok (t, us) :=
  (expect_eq_ok hEnd hk).mpr ⟨rfl, rfl⟩

theorem accept_eq_ok (hEnd : ctx.endToken.kind = .endOfInput) {k : Kind} {b : Bool}
    (hk : k ≠ .endOfInput) : accept ctx k ts = .ok (b, us) ↔
      (b = true ∧ ∃ t, ts = t :: us ∧ t.kind = k) ∨
      (b = false ∧ us = ts ∧ headKind ts .endOfInput ≠ k) := by
  rw [accept, bind_of_ok current_run, ite_eq_ok, bind_of_ok advance_run, pure_eq_ok, pure_eq_ok,
    kind_headD hEnd]
  constructor
  · rintro (⟨hx, rfl, rfl⟩ | ⟨hx, rfl, rfl⟩)
    · obtain ⟨x, xs, rfl, hx⟩ := Token.eq_cons_of_headKind hx hk
      exact .inl ⟨rfl, x, rfl, hx⟩
    · exact .inr ⟨rfl, rfl, hx⟩
  · rintro (⟨rfl, t, rfl, ht⟩ | ⟨rfl, rfl, hx⟩)
    · exact .inl ⟨ht, rfl, rfl⟩
    · exact .inr ⟨hx, rfl, rfl⟩

/-! ## Skipping -/

theorem skip_ok {kinds : List Kind} {u : Unit} (h : skip kinds ts = .ok (u, us)) :
    ∃ es, (∀ t ∈ es, t.kind ∈ kinds) ∧ ts = es ++ us ∧
      ∀ t vs, us = t :: vs → t.kind ∉ kinds := by
  rw [skip_run] at h
  cases h
  refine ⟨ts.takeWhile fun t => kinds.contains t.kind, ?_, List.takeWhile_append_dropWhile.symm, ?_⟩
  · intro t ht
    have hp := List.mem_takeWhile_imp (p := fun t : Token => kinds.contains t.kind) ht
    exact List.contains_iff_mem.mp hp
  · intro t vs hvs ht
    have hne : ts.dropWhile (fun t => kinds.contains t.kind) ≠ [] := by
      rw [hvs]
      exact List.cons_ne_nil t vs
    have hhead := List.head_dropWhile_not _ hne
    simp only [hvs, List.head_cons] at hhead
    rw [List.contains_iff_mem.mpr ht] at hhead
    cases hhead

theorem skip_append {kinds : List Kind} {es : List Token} (hes : ∀ t ∈ es, t.kind ∈ kinds)
    (hus : ∀ t vs, us = t :: vs → t.kind ∉ kinds) : skip kinds (es ++ us) = .ok ((), us) := by
  have hall : ∀ t ∈ es, kinds.contains t.kind = true :=
    fun t ht => List.contains_iff_mem.mpr (hes t ht)
  rw [skip_run, List.dropWhile_append_of_pos hall]
  cases us with
  | nil => rfl
  | cons t vs => simp [hus t vs rfl]

theorem skip_newlines_ok {u : Unit} (h : skip [.newline] ts = .ok (u, us)) :
    ∃ es, AllNewlines es ∧ ts = es ++ us ∧ headKind us .endOfInput ≠ .newline := by
  obtain ⟨es, hes, rfl, hus⟩ := skip_ok h
  refine ⟨es, fun t ht => List.mem_singleton.mp (hes t ht), rfl, ?_⟩
  cases us with
  | nil => decide
  | cons t vs => exact fun ht => hus t vs rfl (List.mem_singleton.mpr ht)

theorem skip_newlines {es : List Token} (hes : AllNewlines es)
    (hus : headKind us .endOfInput ≠ .newline) : skip [.newline] (es ++ us) = .ok ((), us) := by
  apply skip_append (fun t ht => List.mem_singleton.mpr (hes t ht))
  rintro t vs rfl ht
  exact hus (List.mem_singleton.mp ht)

/-! ## Steps of a sequence -/

theorem expect_bind (hEnd : ctx.endToken.kind = .endOfInput) {k : Kind} {what : Expectation}
    (hk : k ≠ .endOfInput) {f : Token → Parser α} {r : α × List Token} :
    (expect ctx k what >>= f) ts = .ok r ↔
      ∃ t us, ts = t :: us ∧ t.kind = k ∧ f t us = .ok r := by
  simp only [bind_eq_ok, expect_eq_ok hEnd hk, and_assoc]

theorem skip_newlines_bind {f : Unit → Parser α} {r : α × List Token} :
    (skip [.newline] >>= f) ts = .ok r ↔ ∃ es us, AllNewlines es ∧ ts = es ++ us ∧
      headKind us .endOfInput ≠ .newline ∧ f () us = .ok r := by
  rw [bind_eq_ok]
  constructor
  · rintro ⟨_, us, hskip, h⟩
    obtain ⟨es, hes, rfl, hus⟩ := skip_newlines_ok hskip
    exact ⟨es, us, hes, rfl, hus, h⟩
  · rintro ⟨es, us, hes, rfl, hus, h⟩
    exact ⟨(), us, skip_newlines hes hus, h⟩

theorem accept_bind (hEnd : ctx.endToken.kind = .endOfInput) {k : Kind} (hk : k ≠ .endOfInput)
    {p q : Parser α} {r : α × List Token} :
    (accept ctx k >>= fun b => if b then p else q) ts = .ok r ↔
      (∃ t us, ts = t :: us ∧ t.kind = k ∧ p us = .ok r) ∨
      (headKind ts .endOfInput ≠ k ∧ q ts = .ok r) := by
  rw [bind_eq_ok]
  constructor
  · rintro ⟨b, us, hb, h⟩
    rcases (accept_eq_ok hEnd hk).mp hb with ⟨rfl, t, rfl, ht⟩ | ⟨rfl, rfl, ht⟩
    · exact .inl ⟨t, us, rfl, ht, h⟩
    · exact .inr ⟨ht, h⟩
  · rintro (⟨t, us, rfl, ht, h⟩ | ⟨ht, h⟩)
    · exact ⟨true, us, (accept_eq_ok hEnd hk).mpr (.inl ⟨rfl, t, rfl, ht⟩), h⟩
    · exact ⟨false, ts, (accept_eq_ok hEnd hk).mpr (.inr ⟨rfl, rfl, ht⟩), h⟩

/-! ## Whole lists of tokens -/

theorem kind_topContext : (topContext ts).endToken.kind = .endOfInput := by
  simp only [topContext, impliedEnd]
  split <;> rfl

theorem run'_eq_ok {p : Parser α} {a : α} : p.run' ts = .ok a ↔ ∃ us, p ts = .ok (a, us) := by
  rw [StateT.run'_eq]
  change (Prod.fst <$> p ts) = _ ↔ _
  cases p ts with
  | error f => simp [Functor.map, Except.map]
  | ok r =>
    obtain ⟨b, us⟩ := r
    simp [Functor.map, Except.map]

theorem run'_eq_error {p : Parser α} {f : Fault} : p.run' ts = .error f ↔ p ts = .error f := by
  rw [StateT.run'_eq]
  change (Prod.fst <$> p ts) = _ ↔ _
  cases p ts with
  | error e => simp [Functor.map, Except.map]
  | ok r => simp [Functor.map, Except.map]

end Parser

end ScopeScript
