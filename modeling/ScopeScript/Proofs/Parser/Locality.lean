import ScopeScript.Proofs.Lexer.Seam
import ScopeScript.Proofs.Node.Relocated
import ScopeScript.Proofs.Parser.Faults

/-!
# Tokens in front of other tokens

What a parser reads from the tokens of a program it reads too where other
tokens stand in the place of their end, behind a line end. The two runs are
followed side by side. They part only past the common tokens: a branch looks
past line ends for the word that goes on with it and then ends in front of
what comes next. Any other part that has reached the end of the input there
has to fail, since it still needs a token.
-/

namespace ScopeScript

open Token (headKind)

namespace Kind

/-- The kinds that stand behind a whole program. -/
def endsProgram : Kind → Bool
  | .endOfInput | .newline => true
  | _ => false

theorem eq_of_endsProgram {k : Kind} (h : k.endsProgram = true) :
    k = .endOfInput ∨ k = .newline := by
  cases k <;> first | exact .inl rfl | exact .inr rfl | cases h

theorem ne_endOfInput {k : Kind} (h : k.endsProgram = false) : k ≠ .endOfInput := by
  rintro rfl
  cases h

theorem endsProgram_endsExpression {k : Kind} (h : k.endsProgram = true) :
    k.endsExpression = true := by
  rcases eq_of_endsProgram h with rfl | rfl <;> rfl

end Kind

namespace Parser

/-- Two endings of the same tokens, which stand `shift` lines further down in front of the
second one. The first ending is one of the input; the second one does not go on with a branch. -/
structure Seam where
  shift : Nat
  first : List Token
  second : List Token
  first_ends : (headKind first .endOfInput).endsProgram = true
  second_ends : (headKind second .endOfInput).endsProgram = true
  length_le : first.length ≤ second.length
  first_stops : headKind (first.dropWhile fun t => [Kind.newline].contains t.kind) .endOfInput =
    .endOfInput
  second_starts :
    headKind (second.dropWhile fun t => [Kind.newline].contains t.kind) .endOfInput ≠ .elifWord ∧
    headKind (second.dropWhile fun t => [Kind.newline].contains t.kind) .endOfInput ≠ .elseWord

namespace Seam

variable (s : Seam)

abbrev node : Node → Node := Node.relocated (.below s.shift)

/-- The second ending without the line ends in front. -/
def beyond : List Token := s.second.dropWhile fun t => [Kind.newline].contains t.kind

/-- The same tokens in front of the two endings. -/
def Aligned (ts ts' : List Token) : Prop :=
  ∃ ws, (∀ t ∈ ws, t.kind ≠ .endOfInput) ∧ ts = ws ++ s.first ∧
    ts' = ws.map (.below s.shift) ++ s.second

variable {s} {ts ts' us : List Token}

theorem first_head_ne {k : Kind} (hk : k.endsProgram = false) :
    headKind s.first .endOfInput ≠ k := by
  intro h
  have hends := s.first_ends
  rw [h, hk] at hends
  cases hends

theorem Aligned.cons {us' : List Token} {t : Token} (ht : t.kind ≠ .endOfInput)
    (h : s.Aligned us us') : s.Aligned (t :: us) (t.below s.shift :: us') := by
  obtain ⟨ws, hws, rfl, rfl⟩ := h
  exact ⟨t :: ws, List.forall_mem_cons.mpr ⟨ht, hws⟩, rfl, rfl⟩

theorem Aligned.cases (h : s.Aligned ts ts') :
    (∃ t us us', ts = t :: us ∧ ts' = t.below s.shift :: us' ∧ t.kind ≠ .endOfInput ∧
      s.Aligned us us') ∨ (ts = s.first ∧ ts' = s.second) := by
  obtain ⟨ws, hws, rfl, rfl⟩ := h
  cases ws with
  | nil => exact .inr ⟨rfl, rfl⟩
  | cons t ws =>
    obtain ⟨ht, hws⟩ := List.forall_mem_cons.mp hws
    exact .inl ⟨t, _, _, rfl, rfl, ht, ws, hws, rfl, rfl⟩

theorem Aligned.length_le (h : s.Aligned ts ts') : ts.length ≤ ts'.length := by
  obtain ⟨ws, -, rfl, rfl⟩ := h
  simpa using s.length_le

/-- The next tokens are of one kind, or both runs are at the end. -/
theorem Aligned.headKind (h : s.Aligned ts ts') :
    headKind ts .endOfInput = headKind ts' .endOfInput ∨
      ((headKind ts .endOfInput).endsProgram = true ∧
        (headKind ts' .endOfInput).endsProgram = true) := by
  rcases h.cases with ⟨t, us, us', rfl, rfl, -, -⟩ | ⟨rfl, rfl⟩
  · exact .inl rfl
  · exact .inr ⟨s.first_ends, s.second_ends⟩

theorem Aligned.headKind_eq_iff (h : s.Aligned ts ts') {k : Kind} (hk : k.endsProgram = false) :
    Token.headKind ts' .endOfInput = k ↔ Token.headKind ts .endOfInput = k := by
  rcases h.headKind with heq | ⟨hts, hts'⟩
  · rw [heq]
  · constructor
    · rintro rfl
      exact absurd (hts'.symm.trans hk) nofun
    · rintro rfl
      exact absurd (hts.symm.trans hk) nofun

theorem Aligned.token (h : s.Aligned ts ts') {k : Kind} (hk : k.endsProgram = false)
    (hts : Token.headKind ts .endOfInput = k) : ∃ t us us', ts = t :: us ∧
      ts' = t.below s.shift :: us' ∧ t.kind = k ∧ s.Aligned us us' := by
  rcases h.cases with ⟨t, us, us', rfl, rfl, -, hus⟩ | ⟨rfl, rfl⟩
  · exact ⟨t, us, us', rfl, rfl, hts, hus⟩
  · exact absurd hts (first_head_ne hk)

theorem Aligned.skip (kinds : List Kind) (h : s.Aligned ts ts') :
    (∃ t us us', ts.dropWhile (fun t => kinds.contains t.kind) = t :: us ∧
      ts'.dropWhile (fun t => kinds.contains t.kind) = t.below s.shift :: us' ∧
      t.kind ≠ .endOfInput ∧ s.Aligned us us') ∨
    (ts.dropWhile (fun t => kinds.contains t.kind) =
      s.first.dropWhile (fun t => kinds.contains t.kind) ∧
      ts'.dropWhile (fun t => kinds.contains t.kind) =
        s.second.dropWhile fun t => kinds.contains t.kind) := by
  obtain ⟨ws, hws, rfl, rfl⟩ := h
  induction ws with
  | nil => exact .inr ⟨rfl, rfl⟩
  | cons t ws ih =>
    obtain ⟨ht, hws⟩ := List.forall_mem_cons.mp hws
    by_cases hk : kinds.contains t.kind = true
    · have hdrop (u : Token) (us : List Token) (hu : kinds.contains u.kind = true) :
          (u :: us).dropWhile (fun t => kinds.contains t.kind) =
            us.dropWhile fun t => kinds.contains t.kind :=
        List.dropWhile_cons_of_pos hu
      rw [List.cons_append, List.map_cons, List.cons_append, hdrop t _ hk,
        hdrop (t.below s.shift) _ hk]
      exact ih hws
    · refine .inl ⟨t, ws ++ s.first, ws.map (.below s.shift) ++ s.second, ?_, ?_, ht, ws, hws,
        rfl, rfl⟩
      · exact List.dropWhile_cons_of_neg hk
      · exact List.dropWhile_cons_of_neg hk

end Seam

/-- What holds where the first run has ended past the common tokens with a result, given
that `p` says the same of the second run. -/
abbrev Landing (α : Type) := α → Prop → Prop

namespace Landing

variable {α : Type}

/-- It cannot end there. -/
def exact : Landing α := fun _ _ => False

/-- The second run ends in front of what comes next, with the same result. -/
def past : Landing α := fun _ p => p

/-- The second run goes another way. -/
def inside : Landing α := fun _ _ => True

/-- A statement ends there, the absence of one does not. -/
def statement : Landing (Option α) := fun o p => o.isSome = true → p

end Landing

def AtEnd (ts : List Token) : Prop := headKind ts .endOfInput = .endOfInput

theorem AtEnd.endsProgram {ts : List Token} (h : AtEnd ts) :
    (headKind ts .endOfInput).endsProgram = true := by
  rw [h]
  rfl

variable {α β : Type} {s : Seam} {l : Landing β} {ctx ctx' : Context} {d : Descent}
  {ts ts' us us' : List Token}

/-- Where this run succeeds, it is at the end of its input. -/
def Stays (x : Except Fault (α × List Token)) : Prop := ∀ a us, x = .ok (a, us) → AtEnd us

namespace Stays

theorem of_stuck {x : Except Fault (α × List Token)} (h : ∀ r, x ≠ .ok r) : Stays x :=
  fun a us hx => absurd hx (h (a, us))

theorem pure {a : α} (h : AtEnd ts) : Stays ((Pure.pure a : Parser α) ts) :=
  fun _ _ ha => (pure_eq_ok.mp ha).2 ▸ h

theorem bind {p : Parser α} {q : α → Parser β} (hp : Stays (p ts))
    (hq : ∀ a us, AtEnd us → Stays (q a us)) : Stays ((p >>= q) ts) := by
  intro b vs hb
  obtain ⟨a, us, ha, hb⟩ := bind_eq_ok.mp hb
  exact hq a us (hp a us ha) b vs hb

theorem bind_stuck {p : Parser α} {q : α → Parser β} (hp : Stays (p ts))
    (hq : ∀ a us, AtEnd us → ∀ r, q a us ≠ .ok r) (r : β × List Token) :
    (p >>= q) ts ≠ .ok r := by
  intro hr
  obtain ⟨a, us, ha, hr⟩ := bind_eq_ok.mp hr
  exact hq a us (hp a us ha) r hr

theorem ite {c : Prop} [Decidable c] {p q : Parser α} (hp : c → Stays (p ts))
    (hq : ¬c → Stays (q ts)) : Stays ((if c then p else q) ts) := by
  split
  next h => exact hp h
  next h => exact hq h

theorem skip {kinds : List Kind} (h : AtEnd ts) (hk : kinds.contains .endOfInput = false) :
    Stays (skip kinds ts) := by
  intro _ us hus
  cases hus
  cases ts with
  | nil => exact rfl
  | cons t ts =>
    rw [AtEnd, Token.headKind_cons] at h
    rw [List.dropWhile_cons_of_neg (by simpa [h] using hk)]
    exact h

theorem accept (hEnd : ctx.endToken.kind = .endOfInput) {k : Kind} (hk : k ≠ .endOfInput)
    (h : AtEnd ts) : Stays (accept ctx k ts) := by
  intro b us hb
  rcases (accept_eq_ok hEnd hk).mp hb with ⟨-, t, rfl, ht⟩ | ⟨-, rfl, -⟩
  · exact absurd (ht.symm.trans h) hk
  · exact h

end Stays

/-- Where the first run succeeds, the second one has the result that `f` says and goes on at
aligned tokens, unless the first one has reached the end of its input. -/
def Follows (s : Seam) (l : Landing α) (f : α → α) (x y : Except Fault (α × List Token)) :
    Prop :=
  ∀ a us, x = .ok (a, us) → (∃ us', y = .ok (f a, us') ∧ s.Aligned us us') ∨
    (AtEnd us ∧ l a (y = .ok (f a, s.beyond)))

namespace Follows

variable {f : α → α} {g : β → β}

theorem of_stuck {x y : Except Fault (β × List Token)} (h : ∀ r, x ≠ .ok r) :
    Follows s l g x y :=
  fun b us hx => absurd hx (h (b, us))

theorem of_stays {x y : Except Fault (β × List Token)} (h : Stays x) : Follows s .inside g x y :=
  fun b us hx => .inr ⟨h b us hx, trivial⟩

theorem mono {l' : Landing β} {x y : Except Fault (β × List Token)} (h : Follows s l g x y)
    (hl : ∀ b p, l b p → l' b p) : Follows s l' g x y :=
  fun b us hx => (h b us hx).imp_right fun ⟨hus, hp⟩ => ⟨hus, hl b _ hp⟩

theorem of_exact {x y : Except Fault (β × List Token)} (h : Follows s .exact g x y) :
    Follows s l g x y :=
  h.mono fun _ _ hp => hp.elim

theorem pure {b b' : β} (hb : g b = b') (h : s.Aligned ts ts') :
    Follows s l g ((Pure.pure b : Parser β) ts) ((Pure.pure b' : Parser β) ts') := by
  intro a us ha
  obtain ⟨rfl, rfl⟩ := pure_eq_ok.mp ha
  exact .inl ⟨ts', pure_eq_ok.mpr ⟨hb, rfl⟩, h⟩

/-- Where the first part ends past the common tokens, the second part has to cope. -/
theorem bind {l' : Landing α} {p p' : Parser α} {q q' : α → Parser β}
    (hp : Follows s l' f (p ts) (p' ts'))
    (hq : ∀ a us us', s.Aligned us us' → Follows s l g (q a us) (q' (f a) us'))
    (hend : ∀ a us, AtEnd us → l' a (p' ts' = .ok (f a, s.beyond)) →
      Follows s l g (q a us) ((p' >>= q') ts')) :
    Follows s l g ((p >>= q) ts) ((p' >>= q') ts') := by
  intro b vs hb
  obtain ⟨a, us, ha, hb⟩ := bind_eq_ok.mp hb
  rcases hp a us ha with ⟨us', ha', hus⟩ | ⟨hus, hp'⟩
  · rw [bind_of_ok ha']
    exact hq a us us' hus b vs hb
  · exact hend a us hus hp' b vs hb

theorem bind_exact {p p' : Parser α} {q q' : α → Parser β}
    (hp : Follows s .exact f (p ts) (p' ts'))
    (hq : ∀ a us us', s.Aligned us us' → Follows s l g (q a us) (q' (f a) us')) :
    Follows s l g ((p >>= q) ts) ((p' >>= q') ts') :=
  hp.bind hq fun _ _ _ h => h.elim

/-- The second part needs a token, so the first one has not reached the end of the input. -/
theorem bind_stuck {l' : Landing α} {p p' : Parser α} {q q' : α → Parser β}
    (hp : Follows s l' f (p ts) (p' ts'))
    (hq : ∀ a us us', s.Aligned us us' → Follows s l g (q a us) (q' (f a) us'))
    (hend : ∀ a us, AtEnd us → ∀ r, q a us ≠ .ok r) :
    Follows s l g ((p >>= q) ts) ((p' >>= q') ts') :=
  hp.bind hq fun a us hus _ => .of_stuck (hend a us hus)

/-- What is made of the result does not change where the runs have ended. -/
theorem bind_pure {p p' : Parser α} {h h' : α → β} (hp : Follows s .past f (p ts) (p' ts'))
    (hh : ∀ a, g (h a) = h' (f a)) : Follows s .past g
      ((p >>= fun a => Pure.pure (h a)) ts) ((p' >>= fun a => Pure.pure (h' a)) ts') := by
  refine hp.bind (fun a us us' hus => .pure (hh a) hus) fun a us hus hp' b vs hb => ?_
  obtain ⟨rfl, rfl⟩ := pure_eq_ok.mp hb
  exact .inr ⟨hus, bind_of_ok hp' ▸ pure_eq_ok.mpr ⟨hh a, rfl⟩⟩

theorem ite {c c' : Prop} [Decidable c] [Decidable c'] {p q p' q' : Parser β} (hc : c' ↔ c)
    (hp : c → Follows s l g (p ts) (p' ts')) (hq : ¬c → Follows s l g (q ts) (q' ts')) :
    Follows s l g ((if c then p else q) ts) ((if c' then p' else q') ts') := by
  by_cases h : c
  · rw [if_pos h, if_pos (hc.mpr h)]
    exact hp h
  · rw [if_neg h, if_neg (mt hc.mp h)]
    exact hq h

end Follows

/-! ## Reading tokens -/

/-- Contexts of two runs, which differ in their end tokens alone. -/
structure Alike (ctx ctx' : Context) : Prop where
  first_end : ctx.endToken.kind = .endOfInput
  second_end : ctx'.endToken.kind = .endOfInput
  inHeader : ctx'.inHeader = ctx.inHeader

theorem bind_stuck {p : Parser α} {q : α → Parser β} (h : ∀ r, p ts ≠ .ok r)
    (r : β × List Token) : (p >>= q) ts ≠ .ok r := by
  intro hr
  obtain ⟨a, us, ha, -⟩ := bind_eq_ok.mp hr
  exact h _ ha

variable (hctx : Alike ctx ctx')
include hctx

theorem expect_stuck {k : Kind} {what : Expectation} (hk : k.endsProgram = false)
    (h : (headKind ts .endOfInput).endsProgram = true) r : expect ctx k what ts ≠ .ok r := by
  obtain ⟨t, us⟩ := r
  intro hr
  obtain ⟨rfl, rfl⟩ := (expect_eq_ok hctx.first_end (Kind.ne_endOfInput hk)).mp hr
  rw [Token.headKind_cons, hk] at h
  cases h

theorem expect_bind_stuck {k : Kind} {what : Expectation} {q : Token → Parser β}
    (hk : k.endsProgram = false) (h : AtEnd ts) r : (expect ctx k what >>= q) ts ≠ .ok r :=
  bind_stuck (expect_stuck hctx hk h.endsProgram) r

/-- Both runs have a token of this kind in front of them, or neither. -/
theorem current_kind_iff {k : Kind} (hk : k.endsProgram = false) (h : s.Aligned ts ts') :
    (ts'.headD ctx'.endToken).kind = k ↔ (ts.headD ctx.endToken).kind = k := by
  rw [kind_headD hctx.first_end, kind_headD hctx.second_end]
  exact h.headKind_eq_iff hk

theorem expect_follows {k : Kind} {what what' : Expectation} (hk : k.endsProgram = false)
    (h : s.Aligned ts ts') :
    Follows s .exact (Token.below s.shift) (expect ctx k what ts) (expect ctx' k what' ts') := by
  intro t us ht
  have hne := Kind.ne_endOfInput hk
  obtain ⟨rfl, rfl⟩ := (expect_eq_ok hctx.first_end hne).mp ht
  obtain ⟨_, _, us', heq, rfl, -, hus⟩ := h.token hk rfl
  obtain ⟨rfl, rfl⟩ := List.cons.inj heq
  exact .inl ⟨us', (expect_eq_ok hctx.second_end hne).mpr ⟨rfl, rfl⟩, hus⟩

theorem accept_follows {k : Kind} (hk : k.endsProgram = false) (h : s.Aligned ts ts') :
    Follows s .exact id (accept ctx k ts) (accept ctx' k ts') := by
  intro b us hb
  have hne := Kind.ne_endOfInput hk
  rcases (accept_eq_ok hctx.first_end hne).mp hb with ⟨rfl, t, rfl, ht⟩ | ⟨rfl, rfl, ht⟩
  · obtain ⟨_, _, us', heq, rfl, -, hus⟩ := h.token hk ht
    obtain ⟨rfl, rfl⟩ := List.cons.inj heq
    exact .inl ⟨us', (accept_eq_ok hctx.second_end hne).mpr (.inl ⟨rfl, _, rfl, ht⟩), hus⟩
  · have ht' := mt (h.headKind_eq_iff hk).mp ht
    exact .inl ⟨ts', (accept_eq_ok hctx.second_end hne).mpr (.inr ⟨rfl, rfl, ht'⟩), h⟩

omit hctx in
theorem skip_follows (h : s.Aligned ts ts') :
    Follows s .past id (skip [.newline] ts) (skip [.newline] ts') := by
  rw [skip_run, skip_run]
  intro _ us hus
  cases hus
  rcases h.skip [.newline] with ⟨t, us, us', hts, hts', ht, hus⟩ | ⟨hts, hts'⟩
  · rw [hts, hts']
    exact .inl ⟨_, rfl, hus.cons ht⟩
  · rw [hts, hts']
    exact .inr ⟨s.first_stops, rfl⟩

/-- What the parsers one level down read. -/
structure Descent.Local (d : Descent) : Prop where
  statement : ∀ {s : Seam} {ctx ctx' : Context} {ts ts' : List Token}, Alike ctx ctx' →
    s.Aligned ts ts' →
    Follows s .statement (Option.map s.node) (d.statement ctx ts) (d.statement ctx' ts')
  branch : ∀ {s : Seam} {ctx ctx' : Context} {us us' : List Token} (t : Token), Alike ctx ctx' →
    s.Aligned us us' →
    Follows s .past s.node (d.branch ctx (t :: us)) (d.branch ctx' (t.below s.shift :: us'))
  expression : ∀ {s : Seam} {ctx ctx' : Context} {ts ts' : List Token} (m : Nat),
    Alike ctx ctx' → s.Aligned ts ts' →
    Follows s .exact s.node (d.expression ctx m ts) (d.expression ctx' m ts')

omit hctx in
theorem Descent.bottom_local : Descent.bottom.Local where
  statement _ _ := .of_stuck fun _ => throw_ne_ok
  branch _ _ _ := .of_stuck fun _ => throw_ne_ok
  expression _ _ _ := .of_stuck fun _ => throw_ne_ok

variable (hd : d.Local) (hs : d.Sound)

include hs in
/-- No expression begins with a line end or at the end of the input. -/
theorem expression_stuck {m : Nat} (h : (headKind ts .endOfInput).endsProgram = true) r :
    d.expression ctx m ts ≠ .ok r := by
  obtain ⟨n, us⟩ := r
  intro hr
  obtain ⟨vs, rfl, hvs, -⟩ := hs.expression hctx.first_end hr
  have hleads : LeadsExpression vs := by
    unfold DerivesAbove at hvs
    split at hvs
    · exact hvs.leads
    · exact hvs.derives.leads
  obtain ⟨t, vs, rfl, ht, -⟩ := hleads
  rw [List.cons_append, Token.headKind_cons] at h
  cases hk : t.kind <;> simp [hk, Kind.endsProgram, Kind.beginsExpression] at h ht

/-! ## Lists -/

theorem items_stays {close : Kind} {fuel : Nat} (h : AtEnd ts) :
    Stays (items ctx d close fuel ts) := by
  cases fuel with
  | zero => exact .of_stuck fun _ => throw_ne_ok
  | succ fuel =>
    rw [items, bind_of_ok current_run, kind_headD hctx.first_end, if_pos (.inr h)]
    exact .pure h

include hd hs in
theorem items_follows {close : Kind} {fuel fuel' : Nat} (hclose : close.endsProgram = false)
    (hfuel : fuel ≤ fuel') (h : s.Aligned ts ts') : Follows s .inside (List.map s.node)
      (items ctx d close fuel ts) (items ctx' d close fuel' ts') := by
  induction fuel generalizing fuel' ts ts' with
  | zero => exact .of_stuck fun _ => throw_ne_ok
  | succ fuel ih =>
    obtain ⟨fuel', rfl⟩ := Nat.exists_eq_add_of_le' (Nat.le_of_add_left_le hfuel)
    have hfuel := Nat.le_of_succ_le_succ hfuel
    rcases h.cases with ⟨t, us, us', rfl, rfl, -, -⟩ | ⟨rfl, rfl⟩
    · rw [items, items, bind_of_ok current_run, bind_of_ok current_run]
      refine .ite Iff.rfl (fun _ => .pure rfl h) fun _ => ?_
      refine (hd.expression 0 hctx h).bind_exact fun n vs vs' hvs => ?_
      refine (skip_follows hvs).bind (fun _ ws ws' hws => ?_) fun _ ws hws _ => .of_stays ?_
      · refine (accept_follows hctx rfl hws).bind_exact fun b xs xs' hxs => ?_
        refine .ite Iff.rfl (fun _ => ?_) fun _ => .pure rfl hxs
        refine (skip_follows hxs).bind (fun _ ys ys' hys => ?_) fun _ ys hys _ => .of_stays ?_
        · exact (ih hfuel hys).bind (fun ms zs zs' hzs => .pure rfl hzs)
            fun ms zs hzs _ => .of_stays (.pure hzs)
        · exact (items_stays hctx hys).bind fun _ _ hzs => .pure hzs
      · refine (Stays.accept hctx.first_end (by decide) hws).bind fun b xs hxs => ?_
        refine .ite (fun _ => (Stays.skip hxs rfl).bind fun _ ys hys => ?_) fun _ => .pure hxs
        exact (items_stays hctx hys).bind fun _ _ hzs => .pure hzs
    · rw [items, bind_of_ok current_run]
      refine .of_stays (.ite (fun hk => ?_) fun _ => .of_stuck (bind_stuck ?_))
      · rw [kind_headD hctx.first_end] at hk
        exact .pure (hk.resolve_left (Seam.first_head_ne hclose))
      · exact fun r => expression_stuck hctx hs s.first_ends r

include hd hs in
theorem enclosed_follows {close : Kind} {what : Expectation} {o o' : Token}
    (hclose : close.endsProgram = false) (h : s.Aligned us us') :
    Follows s .exact (List.map s.node) (enclosed ctx d close what (o :: us))
      (enclosed ctx' d close what (o' :: us')) := by
  have hrest (ns : List Node) (ts : List Token) (hts : AtEnd ts) (r : List Node × List Token) :
      (do
        let _ ← expect ctx close what
        return ns : Parser (List Node)) ts ≠ .ok r :=
    expect_bind_stuck hctx hclose hts r
  rw [enclosed, enclosed, bind_of_ok advance_run, bind_of_ok advance_run]
  refine (skip_follows h).bind_stuck (fun _ vs vs' hvs => ?_) fun _ vs hvs => ?_
  · rw [bind_of_ok get_run, bind_of_ok get_run]
    refine (items_follows hctx hd hs hclose (Nat.succ_le_succ hvs.length_le) hvs).bind_stuck
      (fun ns ws ws' hws => ?_) hrest
    exact (expect_follows hctx hclose hws).bind_exact fun _ _ _ hxs => .pure rfl hxs
  · rw [bind_of_ok get_run]
    exact (items_stays hctx hvs).bind_stuck hrest

theorem parameterNames_follows {fuel fuel' : Nat} (hfuel : fuel ≤ fuel')
    (h : s.Aligned ts ts') : Follows s .inside (List.map s.node) (parameterNames ctx fuel ts)
      (parameterNames ctx' fuel' ts') := by
  induction fuel generalizing fuel' ts ts' with
  | zero => exact .of_stuck fun _ => throw_ne_ok
  | succ fuel ih =>
    obtain ⟨fuel', rfl⟩ := Nat.exists_eq_add_of_le' (Nat.le_of_add_left_le hfuel)
    rcases h.cases with ⟨t, us, us', rfl, rfl, -, -⟩ | ⟨rfl, rfl⟩
    · rw [parameterNames, parameterNames, bind_of_ok current_run, bind_of_ok current_run]
      refine .ite Iff.rfl (fun _ => .pure rfl h) fun _ => ?_
      refine (expect_follows hctx rfl h).bind_exact fun x vs vs' hvs => ?_
      refine (accept_follows hctx rfl hvs).bind_exact fun b ws ws' hws => ?_
      refine .ite Iff.rfl (fun _ => ?_) fun _ => .pure rfl hws
      exact (ih (Nat.le_of_succ_le_succ hfuel) hws).bind (fun ns xs xs' hxs => .pure rfl hxs)
        fun ns xs hxs _ => .of_stays (.pure hxs)
    · rw [parameterNames, bind_of_ok current_run]
      refine .of_stays (.ite (fun hk => ?_) fun hk => .of_stuck ?_)
      · rw [kind_headD hctx.first_end] at hk
        exact .pure (hk.resolve_left (Seam.first_head_ne rfl))
      · rintro ⟨ns, us⟩ hns
        obtain ⟨x, xs, hx, hname, -⟩ := (expect_bind hctx.first_end (by decide)).mp hns
        have hhead : headKind s.first .endOfInput = .name := by rw [hx, Token.headKind_cons, hname]
        exact Seam.first_head_ne rfl hhead

theorem parameterList_follows (h : s.Aligned ts ts') :
    Follows s .exact s.node (parameterList ctx ts) (parameterList ctx' ts') := by
  refine (expect_follows hctx rfl h).bind_exact fun _ us us' hus => ?_
  rw [bind_of_ok get_run, bind_of_ok get_run]
  refine (parameterNames_follows hctx (Nat.succ_le_succ hus.length_le) hus).bind_stuck
    (fun ns vs vs' hvs => ?_) fun ns vs hvs => expect_bind_stuck hctx rfl hvs
  refine (expect_follows hctx rfl hvs).bind_exact fun _ _ _ hws => .pure ?_ hws
  rw [Seam.node, Node.relocated, Node.allRelocated_eq_map]
  rfl

/-! ## Blocks -/

include hs in
theorem statement_atEnd {o : Option Node} (h : AtEnd ts) (ho : d.statement ctx ts = .ok (o, us)) :
    o = none ∧ AtEnd us := by
  have hread := hs.statement hctx.first_end ho
  cases o with
  | none =>
    obtain ⟨ss, hss, rfl, -⟩ := hread
    cases ss with
    | nil => exact ⟨rfl, h⟩
    | cons t ss =>
      have ht := hss t (List.mem_cons_self ..)
      rw [show t.kind = .endOfInput from h] at ht
      rcases ht with ht | ht <;> cases ht
  | some n =>
    obtain ⟨ss, t, vs, m, hss, rfl, hm, -⟩ := hread
    cases ss with
    | nil =>
      have ht := hm.begins_statement
      rw [show t.kind = .endOfInput from h] at ht
      cases ht
    | cons t ss =>
      have ht := hss t (List.mem_cons_self ..)
      rw [show t.kind = .endOfInput from h] at ht
      rcases ht with ht | ht <;> cases ht

include hs in
theorem statements_atEnd {fuel : Nat} {ns : List Node} (h : AtEnd ts)
    (hns : statements ctx d fuel ts = .ok (ns, us)) : ns = [] ∧ AtEnd us := by
  cases fuel with
  | zero => exact absurd hns throw_ne_ok
  | succ fuel =>
    rw [statements, bind_eq_ok] at hns
    obtain ⟨o, vs, ho, hns⟩ := hns
    obtain ⟨rfl, hvs⟩ := statement_atEnd hctx hs h ho
    obtain ⟨rfl, rfl⟩ := pure_eq_ok.mp hns
    exact ⟨rfl, hvs⟩

include hd hs in
theorem statements_follows {fuel fuel' : Nat} (hfuel : fuel ≤ fuel') (h : s.Aligned ts ts') :
    Follows s .inside (List.map s.node) (statements ctx d fuel ts)
      (statements ctx' d fuel' ts') := by
  induction fuel generalizing fuel' ts ts' with
  | zero => exact .of_stuck fun _ => throw_ne_ok
  | succ fuel ih =>
    obtain ⟨fuel', rfl⟩ := Nat.exists_eq_add_of_le' (Nat.le_of_add_left_le hfuel)
    rw [statements, statements]
    refine (hd.statement hctx h).bind (fun o us us' hus => ?_) fun o us hus _ => .of_stays ?_
    · cases o with
      | none => exact .pure rfl hus
      | some n =>
        exact (ih (Nat.le_of_succ_le_succ hfuel) hus).bind (fun ns vs vs' hvs => .pure rfl hvs)
          fun ns vs hvs _ => .of_stays (.pure hvs)
    · cases o with
      | none => exact .pure hus
      | some n =>
        exact Stays.bind (fun _ _ hns => (statements_atEnd hctx hs hus hns).2)
          fun _ _ hvs => .pure hvs

include hd hs in
theorem blockBody_follows (h : s.Aligned ts ts') :
    Follows s .inside (List.map s.node) (blockBody ctx d ts) (blockBody ctx' d ts') := by
  rw [blockBody, blockBody, bind_of_ok get_run, bind_of_ok get_run]
  exact statements_follows hctx hd hs (Nat.succ_le_succ h.length_le) h

include hd hs in
theorem braced_follows (h : s.Aligned ts ts') :
    Follows s .exact (List.map s.node) (braced ctx d ts) (braced ctx' d ts') := by
  refine (skip_follows h).bind_stuck (fun _ us us' hus => ?_) fun _ us hus => ?_
  · rw [bind_of_ok current_run, bind_of_ok current_run]
    refine (expect_follows hctx rfl hus).bind_exact fun _ vs vs' hvs => ?_
    refine (blockBody_follows hctx hd hs hvs).bind_stuck (fun ns ws ws' hws => ?_)
      fun ns ws hws => ?_
    · rw [bind_of_ok current_run, bind_of_ok current_run]
      exact (expect_follows hctx rfl hws).bind_exact fun _ _ _ hxs => .pure rfl hxs
    · rw [bind_of_ok current_run]
      exact expect_bind_stuck hctx rfl hws
  · rw [bind_of_ok current_run]
    exact expect_bind_stuck hctx rfl hus

include hd hs in
theorem functionRest_follows {f : Token} (h : s.Aligned ts ts') :
    Follows s .exact s.node (functionRest ctx d f ts)
      (functionRest ctx' d (f.below s.shift) ts') := by
  refine (parameterList_follows hctx h).bind_exact fun p us us' hus => ?_
  refine (braced_follows hctx hd hs hus).bind_exact fun ns vs vs' hvs => .pure ?_ hvs
  rw [Seam.node, Node.relocated, Node.relocated, Node.allRelocated_eq_map]
  rfl

/-! ## Expressions -/

theorem operand_stuck (h : (headKind ts .endOfInput).endsProgram = true) r :
    operand ctx d ts ≠ .ok r := by
  rw [operand, bind_of_ok current_run, kind_headD hctx.first_end]
  cases hk : headKind ts .endOfInput
  case newline | endOfInput => exact failAt_ne_ok
  all_goals
    rw [hk] at h
    cases h

omit hctx in
theorem ofOperator_below (t : Token) (k : Nat) :
    (Leaf.ofOperator t).relocated (.below k) = .ofOperator (t.below k) := by
  simp only [Leaf.ofOperator, Token.below_kind, Token.below_datum]
  split <;> rfl

include hd hs in
theorem operand_follows (h : s.Aligned ts ts') :
    Follows s .exact s.node (operand ctx d ts) (operand ctx' d ts') := by
  rcases h.cases with ⟨t, us, us', rfl, rfl, -, hus⟩ | ⟨rfl, rfl⟩
  · rw [operand, operand, bind_of_ok current_run, bind_of_ok current_run]
    simp only [List.headD_cons, Token.below_kind, Token.below_datum]
    cases t.kind <;> simp only
    case number | string =>
      rw [bind_of_ok advance_run, bind_of_ok advance_run]
      exact .pure (by cases t.datum <;> rfl) hus
    case trueWord | falseWord =>
      rw [bind_of_ok advance_run, bind_of_ok advance_run]
      exact .pure rfl hus
    case name =>
      rw [bind_of_ok advance_run, bind_of_ok advance_run, bind_of_ok current_run,
        bind_of_ok current_run]
      refine .ite (current_kind_iff hctx rfl hus) (fun ho => ?_) fun _ => .pure rfl hus
      rw [List.tail_cons, kind_headD hctx.first_end] at ho
      obtain ⟨o, vs, vs', rfl, rfl, -, hvs⟩ := hus.token rfl ho
      refine (enclosed_follows hctx hd hs rfl hvs).bind_exact fun ns ws ws' hws => .pure ?_ hws
      simp only [Seam.node, Node.relocated, Node.allRelocated_eq_map]
      rfl
    case openParen =>
      rw [bind_of_ok advance_run, bind_of_ok advance_run]
      refine (hd.expression 0 hctx hus).bind_exact fun n vs vs' hvs => ?_
      refine (accept_follows hctx rfl hvs).bind_exact fun b ws ws' hws => ?_
      exact .ite Iff.rfl (fun _ => .pure rfl hws) fun _ => .of_stuck fun _ => failAt_ne_ok
    case openBracket =>
      refine (enclosed_follows hctx hd hs rfl hus).bind_exact fun ns ws ws' hws => .pure ?_ hws
      simp only [Seam.node, Node.relocated, Node.allRelocated_eq_map]
      rfl
    case fnWord =>
      rw [bind_of_ok advance_run, bind_of_ok advance_run]
      exact functionRest_follows hctx hd hs hus
    case minus | bang =>
      rw [bind_of_ok advance_run, bind_of_ok advance_run]
      refine (hd.expression _ hctx hus).bind_exact fun n vs vs' hvs => .pure ?_ hvs
      simp only [Seam.node, Node.relocated, ofOperator_below]
      rfl
    all_goals exact .of_stuck fun _ => failAt_ne_ok
  · exact .of_stuck (operand_stuck hctx s.first_ends)

include hd in
theorem operators_follows {m fuel fuel' : Nat} {left : Node} (hfuel : fuel ≤ fuel')
    (h : s.Aligned ts ts') : Follows s .exact s.node (operators ctx d m fuel left ts)
      (operators ctx' d m fuel' (s.node left) ts') := by
  induction fuel generalizing fuel' ts ts' left with
  | zero => exact .of_stuck fun _ => throw_ne_ok
  | succ fuel ih =>
    obtain ⟨fuel', rfl⟩ := Nat.exists_eq_add_of_le' (Nat.le_of_add_left_le hfuel)
    have hfuel := Nat.le_of_succ_le_succ hfuel
    rw [operators, operators, bind_of_ok current_run, bind_of_ok current_run]
    rcases h.cases with ⟨t, us, us', rfl, rfl, -, hus⟩ | ⟨rfl, rfl⟩
    · simp only [List.headD_cons, Token.below_kind]
      refine .ite Iff.rfl (fun _ => .pure rfl h) fun _ => ?_
      refine .ite Iff.rfl (fun _ => ?_) fun _ => ?_
      · refine .ite Iff.rfl (fun _ => .pure rfl h) fun _ => ?_
        rw [bind_of_ok advance_run, bind_of_ok advance_run]
        refine (hd.expression 0 hctx hus).bind_exact fun n vs vs' hvs => ?_
        refine (expect_follows hctx rfl hvs).bind_exact fun _ ws ws' hws => ?_
        exact ih hfuel hws
      · cases t.kind.infixPower? with
        | none => exact .of_stuck fun _ => failAt_ne_ok
        | some p =>
          refine .ite Iff.rfl (fun _ => .pure rfl h) fun _ => ?_
          rw [bind_of_ok advance_run, bind_of_ok advance_run]
          refine (hd.expression _ hctx hus).bind_exact fun n vs vs' hvs => ?_
          have hnode : Node.binary (.ofOperator (t.below s.shift)) (s.node left) (s.node n)
              (t.below s.shift).line = s.node (.binary (.ofOperator t) left n t.line) := by
            rw [← ofOperator_below]
            rfl
          rw [hnode]
          exact ih hfuel hvs
    · rw [kind_headD hctx.first_end, kind_headD hctx.second_end,
        if_pos (Kind.endsProgram_endsExpression s.first_ends),
        if_pos (Kind.endsProgram_endsExpression s.second_ends)]
      exact .pure rfl h

include hd hs in
theorem expression_follows {m : Nat} (h : s.Aligned ts ts') :
    Follows s .exact s.node (expression ctx d m ts) (expression ctx' d m ts') := by
  refine (operand_follows hctx hd hs h).bind_exact fun n us us' hus => ?_
  rw [bind_of_ok get_run, bind_of_ok get_run]
  exact operators_follows hctx hd (Nat.succ_le_succ hus.length_le) hus

/-! ## Statements -/

include hd in
theorem printStatement_follows {w w' : Token} (h : s.Aligned us us') :
    Follows s .exact s.node (printStatement ctx d (w :: us))
      (printStatement ctx' d (w' :: us')) := by
  rw [printStatement, printStatement, bind_of_ok advance_run, bind_of_ok advance_run]
  refine (expect_follows hctx rfl h).bind_exact fun _ vs vs' hvs => ?_
  refine (hd.expression 0 hctx hvs).bind_exact fun n ws ws' hws => ?_
  refine (expect_follows hctx rfl hws).bind_exact fun _ xs xs' hxs => ?_
  rw [bind_of_ok current_run, bind_of_ok current_run, kind_headD hctx.first_end,
    kind_headD hctx.second_end, hctx.inHeader]
  refine .ite ?_ (fun _ => .pure rfl hxs) fun _ => .of_stuck fun _ => failAt_ne_ok
  rcases hxs.headKind with heq | ⟨hends, hends'⟩
  · rw [heq]
  · rcases Kind.eq_of_endsProgram hends with hk | hk <;>
      rcases Kind.eq_of_endsProgram hends' with hk' | hk' <;> rw [hk, hk']

include hd in
theorem letStatement_follows {t : Token} (h : s.Aligned us us') :
    Follows s .exact s.node (letStatement ctx d (t :: us))
      (letStatement ctx' d (t.below s.shift :: us')) := by
  rw [letStatement, letStatement, bind_of_ok current_run, bind_of_ok current_run,
    bind_of_ok advance_run, bind_of_ok advance_run]
  refine (expect_follows hctx rfl h).bind_exact fun x vs vs' hvs => ?_
  refine (expect_follows hctx rfl hvs).bind_exact fun _ ws ws' hws => ?_
  refine (hd.expression 0 hctx hws).bind_exact fun n xs xs' hxs => .pure ?_ hxs
  simp only [Seam.node, Node.relocated, ofOperator_below]
  rfl

include hd in
theorem assignStatement_follows {x op : Token} (h : s.Aligned us us') :
    Follows s .exact s.node (assignStatement ctx d (x :: op :: us))
      (assignStatement ctx' d (x.below s.shift :: op.below s.shift :: us')) := by
  rw [assignStatement, assignStatement, bind_of_ok current_run, bind_of_ok current_run,
    bind_of_ok advance_run, bind_of_ok advance_run, bind_of_ok current_run,
    bind_of_ok current_run, bind_of_ok advance_run, bind_of_ok advance_run]
  refine (hd.expression 0 hctx h).bind_exact fun n vs vs' hvs => .pure ?_ hvs
  simp only [Seam.node, Node.relocated, ofOperator_below]
  rfl

include hd in
theorem condition_follows {word : String} (h : s.Aligned ts ts') :
    Follows s .exact s.node (condition ctx d word ts) (condition ctx' d word ts') := by
  refine (expect_follows hctx rfl h).bind_exact fun _ us us' hus => ?_
  refine (hd.expression 0 hctx hus).bind_exact fun n vs vs' hvs => ?_
  exact (expect_follows hctx rfl hvs).bind_exact fun _ _ _ hws => .pure rfl hws

include hd hs in
theorem alternative_follows (h : s.Aligned ts ts') :
    Follows s .past (List.map s.node) (alternative ctx d ts) (alternative ctx' d ts') := by
  rw [alternative, alternative, bind_of_ok current_run, bind_of_ok current_run]
  refine .ite (current_kind_iff hctx rfl h) (fun helif => ?_) fun _ => ?_
  · rw [kind_headD hctx.first_end] at helif
    obtain ⟨t, us, us', rfl, rfl, -, hus⟩ := h.token rfl helif
    exact (hd.branch t hctx hus).bind_pure fun _ => rfl
  · refine .ite (current_kind_iff hctx rfl h) (fun helse => ?_) fun _ => .pure rfl h
    rw [kind_headD hctx.first_end] at helse
    obtain ⟨t, us, us', rfl, rfl, -, hus⟩ := h.token rfl helse
    rw [bind_of_ok advance_run, bind_of_ok advance_run]
    exact (braced_follows hctx hd hs hus).of_exact

/-- At the end of its input the first run finds no alternative, and the second one none in
front of what comes next. -/
theorem alternative_atEnd (h : AtEnd ts) :
    Follows s .past (List.map s.node) (alternative ctx d ts) (alternative ctx' d s.beyond) := by
  have hnone {ctx : Context} {ts : List Token} (hEnd : ctx.endToken.kind = .endOfInput)
      (helif : headKind ts .endOfInput ≠ .elifWord) (helse : headKind ts .endOfInput ≠ .elseWord) :
      alternative ctx d ts = .ok ([], ts) := by
    rw [alternative, bind_of_ok current_run, kind_headD hEnd, if_neg helif, if_neg helse]
    rfl
  have hts : alternative ctx d ts = .ok ([], ts) :=
    hnone hctx.first_end (by rw [h]; decide) (by rw [h]; decide)
  have hbeyond : alternative ctx' d s.beyond = .ok ([], s.beyond) :=
    hnone hctx.second_end s.second_starts.1 s.second_starts.2
  rw [hts, hbeyond]
  intro ns us hns
  cases hns
  exact .inr ⟨h, rfl⟩

include hd hs in
theorem branch_follows {t : Token} (h : s.Aligned us us') :
    Follows s .past s.node (branch ctx d (t :: us)) (branch ctx' d (t.below s.shift :: us')) := by
  rw [branch, branch, bind_of_ok current_run, bind_of_ok current_run, bind_of_ok advance_run,
    bind_of_ok advance_run]
  refine (condition_follows hctx hd h).bind_exact fun test vs vs' hvs => ?_
  refine (braced_follows hctx hd hs hvs).bind_exact fun ns ws ws' hws => ?_
  have hnode (rest : List Node) : s.node (.branch test (.block ns none) (.block rest none) t.line) =
      .branch (s.node test) (.block (ns.map s.node) none) (.block (rest.map s.node) none)
        (t.below s.shift).line := by
    simp only [Seam.node, Node.relocated, Node.allRelocated_eq_map]
    rfl
  refine (skip_follows hws).bind (fun _ xs xs' hxs => ?_) fun _ xs hxs hbeyond => ?_
  · exact (alternative_follows hctx hd hs hxs).bind_pure hnode
  · rw [bind_of_ok hbeyond]
    exact (alternative_atEnd hctx hxs).bind_pure hnode

include hd hs in
theorem whileStatement_follows {w w' : Token} (h : s.Aligned us us') : Follows s .exact s.node
    (whileStatement ctx d (w :: us)) (whileStatement ctx' d (w' :: us')) := by
  rw [whileStatement, whileStatement, bind_of_ok advance_run, bind_of_ok advance_run]
  refine (condition_follows hctx hd h).bind_exact fun test vs vs' hvs => ?_
  refine (braced_follows hctx hd hs hvs).bind_exact fun ns ws ws' hws => .pure ?_ hws
  simp only [Seam.node, Node.relocated, Node.allRelocated_eq_map]
  rfl

include hd in
theorem clause_follows {close : Kind} (hclose : close.endsProgram = false)
    (h : s.Aligned ts ts') : Follows s .statement (Option.map s.node) (clause ctx d close ts)
      (clause ctx' d close ts') := by
  have hheader : Alike ctx.header ctx'.header := ⟨hctx.first_end, hctx.second_end, rfl⟩
  rw [clause, clause, bind_of_ok current_run, bind_of_ok current_run]
  exact .ite (current_kind_iff hctx hclose h) (fun _ => .pure rfl h) fun _ =>
    hd.statement hheader h

include hd in
theorem headerTest_follows (h : s.Aligned ts ts') :
    Follows s .exact s.node (headerTest ctx d ts) (headerTest ctx' d ts') := by
  rw [headerTest, headerTest, bind_of_ok current_run, bind_of_ok current_run]
  exact .ite (current_kind_iff hctx rfl h) (fun _ => .pure rfl h) fun _ => hd.expression 0 hctx h

include hd hs in
theorem forStatement_follows {t : Token} (h : s.Aligned us us') : Follows s .exact s.node
    (forStatement ctx d (t :: us)) (forStatement ctx' d (t.below s.shift :: us')) := by
  rw [forStatement, forStatement, bind_of_ok current_run, bind_of_ok current_run,
    bind_of_ok advance_run, bind_of_ok advance_run]
  refine (expect_follows hctx rfl h).bind_exact fun _ vs vs' hvs => ?_
  refine (clause_follows hctx hd rfl hvs).bind_stuck (fun init ws ws' hws => ?_)
    fun init ws hws => expect_bind_stuck hctx rfl hws
  refine (expect_follows hctx rfl hws).bind_exact fun _ xs xs' hxs => ?_
  refine (headerTest_follows hctx hd hxs).bind_exact fun test ys ys' hys => ?_
  refine (expect_follows hctx rfl hys).bind_exact fun _ zs zs' hzs => ?_
  refine (clause_follows hctx hd rfl hzs).bind_stuck (fun step vs vs' hvs => ?_)
    fun step vs hvs => expect_bind_stuck hctx rfl hvs
  refine (expect_follows hctx rfl hvs).bind_exact fun _ ws ws' hws => ?_
  refine (braced_follows hctx hd hs hws).bind_exact fun body xs xs' hxs => .pure ?_ hxs
  cases init <;> cases step <;>
    simp only [Seam.node, Node.relocated, Node.allRelocated_eq_map, Option.toList, Option.map,
      List.map_append, List.map_cons, List.map_nil] <;> rfl

include hd hs in
theorem functionStatement_follows {f x : Token} (h : s.Aligned us us') :
    Follows s .exact s.node (functionStatement ctx d (f :: x :: us))
      (functionStatement ctx' d (f.below s.shift :: x.below s.shift :: us')) := by
  rw [functionStatement, functionStatement, bind_of_ok current_run, bind_of_ok current_run,
    bind_of_ok advance_run, bind_of_ok advance_run, bind_of_ok current_run,
    bind_of_ok current_run, bind_of_ok advance_run, bind_of_ok advance_run]
  exact (functionRest_follows hctx hd hs h).bind_exact fun n vs vs' hvs => .pure rfl hvs

include hd hs in
theorem otherStatement_follows {t : Token} {k : Kind} (ht : t.kind ≠ .endOfInput)
    (h : s.Aligned us us') :
    Follows s .past s.node
      ((if k = .name ∧ (us.headD ctx.endToken).kind.isAssignment then assignStatement ctx d
        else if k = .fnWord ∧ (us.headD ctx.endToken).kind = .name then
          functionStatement ctx d
        else do return .expression (← d.expression ctx 0) none : Parser Node) (t :: us))
      ((if k = .name ∧ (us'.headD ctx'.endToken).kind.isAssignment then
          assignStatement ctx' d
        else if k = .fnWord ∧ (us'.headD ctx'.endToken).kind = .name then
          functionStatement ctx' d
        else do return .expression (← d.expression ctx' 0) none : Parser Node)
          (t.below s.shift :: us')) := by
  have hstop {k : Kind} (hk : k.isAssignment = true) : k.endsProgram = false := by
    cases k <;> first | rfl | cases hk
  have hassign : (us'.headD ctx'.endToken).kind.isAssignment = true ↔
      (us.headD ctx.endToken).kind.isAssignment = true := by
    rw [kind_headD hctx.first_end, kind_headD hctx.second_end]
    rcases h.headKind with heq | ⟨hends, hends'⟩
    · rw [heq]
    · constructor <;> intro hk <;> simp [hstop hk] at hends hends'
  refine .ite (and_congr_right fun _ => hassign) (fun ⟨_, hop⟩ => ?_) fun _ => ?_
  · rw [kind_headD hctx.first_end] at hop
    obtain ⟨op, vs, vs', rfl, rfl, -, hvs⟩ := h.token (hstop hop) rfl
    exact (assignStatement_follows hctx hd hvs).of_exact
  refine .ite (and_congr_right fun _ => current_kind_iff hctx rfl h) (fun ⟨_, hx⟩ => ?_) fun _ => ?_
  · rw [kind_headD hctx.first_end] at hx
    obtain ⟨x, vs, vs', rfl, rfl, -, hvs⟩ := h.token rfl hx
    exact (functionStatement_follows hctx hd hs hvs).of_exact
  · exact (hd.expression 0 hctx (h.cons ht)).bind_exact fun n vs vs' hvs => .pure rfl hvs

include hd hs in
theorem statementAt_follows {t : Token} (ht : t.kind ≠ .endOfInput) (h : s.Aligned us us') :
    Follows s .past s.node (statementAt ctx d t (t :: us))
      (statementAt ctx' d (t.below s.shift) (t.below s.shift :: us')) := by
  rw [statementAt, statementAt, bind_of_ok second_run, bind_of_ok second_run]
  simp only [List.tail_cons, Token.below_kind, Token.below_datum]
  cases t.kind
  case openBrace =>
    refine (braced_follows hctx hd hs (h.cons ht)).bind_exact fun ns vs vs' hvs => .pure ?_ hvs
    simp only [Seam.node, Node.relocated, Node.allRelocated_eq_map]
    rfl
  case printWord => exact (printStatement_follows hctx hd h).of_exact
  case letWord => exact (letStatement_follows hctx hd h).of_exact
  case ifWord => exact branch_follows hctx hd hs h
  case elifWord | elseWord | structWord => exact .of_stuck fun _ => failAt_ne_ok
  case whileWord => exact (whileStatement_follows hctx hd hs h).of_exact
  case forWord => exact (forStatement_follows hctx hd hs h).of_exact
  case breakWord => exact .pure rfl h
  all_goals exact otherStatement_follows hctx hd hs ht h

omit hctx in
/-- Line ends that are skipped first make no difference to what follows the separators. -/
theorem dropWhile_separators (ts : List Token) :
    (ts.dropWhile fun t => [Kind.newline].contains t.kind).dropWhile
      (fun t => [Kind.newline, .semicolon].contains t.kind) =
    ts.dropWhile fun t => [Kind.newline, .semicolon].contains t.kind := by
  induction ts with
  | nil => rfl
  | cons t ts ih =>
    rw [List.dropWhile_cons]
    split
    next hk =>
      have hsep : [Kind.newline, .semicolon].contains t.kind = true := by
        simp only [List.contains_cons, List.contains_nil, Bool.or_false] at hk ⊢
        rw [hk, Bool.true_or]
      rw [ih, List.dropWhile_cons, if_pos hsep]
    next => rfl

include hd hs in
theorem statement_follows (h : s.Aligned ts ts') : Follows s .statement (Option.map s.node)
    (statement ctx d ts) (statement ctx' d ts') := by
  rw [statement, statement, bind_of_ok skip_run, bind_of_ok skip_run, bind_of_ok current_run,
    bind_of_ok current_run]
  rcases h.skip [.newline, .semicolon] with ⟨t, us, us', hts, hts', ht, hus⟩ | ⟨hts, hts'⟩
  · rw [hts, hts']
    refine .ite Iff.rfl (fun _ => .pure rfl (hus.cons ht)) fun _ => ?_
    refine ((statementAt_follows hctx hd hs ht hus).bind_pure fun n => ?_).mono fun o p hp _ => hp
    exact congrArg some (Node.relocated_atLine t.line n)
  · have hend : AtEnd (s.first.dropWhile fun t => [Kind.newline, .semicolon].contains t.kind) := by
      rw [← dropWhile_separators]
      exact Stays.skip s.first_stops rfl () _ skip_run
    rw [hts, kind_headD hctx.first_end, if_pos (.inl hend)]
    intro o us ho
    obtain ⟨rfl, rfl⟩ := pure_eq_ok.mp ho
    exact .inr ⟨hend, fun h => absurd h Bool.false_ne_true⟩

/-! ## All levels -/

omit hctx in
theorem descent_local (nesting : Nat) : (descent nesting).Local := by
  induction nesting with
  | zero => exact Descent.bottom_local
  | succ nesting ih =>
    have hs := descent_sound nesting
    exact {
      statement := fun hctx h => statement_follows hctx ih hs h
      branch := fun _ hctx h => branch_follows hctx ih hs h
      expression := fun _ hctx h => expression_follows hctx ih hs h }

end Parser

end ScopeScript
