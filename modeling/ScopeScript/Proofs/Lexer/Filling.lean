import ScopeScript.Proofs.Lexer.Behind
import ScopeScript.Proofs.Lexer.Seam

/-!
# Blanks and comments between tokens

Where a blank or the sign of a comment takes the place of one of the characters
behind a token, the token does not go on. So blanks can be put anywhere but into
a token, and comments in front of line ends.
-/

namespace ScopeScript.Lexer

variable {cs ds rest rest' ins w : List Char} {p q : Position} {c x : Char} {l : Lexeme}
  {ts : List Token} {t : Token} {i k m : Nat}

/-! ## The characters behind a lexeme -/

/-- A character that what is put between tokens begins with. -/
def isFiller (c : Char) : Bool := isSpace c || c = '#'

theorem isFiller_cases (hx : isFiller x = true) : x = ' ' ∨ x = '\t' ∨ x = '#' := by
  simpa only [isFiller, isSpace, Bool.or_eq_true, decide_eq_true_eq, or_assoc] using hx

/-- A filler goes on with nothing but blanks and comments, which begin with fillers. -/
theorem parts_of_isFiller (hc : isFiller c = false) (hx : isFiller x = true) : Parts c x where
  space hspace := by
    rw [isFiller, hspace] at hc
    cases hc
  comment hsign := by
    subst hsign
    cases hc
  feed _ := by
    rintro rfl
    cases hx
  part := by
    rcases isFiller_cases hx with rfl | rfl | rfl <;> rfl
  sign := by
    rintro rfl
    cases hx

/-- A text that begins with `k` characters of another one and goes on with a filler. -/
def Filled (k : Nat) (rest rest' : List Char) : Prop :=
  k ≤ rest.length ∧ ∃ x more, isFiller x = true ∧ rest' = rest.take k ++ x :: more

theorem no_numberText_filled (h : Filled k rest rest') (hrest : numberText rest = []) :
    numberText rest' = [] := by
  obtain ⟨hk, x, more, hx, rfl⟩ := h
  have hdigit : Numeral.isDigit x = false := by
    rcases isFiller_cases hx with rfl | rfl | rfl <;> rfl
  have hpoint : x ≠ '.' := by
    rintro rfl
    cases hx
  have hfiller (more : List Char) : numberText (x :: more) = [] := by
    simp [numberText_cons, hdigit, hpoint]
  cases rest with
  | nil =>
    rw [List.take_nil]
    exact hfiller more
  | cons c rest =>
    cases k with
    | zero => exact hfiller more
    | succ k =>
      rw [numberText_cons] at hrest
      rw [List.take_succ_cons, List.cons_append, numberText_cons]
      split at hrest
      next => cases hrest
      next hc =>
        refine if_neg fun hc' => hc ?_
        cases k with
        | zero =>
          simp only [List.take_zero, List.nil_append, List.head?_cons, Option.any_some, hdigit,
            Bool.and_false, Bool.or_false] at hc'
          rw [hc', Bool.true_or]
        | succ k =>
          cases rest with
          | nil => exact absurd hk (by simp)
          | cons d rest => exact hc'

theorem Filled.behind (h : Filled k rest rest') (hk : isFiller c = true → k ≠ 0) :
    Behind c rest rest' := by
  refine ⟨fun d hd => ?_, no_numberText_filled h⟩
  obtain ⟨hle, x, more, hx, rfl⟩ := h
  cases k with
  | zero =>
    cases hd
    have hc : isFiller c = false := (Bool.not_eq_true _).mp fun hc => hk hc rfl
    exact .inr (parts_of_isFiller hc hx)
  | succ k =>
    cases rest with
    | nil => exact absurd hle (Nat.not_succ_le_zero k)
    | cons d rest => exact .inl hd

/-! ## All lexemes -/

/-- The tokens that are not comments. -/
abbrev visible (ts : List Token) : List Token := ts.filter (·.kind ≠ .comment)

theorem visible_append (ts us : List Token) : visible (ts ++ us) = visible ts ++ visible us :=
  List.filter_append ..

theorem visible_moved {R : Position → Position → Prop} {us : List Token}
    (h : List.Forall₂ (Token.Moved R) ts us) :
    List.Forall₂ (Token.Moved R) (visible ts) (visible us) := by
  induction h with
  | nil => exact .nil
  | @cons t u ts us ht _ ih =>
    rw [visible, visible, List.filter_cons, List.filter_cons, ht.kind]
    split
    · exact .cons ht ih
    · exact ih

/-- What can be put in front of a text: blanks, or a comment that ends there. -/
inductive Filler (rest : List Char) : List Char → Prop where
  | blanks {ins : List Char} : (∀ c ∈ ins, isSpace c = true) → Filler rest ins
  | comment {body : List Char} : (∀ c ∈ body, endsComment c = false) →
    Follows endsComment rest → Filler rest ('#' :: body)

theorem Filler.filled (h : Filler cs ins) (hins : ins ≠ []) (hk : k ≤ rest.length) :
    Filled k rest (rest.take k ++ (ins ++ cs)) := by
  cases h with
  | @blanks ins hblanks =>
    obtain ⟨x, ins, rfl⟩ := List.exists_cons_of_ne_nil hins
    exact ⟨hk, x, ins ++ cs, by rw [isFiller, hblanks x List.mem_cons_self]; rfl, rfl⟩
  | @comment body _ _ => exact ⟨hk, '#', body ++ cs, rfl, rfl⟩

/-- Nothing that can be put in front of a text ends a comment. -/
theorem Filler.endsComment (h : Filler rest ins) : ∀ c ∈ ins, endsComment c = false := by
  cases h with
  | blanks hblanks =>
    intro c hc
    have hspace := hblanks c hc
    simp only [isSpace, Bool.or_eq_true, decide_eq_true_eq] at hspace
    rcases hspace with rfl | rfl <;> rfl
  | comment hbody _ => exact List.forall_mem_cons.mpr ⟨rfl, hbody⟩

/-- The texts are cut into the same tokens but the comments, up to columns. -/
def SameCuts (q : Position) (ds : List Char) (ts : List Token) : Prop :=
  ∃ us, Cuts q ds us ∧
    List.Forall₂ (Token.Moved fun p q => p.line = q.line) (visible ts) (visible us)

theorem SameCuts.behind_comment (h : SameCuts q ds ts) (ht : t.kind = .comment) :
    SameCuts q ds (t :: ts) := by
  have hvisible : visible (t :: ts) = visible ts := List.filter_cons_of_neg (by simp [ht])
  rwa [SameCuts, hvisible]

/-- A comment is passed over. -/
theorem Cuts.after_comment {body : List Char} (h : Cuts p rest ts)
    (hbody : ∀ c ∈ body, endsComment c = false) (hrest : Follows endsComment rest)
    (hpq : p.line = q.line) : SameCuts q ('#' :: (body ++ rest)) ts := by
  have hall : ∀ c ∈ '#' :: body, (!endsComment c) = true := by
    refine List.forall_mem_cons.mpr ⟨rfl, fun c hc => ?_⟩
    rw [hbody c hc]
    rfl
  have hends : Follows (fun c => !(!endsComment c)) rest := by simpa only [Bool.not_not] using hrest
  obtain ⟨htake, hdrop⟩ := takeWhile_word hall hends
  have hl : lexeme q '#' (body ++ rest) = .ok (commentLexeme q ('#' :: body ++ rest)) := rfl
  dsimp only [commentLexeme] at hl
  rw [htake, hdrop] at hl
  obtain ⟨us, hus, hmoved⟩ := h.moved (q := q.right ('#' :: body).length) kept_line hpq
  refine ⟨_ :: us, .next hl hus, ?_⟩
  rw [visible, visible, List.filter_cons_of_neg (by simp)]
  exact visible_moved hmoved

theorem Cuts.filled_front (h : Cuts p cs ts) (hfill : Filler cs ins) (hpq : p.line = q.line) :
    SameCuts q (ins ++ cs) ts := by
  cases hfill with
  | blanks hblanks =>
    obtain ⟨us, hus, hmoved⟩ := h.moved (q := q.right ins.length) kept_line hpq
    exact ⟨us, (cuts_blanks_iff hblanks).mpr hus, visible_moved hmoved⟩
  | comment hbody hfollows => exact h.after_comment hbody hfollows hpq

/-- Something is put among the blanks that a text begins with. -/
theorem Cuts.filled_blanks (h : Cuts p cs ts) (hblank : ∀ c ∈ cs.take m, isSpace c = true)
    (hfill : Filler (cs.drop m) ins) (hpq : p.line = q.line) :
    SameCuts q (cs.take m ++ (ins ++ cs.drop m)) ts := by
  rw [← List.take_append_drop m cs, cuts_blanks_iff hblank] at h
  obtain ⟨us, hus, hmoved⟩ := h.filled_front (q := q.right (cs.take m).length) hfill hpq
  exact ⟨us, (cuts_blanks_iff hblank).mpr hus, hmoved⟩

/-- A lexeme is a comment or a line end if its token is one. -/
theorem kind_of_lexeme (h : lexeme p c cs = .ok l) (ht : l.token? = some t) :
    c = '#' ∧ l = commentLexeme p (c :: cs) ∨ endsComment c = true ∧ t.kind = .newline ∨
      t.kind ≠ .comment ∧ t.kind ≠ .newline := by
  have hkind {u : Token} (hu : l.token? = some u) : t.kind = u.kind :=
    congrArg Token.kind (Option.some.inj (ht.symm.trans hu))
  suffices h : ∃ l', lexeme p c cs = .ok l' ∧ (c = '#' ∧ l = commentLexeme p (c :: cs) ∨
      endsComment c = true ∧ t.kind = .newline ∨ t.kind ≠ .comment ∧ t.kind ≠ .newline) from
    h.choose_spec.2
  refine lexeme_along h (fun hl => ?_) (fun hc hl => .inl ⟨hc, hl⟩) (fun hc hl => ?_)
    (fun hc hl => ⟨l, hl, .inr (.inl ⟨hc ▸ rfl, ?_⟩)⟩) (fun hl => ⟨l, hl, .inr (.inr ?_)⟩)
    (fun hl => ⟨l, hl, .inr (.inr ?_)⟩) (fun hl => .inr (.inr ?_))
    (fun hl => ⟨l, hl, .inr (.inr ?_)⟩)
  · cases ht.symm.trans (congrArg Lexeme.token? hl)
  · exact .inr (.inl ⟨hc ▸ rfl, hkind (congrArg Lexeme.token? hl)⟩)
  · rw [lexeme_return] at hl
    split at hl <;> exact hkind (congrArg Lexeme.token? (Except.ok.inj hl).symm)
  · obtain ⟨b, -, rfl⟩ := Fault.map_eq_ok_iff.mp hl
    rw [hkind rfl]
    exact ⟨nofun, nofun⟩
  · obtain ⟨d, -, rfl⟩ := Fault.map_eq_ok_iff.mp hl
    rw [hkind rfl]
    exact ⟨nofun, nofun⟩
  · rw [hkind (congrArg Lexeme.token? hl)]
    exact ⟨ofWord_ne_comment _, ofWord_ne (by decide) (by decide) _⟩
  · have hsymbols : ∀ s ∈ symbols, s.2 ≠ .comment ∧ s.2 ≠ .newline := by decide
    unfold symbolLexeme at hl
    split at hl
    next text kind hs =>
      cases hl
      rw [hkind rfl]
      exact hsymbols _ (List.mem_of_find?_eq_some hs)
    next => cases hl

theorem comment_of_kind (h : lexeme p c cs = .ok l) (ht : l.token? = some t)
    (hkind : t.kind = .comment) : c = '#' ∧ l = commentLexeme p (c :: cs) := by
  rcases kind_of_lexeme h ht with hcomment | ⟨-, hnewline⟩ | ⟨hcomment, -⟩
  · exact hcomment
  · cases hkind.symm.trans hnewline
  · exact absurd hkind hcomment

/-- Something is put into a comment or behind it. -/
theorem Cuts.filled_comment (h : lexeme p c cs = .ok l) (ht : l.token? = some t)
    (hkind : t.kind = .comment) (hcuts : Cuts l.next l.rest ts) (hm : m ≠ 0)
    (hm' : m ≤ t.text.length) (hfill : Filler rest ins) (hpq : p.line = q.line) :
    SameCuts q ((c :: cs).take m ++ (ins ++ (c :: cs).drop m)) ts := by
  obtain ⟨rfl, rfl⟩ := comment_of_kind h ht hkind
  obtain ⟨k, rfl⟩ := Nat.exists_eq_succ_of_ne_zero hm
  cases ht
  have hk : k ≤ (cs.takeWhile (!endsComment ·)).length := Nat.le_of_succ_le_succ hm'
  have hcs := List.takeWhile_append_dropWhile (p := (!endsComment ·)) (l := cs)
  have hbody : ∀ c ∈ cs.takeWhile (!endsComment ·), endsComment c = false := by
    intro c hc
    exact (Bool.not_eq_true' _).mp (List.mem_takeWhile_imp (p := (!endsComment ·)) hc)
  have hends : Follows endsComment (cs.dropWhile (!endsComment ·)) := by
    simpa only [Bool.not_not] using follows_dropWhile (!endsComment ·) cs
  have hcuts : Cuts (p.right _) (cs.dropWhile (!endsComment ·)) ts := hcuts
  generalize cs.takeWhile (!endsComment ·) = body at hk hcs hbody
  generalize cs.dropWhile (!endsComment ·) = rest at hcs hends hcuts
  subst hcs
  rw [List.take_succ_cons, List.drop_succ_cons, List.take_append_of_le_length hk,
    List.drop_append_of_le_length hk]
  have hall : ∀ c ∈ body.take k ++ (ins ++ body.drop k), endsComment c = false := by
    intro c hc
    rcases List.mem_append.mp hc with hc | hc
    · exact hbody c (List.mem_of_mem_take hc)
    rcases List.mem_append.mp hc with hc | hc
    · exact hfill.endsComment c hc
    · exact hbody c (List.mem_of_mem_drop hc)
  have hsame := hcuts.after_comment hall hends (q := q) hpq
  rwa [List.append_assoc, List.append_assoc] at hsame

/-! ## Where tokens stand -/

/-- The tokens of a text from an offset on, each with the offset where its text begins. -/
def standing (i : Nat) (cs : List Char) : List Token → List (Nat × Token)
  | [] => []
  | t :: ts =>
    let gap := (cs.takeWhile isSpace).length
    (i + gap, t) :: standing (i + gap + t.text.length) (cs.drop (gap + t.text.length)) ts

/-- An offset that is not strictly inside the text of a token other than a comment. -/
def IsFree (ss : List (Nat × Token)) (m : Nat) : Prop :=
  ∀ s ∈ ss, s.2.kind ≠ .comment → ¬(s.1 < m ∧ m < s.1 + s.2.text.length)

instance (ss : List (Nat × Token)) (m : Nat) : Decidable (IsFree ss m) := List.decidableBAll _ ss

theorem standing_blanks {gap : List Char} (hgap : ∀ c ∈ gap, isSpace c = true) (ts : List Token) :
    standing i (gap ++ rest) ts = standing (i + gap.length) rest ts := by
  cases ts with
  | nil => rfl
  | cons t ts =>
    rw [standing, standing, List.takeWhile_append_of_pos hgap, List.length_append,
      Nat.add_assoc gap.length, List.drop_length_add_append, Nat.add_assoc i gap.length]

theorem standing_token (hc : isSpace c = false) (ht : c :: cs = t.text ++ rest) (ts : List Token) :
    standing i (c :: cs) (t :: ts) = (i, t) :: standing (i + t.text.length) rest ts := by
  have hgap : (c :: cs).takeWhile isSpace = [] := List.takeWhile_cons_of_neg (by rw [hc]; decide)
  rw [standing, hgap, List.length_nil, Nat.add_zero, Nat.zero_add, ht, List.drop_left]

theorem isSpace_of_token (h : lexeme p c cs = .ok l) (ht : l.token? = some t) :
    isSpace c = false := by
  by_contra hc
  have hl : lexeme p c cs = .ok (spaceLexeme p (c :: cs)) :=
    if_pos ((Bool.not_eq_false _).mp hc)
  cases h.symm.trans hl
  cases ht

theorem kind_of_sign (h : lexeme p '#' cs = .ok l) (ht : l.token? = some t) :
    t.kind = .comment := by
  cases h
  cases ht
  rfl

/-- Behind a lexeme the rest of the text is cut on its own. -/
theorem SameCuts.behind (h : lexeme p c (w ++ rest) = .ok l) (hrest : l.rest = rest)
    (hfilled : Filled k rest rest') (hk : isFiller c = true → k ≠ 0) (hpq : p.line = q.line)
    (hsame : ∀ q, l.next.line = q.line → SameCuts q rest' ts) :
    SameCuts q (c :: (w ++ rest')) (l.token?.toList ++ ts) := by
  obtain ⟨⟨o', next', _⟩, hl', htoken, hnext, -⟩ :=
    lexeme_behind kept_line hpq (hfilled.behind hk) h hrest
  obtain ⟨us, hus, hmoved⟩ := hsame next' hnext
  refine ⟨o'.toList ++ us, .next (l := ⟨o', next', rest'⟩) hl' hus, ?_⟩
  rw [visible_append, visible_append]
  refine List.rel_append (visible_moved ?_) hmoved
  obtain ⟨o, next, _⟩ := l
  cases htoken with
  | some ht => exact .cons ht .nil
  | none => exact .nil

/-- The same tokens but the comments, up to columns, wherever something is put between them. -/
theorem Cuts.filled (h : Cuts p cs ts) (hm : m ≤ cs.length)
    (hfree : IsFree (standing i cs ts) (i + m)) (hfill : Filler (cs.drop m) ins)
    (hins : ins ≠ []) (hpq : p.line = q.line) :
    SameCuts q (cs.take m ++ (ins ++ cs.drop m)) ts := by
  induction h generalizing i m q with
  | done => exact Cuts.done.filled_blanks (by simp) hfill hpq
  | @next p c cs l ts hl hcuts ih =>
    by_cases hzero : m = 0
    · subst hzero
      exact (Cuts.next hl hcuts).filled_blanks (by simp) hfill hpq
    -- What is put behind the text of the lexeme is put into the rest.
    have hbehind (text : List Char) (hne : text ≠ []) (htext : c :: cs = text ++ l.rest)
        (hle : text.length ≤ m) (hk : isFiller c = true → text.length ≠ m)
        (hfree : IsFree (standing (i + text.length) l.rest ts) (i + m)) :
        SameCuts q ((c :: cs).take m ++ (ins ++ (c :: cs).drop m)) (l.token?.toList ++ ts) := by
      obtain ⟨k, rfl⟩ := Nat.exists_eq_add_of_le hle
      rw [htext, List.length_append, Nat.add_le_add_iff_left] at hm
      rw [htext, List.drop_length_add_append] at hfill
      rw [htext, List.take_length_add_append, List.drop_length_add_append, List.append_assoc]
      obtain ⟨d, w, rfl⟩ := List.exists_cons_of_ne_nil hne
      obtain ⟨rfl, rfl⟩ := List.cons.inj htext
      refine SameCuts.behind hl rfl (hfill.filled hins hm) (fun hc hzero => ?_) hpq fun q hq => ?_
      · exact hk hc (by rw [hzero, Nat.add_zero])
      · exact ih hm (i := i + (c :: w).length) (by rwa [Nat.add_assoc]) hfill hq
    cases lexeme_takes hl with
    | gap text hnone hne hblank htext =>
      by_cases hle : m ≤ text.length
      · refine (Cuts.next hl hcuts).filled_blanks (fun d hd => ?_) hfill hpq
        rw [htext, List.take_append_of_le_length hle] at hd
        exact hblank d (List.mem_of_mem_take hd)
      · refine hbehind text hne htext (by omega) (fun _ => by omega) ?_
        rw [htext, hnone, standing_blanks hblank] at hfree
        exact hfree
    | token t hsome hend hne htext =>
      have hspace : isSpace c = false := isSpace_of_token hl hsome
      rw [hsome, Option.toList_some, List.singleton_append, standing_token hspace htext] at hfree
      obtain ⟨hhead, htail⟩ := List.forall_mem_cons.mp hfree
      by_cases hcomment : t.kind = .comment
      · by_cases hle : m ≤ t.text.length
        · rw [hsome]
          exact (hcuts.filled_comment hl hsome hcomment hzero hle hfill hpq).behind_comment hcomment
        · exact hbehind t.text hne htext (by omega) (fun _ => by omega) htail
      · have hinside : ¬(i < i + m ∧ i + m < i + t.text.length) := hhead hcomment
        refine hbehind t.text hne htext (by omega) (fun hc => ?_) htail
        rw [isFiller, hspace, Bool.false_or, decide_eq_true_eq] at hc
        exact absurd (kind_of_sign (hc ▸ hl) hsome) hcomment

/-! ## Offsets of tokens -/

theorem le_standing {s : Nat × Token} (hs : s ∈ standing i cs ts) : i ≤ s.1 := by
  induction ts generalizing i cs with
  | nil => cases hs
  | cons t ts ih =>
    rcases List.mem_cons.mp hs with rfl | hs
    · exact Nat.le_add_right ..
    · have hle := ih hs
      omega

/-- A token begins outside of all others. -/
theorem isFree_standing {s : Nat × Token} (hs : s ∈ standing i cs ts) :
    IsFree (standing i cs ts) s.1 := by
  induction ts generalizing i cs with
  | nil => cases hs
  | cons t ts ih =>
    rcases List.mem_cons.mp hs with rfl | hs
    · refine List.forall_mem_cons.mpr ⟨fun _ h => absurd h.1 (Nat.lt_irrefl _), fun u hu _ => ?_⟩
      have hle := le_standing hu
      dsimp only
      omega
    · refine List.forall_mem_cons.mpr ⟨fun _ h => ?_, ih hs⟩
      have hle := le_standing hs
      dsimp only at h
      omega

/-- What stands in front of and behind a token. -/
theorem Cuts.standing (h : Cuts p cs ts) {s : Nat × Token} (hs : s ∈ standing i cs ts) :
    ∃ before after, cs = before ++ (s.2.text ++ after) ∧ s.1 = i + before.length ∧
      (s.2.kind = .newline → Follows endsComment (s.2.text ++ after)) := by
  induction h generalizing i with
  | done =>
    obtain rfl := List.mem_singleton.mp hs
    exact ⟨[], [], rfl, rfl, nofun⟩
  | @next p c cs l ts hl _ ih =>
    cases lexeme_takes hl with
    | gap text hnone _ hblank htext =>
      rw [htext, hnone, standing_blanks hblank] at hs
      obtain ⟨before, after, hrest, hoffset, hnewline⟩ := ih hs
      refine ⟨text ++ before, after, ?_, ?_, hnewline⟩
      · rw [htext, hrest, List.append_assoc]
      · rw [hoffset, List.length_append, Nat.add_assoc]
    | token t hsome _ _ htext =>
      rw [hsome, Option.toList_some, List.singleton_append,
        standing_token (isSpace_of_token hl hsome) htext] at hs
      rcases List.mem_cons.mp hs with rfl | hs
      · refine ⟨[], l.rest, htext, rfl, fun hkind => ?_⟩
        rw [← htext]
        rcases kind_of_lexeme hl hsome with ⟨rfl, rfl⟩ | ⟨hends, -⟩ | ⟨-, hnewline⟩
        · cases hsome
          cases hkind
        · exact hends
        · exact absurd hkind hnewline
      · obtain ⟨before, after, hrest, hoffset, hnewline⟩ := ih hs
        refine ⟨t.text ++ before, after, ?_, ?_, hnewline⟩
        · rw [htext, hrest, List.append_assoc]
        · rw [hoffset, List.length_append, Nat.add_assoc]

theorem Cuts.isFree_end (h : Cuts p cs ts) : IsFree (Lexer.standing 0 cs ts) cs.length := by
  intro s hs _ hinside
  obtain ⟨before, after, hcs, hoffset, -⟩ := h.standing hs
  have hlength := congrArg List.length hcs
  simp only [List.length_append] at hlength
  omega

end ScopeScript.Lexer
