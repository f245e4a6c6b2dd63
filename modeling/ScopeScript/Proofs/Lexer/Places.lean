import Mathlib.Data.List.Forall2
import ScopeScript.Proofs.Lexer.Tiling

/-!
# Texts in other places

Which tokens a text is cut into does not depend on where it begins. Any relation
between places that goes on to the right and behind line ends relates the
tokens of a text that begins in one place to those of the same text that begins
in the other. In particular a text keeps its tokens, up to their columns, when
blanks are put in front of it.
-/

namespace ScopeScript

/-- A relation between places that goes on to the right and behind a line end. -/
structure Position.Kept (R : Position → Position → Prop) : Prop where
  right {p q : Position} (n : Nat) : R p q → R (p.right n) (q.right n)
  nextLine {p q : Position} : R p q → R p.nextLine q.nextLine

theorem Position.right_right (p : Position) (m n : Nat) :
    (p.right m).right n = p.right (m + n) :=
  congrArg (Position.mk p.line) (Nat.add_assoc ..)

/-- The same token in a related place. -/
structure Token.Moved (R : Position → Position → Prop) (t u : Token) : Prop where
  kind : u.kind = t.kind
  datum : u.datum = t.datum
  text : u.text = t.text
  place : R ⟨t.line, t.column⟩ ⟨u.line, u.column⟩

namespace Lexer

/-- The same lexeme in a related place. -/
structure Lexeme.Moved (R : Position → Position → Prop) (l l' : Lexeme) : Prop where
  token : Option.Rel (Token.Moved R) l.token? l'.token?
  next : R l.next l'.next
  rest : l'.rest = l.rest

variable {cs ds rest : List Char} {p q : Position} {c : Char} {l l' : Lexeme}
  {ts us : List Token} {R : Position → Position → Prop}

/-! ## One lexeme -/

theorem stringBody_moved (hR : Position.Kept R) {opened : Nat} {b : StringBody} (opened' : Nat)
    (hpq : R p q) (h : stringBody opened p cs = .ok b) :
    ∃ next, R b.next next ∧ stringBody opened' q cs = .ok { b with next := next } := by
  fun_induction stringBody opened p cs generalizing b q with
  | case1 => cases h
  | case2 p cs =>
    cases h
    exact ⟨_, hR.right 1 hpq, rfl⟩
  | case3 => cases h
  | case4 p e cs v hv ih =>
    obtain ⟨b, hb, rfl⟩ := Fault.map_eq_ok_iff.mp h
    obtain ⟨next, hnext, hrest⟩ := ih (hR.right 2 hpq) hb
    refine ⟨next, hnext, ?_⟩
    rw [stringBody, hv]
    exact Fault.map_eq_ok_iff.mpr ⟨_, hrest, rfl⟩
  | case5 => cases h
  | case6 p c cs hquote hend hescape ih =>
    obtain ⟨b, hb, rfl⟩ := Fault.map_eq_ok_iff.mp h
    have hstep : R (if c = '\n' then p.nextLine else p.right 1)
        (if c = '\n' then q.nextLine else q.right 1) := by
      split
      · exact hR.nextLine hpq
      · exact hR.right 1 hpq
    obtain ⟨next, hnext, hrest⟩ := ih hstep hb
    refine ⟨next, hnext, ?_⟩
    rw [stringBody]
    · exact Fault.map_eq_ok_iff.mpr ⟨_, hrest, rfl⟩
    · exact hquote
    · exact hend
    · exact hescape

theorem numberDatum_position {text : List Char} {d : Datum} (q : Position)
    (h : numberDatum p text = .ok d) : numberDatum q text = .ok d := by
  unfold numberDatum at h ⊢
  split
  next hpoints =>
    rw [hpoints] at h
    exact h
  next hpoints =>
    rw [hpoints] at h
    exact h
  next hnone hone =>
    split at h
    next hpoints => exact absurd hpoints hnone
    next hpoints => exact absurd hpoints hone
    next => cases h

/-- Which lexeme a text begins with depends on its first character. -/
theorem lexeme_along {Q : Lexeme → Prop} (h : lexeme p c cs = .ok l)
    (hspace : l = spaceLexeme p (c :: cs) → Q (spaceLexeme q (c :: ds)))
    (hcomment : c = '#' → l = commentLexeme p (c :: cs) → Q (commentLexeme q (c :: ds)))
    (hnewline : c = '\n' → l = newlineLexeme p ['\n'] cs → Q (newlineLexeme q ['\n'] ds))
    (hreturn : c = '\r' → lexeme p '\r' cs = .ok l → ∃ l', lexeme q '\r' ds = .ok l' ∧ Q l')
    (hstring : stringLexeme p cs = .ok l → ∃ l', stringLexeme q ds = .ok l' ∧ Q l')
    (hnumber : numberLexeme p (c :: cs) = .ok l →
      ∃ l', numberLexeme q (c :: ds) = .ok l' ∧ Q l')
    (hword : l = wordLexeme p (c :: cs) → Q (wordLexeme q (c :: ds)))
    (hsymbol : symbolLexeme p c cs = .ok l → ∃ l', symbolLexeme q c ds = .ok l' ∧ Q l') :
    ∃ l', lexeme q c ds = .ok l' ∧ Q l' := by
  by_cases hc : c = '\r'
  · subst hc
    exact hreturn rfl h
  unfold lexeme at h ⊢
  rw [if_neg hc] at h ⊢
  split
  next hc =>
    rw [if_pos hc] at h
    exact ⟨_, rfl, hspace (Except.ok.inj h).symm⟩
  next hc =>
  rw [if_neg hc] at h
  split
  next hc =>
    rw [if_pos hc] at h
    exact ⟨_, rfl, hcomment hc (Except.ok.inj h).symm⟩
  next hc =>
  rw [if_neg hc] at h
  split
  next hc =>
    rw [if_pos hc] at h
    exact ⟨_, rfl, hnewline hc (Except.ok.inj h).symm⟩
  next hc =>
  rw [if_neg hc] at h
  split
  next hc =>
    rw [if_pos hc] at h
    exact hstring h
  next hc =>
  rw [if_neg hc] at h
  split
  next hc =>
    rw [if_pos hc] at h
    exact hnumber h
  next hc =>
  rw [if_neg hc] at h
  split
  next hc =>
    rw [if_pos hc] at h
    exact ⟨_, rfl, hword (Except.ok.inj h).symm⟩
  next hc =>
  rw [if_neg hc] at h
  exact hsymbol h

/-- A carriage return takes a line end with it. -/
theorem lexeme_return (p : Position) (cs : List Char) : lexeme p '\r' cs = .ok
    (if cs.head? = some '\n' then newlineLexeme p ['\r', '\n'] cs.tail
    else newlineLexeme p ['\r'] cs) := by
  unfold lexeme
  simp only [show isSpace '\r' = false from rfl, Bool.false_eq_true, if_false,
    show '\r' ≠ '#' by decide, show '\r' ≠ '\n' by decide, if_true]
  split
  next => rfl
  next hne =>
    rw [if_neg]
    intro hhead
    obtain ⟨rest, rfl⟩ := List.head?_eq_some_iff.mp hhead
    exact hne rest rfl

theorem lexeme_moved (hR : Position.Kept R) (hpq : R p q) (h : lexeme p c cs = .ok l) :
    ∃ l', lexeme q c cs = .ok l' ∧ l.Moved R l' := by
  -- A token that begins here, whatever it is.
  have htoken (kind : Kind) (datum : Datum) (text : List Char) : Option.Rel (Token.Moved R)
      (some ⟨kind, datum, p.line, p.column, text⟩) (some ⟨kind, datum, q.line, q.column, text⟩) :=
    .some ⟨rfl, rfl, rfl, hpq⟩
  refine lexeme_along h (fun h => ?_) (fun _ h => ?_) (fun _ h => ?_) (fun _ h => ?_)
    (fun h => ?_) (fun h => ?_) (fun h => ?_) (fun h => ?_)
  · exact h ▸ ⟨.none, hR.right _ hpq, rfl⟩
  · exact h ▸ ⟨htoken _ _ _, hR.right _ hpq, rfl⟩
  · exact h ▸ ⟨htoken _ _ _, hR.nextLine hpq, rfl⟩
  · rw [lexeme_return] at h ⊢
    cases h
    refine ⟨_, rfl, ?_⟩
    split <;> exact ⟨htoken _ _ _, hR.nextLine hpq, rfl⟩
  · obtain ⟨b, hb, rfl⟩ := Fault.map_eq_ok_iff.mp h
    obtain ⟨next, hnext, hb⟩ := stringBody_moved hR q.line (hR.right 1 hpq) hb
    exact ⟨_, Fault.map_eq_ok_iff.mpr ⟨_, hb, rfl⟩, htoken _ _ _, hnext, rfl⟩
  · obtain ⟨d, hd, rfl⟩ := Fault.map_eq_ok_iff.mp h
    exact ⟨_, Fault.map_eq_ok_iff.mpr ⟨_, numberDatum_position _ hd, rfl⟩, htoken _ _ _,
      hR.right _ hpq, rfl⟩
  · exact h ▸ ⟨htoken _ _ _, hR.right _ hpq, rfl⟩
  · unfold symbolLexeme at h ⊢
    split
    next hs =>
      rw [hs] at h
      cases h
      exact ⟨_, rfl, htoken _ _ _, hR.right _ hpq, rfl⟩
    next hs =>
      rw [hs] at h
      cases h

/-! ## All lexemes -/

theorem Cuts.moved (hR : Position.Kept R) (h : Cuts p cs ts) (hpq : R p q) :
    ∃ us, Cuts q cs us ∧ List.Forall₂ (Token.Moved R) ts us := by
  induction h generalizing q with
  | done => exact ⟨_, .done, .cons ⟨rfl, rfl, rfl, hpq⟩ .nil⟩
  | @next p c cs l ts hl _ ih =>
    obtain ⟨⟨o', next', rest'⟩, hl', htoken, hnext, rfl⟩ := lexeme_moved hR hpq hl
    obtain ⟨us, hus, hmoved⟩ := ih hnext
    refine ⟨o'.toList ++ us, .next hl' hus, ?_⟩
    obtain ⟨o, next, rest⟩ := l
    cases htoken with
    | some ht => exact .cons ht hmoved
    | none => exact hmoved

/-- What is left of a text behind its first lexeme is cut on its own. -/
theorem cuts_cons_iff (h : lexeme p c cs = .ok l) :
    Cuts p (c :: cs) ts ↔ ∃ us, ts = l.token?.toList ++ us ∧ Cuts l.next l.rest us := by
  constructor
  · intro hcuts
    cases hcuts with
    | next hl hrest =>
      cases hl.symm.trans h
      exact ⟨_, rfl, hrest⟩
  · rintro ⟨us, rfl, hus⟩
    exact .next h hus

/-- Blanks in front of a text are passed over. -/
theorem cuts_spaces_iff : Cuts p cs ts ↔
    Cuts (p.right (cs.takeWhile isSpace).length) (cs.dropWhile isSpace) ts := by
  cases cs with
  | nil => rfl
  | cons c cs =>
    by_cases hc : isSpace c = true
    · have hl : lexeme p c cs = .ok (spaceLexeme p (c :: cs)) := if_pos hc
      rw [cuts_cons_iff hl]
      exact ⟨fun ⟨_, heq, h⟩ => heq ▸ h, fun h => ⟨ts, rfl, h⟩⟩
    · rw [List.takeWhile_cons_of_neg hc, List.dropWhile_cons_of_neg hc]
      rfl

theorem cuts_blanks_iff {gap : List Char} (hgap : ∀ c ∈ gap, isSpace c = true) :
    Cuts p (gap ++ cs) ts ↔ Cuts (p.right gap.length) cs ts := by
  rw [cuts_spaces_iff, List.takeWhile_append_of_pos hgap, List.dropWhile_append_of_pos hgap,
    List.length_append, ← Position.right_right]
  exact cuts_spaces_iff.symm

theorem cuts_replicate_iff (n : Nat) :
    Cuts p (List.replicate n ' ' ++ cs) ts ↔ Cuts (p.right n) cs ts := by
  have hspaces : ∀ c ∈ List.replicate n ' ', isSpace c = true := by
    intro c hc
    rw [List.eq_of_mem_replicate hc]
    rfl
  rw [cuts_blanks_iff hspaces, List.length_replicate]

theorem kept_line : Position.Kept fun p q => p.line = q.line where
  right _ h := h
  nextLine h := congrArg (· + 1) h

/-- A text that is moved to the right keeps its tokens up to their columns. -/
theorem Cuts.indented (h : Cuts p cs ts) (hpq : p.line = q.line) (n : Nat) :
    ∃ us, Cuts q (List.replicate n ' ' ++ cs) us ∧
      List.Forall₂ (Token.Moved fun p q => p.line = q.line) ts us := by
  obtain ⟨us, hus, hmoved⟩ := h.moved (q := q.right n) kept_line hpq
  exact ⟨us, (cuts_replicate_iff n).mpr hus, hmoved⟩

end Lexer

end ScopeScript
