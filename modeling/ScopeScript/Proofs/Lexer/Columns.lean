import ScopeScript.Proofs.Lexer.Places
import ScopeScript.Proofs.Lexer.Regular

/-!
# The place behind a lexeme

A token stands where the text in front of it ends. A line end leads to the next
line; behind anything else the place is found by counting characters, and line
feeds, which only strings have inside, start lines of their own.
-/

namespace ScopeScript

namespace Position

/-- The place behind a text in which line feeds alone end lines. -/
def after (p : Position) (text : List Char) : Position :=
  text.foldl (fun p c => if c = '\n' then p.nextLine else p.right 1) p

variable (p : Position) {text : List Char}

theorem after_cons (c : Char) (text : List Char) :
    p.after (c :: text) = (if c = '\n' then p.nextLine else p.right 1).after text := rfl

theorem after_eq_right (h : '\n' ∉ text) : p.after text = p.right text.length := by
  induction text generalizing p with
  | nil => rfl
  | cons c text ih =>
    obtain ⟨hc, htext⟩ := not_or.mp (mt List.mem_cons.mpr h)
    rw [after_cons, if_neg (Ne.symm hc), ih _ htext, right_right, List.length_cons, Nat.add_comm 1]

theorem line_le_after (text : List Char) : p.line ≤ (p.after text).line := by
  induction text generalizing p with
  | nil => exact Nat.le_refl _
  | cons c text ih =>
    rw [after_cons]
    split
    · exact Nat.le_trans (Nat.le_succ p.line) (ih p.nextLine)
    · exact ih (p.right 1)

end Position

namespace Lexer

variable {cs rest : List Char} {p : Position} {c : Char} {l : Lexeme} {ts : List Token}

/-- A token that stands at `p` with its text in front of `rest`. -/
structure Stands (p : Position) (cs rest : List Char) (t : Token) : Prop where
  line : t.line = p.line
  column : t.column = p.column
  text : cs = t.text ++ rest

/-- A line feed, or a carriage return with the line feed behind it, if there is one. -/
def IsLineEnd (text rest : List Char) : Prop :=
  text = ['\n'] ∨ text = ['\r', '\n'] ∨ text = ['\r'] ∧ rest.head? ≠ some '\n'

/-- Where a lexeme leads: a gap and a token to the place behind their texts, a line end to the
next line. -/
inductive Advances (p : Position) (cs : List Char) (l : Lexeme) : Prop where
  | gap (text : List Char) : l.token? = none → (∀ c ∈ text, isSpace c = true) →
    cs = text ++ l.rest → l.next = p.right text.length → Advances p cs l
  | lineEnd (t : Token) : l.token? = some t → t.kind = .newline → IsLineEnd t.text l.rest →
    Stands p cs l.rest t → l.next = p.nextLine → Advances p cs l
  | token (t : Token) : l.token? = some t → t.kind ≠ .newline → t.kind ≠ .endOfInput →
    Stands p cs l.rest t → l.next = p.after t.text → Advances p cs l

theorem next_stringBody {opened : Nat} {b : StringBody} (h : stringBody opened p cs = .ok b) :
    b.next = p.after b.text := by
  fun_induction stringBody opened p cs generalizing b with
  | case1 => cases h
  | case2 p cs =>
    cases h
    rfl
  | case3 => cases h
  | case4 p e cs v hv ih =>
    obtain ⟨b, hb, rfl⟩ := Fault.map_eq_ok_iff.mp h
    -- A backslash and a line feed are no escape.
    have he : e ≠ '\n' := by
      rintro rfl
      cases hv
    have htext : (['\\', e] ++ b.text) = '\\' :: e :: b.text := rfl
    rw [StringBody.push, htext, Position.after_cons, if_neg (by decide), Position.after_cons,
      if_neg he, Position.right_right]
    exact ih hb
  | case5 => cases h
  | case6 p c cs _ _ _ ih =>
    obtain ⟨b, hb, rfl⟩ := Fault.map_eq_ok_iff.mp h
    exact ih hb

theorem lexeme_advances (h : lexeme p c cs = .ok l) : Advances p (c :: cs) l := by
  suffices hsame : ∃ l', lexeme p c cs = .ok l' ∧ (l' = l → Advances p (c :: cs) l') by
    obtain ⟨l', hl', hadvances⟩ := hsame
    cases h.symm.trans hl'
    exact hadvances rfl
  have hstands {t : Token} (ht : l.token? = some t) (hline : t.line = p.line)
      (hcolumn : t.column = p.column) : t.kind ≠ .endOfInput ∧ Stands p (c :: cs) l.rest t := by
    cases lexeme_takes h with
    | gap _ hnone _ _ _ => cases hnone.symm.trans ht
    | token u hu hkind _ htext =>
      cases hu.symm.trans ht
      exact ⟨hkind, hline, hcolumn, htext⟩
  have hword {f : Char → Bool} (hf : f '\n' = false) : '\n' ∉ (c :: cs).takeWhile f := by
    intro hmem
    rw [List.mem_takeWhile_imp hmem] at hf
    cases hf
  refine lexeme_along h (fun _ _ => ?_) (fun _ _ hl => ?_) (fun _ _ hl => ?_)
    (fun _ hl => ⟨l, hl, fun _ => ?_⟩) (fun hl => ⟨l, hl, fun _ => ?_⟩)
    (fun hl => ⟨l, hl, fun _ => ?_⟩) (fun _ hl => ?_) (fun hl => ⟨l, hl, fun _ => ?_⟩)
  · exact .gap _ rfl (fun d hd => List.mem_takeWhile_imp hd)
      List.takeWhile_append_dropWhile.symm rfl
  · subst hl
    obtain ⟨hkind, ht⟩ := hstands rfl rfl rfl
    exact .token _ rfl nofun hkind ht (p.after_eq_right (hword rfl)).symm
  · subst hl
    exact .lineEnd _ rfl rfl (.inl rfl) (hstands rfl rfl rfl).2 rfl
  · rw [lexeme_return] at hl
    split at hl
    next =>
      cases hl
      exact .lineEnd _ rfl rfl (.inr (.inl rfl)) (hstands rfl rfl rfl).2 rfl
    next halone =>
      cases hl
      exact .lineEnd _ rfl rfl (.inr (.inr ⟨rfl, halone⟩)) (hstands rfl rfl rfl).2 rfl
  · obtain ⟨b, hb, rfl⟩ := Fault.map_eq_ok_iff.mp hl
    obtain ⟨hkind, ht⟩ := hstands rfl rfl rfl
    exact .token _ rfl nofun hkind ht (next_stringBody hb)
  · obtain ⟨d, -, rfl⟩ := Fault.map_eq_ok_iff.mp hl
    obtain ⟨hkind, ht⟩ := hstands rfl rfl rfl
    refine .token _ rfl nofun hkind ht (p.after_eq_right fun hmem => ?_).symm
    exact absurd (mem_numberText hmem) (by decide)
  · subst hl
    obtain ⟨hkind, ht⟩ := hstands rfl rfl rfl
    exact .token _ rfl (ofWord_ne (by decide) (by decide) _) hkind ht
      (p.after_eq_right (hword rfl)).symm
  · have hsymbols : ∀ s ∈ symbols, s.2 ≠ .newline ∧ '\n' ∉ s.1 := by decide
    unfold symbolLexeme at hl
    split at hl
    next text kind hfind =>
      cases hl
      obtain ⟨hkind, ht⟩ := hstands rfl rfl rfl
      obtain ⟨hnewline, htext⟩ := hsymbols _ (List.mem_of_find?_eq_some hfind)
      exact .token _ rfl hnewline hkind ht (p.after_eq_right htext).symm
    next => cases hl

/-! ## Lines -/

/-- Nothing but blanks and line ends. -/
def IsLayout (text : List Char) : Prop := ∀ c ∈ text, isSpace c = true ∨ c = '\r' ∨ c = '\n'

theorem isLayout_append {text rest : List Char} (htext : IsLayout text) (hrest : IsLayout rest) :
    IsLayout (text ++ rest) :=
  List.forall_mem_append.mpr ⟨htext, hrest⟩

theorem IsLineEnd.isLayout {text rest : List Char} (h : IsLineEnd text rest) : IsLayout text := by
  rcases h with rfl | rfl | ⟨rfl, -⟩ <;> simp [IsLayout]

/-- A text without tokens of its own is layout. -/
theorem isLayout_of_cuts (h : Cuts p cs ts)
    (hts : ∀ t ∈ ts, t.kind = .newline ∨ t.kind = .endOfInput) : IsLayout cs := by
  induction h with
  | done => exact List.forall_mem_nil _
  | @next p c cs l ts hl _ ih =>
    cases lexeme_advances hl with
    | gap text hnone hspace htext _ =>
      rw [hnone] at hts
      rw [htext]
      exact isLayout_append (fun c hc => .inl (hspace c hc)) (ih hts)
    | lineEnd t hsome _ hend ht _ =>
      rw [hsome] at hts
      rw [ht.text]
      exact isLayout_append hend.isLayout (ih (List.forall_mem_cons.mp hts).2)
    | token t hsome hnewline hend _ _ =>
      rw [hsome] at hts
      exact ((List.forall_mem_cons.mp hts).1.elim hnewline hend).elim

theorem line_le_of_cuts (h : Cuts p cs ts) : ∀ t ∈ ts, p.line ≤ t.line := by
  induction h with
  | done => exact List.forall_mem_singleton.mpr (Nat.le_refl _)
  | @next p c cs l ts hl _ ih =>
    have hbehind (hnext : p.line ≤ l.next.line) : ∀ t ∈ ts, p.line ≤ t.line :=
      fun t ht => Nat.le_trans hnext (ih t ht)
    cases lexeme_advances hl with
    | gap text hnone _ _ hnext =>
      rw [hnone]
      exact hbehind (hnext ▸ Nat.le_refl _)
    | lineEnd t hsome _ _ ht hnext =>
      rw [hsome]
      exact List.forall_mem_cons.mpr ⟨ht.line.ge, hbehind (hnext ▸ Nat.le_succ _)⟩
    | token t hsome _ _ ht hnext =>
      rw [hsome]
      exact List.forall_mem_cons.mpr ⟨ht.line.ge, hbehind (hnext ▸ p.line_le_after _)⟩

/-- Without line ends all tokens are on the line where the text begins. -/
theorem line_eq_of_cuts (h : Cuts p cs ts) (hfeed : '\n' ∉ cs) (hreturn : '\r' ∉ cs) :
    ∀ t ∈ ts, t.line = p.line := by
  induction h with
  | done => exact List.forall_mem_singleton.mpr rfl
  | @next p c cs l ts hl _ ih =>
    have hbehind {text : List Char} (htext : c :: cs = text ++ l.rest)
        (hnext : l.next = p.right text.length) : ∀ t ∈ ts, t.line = p.line := by
      rw [htext] at hfeed hreturn
      intro t ht
      rw [ih (mt (List.mem_append_right _) hfeed) (mt (List.mem_append_right _) hreturn) t ht,
        hnext]
      rfl
    cases lexeme_advances hl with
    | gap text hnone _ htext hnext =>
      rw [hnone]
      exact hbehind htext hnext
    | lineEnd t _ _ hend ht _ =>
      rw [ht.text] at hfeed hreturn
      rcases hend with heq | heq | ⟨heq, -⟩
      · exact (hfeed (heq ▸ List.mem_cons_self)).elim
      · exact (hreturn (heq ▸ List.mem_cons_self)).elim
      · exact (hreturn (heq ▸ List.mem_cons_self)).elim
    | token t hsome _ _ ht hnext =>
      have htext : '\n' ∉ t.text := fun hmem => hfeed (ht.text ▸ List.mem_append_left _ hmem)
      rw [hsome]
      exact List.forall_mem_cons.mpr
        ⟨ht.line, hbehind ht.text (hnext.trans (p.after_eq_right htext))⟩

end Lexer

end ScopeScript
