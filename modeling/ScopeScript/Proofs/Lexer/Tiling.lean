import ScopeScript.Proofs.Lexer.Pieces

/-!
# The text between and in the tokens

A lexeme takes its text off the front of what is left and takes nothing else:
either a gap of blanks without a token, or a token with exactly that text. So
the texts of the tokens are slices of the whole text, one after another, and
only blanks lie between them.
-/

namespace ScopeScript

namespace Lexer

variable {cs rest : List Char} {p : Position} {c : Char} {l : Lexeme} {ts : List Token}
  {i j : Nat}

/-! ## One lexeme -/

/-- What a lexeme takes off the front of a text: blanks, or the text of its token. -/
inductive Takes (cs : List Char) (l : Lexeme) : Prop where
  | gap (text : List Char) : l.token? = none → text ≠ [] → (∀ c ∈ text, isSpace c = true) →
    cs = text ++ l.rest → Takes cs l
  | token (t : Token) : l.token? = some t → t.kind ≠ .endOfInput → t.text ≠ [] →
    cs = t.text ++ l.rest → Takes cs l

theorem takeWhile_cons_ne_nil {f : Char → Bool} (hc : f c = true) :
    (c :: cs).takeWhile f ≠ [] := by
  rw [List.takeWhile_cons_of_pos hc]
  exact List.cons_ne_nil _ _

theorem numberText_append_drop (cs : List Char) :
    numberText cs ++ cs.drop (numberText cs).length = cs := by
  fun_induction numberText cs with
  | case1 => rfl
  | case2 c hc => rfl
  | case3 c hc => rfl
  | case4 c d cs h ih => rw [List.length_cons, List.drop_succ_cons, List.cons_append, ih]
  | case5 => rfl

theorem text_stringBody {opened : Nat} {b : StringBody} (h : stringBody opened p cs = .ok b) :
    cs = b.text ++ b.rest := by
  fun_induction stringBody opened p cs generalizing b with
  | case1 => cases h
  | case2 p cs =>
    cases h
    rfl
  | case3 => cases h
  | case4 p e cs v hv ih =>
    obtain ⟨b, hb, rfl⟩ := Fault.map_eq_ok_iff.mp h
    exact congrArg ('\\' :: e :: ·) (ih hb)
  | case5 => cases h
  | case6 p c cs _ _ _ ih =>
    obtain ⟨b, hb, rfl⟩ := Fault.map_eq_ok_iff.mp h
    exact congrArg (c :: ·) (ih hb)

theorem ofWord_ne_endOfInput (w : String) : Kind.ofWord w ≠ .endOfInput :=
  ofWord_ne (by decide) (by decide) w

theorem symbolLexeme_takes (h : symbolLexeme p c cs = .ok l) : Takes (c :: cs) l := by
  unfold symbolLexeme at h
  split at h
  next text kind hfind =>
    cases h
    have hkind : ∀ s ∈ symbols, s.2 ≠ .endOfInput := by decide
    have hlength : 0 < text.length := length_symbol?_pos hfind
    have hprefix : text.isPrefixOf (c :: cs) = true := by
      have hfound := List.find?_some hfind
      exact hfound
    obtain ⟨rest, hrest⟩ := List.isPrefixOf_iff_prefix.mp hprefix
    refine .token _ rfl (hkind _ (List.mem_of_find?_eq_some hfind))
      (List.ne_nil_of_length_pos hlength) ?_
    rw [← hrest, List.drop_left]
  next => cases h

theorem lexeme_takes (h : lexeme p c cs = .ok l) : Takes (c :: cs) l := by
  unfold lexeme at h
  split at h
  next hc =>
    cases h
    refine .gap ((c :: cs).takeWhile isSpace) rfl (takeWhile_cons_ne_nil hc) ?_
      List.takeWhile_append_dropWhile.symm
    exact fun d hd => List.mem_takeWhile_imp hd
  split at h
  next hc =>
    cases h
    subst hc
    have htext : ('#' :: cs).takeWhile (!endsComment ·) ++ ('#' :: cs).dropWhile (!endsComment ·) =
        '#' :: cs := List.takeWhile_append_dropWhile
    have hne : ('#' :: cs).takeWhile (!endsComment ·) ≠ [] := takeWhile_cons_ne_nil (by decide)
    exact .token _ rfl nofun hne htext.symm
  split at h
  next hc =>
    cases h
    subst hc
    exact .token _ rfl nofun (List.cons_ne_nil _ _) rfl
  split at h
  next hc =>
    subst hc
    split at h
    · cases h
      exact .token _ rfl nofun (List.cons_ne_nil _ _) rfl
    · cases h
      exact .token _ rfl nofun (List.cons_ne_nil _ _) rfl
  split at h
  next hc =>
    subst hc
    obtain ⟨b, hb, rfl⟩ := Fault.map_eq_ok_iff.mp h
    exact .token _ rfl nofun (List.cons_ne_nil _ _) (congrArg ('"' :: ·) (text_stringBody hb))
  split at h
  next hc =>
    obtain ⟨datum, -, rfl⟩ := Fault.map_eq_ok_iff.mp h
    exact .token _ rfl nofun (List.ne_nil_of_length_pos (length_numberText_pos cs hc))
      (numberText_append_drop (c :: cs)).symm
  split at h
  next hc =>
    cases h
    have hpart : isNamePart c = true := by rw [isNamePart, hc, Bool.true_or]
    exact .token _ rfl (ofWord_ne_endOfInput _) (takeWhile_cons_ne_nil hpart)
      List.takeWhile_append_dropWhile.symm
  next => exact symbolLexeme_takes h

/-! ## All lexemes -/

/-- Only blanks stand in the text from one offset up to another. -/
def BlankBetween (cs : List Char) (i j : Nat) : Prop :=
  ∀ k c, i ≤ k → k < j → cs[k]? = some c → isSpace c = true

/-- From an offset on, the text consists of the texts of the tokens and of the blanks in
front of them; the end token comes last and has no text. -/
inductive Tiles (cs : List Char) : Nat → List Token → Prop where
  | done {i : Nat} {stop : Token} : stop.kind = .endOfInput → stop.text = [] → i ≤ cs.length →
    BlankBetween cs i cs.length → Tiles cs i [stop]
  | next {i j : Nat} {t : Token} {ts : List Token} : i ≤ j → BlankBetween cs i j →
    t.kind ≠ .endOfInput → t.text ≠ [] → t.text <+: cs.drop j →
    Tiles cs (j + t.text.length) ts → Tiles cs i (t :: ts)

theorem Tiles.after_blanks (hij : i ≤ j) (hblank : BlankBetween cs i j) (h : Tiles cs j ts) :
    Tiles cs i ts := by
  have hjoin {k : Nat} (hrest : BlankBetween cs j k) : BlankBetween cs i k := by
    intro m c him hmk hc
    rcases Nat.lt_or_ge m j with hmj | hjm
    · exact hblank m c him hmj hc
    · exact hrest m c hjm hmk hc
  cases h with
  | done hstop htext hle hrest => exact .done hstop htext (Nat.le_trans hij hle) (hjoin hrest)
  | next hjk hrest hkind htext hat hts =>
    exact .next (Nat.le_trans hij hjk) (hjoin hrest) hkind htext hat hts

theorem blankBetween_of_drop {text : List Char} (hblank : ∀ c ∈ text, isSpace c = true)
    (h : cs.drop i = text ++ rest) : BlankBetween cs i (i + text.length) := by
  intro k c hik hk hc
  have hat : (cs.drop i)[k - i]? = some c := by
    rw [List.getElem?_drop, Nat.add_sub_cancel' hik, hc]
  rw [h, List.getElem?_append_left (by omega)] at hat
  exact hblank c (List.mem_of_getElem? hat)

theorem drop_add_of_append {text : List Char} (h : cs.drop i = text ++ rest) :
    cs.drop (i + text.length) = rest := by
  rw [← List.drop_drop, h, List.drop_left]

theorem Cuts.tiles (h : Cuts p rest ts) (hrest : cs.drop i = rest) (hi : i ≤ cs.length) :
    Tiles cs i ts := by
  induction h generalizing i with
  | done =>
    have hle : cs.length ≤ i := List.drop_eq_nil_iff.mp hrest
    exact .done rfl rfl hi fun k c hik hk _ => absurd hk (by omega)
  | @next _ c rest l ts hl _ ih =>
    have hle (text : List Char) (htext : c :: rest = text ++ l.rest) :
        i + text.length ≤ cs.length := by
      have hlength := congrArg List.length (hrest.trans htext)
      rw [List.length_drop, List.length_append] at hlength
      omega
    cases lexeme_takes hl with
    | gap text hnone _ hblank htext =>
      have htiles := ih (drop_add_of_append (hrest.trans htext)) (hle text htext)
      rw [hnone]
      exact htiles.after_blanks (Nat.le_add_right ..)
        (blankBetween_of_drop hblank (hrest.trans htext))
    | token t hsome hkind hne htext =>
      have htiles := ih (drop_add_of_append (hrest.trans htext)) (hle t.text htext)
      have hat : t.text <+: cs.drop i := ⟨l.rest, by rw [hrest, htext]⟩
      rw [hsome]
      exact .next (Nat.le_refl i) (fun k _ hik hk _ => absurd hk (by omega)) hkind hne hat htiles

/-! ## The text from its pieces -/

/-- The texts of tokens, each after its gap. -/
def weave : List (List Char) → List Token → List Char
  | gap :: gaps, t :: ts => gap ++ (t.text ++ weave gaps ts)
  | _, _ => []

theorem mem_slice {k : Nat} (h : c ∈ (cs.drop i).take k) : ∃ m, i ≤ m ∧ m < i + k ∧
    cs[m]? = some c := by
  obtain ⟨m, hm, rfl⟩ := List.mem_iff_getElem.mp h
  rw [List.length_take, List.length_drop] at hm
  refine ⟨i + m, Nat.le_add_right .., by omega, ?_⟩
  rw [List.getElem_take, List.getElem_drop]
  exact List.getElem?_eq_getElem _

theorem Tiles.weave_eq (h : Tiles cs i ts) : ∃ gaps : List (List Char), gaps.length = ts.length ∧
    (∀ gap ∈ gaps, ∀ c ∈ gap, isSpace c = true) ∧ weave gaps ts = cs.drop i := by
  induction h with
  | @done i stop _ htext hle hblank =>
    refine ⟨[cs.drop i], rfl, ?_, ?_⟩
    · intro gap hgap c hc
      rw [List.mem_singleton.mp hgap, ← List.take_length (l := cs.drop i)] at hc
      obtain ⟨m, him, hm, hat⟩ := mem_slice hc
      rw [List.length_drop] at hm
      exact hblank m c him (by omega) hat
    · simp [weave, htext]
  | @next i j t ts hij hblank _ _ hat _ ih =>
    obtain ⟨gaps, hlength, hgaps, hweave⟩ := ih
    obtain ⟨rest, hrest⟩ := hat
    refine ⟨(cs.drop i).take (j - i) :: gaps, by rw [List.length_cons, hlength, List.length_cons],
      List.forall_mem_cons.mpr ⟨?_, hgaps⟩, ?_⟩
    · intro c hc
      obtain ⟨m, him, hm, hmc⟩ := mem_slice hc
      exact hblank m c him (by omega) hmc
    · calc weave ((cs.drop i).take (j - i) :: gaps) (t :: ts)
          = (cs.drop i).take (j - i) ++ (t.text ++ cs.drop (j + t.text.length)) := by
            rw [weave, hweave]
        _ = (cs.drop i).take (j - i) ++ cs.drop j := by
            rw [drop_add_of_append hrest.symm, hrest]
        _ = (cs.drop i).take (j - i) ++ (cs.drop i).drop (j - i) := by
            rw [List.drop_drop, Nat.add_sub_cancel' hij]
        _ = cs.drop i := List.take_append_drop ..

end Lexer

open Lexer (Tiles weave isSpace)

end ScopeScript
