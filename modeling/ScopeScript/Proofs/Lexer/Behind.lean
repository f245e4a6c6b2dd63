import Mathlib.Data.List.Find
import ScopeScript.Proofs.Lexer.Places

/-!
# What stands behind a lexeme

A lexeme is decided by its own characters and by at most two behind it. It is
the same in front of any other text that does not go on with it where the text
behind it does not.
-/

namespace ScopeScript.Lexer

variable {cs rest rest' w : List Char} {p q : Position} {c : Char} {l : Lexeme}

/-- A character that goes on with no lexeme that begins with `c`. -/
structure Parts (c d : Char) : Prop where
  space : isSpace c = true → isSpace d = false
  comment : c = '#' → endsComment d = true
  feed : c = '\r' → d ≠ '\n'
  part : isNamePart d = false
  sign : d ≠ '='

/-- Where a lexeme that begins with `c` ends in front of `rest`, it ends in front of `rest'`. -/
structure Behind (c : Char) (rest rest' : List Char) : Prop where
  head : ∀ d, rest'.head? = some d → rest.head? = some d ∨ Parts c d
  number : numberText rest = [] → numberText rest' = []

/-! ## Runs of characters -/

theorem takeWhile_of_dropWhile {f : Char → Bool} (h : (w ++ rest).dropWhile f = rest) :
    (w ++ rest).takeWhile f = w ∧ ∀ c ∈ w, f c = true := by
  have hboth := List.takeWhile_append_dropWhile (p := f) (l := w ++ rest)
  rw [h] at hboth
  have htake := List.append_cancel_right hboth
  exact ⟨htake, fun c hc => List.mem_takeWhile_imp (htake.symm ▸ hc)⟩

theorem follows_dropWhile (f : Char → Bool) (cs : List Char) :
    Follows (fun c => !f c) (cs.dropWhile f) := by
  have hhead := List.head?_dropWhile_not f cs
  cases hrest : cs.dropWhile f with
  | nil => trivial
  | cons c rest =>
    rw [hrest] at hhead
    exact (Bool.not_eq_true' _).mpr hhead

theorem Behind.follows {f : Char → Bool} (h : Behind c rest rest')
    (hf : ∀ d, Parts c d → f d = false) (hrest : Follows (fun c => !f c) rest) :
    Follows (fun c => !f c) rest' := by
  cases rest' with
  | nil => trivial
  | cons d more =>
    rcases h.head d rfl with hsame | hparts
    · obtain ⟨more', rfl⟩ := List.head?_eq_some_iff.mp hsame
      exact hrest
    · exact (Bool.not_eq_true' _).mpr (hf d hparts)

/-- A run of characters is the same in front of other characters that it does not go on with. -/
theorem Behind.run {f : Char → Bool} (h : Behind c rest rest')
    (hf : ∀ d, Parts c d → f d = false) (hrest : (w ++ rest).dropWhile f = rest) :
    (w ++ rest').takeWhile f = w ∧ (w ++ rest').dropWhile f = rest' := by
  have hends : Follows (fun c => !f c) rest := hrest ▸ follows_dropWhile f (w ++ rest)
  exact takeWhile_word (takeWhile_of_dropWhile hrest).2 (h.follows hf hends)

/-! ## Numbers, strings and symbols -/

theorem numberText_cons (c : Char) (cs : List Char) : numberText (c :: cs) =
    if Numeral.isDigit c || (c = '.' && cs.head?.any Numeral.isDigit) then c :: numberText cs
    else [] := by
  cases cs with
  | nil => simp [numberText]
  | cons d cs => rw [numberText, List.head?_cons, Option.any_some]

/-- A number ends in front of another text if that one goes on with no number. -/
theorem numberText_behind (hrest : numberText rest = [] → numberText rest' = [])
    (hw : numberText (w ++ rest) = w) : numberText (w ++ rest') = w := by
  induction w with
  | nil => exact hrest hw
  | cons c w ih =>
    rw [List.cons_append, numberText_cons] at hw ⊢
    split at hw
    next hc =>
      have htail := (List.cons.inj hw).2
      rw [ih htail, if_pos]
      cases w with
      | cons d w => exact hc
      | nil =>
        cases rest with
        | nil =>
          have hdigit : Numeral.isDigit c = true := by simpa using hc
          rw [hdigit, Bool.true_or]
        | cons d rest =>
          -- A digit behind the point would go on with the number.
          have hd : Numeral.isDigit d = false := by
            by_contra hd
            rw [List.nil_append, numberText_cons, Bool.not_eq_false _ |>.mp hd] at htail
            cases htail
          simp only [List.nil_append, List.head?_cons, Option.any_some, hd, Bool.and_false,
            Bool.or_false] at hc
          rw [hc, Bool.true_or]
    next => cases hw

theorem stringBody_text {opened : Nat} {b : StringBody} (h : stringBody opened p cs = .ok b)
    (rest : List Char) : stringBody opened p (b.text ++ rest) = .ok { b with rest := rest } := by
  fun_induction stringBody opened p cs generalizing b with
  | case1 => cases h
  | case2 p cs =>
    cases h
    rfl
  | case3 => cases h
  | case4 p e cs v hv ih =>
    obtain ⟨b, hb, rfl⟩ := Fault.map_eq_ok_iff.mp h
    change stringBody opened p ('\\' :: e :: (b.text ++ rest)) = _
    rw [stringBody, hv]
    exact Fault.map_eq_ok_iff.mpr ⟨_, ih hb, rfl⟩
  | case5 => cases h
  | case6 p c cs hquote hend hescape ih =>
    obtain ⟨b, hb, rfl⟩ := Fault.map_eq_ok_iff.mp h
    have hbackslash : c ≠ '\\' := by
      rintro rfl
      cases cs with
      | nil => exact hend rfl rfl
      | cons e cs => exact hescape e cs rfl rfl
    change stringBody opened p (c :: (b.text ++ rest)) = _
    rw [stringBody]
    · exact Fault.map_eq_ok_iff.mpr ⟨_, ih hb, rfl⟩
    · exact hquote
    · exact fun hc _ => hbackslash hc
    · exact fun _ _ hc _ => hbackslash hc

/-- No symbol has more than two characters. -/
theorem symbol?_take (cs : List Char) : symbol? (cs.take 2) = symbol? cs := by
  have hlength : ∀ s ∈ symbols, s.1.length ≤ 2 := by decide
  refine List.find?_congr fun s hs => ?_
  rw [Bool.eq_iff_iff, List.isPrefixOf_iff_prefix, List.isPrefixOf_iff_prefix,
    List.prefix_take_iff, and_iff_left (hlength s hs)]

theorem symbol?_behind {text : List Char} {kind : Kind} (h : Behind c rest rest')
    (hs : symbol? (text ++ rest) = some (text, kind)) :
    symbol? (text ++ rest') = some (text, kind) := by
  have hmem : (text, kind) ∈ symbols := List.mem_of_find?_eq_some hs
  cases rest' with
  | nil => exact symbol?_append hmem trivial
  | cons d more =>
    rcases h.head d rfl with hsame | hparts
    · obtain ⟨more', rfl⟩ := List.head?_eq_some_iff.mp hsame
      obtain ⟨e, text, rfl⟩ := List.exists_cons_of_ne_nil
        (List.ne_nil_of_length_pos (length_symbol?_pos hs))
      have hfirst : (e :: text ++ d :: more).take 2 = (e :: text ++ d :: more').take 2 := by
        cases text <;> simp
      rw [← symbol?_take, hfirst, symbol?_take, hs]
    · apply symbol?_append hmem
      simpa [Follows, endsSymbol] using hparts.sign

/-! ## One lexeme -/

section
variable {R : Position → Position → Prop} (hR : Position.Kept R) (hpq : R p q)
include hR hpq

theorem return_behind (hbehind : Behind '\r' rest rest')
    (h : lexeme p '\r' (w ++ rest) = .ok l) (hrest : l.rest = rest) :
    ∃ l', lexeme q '\r' (w ++ rest') = .ok { l' with rest := rest' } ∧ l.Moved R l' := by
  have hmoved (text : List Char) :
      (newlineLexeme p text rest).Moved R (newlineLexeme q text rest) :=
    ⟨.some ⟨rfl, rfl, rfl, hpq⟩, hR.nextLine hpq, rfl⟩
  rw [lexeme_return] at h ⊢
  cases w with
  | nil =>
    rw [List.nil_append] at h ⊢
    by_cases hfeed : rest.head? = some '\n'
    · rw [if_pos hfeed] at h
      cases h
      have hlength : rest.tail.length = rest.length := congrArg List.length hrest
      obtain ⟨more, rfl⟩ := List.head?_eq_some_iff.mp hfeed
      simp at hlength
    · rw [if_neg hfeed] at h
      cases h
      rw [if_neg fun hfeed' => (hbehind.head '\n' hfeed').elim hfeed fun hparts =>
        hparts.feed rfl rfl]
      exact ⟨newlineLexeme q ['\r'] rest, rfl, hmoved _⟩
  | cons d w =>
    rw [List.cons_append, List.head?_cons, List.tail_cons] at h ⊢
    by_cases hfeed : some d = some '\n'
    · rw [if_pos hfeed] at h ⊢
      cases h
      obtain rfl : w = [] := List.append_left_eq_self.mp hrest
      exact ⟨newlineLexeme q ['\r', '\n'] rest, rfl, hmoved _⟩
    · rw [if_neg hfeed] at h
      cases h
      have hnil : d :: w = [] := List.append_left_eq_self.mp hrest
      cases hnil

theorem stringLexeme_behind (h : stringLexeme p (w ++ rest) = .ok l) (hrest : l.rest = rest)
    (rest' : List Char) :
    ∃ l', stringLexeme q (w ++ rest') = .ok { l' with rest := rest' } ∧ l.Moved R l' := by
  obtain ⟨b, hb, rfl⟩ := Fault.map_eq_ok_iff.mp h
  obtain ⟨next, hnext, hb'⟩ := stringBody_moved hR q.line (hR.right 1 hpq) hb
  obtain rfl : w = b.text :=
    List.append_cancel_right ((text_stringBody hb).trans (congrArg (b.text ++ ·) hrest))
  exact ⟨⟨_, next, b.rest⟩, Fault.map_eq_ok_iff.mpr ⟨_, stringBody_text hb' rest', rfl⟩,
    .some ⟨rfl, rfl, rfl, hpq⟩, hnext, rfl⟩

theorem numberLexeme_behind (hbehind : Behind c rest rest')
    (h : numberLexeme p (w ++ rest) = .ok l) (hrest : l.rest = rest) :
    ∃ l', numberLexeme q (w ++ rest') = .ok { l' with rest := rest' } ∧ l.Moved R l' := by
  obtain ⟨d, hd, rfl⟩ := Fault.map_eq_ok_iff.mp h
  have hw : numberText (w ++ rest) = w := by
    have hboth := numberText_append_drop (w ++ rest)
    rw [show (w ++ rest).drop (numberText (w ++ rest)).length = rest from hrest] at hboth
    exact List.append_cancel_right hboth
  have hw' := numberText_behind hbehind.number hw
  rw [hw] at hd
  refine ⟨⟨some ⟨.number, d, q.line, q.column, w⟩, q.right w.length, rest⟩,
    Fault.map_eq_ok_iff.mpr ⟨d, by rw [hw']; exact numberDatum_position q hd, ?_⟩, ?_⟩
  · rw [hw', List.drop_left]
  · rw [hw, List.drop_left]
    exact ⟨.some ⟨rfl, rfl, rfl, hpq⟩, hR.right _ hpq, rfl⟩

theorem symbolLexeme_behind (hbehind : Behind c rest rest')
    (h : symbolLexeme p c (w ++ rest) = .ok l) (hrest : l.rest = rest) :
    ∃ l', symbolLexeme q c (w ++ rest') = .ok { l' with rest := rest' } ∧ l.Moved R l' := by
  unfold symbolLexeme at h
  split at h
  next text kind hs =>
    cases h
    have hprefix : text.isPrefixOf (c :: (w ++ rest)) = true := by
      have hfound := List.find?_some hs
      exact hfound
    obtain ⟨after, hafter⟩ := List.isPrefixOf_iff_prefix.mp hprefix
    have hdrop : (c :: (w ++ rest)).drop text.length = rest := hrest
    rw [← hafter, List.drop_left] at hdrop
    obtain rfl : text = c :: w := by
      rw [hdrop] at hafter
      exact List.append_cancel_right hafter
    have hs' : symbol? (c :: w ++ rest') = some (c :: w, kind) := symbol?_behind hbehind hs
    rw [symbolLexeme, ← List.cons_append, ← List.cons_append, hs']
    simp only [List.drop_left]
    exact ⟨⟨some _, _, rest⟩, rfl, .some ⟨rfl, rfl, rfl, hpq⟩, hR.right _ hpq, rfl⟩
  next => cases h

/-- A lexeme is the same, in a related place, in front of another text that does not go on with
it. -/
theorem lexeme_behind (hbehind : Behind c rest rest') (h : lexeme p c (w ++ rest) = .ok l)
    (hrest : l.rest = rest) :
    ∃ l', lexeme q c (w ++ rest') = .ok { l' with rest := rest' } ∧ l.Moved R l' := by
  have hrun {f : Char → Bool} (hf : f c = true → ∀ d, Parts c d → f d = false)
      (hdrop : (c :: w ++ rest).dropWhile f = rest) :
      (c :: (w ++ rest)).takeWhile f = c :: w ∧ (c :: (w ++ rest')).takeWhile f = c :: w ∧
        (c :: (w ++ rest')).dropWhile f = rest' := by
    obtain ⟨htake, hw⟩ := takeWhile_of_dropWhile hdrop
    exact ⟨htake, hbehind.run (hf (hw c List.mem_cons_self)) hdrop⟩
  suffices hsame : ∃ l₂, lexeme q c (w ++ rest') = .ok l₂ ∧
      ∃ l', l₂ = { l' with rest := rest' } ∧ l.Moved R l' by
    obtain ⟨_, hl, l', rfl, hmoved⟩ := hsame
    exact ⟨l', hl, hmoved⟩
  have hapart {r : Except Fault Lexeme}
      (h : ∃ l', r = .ok { l' with rest := rest' } ∧ l.Moved R l') :
      ∃ l₂, r = .ok l₂ ∧ ∃ l', l₂ = { l' with rest := rest' } ∧ l.Moved R l' := by
    obtain ⟨l', hl, hmoved⟩ := h
    exact ⟨_, hl, l', rfl, hmoved⟩
  refine lexeme_along h (fun hl => ?_) (fun hc hl => ?_) (fun _ hl => ?_)
    (fun hc h => hapart (return_behind hR hpq (hc ▸ hbehind) h hrest))
    (fun h => hapart (stringLexeme_behind hR hpq h hrest rest'))
    (fun h => hapart (numberLexeme_behind (w := c :: w) hR hpq hbehind h hrest)) (fun hl => ?_)
    (fun h => hapart (symbolLexeme_behind hR hpq hbehind h hrest))
  · subst hl
    obtain ⟨htake, htake', hdrop⟩ :=
      hrun (f := isSpace) (fun hc d hparts => hparts.space hc) hrest
    rw [spaceLexeme, spaceLexeme, htake, htake', hdrop]
    exact ⟨⟨none, _, _⟩, rfl, .none, hR.right _ hpq, rfl⟩
  · subst hl
    obtain ⟨htake, htake', hdrop⟩ := hrun (f := (!endsComment ·))
      (fun _ d hparts => (Bool.not_eq_false' _).mpr (hparts.comment hc)) hrest
    dsimp only [commentLexeme]
    rw [htake, htake', hdrop]
    exact ⟨⟨some _, _, _⟩, rfl, .some ⟨rfl, rfl, rfl, hpq⟩, hR.right _ hpq, rfl⟩
  · subst hl
    obtain rfl : w = [] := List.append_left_eq_self.mp hrest
    exact ⟨⟨some _, _, _⟩, rfl, .some ⟨rfl, rfl, rfl, hpq⟩, hR.nextLine hpq, rfl⟩
  · subst hl
    obtain ⟨htake, htake', hdrop⟩ := hrun (f := isNamePart) (fun _ d hparts => hparts.part) hrest
    dsimp only [wordLexeme]
    rw [htake, htake', hdrop]
    exact ⟨⟨some _, _, _⟩, rfl, .some ⟨rfl, rfl, rfl, hpq⟩, hR.right _ hpq, rfl⟩

end

theorem kept_eq : Position.Kept Eq where
  right n h := congrArg (·.right n) h
  nextLine h := congrArg Position.nextLine h

/-- A lexeme is the same in front of another text that does not go on with it. -/
theorem lexeme_in_front (hbehind : Behind c rest rest') (h : lexeme p c (w ++ rest) = .ok l)
    (hrest : l.rest = rest) : lexeme p c (w ++ rest') = .ok { l with rest := rest' } := by
  obtain ⟨l', hl', hmoved⟩ := lexeme_behind kept_eq rfl hbehind h hrest
  obtain ⟨o, next, _⟩ := l
  obtain ⟨o', next', _⟩ := l'
  obtain ⟨htoken, rfl : next = next', -⟩ := hmoved
  suffices hsame : o' = o by rw [hl', hsame]
  cases htoken with
  | none => rfl
  | @some t u ht =>
    obtain ⟨hline, hcolumn⟩ := Position.mk.inj ht.place
    obtain ⟨_, _, _, _, _⟩ := t
    obtain ⟨_, _, _, _, _⟩ := u
    obtain ⟨rfl, rfl, rfl, -⟩ := ht
    cases hline
    cases hcolumn
    rfl

end ScopeScript.Lexer
