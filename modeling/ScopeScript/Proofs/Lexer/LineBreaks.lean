import ScopeScript.Proofs.Lexer.Columns
import ScopeScript.Proofs.Lexer.Filling

/-!
# Line breaks and places

Where a character stands is told by the line breaks in front of it: every line
feed is one, and every carriage return that stands outside of strings and has no
line feed behind it. Tokens stand in these places, and so does what a lexical
fault is about.
-/

namespace ScopeScript

namespace Lexer

variable {cs rest rest' text body : List Char} {p q : Position} {c d : Char} {l : Lexeme}
  {t : Token} {ts : List Token} {i j k : Nat}

/-! ## Literals and line breaks of a text -/

/-- What the characters in front of an offset leave open. -/
inductive Span where
  | code | comment | quoted | escape
  deriving DecidableEq

namespace Span

def next : Span → Char → Span
  | .code, c => if c = '"' then .quoted else if c = '#' then .comment else .code
  | .comment, c => if endsComment c then .code else .comment
  | .quoted, c => if c = '"' then .code else if c = '\\' then .escape else .quoted
  | .escape, _ => .quoted

def isQuoted : Span → Bool
  | .quoted | .escape => true
  | .code | .comment => false

end Span

def spanAt (cs : List Char) (i : Nat) : Span := (cs.take i).foldl Span.next .code

/-- The character at an offset belongs to a string, closed or not, or is one of its quotes. -/
def inLiteral (cs : List Char) (i : Nat) : Bool :=
  (spanAt cs i).isQuoted || (spanAt cs (i + 1)).isQuoted

def isLineBreak (cs : List Char) (i : Nat) : Bool :=
  cs[i]? = some '\n' || (cs[i]? = some '\r' && !inLiteral cs i && cs[i + 1]? ≠ some '\n')

/-- The offsets of the line breaks in front of an offset. -/
def lineBreaks (cs : List Char) (i : Nat) : List Nat := (List.range i).filter (isLineBreak cs)

/-- The offset behind the last line break in front of an offset. -/
def lineStart (cs : List Char) (i : Nat) : Nat :=
  match (lineBreaks cs i).getLast? with
  | some j => j + 1
  | none => 0

/-- The place of an offset: line breaks and, behind the last one, characters are counted. -/
def place (cs : List Char) (i : Nat) : Position :=
  ⟨1 + (lineBreaks cs i).length, 1 + (i - lineStart cs i)⟩

/-- A carriage return with a line feed behind it, alone, and inside a string. -/
example : (List.range 8).map (fun i => ((place "a\r\n\r\"\rb\"".toList i).line,
    (place "a\r\n\r\"\rb\"".toList i).column)) =
    [(1, 1), (1, 2), (1, 3), (2, 1), (3, 1), (3, 2), (3, 3), (3, 4)] := by decide

theorem lineStart_le (cs : List Char) (i : Nat) : lineStart cs i ≤ i := by
  unfold lineStart
  split
  next j hj =>
    have hmem : j ∈ lineBreaks cs i := List.mem_of_getLast? hj
    exact List.mem_range.mp (List.mem_filter.mp hmem).1
  next => exact Nat.zero_le i

theorem place_zero (cs : List Char) : place cs 0 = .start := rfl

theorem place_succ (cs : List Char) (i : Nat) : place cs (i + 1) =
    if isLineBreak cs i then (place cs i).nextLine else (place cs i).right 1 := by
  have hbreaks : lineBreaks cs (i + 1) =
      lineBreaks cs i ++ if isLineBreak cs i then [i] else [] := by
    rw [lineBreaks, List.range_succ, List.filter_append, List.filter_singleton, Bool.cond_eq_ite]
    rfl
  split
  next hbreak =>
    rw [if_pos hbreak] at hbreaks
    have hstart : lineStart cs (i + 1) = i + 1 := by
      simp only [lineStart, hbreaks, List.getLast?_concat]
    simp only [place, hstart, hbreaks, List.length_append, List.length_singleton, Nat.sub_self,
      Nat.add_zero, Position.nextLine, Nat.add_assoc]
  next hbreak =>
    rw [if_neg hbreak, List.append_nil] at hbreaks
    have hstart : lineStart cs (i + 1) = lineStart cs i := by
      simp only [lineStart, hbreaks]
    have hle := lineStart_le cs i
    simp only [place, hstart, hbreaks, Position.right, Position.mk.injEq, true_and]
    omega

/-- Behind a text whose line feeds are its line breaks. -/
theorem place_add (text : List Char)
    (hbreak : ∀ k d, text[k]? = some d → (isLineBreak cs (i + k) = true ↔ d = '\n')) :
    place cs (i + text.length) = (place cs i).after text := by
  induction text generalizing i with
  | nil => rfl
  | cons d text ih =>
    have hfirst : isLineBreak cs i = true ↔ d = '\n' := hbreak 0 d rfl
    have htail := ih (i := i + 1) fun k e he => by
      have hk := hbreak (k + 1) e he
      rwa [Nat.add_comm k 1, ← Nat.add_assoc] at hk
    rw [List.length_cons, Nat.add_comm text.length 1, ← Nat.add_assoc, htail, place_succ,
      Position.after_cons]
    simp only [hfirst]

theorem spanAt_add (h : cs.drop i = text ++ rest) (hk : k ≤ text.length) :
    spanAt cs (i + k) = (text.take k).foldl Span.next (spanAt cs i) := by
  rw [spanAt, List.take_add, h, List.take_append_of_le_length hk, List.foldl_append]
  rfl

theorem getElem?_of_drop (h : cs.drop i = text ++ rest) (hk : k < text.length) :
    cs[i + k]? = text[k]? := by
  rw [← List.getElem?_drop, h, List.getElem?_append_left hk]

/-! ## The inside of a string -/

/-- Characters and escapes without the quote that closes a string. -/
inductive Inside : List Char → Prop where
  | nil : Inside []
  | char {c : Char} {body : List Char} : c ≠ '"' → c ≠ '\\' → Inside body → Inside (c :: body)
  | escape {e v : Char} {body : List Char} : Text.escaped? e = some v → Inside body →
    Inside ('\\' :: e :: body)

theorem Inside.foldl (h : Inside body) : body.foldl Span.next .quoted = .quoted := by
  induction h with
  | nil => rfl
  | char hquote hbackslash _ ih =>
    rw [List.foldl_cons, Span.next, if_neg hquote, if_neg hbackslash]
    exact ih
  | escape _ _ ih => exact ih

theorem Inside.isQuoted (h : Inside body) (k : Nat) :
    ((body.take k).foldl Span.next .quoted).isQuoted = true := by
  induction h generalizing k with
  | nil => rw [List.take_nil]; rfl
  | @char c body hquote hbackslash _ ih =>
    cases k with
    | zero => rfl
    | succ k =>
      rw [List.take_succ_cons, List.foldl_cons, Span.next, if_neg hquote, if_neg hbackslash]
      exact ih k
  | escape _ _ ih =>
    match k with
    | 0 => rfl
    | 1 => rfl
    | k + 2 => exact ih k

theorem inside_of_stringBody {opened : Nat} {b : StringBody}
    (h : stringBody opened p cs = .ok b) : ∃ body, b.text = body ++ ['"'] ∧ Inside body := by
  fun_induction stringBody opened p cs generalizing b with
  | case1 => cases h
  | case2 p cs =>
    cases h
    exact ⟨[], rfl, .nil⟩
  | case3 => cases h
  | case4 p e cs v hv ih =>
    obtain ⟨b, hb, rfl⟩ := Fault.map_eq_ok_iff.mp h
    obtain ⟨body, htext, hbody⟩ := ih hb
    exact ⟨'\\' :: e :: body, congrArg ('\\' :: e :: ·) htext, .escape hv hbody⟩
  | case5 => cases h
  | case6 p c cs hquote hend hescape ih =>
    obtain ⟨b, hb, rfl⟩ := Fault.map_eq_ok_iff.mp h
    obtain ⟨body, htext, hbody⟩ := ih hb
    have hbackslash : c ≠ '\\' := by
      rintro rfl
      cases cs with
      | nil => exact hend rfl rfl
      | cons e cs => exact hescape e cs rfl rfl
    exact ⟨c :: body, congrArg (c :: ·) htext, .char hquote hbackslash hbody⟩

/-- Why the inside of a string cannot be read: it does not end, or has a backslash in front of
a character that makes no escape. -/
inductive Spoils (opened : Nat) (p : Position) (cs : List Char) : LexCause → Prop where
  | string {body tail : List Char} : cs = body ++ tail → Inside body → tail = [] ∨ tail = ['\\'] →
    Spoils opened p cs (.unterminatedString opened)
  | escape {body rest : List Char} {e : Char} : cs = body ++ '\\' :: e :: rest → Inside body →
    Text.escaped? e = none →
    Spoils opened p cs (.unknownEscape e (p.after body).line (p.after body).column)

theorem Spoils.cons {opened : Nat} {cause : LexCause} (hquote : c ≠ '"') (hbackslash : c ≠ '\\')
    (h : Spoils opened (if c = '\n' then p.nextLine else p.right 1) cs cause) :
    Spoils opened p (c :: cs) cause := by
  cases h with
  | string hcs hbody htail =>
    exact .string (congrArg (c :: ·) hcs) (.char hquote hbackslash hbody) htail
  | @escape body rest e hcs hbody he =>
    have hmore : Inside (c :: body) := .char hquote hbackslash hbody
    exact .escape (congrArg (c :: ·) hcs) hmore he

theorem Spoils.escaped {opened : Nat} {cause : LexCause} {e v : Char}
    (hv : Text.escaped? e = some v) (h : Spoils opened (p.right 2) cs cause) :
    Spoils opened p ('\\' :: e :: cs) cause := by
  cases h with
  | string hcs hbody htail =>
    exact .string (congrArg ('\\' :: e :: ·) hcs) (.escape hv hbody) htail
  | @escape body rest e' hcs hbody he =>
    have hfeed : e ≠ '\n' := by
      rintro rfl
      cases hv
    have hafter : p.after ('\\' :: e :: body) = (p.right 2).after body := by
      rw [Position.after_cons, if_neg (by decide), Position.after_cons, if_neg hfeed,
        Position.right_right]
    rw [← hafter]
    exact .escape (congrArg ('\\' :: e :: ·) hcs) (.escape hv hbody) he

theorem spoils_of_stringBody {opened : Nat} {cause : LexCause}
    (h : stringBody opened p cs = .error (.lexical cause)) : Spoils opened p cs cause := by
  fun_induction stringBody opened p cs with
  | case1 =>
    cases h
    exact .string (List.append_nil []).symm .nil (.inl rfl)
  | case2 => cases h
  | case3 =>
    cases h
    exact .string (List.nil_append _).symm .nil (.inr rfl)
  | case4 p e cs v hv ih => exact .escaped hv (ih (Fault.map_eq_error_iff.mp h))
  | case5 p e cs hnone =>
    cases h
    exact .escape (List.nil_append _).symm .nil hnone
  | case6 p c cs hquote hend hescape ih =>
    have hbackslash : c ≠ '\\' := by
      rintro rfl
      cases cs with
      | nil => exact hend rfl rfl
      | cons e cs => exact hescape e cs rfl rfl
    exact .cons hquote hbackslash (ih (Fault.map_eq_error_iff.mp h))

/-! ## The quotes in a token -/

/-- How the text of a token that is no line end is made of quotes, signs of comments and other
characters. -/
inductive Marks (t : Token) (rest : List Char) : Prop where
  | plain : t.kind ≠ .string → (∀ c ∈ t.text, c ≠ '"' ∧ c ≠ '#' ∧ c ≠ '\r') → Marks t rest
  | comment (body : List Char) : t.kind = .comment → t.text = '#' :: body →
    (∀ c ∈ body, endsComment c = false) → Follows endsComment rest → Marks t rest
  | literal (body : List Char) : t.kind = .string → t.text = '"' :: (body ++ ['"']) →
    Inside body → Marks t rest

theorem lexeme_marks (h : lexeme p c cs = .ok l) (ht : l.token? = some t)
    (hnewline : t.kind ≠ .newline) : Marks t l.rest := by
  have hmarks {f : Char → Bool} (hf : f '"' = false ∧ f '#' = false ∧ f '\r' = false)
      {text : List Char} (htext : ∀ d ∈ text, f d = true) (d : Char) (hd : d ∈ text) :
      d ≠ '"' ∧ d ≠ '#' ∧ d ≠ '\r' :=
    ⟨ne_of_test (htext d hd) hf.1, ne_of_test (htext d hd) hf.2.1, ne_of_test (htext d hd) hf.2.2⟩
  suffices hsame : ∃ l', lexeme p c cs = .ok l' ∧ (l' = l → Marks t l.rest) by
    obtain ⟨l', hl', himp⟩ := hsame
    cases h.symm.trans hl'
    exact himp rfl
  refine lexeme_along h (fun hl => ?_) (fun hc hl => ?_) (fun _ hl => ?_)
    (fun _ hl => ⟨l, hl, fun _ => ?_⟩) (fun hl => ⟨l, hl, fun _ => ?_⟩)
    (fun hl => ⟨l, hl, fun _ => ?_⟩) (fun hl => ?_) (fun hl => ⟨l, hl, fun _ => ?_⟩)
  · intro _
    subst hl
    cases ht
  · intro _
    subst hl hc
    cases ht
    have hends : Follows endsComment (('#' :: cs).dropWhile (!endsComment ·)) := by
      simpa only [Bool.not_not] using follows_dropWhile (!endsComment ·) ('#' :: cs)
    refine .comment (cs.takeWhile (!endsComment ·)) rfl rfl (fun d hd => ?_) hends
    exact (Bool.not_eq_true' _).mp (List.mem_takeWhile_imp (p := (!endsComment ·)) hd)
  · intro _
    subst hl
    cases ht
    exact absurd rfl hnewline
  · rw [lexeme_return] at hl
    cases hl
    split at ht <;> cases ht <;> exact absurd rfl hnewline
  · obtain ⟨b, hb, rfl⟩ := Fault.map_eq_ok_iff.mp hl
    obtain ⟨body, htext, hbody⟩ := inside_of_stringBody hb
    cases ht
    exact .literal body rfl (congrArg ('"' :: ·) htext) hbody
  · obtain ⟨datum, -, rfl⟩ := Fault.map_eq_ok_iff.mp hl
    cases ht
    have htext : ∀ d ∈ numberText (c :: cs), (Numeral.isDigit d || d = '.') = true := by
      intro d hd
      simpa only [Bool.or_eq_true, decide_eq_true_eq] using mem_numberText hd
    exact .plain nofun (hmarks (by decide) htext)
  · intro _
    subst hl
    cases ht
    have htext : ∀ d ∈ (c :: cs).takeWhile isNamePart, isNamePart d = true :=
      fun d hd => List.mem_takeWhile_imp hd
    exact .plain (ofWord_ne (by decide) (by decide) _) (hmarks (by decide) htext)
  · have hsymbols : ∀ s ∈ symbols, s.2 ≠ .string ∧ '"' ∉ s.1 ∧ '#' ∉ s.1 ∧ '\r' ∉ s.1 := by
      decide
    unfold symbolLexeme at hl
    split at hl
    next text kind hs =>
      cases hl
      cases ht
      obtain ⟨hkind, hquote, hsign, hreturn⟩ := hsymbols _ (List.mem_of_find?_eq_some hs)
      exact .plain hkind fun d hd => ⟨fun h => hquote (h ▸ hd), fun h => hsign (h ▸ hd),
        fun h => hreturn (h ▸ hd)⟩
    next => cases hl

/-! ## The spans of a token -/

theorem foldl_plain (h : ∀ c ∈ text, c ≠ '"' ∧ c ≠ '#') : text.foldl Span.next .code = .code := by
  induction text with
  | nil => rfl
  | cons c text ih =>
    obtain ⟨⟨hquote, hsign⟩, htext⟩ := List.forall_mem_cons.mp h
    rw [List.foldl_cons, Span.next, if_neg hquote, if_neg hsign]
    exact ih htext

theorem spanAt_plain (h : ∀ c ∈ text, c ≠ '"' ∧ c ≠ '#') (k : Nat) : spanAt text k = .code :=
  foldl_plain fun c hc => h c (List.mem_of_mem_take hc)

theorem inLiteral_plain (h : ∀ c ∈ text, c ≠ '"' ∧ c ≠ '#') (k : Nat) :
    inLiteral text k = false := by
  rw [inLiteral, spanAt_plain h, spanAt_plain h]
  rfl

theorem foldl_comment (h : ∀ c ∈ body, endsComment c = false) :
    body.foldl Span.next .comment = .comment := by
  induction body with
  | nil => rfl
  | cons c body ih =>
    obtain ⟨hc, hbody⟩ := List.forall_mem_cons.mp h
    rw [List.foldl_cons, Span.next, hc]
    exact ih hbody

theorem spanAt_comment (h : ∀ c ∈ body, endsComment c = false) (k : Nat) :
    spanAt ('#' :: body) (k + 1) = .comment :=
  foldl_comment fun c hc => h c (List.mem_of_mem_take hc)

theorem inLiteral_comment (h : ∀ c ∈ body, endsComment c = false) (k : Nat) :
    inLiteral ('#' :: body) k = false := by
  rw [inLiteral, spanAt_comment h]
  cases k with
  | zero => rfl
  | succ k =>
    rw [spanAt_comment h]
    rfl

theorem isQuoted_literal (h : Inside body) (hk : k ≤ body.length) :
    (spanAt ('"' :: (body ++ ['"'])) (k + 1)).isQuoted = true := by
  rw [spanAt, List.take_succ_cons, List.take_append_of_le_length hk]
  exact h.isQuoted k

theorem inLiteral_literal (h : Inside body) (hk : k < ('"' :: (body ++ ['"'])).length) :
    inLiteral ('"' :: (body ++ ['"'])) k = true := by
  rw [List.length_cons, List.length_append, List.length_singleton] at hk
  cases k with
  | zero =>
    rw [inLiteral, isQuoted_literal h (Nat.zero_le _), Bool.or_true]
  | succ k =>
    rw [inLiteral, isQuoted_literal h (by omega), Bool.true_or]

theorem Marks.inLiteral (h : Marks t rest) (hk : k < t.text.length) :
    inLiteral t.text k = decide (t.kind = .string) := by
  cases h with
  | plain hkind htext =>
    rw [decide_eq_false hkind]
    exact inLiteral_plain (fun c hc => ⟨(htext c hc).1, (htext c hc).2.1⟩) k
  | comment body hkind htext hbody _ =>
    rw [htext, hkind]
    exact inLiteral_comment hbody k
  | literal body hkind htext hbody =>
    rw [decide_eq_true hkind]
    rw [htext] at hk ⊢
    exact inLiteral_literal hbody hk

/-! ## Where lexemes begin -/

/-- Nothing is open in front of `rest` but, if one ends there, a comment. -/
def Span.Ready (s : Span) (rest : List Char) : Prop :=
  s = .code ∨ s = .comment ∧ Follows endsComment rest

theorem Span.Ready.isQuoted {s : Span} (h : s.Ready rest) : s.isQuoted = false := by
  rcases h with rfl | ⟨rfl, -⟩ <;> rfl

theorem Span.Ready.foldl_cons {s : Span} (h : s.Ready (c :: rest)) (text : List Char) :
    (c :: text).foldl Span.next s = (c :: text).foldl Span.next .code := by
  rcases h with rfl | ⟨rfl, hc : endsComment c = true⟩
  · rfl
  · have hplain : c ≠ '"' ∧ c ≠ '#' :=
      ⟨ne_of_test hc (by decide), ne_of_test hc (by decide)⟩
    have hcomment : Span.comment.next c = .code := if_pos hc
    have hcode : Span.code.next c = .code := by
      rw [Span.next, if_neg hplain.1, if_neg hplain.2]
    rw [List.foldl_cons, List.foldl_cons, hcomment, hcode]

theorem Marks.ready (h : Marks t rest) : (spanAt t.text t.text.length).Ready rest := by
  cases h with
  | plain _ htext =>
    exact .inl (spanAt_plain (fun c hc => ⟨(htext c hc).1, (htext c hc).2.1⟩) _)
  | comment body _ htext hbody hrest =>
    rw [htext, List.length_cons]
    exact .inr ⟨spanAt_comment hbody _, hrest⟩
  | literal body _ htext hbody =>
    rw [htext, spanAt, List.take_length]
    change Span.Ready ((body ++ ['"']).foldl Span.next .quoted) rest
    rw [List.foldl_append, hbody.foldl]
    exact .inl rfl

/-- A lexeme can begin at the offset, which has the place `p` and `rest` behind it. -/
structure Placed (cs : List Char) (i : Nat) (p : Position) (rest : List Char) : Prop where
  drop : cs.drop i = rest
  within : i ≤ cs.length
  place : place cs i = p
  span : (spanAt cs i).Ready rest

theorem placed_start (cs : List Char) : Placed cs 0 .start cs :=
  ⟨rfl, Nat.zero_le _, place_zero cs, .inl rfl⟩

section
variable (h : Placed cs i p rest) (htext : rest = text ++ rest')
include h htext

/-- What is open inside the next lexeme is told by its own characters. -/
theorem Placed.spanAt (hk : k < text.length) : spanAt cs (i + (k + 1)) = spanAt text (k + 1) := by
  have hdrop := h.drop
  have hspan := h.span
  subst htext
  rw [spanAt_add hdrop hk]
  cases text with
  | nil => exact absurd hk (Nat.not_lt_zero k)
  | cons c text => exact hspan.foldl_cons (text.take k)

theorem Placed.inLiteral (hk : k < text.length) : inLiteral cs (i + k) = inLiteral text k := by
  rw [Lexer.inLiteral, Lexer.inLiteral, Nat.add_assoc, h.spanAt htext hk]
  cases k with
  | zero =>
    rw [Nat.add_zero, h.span.isQuoted]
    rfl
  | succ k => rw [h.spanAt htext (Nat.lt_of_succ_lt hk)]

theorem Placed.behind (hne : text ≠ []) (hplace : Lexer.place cs (i + text.length) = q)
    (hspan : (Lexer.spanAt text text.length).Ready rest') :
    Placed cs (i + text.length) q rest' where
  drop := drop_add_of_append (h.drop.trans htext)
  within := by
    have hlength := congrArg List.length (h.drop.trans htext)
    have hle := h.within
    rw [List.length_drop, List.length_append] at hlength
    omega
  place := hplace
  span := by
    obtain ⟨k, hk⟩ := Nat.exists_eq_succ_of_ne_zero (mt List.eq_nil_of_length_eq_zero hne)
    rw [hk] at hspan ⊢
    rwa [h.spanAt htext (by omega)]

/-- Only line feeds break lines in a text whose carriage returns stand in a string. -/
theorem Placed.place_after
    (hreturn : ∀ k, text[k]? = some '\r' → Lexer.inLiteral text k = true) :
    Lexer.place cs (i + text.length) = p.after text := by
  rw [place_add text fun k d hd => ?_, h.place]
  have hk : k < text.length := (List.getElem?_eq_some_iff.mp hd).1
  have hat : cs[i + k]? = some d := by
    rw [getElem?_of_drop (h.drop.trans htext) hk, hd]
  rw [isLineBreak, hat, h.inLiteral htext hk]
  by_cases hfeed : d = '\n'
  · simp [hfeed]
  · by_cases hd' : d = '\r'
    · rw [hreturn k (hd' ▸ hd)]
      simp [hd']
    · simp [hfeed, hd']

/-- Both characters of a line end, or its only one, lead to the next line. -/
theorem Placed.place_lineEnd (hend : IsLineEnd text rest') :
    Lexer.place cs (i + text.length) = p.nextLine := by
  have hdrop := h.drop.trans htext
  rcases hend with rfl | rfl | ⟨rfl, hhead⟩
  · exact h.place_after htext fun k hk => by cases k <;> cases hk
  · have hreturn : cs[i]? = some '\r' := getElem?_of_drop (k := 0) hdrop (by decide)
    have hfeed : cs[i + 1]? = some '\n' := getElem?_of_drop (k := 1) hdrop (by decide)
    have hfirst : isLineBreak cs i = false := by simp [isLineBreak, hreturn, hfeed]
    have hsecond : isLineBreak cs (i + 1) = true := by simp [isLineBreak, hfeed]
    change Lexer.place cs (i + 1 + 1) = _
    rw [place_succ, place_succ, hsecond, hfirst, h.place]
    rfl
  · have hreturn : cs[i]? = some '\r' := getElem?_of_drop (k := 0) hdrop (by decide)
    have hbehind : cs[i + 1]? = rest'.head? := by
      rw [← List.getElem?_drop, hdrop, List.head?_eq_getElem?]
      rfl
    have houtside : Lexer.inLiteral cs i = false := h.inLiteral (k := 0) htext (by decide)
    have hbreak : isLineBreak cs i = true := by
      simp [isLineBreak, hreturn, hbehind, houtside, hhead]
    change Lexer.place cs (i + 1) = _
    rw [place_succ, hbreak, h.place]
    rfl

end

/-- What a lexeme takes: blanks, or a token that stands in its place, with a string literal in
its text if and only if it is a string; behind it the next lexeme can begin. -/
inductive Covers (cs : List Char) (i : Nat) (p : Position) (rest : List Char) (l : Lexeme) :
    Prop where
  | gap (text : List Char) : l.token? = none → (∀ c ∈ text, isSpace c = true) →
    rest = text ++ l.rest → (∀ k < text.length, inLiteral cs (i + k) = false) →
    Placed cs (i + text.length) l.next l.rest → Covers cs i p rest l
  | token (t : Token) : l.token? = some t → t.kind ≠ .endOfInput → Stands p rest l.rest t →
    (∀ k < t.text.length, inLiteral cs (i + k) = decide (t.kind = .string)) →
    Placed cs (i + t.text.length) l.next l.rest → Covers cs i p rest l

theorem Placed.covers (h : Placed cs i p (c :: rest)) (hl : lexeme p c rest = .ok l) :
    Covers cs i p (c :: rest) l := by
  have hne {text : List Char} (htext : c :: rest = text ++ l.rest) : text ≠ [] := by
    rintro rfl
    have hshorter := length_rest_lexeme hl
    rw [List.nil_append] at htext
    rw [← htext, List.length_cons] at hshorter
    omega
  cases lexeme_advances hl with
  | gap text hnone hblank htext hnext =>
    have hplain : ∀ c ∈ text, c ≠ '"' ∧ c ≠ '#' :=
      fun c hc => ⟨ne_of_test (hblank c hc) rfl, ne_of_test (hblank c hc) rfl⟩
    have hfeed : '\n' ∉ text := fun hmem => nomatch hblank _ hmem
    have hplace := h.place_after htext fun k hk => nomatch hblank _ (List.mem_of_getElem? hk)
    rw [p.after_eq_right hfeed, ← hnext] at hplace
    refine .gap text hnone hblank htext (fun k hk => ?_) ?_
    · rw [h.inLiteral htext hk, inLiteral_plain hplain]
    · exact h.behind htext (hne htext) hplace (.inl (spanAt_plain hplain _))
  | lineEnd t hsome hkind hend ht hnext =>
    have hplain : ∀ c ∈ t.text, c ≠ '"' ∧ c ≠ '#' := by
      rcases hend with heq | heq | ⟨heq, -⟩ <;> simp [heq]
    have hplace := h.place_lineEnd ht.text hend
    rw [← hnext] at hplace
    refine .token t hsome (by rw [hkind]; decide) ht (fun k hk => ?_) ?_
    · rw [h.inLiteral ht.text hk, inLiteral_plain hplain, hkind]
      rfl
    · exact h.behind ht.text (hne ht.text) hplace (.inl (spanAt_plain hplain _))
  | token t hsome hnewline hend ht hnext =>
    have hmarks := lexeme_marks hl hsome hnewline
    have hplace := h.place_after ht.text fun k hk => by
      have hkl : k < t.text.length := (List.getElem?_eq_some_iff.mp hk).1
      rw [hmarks.inLiteral hkl]
      cases hmarks with
      | plain _ htext => exact absurd rfl (htext _ (List.mem_of_getElem? hk)).2.2
      | comment body _ htext hbody _ =>
        have hmem : '\r' ∈ '#' :: body := htext ▸ List.mem_of_getElem? hk
        rcases List.mem_cons.mp hmem with heq | hmem
        · cases heq
        · cases hbody _ hmem
      | literal _ hkind _ _ => exact decide_eq_true hkind
    rw [← hnext] at hplace
    refine .token t hsome hend ht (fun k hk => ?_) ?_
    · rw [h.inLiteral ht.text hk, hmarks.inLiteral hk]
    · exact h.behind ht.text (hne ht.text) hplace hmarks.ready

/-! ## Texts that can be read -/

theorem map_standing (i : Nat) (cs : List Char) (ts : List Token) :
    (standing i cs ts).map Prod.snd = ts := by
  induction ts generalizing i cs with
  | nil => rfl
  | cons t ts ih => exact congrArg (t :: ·) (ih _ _)

/-- A token stands at its offset. -/
structure StandsAt (cs : List Char) (i : Nat) (t : Token) : Prop where
  text : t.text <+: cs.drop i
  place : (⟨t.line, t.column⟩ : Position) = place cs i
  ending : t.kind = .endOfInput → i = cs.length

theorem Cuts.standsAt (h : Cuts p rest ts) (hp : Placed cs i p rest) :
    ∀ s ∈ Lexer.standing i rest ts, StandsAt cs s.1 s.2 := by
  induction h generalizing i with
  | @done p =>
    have hlast : i = cs.length :=
      Nat.le_antisymm hp.within (List.drop_eq_nil_iff.mp hp.drop)
    intro s hs
    obtain rfl := List.mem_singleton.mp hs
    exact ⟨List.nil_prefix, hp.place.symm, fun _ => hlast⟩
  | @next p c rest l ts hl _ ih =>
    cases hp.covers hl with
    | gap text hnone hblank htext _ hnext =>
      rw [hnone, htext]
      exact fun s hs => ih hnext s (by rwa [Option.toList_none, List.nil_append,
        standing_blanks hblank] at hs)
    | token t hsome hend ht _ hnext =>
      have hspace := isSpace_of_token hl hsome
      rw [hsome, Option.toList_some, List.singleton_append, standing_token hspace ht.text]
      rw [List.forall_mem_cons]
      constructor
      · refine ⟨⟨l.rest, ?_⟩, ?_, fun hkind => absurd hkind hend⟩
        · rw [hp.drop, ht.text]
        · rw [hp.place, ht.line, ht.column]
      · exact ih hnext

/-- A character stands in a literal if it belongs to the text of a string token. -/
theorem Cuts.inLiteral_iff (h : Cuts p rest ts) (hp : Placed cs i p rest) (hik : i ≤ k)
    (hk : k < cs.length) : inLiteral cs k = true ↔
      ∃ s ∈ Lexer.standing i rest ts,
        s.2.kind = .string ∧ s.1 ≤ k ∧ k < s.1 + s.2.text.length := by
  induction h generalizing i with
  | done =>
    have hle : cs.length ≤ i := List.drop_eq_nil_iff.mp hp.drop
    omega
  | @next p c rest l ts hl _ ih =>
    cases hp.covers hl with
    | gap text hnone hblank htext houtside hnext =>
      rw [hnone, htext, Option.toList_none, List.nil_append, standing_blanks hblank]
      by_cases hkt : k < i + text.length
      · obtain ⟨m, rfl⟩ := Nat.exists_eq_add_of_le hik
        rw [houtside m (by omega)]
        constructor
        · nofun
        · rintro ⟨s, hs, -, hle, -⟩
          have hstart := le_standing hs
          omega
      · exact ih hnext (Nat.le_of_not_lt hkt)
    | token t hsome hend ht hinside hnext =>
      have hspace := isSpace_of_token hl hsome
      rw [hsome, Option.toList_some, List.singleton_append, standing_token hspace ht.text]
      by_cases hkt : k < i + t.text.length
      · obtain ⟨m, rfl⟩ := Nat.exists_eq_add_of_le hik
        rw [hinside m (by omega), decide_eq_true_iff]
        constructor
        · intro hkind
          exact ⟨(i, t), List.mem_cons_self, hkind, hik, hkt⟩
        · rintro ⟨s, hs, hkind, hle, -⟩
          rcases List.mem_cons.mp hs with rfl | hs
          · exact hkind
          · have hstart := le_standing hs
            omega
      · rw [ih hnext (Nat.le_of_not_lt hkt), List.exists_mem_cons_iff]
        constructor
        · exact Or.inr
        · rintro (⟨-, -, hlt⟩ | h)
          · exact absurd hlt hkt
          · exact h

/-! ## Texts that cannot be read -/

/-- Behind some lexemes of a text the place `q` is reached, with `rest` still to be read. -/
inductive Leads : Position → List Char → Position → List Char → Prop where
  | here {p : Position} {cs : List Char} : Leads p cs p cs
  | step {p q : Position} {c : Char} {cs rest : List Char} {l : Lexeme} :
    lexeme p c cs = .ok l → Leads l.next l.rest q rest → Leads p (c :: cs) q rest

theorem leads_of_error {fuel : Nat} {f : Fault} (enough : cs.length ≤ fuel)
    (h : lexemes fuel p cs = .error f) :
    ∃ q c rest, Leads p cs q (c :: rest) ∧ lexeme q c rest = .error f := by
  induction fuel generalizing p cs with
  | zero =>
    obtain rfl := List.eq_nil_of_length_eq_zero (Nat.le_zero.mp enough)
    cases h
  | succ fuel ih =>
    cases cs with
    | nil => cases h
    | cons c cs =>
      rw [lexemes] at h
      cases hl : lexeme p c cs with
      | error g =>
        rw [hl] at h
        cases h
        exact ⟨p, c, cs, .here, hl⟩
      | ok l =>
        have hshorter := length_rest_lexeme hl
        simp only [List.length_cons] at enough
        cases hr : lexemes fuel l.next l.rest with
        | error g =>
          simp only [hl, hr, bind, Except.bind, Except.error.injEq] at h
          subst h
          obtain ⟨q, d, rest, hleads, herror⟩ := ih (by omega) hr
          exact ⟨q, d, rest, .step hl hleads, herror⟩
        | ok ts => simp [hl, hr, bind, Except.bind, pure, Except.pure] at h

theorem Leads.placed (h : Leads p rest q rest') (hp : Placed cs i p rest) :
    ∃ j, Placed cs j q rest' := by
  induction h generalizing i with
  | here => exact ⟨i, hp⟩
  | step hl _ ih =>
    cases hp.covers hl with
    | gap _ _ _ _ _ hnext => exact ih hnext
    | token _ _ _ _ _ hnext => exact ih hnext

theorem behind_of_isPrefix (h : rest' <+: rest) : Behind c rest rest' := by
  obtain ⟨more, rfl⟩ := h
  refine ⟨fun d hd => .inl ?_, fun hnumber => ?_⟩
  · rw [List.head?_append, hd]
    rfl
  · cases rest' with
    | nil => rfl
    | cons d rest' =>
      rw [List.cons_append, numberText_cons] at hnumber
      split at hnumber
      next => cases hnumber
      next hd =>
        rw [numberText_cons, if_neg fun hd' => hd ?_]
        cases rest' with
        | nil =>
          have hdigit : Numeral.isDigit d = true := by simpa using hd'
          rw [hdigit, Bool.true_or]
        | cons e rest' => exact hd'

/-- What is in front of a lexeme can be read without what follows. -/
theorem Leads.cuts (h : Leads p cs q rest) : ∃ w ts, cs = w ++ rest ∧ Cuts p w ts := by
  induction h with
  | here => exact ⟨[], _, rfl, .done⟩
  | @step p q c cs rest l hl _ ih =>
    obtain ⟨w, ts, hrest, hcuts⟩ := ih
    obtain ⟨text, htext⟩ : ∃ text, c :: cs = text ++ l.rest := by
      cases lexeme_takes hl with
      | gap text _ _ _ htext => exact ⟨text, htext⟩
      | token t _ _ _ htext => exact ⟨t.text, htext⟩
    cases text with
    | nil =>
      have hshorter := length_rest_lexeme hl
      rw [List.nil_append] at htext
      rw [← htext, List.length_cons] at hshorter
      omega
    | cons d text =>
      obtain ⟨rfl, rfl⟩ := List.cons.inj htext
      have hbehind : Behind c l.rest w := behind_of_isPrefix ⟨rest, hrest.symm⟩
      refine ⟨c :: (text ++ w), l.token?.toList ++ ts, ?_,
        .next (l := { l with rest := w }) (lexeme_in_front hbehind hl rfl) hcuts⟩
      change c :: (text ++ l.rest) = _
      rw [hrest, List.cons_append, List.append_assoc]

/-- No lexeme begins with these characters. -/
structure Unreadable (c : Char) (cs : List Char) : Prop where
  layout : c ∉ [' ', '\t', '\n', '\r', '#', '"']
  digit : Numeral.isDigit c = false
  name : isNameStart c = false
  symbol : ∀ s ∈ symbols, ¬s.1 <+: c :: cs

theorem lexeme_fault {cause : LexCause} (h : lexeme p c cs = .error (.lexical cause)) :
    c = '"' ∧ Spoils p.line (p.right 1) cs cause ∨
    Numeral.isDigit c = true ∧ 1 < (numberText (c :: cs)).count '.' ∧
      cause = .malformedNumber (numberText (c :: cs)) p.line p.column ∨
    Unreadable c cs ∧ cause = .unexpectedCharacter c p.line p.column := by
  unfold lexeme at h
  split at h
  next => cases h
  next hspace =>
  split at h
  next => cases h
  next hsign =>
  split at h
  next => cases h
  next hfeed =>
  split at h
  next => split at h <;> cases h
  next hreturn =>
  split at h
  next hquote => exact .inl ⟨hquote, spoils_of_stringBody (Fault.map_eq_error_iff.mp h)⟩
  next hquote =>
  split at h
  next hdigit =>
    have hdatum := Fault.map_eq_error_iff.mp h
    unfold numberDatum at hdatum
    split at hdatum
    next => split at hdatum <;> cases hdatum
    next => cases hdatum
    next hzero hone =>
      cases hdatum
      have hmany : 1 < (numberText (c :: cs)).count '.' :=
        Nat.one_lt_iff_ne_zero_and_ne_one.mpr ⟨hzero, hone⟩
      exact .inr (.inl ⟨hdigit, hmany, rfl⟩)
  next hdigit =>
  split at h
  next => cases h
  next hname =>
    unfold symbolLexeme at h
    split at h
    next => cases h
    next hnone =>
      cases h
      simp only [isSpace, Bool.or_eq_true, decide_eq_true_eq, not_or] at hspace
      refine .inr (.inr ⟨⟨?_, (Bool.not_eq_true _).mp hdigit, (Bool.not_eq_true _).mp hname,
        fun s hs hprefix => ?_⟩, rfl⟩)
      · simp only [List.mem_cons, List.not_mem_nil, or_false, not_or]
        exact ⟨hspace.1, hspace.2, hfeed, hreturn, hsign, hquote⟩
      · exact List.find?_eq_none.mp hnone s hs (List.isPrefixOf_iff_prefix.mpr hprefix)

/-- The text in front of the offset can be read, and the next lexeme has to begin there. -/
def ReadUpTo (cs : List Char) (i : Nat) : Prop :=
  (∃ ts, tokenizeWithComments (cs.take i) = .ok ts) ∧ (spanAt cs i).Ready (cs.drop i)

/-- What a lexical fault is about, and in which place: a character with which nothing begins, a
backslash in a string in front of a character that makes no escape, a number with more than one
point, or the opening quote of a string without a closing one. -/
inductive Offends (cs : List Char) : LexCause → Prop where
  | character {i : Nat} {c : Char} {rest : List Char} : ReadUpTo cs i → cs.drop i = c :: rest →
    Unreadable c rest →
    Offends cs (.unexpectedCharacter c (place cs i).line (place cs i).column)
  | escape {i : Nat} {body rest : List Char} {e : Char} : ReadUpTo cs i →
    cs.drop i = '"' :: (body ++ '\\' :: e :: rest) → Inside body → Text.escaped? e = none →
    Offends cs (.unknownEscape e (place cs (i + 1 + body.length)).line
      (place cs (i + 1 + body.length)).column)
  | number {i : Nat} {d : Char} {rest : List Char} : ReadUpTo cs i → cs.drop i = d :: rest →
    Numeral.isDigit d = true → 1 < (numberText (d :: rest)).count '.' →
    Offends cs (.malformedNumber (numberText (d :: rest)) (place cs i).line (place cs i).column)
  | string {i : Nat} {body tail : List Char} : ReadUpTo cs i →
    cs.drop i = '"' :: (body ++ tail) → Inside body → tail = [] ∨ tail = ['\\'] →
    Offends cs (.unterminatedString (place cs i).line)

/-- Inside a string, closed or not, line feeds alone break lines. -/
theorem Placed.place_inside (h : Placed cs i p ('"' :: (body ++ rest))) (hbody : Inside body) :
    Lexer.place cs (i + 1 + body.length) = (p.right 1).after body := by
  have hinside : ∀ k < ('"' :: body).length, Lexer.inLiteral ('"' :: body) k = true := by
    intro k hk
    rw [Lexer.inLiteral, Lexer.spanAt, Lexer.spanAt, List.take_succ_cons, Bool.or_eq_true]
    exact .inr (hbody.isQuoted k)
  have htext : '"' :: (body ++ rest) = ('"' :: body) ++ rest := rfl
  have hplace := h.place_after htext fun k hk => hinside k (List.getElem?_eq_some_iff.mp hk).1
  rwa [List.length_cons, Nat.add_comm body.length 1, ← Nat.add_assoc] at hplace

theorem offends_of_error {cause : LexCause}
    (h : tokenizeWithComments cs = .error (.lexical cause)) : Offends cs cause := by
  obtain ⟨q, c, rest, hleads, herror⟩ := leads_of_error (Nat.le_refl _) h
  obtain ⟨i, hp⟩ := hleads.placed (placed_start cs)
  have hread : ReadUpTo cs i := by
    obtain ⟨w, ts, hw, hcuts⟩ := hleads.cuts
    have htake : cs.take i = w := by
      have hboth := (List.take_append_drop i cs).trans hw
      rw [hp.drop] at hboth
      exact List.append_cancel_right hboth
    refine ⟨⟨ts, ?_⟩, hp.drop ▸ hp.span⟩
    rw [htake]
    exact (lexemes_eq_ok_iff (Nat.le_refl _)).mpr hcuts
  rcases lexeme_fault herror with ⟨rfl, hspoils⟩ | ⟨hdigit, hmany, rfl⟩ | ⟨hnone, rfl⟩
  · cases hspoils with
    | string hrest hbody htail =>
      rw [← hp.place]
      exact .string hread (hp.drop.trans (congrArg ('"' :: ·) hrest)) hbody htail
    | escape hrest hbody he =>
      subst hrest
      rw [← hp.place_inside hbody]
      exact .escape hread hp.drop hbody he
  · rw [← hp.place]
    exact .number hread hp.drop hdigit hmany
  · rw [← hp.place]
    exact .character hread hp.drop hnone

end Lexer

open Lexer (standing StandsAt inLiteral Offends)

/-- Tokens stand where their texts begin, the end token at the end, in the place that is told by
counting the line breaks of the text; what counts as inside of a string while line breaks are
looked for is what string tokens are read from. A lexical fault tells the place of what it is
about, also where a string is still open. Comments make no difference to the other tokens and
to faults. -/
theorem places_count_line_breaks (cs : List Char) :
    (∀ ts, tokenizeWithComments cs = .ok ts →
      (standing 0 cs ts).map Prod.snd = ts ∧
      (∀ s ∈ standing 0 cs ts, StandsAt cs s.1 s.2) ∧
      ∀ k < cs.length, inLiteral cs k = true ↔
        ∃ s ∈ standing 0 cs ts, s.2.kind = .string ∧ s.1 ≤ k ∧ k < s.1 + s.2.text.length) ∧
    (∀ cause, tokenizeWithComments cs = .error (.lexical cause) → Offends cs cause) ∧
    (∀ ts, tokenize cs = .ok ts ↔
      ∃ us, tokenizeWithComments cs = .ok us ∧ ts = us.filter (·.kind ≠ .comment)) ∧
    ∀ f, tokenize cs = .error f ↔ tokenizeWithComments cs = .error f := by
  refine ⟨fun ts h => ?_, fun cause => Lexer.offends_of_error, fun ts => ?_,
    fun f => Fault.map_eq_error_iff⟩
  · have hcuts : Lexer.Cuts .start cs ts := (Lexer.lexemes_eq_ok_iff (Nat.le_refl _)).mp h
    have hp := Lexer.placed_start cs
    exact ⟨Lexer.map_standing 0 cs ts, hcuts.standsAt hp,
      fun k hk => hcuts.inLiteral_iff hp (Nat.zero_le k) hk⟩
  · rw [tokenize, Fault.map_eq_ok_iff]
    exact exists_congr fun us => and_congr_right fun _ => eq_comm

/-- All three line ends, one of them behind a comment, and a string with a line feed and a
carriage return in it; and an unknown escape on the second line of a string. -/
theorem places_of_mixed_line_ends :
    (∃ ts, tokenizeWithComments "a # b\r\n\"x\ny\r\"\r c".toList = .ok ts ∧
      ts.map (fun t => (t.line, t.column)) = [(1, 1), (1, 3), (1, 6), (2, 1), (3, 4), (4, 2),
        (4, 3)] ∧
      ∀ s ∈ standing 0 "a # b\r\n\"x\ny\r\"\r c".toList ts,
        StandsAt "a # b\r\n\"x\ny\r\"\r c".toList s.1 s.2) ∧
    tokenizeWithComments "\r\"x\n\r\\q".toList = .error (.lexical (.unknownEscape 'q' 3 2)) ∧
      Offends "\r\"x\n\r\\q".toList (.unknownEscape 'q' 3 2) := by
  have hts : tokenizeWithComments "a # b\r\n\"x\ny\r\"\r c".toList = .ok [
      ⟨.name, .text "a", 1, 1, ['a']⟩, ⟨.comment, .text "# b", 1, 3, "# b".toList⟩,
      ⟨.newline, .text "\n", 1, 6, ['\r', '\n']⟩,
      ⟨.string, .text "x\ny\r", 2, 1, "\"x\ny\r\"".toList⟩,
      ⟨.newline, .text "\n", 3, 4, ['\r']⟩, ⟨.name, .text "c", 4, 2, ['c']⟩,
      ⟨.endOfInput, .absent, 4, 3, []⟩] :=
    Fault.eq_ok_of_toOption (by decide +kernel)
  have hfault : tokenizeWithComments "\r\"x\n\r\\q".toList =
      .error (.lexical (.unknownEscape 'q' 3 2)) := rfl
  obtain ⟨hread, -, -, -⟩ := places_count_line_breaks "a # b\r\n\"x\ny\r\"\r c".toList
  obtain ⟨-, hoffends, -, -⟩ := places_count_line_breaks "\r\"x\n\r\\q".toList
  exact ⟨⟨_, hts, rfl, (hread _ hts).2.1⟩, hfault, hoffends _ hfault⟩

end ScopeScript
