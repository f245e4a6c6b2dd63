import ScopeScript.Prompt
import ScopeScript.Proofs.Lexer.LineBreaks

/-!
# Counting brackets along a text

The prompt counts the brackets among the tokens. In a text that can be read the
same number comes out when its characters are gone through one after another and
the brackets outside of strings and comments are counted, so the count can be
told without tokens. What cannot be seen in such a text stands in strings and
comments, unless it is a carriage return.
-/

namespace ScopeScript

namespace Prompt

/-- Bracket depth after tokens in front of which `n` brackets are open. -/
def depthFrom (n : Nat) (ts : List Token) : Nat :=
  ts.foldl (fun n t => if t.kind.opens then n + 1 else if t.kind.closes then n - 1 else n) n

theorem depthFrom_append (n : Nat) (ts us : List Token) :
    depthFrom n (ts ++ us) = depthFrom (depthFrom n ts) us := List.foldl_append

theorem depthFrom_of_kind {t : Token} (hopens : t.kind.opens = false)
    (hcloses : t.kind.closes = false) (n : Nat) : depthFrom n [t] = n := by
  simp [depthFrom, hopens, hcloses]

/-- Comments are no brackets. -/
theorem depthFrom_visible (n : Nat) (ts : List Token) :
    depthFrom n (Lexer.visible ts) = depthFrom n ts := by
  induction ts generalizing n with
  | nil => rfl
  | cons t ts ih =>
    by_cases ht : t.kind = .comment
    · have hnone : depthFrom n [t] = n := depthFrom_of_kind (ht ▸ rfl) (ht ▸ rfl) n
      rw [Lexer.visible, List.filter_cons_of_neg (by simpa using ht), ← List.singleton_append,
        depthFrom_append, hnone]
      exact ih n
    · rw [Lexer.visible, List.filter_cons_of_pos (by simpa using ht)]
      exact ih _

end Prompt

open Prompt (depthFrom depthFrom_of_kind)

namespace Lexer

open Session (isInvisible)

variable {cs rest text body : List Char} {p : Position} {c d : Char} {l : Lexeme} {t : Token}
  {ts : List Token} {s : Span} {n : Nat}

/-! ## The count -/

/-- The number of open brackets behind a character of the code. -/
def bracketed (n : Nat) (c : Char) : Nat :=
  if c ∈ ['(', '[', '{'] then n + 1 else if c ∈ [')', ']', '}'] then n - 1 else n

/-- What the characters so far leave open: a span and a number of brackets. -/
structure Tally where
  span : Span
  depth : Nat
  deriving DecidableEq

namespace Tally

def next (x : Tally) (c : Char) : Tally :=
  ⟨x.span.next c, if x.span = .code then bracketed x.depth c else x.depth⟩

/-- The tally behind a text in front of which `x` is open. -/
def after (x : Tally) (cs : List Char) : Tally := cs.foldl next x

variable {x : Tally}

theorem after_cons (x : Tally) (c : Char) (cs : List Char) :
    x.after (c :: cs) = (x.next c).after cs := rfl

theorem after_append (x : Tally) (cs ds : List Char) :
    x.after (cs ++ ds) = (x.after cs).after ds := List.foldl_append

theorem span_after (x : Tally) (cs : List Char) :
    (x.after cs).span = cs.foldl Span.next x.span := by
  induction cs generalizing x with
  | nil => rfl
  | cons c cs ih => exact ih (x.next c)

/-- Brackets in strings and comments are not counted. -/
theorem after_of_ne_code
    (h : ∀ k < text.length, (text.take k).foldl Span.next x.span ≠ .code) :
    x.after text = ⟨text.foldl Span.next x.span, x.depth⟩ := by
  induction text generalizing x with
  | nil => rfl
  | cons c text ih =>
    have hfirst : x.span ≠ .code := h 0 (Nat.succ_pos _)
    have hnext : x.next c = ⟨x.span.next c, x.depth⟩ := by rw [next, if_neg hfirst]
    rw [after_cons, hnext]
    exact ih fun k hk => h (k + 1) (Nat.succ_lt_succ hk)

theorem after_plain (h : ∀ c ∈ text, c ≠ '"' ∧ c ≠ '#') :
    Tally.after ⟨.code, n⟩ text = ⟨.code, text.foldl bracketed n⟩ := by
  induction text generalizing n with
  | nil => rfl
  | cons c text ih =>
    obtain ⟨⟨hquote, hsign⟩, htext⟩ := List.forall_mem_cons.mp h
    have hnext : Tally.next ⟨.code, n⟩ c = ⟨.code, bracketed n c⟩ := by
      simp only [Tally.next, Span.next, if_neg hquote, if_neg hsign, if_pos]
    rw [after_cons, hnext]
    exact ih htext

end Tally

/-- The number of brackets that are open behind the characters of a text. -/
def openBrackets (cs : List Char) : Nat := (Tally.after ⟨.code, 0⟩ cs).depth

/-- A bracket in a string, one in a comment, and three in the code. -/
example : openBrackets "([ \"(\" # [\n\x7b".toList = 3 := by decide

/-! ## The characters of a lexeme -/

/-- What the characters of a lexeme are: code that can all be seen and changes the count as the
token does, a line end, a comment, or a string. -/
inductive Consists (cs : List Char) (l : Lexeme) : Prop where
  | code (text : List Char) : cs = text ++ l.rest →
    (∀ d ∈ text, isInvisible d = false ∧ d ≠ '"' ∧ d ≠ '#') →
    (∀ n, text.foldl bracketed n = depthFrom n l.token?.toList) → Consists cs l
  | lineEnd (t : Token) : l.token? = some t → t.kind = .newline → IsLineEnd t.text l.rest →
    cs = t.text ++ l.rest → Consists cs l
  | comment (t : Token) (body : List Char) : l.token? = some t → t.kind = .comment →
    cs = '#' :: body ++ l.rest → (∀ d ∈ body, endsComment d = false) →
    Follows endsComment l.rest → Consists cs l
  | literal (t : Token) (body : List Char) : l.token? = some t → t.kind = .string →
    cs = '"' :: (body ++ ['"']) ++ l.rest → Inside body → Consists cs l

theorem foldl_bracketed (h : ∀ d ∈ text, d ∉ ['(', '[', '{'] ∧ d ∉ [')', ']', '}']) (n : Nat) :
    text.foldl bracketed n = n := by
  induction text with
  | nil => rfl
  | cons d text ih =>
    obtain ⟨⟨hopens, hcloses⟩, htext⟩ := List.forall_mem_cons.mp h
    rw [List.foldl_cons, bracketed, if_neg hopens, if_neg hcloses]
    exact ih htext

/-- Characters that pass a test which no bracket, no quote, no sign of a comment and nothing
invisible passes. -/
theorem code_of_test {f : Char → Bool} (h : ∀ d ∈ text, f d = true)
    (hf : ['(', '[', '{', ')', ']', '}', '"', '#', '\u200b', '\u200c', '\u200d', '\ufeff',
      '\u00a0', '\r'].all (!f ·) = true) :
    (∀ d ∈ text, isInvisible d = false ∧ d ≠ '"' ∧ d ≠ '#') ∧
      ∀ n, text.foldl bracketed n = n := by
  have hne (d : Char) (hd : d ∈ text) (e : Char) (he : e ∈ ['(', '[', '{', ')', ']', '}', '"',
      '#', '\u200b', '\u200c', '\u200d', '\ufeff', '\u00a0', '\r']) : d ≠ e :=
    ne_of_test (h d hd) ((Bool.not_eq_true' _).mp (List.all_eq_true.mp hf e he))
  constructor
  · intro d hd
    have hd := hne d hd
    simp [isInvisible, hd]
  · refine foldl_bracketed fun d hd => ?_
    have hd := hne d hd
    simp [hd]

/-- All of a symbol can be seen, and one that is no bracket has none in it. -/
theorem symbols_consist : ∀ s ∈ symbols,
    s.1.all (fun d => !isInvisible d && d ≠ '"' && d ≠ '#') = true ∧
    ((s.2.opens = true ∧ s.1 ∈ [['('], ['['], ['{']]) ∨
      (s.2.opens = false ∧ s.2.closes = true ∧ s.1 ∈ [[')'], [']'], ['}']]) ∨
      (s.2.opens = false ∧ s.2.closes = false ∧
        s.1.all (fun d => d ∉ ['(', '[', '{'] && d ∉ [')', ']', '}']) = true)) := by
  decide

theorem foldl_symbol {kind : Kind} (h : (text, kind) ∈ symbols) (n : Nat) :
    text.foldl bracketed n = if kind.opens then n + 1 else if kind.closes then n - 1 else n := by
  rcases (symbols_consist _ h).2 with ⟨hopens, htext⟩ | ⟨hopens, hcloses, htext⟩ |
    ⟨hopens, hcloses, hplain⟩
  · dsimp only at hopens htext
    rw [if_pos hopens]
    simp only [List.mem_cons, List.not_mem_nil, or_false] at htext
    rcases htext with rfl | rfl | rfl <;> rfl
  · dsimp only at hopens hcloses htext
    rw [if_neg (Bool.eq_false_iff.mp hopens), if_pos hcloses]
    simp only [List.mem_cons, List.not_mem_nil, or_false] at htext
    rcases htext with rfl | rfl | rfl <;> rfl
  · dsimp only at hopens hcloses hplain
    rw [if_neg (Bool.eq_false_iff.mp hopens), if_neg (Bool.eq_false_iff.mp hcloses),
      foldl_bracketed (by simpa using hplain)]

theorem depthFrom_word {w : String} (ht : t.kind = .ofWord w) (n : Nat) : depthFrom n [t] = n := by
  have hplain : (Kind.ofWord w).opens = false ∧ (Kind.ofWord w).closes = false := by
    have hreserved : ∀ s ∈ Kind.reserved, s.2.opens = false ∧ s.2.closes = false := by decide
    rcases ofWord_eq w with hname | hmem
    · rw [hname]
      exact ⟨rfl, rfl⟩
    · exact hreserved _ hmem
  exact depthFrom_of_kind (ht ▸ hplain.1) (ht ▸ hplain.2) n

theorem lexeme_consists (h : lexeme p c cs = .ok l) : Consists (c :: cs) l := by
  have htext {t : Token} (ht : l.token? = some t) : c :: cs = t.text ++ l.rest := by
    cases lexeme_takes h with
    | gap _ hnone _ _ _ => cases hnone.symm.trans ht
    | token u hu _ _ htext =>
      cases hu.symm.trans ht
      exact htext
  suffices hsame : ∃ l', lexeme p c cs = .ok l' ∧ (l' = l → Consists (c :: cs) l) by
    obtain ⟨l', hl', hconsists⟩ := hsame
    cases h.symm.trans hl'
    exact hconsists rfl
  refine lexeme_along h (fun _ hl => ?_) (fun hc _ hl => ?_) (fun _ _ hl => ?_)
    (fun _ hl => ⟨l, hl, fun _ => ?_⟩) (fun hl => ⟨l, hl, fun _ => ?_⟩)
    (fun hl => ⟨l, hl, fun _ => ?_⟩) (fun _ hl => ?_) (fun hl => ⟨l, hl, fun _ => ?_⟩)
  · subst hl
    obtain ⟨hcode, hcount⟩ :=
      code_of_test (f := isSpace) (fun d hd => List.mem_takeWhile_imp hd) (by decide)
    exact .code _ List.takeWhile_append_dropWhile.symm hcode hcount
  · subst hl hc
    cases lexeme_marks h rfl nofun with
    | plain _ hplain => exact absurd rfl (hplain '#' List.mem_cons_self).2.1
    | comment body hkind hbody hends hrest =>
      exact .comment _ body rfl rfl (hbody ▸ htext rfl) hends hrest
    | literal _ hkind _ _ => cases hkind
  · subst hl
    exact .lineEnd _ rfl rfl (.inl rfl) (htext rfl)
  · rw [lexeme_return] at hl
    split at hl
    next =>
      cases hl
      exact .lineEnd _ rfl rfl (.inr (.inl rfl)) (htext rfl)
    next halone =>
      cases hl
      exact .lineEnd _ rfl rfl (.inr (.inr ⟨rfl, halone⟩)) (htext rfl)
  · obtain ⟨b, hb, rfl⟩ := Fault.map_eq_ok_iff.mp hl
    obtain ⟨body, hbody, hinside⟩ := inside_of_stringBody hb
    exact .literal _ body rfl rfl (hbody ▸ htext rfl) hinside
  · obtain ⟨datum, -, rfl⟩ := Fault.map_eq_ok_iff.mp hl
    have hnumber : ∀ d ∈ numberText (c :: cs), (Numeral.isDigit d || d = '.') = true := by
      intro d hd
      simpa only [Bool.or_eq_true, decide_eq_true_eq] using mem_numberText hd
    obtain ⟨hcode, hcount⟩ := code_of_test hnumber (by decide)
    exact .code _ (htext rfl) hcode hcount
  · subst hl
    have hword : ∀ d ∈ (c :: cs).takeWhile isNamePart, isNamePart d = true :=
      fun d hd => List.mem_takeWhile_imp hd
    obtain ⟨hcode, hcount⟩ := code_of_test hword (by decide)
    exact .code _ (htext rfl) hcode fun n => (hcount n).trans (depthFrom_word rfl n).symm
  · unfold symbolLexeme at hl
    split at hl
    next text kind hfind =>
      cases hl
      have hmem : (text, kind) ∈ symbols := List.mem_of_find?_eq_some hfind
      have hcode := (symbols_consist _ hmem).1
      simp only [List.all_eq_true, Bool.and_eq_true, Bool.not_eq_true', decide_eq_true_eq] at hcode
      exact .code text (htext rfl) (fun d hd => and_assoc.mp (hcode d hd)) (foldl_symbol hmem)
    next => cases hl

/-! ## What cannot be seen -/

/-- What cannot be seen stands in a string and not behind a backslash, or in a comment, or is a
carriage return. -/
def Sheltered : Span → List Char → Prop
  | _, [] => True
  | s, c :: cs => (isInvisible c = true → s ≠ .escape ∧ (s = .code → c = '\r')) ∧
    Sheltered (s.next c) cs

theorem sheltered_append : Sheltered s (text ++ rest) ↔
    Sheltered s text ∧ Sheltered (text.foldl Span.next s) rest := by
  induction text generalizing s with
  | nil => exact (true_and _).to_iff.symm
  | cons c text ih =>
    rw [List.cons_append, Sheltered, Sheltered, ih, and_assoc]
    rfl

theorem sheltered_of_visible (h : ∀ d ∈ text, isInvisible d = false) : Sheltered s text := by
  induction text generalizing s with
  | nil => trivial
  | cons c text ih =>
    obtain ⟨hc, htext⟩ := List.forall_mem_cons.mp h
    exact ⟨fun hinvisible => (Bool.eq_false_iff.mp hc hinvisible).elim, ih htext⟩

theorem sheltered_lineEnd (h : IsLineEnd text rest) : Sheltered .code text := by
  rcases h with rfl | rfl | ⟨rfl, -⟩
  · exact sheltered_of_visible (List.forall_mem_singleton.mpr rfl)
  · exact ⟨fun _ => ⟨nofun, fun _ => rfl⟩, sheltered_of_visible (List.forall_mem_singleton.mpr rfl)⟩
  · exact ⟨fun _ => ⟨nofun, fun _ => rfl⟩, trivial⟩

theorem sheltered_comment (h : ∀ d ∈ body, endsComment d = false) : Sheltered .comment body := by
  induction body with
  | nil => trivial
  | cons d body ih =>
    obtain ⟨hd, hbody⟩ := List.forall_mem_cons.mp h
    refine ⟨fun _ => ⟨nofun, nofun⟩, ?_⟩
    rw [Span.next, hd]
    exact ih hbody

/-- No escape is written with a character that cannot be seen. -/
theorem visible_of_escaped {e v : Char} (h : Text.escaped? e = some v) :
    isInvisible e = false := by
  unfold Text.escaped? at h
  split at h
  case h_7 => cases h
  all_goals decide

theorem Inside.sheltered (h : Inside body) : Sheltered .quoted body := by
  induction h with
  | nil => trivial
  | char hquote hbackslash _ ih =>
    refine ⟨fun _ => ⟨nofun, nofun⟩, ?_⟩
    rw [Span.next, if_neg hquote, if_neg hbackslash]
    exact ih
  | @escape e v body he _ ih =>
    refine ⟨fun _ => ⟨nofun, nofun⟩, fun hinvisible => ?_, ih⟩
    exact (Bool.eq_false_iff.mp (visible_of_escaped he) hinvisible).elim

/-! ## Texts that can be read -/

theorem Span.Ready.next {s : Span} (h : s.Ready (c :: rest)) : s.next c = Span.code.next c :=
  h.foldl_cons []

/-- A character that ends a comment counts in the code for nothing. -/
theorem Span.Ready.after (h : s.Ready (c :: rest)) (n : Nat) (cs : List Char) :
    Tally.after ⟨s, n⟩ (c :: cs) = Tally.after ⟨.code, n⟩ (c :: cs) := by
  have hdepth : (if s = .code then bracketed n c else n) = bracketed n c := by
    rcases h with rfl | ⟨rfl, hc : endsComment c = true⟩
    · rfl
    · simp only [endsComment, Bool.or_eq_true, decide_eq_true_eq] at hc
      rcases hc with (rfl | rfl) | rfl <;> rfl
  rw [Tally.after_cons, Tally.after_cons, Tally.next, Tally.next, h.next, if_pos rfl, hdepth]

theorem Span.Ready.sheltered (h : s.Ready (c :: rest)) (hcs : Sheltered .code (c :: cs)) :
    Sheltered s (c :: cs) := by
  obtain ⟨hc, hcs⟩ := hcs
  refine ⟨fun hinvisible => ⟨?_, fun _ => (hc hinvisible).2 rfl⟩, ?_⟩
  · rintro rfl
    exact Bool.noConfusion h.isQuoted
  · rwa [h.next]

/-- What is open behind the characters of a lexeme, and what the token makes of the count. -/
structure Scans (s s' : Span) (text : List Char) (ts : List Token) : Prop where
  sheltered : Sheltered s text
  after (n : Nat) : Tally.after ⟨s, n⟩ text = ⟨s', depthFrom n ts⟩

theorem Scans.span {s' : Span} (h : Scans s s' text ts) : text.foldl Span.next s = s' := by
  rw [← Tally.span_after ⟨s, 0⟩, h.after]

theorem Consists.scans (h : Consists cs l) : ∃ text s', cs = text ++ l.rest ∧
    Scans .code s' text l.token?.toList ∧ s'.Ready l.rest := by
  cases h with
  | code text htext hcode hcount =>
    refine ⟨text, .code, htext, ⟨sheltered_of_visible fun d hd => (hcode d hd).1, fun n => ?_⟩,
      .inl rfl⟩
    rw [Tally.after_plain fun d hd => (hcode d hd).2, hcount]
  | lineEnd t ht hkind hend htext =>
    have hplain : ∀ d ∈ t.text, (d ≠ '"' ∧ d ≠ '#') ∧
        d ∉ ['(', '[', '{'] ∧ d ∉ [')', ']', '}'] := by
      rcases hend with heq | heq | ⟨heq, -⟩ <;> simp [heq]
    refine ⟨t.text, .code, htext, ⟨sheltered_lineEnd hend, fun n => ?_⟩, .inl rfl⟩
    rw [Tally.after_plain fun d hd => (hplain d hd).1, foldl_bracketed fun d hd => (hplain d hd).2,
      ht]
    exact congrArg _ (depthFrom_of_kind (hkind ▸ rfl) (hkind ▸ rfl) n).symm
  | comment t body ht hkind htext hbody hrest =>
    refine ⟨'#' :: body, .comment, htext, ⟨⟨nofun, sheltered_comment hbody⟩, fun n => ?_⟩,
      .inr ⟨rfl, hrest⟩⟩
    have hfirst : Tally.next ⟨.code, n⟩ '#' = ⟨.comment, n⟩ := rfl
    have hspan (k : Nat) : (body.take k).foldl Span.next .comment = .comment :=
      foldl_comment fun d hd => hbody d (List.mem_of_mem_take hd)
    rw [Tally.after_cons, hfirst, Tally.after_of_ne_code fun k _ => by rw [hspan]; nofun,
      foldl_comment hbody, ht]
    exact congrArg _ (depthFrom_of_kind (hkind ▸ rfl) (hkind ▸ rfl) n).symm
  | literal t body ht hkind htext hbody =>
    have hsheltered : Sheltered .quoted (body ++ ['"']) :=
      sheltered_append.mpr
        ⟨hbody.sheltered, sheltered_of_visible (List.forall_mem_singleton.mpr rfl)⟩
    refine ⟨'"' :: (body ++ ['"']), .code, htext, ⟨⟨nofun, hsheltered⟩, fun n => ?_⟩, .inl rfl⟩
    have hfirst : Tally.next ⟨.code, n⟩ '"' = ⟨.quoted, n⟩ := rfl
    have hquoted (k : Nat) (hk : k < (body ++ ['"']).length) :
        ((body ++ ['"']).take k).foldl Span.next .quoted ≠ .code := by
      rw [List.length_append, List.length_singleton] at hk
      rw [List.take_append_of_le_length (Nat.le_of_lt_succ hk)]
      intro hcode
      have hinside := hbody.isQuoted k
      rw [hcode] at hinside
      cases hinside
    rw [Tally.after_cons, hfirst, Tally.after_of_ne_code hquoted, List.foldl_append, hbody.foldl,
      ht]
    exact congrArg _ (depthFrom_of_kind (hkind ▸ rfl) (hkind ▸ rfl) n).symm

/-- A lexeme takes the character that it begins with. -/
theorem lexeme_cons (h : lexeme p c cs = .ok l) (htext : c :: cs = text ++ l.rest) :
    ∃ w, text = c :: w ∧ cs = w ++ l.rest := by
  cases text with
  | nil =>
    have hshorter := length_rest_lexeme h
    rw [List.nil_append] at htext
    rw [← htext, List.length_cons] at hshorter
    omega
  | cons d w =>
    obtain ⟨rfl, hcs⟩ := List.cons.inj htext
    exact ⟨w, rfl, hcs⟩

theorem lexeme_scans (h : lexeme p c cs = .ok l) (hs : s.Ready (c :: cs)) :
    ∃ text s', c :: cs = text ++ l.rest ∧ Scans s s' text l.token?.toList ∧ s'.Ready l.rest := by
  obtain ⟨text, s', htext, hscans, hready⟩ := (lexeme_consists h).scans
  obtain ⟨w, rfl, -⟩ := lexeme_cons h htext
  refine ⟨_, s', htext, ⟨hs.sheltered hscans.sheltered, fun n => ?_⟩, hready⟩
  rw [hs.after, hscans.after]

/-- In a text that can be read nothing invisible is in the way, its tally is the count of its
tokens, and no string is open behind it. -/
theorem Cuts.scans (h : Cuts p cs ts) (hs : s.Ready cs) :
    ∃ s', Scans s s' cs ts ∧ s'.isQuoted = false := by
  induction h generalizing s with
  | done => exact ⟨s, ⟨trivial, fun n => rfl⟩, hs.isQuoted⟩
  | @next p c cs l ts hl _ ih =>
    obtain ⟨text, s', htext, hscans, hready⟩ := lexeme_scans hl hs
    obtain ⟨s₂, hrest, hquoted⟩ := ih hready
    refine ⟨s₂, ⟨?_, fun n => ?_⟩, hquoted⟩
    · rw [htext, sheltered_append, hscans.span]
      exact ⟨hscans.sheltered, hrest.sheltered⟩
    · rw [htext, Tally.after_append, hscans.after, hrest.after, Prompt.depthFrom_append]

end Lexer

/-- The prompt counts the brackets of a text that can be read outside of strings and comments. -/
theorem Prompt.openDepth_eq_openBrackets {cs : List Char} {ts : List Token}
    (h : tokenize cs = .ok ts) : openDepth cs = .ok (Lexer.openBrackets cs) := by
  obtain ⟨us, hcuts, rfl⟩ := Lexer.tokenize_eq_ok_iff.mp h
  obtain ⟨s, hscans, -⟩ := hcuts.scans (.inl rfl)
  rw [openDepth, h, Lexer.openBrackets, hscans.after]
  exact congrArg Except.ok (depthFrom_visible 0 us)

end ScopeScript
