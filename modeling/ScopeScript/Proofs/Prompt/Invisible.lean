import ScopeScript.Proofs.Prompt.Tally
import ScopeScript.Proofs.Prompt.Typed

/-!
# Invisible characters at the prompt

A submitted text loses its invisible characters before it is read, while enter
goes by the buffer that still has them. If the buffer can be read they stand in
strings and comments or are carriage returns, and as long as these end their
lines, enter decides as it would without them. A buffer that cannot be read is
submitted, also where an invisible character is all that is wrong with it.
-/

namespace ScopeScript

namespace Session

variable {cs : List Char} {c : Char}

theorem normalize_append (cs ds : List Char) :
    normalize (cs ++ ds) = normalize cs ++ normalize ds := List.filter_append ..

theorem normalize_cons_of_visible (h : isInvisible c = false) (cs : List Char) :
    normalize (c :: cs) = c :: normalize cs :=
  List.filter_cons_of_pos (by rw [h]; rfl)

theorem normalize_cons_of_invisible (h : isInvisible c = true) (cs : List Char) :
    normalize (c :: cs) = normalize cs :=
  List.filter_cons_of_neg (by rw [h]; decide)

theorem normalize_of_visible (h : ∀ c ∈ cs, isInvisible c = false) : normalize cs = cs :=
  List.filter_eq_self.mpr fun c hc => by rw [h c hc]; rfl

theorem mem_normalize : c ∈ normalize cs ↔ c ∈ cs ∧ isInvisible c = false := by
  rw [normalize, List.mem_filter, Bool.not_eq_true']

theorem normalize_normalize (cs : List Char) : normalize (normalize cs) = normalize cs :=
  normalize_of_visible fun _ hc => (mem_normalize.mp hc).2

theorem lines_normalize (cs : List Char) :
    Text.lines (normalize cs) = (Text.lines cs).map normalize := by
  induction cs with
  | nil => rfl
  | cons c cs ih =>
    by_cases hfeed : c = '\n'
    · subst hfeed
      rw [normalize_cons_of_visible (by decide), Text.lines, Text.lines, if_pos rfl, if_pos rfl, ih]
      rfl
    · obtain ⟨l, ls, hlines⟩ := List.exists_cons_of_ne_nil (Text.lines_ne_nil cs)
      rw [hlines] at ih
      cases hc : isInvisible c with
      | true =>
        rw [normalize_cons_of_invisible hc, ih, Text.lines, if_neg hfeed, hlines]
        rw [List.map_cons, List.map_cons, normalize_cons_of_invisible hc]
      | false =>
        rw [normalize_cons_of_visible hc, Text.lines, Text.lines, if_neg hfeed, if_neg hfeed, ih,
          hlines]
        rw [List.map_cons, List.map_cons, normalize_cons_of_visible hc]

end Session

open Session (isInvisible normalize normalize_cons_of_visible normalize_cons_of_invisible)

namespace Lexer

variable {cs rest text body : List Char} {p q : Position} {c d : Char} {l : Lexeme}
  {ts us : List Token} {s : Span} {n : Nat}

/-! ## The count -/

/-- Behind every carriage return that stands in such a span, nothing can be seen in its line. -/
def returnsEnd (f : Span → Bool) : Span → List Char → Bool
  | _, [] => true
  | s, c :: cs => (c ≠ '\r' || !f s || (normalize cs).head?.all (· = '\n')) &&
    returnsEnd f (s.next c) cs

theorem returnsEnd_cons {f : Span → Bool} (h : returnsEnd f s (c :: cs) = true) :
    (c = '\r' → f s = true → ∀ d, (normalize cs).head? = some d → d = '\n') ∧
      returnsEnd f (s.next c) cs = true := by
  obtain ⟨hc, hcs⟩ := Bool.and_eq_true_iff.mp h
  refine ⟨fun hreturn hf d hd => ?_, hcs⟩
  rw [hf, hd] at hc
  simpa [hreturn] using hc

theorem returnsEnd_append {f : Span → Bool} (h : returnsEnd f s (text ++ rest) = true) :
    returnsEnd f (text.foldl Span.next s) rest = true := by
  induction text generalizing s with
  | nil => exact h
  | cons c text ih => exact ih (returnsEnd_cons h).2

theorem returnsEnd_mono {f g : Span → Bool} (hfg : ∀ s, g s = true → f s = true)
    (h : returnsEnd f s cs = true) : returnsEnd g s cs = true := by
  induction cs generalizing s with
  | nil => rfl
  | cons c cs ih =>
    obtain ⟨hc, hcs⟩ := Bool.and_eq_true_iff.mp h
    refine Bool.and_eq_true_iff.mpr ⟨?_, ih hcs⟩
    cases hg : g s with
    | false => simp
    | true => rwa [hfg s hg] at hc

theorem bracketed_of_invisible (h : isInvisible c = true) (n : Nat) : bracketed n c = n := by
  have hnone {ds : List Char} (hds : ds.any isInvisible = false) : c ∉ ds :=
    fun hmem => List.any_eq_false.mp hds c hmem h
  rw [bracketed, if_neg (hnone rfl), if_neg (hnone rfl)]

theorem Span.next_of_invisible (h : isInvisible c = true) (hescape : s ≠ .escape)
    (hcomment : s = .comment → c ≠ '\r') : s.next c = s := by
  have hne (d : Char) (hd : isInvisible d = false) : c ≠ d := ne_of_test h hd
  cases s with
  | code => rw [Span.next, if_neg (hne '"' rfl), if_neg (hne '#' rfl)]
  | comment =>
    have hgoes : endsComment c = false := by
      simp [endsComment, hne '\n' rfl, hcomment rfl, hne '\x00' rfl]
    rw [Span.next, hgoes]
    rfl
  | quoted => rw [Span.next, if_neg (hne '"' rfl), if_neg (hne '\\' rfl)]
  | escape => exact absurd rfl hescape

/-- Without its invisible characters a text has the same brackets open. -/
theorem tally_normalize (hs : Sheltered s cs)
    (hr : returnsEnd (· = .comment) s cs = true) (n : Nat) :
    (Tally.after ⟨s, n⟩ (normalize cs)).depth = (Tally.after ⟨s, n⟩ cs).depth := by
  induction cs generalizing s n with
  | nil => rfl
  | cons c cs ih =>
    obtain ⟨hc, hcs⟩ := hs
    obtain ⟨hreturn, hr⟩ := returnsEnd_cons hr
    rw [Tally.after_cons]
    cases hinvisible : isInvisible c with
    | false =>
      rw [normalize_cons_of_visible hinvisible, Tally.after_cons]
      exact ih hcs hr _
    | true =>
      have hnext : Tally.next ⟨s, n⟩ c = ⟨s.next c, n⟩ := by
        rw [Tally.next, bracketed_of_invisible hinvisible, ite_self]
      rw [normalize_cons_of_invisible hinvisible, hnext, ← ih hcs hr]
      by_cases hends : s = .comment ∧ c = '\r'
      · -- The comment ends here or, without the return, at the line feed that comes next.
        obtain ⟨rfl, rfl⟩ := hends
        have hhead := hreturn rfl rfl
        cases hmore : normalize cs with
        | nil => rfl
        | cons d more =>
          rw [hmore] at hhead
          obtain rfl := hhead d rfl
          rfl
      · rw [Span.next_of_invisible hinvisible (hc hinvisible).1 fun hs hc => hends ⟨hs, hc⟩]

/-! ## Texts that can be read without their invisible characters -/

/-- Where a lexeme may begin, a text without its invisible characters goes on with the same
character, or with a line feed. -/
theorem head_normalize (hready : s.Ready cs) (hs : Sheltered s cs)
    (hr : returnsEnd (!·.isQuoted) s cs = true) (hd : (normalize cs).head? = some d) :
    cs.head? = some d ∨ d = '\n' := by
  cases cs with
  | nil => cases hd
  | cons c cs =>
    cases hinvisible : isInvisible c with
    | false =>
      rw [normalize_cons_of_visible hinvisible] at hd
      exact .inl hd
    | true =>
      have hreturn : c = '\r' := by
        rcases hready with rfl | ⟨rfl, hends : endsComment c = true⟩
        · exact (hs.1 hinvisible).2 rfl
        · simp only [endsComment, Bool.or_eq_true, decide_eq_true_eq] at hends
          rcases hends with (rfl | rfl) | rfl
          · cases hinvisible
          · rfl
          · cases hinvisible
      rw [normalize_cons_of_invisible hinvisible] at hd
      refine .inr ((returnsEnd_cons hr).1 hreturn ?_ d hd)
      rw [hready.isQuoted]
      rfl

/-- What is left without invisible characters goes on with no lexeme that ended before. -/
theorem behind_normalize (hc : c ≠ '\r') (hready : s.Ready cs) (hs : Sheltered s cs)
    (hr : returnsEnd (!·.isQuoted) s cs = true) : Behind c cs (normalize cs) := by
  have hparts : Parts c '\n' :=
    ⟨fun _ => rfl, fun _ => rfl, fun h => absurd h hc, rfl, by decide⟩
  constructor
  · intro d hd
    rcases head_normalize hready hs hr hd with hsame | rfl
    · exact .inl hsame
    · exact .inr hparts
  · intro hnumber
    cases hnormal : normalize cs with
    | nil => rfl
    | cons d ds =>
      have hd : isInvisible d = false :=
        (Session.mem_normalize.mp (hnormal ▸ List.mem_cons_self)).2
      rcases head_normalize hready hs hr (congrArg List.head? hnormal) with hsame | rfl
      · obtain ⟨more, rfl⟩ := List.head?_eq_some_iff.mp hsame
        rw [normalize_cons_of_visible hd] at hnormal
        obtain rfl := (List.cons.inj hnormal).2
        rw [numberText_cons] at hnumber ⊢
        split at hnumber
        next => cases hnumber
        next hgoes =>
          refine if_neg fun hgoes' => hgoes ?_
          rcases Bool.or_eq_true_iff.mp hgoes' with hdigit | hpoint
          · rw [hdigit, Bool.true_or]
          · -- Behind a point, another digit would have to come up.
            obtain ⟨hpoint, hdigit⟩ := Bool.and_eq_true_iff.mp hpoint
            obtain rfl : d = '.' := of_decide_eq_true hpoint
            obtain ⟨e, he, hdigit⟩ := (Option.any_eq_true ..).mp hdigit
            have hcode : s.next '.' = .code := hready.next
            rcases head_normalize (.inl hcode) hs.2 (returnsEnd_cons hr).2 he with hsame | rfl
            · simp [hsame, hdigit]
            · cases hdigit
      · rw [numberText_cons]
        rfl

theorem Inside.normalize (h : Inside body) : Inside (normalize body) := by
  induction h with
  | nil => exact .nil
  | @char c body hquote hbackslash _ ih =>
    cases hinvisible : isInvisible c with
    | false =>
      rw [normalize_cons_of_visible hinvisible]
      exact .char hquote hbackslash ih
    | true =>
      rw [normalize_cons_of_invisible hinvisible]
      exact ih
  | escape he _ ih =>
    rw [normalize_cons_of_visible rfl, normalize_cons_of_visible (visible_of_escaped he)]
    exact .escape he ih

/-- The inside of a string is read up to the quote behind it. -/
theorem Inside.stringBody (h : Inside body) (opened : Nat) (p : Position) (rest : List Char) :
    ∃ b, stringBody opened p (body ++ '"' :: rest) = .ok b ∧ b.rest = rest := by
  induction h generalizing p with
  | nil => exact ⟨_, rfl, rfl⟩
  | @char c body hquote hbackslash _ ih =>
    obtain ⟨b, hb, hrest⟩ := ih (if c = '\n' then p.nextLine else p.right 1)
    refine ⟨b.push [c] [c], ?_, hrest⟩
    rw [List.cons_append, Lexer.stringBody]
    · exact Fault.map_eq_ok_iff.mpr ⟨b, hb, rfl⟩
    · exact hquote
    · exact fun hc _ => hbackslash hc
    · exact fun _ _ hc _ => hbackslash hc
  | @escape e v body he _ ih =>
    obtain ⟨b, hb, hrest⟩ := ih (p.right 2)
    refine ⟨b.push [v] ['\\', e], ?_, hrest⟩
    rw [List.cons_append, List.cons_append, Lexer.stringBody, he]
    exact Fault.map_eq_ok_iff.mpr ⟨b, hb, rfl⟩

theorem lexeme_literal (h : Inside body) (p : Position) (rest : List Char) :
    ∃ l, lexeme p '"' (body ++ '"' :: rest) = .ok l ∧ l.rest = rest := by
  obtain ⟨b, hb, hrest⟩ := h.stringBody p.line (p.right 1) rest
  exact ⟨_, Fault.map_eq_ok_iff.mpr ⟨b, hb, rfl⟩, hrest⟩

theorem lexeme_comment (hbody : ∀ d ∈ body, endsComment d = false)
    (hrest : Follows endsComment rest) (p : Position) :
    ∃ l, lexeme p '#' (body ++ rest) = .ok l ∧ l.rest = rest := by
  have hgoes : ∀ d ∈ '#' :: body, (!endsComment d) = true :=
    List.forall_mem_cons.mpr ⟨rfl, fun d hd => by rw [hbody d hd]; rfl⟩
  have hends : Follows (fun d => !!endsComment d) rest := by simpa only [Bool.not_not] using hrest
  exact ⟨_, rfl, (takeWhile_word hgoes hends).2⟩

theorem kept_anywhere : Position.Kept fun _ _ => True := ⟨fun _ _ => trivial, fun _ => trivial⟩

/-- Without invisible characters the lexeme is gone, if it is a carriage return, or it is one that
leaves as much. -/
theorem lexeme_normalized (h : lexeme p c cs = .ok l) (hready : s.Ready l.rest)
    (hs : Sheltered s l.rest) (hr : returnsEnd (!·.isQuoted) s l.rest = true) (q : Position) :
    normalize (c :: cs) = normalize l.rest ∨ ∃ d ds l', normalize (c :: cs) = d :: ds ∧
      lexeme q d ds = .ok l' ∧ l'.rest = normalize l.rest := by
  cases lexeme_consists h with
  | code text htext hcode _ =>
    obtain ⟨w, rfl, rfl⟩ := lexeme_cons h htext
    have hc : c ≠ '\r' := by
      rintro rfl
      cases (hcode '\r' List.mem_cons_self).1
    obtain ⟨l', hl', -⟩ :=
      lexeme_behind (q := q) kept_anywhere trivial (behind_normalize hc hready hs hr) h rfl
    refine .inr ⟨c, _, _, ?_, hl', rfl⟩
    rw [htext, Session.normalize_append,
      Session.normalize_of_visible fun d hd => (hcode d hd).1]
    rfl
  | lineEnd t _ _ hend htext =>
    rcases hend with heq | heq | ⟨heq, -⟩ <;> rw [htext, heq]
    · exact .inr ⟨'\n', _, _, rfl, rfl, rfl⟩
    · exact .inr ⟨'\n', _, _, rfl, rfl, rfl⟩
    · exact .inl rfl
  | comment t body _ _ htext hbody hends =>
    have hbody' : ∀ d ∈ normalize body, endsComment d = false :=
      fun d hd => hbody d (Session.mem_normalize.mp hd).1
    have hends' : Follows endsComment (normalize l.rest) := by
      cases hnormal : normalize l.rest with
      | nil => trivial
      | cons d more =>
        rcases head_normalize hready hs hr (congrArg List.head? hnormal) with hsame | rfl
        · obtain ⟨more', hrest⟩ := List.head?_eq_some_iff.mp hsame
          rw [hrest] at hends
          exact hends
        · rfl
    obtain ⟨l', hl', hrest⟩ := lexeme_comment hbody' hends' q
    refine .inr ⟨'#', _, l', ?_, hl', hrest⟩
    rw [htext, Session.normalize_append, normalize_cons_of_visible rfl]
    rfl
  | literal t body _ _ htext hbody =>
    obtain ⟨l', hl', hrest⟩ := lexeme_literal hbody.normalize q (normalize l.rest)
    refine .inr ⟨'"', _, l', ?_, hl', hrest⟩
    rw [htext, List.cons_append, normalize_cons_of_visible rfl, List.append_assoc,
      Session.normalize_append, List.singleton_append, normalize_cons_of_visible rfl]

theorem Cuts.normalized (h : Cuts p cs ts) (hs : s.Ready cs)
    (hr : returnsEnd (!·.isQuoted) s cs = true) (q : Position) :
    ∃ us, Cuts q (normalize cs) us := by
  induction h generalizing s q with
  | done => exact ⟨_, .done⟩
  | @next p c cs l ts hl hcuts ih =>
    obtain ⟨text, s', htext, hscans, hready⟩ := lexeme_scans hl hs
    have hrest : returnsEnd (!·.isQuoted) s' l.rest = true := by
      rw [htext] at hr
      exact hscans.span ▸ returnsEnd_append hr
    obtain ⟨-, ⟨hsheltered, -⟩, -⟩ := hcuts.scans hready
    rcases lexeme_normalized hl hready hsheltered hrest q with hgone |
      ⟨d, ds, l', hnormal, hl', hleft⟩
    · exact hgone ▸ ih hready hrest q
    · obtain ⟨us, hus⟩ := ih hready hrest l'.next
      rw [← hleft] at hus
      rw [hnormal]
      exact ⟨_, .next hl' hus⟩

end Lexer

namespace Prompt

open Lexer (Span Sheltered ne_of_test returnsEnd)

variable {cs last : List Char} {c : Char} {s : Span} {ts us : List Token} {n : Nat}

/-! ## The last line -/

/-- Blanks and invisible characters open and close no string and begin no comment. -/
theorem span_next_of_blank (hs : s = .code ∨ s = .quoted)
    (hc : (Text.isBlank c || isInvisible c) = true) : s.next c = s := by
  have hne (d : Char) (hd : (Text.isBlank d || isInvisible d) = false) : c ≠ d :=
    ne_of_test (f := fun c => Text.isBlank c || isInvisible c) hc hd
  rcases hs with rfl | rfl
  · rw [Span.next, if_neg (hne '"' rfl), if_neg (hne '#' rfl)]
  · rw [Span.next, if_neg (hne '"' rfl), if_neg (hne '\\' rfl)]

theorem blank_or_invisible (h : Text.allBlank (normalize last) = true) (hc : c ∈ last) :
    (Text.isBlank c || isInvisible c) = true := by
  cases hinvisible : isInvisible c with
  | true => exact Bool.or_true _
  | false =>
    have hblank := List.all_eq_true.mp h c (Session.mem_normalize.mpr ⟨hc, hinvisible⟩)
    rw [hblank, Bool.true_or]

theorem span_of_blank (hs : s = .code ∨ s = .quoted)
    (h : ∀ c ∈ last, (Text.isBlank c || isInvisible c) = true) : last.foldl Span.next s = s := by
  induction last with
  | nil => rfl
  | cons c last ih =>
    obtain ⟨hc, hlast⟩ := List.forall_mem_cons.mp h
    rw [List.foldl_cons, span_next_of_blank hs hc]
    exact ih hlast

/-- In the code, the only invisible characters are blanks. -/
theorem allBlank_of_sheltered (hs : Sheltered .code last)
    (h : ∀ c ∈ last, (Text.isBlank c || isInvisible c) = true) : Text.allBlank last = true := by
  induction last with
  | nil => rfl
  | cons c last ih =>
    obtain ⟨hc, hlast⟩ := List.forall_mem_cons.mp h
    obtain ⟨hreturn, hs⟩ := hs
    rw [span_next_of_blank (.inl rfl) hc] at hs
    rw [Text.allBlank, List.all_cons, Bool.and_eq_true]
    refine ⟨?_, ih hs hlast⟩
    rcases Bool.or_eq_true_iff.mp hc with hblank | hinvisible
    · exact hblank
    · rw [(hreturn hinvisible).2 rfl]
      rfl

theorem last_line (cs : List Char) : ∃ front last,
    (cs = last ∨ cs = front ++ '\n' :: last) ∧ (Text.lines cs).getLast? = some last := by
  by_cases hfeed : '\n' ∈ cs
  · obtain ⟨as, bs, hsplit, hnone⟩ := List.eq_append_cons_of_mem (List.mem_reverse.mpr hfeed)
    have hcs : cs = bs.reverse ++ '\n' :: as.reverse := by
      rw [← cs.reverse_reverse, hsplit, List.reverse_append, List.reverse_cons, List.append_assoc]
      rfl
    have hlast : '\n' ∉ as.reverse := mt List.mem_reverse.mp hnone
    refine ⟨bs.reverse, as.reverse, .inr hcs, ?_⟩
    rw [hcs, lines_append, lines_single hlast]
    exact List.getLast?_concat
  · exact ⟨[], cs, .inl rfl, congrArg List.getLast? (lines_single hfeed)⟩

/-- The last line of a text that can be read is as blank as it is without invisible characters. -/
theorem allBlank_last_normalize (h : tokenize cs = .ok ts) :
    Text.allBlank ((Text.lines (normalize cs)).getLast?.getD []) =
      Text.allBlank ((Text.lines cs).getLast?.getD []) := by
  obtain ⟨front, last, hcs, hlast⟩ := last_line cs
  rw [Session.lines_normalize, List.getLast?_map, hlast, Option.map_some, Option.getD_some,
    Option.getD_some, Bool.eq_iff_iff]
  constructor
  · intro hblank
    have hall := fun c (hc : c ∈ last) => blank_or_invisible hblank hc
    obtain ⟨us, hcuts, -⟩ := Lexer.tokenize_eq_ok_iff.mp h
    obtain ⟨s, hscans, hquoted⟩ := hcuts.scans (.inl rfl)
    have hsheltered := hscans.sheltered
    rcases hcs with rfl | rfl
    · exact allBlank_of_sheltered hsheltered hall
    · have hspan := hscans.span
      rw [Lexer.sheltered_append] at hsheltered
      rw [List.foldl_append, List.foldl_cons] at hspan
      obtain ⟨-, -, hsheltered⟩ := hsheltered
      generalize front.foldl Span.next .code = open? at hspan hsheltered
      have hfeed : open?.next '\n' = .code ∨ open?.next '\n' = .quoted := by
        cases open? <;> decide
      rw [span_of_blank hfeed hall] at hspan
      rcases hfeed with hcode | hstring
      · exact allBlank_of_sheltered (hcode ▸ hsheltered) hall
      · -- No quote in this line closes the string.
        rw [← hspan, hstring] at hquoted
        cases hquoted
  · intro hblank
    exact List.all_eq_true.mpr fun c hc =>
      List.all_eq_true.mp hblank c (Session.mem_normalize.mp hc).1

/-! ## Enter -/

theorem openDepth_normalize (hts : tokenize cs = .ok ts) (hus : tokenize (normalize cs) = .ok us)
    (hr : returnsEnd (· = .comment) .code cs = true) :
    ∃ n, openDepth cs = .ok n ∧ openDepth (normalize cs) = .ok n := by
  obtain ⟨vs, hcuts, -⟩ := Lexer.tokenize_eq_ok_iff.mp hts
  obtain ⟨s, hscans, -⟩ := hcuts.scans (.inl rfl)
  refine ⟨_, openDepth_eq_openBrackets hts, ?_⟩
  rw [openDepth_eq_openBrackets hus]
  exact congrArg Except.ok (Lexer.tally_normalize hscans.sheltered hr 0)

/-- What enter does with a text in which `n` brackets are open. -/
def decision (n : Nat) (text : List Char) : Decision :=
  let lines := Text.lines text
  if lines.length ≠ 1 ∧ Text.allBlank (lines.getLast?.getD []) = true then
    .submit (unlines lines.dropLast)
  else if n = 0 then .submit text
  else .goOn (text ++ '\n' :: List.replicate (indentWidth * n) ' ')

theorem enter_of_openDepth (h : openDepth cs = .ok n) : enter cs = .ok (decision n cs) := by
  have hindent : indent cs = .ok (List.replicate (indentWidth * n) ' ') := by
    rw [indent, h]
    rfl
  unfold enter decision
  rw [h, hindent]
  dsimp only
  by_cases hone : (Text.lines cs).length = 1
  · rw [if_pos hone, if_neg fun hmany => hmany.1 hone]
    change (if n = 0 then _ else _) = _
    split <;> rfl
  · rw [if_neg hone]
    by_cases hblank : Text.allBlank ((Text.lines cs).getLast?.getD []) = true
    · rw [if_pos hblank, if_pos ⟨hone, hblank⟩]
      rfl
    · rw [if_neg hblank, if_neg fun hlast => hblank hlast.2]
      change (if n = 0 then _ else _) = _
      split <;> rfl

/-- The decision without the invisible characters of the text. -/
def Decision.normalized : Decision → Decision
  | .submit text => .submit (normalize text)
  | .goOn buffer => .goOn (normalize buffer)

theorem normalize_unlines (ls : List (List Char)) :
    normalize (unlines ls) = unlines (ls.map normalize) := by
  induction ls with
  | nil => rfl
  | cons l ls ih =>
    cases ls with
    | nil => rfl
    | cons m ls =>
      rw [unlines_cons (List.cons_ne_nil _ _), Session.normalize_append,
        normalize_cons_of_visible rfl, ih]
      rfl

theorem decision_normalize (h : tokenize cs = .ok ts) (n : Nat) :
    decision n (normalize cs) = (decision n cs).normalized := by
  unfold decision
  dsimp only
  rw [allBlank_last_normalize h, Session.lines_normalize, List.length_map]
  split
  · rw [Decision.normalized, normalize_unlines, List.map_dropLast]
  · split
    · rfl
    · have hblanks : ∀ c ∈ '\n' :: List.replicate (indentWidth * n) ' ', isInvisible c = false := by
        refine List.forall_mem_cons.mpr ⟨rfl, fun c hc => ?_⟩
        rw [List.eq_of_mem_replicate hc]
        rfl
      rw [Decision.normalized, Session.normalize_append, Session.normalize_of_visible hblanks]

/-- The prompt without the invisible characters of its buffer. -/
def normalized (p : Prompt) : Prompt := { p with buffer := normalize p.buffer }

theorem normalized_of_empty {p : Prompt} (h : p.buffer = []) : p.normalized = p := by
  obtain ⟨session, buffer, isOpen⟩ := p
  cases h
  rfl

theorem buffer_submit (text : List Char) (p : Prompt) : (p.submit text).2.buffer = [] := by
  unfold submit
  dsimp only
  split
  · rfl
  · split <;> rfl

theorem submit_normalize (text : List Char) (p : Prompt) :
    p.normalized.submit (normalize text) = ((p.submit text).1, (p.submit text).2.normalized) := by
  have hsame : p.normalized.submit (normalize text) = p.submit text := by
    unfold submit
    rw [Session.normalize_normalize]
    rfl
  rw [hsame, normalized_of_empty (buffer_submit text p)]

theorem press_enter_normalize {p : Prompt}
    (h : enter (normalize p.buffer) = (enter p.buffer).map Decision.normalized) :
    p.normalized.press .enter = ((p.press .enter).1, (p.press .enter).2.normalized) := by
  have hbuffer : p.normalized.buffer = normalize p.buffer := rfl
  rw [press, press, hbuffer, h]
  cases enter p.buffer with
  | error f => rfl
  | ok d =>
    cases d with
    | submit text => exact submit_normalize text p
    | goOn buffer => rfl

end Prompt

open Lexer (returnsEnd)
open Prompt (openDepth indent enter Decision)

/-- Enter goes by the buffer, and the session by the buffer without its invisible characters. If
both can be read and no carriage return ends a comment in the middle of a line, the same brackets
are open in them, and enter decides the same, with the same indent. If the buffer can be read and
the carriage returns outside of its strings end their lines, both can be read. A buffer that
cannot be read is submitted, whatever it is without its invisible characters. -/
theorem enter_decides_as_without_invisible_characters (cs : List Char) :
    (∀ ts us, tokenize cs = .ok ts → tokenize (normalize cs) = .ok us →
      returnsEnd (· = .comment) .code cs = true →
      openDepth (normalize cs) = openDepth cs ∧ indent (normalize cs) = indent cs ∧
      enter (normalize cs) = (enter cs).map Decision.normalized ∧
      ∀ p : Prompt, p.buffer = cs →
        p.normalized.press .enter = ((p.press .enter).1, (p.press .enter).2.normalized)) ∧
    (∀ ts, tokenize cs = .ok ts → returnsEnd (!·.isQuoted) .code cs = true →
      returnsEnd (· = .comment) .code cs = true ∧ ∃ us, tokenize (normalize cs) = .ok us) ∧
    ∀ cause, tokenize cs = .error (.lexical cause) → ∃ text, enter cs = .ok (.submit text) := by
  refine ⟨fun ts us hts hus hreturns => ?_, fun ts hts hreturns => ⟨?_, ?_⟩, fun cause hcause => ?_⟩
  · obtain ⟨n, hdepth, hnormal⟩ := Prompt.openDepth_normalize hts hus hreturns
    have henter : enter (normalize cs) = (enter cs).map Decision.normalized := by
      rw [Prompt.enter_of_openDepth hdepth, Prompt.enter_of_openDepth hnormal,
        Prompt.decision_normalize hts]
      rfl
    refine ⟨hnormal.trans hdepth.symm, ?_, henter, ?_⟩
    · rw [indent, indent, hdepth, hnormal]
    · rintro p rfl
      exact Prompt.press_enter_normalize henter
  · refine Lexer.returnsEnd_mono (fun s hs => ?_) hreturns
    rw [of_decide_eq_true hs]
    rfl
  · obtain ⟨us, hcuts, -⟩ := Lexer.tokenize_eq_ok_iff.mp hts
    obtain ⟨vs, hvs⟩ := hcuts.normalized (.inl rfl) hreturns .start
    exact ⟨_, Lexer.tokenize_eq_ok_iff.mpr ⟨vs, hvs, rfl⟩⟩
  · have hclosed : openDepth cs = .ok 0 := by
      rw [openDepth, hcause]
    rcases Prompt.enter_of_closed hclosed with h | h
    · exact ⟨_, h⟩
    · exact ⟨_, h⟩

/-- Invisible characters in a string, in a comment and at the end of a line, in a call that is not
closed; and one behind a bracket, where nothing can be read. -/
theorem invisible_characters_in_open_call : ∃ ts us,
    tokenize "f(\"\u200b(\", # [\u00a0\r\n1".toList = .ok ts ∧
    tokenize (normalize "f(\"\u200b(\", # [\u00a0\r\n1".toList) = .ok us ∧
    returnsEnd (!·.isQuoted) .code "f(\"\u200b(\", # [\u00a0\r\n1".toList = true ∧
    openDepth (normalize "f(\"\u200b(\", # [\u00a0\r\n1".toList) = .ok 1 ∧
    enter (normalize "f(\"\u200b(\", # [\u00a0\r\n1".toList) =
      .ok (.goOn "f(\"(\", # [\n1\n    ".toList) ∧
    tokenize "[\u200b".toList = .error (.lexical (.unexpectedCharacter '\u200b' 1 2)) ∧
    ∃ text, enter "[\u200b".toList = .ok (.submit text) := by
  have hts : tokenize "f(\"\u200b(\", # [\u00a0\r\n1".toList = .ok [
      ⟨.name, .text "f", 1, 1, ['f']⟩, ⟨.openParen, .text "(", 1, 2, ['(']⟩,
      ⟨.string, .text "\u200b(", 1, 3, "\"\u200b(\"".toList⟩, ⟨.comma, .text ",", 1, 7, [',']⟩,
      ⟨.newline, .text "\n", 1, 13, ['\r', '\n']⟩, ⟨.number, .int 1, 2, 1, ['1']⟩,
      ⟨.endOfInput, .absent, 2, 2, []⟩] :=
    Fault.eq_ok_of_toOption (by decide +kernel)
  have hreturns : returnsEnd (!·.isQuoted) .code "f(\"\u200b(\", # [\u00a0\r\n1".toList = true := by
    decide +kernel
  have hopen : openDepth "f(\"\u200b(\", # [\u00a0\r\n1".toList = .ok 1 :=
    Fault.eq_ok_of_toOption (by decide +kernel)
  have hgoes : (enter "f(\"\u200b(\", # [\u00a0\r\n1".toList).map Decision.normalized =
      .ok (.goOn "f(\"(\", # [\n1\n    ".toList) :=
    Fault.eq_ok_of_toOption (by decide +kernel)
  have hfault : tokenize "[\u200b".toList =
      .error (.lexical (.unexpectedCharacter '\u200b' 1 2)) := rfl
  obtain ⟨hsame, hread, -⟩ :=
    enter_decides_as_without_invisible_characters "f(\"\u200b(\", # [\u00a0\r\n1".toList
  obtain ⟨hcomments, us, hus⟩ := hread _ hts hreturns
  obtain ⟨hdepth, -, henter, -⟩ := hsame _ us hts hus hcomments
  obtain ⟨-, -, hsubmits⟩ :=
    enter_decides_as_without_invisible_characters "[\u200b".toList
  exact ⟨_, us, hts, hus, hreturns, hdepth.trans hopen, henter.trans hgoes, hfault,
    hsubmits _ hfault⟩

/-- A zero width space behind an open bracket: the buffer is submitted and the bracket alone is
evaluated, with which enter would go on. -/
theorem zero_width_space_submits_open_bracket :
    enter "[\u200b".toList = .ok (.submit "[\u200b".toList) ∧
    normalize "[\u200b".toList = ['['] ∧
    enter (normalize "[\u200b".toList) = .ok (.goOn "[\n    ".toList) :=
  ⟨Fault.eq_ok_of_toOption (by decide +kernel), rfl, Fault.eq_ok_of_toOption (by decide +kernel)⟩

end ScopeScript
