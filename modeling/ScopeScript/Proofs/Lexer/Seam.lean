import ScopeScript.Proofs.Lexer.Places

/-!
# Two texts on consecutive lines

The tokens of two texts with a line end between them are those of the first
text, a line end and those of the second text further down. Nothing that the
first text ends in goes on in the next line; only a carriage return at its end
and the line end become one.
-/

namespace ScopeScript

namespace Position

/-- The same place `k` lines further down. -/
def below (k : Nat) (p : Position) : Position := ⟨k + p.line, p.column⟩

end Position

namespace Token

def below (k : Nat) (t : Token) : Token := { t with line := k + t.line }

@[simp] theorem below_kind (k : Nat) (t : Token) : (t.below k).kind = t.kind := rfl

@[simp] theorem below_datum (k : Nat) (t : Token) : (t.below k).datum = t.datum := rfl

end Token

namespace Lexer

variable {cs rest : List Char} {p q : Position} {c : Char} {l : Lexeme} {ts : List Token}

/-! ## A text further down -/

namespace Lexeme

/-- The lexeme in front of a longer text. -/
def before (rest : List Char) (l : Lexeme) : Lexeme := { l with rest := l.rest ++ rest }

end Lexeme

theorem kept_below (k : Nat) : Position.Kept fun p q => q = p.below k where
  right _ h := h ▸ rfl
  nextLine h := h ▸ rfl

theorem Cuts.further (k : Nat) (h : Cuts p cs ts) : Cuts (p.below k) cs (ts.map (.below k)) := by
  obtain ⟨us, hus, hmoved⟩ := h.moved (kept_below k) rfl
  have hbelow : ts.map (.below k) = us := by
    refine List.forall₂_eq_eq_eq ▸ List.forall₂_map_left_iff.mpr (hmoved.imp fun t u htu => ?_)
    obtain ⟨kind, datum, line, column, text⟩ := u
    obtain ⟨rfl, rfl, rfl, hplace⟩ := htu
    obtain ⟨rfl, rfl⟩ := Position.mk.inj hplace
    rfl
  rwa [hbelow]

/-! ## A text in front of a line end -/

theorem takeWhile_line {f : Char → Bool} (hf : f '\n' = false) (cs : List Char) :
    (cs ++ '\n' :: rest).takeWhile f = cs.takeWhile f := by
  induction cs with
  | nil => exact List.takeWhile_cons_of_neg (by simp [hf])
  | cons c cs ih =>
    rw [List.cons_append, List.takeWhile_cons, List.takeWhile_cons, ih]

theorem dropWhile_line {f : Char → Bool} (hf : f '\n' = false) (cs : List Char) :
    (cs ++ '\n' :: rest).dropWhile f = cs.dropWhile f ++ '\n' :: rest := by
  induction cs with
  | nil => exact List.dropWhile_cons_of_neg (by simp [hf])
  | cons c cs ih =>
    rw [List.cons_append, List.dropWhile_cons, List.dropWhile_cons, ih]
    split <;> rfl

theorem numberText_line (cs : List Char) : numberText (cs ++ '\n' :: rest) = numberText cs := by
  have hline : numberText ('\n' :: rest) = [] := numberText_end rfl
  fun_induction numberText cs with
  | case1 => exact hline
  | case2 c hc => simp [numberText, hc, hline]
  | case3 c hc =>
    have hdigit : Numeral.isDigit '\n' = false := rfl
    simp [numberText, hc, hdigit]
  | case4 c d cs h ih => simpa [numberText, h] using ih
  | case5 c d cs h => simp [numberText, h]

theorem stringBody_append {opened : Nat} {b : StringBody} (h : stringBody opened p cs = .ok b) :
    stringBody opened p (cs ++ rest) = .ok { b with rest := b.rest ++ rest } := by
  fun_induction stringBody opened p cs generalizing b with
  | case1 => cases h
  | case2 p cs =>
    cases h
    rfl
  | case3 => cases h
  | case4 p e cs v hv ih =>
    obtain ⟨b, hb, rfl⟩ := Fault.map_eq_ok_iff.mp h
    rw [List.cons_append, List.cons_append, stringBody, hv]
    exact Fault.map_eq_ok_iff.mpr ⟨_, ih hb, rfl⟩
  | case5 => cases h
  | case6 p c cs hquote hend hescape ih =>
    obtain ⟨b, hb, rfl⟩ := Fault.map_eq_ok_iff.mp h
    have hbackslash : c ≠ '\\' := by
      rintro rfl
      cases cs with
      | nil => exact hend rfl rfl
      | cons e cs => exact hescape e cs rfl rfl
    rw [List.cons_append, stringBody]
    · exact Fault.map_eq_ok_iff.mpr ⟨_, ih hb, rfl⟩
    · exact hquote
    · exact fun hc _ => hbackslash hc
    · exact fun _ _ hc _ => hbackslash hc

theorem isPrefixOf_line {s : List Char} (hs : '\n' ∉ s) (cs : List Char) :
    s.isPrefixOf (cs ++ '\n' :: rest) = s.isPrefixOf cs := by
  induction s generalizing cs with
  | nil => rw [List.isPrefixOf_nil_left, List.isPrefixOf_nil_left]
  | cons d s ih =>
    obtain ⟨hd, hs⟩ := not_or.mp (mt List.mem_cons.mpr hs)
    cases cs with
    | nil => simp [List.isPrefixOf, Ne.symm hd]
    | cons c cs => rw [List.cons_append, List.isPrefixOf, List.isPrefixOf, ih hs]

theorem symbol?_line (cs : List Char) : symbol? (cs ++ '\n' :: rest) = symbol? cs := by
  have hall : ∀ s ∈ symbols, '\n' ∉ s.1 := by decide
  have heq : ∀ ss : List (List Char × Kind), (∀ s ∈ ss, '\n' ∉ s.1) →
      ss.find? (fun s => s.1.isPrefixOf (cs ++ '\n' :: rest)) =
        ss.find? fun s => s.1.isPrefixOf cs := by
    intro ss hss
    induction ss with
    | nil => rfl
    | cons s ss ih =>
      obtain ⟨hs, hss⟩ := List.forall_mem_cons.mp hss
      rw [List.find?_cons, List.find?_cons, isPrefixOf_line hs, ih hss]
  exact heq symbols hall

theorem symbolLexeme_line (h : symbolLexeme p c cs = .ok l) :
    symbolLexeme p c (cs ++ '\n' :: rest) = .ok (l.before ('\n' :: rest)) := by
  unfold symbolLexeme at h ⊢
  rw [← List.cons_append, symbol?_line]
  split
  next text kind hs =>
    rw [hs] at h
    cases h
    have hprefix : text.isPrefixOf (c :: cs) = true := by
      have hfound := List.find?_some hs
      exact hfound
    have hle : text.length ≤ (c :: cs).length :=
      (List.isPrefixOf_iff_prefix.mp hprefix).length_le
    rw [List.drop_append_of_le_length hle]
    rfl
  next hs =>
    rw [hs] at h
    cases h

theorem lexeme_line (h : lexeme p c cs = .ok l) (hreturn : c = '\r' → cs ≠ []) :
    lexeme p c (cs ++ '\n' :: rest) = .ok (l.before ('\n' :: rest)) := by
  suffices hline : ∃ l', lexeme p c (cs ++ '\n' :: rest) = .ok l' ∧
      l' = l.before ('\n' :: rest) by
    obtain ⟨_, hl, rfl⟩ := hline
    exact hl
  refine lexeme_along h (fun h => ?_) (fun _ h => ?_) (fun _ h => h ▸ rfl) (fun hc h => ?_)
    (fun h => ?_) (fun h => ?_) (fun h => ?_) (fun h => ⟨_, symbolLexeme_line h, rfl⟩)
  · rw [h, spaceLexeme, ← List.cons_append, takeWhile_line rfl, dropWhile_line rfl]
    rfl
  · rw [h, commentLexeme, ← List.cons_append, takeWhile_line rfl, dropWhile_line rfl]
    rfl
  · obtain ⟨d, ds, rfl⟩ := List.exists_cons_of_ne_nil (hreturn hc)
    rw [lexeme_return] at h ⊢
    cases h
    refine ⟨_, rfl, ?_⟩
    rw [List.cons_append, List.head?_cons, List.head?_cons]
    split <;> rfl
  · obtain ⟨b, hb, rfl⟩ := Fault.map_eq_ok_iff.mp h
    exact ⟨_, Fault.map_eq_ok_iff.mpr ⟨_, stringBody_append hb, rfl⟩, rfl⟩
  · obtain ⟨d, hd, rfl⟩ := Fault.map_eq_ok_iff.mp h
    have htext : numberText (c :: (cs ++ '\n' :: rest)) = numberText (c :: cs) :=
      numberText_line (c :: cs)
    have hle : (numberText (c :: cs)).length ≤ (c :: cs).length := by
      have hlength := congrArg List.length (numberText_append_drop (c :: cs))
      rw [List.length_append] at hlength
      omega
    dsimp only [numberLexeme]
    rw [htext, ← List.cons_append, List.drop_append_of_le_length hle]
    exact ⟨_, Fault.map_eq_ok_iff.mpr ⟨_, hd, rfl⟩, rfl⟩
  · rw [h, wordLexeme, ← List.cons_append, takeWhile_line rfl, dropWhile_line rfl]
    rfl

/-! ## Both texts -/

theorem token?_ne_endOfInput (h : lexeme p c cs = .ok l) :
    ∀ t ∈ l.token?.toList, t.kind ≠ .endOfInput := by
  intro t ht
  have hsome : l.token? = some t := Option.mem_toList.mp ht
  cases lexeme_takes h with
  | gap _ hnone _ _ _ =>
    rw [hnone] at hsome
    cases hsome
  | token u hu hkind _ _ =>
    rw [hu] at hsome
    cases hsome
    exact hkind

theorem Cuts.ends (h : Cuts p cs ts) : ∃ vs stop, ts = vs ++ [stop] ∧ stop.kind = .endOfInput ∧
    ∀ t ∈ vs, t.kind ≠ .endOfInput := by
  induction h with
  | done => exact ⟨[], _, rfl, rfl, List.forall_mem_nil _⟩
  | next hl _ ih =>
    obtain ⟨vs, stop, rfl, hstop, hvs⟩ := ih
    exact ⟨_ ++ vs, stop, (List.append_assoc ..).symm, hstop,
      List.forall_mem_append.mpr ⟨token?_ne_endOfInput hl, hvs⟩⟩

/-- Where the text behind a line end begins: the tokens before it, that of the line end and
the number of lines above. -/
theorem Cuts.line (h : Cuts p cs ts) (rest : List Char) : ∃ xs nl stop k, nl.kind = .newline ∧
    stop.kind = .endOfInput ∧ (∀ t ∈ xs, t.kind ≠ .endOfInput) ∧
    (ts = xs ++ [stop] ∨ ∃ nl', nl'.kind = .newline ∧ ts = xs ++ [nl', stop]) ∧
    ∀ us, Cuts ⟨k + 1, 1⟩ rest us → Cuts p (cs ++ '\n' :: rest) (xs ++ nl :: us) := by
  induction h with
  | @done p =>
    exact ⟨[], _, _, p.line, rfl, rfl, List.forall_mem_nil _, .inl rfl,
      fun us hus => .next (l := newlineLexeme p ['\n'] rest) rfl hus⟩
  | @next p c cs l ts hl hcuts ih =>
    by_cases hend : c = '\r' ∧ cs = []
    · obtain ⟨rfl, rfl⟩ := hend
      cases hl
      cases hcuts
      exact ⟨[], _, _, p.line, rfl, rfl, List.forall_mem_nil _, .inr ⟨_, rfl, rfl⟩,
        fun us hus => .next (l := newlineLexeme p ['\r', '\n'] rest) rfl hus⟩
    · obtain ⟨xs, nl, stop, k, hnl, hstop, hxs, hts, hrest⟩ := ih
      refine ⟨l.token?.toList ++ xs, nl, stop, k, hnl, hstop,
        List.forall_mem_append.mpr ⟨token?_ne_endOfInput hl, hxs⟩, ?_, fun us hus => ?_⟩
      · rcases hts with rfl | ⟨nl', hnl', rfl⟩
        · exact .inl (List.append_assoc ..).symm
        · exact .inr ⟨nl', hnl', (List.append_assoc ..).symm⟩
      · have hline : lexeme p c (cs ++ '\n' :: rest) = .ok (l.before ('\n' :: rest)) :=
          lexeme_line hl fun hc hcs => hend ⟨hc, hcs⟩
        rw [List.append_assoc]
        exact .next (l := l.before ('\n' :: rest)) hline (hrest us hus)

/-- The token of a line feed. -/
def newlineToken (p : Position) : Token := ⟨.newline, .text "\n", p.line, p.column, ['\n']⟩

/-- Without carriage returns a text is cut up to its end wherever a line end follows, and the
next line is cut on its own. -/
theorem Cuts.lines_iff (h : Cuts p cs ts) (hreturn : '\r' ∉ cs) : ∃ xs q,
    ts = xs ++ [endToken q] ∧ ∀ rest us, Cuts p (cs ++ '\n' :: rest) us ↔
      ∃ vs, us = xs ++ newlineToken q :: vs ∧ Cuts q.nextLine rest vs := by
  induction h with
  | @done p =>
    refine ⟨[], p, rfl, fun rest us => ?_⟩
    exact cuts_cons_iff (l := newlineLexeme p ['\n'] rest) rfl
  | @next p c cs l ts hl hcuts ih =>
    have hline (rest : List Char) :
        lexeme p c (cs ++ '\n' :: rest) = .ok (l.before ('\n' :: rest)) :=
      lexeme_line hl fun hc => absurd (hc ▸ List.mem_cons_self) hreturn
    have hrest : '\r' ∉ l.rest := by
      intro hmem
      cases lexeme_takes hl with
      | gap text _ _ _ heq => exact hreturn (heq ▸ List.mem_append_right _ hmem)
      | token t _ _ _ heq => exact hreturn (heq ▸ List.mem_append_right _ hmem)
    obtain ⟨xs, q, rfl, hnext⟩ := ih hrest
    refine ⟨l.token?.toList ++ xs, q, (List.append_assoc ..).symm, fun rest us => ?_⟩
    refine (cuts_cons_iff (hline rest)).trans ?_
    simp only [Lexeme.before, hnext]
    constructor
    · rintro ⟨_, rfl, vs, rfl, hvs⟩
      exact ⟨vs, (List.append_assoc ..).symm, hvs⟩
    · rintro ⟨vs, rfl, hvs⟩
      exact ⟨_, List.append_assoc .., vs, rfl, hvs⟩

end Lexer

/-- An end token comes last and nowhere else. -/
theorem tokenize_ends {cs : List Char} {ts : List Token} (h : tokenize cs = .ok ts) :
    ∃ vs stop, ts = vs ++ [stop] ∧ stop.kind = .endOfInput ∧ ∀ t ∈ vs, t.kind ≠ .endOfInput := by
  obtain ⟨us, hus, rfl⟩ := Lexer.tokenize_eq_ok_iff.mp h
  obtain ⟨vs, stop, rfl, hstop, hvs⟩ := hus.ends
  refine ⟨vs.filter (·.kind ≠ .comment), stop, ?_, hstop,
    fun t ht => hvs t (List.mem_filter.mp ht).1⟩
  rw [List.filter_append, List.filter_cons_of_pos (by simp [hstop]), List.filter_nil]

/-- The tokens of two texts with a line end in between. -/
theorem tokenize_lines {cs ds : List Char} {ts us : List Token} (hcs : tokenize cs = .ok ts)
    (hds : tokenize ds = .ok us) : ∃ xs nl stop k, nl.kind = .newline ∧ stop.kind = .endOfInput ∧
    (∀ t ∈ xs, t.kind ≠ .endOfInput) ∧
    (ts = xs ++ [stop] ∨ ∃ nl', nl'.kind = .newline ∧ ts = xs ++ [nl', stop]) ∧
    tokenize (cs ++ '\n' :: ds) = .ok (xs ++ nl :: us.map (.below k)) := by
  obtain ⟨ts, hts, rfl⟩ := Lexer.tokenize_eq_ok_iff.mp hcs
  obtain ⟨us, hus, rfl⟩ := Lexer.tokenize_eq_ok_iff.mp hds
  obtain ⟨xs, nl, stop, k, hnl, hstop, hxs, hcut, hlines⟩ := hts.line ds
  have hkept (t : Token) (ht : t.kind ≠ .comment) (ts : List Token) :
      (t :: ts).filter (·.kind ≠ .comment) = t :: ts.filter (·.kind ≠ .comment) :=
    List.filter_cons_of_pos (by simpa using ht)
  have hnlkept := hkept nl (by rw [hnl]; decide)
  have hstopkept := hkept stop (by rw [hstop]; decide) []
  refine ⟨xs.filter (·.kind ≠ .comment), nl, stop, k, hnl, hstop,
    fun t ht => hxs t (List.mem_filter.mp ht).1, ?_, ?_⟩
  · rcases hcut with rfl | ⟨nl', hnl', rfl⟩
    · exact .inl (by rw [List.filter_append, hstopkept, List.filter_nil])
    · refine .inr ⟨nl', hnl', ?_⟩
      rw [List.filter_append, hkept nl' (by rw [hnl']; decide), hstopkept, List.filter_nil]
  · refine Lexer.tokenize_eq_ok_iff.mpr ⟨_, hlines _ (hus.further k), ?_⟩
    rw [List.filter_append, hnlkept, List.filter_map]
    rfl

end ScopeScript
