import ScopeScript.Highlight
import ScopeScript.Proofs.Lexer.Columns

/-!
# Highlighting a line

The fragments of a line are its tokens, each in the style of its kind, and the
text between them without a style. A token is found again in the line by its
column, so this holds as long as every token stands in front of the line ends.
Only a carriage return can be one of those inside a line.
-/

namespace ScopeScript

variable {t : Token} {ts us : List Token}

/-! ## What a line shows -/

namespace Token

/-- Line ends and the end of the input are not shown. -/
def IsShown (t : Token) : Prop := t.kind ≠ .newline ∧ t.kind ≠ .endOfInput

instance (t : Token) : Decidable t.IsShown := inferInstanceAs (Decidable (_ ∧ _))

theorem not_isShown_iff : ¬t.IsShown ↔ t.kind = .newline ∨ t.kind = .endOfInput := by
  rw [IsShown, not_and_or, not_not, not_not]

/-- The style of a token in front of the next one: that of its kind, but for a name that an
opening parenthesis makes the name of a function. -/
def style (t : Token) (next? : Option Token) : String :=
  if t.kind = .name ∧ next?.map (·.kind) = some .openParen then Group.function.style
  else (t.kind.group?.map Group.style).getD ""

end Token

theorem Kind.group?_eq_none_iff {k : Kind} : k.group? = none ↔ k = .newline ∨ k = .endOfInput := by
  cases k <;> decide

namespace Fragment

/-- The tokens that are shown, each a fragment of its own. -/
def shown : List Token → List Fragment
  | [] => []
  | t :: ts => if t.IsShown then ⟨t.style ts.head?, t.text⟩ :: shown ts else shown ts

/-- The fragments make up a text, and they are the tokens that are shown, one after another,
with nothing but blanks and line ends between them. -/
structure Shows (ts : List Token) (text : List Char) (fs : List Fragment) : Prop where
  whole : fs.flatMap (·.text) = text
  tokens : (shown ts).Sublist fs
  others : ∀ f ∈ fs, f ∈ shown ts ∨ f.style = "" ∧ Lexer.IsLayout f.text

/-- A text that lies between tokens. -/
def gap (text : List Char) : List Fragment := if text.isEmpty then [] else [plain text]

variable {text rest : List Char} {done : Nat} {fs : List Fragment} {f : Fragment}

theorem flatMap_gap (text : List Char) : (gap text).flatMap (·.text) = text := by
  cases text with
  | nil => rfl
  | cons c text => exact List.append_nil _

theorem of_mem_gap (htext : Lexer.IsLayout text) (h : f ∈ gap text) :
    f.style = "" ∧ Lexer.IsLayout f.text := by
  cases text with
  | nil => cases h
  | cons c text =>
    rw [List.mem_singleton.mp h]
    exact ⟨rfl, htext⟩

/-! ## Fragments of tokens -/

theorem shown_eq_nil (h : ∀ t ∈ ts, ¬t.IsShown) : shown ts = [] := by
  induction ts with
  | nil => rfl
  | cons t ts ih =>
    obtain ⟨ht, hts⟩ := List.forall_mem_cons.mp h
    rw [shown, if_neg ht, ih hts]

theorem ofTokens_unshown (ht : ¬t.IsShown) (ts : List Token) (done : Nat) (rest : List Char) :
    ofTokens (t :: ts) done rest = ofTokens ts done rest := by
  have hgroup : t.kind.group? = none := Kind.group?_eq_none_iff.mpr (Token.not_isShown_iff.mp ht)
  rw [ofTokens, hgroup]

theorem ofTokens_gap (h : ∀ t ∈ ts, ¬t.IsShown) (done : Nat) (rest : List Char) :
    ofTokens ts done rest = gap rest := by
  induction ts with
  | nil => rfl
  | cons t ts ih =>
    obtain ⟨ht, hts⟩ := List.forall_mem_cons.mp h
    rw [ofTokens_unshown ht, ih hts]

theorem style_groupOf {group : Group} (h : t.kind.group? = some group) (next? : Option Token) :
    (groupOf t next? group).style = t.style next? := by
  unfold groupOf Token.style
  rw [h]
  cases next? with
  | none => simp
  | some next =>
    simp only [Option.map_some, Option.some.injEq]
    split <;> rfl

/-- A token that stands behind a gap gives the gap and a fragment of its own. -/
theorem ofTokens_token (ht : t.IsShown) (hcolumn : t.column = done + text.length + 1) :
    ofTokens (t :: ts) done (text ++ (t.text ++ rest)) =
      gap text ++ ⟨t.style ts.head?, t.text⟩ ::
        ofTokens ts (done + text.length + t.text.length) rest := by
  obtain ⟨group, hgroup⟩ : ∃ group, t.kind.group? = some group :=
    Option.ne_none_iff_exists'.mp fun hnone =>
      Token.not_isShown_iff.mpr (Kind.group?_eq_none_iff.mp hnone) ht
  have hstart : t.column - 1 = done + text.length := by omega
  have hgap : (text ++ (t.text ++ rest)).take (done + text.length - done) = text := by
    rw [Nat.add_sub_cancel_left, List.take_left]
  have hrest : (text ++ (t.text ++ rest)).drop (done + text.length - done + t.text.length) =
      rest := by
    rw [Nat.add_sub_cancel_left, ← List.drop_drop, List.drop_left, List.drop_left]
  rw [ofTokens, hgroup]
  simp only [hstart, hgap, hrest, if_neg (Nat.not_lt.mpr (Nat.le_add_right done text.length)),
    style_groupOf hgroup]
  cases text <;> rfl

theorem shows_unshown (h : ∀ t ∈ ts, ¬t.IsShown) (done : Nat) (htext : Lexer.IsLayout text) :
    Shows ts text (ofTokens ts done text) := by
  rw [ofTokens_gap h]
  refine ⟨flatMap_gap text, ?_, fun f hf => .inr (of_mem_gap htext hf)⟩
  rw [shown_eq_nil h]
  exact List.nil_sublist _

theorem Shows.token (ht : t.IsShown) (htext : Lexer.IsLayout text) (h : Shows ts rest fs) :
    Shows (t :: ts) (text ++ (t.text ++ rest))
      (gap text ++ ⟨t.style ts.head?, t.text⟩ :: fs) := by
  have hshown : shown (t :: ts) = ⟨t.style ts.head?, t.text⟩ :: shown ts := if_pos ht
  refine ⟨?_, ?_, ?_⟩
  · rw [List.flatMap_append, flatMap_gap, List.flatMap_cons, h.whole]
  · rw [hshown]
    exact (h.tokens.cons_cons _).trans (List.sublist_append_right ..)
  · rw [hshown]
    intro f hf
    rcases List.mem_append.mp hf with hf | hf
    · exact .inr (of_mem_gap htext hf)
    · rcases List.mem_cons.mp hf with rfl | hf
      · exact .inl List.mem_cons_self
      · exact (h.others f hf).imp_left (List.mem_cons_of_mem _)

/-! ## Fragments of a line -/

/-- From a place on, with blanks in front of it that no fragment has taken up yet. -/
theorem shows_ofTokens {p : Position} {cs : List Char} (h : Lexer.Cuts p cs ts) (hfeed : '\n' ∉ cs)
    (htext : Lexer.IsLayout text) (hcolumn : p.column = done + text.length + 1)
    (hline : ∀ t ∈ ts, t.IsShown → t.line = p.line) :
    Shows ts (text ++ cs) (ofTokens ts done (text ++ cs)) := by
  induction h generalizing done text with
  | done =>
    exact shows_unshown (List.forall_mem_singleton.mpr fun ht => ht.2 rfl) done
      (Lexer.isLayout_append htext (List.forall_mem_nil _))
  | @next p c cs l ts hl hcuts ih =>
    cases Lexer.lexeme_advances hl with
    | gap blank hnone hspace hblank hnext =>
      rw [hnone] at hline ⊢
      rw [hblank] at hfeed ⊢
      rw [hnext] at ih
      have hplace : (p.right blank.length).column = done + (text ++ blank).length + 1 := by
        simp only [Position.right, hcolumn, List.length_append]
        omega
      have hlayout : Lexer.IsLayout (text ++ blank) :=
        Lexer.isLayout_append htext fun c hc => .inl (hspace c hc)
      rw [← List.append_assoc]
      exact ih (mt (List.mem_append_right _) hfeed) hlayout hplace hline
    | lineEnd t hsome hnewline _ _ hnext =>
      have hcut : Lexer.Cuts p (c :: cs) (l.token?.toList ++ ts) := .next hl hcuts
      rw [hsome] at hline hcut ⊢
      -- What is behind a line end is on another line, so nothing of it is shown.
      have hbehind : ∀ u ∈ t :: ts, ¬u.IsShown := by
        refine List.forall_mem_cons.mpr ⟨fun ht => ht.1 hnewline, fun u hu hshown => ?_⟩
        have hle := Lexer.line_le_of_cuts hcuts u hu
        rw [hnext, hline u (List.mem_cons_of_mem _ hu) hshown] at hle
        exact absurd hle (Nat.not_succ_le_self _)
      have hlayout := Lexer.isLayout_of_cuts hcut fun u hu =>
        Token.not_isShown_iff.mp (hbehind u hu)
      exact shows_unshown hbehind done (Lexer.isLayout_append htext hlayout)
    | token t hsome hnewline hend ht hnext =>
      rw [hsome] at hline ⊢
      rw [ht.text] at hfeed ⊢
      rw [hnext, p.after_eq_right (mt (List.mem_append_left _) hfeed)] at ih
      have hshown : t.IsShown := ⟨hnewline, hend⟩
      have hplace : (p.right t.text.length).column =
          done + text.length + t.text.length + ([] : List Char).length + 1 := by
        simp only [Position.right, hcolumn, List.length_nil]
        omega
      have hrest := ih (mt (List.mem_append_right _) hfeed) (List.forall_mem_nil _) hplace
        fun u hu => hline u (List.mem_cons_of_mem _ hu)
      rw [Option.toList_some, List.singleton_append,
        ofTokens_token hshown (ht.column.trans hcolumn)]
      exact hrest.token hshown htext

theorem ofLine_of_shows {line : List Char} (h : tokenizeWithComments line = .ok ts)
    (hshows : Shows ts line (ofTokens ts 0 line)) :
    ∃ fs, ofLine line = .ok fs ∧ Shows ts line fs := by
  cases line with
  | nil =>
    cases h
    refine ⟨_, rfl, rfl, List.nil_sublist _, fun f hf => .inr ?_⟩
    rw [List.mem_singleton.mp hf]
    exact ⟨rfl, List.forall_mem_nil _⟩
  | cons c cs =>
    refine ⟨ofTokens ts 0 (c :: cs), ?_, hshows⟩
    have hne : (ofTokens ts 0 (c :: cs)).isEmpty = false := by
      rw [List.isEmpty_eq_false_iff]
      intro hempty
      have hwhole := hshows.whole
      rw [hempty] at hwhole
      cases hwhole
    simp [ofLine, h, hne]

theorem ofLine_of_lexical {line : List Char} {cause : LexCause}
    (h : tokenizeWithComments line = .error (.lexical cause)) :
    ofLine line = .ok [⟨Group.error.style, line⟩] := by
  cases line with
  | nil => cases h
  | cons c cs => simp [ofLine, h]

theorem ofLine_eq_error_iff {line : List Char} {f : Fault} : ofLine line = .error f ↔
    f = .numeralTooLong ∧ tokenizeWithComments line = .error .numeralTooLong := by
  cases line with
  | nil =>
    constructor
    · rintro ⟨⟩
    · rintro ⟨-, ⟨⟩⟩
  | cons c cs =>
    cases h : tokenizeWithComments (c :: cs) with
    | ok ts => simp [ofLine, h]
    | error g =>
      rcases tokenizeWithComments_error h with rfl | ⟨cause, rfl⟩
      · simp [ofLine, h, eq_comm]
      · simp [ofLine, h]

/-- The fragments of a line that can be read make up the line again, and they show its tokens:
each is a fragment of its own in the style of its kind, and the others hold nothing but layout.
This is as long as no token is behind a line end, which only a carriage return would be. A line
that cannot be read is one fragment, unless a numeral in it is too long. -/
theorem highlighting_keeps_the_line {line : List Char} (hfeed : '\n' ∉ line) :
    (∀ ts, tokenizeWithComments line = .ok ts →
      ('\r' ∉ line ∨ ∀ t ∈ ts, t.IsShown → t.line = 1) →
        ∃ fs, ofLine line = .ok fs ∧ Shows ts line fs) ∧
    (∀ cause, tokenizeWithComments line = .error (.lexical cause) →
      ofLine line = .ok [⟨Group.error.style, line⟩]) ∧
    (∀ f, ofLine line = .error f ↔
      f = .numeralTooLong ∧ tokenizeWithComments line = .error .numeralTooLong) := by
  refine ⟨fun ts h hfirst => ?_, fun _ => ofLine_of_lexical, fun _ => ofLine_eq_error_iff⟩
  have hcuts : Lexer.Cuts .start line ts := (Lexer.lexemes_eq_ok_iff (Nat.le_refl _)).mp h
  have hline : ∀ t ∈ ts, t.IsShown → t.line = Position.start.line := by
    rcases hfirst with hreturn | hfirst
    · exact fun t ht _ => Lexer.line_eq_of_cuts hcuts hfeed hreturn t ht
    · exact hfirst
  have hshows : Shows ts ([] ++ line) (ofTokens ts 0 ([] ++ line)) :=
    shows_ofTokens hcuts hfeed (List.forall_mem_nil _) rfl hline
  exact ofLine_of_shows h hshows

/-- A call whose name has the style of functions, a gap and a comment. -/
theorem highlighting_keeps_a_call : ∃ ts fs, tokenizeWithComments "fib(1) # c".toList = .ok ts ∧
    ofLine "fib(1) # c".toList = .ok fs ∧ Shows ts "fib(1) # c".toList fs ∧
    shown ts = [⟨"bold ansiyellow", "fib".toList⟩, ⟨"", ['(']⟩, ⟨"ansimagenta", ['1']⟩,
      ⟨"", [')']⟩, ⟨"italic ansigray", "# c".toList⟩] := by
  have hts : tokenizeWithComments "fib(1) # c".toList = .ok [
      ⟨.name, .text "fib", 1, 1, "fib".toList⟩, ⟨.openParen, .text "(", 1, 4, ['(']⟩,
      ⟨.number, .int 1, 1, 5, ['1']⟩, ⟨.closeParen, .text ")", 1, 6, [')']⟩,
      ⟨.comment, .text "# c", 1, 8, "# c".toList⟩, ⟨.endOfInput, .absent, 1, 11, []⟩] :=
    Fault.eq_ok_of_toOption (by decide +kernel)
  have hfeed : '\n' ∉ "fib(1) # c".toList := by decide
  obtain ⟨hread, -, -⟩ := highlighting_keeps_the_line hfeed
  obtain ⟨fs, hfs, hshows⟩ := hread _ hts (.inl (by decide))
  exact ⟨_, fs, hts, hfs, hshows, by decide +kernel⟩

/-- Behind a carriage return columns are counted from the start of another line: the word is
taken for the beginning of the text, and the last letter is left over behind it. -/
theorem highlighting_repeats_letters_behind_return : ∃ ts fs,
    tokenizeWithComments "\rlet".toList = .ok ts ∧ ofLine "\rlet".toList = .ok fs ∧
    fs = [⟨"bold ansicyan", "let".toList⟩, ⟨"", ['t']⟩] ∧
    fs.flatMap (·.text) ≠ "\rlet".toList := by
  have hts : tokenizeWithComments "\rlet".toList = .ok [
      ⟨.newline, .text "\n", 1, 1, ['\r']⟩, ⟨.letWord, .text "let", 2, 1, "let".toList⟩,
      ⟨.endOfInput, .absent, 2, 4, []⟩] := Fault.eq_ok_of_toOption (by decide +kernel)
  have hfs : ofLine "\rlet".toList = .ok [⟨"bold ansicyan", "let".toList⟩, ⟨"", ['t']⟩] :=
    Fault.eq_ok_of_toOption (by decide +kernel)
  exact ⟨_, _, hts, hfs, rfl, by decide⟩

end Fragment

end ScopeScript
