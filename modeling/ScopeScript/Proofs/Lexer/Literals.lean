import ScopeScript.Node.Printer
import ScopeScript.Proofs.Lexer.Filling
import ScopeScript.Proofs.Lexer.Regular

/-!
# Literals read back

The source form of a value is cut into one token for that value. Of the
numerals only those beyond the largest number fail: they are written as a word.
Strings are written with escapes, and in such a text a quote without a
backslash stands at both ends and nowhere else.
-/

namespace ScopeScript

open Lexer (Reads IsToken endsWord)

/-! ## Numbers -/

theorem Datum.IsNumeral.reads {d : Datum} (h : d.IsNumeral) (hd : d ≠ .float (.infinite false)) :
    Reads endsWord d.toValue.sourceForm (IsToken .number d) := by
  rcases h with ⟨i, hi, rfl⟩ | ⟨x, ⟨m, q, hx, rfl⟩ | rfl, rfl⟩
  · exact Lexer.reads_integer hi
  · exact Lexer.reads_float hx
  · exact (hd rfl).elim

theorem Datum.IsNumeral.isWritable {d : Datum} (h : d.IsNumeral) : d.toValue.isWritable = true := by
  rcases h with ⟨i, hi, rfl⟩ | ⟨x, -, rfl⟩
  · exact Numeral.isWritable_natCast hi
  · rfl

theorem tokenize_infinity : ∃ stop, tokenize (Binary64.infinite false).sourceText.toList = .ok [
    ⟨.name, .text "Infinity", 1, 1, "Infinity".toList⟩, ⟨.dot, .text ".", 1, 9, ['.']⟩,
    ⟨.number, .int 0, 1, 10, ['0']⟩, stop] :=
  ⟨⟨.endOfInput, .absent, 1, 11, []⟩, Fault.eq_ok_of_toOption (by decide +kernel)⟩

/-- A numeral is written as one numeral of the same value, unless it is beyond the largest
number. -/
theorem numerals_survive_printing {cs : List Char} {ts : List Token} {t : Token}
    (h : tokenize cs = .ok ts) (ht : t ∈ ts) (hkind : t.kind = .number) :
    t.datum.toValue.isWritable = true ∧
    ((∃ u stop, tokenize t.datum.toValue.sourceForm.toList = .ok [u, stop] ∧ u.kind = .number ∧
      u.datum = t.datum ∧ stop.kind = .endOfInput) ↔ t.datum ≠ .float (.infinite false)) := by
  have hnumeral : t.datum.IsNumeral := (Lexer.regular_of_tokenize h t ht).number hkind
  refine ⟨hnumeral.isWritable, ?_, fun hd => ?_⟩
  · rintro ⟨u, stop, hread, -⟩ hd
    obtain ⟨_, hinfinity⟩ := tokenize_infinity
    rw [hd] at hread
    cases hread.symm.trans hinfinity
  · obtain ⟨_, stop, ⟨u, rfl, hu, hdatum⟩, hstop, hread⟩ := (hnumeral.reads hd).tokenize
    exact ⟨u, stop, hread, hu, hdatum, hstop⟩

/-- A small number, which stays positional. -/
theorem small_numeral_survives_printing : ∃ t stop u stop',
    tokenize "00.00000010".toList = .ok [t, stop] ∧
    t.datum = .float ((⟨1, -7⟩ : Decimal).toBinary64 false) ∧
    t.datum.toValue.sourceForm = "0.0000001" ∧
    tokenize t.datum.toValue.sourceForm.toList = .ok [u, stop'] ∧ u.datum = t.datum := by
  have hts : tokenize "00.00000010".toList = .ok [
      ⟨.number, .float ((⟨1, -7⟩ : Decimal).toBinary64 false), 1, 1, "00.00000010".toList⟩,
      ⟨.endOfInput, .absent, 1, 12, []⟩] := Fault.eq_ok_of_toOption (by decide +kernel)
  have hsurvives := numerals_survive_printing hts List.mem_cons_self rfl
  obtain ⟨u, stop', hread, -, hdatum, -⟩ := hsurvives.2.mpr (by decide +kernel)
  exact ⟨_, _, u, stop', hts, rfl, by decide +kernel, hread, hdatum⟩

/-- A numeral beyond the largest number is written as a word, a point and a zero. -/
theorem overflowing_numeral_becomes_word : ∃ t stop,
    tokenize (List.replicate 309 '9' ++ ".0".toList) = .ok [t, stop] ∧ t.kind = .number ∧
    t.datum.toValue.sourceForm = "Infinity.0" ∧
    ¬∃ u stop, tokenize t.datum.toValue.sourceForm.toList = .ok [u, stop] := by
  have hts : tokenize (List.replicate 309 '9' ++ ".0".toList) = .ok [
      ⟨.number, .float (.infinite false), 1, 1, List.replicate 309 '9' ++ ".0".toList⟩,
      ⟨.endOfInput, .absent, 1, 312, []⟩] := Fault.eq_ok_of_toOption (by decide +kernel)
  refine ⟨_, _, hts, rfl, rfl, ?_⟩
  rintro ⟨u, stop, hread⟩
  obtain ⟨_, hinfinity⟩ := tokenize_infinity
  cases hread.symm.trans hinfinity

/-! ## Escapes -/

namespace Text

/-- The characters that are written with a backslash, in the order in which they are replaced. -/
def escapes : List (Char × Char) :=
  [('\\', '\\'), ('"', '"'), ('\n', 'n'), ('\t', 't'), ('\r', 'r'), ('\x00', '0')]

def replaceAll (escape : Char × Char) (cs : List Char) : List Char :=
  cs.flatMap fun c => if c = escape.1 then ['\\', escape.2] else [c]

/-- One replacement in the whole text after the other. -/
def replaceInTurn : List (Char × Char) → List Char → List Char
  | [], cs => cs
  | e :: es, cs => replaceInTurn es (replaceAll e cs)

/-- The offsets of the quotes that no backslash belongs to. -/
def bareQuotes (i : Nat) : List Char → List Nat
  | [] => []
  | '\\' :: _ :: cs => bareQuotes (i + 2) cs
  | '"' :: cs => i :: bareQuotes (i + 1) cs
  | _ :: cs => bareQuotes (i + 1) cs

theorem escape_cases (c : Char) : (∃ e, (c, e) ∈ escapes ∧ escape c = ['\\', e]) ∨
    (∀ e ∈ escapes, e.1 ≠ c) ∧ escape c = [c] := by
  unfold escape
  split
  case h_7 hslash hquote hfeed htab hreturn hnull =>
    refine .inr ⟨?_, rfl⟩
    simp only [escapes, List.forall_mem_cons]
    exact ⟨Ne.symm hslash, Ne.symm hquote, Ne.symm hfeed, Ne.symm htab, Ne.symm hreturn,
      Ne.symm hnull, List.forall_mem_nil _⟩
  all_goals exact .inl ⟨_, by decide, rfl⟩

/-- Replacements in turn do with each character what they do with it alone. -/
theorem replaceInTurn_eq_flatMap (es : List (Char × Char)) (cs : List Char) :
    replaceInTurn es cs = cs.flatMap fun c => replaceInTurn es [c] := by
  induction es generalizing cs with
  | nil => exact (List.flatMap_singleton' cs).symm
  | cons e es ih =>
    rw [replaceInTurn, ih, replaceAll, List.flatMap_assoc]
    refine List.flatMap_congr fun c _ => ?_
    rw [replaceInTurn, replaceAll, List.flatMap_singleton, ih]

theorem replaceInTurn_of_ne {es : List (Char × Char)} {c : Char} (h : ∀ e ∈ es, e.1 ≠ c) :
    replaceInTurn es [c] = [c] := by
  induction es with
  | nil => rfl
  | cons e es ih =>
    obtain ⟨he, hes⟩ := List.forall_mem_cons.mp h
    rw [replaceInTurn, replaceAll, List.flatMap_singleton, if_neg he.symm, ih hes]

/-- No replacement touches what an earlier one has written. -/
theorem replaceInTurn_escapes (cs : List Char) : replaceInTurn escapes cs = cs.flatMap escape := by
  have honce : ∀ e ∈ escapes, replaceInTurn escapes [e.1] = ['\\', e.2] := by decide
  rw [replaceInTurn_eq_flatMap]
  refine List.flatMap_congr fun c _ => ?_
  rcases escape_cases c with ⟨e, he, hescape⟩ | ⟨hne, hescape⟩
  · rw [hescape, honce _ he]
  · rw [hescape, replaceInTurn_of_ne hne]

/-! ## Quoted texts -/

variable {cs : List Char} {c : Char}

theorem not_mem_escape (hc : c ∈ ['\n', '\r', '\t', '\x00']) : c ∉ cs.flatMap escape := by
  have hraw : ∀ e ∈ escapes, e.2 ∉ ['\n', '\r', '\t', '\x00'] := by decide
  have hescaped : ['\n', '\r', '\t', '\x00'] ⊆ escapes.map Prod.fst := by decide
  rw [List.mem_flatMap]
  rintro ⟨d, -, hd⟩
  rcases escape_cases d with ⟨e, he, hescape⟩ | ⟨hne, hescape⟩
  · rw [hescape] at hd
    rcases List.mem_cons.mp hd with rfl | hd
    · exact absurd hc (by decide)
    · exact hraw _ he (List.mem_singleton.mp hd ▸ hc)
  · obtain ⟨e, he, heq⟩ := List.mem_map.mp (hescaped hc)
    rw [hescape] at hd
    exact hne e he (heq.trans (List.mem_singleton.mp hd))

theorem bareQuotes_escape (i : Nat) (cs rest : List Char) :
    bareQuotes i (cs.flatMap escape ++ rest) = bareQuotes (i + (cs.flatMap escape).length) rest := by
  induction cs generalizing i with
  | nil => rfl
  | cons c cs ih =>
    rw [List.flatMap_cons, List.append_assoc, List.length_append, ← Nat.add_assoc, ← ih]
    rcases escape_cases c with ⟨e, -, hescape⟩ | ⟨hne, hescape⟩
    · rw [hescape]
      rfl
    · have hslash : c ≠ '\\' := (hne ('\\', '\\') (by decide)).symm
      have hquote : c ≠ '"' := (hne ('"', '"') (by decide)).symm
      rw [hescape, List.singleton_append, bareQuotes]
      · rfl
      · exact fun _ _ h _ => hslash h
      · exact hquote

theorem bareQuotes_quoted (cs : List Char) :
    bareQuotes 0 (quoted cs) = [0, (quoted cs).length - 1] := by
  have hclosed := bareQuotes_escape 1 cs ['"']
  have hlength : (quoted cs).length - 1 = 1 + (cs.flatMap escape).length := by
    simp [quoted, Nat.add_comm]
  rw [quoted] at hlength ⊢
  rw [bareQuotes, hclosed, hlength]
  rfl

end Text

theorem Lexer.Reads.tokenize_append {f : Char → Bool} {s : String} {P : List Token → Prop}
    (h : Reads f s P) {rest : List Char} {us : List Token} (hfollows : Lexer.Follows f rest)
    (hrest : ScopeScript.tokenize rest = .ok us) :
    ∃ ts vs, P ts ∧ ScopeScript.tokenize (s.toList ++ rest) = .ok (ts ++ vs) ∧
      vs.map (fun t => (t.kind, t.datum)) = us.map fun t => (t.kind, t.datum) := by
  obtain ⟨us, hus, rfl⟩ := Lexer.tokenize_eq_ok_iff.mp hrest
  obtain ⟨ts, q, hP, hcomment, hcut⟩ := h .start rest hfollows
  have hanywhere : Position.Kept fun _ _ => True := ⟨fun _ _ => trivial, fun _ => trivial⟩
  obtain ⟨vs, hvs, hmoved⟩ := hus.moved (q := q) hanywhere trivial
  refine ⟨ts, Lexer.visible vs, hP, Lexer.tokenize_eq_ok_iff.mpr ⟨_, hcut vs hvs, ?_⟩, ?_⟩
  · rw [List.filter_append, List.filter_eq_self.mpr (by simpa using hcomment)]
  · rw [← List.forall₂_eq_eq_eq, List.forall₂_map_left_iff, List.forall₂_map_right_iff]
    exact (Lexer.visible_moved hmoved).flip.imp fun _ _ ht => Prod.ext ht.kind ht.datum

/-- Escapes are undone. A quoted text is cut into one string, in front of other texts too, where
the tokens behind it keep their kinds and data. It holds no raw line end, tab or null, and no
quote without a backslash but the first and the last character. It is what six replacements in
the whole text make of it, of which none touches what an earlier one has written. -/
theorem quoting_is_undone (s : String) :
    (∃ t stop, tokenize (Text.quoted s.toList) = .ok [t, stop] ∧ t.kind = .string ∧
      t.datum = .text s ∧ stop.kind = .endOfInput) ∧
    (∀ c ∈ ['\n', '\r', '\t', '\x00'], c ∉ Text.quoted s.toList) ∧
    Text.bareQuotes 0 (Text.quoted s.toList) = [0, (Text.quoted s.toList).length - 1] ∧
    Text.quoted s.toList = '"' :: (Text.replaceInTurn Text.escapes s.toList ++ ['"']) ∧
    ∀ rest us, tokenize rest = .ok us → ∃ ts, tokenize (Text.quoted s.toList ++ rest) = .ok ts ∧
      ts.map (fun t => (t.kind, t.datum)) =
        (.string, .text s) :: us.map fun t => (t.kind, t.datum) := by
  have hreads := Lexer.reads_string s
  refine ⟨?_, fun c hc => ?_, Text.bareQuotes_quoted _, ?_, fun rest us hrest => ?_⟩
  · obtain ⟨_, stop, ⟨t, rfl, hkind, hdatum⟩, hstop, hread⟩ := hreads.tokenize
    rw [String.toList_ofList] at hread
    exact ⟨t, stop, hread, hkind, hdatum, hstop⟩
  · have hquote : c ≠ '"' := fun heq => absurd (heq ▸ hc) (by decide)
    simp [Text.quoted, hquote, Text.not_mem_escape hc]
  · rw [Text.quoted, Text.replaceInTurn_escapes]
  · have hfollows : Lexer.Follows (fun _ => true) rest := by
      cases rest <;> trivial
    obtain ⟨_, vs, ⟨t, rfl, hkind, hdatum⟩, hread, hvs⟩ := hreads.tokenize_append hfollows hrest
    rw [String.toList_ofList] at hread
    refine ⟨t :: vs, hread, ?_⟩
    rw [List.map_cons, hkind, hdatum, hvs]

/-- A string of a backslash, the letter n, a line feed, a quote and a null, with a word and a
comment behind it. -/
theorem quoting_of_mixed_escapes_is_undone : ∃ ts,
    Text.quoted "\\n\n\"\x00".toList = "\"\\\\n\\n\\\"\\0\"".toList ∧
    tokenize "\"\\\\n\\n\\\"\\0\"let # c".toList = .ok ts ∧
    ts.map (fun t => (t.kind, t.datum)) = [(.string, .text "\\n\n\"\x00"),
      (.letWord, .text "let"), (.endOfInput, .absent)] := by
  have hrest : tokenize "let # c".toList = .ok [⟨.letWord, .text "let", 1, 1, "let".toList⟩,
      ⟨.endOfInput, .absent, 1, 8, []⟩] := Fault.eq_ok_of_toOption (by decide +kernel)
  obtain ⟨-, -, -, -, hbehind⟩ := quoting_is_undone "\\n\n\"\x00"
  obtain ⟨ts, hread, hts⟩ := hbehind _ _ hrest
  exact ⟨ts, by decide, hread, hts⟩

end ScopeScript
