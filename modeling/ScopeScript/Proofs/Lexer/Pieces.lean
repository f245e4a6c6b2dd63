import Mathlib.Data.List.TakeWhile
import ScopeScript.Proofs.Binary64.Reading
import ScopeScript.Proofs.Lexer.Cuts

/-!
# The pieces of a printed program

Words, symbols, literals and blanks are each cut into the token that they were
written for. What may follow differs: a word goes on with letters and digits, a
symbol with an equals sign, a blank with blanks, and a string with nothing.
-/

namespace ScopeScript.Lexer

/-- What ends a word or a number. -/
def endsWord (c : Char) : Bool := !isNamePart c && c ≠ '.'

/-- What does not turn a symbol into a longer one. -/
def endsSymbol (c : Char) : Bool := c ≠ '='

def endsSpace (c : Char) : Bool := !isSpace c

/-! ## Blanks -/

theorem reads_space : Reads endsSpace " " (· = []) := by
  intro p rest hrest
  refine ⟨[], p.right 1, rfl, List.forall_mem_nil _, fun us hus => ?_⟩
  have hspace : spaceLexeme p (' ' :: rest) = ⟨none, p.right 1, rest⟩ := by
    cases rest with
    | nil => rfl
    | cons c rest =>
      have hc : isSpace c = false := by simpa [Follows, endsSpace] using hrest
      have htake : (' ' :: c :: rest).takeWhile isSpace = [' '] := by
        rw [List.takeWhile_cons_of_pos rfl, List.takeWhile_cons_of_neg (by simp [hc])]
      have hdrop : (' ' :: c :: rest).dropWhile isSpace = c :: rest := by
        rw [List.dropWhile_cons_of_pos rfl, List.dropWhile_cons_of_neg (by simp [hc])]
      rw [spaceLexeme, htake, hdrop]
      rfl
  have hl : lexeme p ' ' rest = .ok ⟨none, p.right 1, rest⟩ := by
    rw [← hspace]
    rfl
  exact .next hl hus

theorem Reads.after_space {f : Char → Bool} {s : String} {P : List Token → Prop}
    (h : Reads f s P) (hs : Starts endsSpace s) : Reads f (" " ++ s) P := by
  apply (reads_space.append h hs).imp
  rintro _ ⟨_, us, rfl, rfl, hus⟩
  exact hus

theorem reads_newline : Reads (fun _ => true) "\n" fun ts => ∃ t, ts = [t] ∧ t.kind = .newline :=
  Reads.of_lexeme rfl fun _ _ _ => ⟨_, _, rfl, nofun, _, rfl, rfl⟩

/-! ## Words -/

/-- A word: a letter or an underscore, and then digits as well. -/
def IsWord (w : String) : Prop :=
  ∃ c cs, w.toList = c :: cs ∧ isNameStart c = true ∧ ∀ d ∈ cs, isNamePart d = true

theorem takeWhile_word {f : Char → Bool} {cs rest : List Char} (hcs : ∀ c ∈ cs, f c = true)
    (hrest : Follows (fun c => !f c) rest) :
    (cs ++ rest).takeWhile f = cs ∧ (cs ++ rest).dropWhile f = rest := by
  rw [List.takeWhile_append_of_pos hcs, List.dropWhile_append_of_pos hcs]
  cases rest with
  | nil => simp
  | cons c rest =>
    have hc : f c = false := by simpa [Follows] using hrest
    simp [hc]

theorem not_isNameStart {c : Char} (h : c ∈ [' ', '\t', '#', '\n', '\r', '"']) :
    isNameStart c = false := by
  have hall : [' ', '\t', '#', '\n', '\r', '"'].all (!isNameStart ·) = true := rfl
  exact (Bool.not_eq_eq_eq_not ..).mp (List.all_eq_true.mp hall c h)

theorem ne_of_test {f : Char → Bool} {c d : Char} (hc : f c = true) (hd : f d = false) : c ≠ d := by
  rintro rfl
  rw [hd] at hc
  cases hc

theorem lexeme_word {p : Position} {c : Char} {cs : List Char} (hc : isNameStart c = true)
    (hdigit : Numeral.isDigit c = false) : lexeme p c cs = .ok (wordLexeme p (c :: cs)) := by
  have hne (d : Char) (hd : d ∈ [' ', '\t', '#', '\n', '\r', '"']) : c ≠ d :=
    ne_of_test hc (not_isNameStart hd)
  have hspace : isSpace c = false := by simp [isSpace, hne]
  simp only [lexeme, hspace, hne '#' (by decide), hne '\n' (by decide), hne '\r' (by decide),
    hne '"' (by decide), hdigit, hc, if_false, if_true, Bool.false_eq_true]

theorem isNameStart_not_digit {c : Char} (hc : isNameStart c = true) :
    Numeral.isDigit c = false := by
  have hunderscore : '_'.toNat = 95 := rfl
  simp only [isNameStart, Numeral.isDigit, Bool.or_eq_true, Bool.and_eq_true, decide_eq_true_eq,
    Bool.and_eq_false_iff, decide_eq_false_iff_not, Char.le_def, UInt32.le_iff_toNat_le] at hc ⊢
  rcases hc with (rfl | ⟨hlow, -⟩) | ⟨hlow, -⟩
  · decide
  · right
    exact Nat.not_le.mpr (Nat.lt_of_lt_of_le (by decide) hlow)
  · right
    exact Nat.not_le.mpr (Nat.lt_of_lt_of_le (by decide) hlow)

theorem ofWord_eq (w : String) :
    Kind.ofWord w = .name ∨ (w, Kind.ofWord w) ∈ Kind.reserved := by
  unfold Kind.ofWord
  cases h : Kind.reserved.lookup w with
  | none => exact .inl rfl
  | some k =>
    obtain ⟨l₁, l₂, heq, -⟩ := List.lookup_eq_some_iff.mp h
    refine .inr ?_
    rw [heq]
    exact List.mem_append_right _ (List.mem_cons_self ..)

theorem isWord_of_ofWord {w : String} (h : Kind.ofWord w ≠ .name) : IsWord w := by
  have hall : Kind.reserved.all (fun p => p.1.toList.head?.any isNameStart &&
      p.1.toList.tail.all isNamePart) = true := by decide
  have hw : (w.toList.head?.any isNameStart && w.toList.tail.all isNamePart) = true :=
    List.all_eq_true.mp hall _ ((ofWord_eq w).resolve_left h)
  cases hcs : w.toList with
  | nil =>
    rw [hcs] at hw
    cases hw
  | cons c cs =>
    rw [hcs] at hw
    obtain ⟨hc, hpart⟩ := Bool.and_eq_true_iff.mp hw
    exact ⟨c, cs, hcs, hc, List.all_eq_true.mp hpart⟩

/-- A word is of no kind but those of names and reserved words. -/
theorem ofWord_ne {k : Kind} (hname : k ≠ .name) (hreserved : ∀ p ∈ Kind.reserved, p.2 ≠ k)
    (w : String) : Kind.ofWord w ≠ k := by
  rcases ofWord_eq w with h | h
  · exact h ▸ hname.symm
  · exact hreserved _ h

theorem ofWord_ne_comment (w : String) : Kind.ofWord w ≠ .comment :=
  ofWord_ne (by decide) (by decide) w

theorem reads_word {w : String} (hw : IsWord w) :
    Reads endsWord w (IsToken (Kind.ofWord w) (.text w)) := by
  obtain ⟨c, cs, hcs, hc, hpart⟩ := hw
  apply Reads.of_lexeme hcs
  intro p rest hrest
  have hall : ∀ d ∈ c :: cs, isNamePart d = true := by
    refine List.forall_mem_cons.mpr ⟨?_, hpart⟩
    rw [isNamePart, hc, Bool.true_or]
  have hfollow : Follows (fun d => !isNamePart d) rest := by
    cases rest with
    | nil => trivial
    | cons d rest =>
      simp only [Follows, endsWord, Bool.and_eq_true] at hrest
      exact hrest.1
  obtain ⟨htake, hdrop⟩ := takeWhile_word hall hfollow
  rw [lexeme_word hc (isNameStart_not_digit hc), ← List.cons_append, wordLexeme, htake, hdrop,
    ← hcs, String.ofList_toList]
  exact ⟨_, _, rfl, ofWord_ne_comment w, _, rfl, rfl, rfl⟩

/-! ## Symbols -/

theorem lexeme_symbol {p : Position} {c : Char} {cs rest : List Char} {k : Kind}
    (h : (c :: cs, k) ∈ symbols) : lexeme p c rest = symbolLexeme p c rest := by
  have hall : symbols.all (fun s => s.1.head?.all fun d => !isSpace d && d ≠ '#' && d ≠ '\n' &&
      d ≠ '\r' && d ≠ '"' && !Numeral.isDigit d && !isNameStart d) = true := by decide
  obtain ⟨⟨⟨⟨⟨⟨hspace, hhash⟩, hnl⟩, hcr⟩, hquote⟩, hdigit⟩, hname⟩ := by
    simpa using List.all_eq_true.mp hall _ h
  simp only [lexeme, hspace, hhash, hnl, hcr, hquote, hdigit, hname, if_false, Bool.false_eq_true]

/-- The symbols that go on where another one ends do so with an equals sign. -/
theorem symbol_longer {cs ds : List Char} {j k : Kind} (hcs : (cs, k) ∈ symbols)
    (hds : (cs ++ ds, j) ∈ symbols) : ds = [] ∨ ds.head? = some '=' := by
  have hall : ∀ s ∈ symbols, ∀ r ∈ symbols, s.1 <+: r.1 →
      r.1.drop s.1.length = [] ∨ (r.1.drop s.1.length).head? = some '=' := by decide
  have hlonger := hall _ hcs _ hds (List.prefix_append ..)
  rwa [List.drop_left] at hlonger

theorem symbol?_append {cs rest : List Char} {k : Kind} (h : (cs, k) ∈ symbols)
    (hrest : Follows endsSymbol rest) : symbol? (cs ++ rest) = some (cs, k) := by
  have hself : ∀ s ∈ symbols, symbol? s.1 = some s := by decide
  obtain ⟨-, before, after, heq, hbefore⟩ := List.find?_eq_some_iff_append.mp (hself _ h)
  apply List.find?_eq_some_iff_append.mpr
  constructor
  · exact List.isPrefixOf_iff_prefix.mpr (List.prefix_append ..)
  refine ⟨before, after, heq, fun s hs => ?_⟩
  have hshorter : ¬s.1 <+: cs := by
    intro hprefix
    have hfound := hbefore s hs
    rw [List.isPrefixOf_iff_prefix.mpr hprefix] at hfound
    cases hfound
  rw [Bool.not_eq_true', Bool.eq_false_iff, Ne, List.isPrefixOf_iff_prefix]
  intro hprefix
  -- A symbol tried before that matches is a longer one, whose next character is not there.
  obtain ⟨ds, hds⟩ := (List.prefix_or_prefix_of_prefix hprefix
    (List.prefix_append cs rest)).resolve_left hshorter
  have hmem : (cs ++ ds, s.2) ∈ symbols := by
    rw [hds, heq]
    exact List.mem_append_left _ hs
  rw [← hds] at hshorter hprefix
  rcases symbol_longer h hmem with rfl | hhead
  · exact hshorter (by rw [List.append_nil])
  · obtain ⟨ds, rfl⟩ := List.head?_eq_some_iff.mp hhead
    obtain ⟨es, rfl, -⟩ :=
      List.cons_prefix_iff.mp ((List.prefix_append_right_inj cs).mp hprefix)
    simp [Follows, endsSymbol] at hrest

theorem reads_symbol {s : String} {k : Kind} (h : (s.toList, k) ∈ symbols) :
    Reads endsSymbol s (IsToken k (.text s)) := by
  have hne : ∀ s ∈ symbols, s.1 ≠ [] ∧ s.2 ≠ .comment := by decide
  have hk : k ≠ .comment := (hne _ h).2
  obtain ⟨c, cs, hcs⟩ : ∃ c cs, s.toList = c :: cs := List.exists_cons_of_ne_nil (hne _ h).1
  apply Reads.of_lexeme hcs
  intro p rest hrest
  have hfind := symbol?_append h hrest
  rw [hcs] at h
  rw [hcs, List.cons_append] at hfind
  have hdrop : (c :: (cs ++ rest)).drop (c :: cs).length = rest := by
    rw [← List.cons_append, List.drop_left]
  have htext : String.ofList (c :: cs) = s := by rw [← hcs, String.ofList_toList]
  rw [lexeme_symbol h, symbolLexeme, hfind]
  simp only [hdrop, htext]
  exact ⟨_, _, rfl, hk, _, rfl, rfl, rfl⟩

/-! ## Numbers -/

theorem numberText_digits {ds : List Char} (hds : ∀ c ∈ ds, Numeral.isDigit c = true)
    (cs : List Char) : numberText (ds ++ cs) = ds ++ numberText cs := by
  induction ds with
  | nil => rfl
  | cons c ds ih =>
    obtain ⟨hc, hds⟩ := List.forall_mem_cons.mp hds
    have hrest := ih hds
    rw [List.cons_append]
    generalize ds ++ cs = es at hrest ⊢
    cases es with
    | nil =>
      rw [numberText, if_pos hc, List.cons_append, ← hrest]
      rfl
    | cons e es =>
      rw [numberText, if_pos (by rw [hc, Bool.true_or]), List.cons_append, ← hrest]

theorem numberText_end {rest : List Char} (hrest : Follows endsWord rest) :
    numberText rest = [] := by
  cases rest with
  | nil => rfl
  | cons c rest =>
    simp only [Follows, endsWord, isNamePart, Bool.and_eq_true, Bool.not_eq_true',
      Bool.or_eq_false_iff, decide_eq_true_eq] at hrest
    obtain ⟨⟨-, hdigit⟩, hpoint⟩ := hrest
    cases rest with
    | nil => simp [numberText, hdigit]
    | cons d rest => simp [numberText, hdigit, hpoint]

theorem lexeme_number {p : Position} {c : Char} {cs : List Char} (hc : Numeral.isDigit c = true) :
    lexeme p c cs = numberLexeme p (c :: cs) := by
  have hne (d : Char) (hd : Numeral.isDigit d = false) : c ≠ d := ne_of_test hc hd
  have hspace : isSpace c = false := by simp [isSpace, hne ' ' rfl, hne '\t' rfl]
  simp only [lexeme, hspace, hne '#' rfl, hne '\n' rfl, hne '\r' rfl, hne '"' rfl, hc, if_false,
    if_true, Bool.false_eq_true]

/-- A text that is taken as a number as a whole, and its datum. -/
theorem reads_number {cs : List Char} {d : Datum} (hne : cs ≠ [])
    (hhead : ∀ c ∈ cs.head?, Numeral.isDigit c = true)
    (htext : ∀ rest, Follows endsWord rest → numberText (cs ++ rest) = cs)
    (hdatum : ∀ p, numberDatum p cs = .ok d) :
    Reads endsWord (String.ofList cs) (IsToken .number d) := by
  obtain ⟨c, cs, rfl⟩ := List.exists_cons_of_ne_nil hne
  apply Reads.of_lexeme String.toList_ofList
  intro p rest hrest
  have htake := htext rest hrest
  rw [List.cons_append] at htake
  have hdrop : (c :: (cs ++ rest)).drop (c :: cs).length = rest := by
    rw [← List.cons_append, List.drop_left]
  rw [lexeme_number (hhead c rfl), numberLexeme, htake, hdatum]
  simp only [Except.map, hdrop]
  exact ⟨_, _, rfl, nofun, _, rfl, rfl, rfl⟩

theorem count_point_digits {ds : List Char} (hds : ∀ c ∈ ds, Numeral.isDigit c = true) :
    ds.count '.' = 0 := by
  apply List.count_eq_zero.mpr
  intro hmem
  exact absurd (hds _ hmem) (by decide)

theorem reads_integer {n : Nat} (hn : n < 10 ^ Numeral.maxLength) :
    Reads endsWord (String.ofList (Numeral.digits n)) (IsToken .number (.int n)) := by
  have hdigits : ∀ c ∈ Numeral.digits n, Numeral.isDigit c = true :=
    fun _ => Numeral.isDigit_of_mem_digits
  have hlength : ¬Numeral.maxLength < (Numeral.digits n).length :=
    Nat.not_lt.mpr ((Numeral.length_digits_le (by decide)).mpr hn)
  refine reads_number Nat.toDigits_ne_nil (fun c hc => hdigits c (List.mem_of_head? hc)) ?_ ?_
  · intro rest hrest
    rw [numberText_digits hdigits, numberText_end hrest, List.append_nil]
  · intro p
    rw [numberDatum, count_point_digits hdigits]
    simp only [if_neg hlength, Numeral.ofDigits_digits]

theorem reads_decimal {text : List Char} {d : Decimal} (h : d.Spells text) :
    Reads endsWord (String.ofList text) (IsToken .number (.float (d.toBinary64 false))) := by
  obtain ⟨whole, fraction, rfl, hwhole, hfraction, hdigits, rfl⟩ := h
  obtain ⟨hw, hf⟩ := List.forall_mem_append.mp hdigits
  have hpoint : ∀ c, Numeral.isDigit c = true → (c ≠ '.') := fun c hc => ne_of_test hc rfl
  refine reads_number (by simp) ?_ ?_ ?_
  · obtain ⟨c, whole, rfl⟩ := List.exists_cons_of_ne_nil hwhole
    rintro _ ⟨⟩
    exact hw c (List.mem_cons_self ..)
  · intro rest hrest
    obtain ⟨c, fraction, rfl⟩ := List.exists_cons_of_ne_nil hfraction
    have hc := hf c (List.mem_cons_self ..)
    rw [List.append_assoc, numberText_digits hw, List.cons_append, List.cons_append, numberText,
      if_pos (by simp [hc]), ← List.cons_append, numberText_digits hf, numberText_end hrest,
      List.append_nil]
  · intro p
    have hcount : (whole ++ '.' :: fraction).count '.' = 1 := by
      rw [List.count_append, count_point_digits hw, List.count_cons_self, count_point_digits hf]
    have hdrop : (whole ++ '.' :: fraction).dropWhile (· ≠ '.') = '.' :: fraction := by
      rw [List.dropWhile_append_of_pos fun c hc => by simpa using hpoint c (hw c hc)]
      simp
    have hfilter : (whole ++ '.' :: fraction).filter (· ≠ '.') = whole ++ fraction := by
      have hkeep {ds : List Char} (hds : ∀ c ∈ ds, Numeral.isDigit c = true) :
          ds.filter (· ≠ '.') = ds :=
        List.filter_eq_self.mpr fun c hc => by simpa using hpoint c (hds c hc)
      rw [List.filter_append, hkeep hw, List.filter_cons_of_neg (by simp), hkeep hf]
    rw [numberDatum, hcount]
    simp only [hdrop, hfilter, List.drop_one, List.tail_cons]

theorem reads_float {m : Nat} {q : Int} (h : Canonical m q) :
    Reads endsWord (String.ofList (Binary64.positionalText false m q))
      (IsToken .number (.float (.finite false m q h))) := by
  obtain ⟨d, hspells, hd⟩ := Binary64.positionalText_spells h
  have hreads := reads_decimal hspells
  rwa [hd] at hreads

/-! ## Strings -/

theorem stringBody_escape (opened : Nat) (c : Char) (p : Position) (cs : List Char) :
    ∃ q text, stringBody opened p (Text.escape c ++ cs) =
      (stringBody opened q cs).map (.push [c] text) := by
  unfold Text.escape
  split
  case h_7 hslash hquote hnl _ _ _ =>
    refine ⟨p.right 1, [c], ?_⟩
    rw [List.singleton_append, stringBody, if_neg hnl]
    · exact hquote
    · exact fun h _ => hslash h
    · exact fun _ _ h _ => hslash h
  all_goals exact ⟨_, _, rfl⟩

theorem stringBody_quoted (opened : Nat) (p : Position) (cs rest : List Char) :
    ∃ b, stringBody opened p (cs.flatMap Text.escape ++ '"' :: rest) = .ok b ∧ b.value = cs ∧
      b.rest = rest := by
  induction cs generalizing p with
  | nil => exact ⟨_, rfl, rfl, rfl⟩
  | cons c cs ih =>
    obtain ⟨q, text, hescape⟩ := stringBody_escape opened c p
      (cs.flatMap Text.escape ++ '"' :: rest)
    obtain ⟨b, hb, rfl, hrest⟩ := ih q
    rw [List.flatMap_cons, List.append_assoc, hescape, hb]
    exact ⟨_, rfl, rfl, hrest⟩

theorem reads_string (s : String) : Reads (fun _ => true)
    (String.ofList (Text.quoted s.toList)) (IsToken .string (.text s)) := by
  apply Reads.of_lexeme String.toList_ofList
  intro p rest _
  obtain ⟨b, hb, hvalue, hrest⟩ := stringBody_quoted p.line (p.right 1) s.toList rest
  have hl : lexeme p '"' (s.toList.flatMap Text.escape ++ ['"'] ++ rest) =
      stringLexeme p (s.toList.flatMap Text.escape ++ '"' :: rest) := by
    rw [List.append_assoc, List.singleton_append]
    rfl
  rw [hl, stringLexeme, hb]
  simp only [Except.map, hvalue, hrest, String.ofList_toList]
  exact ⟨_, _, rfl, nofun, _, rfl, rfl, rfl⟩

end ScopeScript.Lexer
