import ScopeScript.Proofs.Node.WellFormed

/-!
# The tokens of a text

Every token that a text is cut into has a datum that fits its kind: numerals
are short and not negative, names are not reserved, symbols are spelled as in
the table.
-/

namespace ScopeScript

namespace Binary64

/-- What a numeral with a point can stand for: it has no sign, but it may be too large. -/
def IsLiteral (x : Binary64) : Prop := x.IsUnsigned ∨ x = .infinite false

theorem isLiteral_pack (m : Nat) (q : Int) : (pack false m q).IsLiteral := by
  simp only [pack]
  generalize (if m = 2 ^ 53 then 2 ^ 52 else m) = m', (if m = 2 ^ 53 then q + 1 else q) = q'
  by_cases h : Canonical m' q'
  · exact .inl ⟨m', q', h, dif_pos h⟩
  · exact .inr (dif_neg h)

theorem isLiteral_round (n d : Nat) : (round false n d).IsLiteral := by
  unfold round
  split
  · exact .inl ⟨_, _, _, rfl⟩
  · exact isLiteral_pack _ _

end Binary64

namespace Numeral

theorem digitValue_lt {c : Char} (h : isDigit c = true) : digitValue c < 10 := by
  simp only [isDigit, Bool.and_eq_true, decide_eq_true_eq, Char.le_def,
    UInt32.le_iff_toNat_le] at h
  have hnine : '9'.val.toNat = 57 := rfl
  have hzero : '0'.toNat = 48 := rfl
  have hc : c.toNat = c.val.toNat := rfl
  unfold digitValue
  omega

theorem ofDigits_lt {cs : List Char} (h : ∀ c ∈ cs, isDigit c = true) :
    ofDigits cs < 10 ^ cs.length := by
  induction cs using List.reverseRecOn with
  | nil => decide
  | append_singleton cs c ih =>
    obtain ⟨hcs, hc⟩ := List.forall_mem_append.mp h
    have hlt := ih hcs
    have hvalue := digitValue_lt (hc c (List.mem_cons_self ..))
    have hone : ofDigits [c] = digitValue c := by simp [ofDigits]
    rw [ofDigits_append, hone, List.length_append, List.length_singleton, pow_one, Nat.pow_succ]
    omega

end Numeral

def Datum.IsNumeral (d : Datum) : Prop :=
  (∃ i : Nat, i < 10 ^ Numeral.maxLength ∧ d = .int i) ∨ ∃ x : Binary64, x.IsLiteral ∧ d = .float x

namespace Token

structure Regular (t : Token) : Prop where
  number : t.kind = .number → t.datum.IsNumeral
  string : t.kind = .string → ∃ s, t.datum = .text s
  name : t.kind = .name → ∃ w, t.datum = .text w ∧ IsName w
  word : t.kind = .letWord → t.datum = .text "let"
  symbol : t.kind ∈ Lexer.symbols.map Prod.snd → t.kind = .conjunction ∨ t.kind = .disjunction ∨
    ∃ s : String, t.datum = .text s ∧ (s.toList, t.kind) ∈ Lexer.symbols

theorem Regular.spells {t : Token} (h : t.Regular) (hk : t.kind ∈ Lexer.symbols.map Prod.snd) :
    (Leaf.ofOperator t).Spells t.kind := by
  unfold Leaf.ofOperator
  split
  next hk => exact ⟨rfl, by rw [hk]; decide⟩
  next hk => exact ⟨rfl, by rw [hk]; decide⟩
  next hconjunction hdisjunction =>
    rcases h.symbol hk with hk | hk | ⟨s, hs, hmem⟩
    · exact absurd hk hconjunction
    · exact absurd hk hdisjunction
    · rw [hs]
      exact ⟨rfl, hmem⟩

/-- A token whose kind is neither that of a literal or a word nor that of a symbol. -/
theorem Regular.of_kind {t : Token} {k : Kind} (ht : t.kind = k)
    (h : k ∉ [.number, .string, .name, .letWord]) (hsymbol : k ∉ Lexer.symbols.map Prod.snd) :
    t.Regular where
  number hk := absurd (by rw [← ht, hk]; decide) h
  string hk := absurd (by rw [← ht, hk]; decide) h
  name hk := absurd (by rw [← ht, hk]; decide) h
  word hk := absurd (by rw [← ht, hk]; decide) h
  symbol hk := absurd (ht ▸ hk) hsymbol

end Token

namespace Lexer

theorem mem_numberText {cs : List Char} {c : Char} (h : c ∈ numberText cs) :
    Numeral.isDigit c = true ∨ c = '.' := by
  fun_induction numberText cs with
  | case1 => cases h
  | case2 d hd =>
    rw [List.mem_singleton.mp h]
    exact .inl hd
  | case3 => cases h
  | case4 d e cs hd ih =>
    rcases List.mem_cons.mp h with rfl | h
    · rcases Bool.or_eq_true_iff.mp hd with hd | hd
      · exact .inl hd
      · exact .inr (by simpa using (Bool.and_eq_true_iff.mp hd).1)
    · exact ih h
  | case5 => cases h

theorem isNumeral_numberDatum {p : Position} {cs : List Char} {d : Datum}
    (h : numberDatum p (numberText cs) = .ok d) : d.IsNumeral := by
  unfold numberDatum at h
  split at h
  next hcount =>
    split at h
    · cases h
    next hlength =>
      cases h
      have hdigits : ∀ c ∈ numberText cs, Numeral.isDigit c = true := by
        intro c hc
        apply (mem_numberText hc).resolve_right
        rintro rfl
        exact List.count_eq_zero.mp hcount hc
      refine .inl ⟨_, ?_, rfl⟩
      exact Nat.lt_of_lt_of_le (Numeral.ofDigits_lt hdigits)
        (Nat.pow_le_pow_right (by decide) (Nat.le_of_not_lt hlength))
  next =>
    cases h
    exact .inr ⟨_, Binary64.isLiteral_round _ _, rfl⟩
  next => cases h

theorem regular_word {p : Position} {c : Char} {cs : List Char} (hc : isNameStart c = true)
    {t : Token} (ht : (wordLexeme p (c :: cs)).token? = some t) : t.Regular := by
  cases ht
  have hnone : ∀ w : String, Kind.ofWord w ≠ .number ∧ Kind.ofWord w ≠ .string ∧
      (Kind.ofWord w = .letWord → w = "let") ∧ (Kind.ofWord w ∈ symbols.map Prod.snd →
        Kind.ofWord w = .conjunction ∨ Kind.ofWord w = .disjunction) := by
    have hreserved : ∀ p ∈ Kind.reserved, p.2 ≠ .number ∧ p.2 ≠ .string ∧
        (p.2 = .letWord → p.1 = "let") ∧ (p.2 ∈ symbols.map Prod.snd →
          p.2 = .conjunction ∨ p.2 = .disjunction) := by decide
    intro w
    rcases ofWord_eq w with hw | hw
    · rw [hw]
      exact ⟨nofun, nofun, nofun, fun h => absurd h (by decide)⟩
    · exact hreserved _ hw
  obtain ⟨hnumber, hstring, hlet, hsymbol⟩ :=
    hnone (String.ofList ((c :: cs).takeWhile isNamePart))
  refine ⟨fun hk => absurd hk hnumber, fun hk => absurd hk hstring, fun hk => ⟨_, rfl, ?_, hk⟩,
    fun hk => congrArg Datum.text (hlet hk), fun hk => (hsymbol hk).imp_right .inl⟩
  have hpart : isNamePart c = true := by rw [isNamePart, hc, Bool.true_or]
  refine ⟨c, cs.takeWhile isNamePart, ?_, hc, fun d hd => List.mem_takeWhile_imp hd⟩
  rw [String.toList_ofList, List.takeWhile_cons_of_pos hpart]

theorem regular_symbol {p : Position} {c : Char} {cs : List Char} {l : Lexeme} {t : Token}
    (h : symbolLexeme p c cs = .ok l) (ht : l.token? = some t) : t.Regular := by
  unfold symbolLexeme at h
  split at h
  next text kind hfind =>
    cases h
    cases ht
    have hmem : (text, kind) ∈ symbols := List.mem_of_find?_eq_some hfind
    have hkind : ∀ s ∈ symbols, s.2 ≠ .number ∧ s.2 ≠ .string ∧ s.2 ≠ .name ∧ s.2 ≠ .letWord := by
      decide
    obtain ⟨hnumber, hstring, hname, hlet⟩ := hkind _ hmem
    refine ⟨fun hk => absurd hk hnumber, fun hk => absurd hk hstring, fun hk => absurd hk hname,
      fun hk => absurd hk hlet, fun _ => .inr (.inr ⟨_, rfl, ?_⟩)⟩
    rw [String.toList_ofList]
    exact hmem
  next => cases h

theorem regular_lexeme {p : Position} {c : Char} {cs : List Char} {l : Lexeme} {t : Token}
    (h : lexeme p c cs = .ok l) (ht : l.token? = some t) : t.Regular := by
  unfold lexeme at h
  split at h
  next =>
    cases h
    cases ht
  split at h
  next =>
    cases h
    cases ht
    exact .of_kind (k := .comment) rfl (by decide) (by decide)
  split at h
  next =>
    cases h
    cases ht
    exact .of_kind (k := .newline) rfl (by decide) (by decide)
  split at h
  next =>
    split at h <;> cases h <;> cases ht <;>
      exact .of_kind (k := .newline) rfl (by decide) (by decide)
  split at h
  next =>
    obtain ⟨b, -, rfl⟩ := Fault.map_eq_ok_iff.mp h
    cases ht
    have hnot : Kind.string ∉ symbols.map Prod.snd := by decide
    exact ⟨nofun, fun _ => ⟨_, rfl⟩, nofun, nofun, fun hk => absurd hk hnot⟩
  split at h
  next =>
    obtain ⟨d, hd, rfl⟩ := Fault.map_eq_ok_iff.mp h
    cases ht
    have hnot : Kind.number ∉ symbols.map Prod.snd := by decide
    exact ⟨fun _ => isNumeral_numberDatum hd, nofun, nofun, nofun, fun hk => absurd hk hnot⟩
  split at h
  next hc =>
    cases h
    exact regular_word hc ht
  next => exact regular_symbol h ht

theorem regular_of_cuts {p : Position} {cs : List Char} {ts : List Token} (h : Cuts p cs ts) :
    ∀ t ∈ ts, t.Regular := by
  induction h with
  | done =>
    intro t ht
    rw [List.mem_singleton.mp ht]
    exact .of_kind (k := .endOfInput) rfl (by decide) (by decide)
  | @next p c cs l ts hl _ ih =>
    intro t ht
    rcases List.mem_append.mp ht with ht | ht
    · exact regular_lexeme hl (Option.mem_toList.mp ht)
    · exact ih t ht

theorem regular_of_tokenize {cs : List Char} {ts : List Token} (h : tokenize cs = .ok ts) :
    ∀ t ∈ ts, t.Regular := by
  obtain ⟨us, hcuts, rfl⟩ := tokenize_eq_ok_iff.mp h
  exact fun t ht => regular_of_cuts hcuts t (List.mem_of_mem_filter ht)

end Lexer

end ScopeScript
