import ScopeScript.Session
import ScopeScript.Proofs.Lexer.Places
import ScopeScript.Proofs.Parser.Exact

/-!
# Programs and commands

A command begins with a slash, maybe behind blanks. No statement begins with
one, so a text that can be read as a program is not a command.
-/

namespace ScopeScript

open Token (AllNewlines AllSeparators)

/-! ## The first token of a program -/

variable {p : Position} {c : Char} {cs ds : List Char} {l : Lexer.Lexeme} {ts us : List Token}
  {nesting : Nat} {n : Node} {t : Token}

/-- Behind separators a program begins with a statement or ends. -/
theorem Parser.first_of_program (h : program nesting ts = .ok n)
    (hts : ts.dropWhile Token.isSeparator = t :: us) :
    t.kind = .endOfInput ∨ t.kind.beginsStatement = true := by
  obtain ⟨e, vs, ns, rfl, hend, -, hderives⟩ := derives_of_program h
  cases hderives with
  | noStatements _ hss =>
    rw [List.dropWhile_append_of_pos hss.isSeparator] at hts
    cases vs with
    | nil => cases hts
    | cons v vs =>
      have hstop : v.kind = .endOfInput := hend
      rw [List.dropWhile_cons_of_neg (by rw [Token.isSeparator, hstop]; decide)] at hts
      cases hts
      exact .inl hstop
  | moreStatements hss hstatement _ =>
    have hbegins := hstatement.begins_statement
    rw [List.append_assoc, List.dropWhile_append_of_pos hss.isSeparator, List.cons_append,
      List.dropWhile_cons_of_neg (Kind.beginsStatement_isSeparator hbegins)] at hts
    cases hts
    exact .inr hbegins

/-! ## A slash behind blanks -/

namespace Lexer

theorem isBlank_of_isSpace (h : isSpace c = true) : Text.isBlank c = true := by
  simp only [isSpace, Bool.or_eq_true, decide_eq_true_eq] at h
  rcases h with rfl | rfl <;> rfl

theorem isNamePart_blank (hc : Text.isBlank c = true) : isNamePart c = false := by
  by_contra hpart
  simp only [Bool.not_eq_false, isNamePart, isNameStart, Numeral.isDigit, Bool.or_eq_true,
    Bool.and_eq_true, decide_eq_true_eq, Char.le_def, UInt32.le_iff_toNat_le] at hpart
  simp only [Text.isBlank, Bool.or_eq_true, Bool.and_eq_true, decide_eq_true_eq, beq_iff_eq] at hc
  have hval : c.val.toNat = c.toNat := rfl
  rw [hval] at hpart
  rcases hpart with ((rfl | hlower) | hupper) | hdigit
  · exact absurd hc (by decide)
  · change 97 ≤ c.toNat ∧ c.toNat ≤ 122 at hlower
    omega
  · change 65 ≤ c.toNat ∧ c.toNat ≤ 90 at hupper
    omega
  · change 48 ≤ c.toNat ∧ c.toNat ≤ 57 at hdigit
    omega

/-- A symbol does not begin with a blank. -/
theorem symbol?_blank (hc : Text.isBlank c = true) (cs : List Char) : symbol? (c :: cs) = none := by
  have hall : ∀ s ∈ symbols, s.1 ≠ [] ∧ Text.isBlank (s.1.headD 'a') = false := by decide
  refine List.find?_eq_none.mpr fun s hs hprefix => ?_
  obtain ⟨hne, hblank⟩ := hall s hs
  obtain ⟨d, ds, hd⟩ := List.exists_cons_of_ne_nil hne
  rw [hd] at hprefix hblank
  rw [List.isPrefixOf_cons_cons, Bool.and_eq_true, beq_iff_eq] at hprefix
  rw [List.headD_cons, hprefix.1, hc] at hblank
  cases hblank

/-- A lexeme that begins with a blank takes blanks only, and is a gap or a line end. -/
theorem lexeme_blank (h : lexeme p c cs = .ok l) (hc : Text.isBlank c = true) :
    AllNewlines l.token?.toList ∧ ∃ text, Text.allBlank text = true ∧ c :: cs = text ++ l.rest := by
  have hne (d : Char) (hd : Text.isBlank d = false) : c ≠ d := by
    rintro rfl
    exact absurd (hc.symm.trans hd) nofun
  have hnewline {text rest : List Char} :
      AllNewlines (newlineLexeme p text rest).token?.toList := by
    intro t ht
    rw [List.mem_singleton.mp ht]
  unfold lexeme at h
  split at h
  next =>
    cases h
    refine ⟨List.forall_mem_nil _, (c :: cs).takeWhile isSpace, ?_,
      List.takeWhile_append_dropWhile.symm⟩
    exact List.all_eq_true.mpr fun d hd => isBlank_of_isSpace (List.mem_takeWhile_imp hd)
  rw [if_neg (hne '#' rfl)] at h
  split at h
  next hfeed =>
    cases h
    exact ⟨hnewline, ['\n'], rfl, by rw [hfeed]; rfl⟩
  split at h
  next hreturn =>
    split at h <;> cases h
    · exact ⟨hnewline, ['\r', '\n'], rfl, by rw [hreturn]; rfl⟩
    · exact ⟨hnewline, ['\r'], rfl, by rw [hreturn]; rfl⟩
  have hpart := isNamePart_blank hc
  rw [isNamePart, Bool.or_eq_false_iff] at hpart
  rw [if_neg (hne '"' rfl), hpart.1, hpart.2, if_neg Bool.false_ne_true,
    if_neg Bool.false_ne_true, symbolLexeme, symbol?_blank hc] at h
  cases h

theorem lexeme_slash (p : Position) (cs : List Char) :
    ∃ l t, lexeme p '/' cs = .ok l ∧ l.token? = some t ∧ t.kind = .slash :=
  ⟨_, _, rfl, rfl, rfl⟩

/-- What is read from blanks in front of a slash: line ends and then the slash. -/
theorem Cuts.slash {bs : List Char} (h : Cuts p (bs ++ '/' :: ds) ts)
    (hbs : Text.allBlank bs = true) :
    ∃ ns t us, ts = ns ++ t :: us ∧ AllNewlines ns ∧ t.kind = .slash := by
  generalize hcs : bs ++ '/' :: ds = cs at h
  induction h generalizing bs with
  | done => exact absurd hcs (by simp)
  | @next p c cs l ts hl _ ih =>
    cases bs with
    | nil =>
      cases hcs
      obtain ⟨l', t, hl', ht, hkind⟩ := lexeme_slash p ds
      cases hl'.symm.trans hl
      exact ⟨[], t, ts, by rw [ht]; rfl, List.forall_mem_nil _, hkind⟩
    | cons b bs =>
      cases hcs
      have hb := List.all_eq_true.mp hbs
      obtain ⟨hnewlines, text, htext, hrest⟩ := lexeme_blank hl (hb c List.mem_cons_self)
      -- The blanks that the lexeme takes end before the slash.
      have hshorter : ∃ bs', Text.allBlank bs' = true ∧ bs' ++ '/' :: ds = l.rest := by
        change (c :: bs) ++ '/' :: ds = text ++ l.rest at hrest
        rcases List.append_eq_append_iff.mp hrest with ⟨a, ha, hslash⟩ | ⟨a, ha, hrest⟩
        · cases a with
          | nil => exact ⟨[], rfl, hslash⟩
          | cons d a =>
            cases hslash
            rw [ha] at htext
            exact absurd (List.all_eq_true.mp htext '/' (by simp)) (by decide)
        · refine ⟨a, List.all_eq_true.mpr fun d hd => hb d ?_, hrest.symm⟩
          rw [ha]
          exact List.mem_append_right _ hd
      obtain ⟨bs', hbs', heq⟩ := hshorter
      obtain ⟨ns, t, us, rfl, hns, ht⟩ := ih hbs' heq
      exact ⟨_ ++ ns, t, us, (List.append_assoc ..).symm,
        List.forall_mem_append.mpr ⟨hnewlines, hns⟩, ht⟩

end Lexer

/-! ## Commands -/

theorem Text.strip_head (h : (Text.strip cs).head? = some c) :
    ∃ bs ds, cs = bs ++ c :: ds ∧ Text.allBlank bs = true := by
  obtain ⟨ds, hds⟩ := List.head?_eq_some_iff.mp h
  have hrest : cs.dropWhile Text.isBlank =
      c :: ds ++ ((cs.dropWhile Text.isBlank).reverse.takeWhile Text.isBlank).reverse := by
    rw [← hds, Text.strip, ← List.reverse_append, List.takeWhile_append_dropWhile,
      List.reverse_reverse]
  have hsplit : cs = cs.takeWhile Text.isBlank ++ cs.dropWhile Text.isBlank :=
    List.takeWhile_append_dropWhile.symm
  rw [hrest] at hsplit
  exact ⟨_, _, hsplit, List.all_eq_true.mpr fun _ => List.mem_takeWhile_imp⟩

theorem strip_of_parse (h : parse nesting cs = .ok n) : (Text.strip cs).head? ≠ some '/' := by
  intro hslash
  obtain ⟨bs, ds, rfl, hbs⟩ := Text.strip_head hslash
  obtain ⟨ts, hts, hn⟩ := Fault.bind_eq_ok_iff.mp h
  obtain ⟨ts, hcuts, rfl⟩ := Lexer.tokenize_eq_ok_iff.mp hts
  obtain ⟨ns, t, us, rfl, hns, ht⟩ := hcuts.slash hbs
  have hfirst : ((ns ++ t :: us).filter (·.kind ≠ .comment)).dropWhile Token.isSeparator =
      t :: us.filter (·.kind ≠ .comment) := by
    have hkept : ns.filter (·.kind ≠ .comment) = ns :=
      List.filter_eq_self.mpr fun t ht => by rw [hns t ht]; rfl
    have hseparate : ∀ t ∈ ns, t.isSeparator = true :=
      AllSeparators.isSeparator fun t ht => .inl (hns t ht)
    rw [List.filter_append, hkept, List.filter_cons_of_pos (by rw [ht]; rfl),
      List.dropWhile_append_of_pos hseparate,
      List.dropWhile_cons_of_neg (by rw [Token.isSeparator, ht]; decide)]
  rcases Parser.first_of_program hn hfirst with hk | hk <;> rw [ht] at hk <;> cases hk

/-- A program is handed on and not taken as a command. -/
theorem Session.command_of_parse (h : parse nesting cs = .ok n) (s : Session) :
    s.command cs = (false, s) := if_pos (strip_of_parse h)

end ScopeScript
