import ScopeScript.Proofs.Grammar.Assembly
import ScopeScript.Proofs.Lexer.Seam
import ScopeScript.Prompt

/-!
# Brackets at the prompt

The prompt counts brackets and does not compare their kinds; the grammar nests
them by kind. Whatever the grammar derives is nested properly, and on such
tokens the count comes back to where it began. So the prompt does not wait for
more of a program that can be read.
-/

namespace ScopeScript

/-- Each opening bracket is closed by one of its own kind, with nested tokens in between. -/
inductive Nested : List Token → Prop where
  | nil : Nested []
  | plain {t : Token} : t.kind.isBracket = false → Nested [t]
  | append {ts us : List Token} : Nested ts → Nested us → Nested (ts ++ us)
  | brackets {o c : Token} {ts : List Token} : o.kind.closer? = some c.kind → Nested ts →
    Nested (o :: (ts ++ [c]))

namespace Nested

variable {ts : List Token}

theorem assembly : Assembly Nested where
  nil := .nil
  plain ht := by
    rw [Kind.isPlain, Bool.and_eq_true, Bool.not_eq_true'] at ht
    exact .plain ht.1
  append hts hus := .append hts hus
  brackets h hts := .brackets h hts

/-- On nested tokens every bracket is met by another, so the count is what it was before. -/
theorem depth (h : Nested ts) (n : Nat) : ts.foldl (fun n t =>
    if t.kind.opens then n + 1 else if t.kind.closes then n - 1 else n) n = n := by
  induction h generalizing n with
  | nil => rfl
  | plain ht =>
    obtain ⟨hopens, hcloses⟩ := Bool.or_eq_false_iff.mp ht
    simp [hopens, hcloses]
  | append _ _ ih ih' => rw [List.foldl_append, ih, ih']
  | brackets h _ ih =>
    obtain ⟨hopens, hcloser, hcloses⟩ := Kind.closer?_eq_some h
    rw [List.foldl_cons, List.foldl_append, if_pos hopens, ih]
    simp [hcloser, hcloses]

end Nested

/-- The parser leaves nothing but the end of the input. -/
theorem Parser.program_nested {nesting : Nat} {ts : List Token} {stop : Token} {p : Node}
    (h : program nesting (ts ++ [stop]) = .ok p) (hts : ∀ t ∈ ts, t.kind ≠ .endOfInput)
    (hstop : stop.kind = .endOfInput) : Nested (ts ++ [stop]) := by
  obtain ⟨ns, -, hns⟩ := derives_of_whole h hts hstop
  exact .append (hns.keeps Nested.assembly) (.plain (by rw [hstop]; rfl))

/-! ## The prompt -/

namespace Prompt

variable {nesting : Nat} {cs : List Char} {p : Node}

theorem openDepth_of_nested {ts : List Token} (h : tokenize cs = .ok ts) (hts : Nested ts) :
    openDepth cs = .ok 0 := by
  rw [openDepth, h]
  exact congrArg Except.ok (hts.depth 0)

theorem openDepth_of_parse (h : parse nesting cs = .ok p) : openDepth cs = .ok 0 := by
  obtain ⟨ts, hts, hp⟩ := Fault.bind_eq_ok_iff.mp h
  obtain ⟨vs, stop, rfl, hstop, hvs⟩ := tokenize_ends hts
  exact openDepth_of_nested hts (Parser.program_nested hp hvs hstop)

/-- Without open brackets the prompt submits the text, or what stands before a blank line. -/
theorem enter_of_closed (h : openDepth cs = .ok 0) :
    enter cs = .ok (.submit cs) ∨ enter cs = .ok (.submit (unlines (Text.lines cs).dropLast)) := by
  unfold enter
  rw [h]
  by_cases hone : (Text.lines cs).length = 1
  · exact .inl (if_pos hone)
  dsimp only
  rw [if_neg hone]
  split
  · exact .inr rfl
  · exact .inl rfl

end Prompt

/-- The brackets of a program that can be read are nested by kind, so the prompt counts none
that is open, indents nothing and submits the text on enter. A text with open brackets is no
whole program. -/
theorem whole_programs_close_their_brackets :
    (∀ nesting cs p, parse nesting cs = .ok p →
      (∃ ts, tokenize cs = .ok ts ∧ Nested ts) ∧ Prompt.openDepth cs = .ok 0 ∧
      Prompt.indent cs = .ok [] ∧
      (Prompt.enter cs = .ok (.submit cs) ∨
        Prompt.enter cs = .ok (.submit (Prompt.unlines (Text.lines cs).dropLast)))) ∧
    ∀ nesting cs n p, Prompt.openDepth cs = .ok n → 0 < n → parse nesting cs ≠ .ok p := by
  constructor
  · intro nesting cs p h
    have hclosed := Prompt.openDepth_of_parse h
    obtain ⟨ts, hts, hp⟩ := Fault.bind_eq_ok_iff.mp h
    obtain ⟨vs, stop, rfl, hstop, hvs⟩ := tokenize_ends hts
    refine ⟨⟨_, hts, Parser.program_nested hp hvs hstop⟩, hclosed, ?_, Prompt.enter_of_closed hclosed⟩
    rw [Prompt.indent, hclosed]
    rfl
  · rintro nesting cs n p hopen hn h
    rw [Prompt.openDepth_of_parse h] at hopen
    cases hopen
    exact absurd hn (Nat.lt_irrefl 0)

/-- A function with an array in its body, and the same text without its last brace. -/
theorem closing_brace_completes_function : ∃ ts p,
    parse 30 "f = fn(a) \x7b\n[a][0] \x7d".toList = .ok p ∧
    tokenize "f = fn(a) \x7b\n[a][0] \x7d".toList = .ok ts ∧ Nested ts ∧
    ts.map (·.kind) = [.name, .assign, .fnWord, .openParen, .name, .closeParen, .openBrace,
      .newline, .openBracket, .name, .closeBracket, .openBracket, .number, .closeBracket,
      .closeBrace, .endOfInput] ∧
    Prompt.openDepth "f = fn(a) \x7b\n[a][0] ".toList = .ok 1 ∧
    ∀ q, parse 30 "f = fn(a) \x7b\n[a][0] ".toList ≠ .ok q := by
  have htokens : tokenize "f = fn(a) \x7b\n[a][0] \x7d".toList = .ok [
      ⟨.name, .text "f", 1, 1, ['f']⟩, ⟨.assign, .text "=", 1, 3, ['=']⟩,
      ⟨.fnWord, .text "fn", 1, 5, ['f', 'n']⟩, ⟨.openParen, .text "(", 1, 7, ['(']⟩,
      ⟨.name, .text "a", 1, 8, ['a']⟩, ⟨.closeParen, .text ")", 1, 9, [')']⟩,
      ⟨.openBrace, .text "\x7b", 1, 11, ['{']⟩, ⟨.newline, .text "\n", 1, 12, ['\n']⟩,
      ⟨.openBracket, .text "[", 2, 1, ['[']⟩, ⟨.name, .text "a", 2, 2, ['a']⟩,
      ⟨.closeBracket, .text "]", 2, 3, [']']⟩, ⟨.openBracket, .text "[", 2, 4, ['[']⟩,
      ⟨.number, .int 0, 2, 5, ['0']⟩, ⟨.closeBracket, .text "]", 2, 6, [']']⟩,
      ⟨.closeBrace, .text "\x7d", 2, 8, ['}']⟩, ⟨.endOfInput, .absent, 2, 9, []⟩] :=
    Fault.eq_ok_of_toOption (by decide +kernel)
  have hp : parse 30 "f = fn(a) \x7b\n[a][0] \x7d".toList = .ok (.block [.declaration
      (.leaf ⟨"IDENT", "f", some 1, some 1⟩) (.leaf ⟨"ASSIGN", "=", none, none⟩)
      (.function (.parameters [.leaf ⟨"IDENT", "a", some 1, some 8⟩] none)
        (.block [.expression (.index (.array [.leaf ⟨"IDENT", "a", some 2, some 2⟩] none)
          (.literal (.int 0) none) (some 2)) (some 2)] none) (some 1)) (some 1)] none) :=
    Fault.bind_eq_ok_iff.mpr ⟨_, htokens, rfl⟩
  have hopen : Prompt.openDepth "f = fn(a) \x7b\n[a][0] ".toList = .ok 1 :=
    Fault.eq_ok_of_toOption (by decide +kernel)
  obtain ⟨hwhole, hpart⟩ := whole_programs_close_their_brackets
  obtain ⟨⟨ts, hts, hnested⟩, -, -, -⟩ := hwhole _ _ _ hp
  obtain rfl := Except.ok.inj (htokens.symm.trans hts)
  exact ⟨_, _, hp, hts, hnested, rfl, hopen, fun q => hpart _ _ 1 q hopen (by decide)⟩

end ScopeScript
