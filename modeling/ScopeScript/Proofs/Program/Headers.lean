import ScopeScript.Proofs.Program.Loops

/-!
# The semicolons of a header

Inner brackets aside, the header of a `for` has the semicolon that ends its
initializer and the one that ends its test. A clause is a statement, though,
and in front of a statement separators are dropped: there more semicolons may
stand.
-/

namespace ScopeScript

open Token (AllSeparators headKind)

namespace Token

variable {ts us : List Token} {t : Token} {k depth : Nat}

/-- The semicolons outside of inner brackets, from inside of so many of them, up to the bracket
that closes the list. -/
def ownSemicolons : Nat → List Token → Nat
  | _, [] => 0
  | depth, t :: ts =>
    if t.kind.opens then ownSemicolons (depth + 1) ts
    else if t.kind.closes then if depth = 0 then 0 else ownSemicolons (depth - 1) ts
    else (if depth = 0 ∧ t.kind = .semicolon then 1 else 0) + ownSemicolons depth ts

/-- The semicolons among the separators that a list begins with. -/
def leadingSemicolons (ts : List Token) : Nat :=
  (ts.takeWhile isSeparator).countP (·.kind = .semicolon)

theorem ownSemicolons_of_plain (ht : t.kind.isPlain = true) :
    ownSemicolons depth (t :: us) =
      (if depth = 0 ∧ t.kind = .semicolon then 1 else 0) + ownSemicolons depth us := by
  rw [Kind.isPlain, Kind.isBracket, Bool.and_eq_true, Bool.not_eq_true', Bool.or_eq_false_iff] at ht
  rw [ownSemicolons, ht.1.1, ht.1.2]
  rfl

theorem ownSemicolons_semicolon (ht : t.kind = .semicolon) :
    ownSemicolons 0 (t :: us) = 1 + ownSemicolons 0 us := by
  rw [ownSemicolons_of_plain (by rw [ht]; rfl), if_pos ⟨rfl, ht⟩]

theorem ownSemicolons_closing (ht : t.kind = .closeParen) : ownSemicolons 0 (t :: us) = 0 := by
  rw [ownSemicolons, ht]
  rfl

theorem ownSemicolons_brackets {o c : Token} (h : o.kind.closer? = some c.kind)
    (hts : ∀ us, ownSemicolons (depth + 1) (ts ++ us) = ownSemicolons (depth + 1) us) :
    ownSemicolons depth (o :: (ts ++ c :: us)) = ownSemicolons depth us := by
  obtain ⟨hopens, hcloser, hcloses⟩ := Kind.closer?_eq_some h
  rw [ownSemicolons, if_pos hopens, hts, ownSemicolons, hcloser, if_pos hcloses]
  rfl

/-- Without semicolons outside of brackets tokens add none, and inside of brackets any tokens
add none. -/
theorem layers_ownSemicolons : Layers
    (fun ts => ∀ depth us, ownSemicolons depth (ts ++ us) = ownSemicolons depth us)
    (fun ts => ∀ depth us, ownSemicolons (depth + 1) (ts ++ us) = ownSemicolons (depth + 1) us)
    where
  loose h depth := h (depth + 1)
  nil _ _ := rfl
  plain ht hne depth us := by
    rw [List.singleton_append, ownSemicolons_of_plain ht, if_neg fun h => hne h.2, Nat.zero_add]
  semicolon ht depth us := by
    rw [List.singleton_append, ownSemicolons_of_plain (by rw [ht]; rfl), if_neg nofun,
      Nat.zero_add]
  append hts hus depth vs := by rw [List.append_assoc, hts, hus]
  appendLoose hts hus depth vs := by rw [List.append_assoc, hts, hus]
  brackets h hts depth us := by
    rw [List.cons_append, List.append_assoc]
    exact ownSemicolons_brackets h (hts depth)

theorem ownSemicolons_separators {ss : List Token} (hss : AllSeparators ss) :
    ownSemicolons 0 (ss ++ us) = ss.countP (·.kind = .semicolon) + ownSemicolons 0 us := by
  induction ss with
  | nil => exact (Nat.zero_add _).symm
  | cons s ss ih =>
    obtain ⟨hs, hss⟩ := List.forall_mem_cons.mp hss
    have hplain : s.kind.isPlain = true := by
      rcases hs with hs | hs <;> rw [hs] <;> rfl
    rw [List.cons_append, ownSemicolons_of_plain hplain, ih hss, List.countP_cons]
    simp only [true_and, decide_eq_true_eq]
    omega

end Token

open Token (ownSemicolons leadingSemicolons)

variable {ts us : List Token} {ns : List Node} {n : Node} {k next : Kind}

namespace Grammar

theorem ownSemicolons_test (h : Derives .test ts [n]) :
    ownSemicolons 0 (ts ++ us) = ownSemicolons 0 us :=
  h.layered Token.layers_ownSemicolons 0 us

theorem headKind_clause (h : Derives (.clause k) ts ns) (hk : k ≠ .endOfInput) :
    headKind ts .endOfInput ≠ k := by
  cases h with
  | noClause => exact hk.symm
  | someClause _ _ hhead => rwa [Token.headKind_append, Token.headKind_cons]

/-- A clause has only the semicolons in front of its statement. -/
theorem ownSemicolons_clause (h : Derives (.clause k) ts ns) :
    ownSemicolons 0 (ts ++ us) = leadingSemicolons ts + ownSemicolons 0 us := by
  cases h with
  | noClause => exact (Nat.zero_add _).symm
  | @someClause _ ss ts t n hss h _ =>
    have hlead : (ss ++ t :: ts).takeWhile Token.isSeparator = ss := by
      rw [List.takeWhile_append_of_pos hss.isSeparator,
        List.takeWhile_cons_of_neg (Kind.beginsStatement_isSeparator h.begins_statement),
        List.append_nil]
    have hstatement : ownSemicolons 0 (t :: ts ++ us) = ownSemicolons 0 us :=
      h.layered Token.layers_ownSemicolons 0 us
    rw [List.append_assoc, Token.ownSemicolons_separators hss, hstatement, leadingSemicolons, hlead]

end Grammar

/-- Semicolons of a header. Where a `for` stands in a program or a fragment that can be read, its
header has one semicolon of its own that ends the initializer and one that ends the test. Besides
these it has only those that stand in front of the statement of a clause, and the first token of
the initializer is none of them. -/
theorem semicolons_of_header (read : Nat → List Token → Except Fault Node)
    (hread : read = Parser.program ∨ read = Parser.fragment) (nesting : Nat)
    (pre post : List Token) (w : Token) (p : Node) (h : read nesting (pre ++ w :: post) = .ok p)
    (hw : w.kind = .forWord) (hpre : ∀ t ∈ pre, t.kind ≠ .endOfInput) :
    ∃ (l : Loop) (fs rest : List Token) (init : Option Node) (test : Node) (step : Option Node)
      (body : List Node), post = fs ++ rest ∧ l.IsFor (w :: fs) ∧
      l.Consumed init test step body ∧ headKind l.init .endOfInput ≠ .semicolon ∧
      ownSemicolons 0 post.tail =
        leadingSemicolons l.init + 1 + (leadingSemicolons l.step + 1) := by
  obtain ⟨fs, rest, next, n, rfl, hn, -⟩ := Parser.read_exchanges hread h hw hpre
  obtain ⟨l, init, test, step, body, hfor, hreads, -⟩ := Loop.exists_of_statement hn hw
  obtain ⟨o, o', hconsumed⟩ := hreads.consumed
  refine ⟨l, fs, rest, o, test, o', body, rfl, hfor, hconsumed,
    Grammar.headKind_clause hreads.init nofun, ?_⟩
  cases hfor with
  | intro _ _ hs hs' hc _ _ _ =>
    simp only [List.cons_append, List.append_assoc, List.tail_cons]
    rw [Grammar.ownSemicolons_clause hreads.init, Token.ownSemicolons_semicolon hs,
      Grammar.ownSemicolons_test hreads.test, Token.ownSemicolons_semicolon hs',
      Grammar.ownSemicolons_clause hreads.step, Token.ownSemicolons_closing hc]
    omega

/-- A header without clauses; the semicolon of its test stands in inner brackets. -/
theorem semicolons_of_plain_header : ∃ (pre post : List Token) (w : Token) (p : Node),
    tokenize "for (;fn() \x7b;\x7d;) \x7b;\x7d".toList = .ok (pre ++ w :: post) ∧
    w.kind = .forWord ∧ Parser.program 30 (pre ++ w :: post) = .ok p ∧
    ownSemicolons 0 post.tail = 2 ∧
    ∃ (l : Loop) (fs rest : List Token) (init : Option Node) (test : Node) (step : Option Node)
      (body : List Node), post = fs ++ rest ∧ l.IsFor (w :: fs) ∧
      l.Consumed init test step body ∧ headKind l.init .endOfInput ≠ .semicolon ∧
      ownSemicolons 0 post.tail =
        leadingSemicolons l.init + 1 + (leadingSemicolons l.step + 1) := by
  have htokens : tokenize "for (;fn() \x7b;\x7d;) \x7b;\x7d".toList = .ok ([] ++
      ⟨.forWord, .text "for", 1, 1, ['f', 'o', 'r']⟩ ::
      [⟨.openParen, .text "(", 1, 5, ['(']⟩, ⟨.semicolon, .text ";", 1, 6, [';']⟩,
        ⟨.fnWord, .text "fn", 1, 7, ['f', 'n']⟩, ⟨.openParen, .text "(", 1, 9, ['(']⟩,
        ⟨.closeParen, .text ")", 1, 10, [')']⟩, ⟨.openBrace, .text "\x7b", 1, 12, ['{']⟩,
        ⟨.semicolon, .text ";", 1, 13, [';']⟩, ⟨.closeBrace, .text "\x7d", 1, 14, ['}']⟩,
        ⟨.semicolon, .text ";", 1, 15, [';']⟩, ⟨.closeParen, .text ")", 1, 16, [')']⟩,
        ⟨.openBrace, .text "\x7b", 1, 18, ['{']⟩, ⟨.semicolon, .text ";", 1, 19, [';']⟩,
        ⟨.closeBrace, .text "\x7d", 1, 20, ['}']⟩, ⟨.endOfInput, .absent, 1, 21, []⟩]) :=
    Fault.eq_ok_of_toOption (by decide +kernel)
  obtain ⟨p, hp⟩ := exists_program_of_parse 30 htokens (by decide +kernel)
  exact ⟨_, _, _, p, htokens, rfl, hp, rfl,
    semicolons_of_header _ (.inl rfl) 30 _ _ _ p hp rfl (by decide)⟩

/-- A header with a third semicolon of its own, in front of its last clause. -/
theorem third_semicolon_in_header : ∃ (pre post : List Token) (w : Token) (p : Node),
    tokenize "for (;;;i = i + 1) \x7b \x7d".toList = .ok (pre ++ w :: post) ∧ w.kind = .forWord ∧
    Parser.program 30 (pre ++ w :: post) = .ok p ∧ ownSemicolons 0 post.tail = 3 := by
  have htokens : tokenize "for (;;;i = i + 1) \x7b \x7d".toList = .ok ([] ++
      ⟨.forWord, .text "for", 1, 1, ['f', 'o', 'r']⟩ ::
      [⟨.openParen, .text "(", 1, 5, ['(']⟩, ⟨.semicolon, .text ";", 1, 6, [';']⟩,
        ⟨.semicolon, .text ";", 1, 7, [';']⟩, ⟨.semicolon, .text ";", 1, 8, [';']⟩,
        ⟨.name, .text "i", 1, 9, ['i']⟩, ⟨.assign, .text "=", 1, 11, ['=']⟩,
        ⟨.name, .text "i", 1, 13, ['i']⟩, ⟨.plus, .text "+", 1, 15, ['+']⟩,
        ⟨.number, .int 1, 1, 17, ['1']⟩, ⟨.closeParen, .text ")", 1, 18, [')']⟩,
        ⟨.openBrace, .text "\x7b", 1, 20, ['{']⟩, ⟨.closeBrace, .text "\x7d", 1, 22, ['}']⟩,
        ⟨.endOfInput, .absent, 1, 23, []⟩]) := Fault.eq_ok_of_toOption (by decide +kernel)
  obtain ⟨p, hp⟩ := exists_program_of_parse 30 htokens (by decide +kernel)
  exact ⟨_, _, _, p, htokens, rfl, hp, rfl⟩

end ScopeScript
