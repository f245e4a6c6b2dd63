import ScopeScript.Proofs.Grammar.Loops

/-!
# Loops of a program

Where a `for` stands in a program that can be read, the parsers consume a whole
statement. The program with the block and the `while` of the same spans in its
place can be read as well, and has the same tree up to places. So it is with a
fragment, where a loop stands in the body of a function.
-/

namespace ScopeScript

open Token (AllNewlines headKind)

variable {ts us pre post : List Token} {init step body : List Node} {n p test : Node} {w : Token}
variable {nesting : Nat}

/-! ## What the parsers consume -/

/-- In front of a token of the given kind the parser reads exactly the tokens. -/
def Parser.Consumes {α : Type} (q : Context → Descent → Parser α) (next : Kind)
    (ts : List Token) (a : α) : Prop :=
  ∀ ctx nesting us, ctx.endToken.kind = .endOfInput → headKind us .endOfInput = next →
    2 * ts.length + 2 ≤ nesting → q ctx (descent nesting) (ts ++ us) = .ok (a, us)

/-- The parsers of the parts of a loop consume its spans. -/
structure Loop.Consumed (l : Loop) (init : Option Node) (test : Node) (step : Option Node)
    (body : List Node) : Prop where
  init : Parser.Consumes (Parser.clause · · .semicolon) .semicolon l.init init
  test : Parser.Consumes Parser.headerTest .semicolon l.test test
  step : Parser.Consumes (Parser.clause · · .closeParen) .closeParen l.step step
  body : Parser.Consumes Parser.blockBody .closeBrace l.body body

theorem Parser.consumes_of_clause {k : Kind} {ns : List Node} (h : Derives (.clause k) ts ns) :
    ∃ o : Option Node, Consumes (clause · · k) k ts o := by
  have hsome : ∃ o : Option Node, ns = o.toList := by
    cases h with
    | noClause => exact ⟨none, rfl⟩
    | someClause _ _ _ => exact ⟨some _, rfl⟩
  obtain ⟨o, rfl⟩ := hsome
  refine ⟨o, fun ctx nesting us hEnd hus hnesting => ?_⟩
  obtain ⟨o', ho, hrun⟩ := completes h ctx hEnd hnesting hus
  have hsame : o = o' := by
    rw [← o.head?_toList, ho, o'.head?_toList]
  rw [hsame]
  exact hrun

theorem Loop.Reads.consumed {l : Loop} (h : l.Reads init test step body) :
    ∃ o o', l.Consumed o test o' body := by
  obtain ⟨o, hinit⟩ := Parser.consumes_of_clause h.init
  obtain ⟨o', hstep⟩ := Parser.consumes_of_clause h.step
  refine ⟨o, o', hinit, ?_, hstep, ?_⟩
  · intro ctx nesting us hEnd hus hnesting
    obtain ⟨m, hm, hrun⟩ := Parser.completes h.test ctx hEnd (k := nesting) (r := us) (by omega) hus
    rwa [(List.cons.inj hm).1]
  · intro ctx nesting us hEnd hus hnesting
    rw [Parser.blockBody, Parser.bind_of_ok Parser.get_run]
    refine Parser.completes h.body ctx hEnd hnesting ?_ hus rfl
    simp only [List.length_append]
    omega

/-! ## Programs and fragments -/

/-- Line ends aside, the tokens that are left begin with the end of the input. -/
theorem Token.exists_end_of_rest {es as bs : List Token} (hes : AllNewlines es)
    (hus : headKind us .endOfInput = .endOfInput) (heq : es ++ us = as ++ w :: bs)
    (hw : w.kind = .forWord) : ∃ t ∈ as, t.kind = .endOfInput := by
  induction es generalizing as with
  | nil =>
    rw [List.nil_append] at heq
    cases as with
    | nil =>
      rw [heq, List.nil_append, Token.headKind_cons, hw] at hus
      cases hus
    | cons a as =>
      rw [heq] at hus
      exact ⟨a, List.mem_cons_self .., hus⟩
  | cons e es ih =>
    obtain ⟨he, hes⟩ := List.forall_mem_cons.mp hes
    cases as with
    | nil =>
      rw [(List.cons.inj heq).1, hw] at he
      cases he
    | cons a as =>
      obtain ⟨t, ht, hend⟩ := ih hes (List.cons.inj heq).2
      exact ⟨t, List.mem_cons_of_mem _ ht, hend⟩

/-- A `for` in front of the end of the input stands among the tokens that are read. -/
theorem Exchanges.statement_of_append {P : List Token → Prop} {e vs : List Token}
    (h : Exchanges P e) (heq : pre ++ w :: post = e ++ vs) (hw : w.kind = .forWord)
    (hpre : ∀ t ∈ pre, t.kind ≠ .endOfInput)
    (hvs : ∀ as bs, vs = as ++ w :: bs → ∃ t ∈ as, t.kind = .endOfInput) :
    ∃ fs rest next n, post = fs ++ (rest ++ vs) ∧ Derives (.statement next) (w :: fs) [n] ∧
      ∀ us, StandsFor us n → P (pre ++ (us ++ rest)) := by
  rcases List.append_eq_append_iff.mp heq with ⟨xs, rfl, hxs⟩ | ⟨xs, rfl, hxs⟩
  · cases xs with
    | nil =>
      obtain ⟨t, ht, -⟩ := hvs [] post hxs.symm
      cases ht
    | cons x xs =>
      obtain ⟨rfl, rfl⟩ := List.cons.inj hxs
      obtain ⟨fs, rest, next, n, rfl, hn, hP⟩ := h.statement pre w xs rfl hw
      exact ⟨fs, rest, next, n, List.append_assoc .., hn, hP⟩
  · obtain ⟨t, ht, hend⟩ := hvs xs post hxs
    exact absurd hend (hpre t (List.mem_append_right _ ht))

/-- A `for` in front of the end of the input begins a statement, and a program or a fragment that
can be read can be read with what stands for the statement in its place. -/
theorem Parser.read_exchanges {read : Nat → List Token → Except Fault Node}
    (hread : read = program ∨ read = fragment) (h : read nesting (pre ++ w :: post) = .ok p)
    (hw : w.kind = .forWord) (hpre : ∀ t ∈ pre, t.kind ≠ .endOfInput) :
    ∃ fs rest next n, post = fs ++ rest ∧ Derives (.statement next) (w :: fs) [n] ∧
      ∀ us, StandsFor us n → ∀ nesting, 2 * (pre ++ (us ++ rest)).length + 2 ≤ nesting →
        ∃ q, read nesting (pre ++ (us ++ rest)) = .ok q ∧ q.unplaced = p.unplaced := by
  rcases hread with rfl | rfl
  · obtain ⟨e, vs, ns, heq, hvs, rfl, he⟩ := derives_of_program h
    have hsited : Exchanges (fun us => DerivesSame _ us ns) e := he.sited
    obtain ⟨fs, rest, next, n, rfl, hn, hexchange⟩ := hsited.statement_of_append heq hw hpre
      fun as bs h => Token.exists_end_of_rest (List.forall_mem_nil _) hvs h hw
    refine ⟨fs, rest ++ vs, next, n, rfl, hn, fun us hus nesting hnesting => ?_⟩
    obtain ⟨ms, hms, hsame⟩ := hexchange us hus
    refine ⟨.block ms none, ?_, by simp only [Node.unplaced, hsame]⟩
    rw [← List.append_assoc us, ← List.append_assoc pre] at hnesting ⊢
    rw [List.length_append] at hnesting
    exact program_of_derives_append hms hvs (by omega)
  · obtain ⟨e, es, vs, heq, hes, hvs, he⟩ := derives_of_fragment h
    have hsited : Exchanges (fun us => DerivesSame _ us [p]) e := he.sited
    obtain ⟨fs, rest, next, n, rfl, hn, hexchange⟩ := hsited.statement_of_append heq hw hpre
      fun as bs h => Token.exists_end_of_rest hes hvs h hw
    refine ⟨fs, rest ++ (es ++ vs), next, n, rfl, hn, fun us hus nesting hnesting => ?_⟩
    obtain ⟨m, hm, hsame⟩ := (hexchange us hus).single
    refine ⟨m, ?_, hsame⟩
    rw [← List.append_assoc us, ← List.append_assoc pre] at hnesting ⊢
    rw [List.length_append] at hnesting
    exact fragment_of_derives_append hm hes hvs (by omega)

/-- A `for` is its while form. Where a `for` stands in a program or a fragment that can be read,
the parsers consume the spans of a loop. With the same spans as a block and a `while` in its place
the whole can be read, and its tree is the same up to places. -/
theorem loop_read_as_its_while_form (read : Nat → List Token → Except Fault Node)
    (hread : read = Parser.program ∨ read = Parser.fragment) (nesting : Nat)
    (pre post : List Token) (w : Token) (p : Node) (h : read nesting (pre ++ w :: post) = .ok p)
    (hw : w.kind = .forWord) (hpre : ∀ t ∈ pre, t.kind ≠ .endOfInput) :
    ∃ (l : Loop) (fs rest : List Token) (init : Option Node) (test : Node) (step : Option Node)
      (body : List Node), post = fs ++ rest ∧ l.IsFor (w :: fs) ∧
      l.Consumed init test step body ∧
      ∀ word : Kind → Token, (∀ k, (word k).kind = k) →
        ∀ nesting, 2 * (pre ++ (l.whileForm word ++ rest)).length + 2 ≤ nesting →
          ∃ q, read nesting (pre ++ (l.whileForm word ++ rest)) = .ok q ∧
            q.unplaced = p.unplaced := by
  obtain ⟨fs, rest, next, n, rfl, hn, hexchange⟩ := Parser.read_exchanges hread h hw hpre
  obtain ⟨l, init, test, step, body, hfor, hreads, htree⟩ := Loop.exists_of_statement hn hw
  obtain ⟨o, o', hconsumed⟩ := hreads.consumed
  exact ⟨l, fs, rest, o, test, o', body, rfl, hfor, hconsumed, fun word hword =>
    hexchange _ (hreads.standsFor hword htree)⟩

theorem exists_program_of_parse (nesting : Nat) {cs : List Char} (hts : tokenize cs = .ok ts)
    (h : (parse nesting cs).toOption.isSome = true) : ∃ p, Parser.program nesting ts = .ok p := by
  obtain ⟨p, hp⟩ := Option.isSome_iff_exists.mp h
  obtain ⟨us, hus, hp⟩ := Fault.bind_eq_ok_iff.mp (Fault.eq_ok_of_toOption hp)
  obtain rfl := Except.ok.inj (hts.symm.trans hus)
  exact ⟨p, hp⟩

/-- A `for` without a test, in the header of another one. -/
theorem loop_in_header_read_as_its_while_form : ∃ (pre post : List Token) (w : Token) (p : Node),
    tokenize "for (for (;;) \x7b \x7d; a; ) \x7b \x7d".toList = .ok (pre ++ w :: post) ∧
    pre.map (·.kind) = [.forWord, .openParen] ∧ w.kind = .forWord ∧
    Parser.program 30 (pre ++ w :: post) = .ok p ∧
    ∃ (l : Loop) (fs rest : List Token), post = fs ++ rest ∧ l.IsFor (w :: fs) ∧
      ∀ nesting, 2 * (pre ++ (l.whileForm (⟨·, .absent, 1, 1, []⟩) ++ rest)).length + 2 ≤ nesting →
        ∃ q, Parser.program nesting (pre ++ (l.whileForm (⟨·, .absent, 1, 1, []⟩) ++ rest)) =
          .ok q ∧ q.unplaced = p.unplaced := by
  have htokens : tokenize "for (for (;;) \x7b \x7d; a; ) \x7b \x7d".toList = .ok (
      [⟨.forWord, .text "for", 1, 1, ['f', 'o', 'r']⟩, ⟨.openParen, .text "(", 1, 5, ['(']⟩] ++
      ⟨.forWord, .text "for", 1, 6, ['f', 'o', 'r']⟩ ::
      [⟨.openParen, .text "(", 1, 10, ['(']⟩, ⟨.semicolon, .text ";", 1, 11, [';']⟩,
        ⟨.semicolon, .text ";", 1, 12, [';']⟩, ⟨.closeParen, .text ")", 1, 13, [')']⟩,
        ⟨.openBrace, .text "\x7b", 1, 15, ['{']⟩, ⟨.closeBrace, .text "\x7d", 1, 17, ['}']⟩,
        ⟨.semicolon, .text ";", 1, 18, [';']⟩, ⟨.name, .text "a", 1, 20, ['a']⟩,
        ⟨.semicolon, .text ";", 1, 21, [';']⟩, ⟨.closeParen, .text ")", 1, 23, [')']⟩,
        ⟨.openBrace, .text "\x7b", 1, 25, ['{']⟩, ⟨.closeBrace, .text "\x7d", 1, 27, ['}']⟩,
        ⟨.endOfInput, .absent, 1, 28, []⟩]) := Fault.eq_ok_of_toOption (by decide +kernel)
  obtain ⟨p, hp⟩ := exists_program_of_parse 30 htokens (by decide +kernel)
  obtain ⟨l, fs, rest, -, -, -, -, hpost, hfor, -, hread⟩ :=
    loop_read_as_its_while_form _ (.inl rfl) 30 _ _ _ p hp rfl (by decide)
  exact ⟨_, _, _, p, htokens, rfl, rfl, hp, l, fs, rest, hpost, hfor, hread _ fun _ => rfl⟩

end ScopeScript
