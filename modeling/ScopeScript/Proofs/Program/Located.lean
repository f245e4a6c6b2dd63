import ScopeScript.Proofs.Eval.Trail
import ScopeScript.Proofs.Grammar.Assembly
import ScopeScript.Proofs.Parser.Places
import ScopeScript.Proofs.Program.Lines

/-!
# Lines of run-time errors

Every statement of a program has a line, so every run-time error has one: that
of the innermost node under evaluation that has any. It is the line of a token,
since a program whose tokens stay where they are stays where it is, and so do
its errors.
-/

namespace ScopeScript

open Eval (Fails)

/-! ## Lines of statements -/

namespace Grammar

variable {trailing : Bool} {next : Kind} {ts : List Token} {ns : List Node} {n : Node}

/-- A statement is a tree, on which a line can be recorded. -/
theorem line?_atLine (h : Grammar trailing (.statement next) ts [n]) (l : Nat) :
    (n.atLine l).line? = some l := by
  cases h with
  | conditional _ h =>
    cases h
    rfl
  | _ => rfl

theorem line?_statements (h : Grammar trailing (.statements next) ts ns) :
    ∀ n ∈ ns, ∃ l, n.line? = some l := by
  generalize hsymbol : Symbol.statements next = symbol at h
  induction h with
  | noStatements _ _ => exact List.forall_mem_nil _
  | moreStatements _ hn _ _ ih =>
    exact List.forall_mem_cons.mpr ⟨⟨_, hn.line?_atLine _⟩, ih hsymbol⟩
  | _ => cases hsymbol

end Grammar

/-! ## Lines of tokens -/

/-- Moves the lines on which no token stands. -/
def PlaceMap.around (ts : List Token) : PlaceMap :=
  ⟨fun l => if l ∈ ts.map Token.line then l else l + 1, id⟩

namespace PlaceMap

variable {ts : List Token} {ns : List Node}

theorem around_token : ∀ t ∈ ts, (around ts).token t = t := by
  intro t ht
  exact congrArg (fun l => { t with line := l }) (if_pos (List.mem_map_of_mem ht))

/-- Where no token moves, the tree stays where it is. -/
theorem node_of_tokens (m : PlaceMap) (h : Derives (.statements .endOfInput) ts ns)
    (hts : ∀ t ∈ ts, m.token t = t) : ns.map m.node = ns := by
  have hread {stop : Token} (hstop : stop.kind = .endOfInput) :
      Parser.program (2 * ts.length + 2) (ts ++ [stop]) = .ok (.block ns none) :=
    Parser.program_of_derives h hstop (Nat.le_refl _)
  have hplaced := Parser.program_placed (2 * ts.length + 2) m
    (List.append_ne_nil_of_right_ne_nil ts (List.cons_ne_nil (Parser.impliedEnd []) []))
  rw [hread rfl, List.map_append, List.map_congr_left hts, List.map_id', List.map_singleton,
    hread rfl] at hplaced
  have hblock := Except.ok.inj hplaced
  rw [Parser.block_placed] at hblock
  exact (Node.block.inj hblock).1.symm

/-- No fault of a program has a line without a token. -/
theorem mem_lines_of_execute {limits : Limits} {cause : RuntimeCause} {l : Nat}
    (h : Derives (.statements .endOfInput) ts ns)
    (hrun : Fails (execute limits (.block ns none)) {} (.runtime cause (some l))) :
    l ∈ ts.map Token.line := by
  have hmoves := Eval.Moves.program (r := (around ts).relocation)
    (evalNode_relocated (.ofMap _ _) limits.rounds limits.depth) ns {}
  rw [node_of_tokens (around ts) h around_token] at hmoves
  have hfault : Fault.runtime cause (some l) = .runtime cause (some ((around ts).line l)) := by
    have hends := congrArg Prod.fst hmoves
    rw [Eval.moved, show (Eval.program _ ns {}).1 = _ from hrun] at hends
    exact Except.error.inj (hrun.symm.trans hends)
  have hl : l = if l ∈ ts.map Token.line then l else l + 1 :=
    Option.some.inj (Fault.runtime.inj hfault).2
  by_contra hmem
  rw [if_neg hmem] at hl
  exact Nat.succ_ne_self l hl.symm

end PlaceMap

/-! ## Run-time errors -/

/-- A run fails with a run-time error if one of its statements has a trail of that cause. The
error carries a line, the innermost one on the trail, and it is the line of a token. -/
theorem runtime_error_has_innermost_line (limits : Limits) (source : List Char)
    (cause : RuntimeCause) (line : Option Nat) :
    (runSource limits source {}).1 = .error (.runtime cause line) ↔
    ∃ ts p m t path l, tokenize source = .ok ts ∧ parse limits.nesting source = .ok p ∧
      Eval.Enters (evalNode limits.rounds limits.depth) p.children {} m t ∧
      Eval.Trail limits.rounds limits.depth m t path cause ∧
      Eval.innermostLine path = some l ∧ line = some l ∧
      ∃ token ∈ ts, token.kind ≠ .endOfInput ∧ token.line = l := by
  constructor
  · intro h
    cases hp : parse limits.nesting source with
    | error f =>
      rw [runSource, readProgram_result, hp] at h
      obtain rfl := Except.error.inj h
      rcases parse_error hp with hgrammar | hnumeral | ⟨_, hlexical⟩
      · cases hgrammar
      · cases hnumeral
      · cases hlexical
    | ok p =>
      rw [runSource_of_parse limits hp] at h
      obtain ⟨m, t, henters, hm⟩ := Eval.program_fails_iff.mp h
      obtain ⟨path, htrail, hline⟩ := Eval.fails_iff_trail.mp hm
      obtain ⟨ts, hts, hprogram⟩ := Fault.bind_eq_ok_iff.mp hp
      obtain ⟨us, stop, rfl, hstop, hus⟩ := tokenize_ends hts
      obtain ⟨ns, rfl, hns⟩ := Parser.derives_of_whole hprogram hus hstop
      obtain ⟨l, hl⟩ : ∃ l, line = some l := by
        obtain ⟨l, hl⟩ := hns.line?_statements m henters.mem
        obtain ⟨rest, rfl⟩ := htrail.head
        rw [← hline, Eval.innermostLine_cons, hl, Option.or_some]
        exact ⟨_, rfl⟩
      subst hl
      obtain ⟨token, htoken, rfl⟩ := List.mem_map.mp (PlaceMap.mem_lines_of_execute hns h)
      exact ⟨_, _, m, t, path, _, hts, rfl, henters, htrail, hline, rfl, token,
        List.mem_append_left _ htoken, hus token htoken, rfl⟩
  · rintro ⟨ts, p, m, t, path, l, -, hp, henters, htrail, hline, rfl, -⟩
    rw [runSource_of_parse limits hp]
    exact Eval.program_fails_iff.mpr
      ⟨m, t, henters, Eval.fails_iff_trail.mpr ⟨path, htrail, hline⟩⟩

/-- A call on the third line whose body negates a truth value on the second one. -/
theorem negation_fails_at_line_of_body : ∃ ts p m t path,
    tokenize "fn f(x) \x7b\n-x\x7d\nf(true)".toList = .ok ts ∧
    parse 20 "fn f(x) \x7b\n-x\x7d\nf(true)".toList = .ok p ∧
    Eval.Enters (evalNode 5 12) p.children {} m t ∧
    Eval.Trail 5 12 m t path (.mismatch (.cannotNegate .boolean)) ∧
    Eval.innermostLine path = some 2 ∧
    (runSource ⟨20, 12, 12, 5⟩ "fn f(x) \x7b\n-x\x7d\nf(true)".toList {}).1 =
      .error (.runtime (.mismatch (.cannotNegate .boolean)) (some 2)) := by
  have htokens : tokenize "fn f(x) \x7b\n-x\x7d\nf(true)".toList = .ok [
      ⟨.fnWord, .text "fn", 1, 1, "fn".toList⟩, ⟨.name, .text "f", 1, 4, ['f']⟩,
      ⟨.openParen, .text "(", 1, 5, ['(']⟩, ⟨.name, .text "x", 1, 6, ['x']⟩,
      ⟨.closeParen, .text ")", 1, 7, [')']⟩, ⟨.openBrace, .text "\x7b", 1, 9, ['\x7b']⟩,
      ⟨.newline, .text "\n", 1, 10, ['\n']⟩, ⟨.minus, .text "-", 2, 1, ['-']⟩,
      ⟨.name, .text "x", 2, 2, ['x']⟩, ⟨.closeBrace, .text "\x7d", 2, 3, ['\x7d']⟩,
      ⟨.newline, .text "\n", 2, 4, ['\n']⟩, ⟨.name, .text "f", 3, 1, ['f']⟩,
      ⟨.openParen, .text "(", 3, 2, ['(']⟩, ⟨.trueWord, .text "true", 3, 3, "true".toList⟩,
      ⟨.closeParen, .text ")", 3, 7, [')']⟩, ⟨.endOfInput, .absent, 3, 8, []⟩] :=
    Fault.eq_ok_of_toOption (by decide +kernel)
  have hp : ∃ p, parse 20 "fn f(x) \x7b\n-x\x7d\nf(true)".toList = .ok p ∧
      (execute ⟨20, 12, 12, 5⟩ p {}).1 =
        .error (.runtime (.mismatch (.cannotNegate .boolean)) (some 2)) :=
    ⟨_, Fault.bind_eq_ok_iff.mpr ⟨_, htokens, rfl⟩, rfl⟩
  obtain ⟨p, hp, hrun⟩ := hp
  rw [← runSource_of_parse ⟨20, 12, 12, 5⟩ hp] at hrun
  obtain ⟨ts, q, m, t, path, l, hts, hq, henters, htrail, hline, hl, -⟩ :=
    (runtime_error_has_innermost_line ⟨20, 12, 12, 5⟩ _ _ _).mp hrun
  exact ⟨ts, q, m, t, path, hts, hq, henters, htrail, hline.trans hl.symm, hrun⟩

end ScopeScript
