import ScopeScript.CommandLine
import ScopeScript.Proofs.Eval.Reached
import ScopeScript.Proofs.Lexer.LineBreaks
import ScopeScript.Proofs.Parser.Places

/-!
# Line end styles

A carriage return, a line feed and both together end a line in the same way. If
no string has a carriage return in it, a text keeps its tokens and their places
when all its line ends become line feeds, as they do when a program is read from
a file. So the program does the same wherever it is read from.
-/

namespace ScopeScript

namespace Text

variable {cs w : List Char}

theorem unifyLineEnds_append (hw : '\r' ∉ w) (rest : List Char) :
    unifyLineEnds (w ++ rest) = w ++ unifyLineEnds rest := by
  induction w with
  | nil => rfl
  | cons c w ih =>
    obtain ⟨hc, hw⟩ := not_or.mp (mt List.mem_cons.mpr hw)
    rw [List.cons_append, unifyLineEnds, if_neg (Ne.symm hc), ih hw, List.cons_append]
    rintro _ rfl
    exact absurd rfl hc

theorem unifyLineEnds_return (cs : List Char) : unifyLineEnds ('\r' :: cs) =
    '\n' :: unifyLineEnds (if cs.head? = some '\n' then cs.tail else cs) := by
  cases cs with
  | nil => rfl
  | cons d cs =>
    rw [List.head?_cons, List.tail_cons]
    split
    next hd =>
      cases hd
      rfl
    next hd =>
      rw [unifyLineEnds, if_pos rfl]
      intro _ _ h
      exact hd (congrArg some (List.cons.inj h).1)

theorem head?_unifyLineEnds (cs : List Char) :
    (unifyLineEnds cs).head? = cs.head?.map fun c => if c = '\r' then '\n' else c := by
  fun_cases unifyLineEnds cs <;> rfl

end Text

namespace Lexer

open Text (unifyLineEnds)

variable {cs rest text : List Char} {p : Position} {c : Char} {l : Lexeme} {t : Token}
  {ts us : List Token}

/-! ## Lexemes -/

/-- A line feed goes on with nothing that a carriage return does not go on with, unless a
carriage return is in front of it. -/
theorem behind_unifyLineEnds (hc : c ≠ '\r') (rest : List Char) :
    Behind c rest (unifyLineEnds rest) := by
  have hparts : Parts c '\n' :=
    ⟨fun _ => rfl, fun _ => rfl, fun h => absurd h hc, rfl, by decide⟩
  constructor
  · intro d hd
    rw [Text.head?_unifyLineEnds] at hd
    cases rest with
    | nil => cases hd
    | cons e rest =>
      rw [List.head?_cons, Option.map_some, Option.some.injEq] at hd
      split at hd
      next => exact .inr (hd ▸ hparts)
      next => exact .inl (congrArg some hd)
  · intro hnumber
    cases rest with
    | nil => rfl
    | cons e rest =>
      by_cases he : e = '\r'
      · rw [he, Text.unifyLineEnds_return, numberText_cons]
        rfl
      · have hunified : unifyLineEnds (e :: rest) = e :: unifyLineEnds rest :=
          Text.unifyLineEnds_append (w := [e]) (by simpa using Ne.symm he) rest
        have hdigit : (unifyLineEnds rest).head?.any Numeral.isDigit =
            rest.head?.any Numeral.isDigit := by
          rw [Text.head?_unifyLineEnds]
          cases rest with
          | nil => rfl
          | cons d rest =>
            rw [List.head?_cons, Option.map_some, Option.any_some, Option.any_some]
            split
            next hd => rw [hd]; rfl
            next => rfl
        rw [numberText_cons] at hnumber
        rw [hunified, numberText_cons, hdigit]
        split at hnumber
        next => cases hnumber
        next hgoes => exact if_neg hgoes

/-- The kind, the datum and the place of a token. -/
abbrev textless (t : Token) : Token := TokenMap.textless.token t

/-- A token without a carriage return at its front has none inside, unless it is a string. -/
theorem return_not_mem (h : lexeme p c cs = .ok l) (hc : c ≠ '\r') (ht : l.token? = some t)
    (hstring : t.kind = .string → '\r' ∉ t.text) : '\r' ∉ t.text := by
  by_cases hnewline : t.kind = .newline
  · cases lexeme_advances h with
    | gap _ hnone _ _ _ => cases hnone.symm.trans ht
    | lineEnd u hsome _ hend hu _ =>
      cases hsome.symm.trans ht
      have hfirst : t.text.head? ≠ some '\r' := by
        intro hhead
        obtain ⟨more, hmore⟩ := List.head?_eq_some_iff.mp hhead
        exact hc (List.cons.inj (hu.text.trans (congrArg (· ++ l.rest) hmore))).1
      rcases hend with heq | heq | ⟨heq, -⟩
      · rw [heq]
        decide
      · exact absurd (congrArg List.head? heq) hfirst
      · exact absurd (congrArg List.head? heq) hfirst
    | token u hsome hne _ _ _ =>
      cases hsome.symm.trans ht
      exact absurd hnewline hne
  · cases lexeme_marks h ht hnewline with
    | plain _ htext => exact fun hmem => (htext _ hmem).2.2 rfl
    | comment body _ htext hbody _ =>
      rw [htext]
      intro hmem
      rcases List.mem_cons.mp hmem with heq | hmem
      · cases heq
      · cases hbody _ hmem
    | literal _ hkind _ _ => exact hstring hkind

/-- The first lexeme of a text with unified line ends. -/
theorem lexeme_unified (h : lexeme p c cs = .ok l)
    (hstring : ∀ t, l.token? = some t → t.kind = .string → '\r' ∉ t.text) :
    ∃ d ds l', unifyLineEnds (c :: cs) = d :: ds ∧ lexeme p d ds = .ok l' ∧
      l'.token?.map textless = l.token?.map textless ∧ l'.next = l.next ∧
      l'.rest = unifyLineEnds l.rest := by
  by_cases hc : c = '\r'
  · subst hc
    rw [lexeme_return] at h
    refine ⟨'\n', _, _, Text.unifyLineEnds_return cs, rfl, ?_⟩
    by_cases hfeed : cs.head? = some '\n'
    · rw [if_pos hfeed] at h
      cases h
      exact ⟨rfl, rfl, congrArg unifyLineEnds (if_pos hfeed)⟩
    · rw [if_neg hfeed] at h
      cases h
      exact ⟨rfl, rfl, congrArg unifyLineEnds (if_neg hfeed)⟩
  · obtain ⟨text, htext, hreturn⟩ : ∃ text, c :: cs = text ++ l.rest ∧ '\r' ∉ text := by
      cases lexeme_takes h with
      | gap text _ _ hblank htext =>
        refine ⟨text, htext, fun hmem => ?_⟩
        cases hblank _ hmem
      | token t ht _ _ htext =>
        exact ⟨t.text, htext, return_not_mem h hc ht (hstring t ht)⟩
    cases text with
    | nil =>
      have hshorter := length_rest_lexeme h
      rw [List.nil_append] at htext
      rw [← htext, List.length_cons] at hshorter
      omega
    | cons d w =>
      obtain ⟨rfl, rfl⟩ := List.cons.inj htext
      have hfront := lexeme_in_front (behind_unifyLineEnds hc l.rest) h rfl
      exact ⟨c, _, _, Text.unifyLineEnds_append hreturn l.rest, hfront, rfl, rfl, rfl⟩

/-! ## Texts -/

theorem Cuts.unified (h : Cuts p cs ts)
    (hstring : ∀ t ∈ ts, t.kind = .string → '\r' ∉ t.text) :
    ∃ us, Cuts p (unifyLineEnds cs) us ∧ us.map textless = ts.map textless := by
  induction h with
  | done => exact ⟨_, .done, rfl⟩
  | @next p c cs l ts hl _ ih =>
    rw [List.forall_mem_append] at hstring
    obtain ⟨us, hus, hsame⟩ := ih hstring.2
    obtain ⟨d, ds, l', hds, hl', htoken, hnext, hrest⟩ :=
      lexeme_unified hl fun t ht => hstring.1 t (by rw [ht]; exact List.mem_singleton_self t)
    refine ⟨l'.token?.toList ++ us, ?_, ?_⟩
    · rw [hds]
      exact .next hl' (by rwa [hnext, hrest])
    · rw [List.map_append, List.map_append, hsame, ← Option.toList_map, htoken, Option.toList_map]

theorem visible_textless (h : us.map textless = ts.map textless) :
    (visible us).map textless = (visible ts).map textless := by
  have hcomments (vs : List Token) :
      (visible vs).map textless = visible (vs.map textless) := by
    rw [visible, visible, List.filter_map]
    rfl
  rw [hcomments, hcomments, h]

end Lexer

open Lexer (textless)

variable {cs : List Char} {ts : List Token}

theorem tokenize_unified (h : tokenizeWithComments cs = .ok ts)
    (hstring : ∀ t ∈ ts, t.kind = .string → '\r' ∉ t.text) :
    ∃ us, tokenizeWithComments (Text.unifyLineEnds cs) = .ok us ∧
      us.map textless = ts.map textless := by
  obtain ⟨us, hus, hsame⟩ :=
    ((Lexer.lexemes_eq_ok_iff (Nat.le_refl _)).mp h).unified hstring
  exact ⟨us, (Lexer.lexemes_eq_ok_iff (Nat.le_refl _)).mpr hus, hsame⟩

/-! ## Programs -/

/-- Two texts without lexical faults that give the same tree or the same fault. -/
structure SameReading (cs ds : List Char) : Prop where
  tokens : ∃ ts us, tokenize cs = .ok ts ∧ tokenize ds = .ok us ∧ us.length = ts.length
  tree (nesting : Nat) : parse nesting ds = parse nesting cs

theorem SameReading.unified (h : tokenizeWithComments cs = .ok ts)
    (hstring : ∀ t ∈ ts, t.kind = .string → '\r' ∉ t.text) :
    SameReading cs (Text.unifyLineEnds cs) := by
  obtain ⟨us, hus, hsame⟩ := tokenize_unified h hstring
  have hvisible := Lexer.visible_textless hsame
  have hts : tokenize cs = .ok (Lexer.visible ts) := by
    rw [tokenize, h]
    rfl
  have hus : tokenize (Text.unifyLineEnds cs) = .ok (Lexer.visible us) := by
    rw [tokenize, hus]
    rfl
  have hne : Lexer.visible ts ≠ [] := by
    obtain ⟨vs, stop, heq, -⟩ := tokenize_ends hts
    rw [heq]
    exact List.append_ne_nil_of_right_ne_nil _ (List.cons_ne_nil _ _)
  have hlength := congrArg List.length hvisible
  rw [List.length_map, List.length_map] at hlength
  refine ⟨⟨_, _, hts, hus, hlength⟩, fun nesting => ?_⟩
  rw [parse, parse, hts, hus]
  exact Parser.program_of_textless_eq hne hvisible

theorem SameReading.runSource {ds : List Char} (h : SameReading cs ds) (limits : Limits) :
    runSource limits ds = runSource limits cs := by
  funext s
  rw [ScopeScript.runSource, ScopeScript.runSource, readProgram_result, readProgram_result, h.tree]

theorem readProgram_stages {limits : Limits} (h : tokenize cs = .ok ts) :
    (readProgram limits cs).1 = [.lexing cs.length, .parsing ts.length] := by
  rw [readProgram, h]

namespace Session

variable {u v : Session} {a b : String} {ds : List Char}

/-- The same but for the recorded source and for what the error outputs begin with. -/
structure Beside (a b : String) (u v : Session) : Prop where
  limits : v.limits = u.limits
  state : v.state = u.state
  traceback : v.traceback = u.traceback
  logging : v.logging = u.logging
  errors : ∃ more, u.errors = a ++ more ∧ v.errors = b ++ more

namespace Beside

theorem complain (h : Beside a b u v) (line : String) :
    Beside a b (u.complain line) (v.complain line) := by
  obtain ⟨more, hu, hv⟩ := h.errors
  refine ⟨h.limits, h.state, h.traceback, h.logging, more ++ line ++ "\n", ?_, ?_⟩
  · simp only [Session.complain, hu, String.append_assoc]
  · simp only [Session.complain, hv, String.append_assoc]

theorem log (h : Beside a b u v) (stage : Stage) : Beside a b (u.log stage) (v.log stage) := by
  rw [Session.log, Session.log, h.logging]
  split
  · exact h.complain _
  · exact h

theorem report (h : Beside a b u v) (f : Fault) : Beside a b (u.report f) (v.report f) := by
  have hcomplained := h.complain ("Error: " ++ f.message)
  unfold Session.report
  dsimp only
  rw [hcomplained.traceback]
  split
  · exact (hcomplained.complain _).complain _
  · exact hcomplained

theorem print (h : Beside a b u v) (text : String) :
    Beside a b (u.print text) (v.print text) :=
  ⟨h.limits, congrArg (fun s : State => { s with output := s.output ++ text ++ "\n" }) h.state,
    h.traceback, h.logging, h.errors⟩

theorem write (h : Beside a b u v) (text : String) :
    Beside a b (CommandLine.write text u) (CommandLine.write text v) :=
  ⟨h.limits, congrArg (fun s : State => { s with output := s.output ++ text }) h.state,
    h.traceback, h.logging, h.errors⟩

theorem execute (h : Beside a b u v) (program : Node) :
    (v.execute program).1 = (u.execute program).1 ∧
      Beside a b (u.execute program).2 (v.execute program).2 := by
  rw [Session.execute, Session.execute, h.limits, h.state]
  exact ⟨rfl, rfl, rfl, h.traceback, h.logging, h.errors⟩

theorem present (h : Beside a b u v) (value : Value) :
    (v.present value).1 = (u.present value).1 ∧
      Beside a b (u.present value).2 (v.present value).2 := by
  unfold Session.present
  split
  · exact ⟨rfl, h⟩
  · split
    · exact ⟨rfl, h.print _⟩
    · exact ⟨rfl, h⟩

/-- A session reads two texts with the same tree or fault; the entries of the log count their
characters. -/
theorem read (h : SameReading cs ds) (s : Session) :
    (s.read ds).1 = (s.read cs).1 ∧
      Beside (s.log (.lexing cs.length)).errors (s.log (.lexing ds.length)).errors
        (s.read cs).2 (s.read ds).2 := by
  obtain ⟨ts, us, hts, hus, hlength⟩ := h.tokens
  have hresult (es : List Char) := readProgram_result s.limits es
  have hfirst : Beside (s.log (.lexing cs.length)).errors (s.log (.lexing ds.length)).errors
      (s.log (.lexing cs.length)) (s.log (.lexing ds.length)) := by
    have hempty (e : String) : e = e ++ "" := String.append_empty.symm
    unfold Session.log
    split
    · exact ⟨rfl, rfl, rfl, rfl, "", hempty _, hempty _⟩
    · exact ⟨rfl, rfl, rfl, rfl, "", hempty _, hempty _⟩
  have hlogged := hfirst.log (.parsing ts.length)
  rw [Session.read, Session.read]
  dsimp only
  rw [readProgram_stages hts, readProgram_stages hus, hresult, hresult, h.tree, hlength]
  cases parse s.limits.nesting cs with
  | error f => exact ⟨rfl, hlogged⟩
  | ok program => exact ⟨rfl, hlogged.limits, hlogged.state, hlogged.traceback, hlogged.logging,
      hlogged.errors⟩

theorem run (h : SameReading cs ds) (s : Session) :
    (s.run ds).1 = (s.run cs).1 ∧
      Beside (s.log (.lexing cs.length)).errors (s.log (.lexing ds.length)).errors
        (s.run cs).2 (s.run ds).2 := by
  obtain ⟨hresult, hread⟩ := read h s
  unfold Session.run
  generalize s.read cs = r at hresult hread ⊢
  generalize s.read ds = r' at hresult hread ⊢
  obtain ⟨x, u⟩ := r
  obtain ⟨_, v⟩ := r'
  cases hresult
  cases x with
  | error f => exact ⟨rfl, hread⟩
  | ok program => exact (hread.log _).execute program

end Beside

end Session

namespace CommandLine

open Session (Beside)

variable {u v : Session} {a b : String} {ds : List Char}

/-- The same exit and output, and the same error output but for what it begins with. -/
structure SameEnd (a b : String) (x y : Outcome) : Prop where
  exit : y.exit = x.exit
  output : y.output = x.output
  errors : ∃ more, x.errors = a ++ more ∧ y.errors = b ++ more

theorem SameEnd.of_beside (h : Beside a b u v) (exit : Exit) :
    SameEnd a b (.ofSession exit u) (.ofSession exit v) :=
  ⟨rfl, congrArg State.output h.state, h.errors⟩

theorem SameEnd.failure (h : Beside a b u v) (f : Fault) :
    SameEnd a b (failure f u) (failure f v) := by
  unfold CommandLine.failure
  split
  · exact .of_beside (h.report f) _
  · exact .of_beside h _

/-- Texts that are read alike are processed alike, whatever the options are. -/
theorem SameEnd.process (h : SameReading cs ds) (o : Options) (s : Session) :
    SameEnd (s.log (.lexing cs.length)).errors (s.log (.lexing ds.length)).errors
      (process o cs s) (process o ds s) := by
  unfold CommandLine.process
  split
  · obtain ⟨hresult, hread⟩ := Beside.read h s
    unfold showForms
    generalize s.read cs = r at hresult hread ⊢
    generalize s.read ds = r' at hresult hread ⊢
    obtain ⟨x, u⟩ := r
    obtain ⟨_, v⟩ := r'
    cases hresult
    cases x with
    | error f => exact .failure hread f
    | ok program =>
      dsimp only
      rw [hread.limits]
      cases formsOf o u.limits program with
      | error f => exact .failure hread f
      | ok text => exact .of_beside (hread.write text) _
  · obtain ⟨hresult, hrun⟩ := Beside.run h s
    unfold runProgram
    generalize s.run cs = r at hresult hrun ⊢
    generalize s.run ds = r' at hresult hrun ⊢
    obtain ⟨x, u⟩ := r
    obtain ⟨_, v⟩ := r'
    cases hresult
    cases x with
    | error f => exact .failure hrun f
    | ok value =>
      obtain ⟨hshown, hpresent⟩ := hrun.present value
      dsimp only
      generalize u.present value = r at hshown hpresent ⊢
      generalize v.present value = r' at hshown hpresent ⊢
      obtain ⟨x, u⟩ := r
      obtain ⟨_, v⟩ := r'
      cases hshown
      cases x with
      | error f => exact .of_beside hpresent _
      | ok _ => exact .of_beside hpresent _

/-- Where the text comes from makes no difference to what is done with it. -/
theorem process_withSource (o : Options) (source? : Option String) :
    process { o with source? := source? } = process o := rfl

/-- What an argument stands for that names a file. -/
theorem processSource_file {o : Options} {w : Surroundings} {path : String} {content : List Char}
    (s : Session) (hsource : o.source? = some path) (hpath : path ≠ "-")
    (hentry : w.entry path = .file content) :
    processSource o w s = process o (Text.unifyLineEnds content) s := by
  rw [processSource, hsource]
  dsimp only
  rw [if_neg hpath, hentry]

/-- What an argument stands for that names nothing. -/
theorem processSource_argument {o : Options} {w : Surroundings} {argument : String}
    (s : Session) (hsource : o.source? = some argument) (hargument : argument ≠ "-")
    (hentry : w.entry argument = .missing) :
    processSource o w s = process o argument.toList s := by
  rw [processSource, hsource]
  dsimp only
  rw [if_neg hargument, hentry]

/-- Nothing on the standard input is no program. -/
theorem processSource_input {o : Options} {w : Surroundings} (s : Session)
    (hsource : o.source? = none ∨ o.source? = some "-") :
    processSource o w s =
      if w.input.isEmpty then .ofSession (.misuse .emptyInput) s else process o w.input s := by
  unfold processSource
  rcases hsource with hsource | hsource <;> simp only [hsource, if_true]

end CommandLine

/-- What a token is, and where it stands. -/
def Token.reading (t : Token) : Kind × Datum × Nat × Nat := (t.kind, t.datum, t.line, t.column)

theorem map_reading {ts us : List Token} (h : us.map textless = ts.map textless) :
    us.map Token.reading = ts.map Token.reading := by
  have hreading (vs : List Token) :
      (vs.map textless).map Token.reading = vs.map Token.reading := by
    rw [List.map_map]
    rfl
  rw [← hreading us, h, hreading ts]

open CommandLine (Options Surroundings SameEnd process processSource)

/-- The style of the line ends makes no difference. In a text that can be read and has no
carriage return in a string, line feeds can be put for all line ends: the tokens, comments among
them or not, are the same in the same places, the tree or the fault that is read from them is
the same, and running them ends the same. So it is the same, but for the number of characters in
the log, whether the command line takes the text from a file, which puts line feeds, or from the
standard input or an argument, which does not. -/
theorem line_end_style_makes_no_difference (cs : List Char) (ts : List Token)
    (h : tokenizeWithComments cs = .ok ts)
    (hstring : ∀ t ∈ ts, t.kind = .string → '\r' ∉ t.text) :
    (∃ us, tokenizeWithComments (Text.unifyLineEnds cs) = .ok us ∧
      us.map Token.reading = ts.map Token.reading) ∧
    (∃ us vs, tokenize cs = .ok us ∧ tokenize (Text.unifyLineEnds cs) = .ok vs ∧
      vs.map Token.reading = us.map Token.reading) ∧
    (∀ nesting, parse nesting (Text.unifyLineEnds cs) = parse nesting cs) ∧
    (∀ limits, runSource limits (Text.unifyLineEnds cs) = runSource limits cs) ∧
    ∀ (o : Options) (w : Surroundings) (s : Session),
      SameEnd (s.log (.lexing cs.length)).errors
        (s.log (.lexing (Text.unifyLineEnds cs).length)).errors
        (process o cs s) (process o (Text.unifyLineEnds cs) s) ∧
      (∀ path, o.source? = some path → path ≠ "-" → w.entry path = .file cs →
        processSource o w s = process o (Text.unifyLineEnds cs) s) ∧
      (∀ argument, o.source? = some argument → argument ≠ "-" → w.entry argument = .missing →
        argument.toList = cs → processSource o w s = process o cs s) ∧
      (o.source? = none ∨ o.source? = some "-" → w.input = cs → processSource o w s =
        if cs.isEmpty then .ofSession (.misuse .emptyInput) s else process o cs s) := by
  obtain ⟨us, hus, hsame⟩ := tokenize_unified h hstring
  have hreading := SameReading.unified h hstring
  refine ⟨⟨us, hus, map_reading hsame⟩, ⟨Lexer.visible ts, Lexer.visible us, ?_, ?_, ?_⟩,
    hreading.tree, hreading.runSource, fun o w s => ⟨.process hreading o s, ?_, ?_, ?_⟩⟩
  · rw [tokenize, h]
    rfl
  · rw [tokenize, hus]
    rfl
  · exact map_reading (Lexer.visible_textless hsame)
  · intro path hsource hpath hentry
    exact CommandLine.processSource_file s hsource hpath hentry
  · intro argument hsource hargument hentry htext
    rw [CommandLine.processSource_argument s hsource hargument hentry, htext]
  · intro hsource hinput
    rw [CommandLine.processSource_input s hsource, hinput]

/-- Line ends of all three kinds, one of them behind a comment and one at the end; the text is
run from the standard input and from a file. -/
theorem mixed_line_ends_make_no_difference :
    (∃ ts us : List Token, tokenizeWithComments "a\r\r\n# c\r\"s\"\r".toList = .ok ts ∧
      (∀ t ∈ ts, t.kind = .string → '\r' ∉ t.text) ∧
      tokenizeWithComments "a\n\n# c\n\"s\"\n".toList = .ok us ∧
      us.map Token.reading = ts.map Token.reading ∧
      ts.map (fun t => (t.line, t.column)) =
        [(1, 1), (1, 2), (2, 1), (3, 1), (3, 4), (4, 1), (4, 4), (5, 1)]) ∧
    ∃ w : Surroundings, w.input = "a\r\r\n# c\r\"s\"\r".toList ∧
      w.entry "saved" = .file "a\r\r\n# c\r\"s\"\r".toList ∧
      SameEnd "" "" (processSource {} w {}) (processSource { source? := some "saved" } w {}) := by
  have hts : tokenizeWithComments "a\r\r\n# c\r\"s\"\r".toList = .ok [
      ⟨.name, .text "a", 1, 1, ['a']⟩, ⟨.newline, .text "\n", 1, 2, ['\r']⟩,
      ⟨.newline, .text "\n", 2, 1, ['\r', '\n']⟩, ⟨.comment, .text "# c", 3, 1, "# c".toList⟩,
      ⟨.newline, .text "\n", 3, 4, ['\r']⟩, ⟨.string, .text "s", 4, 1, "\"s\"".toList⟩,
      ⟨.newline, .text "\n", 4, 4, ['\r']⟩, ⟨.endOfInput, .absent, 5, 1, []⟩] :=
    Fault.eq_ok_of_toOption (by decide +kernel)
  have hstring : ∀ t ∈ [
      (⟨.name, .text "a", 1, 1, ['a']⟩ : Token), ⟨.newline, .text "\n", 1, 2, ['\r']⟩,
      ⟨.newline, .text "\n", 2, 1, ['\r', '\n']⟩, ⟨.comment, .text "# c", 3, 1, "# c".toList⟩,
      ⟨.newline, .text "\n", 3, 4, ['\r']⟩, ⟨.string, .text "s", 4, 1, "\"s\"".toList⟩,
      ⟨.newline, .text "\n", 4, 4, ['\r']⟩, ⟨.endOfInput, .absent, 5, 1, []⟩],
      t.kind = .string → '\r' ∉ t.text := by decide
  obtain ⟨⟨us, hus, hsame⟩, -, -, -, hcall⟩ :=
    line_end_style_makes_no_difference _ _ hts hstring
  refine ⟨⟨_, us, hts, hstring, hus, hsame, rfl⟩, ?_⟩
  refine ⟨⟨"a\r\r\n# c\r\"s\"\r".toList, none, fun _ => .file "a\r\r\n# c\r\"s\"\r".toList,
    "", ""⟩, rfl, rfl, ?_⟩
  obtain ⟨hends, -, -, hinput⟩ := hcall {} ⟨"a\r\r\n# c\r\"s\"\r".toList, none,
    fun _ => .file "a\r\r\n# c\r\"s\"\r".toList, "", ""⟩ {}
  obtain ⟨-, hfile, -, -⟩ := hcall { source? := some "saved" }
    ⟨"a\r\r\n# c\r\"s\"\r".toList, none, fun _ => .file "a\r\r\n# c\r\"s\"\r".toList,
      "", ""⟩ {}
  have hin := (hinput (.inl rfl) rfl).trans (if_neg (by decide))
  have hsaved := hfile "saved" rfl (by decide) rfl
  rw [CommandLine.process_withSource {}] at hsaved
  rw [hin, hsaved]
  exact hends

end ScopeScript
