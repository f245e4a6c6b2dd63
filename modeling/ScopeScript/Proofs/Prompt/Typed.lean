import ScopeScript.Proofs.Prompt.Brackets
import ScopeScript.Proofs.Session.Alike
import ScopeScript.Proofs.Session.Commands

/-!
# Typing a program line by line

As long as brackets are open, enter begins a new line and indents it. The
blanks at the front of the line move its tokens to the right and change nothing
else, so the text that is submitted in the end has the tree of the lines as they
were typed, in other columns.
-/

namespace ScopeScript

open Lexer (Cuts)

/-! ## Tokens up to their columns -/

namespace Token

abbrev columnless (t : Token) : Token := PlaceMap.columnless.token t

theorem Moved.columnless {t u : Token} (h : Moved (fun p q => p.line = q.line) t u) :
    t.columnless = u.columnless := by
  obtain ⟨kind, datum, line, column, text⟩ := u
  obtain ⟨rfl, rfl, rfl, rfl⟩ := h
  rfl

theorem map_columnless {ts us : List Token}
    (h : List.Forall₂ (Moved fun p q => p.line = q.line) ts us) :
    ts.map columnless = us.map columnless := by
  induction h with
  | nil => rfl
  | cons h _ ih => rw [List.map_cons, List.map_cons, h.columnless, ih]

end Token

namespace Prompt

variable {b j l : List Char} {ls : List (List Char)} {ts us : List Token} {p : Prompt}

theorem depthAfter_columnless (ts : List Token) :
    depthAfter (ts.map Token.columnless) = depthAfter ts := List.foldl_map

/-! ## The start of a line -/

/-- Whatever is typed behind `b` has the tokens that it has behind `j`, up to columns. -/
def Ahead (b j : List Char) : Prop := ∀ l us, Cuts .start (j ++ l) us →
  ∃ ts, Cuts .start (b ++ l) ts ∧ ts.map Token.columnless = us.map Token.columnless

theorem Ahead.tokenize (h : Ahead b j) (hus : tokenize (j ++ l) = .ok us) :
    ∃ ts, tokenize (b ++ l) = .ok ts ∧ ts.map Token.columnless = us.map Token.columnless := by
  obtain ⟨us, hcuts, rfl⟩ := Lexer.tokenize_eq_ok_iff.mp hus
  obtain ⟨ts, hts, heq⟩ := h l us hcuts
  refine ⟨_, Lexer.tokenize_eq_ok_iff.mpr ⟨ts, hts, rfl⟩, ?_⟩
  have hfilter (ts : List Token) : (ts.filter (·.kind ≠ .comment)).map Token.columnless =
      (ts.map Token.columnless).filter (·.kind ≠ .comment) := by
    rw [List.filter_map]
    rfl
  rw [hfilter, hfilter, heq]

/-- The blanks in front of the next line move it to the right. -/
theorem Ahead.newline (h : Ahead b j) (hcuts : Cuts .start (j ++ l) us) (hb : '\r' ∉ b ++ l)
    (hj : '\r' ∉ j ++ l) (n : Nat) :
    Ahead (b ++ l ++ '\n' :: List.replicate n ' ') (j ++ l ++ ['\n']) := by
  intro l' ws hws
  obtain ⟨ts, hts, heq⟩ := h l us hcuts
  obtain ⟨xs, q, rfl, hlines⟩ := hcuts.lines_iff hj
  obtain ⟨xs', q', rfl, hlines'⟩ := hts.lines_iff hb
  rw [List.map_append, List.map_append] at heq
  have hend := List.append_inj_right' heq rfl
  have hline : q.line = q'.line := (congrArg Token.line (List.cons.inj hend).1).symm
  have hfront : xs'.map Token.columnless = xs.map Token.columnless := List.append_inj_left' heq rfl
  rw [List.append_assoc, List.cons_append, List.nil_append] at hws
  obtain ⟨vs, rfl, hvs⟩ := (hlines l' ws).mp hws
  obtain ⟨vs', hvs', hmoved⟩ :=
    hvs.indented (q := q'.nextLine) (congrArg (· + 1) hline) n
  refine ⟨xs' ++ Lexer.newlineToken q' :: vs', ?_, ?_⟩
  · rw [List.append_assoc, List.cons_append]
    exact (hlines' _ _).mpr ⟨vs', rfl, hvs'⟩
  · have hnewline : (Lexer.newlineToken q').columnless = (Lexer.newlineToken q).columnless :=
      congrArg (fun line => (⟨.newline, .text "\n", line, 0, ['\n']⟩ : Token)) hline.symm
    rw [List.map_append, List.map_append, List.map_cons, List.map_cons, hfront, hnewline,
      Token.map_columnless hmoved]

/-- A line without line ends and without characters that are lost on submission. -/
def Plain (l : List Char) : Prop := ∀ c ∈ l, c ≠ '\n' ∧ Session.isInvisible c = false

instance (l : List Char) : Decidable (Plain l) := List.decidableBAll _ l

/-- The buffer `b` at the start of a line, where the lines before it are `j`. -/
structure Fresh (b j : List Char) : Prop where
  ahead : Ahead b j
  shape : (b = [] ∧ j = []) ∨ ∃ text n, b = text ++ '\n' :: List.replicate n ' '
  buffer_visible : ∀ c ∈ b, Session.isInvisible c = false
  lines_visible : ∀ c ∈ j, Session.isInvisible c = false

theorem Fresh.empty : Fresh [] [] where
  ahead _ us h := ⟨us, h, rfl⟩
  shape := .inl ⟨rfl, rfl⟩
  buffer_visible := List.forall_mem_nil _
  lines_visible := List.forall_mem_nil _

theorem not_return {cs : List Char} (h : ∀ c ∈ cs, Session.isInvisible c = false) : '\r' ∉ cs :=
  fun hmem => absurd (h '\r' hmem) (by decide)

theorem Fresh.newline (h : Fresh b j) (hl : Plain l)
    (hus : ScopeScript.tokenize (j ++ l) = .ok us) (n : Nat) :
    Fresh (b ++ l ++ '\n' :: List.replicate n ' ') (j ++ l ++ ['\n']) := by
  have hvisible {cs : List Char} (hcs : ∀ c ∈ cs, Session.isInvisible c = false) :
      ∀ c ∈ cs ++ l, Session.isInvisible c = false :=
    List.forall_mem_append.mpr ⟨hcs, fun c hc => (hl c hc).2⟩
  have hblanks : ∀ c ∈ '\n' :: List.replicate n ' ', Session.isInvisible c = false := by
    refine List.forall_mem_cons.mpr ⟨by decide, fun c hc => ?_⟩
    rw [List.eq_of_mem_replicate hc]
    decide
  obtain ⟨us, hcuts, rfl⟩ := Lexer.tokenize_eq_ok_iff.mp hus
  exact {
    ahead := h.ahead.newline hcuts (not_return (hvisible h.buffer_visible))
      (not_return (hvisible h.lines_visible)) n
    shape := .inr ⟨b ++ l, n, rfl⟩
    buffer_visible := List.forall_mem_append.mpr ⟨hvisible h.buffer_visible, hblanks⟩
    lines_visible := List.forall_mem_append.mpr
      ⟨hvisible h.lines_visible, List.forall_mem_singleton.mpr (by decide)⟩ }

/-! ## Enter -/

theorem lines_append (cs ds : List Char) :
    Text.lines (cs ++ '\n' :: ds) = Text.lines cs ++ Text.lines ds := by
  induction cs with
  | nil => exact if_pos rfl
  | cons c cs ih =>
    rw [List.cons_append, Text.lines, Text.lines, ih]
    split
    · rfl
    · cases hcs : Text.lines cs with
      | nil => exact absurd hcs (Text.lines_ne_nil cs)
      | cons l ls => rfl

theorem lines_single {cs : List Char} (h : '\n' ∉ cs) : Text.lines cs = [cs] := by
  induction cs with
  | nil => rfl
  | cons c cs ih =>
    obtain ⟨hc, hcs⟩ := not_or.mp (mt List.mem_cons.mpr h)
    rw [Text.lines, if_neg (Ne.symm hc), ih hcs]

/-- Enter behind a line that is not empty goes by the brackets alone. -/
theorem Fresh.enter (h : Fresh b j) (hl : Plain l) (hblank : b = [] ∨ Text.allBlank l = false)
    {depth : Nat} (hdepth : openDepth (b ++ l) = .ok depth) : enter (b ++ l) = .ok
      (if depth = 0 then .submit (b ++ l)
      else .goOn (b ++ l ++ '\n' :: List.replicate (indentWidth * depth) ' ')) := by
  have hindent : indent (b ++ l) = .ok (List.replicate (indentWidth * depth) ' ') := by
    rw [indent, hdepth]
    rfl
  have hdecide : (do
      if (← openDepth (b ++ l)) = 0 then return .submit (b ++ l)
      else return .goOn ((b ++ l) ++ '\n' :: (← indent (b ++ l))) : Except Fault Decision) = .ok
        (if depth = 0 then .submit (b ++ l)
        else .goOn (b ++ l ++ '\n' :: List.replicate (indentWidth * depth) ' ')) := by
    rw [hdepth, hindent]
    change (if depth = 0 then _ else _) = _
    split <;> rfl
  have hnewline : '\n' ∉ l := fun hmem => (hl '\n' hmem).1 rfl
  unfold Prompt.enter
  rcases h.shape with ⟨rfl, -⟩ | ⟨text, n, rfl⟩
  · rw [List.nil_append] at hdecide ⊢
    dsimp only
    rw [lines_single hnewline, if_pos List.length_singleton]
    exact hdecide
  · have hlast : '\n' ∉ List.replicate n ' ' ++ l := by
      intro hmem
      rcases List.mem_append.mp hmem with hmem | hmem
      · exact absurd (List.eq_of_mem_replicate hmem) (by decide)
      · exact hnewline hmem
    have hlines : Text.lines ((text ++ '\n' :: List.replicate n ' ') ++ l) =
        Text.lines text ++ [List.replicate n ' ' ++ l] := by
      rw [List.append_assoc, List.cons_append, lines_append, lines_single hlast]
    have hmany : (Text.lines text ++ [List.replicate n ' ' ++ l]).length ≠ 1 := by
      have := List.length_pos_iff.mpr (Text.lines_ne_nil text)
      rw [List.length_append, List.length_singleton]
      omega
    have hfilled : ¬Text.allBlank ((Text.lines text ++ [List.replicate n ' ' ++ l]).getLast?.getD
        []) = true := by
      rw [List.getLast?_append_of_ne_nil _ (List.cons_ne_nil _ _), List.getLast?_singleton,
        Option.getD_some, Text.allBlank, List.all_append]
      rcases hblank with hnil | hl
      · simp at hnil
      · rw [show l.all Text.isBlank = false from hl, Bool.and_false]
        exact Bool.false_ne_true
    dsimp only
    rw [hlines, if_neg hmany, if_neg hfilled]
    exact hdecide

/-! ## All lines -/

/-- The keys of lines that are typed one after another. -/
def typed (ls : List (List Char)) : List Key := ls.flatMap fun l => [.text l, .enter]

/-- The text that one key submits, if it submits one. -/
def submitted (k : Key) (p : Prompt) : List (List Char) :=
  match k, enter p.buffer with
  | .enter, .ok (.submit text) => [text]
  | _, _ => []

/-- The texts that keys submit, in order. -/
def submissions : List Key → Prompt → List (List Char)
  | [], _ => []
  | k :: ks, p =>
    if p.isOpen then p.submitted k ++ match p.press k with
      | (.ok (), p) => submissions ks p
      | (.error _, _) => []
    else []

/-- The last of these keys, and no other, submits a text. -/
structure Whole (p : Prompt) (ks : List Key) (text : List Char) : Prop where
  before : submissions ks.dropLast p = []
  once : submissions ks p = [text]
  pressed : pressAll ks p = p.submit text

namespace Whole

variable {ks : List Key} {cs : List Char}

theorem last (hp : p.isOpen = true) (henter : enter p.buffer = .ok (.submit cs)) :
    Whole p [.enter] cs := by
  have hpress : p.press .enter = p.submit cs := by
    rw [press, henter]
  refine ⟨rfl, ?_, ?_⟩
  · have hsubmitted : p.submitted .enter = [cs] := by
      simp only [submitted, henter]
    rw [submissions, if_pos hp, hsubmitted]
    cases p.press .enter with
    | mk r q => cases r <;> rfl
  · rw [pressAll, if_pos hp, hpress]
    cases p.submit cs with
    | mk r q => cases r <;> rfl

/-- A key that submits nothing and only changes the buffer. -/
theorem cons {k : Key} {b : List Char} (hp : p.isOpen = true) (hk : p.submitted k = [])
    (hpress : p.press k = (.ok (), { p with buffer := b }))
    (h : Whole { p with buffer := b } ks cs) : Whole p (k :: ks) cs := by
  obtain ⟨hbefore, honce, hpressed⟩ := h
  have hks : ks ≠ [] := by
    rintro rfl
    cases honce
  refine ⟨?_, ?_, ?_⟩
  · rw [List.dropLast_cons_of_ne_nil hks, submissions, if_pos hp, hk, hpress]
    exact hbefore
  · rw [submissions, if_pos hp, hk, hpress]
    exact honce
  · rw [pressAll, if_pos hp, hpress]
    exact hpressed

theorem text (hp : p.isOpen = true) (h : Whole { p with buffer := p.buffer ++ l } ks cs) :
    Whole p (.text l :: ks) cs :=
  h.cons hp rfl rfl

theorem goOn {b : List Char} (hp : p.isOpen = true) (henter : enter p.buffer = .ok (.goOn b))
    (h : Whole { p with buffer := b } ks cs) : Whole p (.enter :: ks) cs := by
  refine h.cons hp ?_ ?_
  · simp only [submitted, henter]
  · rw [press, henter]

end Whole

/-- A text that can be cut into tokens and leaves brackets open. -/
def OpenAfter (text : List Char) : Prop :=
  (∃ ts, tokenize text = .ok ts) ∧ ∃ n, openDepth text = .ok n ∧ 0 < n

theorem unlines_cons {ls : List (List Char)} (hls : ls ≠ []) (l : List Char) :
    unlines (l :: ls) = l ++ '\n' :: unlines ls := by
  cases ls with
  | nil => exact absurd rfl hls
  | cons m ls => rfl

theorem openDepth_of_tokenize {text : List Char} (h : tokenize text = .ok ts) :
    openDepth text = .ok (depthAfter ts) := by
  rw [openDepth, h]

/-- The brackets that are open behind a line are open in the buffer. -/
theorem Fresh.openDepth (h : Fresh b j) (hus : tokenize (j ++ l) = .ok us) :
    openDepth (b ++ l) = .ok (depthAfter us) := by
  obtain ⟨ts, hts, heq⟩ := h.ahead.tokenize hus
  rw [openDepth_of_tokenize hts, ← depthAfter_columnless ts, heq, depthAfter_columnless]

/-- Lines that are typed from the start of one of them on. Each line but the last one leaves a
buffer that is fresh again. -/
theorem Fresh.typed (h : Fresh p.buffer j) (hp : p.isOpen = true) (hl : Plain l)
    (hblank : p.buffer = [] ∨ Text.allBlank l = false) (hls : ∀ m ∈ ls, Plain m)
    (hfilled : ∀ m ∈ ls, Text.allBlank m = false)
    (hopen : ∀ k, 0 < k → k < (l :: ls).length → OpenAfter (j ++ unlines ((l :: ls).take k)))
    (hus : tokenize (j ++ unlines (l :: ls)) = .ok us) (hclosed : depthAfter us = 0) :
    ∃ text ts, Whole p (typed (l :: ls)) text ∧ tokenize text = .ok ts ∧
      ts.map Token.columnless = us.map Token.columnless ∧
      ∀ c ∈ text, Session.isInvisible c = false := by
  induction ls generalizing j l p with
  | nil =>
    obtain ⟨ts, hts, heq⟩ := h.ahead.tokenize hus
    have henter := h.enter hl hblank (h.openDepth hus)
    rw [if_pos hclosed] at henter
    refine ⟨p.buffer ++ l, ts, ?_, hts, heq, ?_⟩
    · exact .text hp (.last hp henter)
    · exact List.forall_mem_append.mpr ⟨h.buffer_visible, fun c hc => (hl c hc).2⟩
  | cons m ls ih =>
    obtain ⟨⟨vs, hvs⟩, n, hn, hdepth⟩ := hopen 1 Nat.one_pos (by simp)
    cases hn.symm.trans (openDepth_of_tokenize hvs)
    have henter := h.enter hl hblank (h.openDepth hvs)
    rw [if_neg (Nat.pos_iff_ne_zero.mp hdepth)] at henter
    obtain ⟨hm, hrest⟩ := List.forall_mem_cons.mp hls
    obtain ⟨hfull, hfilled⟩ := List.forall_mem_cons.mp hfilled
    have hjoin (ms : List (List Char)) (hms : ms ≠ []) :
        j ++ unlines (l :: ms) = j ++ l ++ ['\n'] ++ unlines ms := by
      rw [unlines_cons hms]
      simp only [List.append_assoc, List.cons_append, List.nil_append]
    have hnext : Fresh (Prompt.mk p.session (p.buffer ++ l ++ '\n' ::
        List.replicate (indentWidth * depthAfter vs) ' ') p.isOpen).buffer (j ++ l ++ ['\n']) :=
      h.newline hl hvs _
    have hprefixes (k : Nat) (hk : 0 < k) (hlength : k < (m :: ls).length) :
        OpenAfter (j ++ l ++ ['\n'] ++ unlines ((m :: ls).take k)) := by
      have htake : (m :: ls).take k ≠ [] := by
        rw [ne_eq, List.take_eq_nil_iff]
        rintro (rfl | hnil)
        · exact Nat.lt_irrefl 0 hk
        · cases hnil
      have hprefix := hopen (k + 1) (Nat.succ_pos k) (Nat.succ_lt_succ hlength)
      rwa [List.take_succ_cons, hjoin _ htake] at hprefix
    obtain ⟨text, ts, hwhole, hts, heq, hvisible⟩ := ih hnext hp hm (.inr hfull) hrest hfilled
      hprefixes (hjoin _ (List.cons_ne_nil _ _) ▸ hus)
    exact ⟨text, ts, .text hp (.goOn hp henter hwhole), hts, heq, hvisible⟩

/-- A program that has been submitted is read and run, unless it is blank. -/
theorem submit_program {nesting : Nat} {text : List Char} {n : Node}
    (hvisible : ∀ c ∈ text, Session.isInvisible c = false) (h : parse nesting text = .ok n)
    (hbuffer : p.buffer = []) : p.submit text =
      if Text.allBlank text then (.ok (), p)
      else ((p.session.echo text).1, { p with session := (p.session.echo text).2 }) := by
  have hnormal : Session.normalize text = text :=
    List.filter_eq_self.mpr fun c hc => by rw [hvisible c hc]; rfl
  obtain ⟨session, buffer, isOpen⟩ := p
  obtain rfl : buffer = [] := hbuffer
  unfold submit
  rw [hnormal]
  dsimp only
  rw [Session.command_of_parse h]

end Prompt

end ScopeScript
