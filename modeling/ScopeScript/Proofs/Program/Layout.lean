import ScopeScript.Proofs.Lexer.Filling
import ScopeScript.Proofs.Prompt.Typed

/-!
# The layout of a program

Blanks between the tokens of a text, and comments at the ends of its lines,
leave its tokens as they are up to their columns, and so the tree that is read
from them or the fault that reading them has.
-/

namespace ScopeScript

open Lexer (Cuts SameCuts Filler IsFree standing visible isSpace endsComment)

variable {cs ds ins : List Char} {ts us vs : List Token} {m : Nat}

/-- Two texts with tokens of the same kinds and data, which are read as trees or fail with faults
that are the same up to columns. -/
structure SameProgram (cs ds : List Char) : Prop where
  tokens : ∃ ts us, tokenize cs = .ok ts ∧ tokenize ds = .ok us ∧
    us.map (fun t => (t.kind, t.datum)) = ts.map fun t => (t.kind, t.datum)
  tree {nesting : Nat} {p : Node} : parse nesting cs = .ok p →
    ∃ q, parse nesting ds = .ok q ∧ q.columnless = p.columnless
  fault {nesting : Nat} {f : Fault} : parse nesting cs = .error f →
    ∃ g, parse nesting ds = .error g ∧ PlaceMap.columnless.fault g = PlaceMap.columnless.fault f

theorem SameProgram.of_tokens (hcs : tokenize cs = .ok ts) (hds : tokenize ds = .ok us)
    (hmoved : List.Forall₂ (Token.Moved fun p q => p.line = q.line) ts us) :
    SameProgram cs ds := by
  have hsame : us.map Token.columnless = ts.map Token.columnless :=
    (Token.map_columnless hmoved).symm
  have hts : ts ≠ [] := by
    obtain ⟨vs, stop, rfl, -⟩ := tokenize_ends hcs
    exact List.append_ne_nil_of_right_ne_nil _ (List.cons_ne_nil _ _)
  have hparse {es : List Char} {ws : List Token} (h : tokenize es = .ok ws) (nesting : Nat) :
      parse nesting es = Parser.program nesting ws := by
    rw [parse, h]
    rfl
  refine ⟨⟨ts, us, hcs, hds, ?_⟩, fun hp => ?_, fun hf => ?_⟩
  · have hmapped := congrArg (List.map fun t => (t.kind, t.datum)) hsame
    rwa [List.map_map, List.map_map] at hmapped
  · rw [hparse hcs] at hp
    rw [hparse hds]
    exact Parser.program_of_placed_eq PlaceMap.columnless hts hsame hp
  · rw [hparse hcs] at hf
    rw [hparse hds]
    exact Parser.program_error_of_placed_eq PlaceMap.columnless hts hsame hf

theorem SameProgram.filled (h : tokenizeWithComments cs = .ok ts) (hm : m ≤ cs.length)
    (hfree : IsFree (standing 0 cs ts) m) (hfill : Filler (cs.drop m) ins) :
    SameProgram cs (cs.take m ++ (ins ++ cs.drop m)) := by
  have hcuts : Cuts .start cs ts := (Lexer.lexemes_eq_ok_iff (Nat.le_refl _)).mp h
  have hsame : SameCuts .start (cs.take m ++ (ins ++ cs.drop m)) ts := by
    by_cases hins : ins = []
    · obtain ⟨us, hus, hmoved⟩ := hcuts.moved (q := .start) Lexer.kept_line rfl
      rw [hins, List.nil_append, List.take_append_drop]
      exact ⟨us, hus, Lexer.visible_moved hmoved⟩
    · exact hcuts.filled hm (by rwa [Nat.zero_add]) hfill hins rfl
  obtain ⟨us, hus, hmoved⟩ := hsame
  exact .of_tokens (Lexer.tokenize_eq_ok_iff.mpr ⟨ts, hcuts, rfl⟩)
    (Lexer.tokenize_eq_ok_iff.mpr ⟨us, hus, rfl⟩) hmoved

/-- Layout makes no difference. Where a text can be read, blanks at an offset that is not
strictly inside a token other than a comment, and a comment in front of a line end or at the end
of the text, leave the kinds and data of its tokens, and what is read from them up to columns. -/
theorem layout_makes_no_difference (cs : List Char) (ts : List Token)
    (h : tokenizeWithComments cs = .ok ts) :
    (∀ m blanks, m ≤ cs.length → IsFree (standing 0 cs ts) m →
      (∀ c ∈ blanks, c = ' ' ∨ c = '\t') →
      SameProgram cs (cs.take m ++ (blanks ++ cs.drop m))) ∧
    ∀ body, (∀ c ∈ body, c ≠ '\r' ∧ c ≠ '\n' ∧ c ≠ '\x00') →
      SameProgram cs (cs ++ '#' :: body) ∧
      ∀ i nl, (i, nl) ∈ standing 0 cs ts → nl.kind = .newline →
        SameProgram cs (cs.take i ++ ('#' :: body ++ cs.drop i)) := by
  have hcuts : Cuts .start cs ts := (Lexer.lexemes_eq_ok_iff (Nat.le_refl _)).mp h
  refine ⟨fun m blanks hm hfree hblanks => ?_, fun body hbody => ?_⟩
  · refine .filled h hm hfree (.blanks fun c hc => ?_)
    rw [isSpace, Bool.or_eq_true, decide_eq_true_eq, decide_eq_true_eq]
    exact hblanks c hc
  have hends : ∀ c ∈ body, endsComment c = false := by
    intro c hc
    obtain ⟨hreturn, hfeed, hnull⟩ := hbody c hc
    simp [endsComment, hreturn, hfeed, hnull]
  constructor
  · have hend : Filler (cs.drop cs.length) ('#' :: body) := by
      rw [List.drop_length]
      exact .comment hends trivial
    have hsame := SameProgram.filled h (Nat.le_refl _) hcuts.isFree_end hend
    rwa [List.take_length, List.drop_length, List.append_nil] at hsame
  · intro i nl hnl hkind
    obtain ⟨before, after, hcs, hoffset, hfollows⟩ := hcuts.standing hnl
    rw [Nat.zero_add] at hoffset
    have hdrop : cs.drop i = nl.text ++ after := by
      rw [show i = before.length from hoffset, hcs, List.drop_left]
    have hle : i ≤ cs.length := by
      rw [show i = before.length from hoffset, hcs, List.length_append]
      exact Nat.le_add_right ..
    exact .filled h hle (Lexer.isFree_standing hnl) (hdrop ▸ .comment hends (hfollows hkind))

/-- Blanks between two tokens and inside of a comment, and comments at the ends of two lines. -/
theorem layout_of_two_lines : ∃ (cs : List Char) (ts : List Token) (nl : Token),
    cs = "x=1.5#c\r\ny".toList ∧ tokenizeWithComments cs = .ok ts ∧
    IsFree (standing 0 cs ts) 2 ∧ IsFree (standing 0 cs ts) 6 ∧ ¬IsFree (standing 0 cs ts) 4 ∧
    (7, nl) ∈ standing 0 cs ts ∧ nl.kind = .newline ∧
    SameProgram cs "x= \t1.5#c\r\ny".toList ∧ SameProgram cs "x=1.5# c\r\ny".toList ∧
    SameProgram cs "x=1.5#c\r\ny# \"".toList ∧ SameProgram cs "x=1.5#c# \"\r\ny".toList := by
  have hts : tokenizeWithComments "x=1.5#c\r\ny".toList = .ok [
      ⟨.name, .text "x", 1, 1, ['x']⟩, ⟨.assign, .text "=", 1, 2, ['=']⟩,
      ⟨.number, .float (Decimal.toBinary64 false ⟨15, -1⟩), 1, 3, "1.5".toList⟩,
      ⟨.comment, .text "#c", 1, 6, ['#', 'c']⟩, ⟨.newline, .text "\n", 1, 8, ['\r', '\n']⟩,
      ⟨.name, .text "y", 2, 1, ['y']⟩, ⟨.endOfInput, .absent, 2, 2, []⟩] :=
    Fault.eq_ok_of_toOption (by decide +kernel)
  obtain ⟨hblanks, hcomments⟩ := layout_makes_no_difference _ _ hts
  obtain ⟨hend, hlines⟩ := hcomments [' ', '"'] (by simp)
  have hline := hlines 7 ⟨.newline, .text "\n", 1, 8, ['\r', '\n']⟩ (by decide +kernel) rfl
  exact ⟨_, _, ⟨.newline, .text "\n", 1, 8, ['\r', '\n']⟩, rfl, hts, by decide +kernel,
    by decide +kernel, by decide +kernel, by decide +kernel, rfl,
    hblanks 2 [' ', '\t'] (by decide) (by decide +kernel) (by simp),
    hblanks 6 [' '] (by decide) (by decide +kernel) (by simp), hend, hline⟩

end ScopeScript
