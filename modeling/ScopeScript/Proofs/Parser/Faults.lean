import ScopeScript.Proofs.Parser.Exact
import ScopeScript.Proofs.Parser.Progress

/-!
# Why parsers fail

A parser fails because of the tokens that it reads or because they nest too
deep, never because a loop has run out of rounds: a loop is given one round
more than there are tokens, and every round but the last one reads a token.
-/

namespace ScopeScript

/-- The faults of parsers. -/
def Fault.isGrammatical : Fault → Bool
  | .grammar .. | .nestingLimit => true
  | _ => false

theorem Parser.program_blames {nesting : Nat} {ts : List Token} {f : Fault}
    (h : Parser.program nesting ts = .error f) : f.isGrammatical = true := by
  have hends : Parser.Ends (fun f => f.isGrammatical = true) (fun _ => 0)
      (Parser.programTree (Parser.topContext ts) (Parser.descent nesting)) ts :=
    Parser.programTree_ends (fun _ _ _ => rfl) Parser.kind_topContext fun _ => rfl
  exact hends.error f (Parser.run'_eq_error.mp h)

/-- A program that cannot be read has a lexical fault or a fault of its grammar, has a numeral
that is too long or nests too deep. -/
theorem parse_error {nesting : Nat} {cs : List Char} {f : Fault}
    (h : parse nesting cs = .error f) :
    f.isGrammatical = true ∨ f = .numeralTooLong ∨ ∃ cause, f = .lexical cause := by
  unfold parse at h
  cases hts : tokenize cs with
  | error e =>
    rw [hts] at h
    cases h
    exact .inr (tokenize_error hts)
  | ok ts =>
    rw [hts] at h
    exact .inl (Parser.program_blames h)

end ScopeScript
