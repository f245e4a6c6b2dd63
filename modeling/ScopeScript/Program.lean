import ScopeScript.Eval
import ScopeScript.Node.Parser

/-!
# Programs

A program is read as a whole before any of it runs, and runs in the scopes of
a state, so that its bindings stay for the programs after it. Reading keeps a
log of its stages, which tells how far it came.
-/

namespace ScopeScript

/-- Bounds on the nesting of programs, of evaluation and of printed trees, and on the
rounds of one loop. -/
structure Limits where
  nesting : Nat
  depth : Nat
  levels : Nat
  rounds : Nat

def Limits.standard : Limits := ⟨330, 240, 490, 1000000000⟩

/-- The stages of a program, as the log names them. -/
inductive Stage where
  | lexing (characters : Nat)
  | parsing (tokens : Nat)
  | executing (statements : Nat)
  deriving DecidableEq

def Stage.message : Stage → String
  | .lexing n => "lexing " ++ toString n ++ " characters"
  | .parsing n => "parsing " ++ toString n ++ " tokens"
  | .executing n => "executing " ++ toString n ++ " top-level statement(s)"

/-- Reads a program, and the stages that began. -/
def readProgram (limits : Limits) (source : List Char) : List Stage × Except Fault Node :=
  match tokenize source with
  | .error f => ([.lexing source.length], .error f)
  | .ok ts => ([.lexing source.length, .parsing ts.length], Parser.program limits.nesting ts)

def execute (limits : Limits) (program : Node) : Eval Value :=
  Eval.program (evalNode limits.rounds limits.depth) program.children

def runSource (limits : Limits) (source : List Char) : Eval Value := fun s =>
  match (readProgram limits source).2 with
  | .error f => (.error f, s)
  | .ok program => execute limits program s

/-- Whether a program ends with a bare expression, whose value is worth showing. -/
def endsWithExpression (program : Node) : Bool :=
  match program.children.getLast? with
  | some n => n.isExpressionStatement
  | none => false

end ScopeScript
