import ScopeScript.Token.Lexer
import ScopeScript.Text.Blank

/-!
# Highlighting

A line of typed text is cut into fragments, each with a style. Tokens have the
style of their group, and what lies between them has none. A line that cannot
be read is one fragment in the style of errors.
-/

namespace ScopeScript

/-- Groups of tokens that look alike. -/
inductive Group where
  | keyword | boolean | number | string | identifier | function | operator | punctuation
  | comment | error
  deriving DecidableEq, Repr

def Group.style : Group → String
  | .keyword => "bold ansicyan"
  | .boolean => "ansicyan"
  | .number => "ansimagenta"
  | .string => "ansigreen"
  | .function => "bold ansiyellow"
  | .comment => "italic ansigray"
  | .error => "bold ansired"
  | .identifier | .operator | .punctuation => ""

def Kind.group? : Kind → Option Group
  | .letWord | .ifWord | .elifWord | .elseWord | .whileWord | .forWord | .fnWord | .structWord
  | .breakWord | .printWord => some .keyword
  | .trueWord | .falseWord => some .boolean
  | .number => some .number
  | .string => some .string
  | .name => some .identifier
  | .plus | .minus | .star | .slash | .percent | .equal | .notEqual | .less | .lessEqual
  | .greater | .greaterEqual | .conjunction | .disjunction | .bang | .assign | .plusAssign
  | .minusAssign => some .operator
  | .openParen | .closeParen | .openBracket | .closeBracket | .openBrace | .closeBrace
  | .dot | .comma | .semicolon => some .punctuation
  | .comment => some .comment
  | .newline | .endOfInput => none

structure Fragment where
  style : String
  text : List Char
  deriving DecidableEq

namespace Fragment

def plain (text : List Char) : Fragment := ⟨"", text⟩

/-- The group of a token, given the token after it: a name before an opening parenthesis is
that of a function. -/
def groupOf (t : Token) (next? : Option Token) (group : Group) : Group :=
  match next? with
  | some next => if t.kind = .name ∧ next.kind = .openParen then .function else group
  | none => group

/-- Fragments from position `done` on, where `rest` is what follows it. A token that starts
before that position is passed over. -/
def ofTokens : List Token → Nat → List Char → List Fragment
  | [], _, rest => if rest.isEmpty then [] else [plain rest]
  | t :: ts, done, rest =>
    match t.kind.group? with
    | none => ofTokens ts done rest
    | some group =>
      let start := t.column - 1
      if start < done then ofTokens ts done rest
      else
        let gap := rest.take (start - done)
        let styled : Fragment := ⟨(groupOf t ts.head? group).style, t.text⟩
        let after := ofTokens ts (start + t.text.length) (rest.drop (start - done + t.text.length))
        if gap.isEmpty then styled :: after else plain gap :: styled :: after

def ofLine (line : List Char) : Except Fault (List Fragment) :=
  if line.isEmpty then .ok [plain []]
  else
    match tokenizeWithComments line with
    | .ok ts =>
      let fragments := ofTokens ts 0 line
      .ok (if fragments.isEmpty then [plain line] else fragments)
    | .error (.lexical _) => .ok [⟨Group.error.style, line⟩]
    | .error f => .error f

/-- The fragments of each line of a text, and of the empty line past its end. -/
def ofText (text : List Char) : Except Fault (List (List Fragment)) := do
  let lines ← (Text.lines text).mapM ofLine
  return lines ++ [[plain []]]

end Fragment

end ScopeScript
