import ScopeScript.Fault
import ScopeScript.Node
import ScopeScript.Token.Lexer

/-!
# Parsing

Statements are parsed by the kind of their first token, expressions by
binding powers. A parser takes the tokens that are not read yet and returns
those that it leaves; past their end stands an end token at the place of the
last token.

Nesting is explicit: `Descent` holds the parsers for the parts one level down,
and `descent n` the parsers for programs nested at most `n` deep. Loops along
one level are bounded by the number of unread tokens.
-/

namespace ScopeScript

namespace Kind

/-- The kinds that end an expression and are left to the statement around it. -/
def endsExpression : Kind → Bool
  | .endOfInput | .newline | .semicolon | .comma | .closeParen | .closeBracket | .closeBrace =>
    true
  | _ => false

/-- The power with which an infix operator binds its left operand. All of them group to
the left, so the right operand is bound one step tighter. -/
def infixPower? : Kind → Option Nat
  | .equal | .notEqual | .less | .greater | .lessEqual | .greaterEqual => some 1
  | .conjunction | .disjunction => some 3
  | .percent => some 5
  | .plus | .minus | .plusAssign | .minusAssign => some 7
  | .star | .slash => some 9
  | .dot => some 11
  | _ => none

def minusPower : Nat := 13

def bangPower : Nat := 15

def indexPower : Nat := 17

def isAssignment : Kind → Bool
  | .assign | .plusAssign | .minusAssign => true
  | _ => false

end Kind

/-- The leaf of an operator, in its canonical spelling and without a place. -/
def Leaf.ofOperator (t : Token) : Leaf :=
  match t.kind with
  | .conjunction => ⟨t.kind.label, "&&", none, none⟩
  | .disjunction => ⟨t.kind.label, "||", none, none⟩
  | kind => ⟨kind.label, t.datum.display, none, none⟩

def Datum.toValue : Datum → Value
  | .text s => .string s
  | .int i => .int i
  | .float x => .float x
  | .absent => .absent

abbrev Parser := StateT (List Token) (Except Fault)

namespace Parser

/-- Where and how a part of a program is parsed: the token that stands past the end of the
list, and whether the part belongs to the header of a `for`. -/
structure Context where
  endToken : Token
  inHeader : Bool

def Context.header (ctx : Context) : Context := { ctx with inHeader := true }

/-- The parsers for parts one nesting level down. A statement is absent at the end of its
block; an expression is parsed with a least binding power. -/
structure Descent where
  statement : Context → Parser (Option Node)
  branch : Context → Parser Node
  expression : Context → Nat → Parser Node

def Descent.bottom : Descent where
  statement _ := throw .nestingLimit
  branch _ := throw .nestingLimit
  expression _ _ := throw .nestingLimit

def current (ctx : Context) : Parser Token := do
  return (← get).headD ctx.endToken

def second (ctx : Context) : Parser Token := do
  return (← get).tail.headD ctx.endToken

def advance : Parser Unit := modify List.tail

def failAt (t : Token) (cause : ParseCause) : Parser α :=
  throw (.grammar cause t.line t.column)

/-- Reads the current token, which has to be of a kind. -/
def expect (ctx : Context) (kind : Kind) (what : Expectation) : Parser Token := do
  let t ← current ctx
  if t.kind = kind then
    advance
    return t
  else failAt t (.missing what)

/-- Drops tokens of the given kinds from the front. -/
def skip (kinds : List Kind) : Parser Unit :=
  modify (List.dropWhile fun t => kinds.contains t.kind)

def accept (ctx : Context) (kind : Kind) : Parser Bool := do
  let t ← current ctx
  if t.kind = kind then
    advance
    return true
  else return false

/-! ## Expressions -/

/-- The nodes of a list up to a closing token, without reading it. Line ends are allowed
around the nodes, and a comma after the last one. -/
def items (ctx : Context) (d : Descent) (close : Kind) : Nat → Parser (List Node)
  | 0 => throw .iterationLimit
  | fuel + 1 => do
    let t ← current ctx
    if t.kind = close ∨ t.kind = .endOfInput then return []
    else
      let n ← d.expression ctx 0
      skip [.newline]
      if ← accept ctx .comma then
        skip [.newline]
        return n :: (← items ctx d close fuel)
      else return [n]

def enclosed (ctx : Context) (d : Descent) (close : Kind) (what : Expectation) :
    Parser (List Node) := do
  advance
  skip [.newline]
  let ns ← items ctx d close ((← get).length + 1)
  let _ ← expect ctx close what
  return ns

/-- Parameter names up to the closing parenthesis, without reading it. -/
def parameterNames (ctx : Context) : Nat → Parser (List Node)
  | 0 => throw .iterationLimit
  | fuel + 1 => do
    let t ← current ctx
    if t.kind = .closeParen ∨ t.kind = .endOfInput then return []
    else
      let p ← expect ctx .name .parameterName
      let n : Node := .leaf (.ofName p)
      if ← accept ctx .comma then return n :: (← parameterNames ctx fuel)
      else return [n]

def parameterList (ctx : Context) : Parser Node := do
  let _ ← expect ctx .openParen .openParameters
  let ns ← parameterNames ctx ((← get).length + 1)
  let _ ← expect ctx .closeParen .closeParameters
  return .parameters ns none

/-- Statements up to the end of the input or a closing brace. -/
def statements (ctx : Context) (d : Descent) : Nat → Parser (List Node)
  | 0 => throw .iterationLimit
  | fuel + 1 => do
    match ← d.statement ctx with
    | none => return []
    | some n => return n :: (← statements ctx d fuel)

def blockBody (ctx : Context) (d : Descent) : Parser (List Node) := do
  statements ctx d ((← get).length + 1)

def braced (ctx : Context) (d : Descent) : Parser (List Node) := do
  skip [.newline]
  let _ ← expect ctx .openBrace (.openBlock (← current ctx).kind)
  let ns ← blockBody ctx d
  let _ ← expect ctx .closeBrace (.closeBlock (← current ctx).kind)
  return ns

def functionRest (ctx : Context) (d : Descent) (fn : Token) : Parser Node := do
  let parameters ← parameterList ctx
  let body ← braced ctx d
  return .function parameters (.block body none) fn.line

def operand (ctx : Context) (d : Descent) : Parser Node := do
  let t ← current ctx
  match t.kind with
  | .number | .string =>
    advance
    return .literal t.datum.toValue none
  | .trueWord =>
    advance
    return .literal (.bool true) none
  | .falseWord =>
    advance
    return .literal (.bool false) none
  | .name =>
    advance
    let callee : Node := .leaf (.ofName t)
    if (← current ctx).kind = .openParen then
      let ns ← enclosed ctx d .closeParen .closeArguments
      return .call callee (.arguments ns none) t.line
    else return callee
  | .openParen =>
    advance
    let n ← d.expression ctx 0
    if ← accept ctx .closeParen then return n else failAt t .unbalancedParen
  | .openBracket =>
    let ns ← enclosed ctx d .closeBracket .closeArray
    return .array ns none
  | .fnWord =>
    advance
    functionRest ctx d t
  | .minus =>
    advance
    return .unary (.ofOperator t) (← d.expression ctx Kind.minusPower) t.line
  | .bang =>
    advance
    return .unary (.ofOperator t) (← d.expression ctx Kind.bangPower) t.line
  | .endOfInput => failAt t .endOfInput
  | kind => failAt t (.inExpression kind)

/-- Folds the operators that follow into an operand, as long as they bind at least with
the given power. -/
def operators (ctx : Context) (d : Descent) (power : Nat) : Nat → Node → Parser Node
  | 0, _ => throw .iterationLimit
  | fuel + 1, left => do
    let t ← current ctx
    if t.kind.endsExpression then return left
    else if t.kind = .openBracket then
      if Kind.indexPower < power then return left
      else
        advance
        let position ← d.expression ctx 0
        let _ ← expect ctx .closeBracket .closeIndex
        operators ctx d power fuel (.index left position t.line)
    else
      match t.kind.infixPower? with
      | none => failAt t (.afterExpression t.kind)
      | some p =>
        if p < power then return left
        else
          advance
          let right ← d.expression ctx (p + 1)
          operators ctx d power fuel (.binary (.ofOperator t) left right t.line)

def expression (ctx : Context) (d : Descent) (power : Nat) : Parser Node := do
  let left ← operand ctx d
  operators ctx d power ((← get).length + 1) left

/-! ## Statements -/

/-- `print(e)`, which has to end a statement; inside a header its parenthesis may too. -/
def printStatement (ctx : Context) (d : Descent) : Parser Node := do
  advance
  let _ ← expect ctx .openParen .parenAfterPrint
  let n ← d.expression ctx 0
  let _ ← expect ctx .closeParen .closePrint
  let t ← current ctx
  let ends := match t.kind with
    | .newline | .semicolon | .endOfInput | .closeBrace => true
    | .closeParen => ctx.inHeader
    | _ => false
  if ends then return .print n none else failAt t (.missing .endOfPrint)

def letStatement (ctx : Context) (d : Descent) : Parser Node := do
  let t ← current ctx
  advance
  let name ← expect ctx .name .nameAfterLet
  let _ ← expect ctx .assign .assignInLet
  let n ← d.expression ctx 0
  return .declaration (.leaf (.ofName name)) (.leaf (.ofOperator t)) n none

/-- `name = e`, `name += e` or `name -= e`. -/
def assignStatement (ctx : Context) (d : Descent) : Parser Node := do
  let name ← current ctx
  advance
  let op ← current ctx
  advance
  let n ← d.expression ctx 0
  return .declaration (.leaf (.ofName name)) (.leaf (.ofOperator op)) n none

def condition (ctx : Context) (d : Descent) (word : String) : Parser Node := do
  let _ ← expect ctx .openParen (.parenAfterWord word)
  let n ← d.expression ctx 0
  let _ ← expect ctx .closeParen (.closeCondition word)
  return n

/-- What follows the block of a branch; `elif` starts a branch of its own inside the
alternative. -/
def alternative (ctx : Context) (d : Descent) : Parser (List Node) := do
  let next ← current ctx
  if next.kind = .elifWord then return [← d.branch ctx]
  else if next.kind = .elseWord then
    advance
    braced ctx d
  else return []

/-- `if (e) { … }` with the branches that follow it, also after line ends. -/
def branch (ctx : Context) (d : Descent) : Parser Node := do
  let t ← current ctx
  advance
  let test ← condition ctx d t.datum.display
  let consequence ← braced ctx d
  skip [.newline]
  let rest ← alternative ctx d
  return .branch test (.block consequence none) (.block rest none) t.line

def whileStatement (ctx : Context) (d : Descent) : Parser Node := do
  advance
  let test ← condition ctx d "while"
  let body ← braced ctx d
  return .loop test (.block body none) none

/-- One clause of a header, which is absent if its closing token comes first. -/
def clause (ctx : Context) (d : Descent) (close : Kind) : Parser (Option Node) := do
  if (← current ctx).kind = close then return none else d.statement ctx.header

/-- The test of a header; a missing one is true. -/
def headerTest (ctx : Context) (d : Descent) : Parser Node := do
  if (← current ctx).kind = .semicolon then return .literal (.bool true) none
  else d.expression ctx 0

/-- `for (init; test; step) { … }` is `{ init; while (test) { …; step } }`. -/
def forStatement (ctx : Context) (d : Descent) : Parser Node := do
  let t ← current ctx
  advance
  let _ ← expect ctx .openParen .parenAfterFor
  let init ← clause ctx d .semicolon
  let _ ← expect ctx .semicolon .semicolonAfterInitializer
  let test ← headerTest ctx d
  let _ ← expect ctx .semicolon .semicolonAfterCondition
  let step ← clause ctx d .closeParen
  let _ ← expect ctx .closeParen .closeHeader
  let body ← braced ctx d
  let loop : Node := .loop test (.block (body ++ step.toList) none) t.line
  return .block (init.toList ++ [loop]) none

/-- `fn name(…) { … }` binds a function to a new name. -/
def functionStatement (ctx : Context) (d : Descent) : Parser Node := do
  let fn ← current ctx
  advance
  let name ← current ctx
  advance
  let value ← functionRest ctx d fn
  return .declaration (.leaf (.ofName name)) (.leaf ⟨Kind.letWord.label, "let", none, none⟩)
    value none

/-- A statement by its first token, which is `t`. -/
def statementAt (ctx : Context) (d : Descent) (t : Token) : Parser Node := do
  let next ← second ctx
  match t.kind with
  | .openBrace => return .block (← braced ctx d) none
  | .printWord => printStatement ctx d
  | .letWord => letStatement ctx d
  | .ifWord => branch ctx d
  | .elifWord | .elseWord => failAt t (.orphanBranch t.datum.display)
  | .whileWord => whileStatement ctx d
  | .forWord => forStatement ctx d
  | .breakWord =>
    advance
    return .exit none
  | .structWord => failAt t .structDeclaration
  | kind =>
    if kind = .name ∧ next.kind.isAssignment then assignStatement ctx d
    else if kind = .fnWord ∧ next.kind = .name then functionStatement ctx d
    else return .expression (← d.expression ctx 0) none

/-- The next statement with the line of its first token, or nothing at the end of a block. -/
def statement (ctx : Context) (d : Descent) : Parser (Option Node) := do
  skip [.newline, .semicolon]
  let t ← current ctx
  if t.kind = .endOfInput ∨ t.kind = .closeBrace then return none
  else return some ((← statementAt ctx d t).atLine t.line)

/-! ## Programs -/

def Descent.next (d : Descent) : Descent where
  statement ctx := Parser.statement ctx d
  branch ctx := Parser.branch ctx d
  expression ctx power := Parser.expression ctx d power

/-- The parsers for programs that nest at most `n` levels. -/
def descent : Nat → Descent
  | 0 => .bottom
  | n + 1 => (descent n).next

/-- The end token that a list of tokens implies. -/
def impliedEnd (ts : List Token) : Token :=
  match ts.getLast? with
  | some t => ⟨.endOfInput, .absent, t.line, t.column, []⟩
  | none => ⟨.endOfInput, .absent, 0, 0, []⟩

def topContext (ts : List Token) : Context := ⟨impliedEnd ts, false⟩

def programTree (ctx : Context) (d : Descent) : Parser Node := do
  let ns ← blockBody ctx d
  let t ← current ctx
  if t.kind = .endOfInput then return .block ns none else failAt t .unmatchedBrace

def fragmentTree (ctx : Context) (d : Descent) : Parser Node := do
  let n ← d.expression ctx 0
  skip [.newline]
  let t ← current ctx
  if t.kind = .endOfInput then return n else failAt t .afterFragment

def program (nesting : Nat) (ts : List Token) : Except Fault Node :=
  (programTree (topContext ts) (descent nesting)).run' ts

def fragment (nesting : Nat) (ts : List Token) : Except Fault Node :=
  (fragmentTree (topContext ts) (descent nesting)).run' ts

end Parser

/-- Reads the tokens of a program, all of them before any is parsed, and then its tree. -/
def parse (nesting : Nat) (cs : List Char) : Except Fault Node := do
  Parser.program nesting (← tokenize cs)

def parseFragment (nesting : Nat) (cs : List Char) : Except Fault Node := do
  Parser.fragment nesting (← tokenize cs)

end ScopeScript
