import ScopeScript.Token

/-!
# Causes of failure

Each stage fails for a cause of its own; `Fault.message` is the only place
where a cause gets its wording. A run-time cause carries the line of the
innermost node that has one. Arithmetic beyond the number format, numerals
that are too long and exhausted nesting belong to no stage and have no line.
-/

namespace ScopeScript

inductive Variant where
  | string | integer | float | boolean | array | function | noValue | breakSignal
  deriving DecidableEq, Repr

def Variant.name : Variant → String
  | .string => "String"
  | .integer => "Integer"
  | .float => "Float"
  | .boolean => "Boolean"
  | .array => "Array"
  | .function => "Function"
  | .noValue => "no value"
  | .breakSignal => "SlBreak"

inductive LexCause where
  | unexpectedCharacter (c : Char) (line column : Nat)
  | unknownEscape (c : Char) (line column : Nat)
  | malformedNumber (text : List Char) (line column : Nat)
  | unterminatedString (line : Nat)
  deriving DecidableEq

def LexCause.message : LexCause → String
  | .unexpectedCharacter c line column =>
    "Unexpected character '" ++ c.toString ++ "' at line " ++ toString line ++ ", col " ++
      toString column
  | .unknownEscape c line column =>
    "Unknown escape '\\" ++ c.toString ++ "' at line " ++ toString line ++ ", col " ++
      toString column
  | .malformedNumber text line column =>
    "Malformed number '" ++ String.ofList text ++ "' at line " ++ toString line ++ ", col " ++
      toString column
  | .unterminatedString line => "Unterminated string at line " ++ toString line

/-- The places where one particular token has to stand. -/
inductive Expectation where
  | parenAfterPrint | closePrint | endOfPrint | nameAfterLet | assignInLet
  | parenAfterWord (word : String) | closeCondition (word : String)
  | parenAfterFor | semicolonAfterInitializer | semicolonAfterCondition | closeHeader
  | closeIndex | closeArray | closeArguments | openParameters | parameterName | closeParameters
  | openBlock (found : Kind) | closeBlock (found : Kind)
  deriving DecidableEq

def Expectation.message : Expectation → String
  | .parenAfterPrint => "Expected '(' after print"
  | .closePrint => "Expected ')' to close print"
  | .endOfPrint => "Expected end of statement after print(...)"
  | .nameAfterLet => "Expected identifier after let"
  | .assignInLet => "Expected '=' in let declaration"
  | .parenAfterWord word => "Expected '(' after " ++ word
  | .closeCondition word => "Expected ')' after " ++ word ++ " condition"
  | .parenAfterFor => "Expected '(' after for"
  | .semicolonAfterInitializer => "Expected ';' after for initializer"
  | .semicolonAfterCondition => "Expected ';' after for condition"
  | .closeHeader => "Expected ')' to close for header"
  | .closeIndex => "Expected ']' after index"
  | .closeArray => "Expected ']' to close array literal"
  | .closeArguments => "Expected ')' to close argument list"
  | .openParameters => "Expected '(' before parameters"
  | .parameterName => "Expected parameter name"
  | .closeParameters => "Expected ')' after parameters"
  | .openBlock found => "Expected '\x7b', got " ++ found.label
  | .closeBlock found => "Expected '\x7d', got " ++ found.label

inductive ParseCause where
  | missing (what : Expectation)
  | orphanBranch (word : String)
  | structDeclaration
  | afterExpression (found : Kind)
  | inExpression (found : Kind)
  | unbalancedParen
  | endOfInput
  | unmatchedBrace
  | afterFragment
  deriving DecidableEq

def ParseCause.message : ParseCause → String
  | .missing what => what.message
  | .orphanBranch word => "'" ++ word ++ "' without a preceding if"
  | .structDeclaration => "'struct' declarations are not supported"
  | .afterExpression found => "Unexpected token after expression: " ++ found.label
  | .inExpression found => "Unexpected token in expression: " ++ found.label
  | .unbalancedParen => "Unbalanced '('"
  | .endOfInput => "Unexpected end of input in expression"
  | .unmatchedBrace => "Unmatched '\x7d'"
  | .afterFragment => "Unexpected tokens after expression fragment"

/-- Values of a variant that the operation does not take. -/
inductive Mismatch where
  | noValue
  | noMembers (got : Variant)
  | operands (op : String) (left right : Variant)
  | assignmentOperator (op : String)
  | expectsBoolean (context : String) (got : Variant)
  | expectsArray (context : String) (got : Variant)
  | cannotNegate (got : Variant)
  | arrayVariable (context : String)
  | fractionalIndex (x : Binary64)
  | indexVariant (got : Variant)
  | negativeIndex (i : Int)
  | assignment (new : Variant) (name : String) (old : Variant)
  | condition (context : String) (got : Variant)
  deriving DecidableEq

def Mismatch.message : Mismatch → String
  | .noValue => "Expression produced no value"
  | .noMembers got => got.name ++ " has no members"
  | .operands op left right =>
    "Unsupported operand types for " ++ op ++ ": " ++ left.name ++ " and " ++ right.name
  | .assignmentOperator op => "'" ++ op ++ "' is only valid as an assignment statement"
  | .expectsBoolean context got => context ++ " expects a Boolean, got " ++ got.name
  | .expectsArray context got => context ++ " expects an Array, got " ++ got.name
  | .cannotNegate got => "Cannot negate " ++ got.name
  | .arrayVariable context => context ++ " expects an array variable as its first argument"
  | .fractionalIndex x => "Array index must be a whole number, got " ++ x.text
  | .indexVariant got => "Array index must be a number, got " ++ got.name
  | .negativeIndex i => "Array index must be non-negative, got " ++ Numeral.ofInt i
  | .assignment new name old =>
    "Cannot assign " ++ new.name ++ " to '" ++ name ++ "' holding " ++ old.name
  | .condition context got =>
    context ++ " condition must be a Boolean, got " ++ got.name

/-- Trees that no program has. -/
inductive Malformation where
  | unknownNode (label : String)
  | unhandledLeaf (kind text : String)
  | unknownOperator (op : String)
  | unsupportedUnary (op : String)
  | notAName (context : String)
  | unsupportedParameter (shown : String)
  | baseScope
  deriving DecidableEq

def Malformation.message : Malformation → String
  | .unknownNode label => "Unknown node: " ++ label
  | .unhandledLeaf kind text => "Unhandled token " ++ kind ++ ":" ++ text
  | .unknownOperator op => "Unknown operator '" ++ op ++ "'"
  | .unsupportedUnary op => "Unsupported unary op '" ++ op ++ "'"
  | .notAName context => context ++ " must be an identifier"
  | .unsupportedParameter shown => "Unsupported parameter node: " ++ shown
  | .baseScope => "Cannot pop the base scope"

inductive RuntimeCause where
  | malformed (what : Malformation)
  | undefinedVariable (name : String)
  | mismatch (what : Mismatch)
  | indexOutOfBounds (index : Int) (length : Nat)
  | unknownFunction (name : String)
  | arity (name : String) (expected got : Nat)
  | divisionByZero
  | moduloByZero
  deriving DecidableEq

def RuntimeCause.message : RuntimeCause → String
  | .malformed what => what.message
  | .undefinedVariable name => "Name '" ++ name ++ "' not found"
  | .mismatch what => what.message
  | .indexOutOfBounds index length =>
    "Index " ++ Numeral.ofInt index ++ " out of bounds for array of length " ++ toString length
  | .unknownFunction name => "Function '" ++ name ++ "' is undefined"
  | .arity name expected got =>
    name ++ "() expects " ++ toString expected ++ " argument(s); got " ++ toString got
  | .divisionByZero => "Division by zero"
  | .moduloByZero => "Modulo by zero"

inductive Fault where
  | lexical (cause : LexCause)
  | grammar (cause : ParseCause) (line column : Nat)
  | runtime (cause : RuntimeCause) (line : Option Nat)
  | integerTooLarge
  | quotientTooLarge
  | remainderDomain
  | numeralTooLong
  | nestingLimit
  | iterationLimit
  | isDirectory (path : String)
  deriving DecidableEq

namespace Fault

def message : Fault → String
  | .lexical cause => cause.message
  | .grammar cause line column =>
    cause.message ++ " at line " ++ toString line ++ ", col " ++ toString column
  | .runtime cause none => cause.message
  | .runtime cause (some line) => cause.message ++ " (line " ++ toString line ++ ")"
  | .integerTooLarge => "int too large to convert to float"
  | .quotientTooLarge => "integer division result too large for a float"
  | .remainderDomain => "math domain error"
  | .numeralTooLong =>
    "an integer of more than " ++ toString Numeral.maxLength ++ " digits has no decimal text"
  | .nestingLimit => "maximum recursion depth exceeded"
  | .iterationLimit => "maximum number of iterations exceeded"
  | .isDirectory path => "[Errno 21] Is a directory: '" ++ path ++ "'"

/-- Gives a run-time cause the line of a node; a line that is already there stays. -/
def locate (line : Option Nat) : Fault → Fault
  | .runtime cause none => .runtime cause line
  | fault => fault

/-- The failures that the command line and the prompt report as errors of the program. -/
def isReported : Fault → Bool
  | .lexical _ | .grammar .. | .runtime .. | .nestingLimit => true
  | _ => false

def mismatch (what : Mismatch) : Fault := .runtime (.mismatch what) none

def malformed (what : Malformation) : Fault := .runtime (.malformed what) none

theorem bind_eq_ok_iff {x : Except Fault α} {f : α → Except Fault β} {b : β} :
    (x >>= f) = .ok b ↔ ∃ a, x = .ok a ∧ f a = .ok b := by
  cases x <;> simp [bind, Except.bind]

theorem map_eq_ok_iff {x : Except Fault α} {f : α → β} {b : β} :
    x.map f = .ok b ↔ ∃ a, x = .ok a ∧ f a = b := by
  cases x <;> simp [Except.map]

/-- Results can be compared where the faults cannot. -/
theorem eq_ok_of_toOption {x : Except Fault α} {a : α} (h : x.toOption = some a) : x = .ok a := by
  cases x with
  | error f => cases h
  | ok b => exact congrArg Except.ok (Option.some.inj h)

theorem map_eq_error_iff {x : Except Fault α} {f : α → β} {e : Fault} :
    x.map f = .error e ↔ x = .error e := by
  cases x <;> simp [Except.map]

end Fault

end ScopeScript
