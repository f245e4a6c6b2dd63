import ScopeScript.Binary64.Decimal

/-!
# Tokens

A token is a kind, the datum it stands for, the place where it starts and the
slice of the program that it was read from.
-/

namespace ScopeScript

inductive Kind where
  | number | string | name
  | letWord | ifWord | elifWord | elseWord | whileWord | forWord | fnWord | structWord
  | breakWord | printWord | trueWord | falseWord
  | plus | minus | star | slash | percent
  | equal | notEqual | less | lessEqual | greater | greaterEqual
  | conjunction | disjunction | bang
  | assign | plusAssign | minusAssign
  | openParen | closeParen | openBracket | closeBracket | openBrace | closeBrace
  | dot | comma | semicolon
  | newline | endOfInput | comment
  deriving DecidableEq, Repr

namespace Kind

/-- The name of a kind in messages and tree leaves. -/
def label : Kind → String
  | .number => "NUMBER"
  | .string => "STRING"
  | .name => "IDENT"
  | .letWord => "LET"
  | .ifWord => "IF"
  | .elifWord => "ELIF"
  | .elseWord => "ELSE"
  | .whileWord => "WHILE"
  | .forWord => "FOR"
  | .fnWord => "FN"
  | .structWord => "STRUCT"
  | .breakWord => "BREAK"
  | .printWord => "PRINT"
  | .trueWord => "TRUE"
  | .falseWord => "FALSE"
  | .plus => "PLUS"
  | .minus => "MINUS"
  | .star => "STAR"
  | .slash => "SLASH"
  | .percent => "MOD"
  | .equal => "EQ"
  | .notEqual => "NEQ"
  | .less => "LT"
  | .lessEqual => "LTE"
  | .greater => "GT"
  | .greaterEqual => "GTE"
  | .conjunction => "AND"
  | .disjunction => "OR"
  | .bang => "NEG"
  | .assign => "ASSIGN"
  | .plusAssign => "PLUSEQ"
  | .minusAssign => "MINUSEQ"
  | .openParen => "LPAR"
  | .closeParen => "RPAR"
  | .openBracket => "LSQB"
  | .closeBracket => "RSQB"
  | .openBrace => "LBRACE"
  | .closeBrace => "RBRACE"
  | .dot => "DOT"
  | .comma => "COMMA"
  | .semicolon => "SEMI"
  | .newline => "NEWLINE"
  | .endOfInput => "EOF"
  | .comment => "COMMENT"

def all : List Kind := [
  .number, .string, .name, .letWord, .ifWord, .elifWord, .elseWord, .whileWord, .forWord,
  .fnWord, .structWord, .breakWord, .printWord, .trueWord, .falseWord, .plus, .minus, .star,
  .slash, .percent, .equal, .notEqual, .less, .lessEqual, .greater, .greaterEqual,
  .conjunction, .disjunction, .bang, .assign, .plusAssign, .minusAssign, .openParen,
  .closeParen, .openBracket, .closeBracket, .openBrace, .closeBrace, .dot, .comma,
  .semicolon, .newline, .endOfInput, .comment]

theorem mem_all (k : Kind) : k ∈ all := by cases k <;> decide

def ofLabel? (s : String) : Option Kind := all.find? (·.label = s)

def reserved : List (String × Kind) := [
  ("let", .letWord), ("if", .ifWord), ("elif", .elifWord), ("else", .elseWord),
  ("while", .whileWord), ("for", .forWord), ("fn", .fnWord), ("struct", .structWord),
  ("break", .breakWord), ("print", .printWord), ("true", .trueWord), ("false", .falseWord),
  ("and", .conjunction), ("or", .disjunction)]

/-- The kind of a word; a word that is not reserved is a name. -/
def ofWord (w : String) : Kind := (reserved.lookup w).getD .name

def opens : Kind → Bool
  | .openParen | .openBracket | .openBrace => true
  | _ => false

def closes : Kind → Bool
  | .closeParen | .closeBracket | .closeBrace => true
  | _ => false

end Kind

/-- What a token stands for: the value of a literal, or the text of any other token. -/
inductive Datum where
  | text (s : String)
  | int (i : Int)
  | float (x : Binary64)
  | absent
  deriving DecidableEq

namespace Datum

/-- A datum inside a message or as the text of a leaf. -/
def display : Datum → String
  | .text s => s
  | .int i => Numeral.ofInt i
  | .float x => x.text
  | .absent => "None"

end Datum

structure Token where
  kind : Kind
  datum : Datum
  line : Nat
  column : Nat
  text : List Char := []
  deriving DecidableEq

end ScopeScript
