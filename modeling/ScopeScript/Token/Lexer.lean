import ScopeScript.Fault
import ScopeScript.Text.Quoted

/-!
# Reading tokens

The text is cut into lexemes from the left. A lexeme knows where it started,
and every lexeme shortens the text, so the cutting ends. Blanks between
lexemes give no token; comments give tokens that `tokenize` keeps on request.
Columns count characters, and start again at 1 after a line end, also after
one that stands inside a string.
-/

namespace ScopeScript

structure Position where
  line : Nat
  column : Nat
  deriving DecidableEq

namespace Position

def start : Position := ⟨1, 1⟩

def right (p : Position) (n : Nat) : Position := ⟨p.line, p.column + n⟩

def nextLine (p : Position) : Position := ⟨p.line + 1, 1⟩

end Position

namespace Lexer

def isNameStart (c : Char) : Bool :=
  c = '_' || ('a' ≤ c && c ≤ 'z') || ('A' ≤ c && c ≤ 'Z')

def isNamePart (c : Char) : Bool := isNameStart c || Numeral.isDigit c

def isSpace (c : Char) : Bool := c = ' ' || c = '\t'

/-- A comment ends before a line end, and before the null character. -/
def endsComment (c : Char) : Bool := c = '\n' || c = '\r' || c = '\x00'

/-- Operators and punctuation, the longer spellings first. -/
def symbols : List (List Char × Kind) := [
  (['=', '='], .equal), (['!', '='], .notEqual), (['<', '='], .lessEqual),
  (['>', '='], .greaterEqual), (['&', '&'], .conjunction), (['|', '|'], .disjunction),
  (['+', '='], .plusAssign), (['-', '='], .minusAssign),
  (['+'], .plus), (['-'], .minus), (['*'], .star), (['/'], .slash), (['%'], .percent),
  (['<'], .less), (['>'], .greater), (['!'], .bang), (['='], .assign),
  (['('], .openParen), ([')'], .closeParen), (['['], .openBracket), ([']'], .closeBracket),
  (['{'], .openBrace), (['}'], .closeBrace), (['.'], .dot), ([','], .comma),
  ([';'], .semicolon)]

def symbol? (cs : List Char) : Option (List Char × Kind) :=
  symbols.find? fun s => s.1.isPrefixOf cs

/-- The digits and points of a number at the front; a point counts only before a digit. -/
def numberText : List Char → List Char
  | [] => []
  | [c] => if Numeral.isDigit c then [c] else []
  | c :: d :: cs =>
    if Numeral.isDigit c || (c = '.' && Numeral.isDigit d) then c :: numberText (d :: cs) else []

def numberDatum (p : Position) (text : List Char) : Except Fault Datum :=
  match text.count '.' with
  | 0 =>
    if Numeral.maxLength < text.length then .error .numeralTooLong
    else .ok (.int (Numeral.ofDigits text))
  | 1 =>
    let fraction := (text.dropWhile (· ≠ '.')).drop 1
    let units := Numeral.ofDigits (text.filter (· ≠ '.'))
    .ok (.float (Decimal.toBinary64 false ⟨units, -fraction.length⟩))
  | _ => .error (.lexical (.malformedNumber text p.line p.column))

/-- The inside of a string: its value, its text up to and with the closing quote, the
position after it and the characters that follow. -/
structure StringBody where
  value : List Char
  text : List Char
  next : Position
  rest : List Char

namespace StringBody

def push (value : List Char) (text : List Char) (b : StringBody) : StringBody :=
  { b with value := value ++ b.value, text := text ++ b.text }

end StringBody

/-- Reads the inside of a string whose opening quote stands on line `opened`. -/
def stringBody (opened : Nat) (p : Position) : List Char → Except Fault StringBody
  | [] => .error (.lexical (.unterminatedString opened))
  | '"' :: cs => .ok ⟨[], ['"'], p.right 1, cs⟩
  | ['\\'] => .error (.lexical (.unterminatedString opened))
  | '\\' :: e :: cs =>
    match Text.escaped? e with
    | some v => (stringBody opened (p.right 2) cs).map (.push [v] ['\\', e])
    | none => .error (.lexical (.unknownEscape e p.line p.column))
  | c :: cs =>
    (stringBody opened (if c = '\n' then p.nextLine else p.right 1) cs).map (.push [c] [c])

structure Lexeme where
  token? : Option Token
  next : Position
  rest : List Char

def spaceLexeme (p : Position) (cs : List Char) : Lexeme :=
  ⟨none, p.right (cs.takeWhile isSpace).length, cs.dropWhile isSpace⟩

def commentLexeme (p : Position) (cs : List Char) : Lexeme :=
  let text := cs.takeWhile (!endsComment ·)
  ⟨some ⟨.comment, .text (String.ofList text), p.line, p.column, text⟩, p.right text.length,
    cs.dropWhile (!endsComment ·)⟩

def newlineLexeme (p : Position) (text rest : List Char) : Lexeme :=
  ⟨some ⟨.newline, .text "\n", p.line, p.column, text⟩, p.nextLine, rest⟩

def stringLexeme (p : Position) (cs : List Char) : Except Fault Lexeme :=
  (stringBody p.line (p.right 1) cs).map fun b =>
    ⟨some ⟨.string, .text (String.ofList b.value), p.line, p.column, '"' :: b.text⟩, b.next, b.rest⟩

def numberLexeme (p : Position) (cs : List Char) : Except Fault Lexeme :=
  let text := numberText cs
  (numberDatum p text).map fun datum =>
    ⟨some ⟨.number, datum, p.line, p.column, text⟩, p.right text.length, cs.drop text.length⟩

def wordLexeme (p : Position) (cs : List Char) : Lexeme :=
  let text := cs.takeWhile isNamePart
  let word := String.ofList text
  ⟨some ⟨.ofWord word, .text word, p.line, p.column, text⟩, p.right text.length,
    cs.dropWhile isNamePart⟩

def symbolLexeme (p : Position) (c : Char) (cs : List Char) : Except Fault Lexeme :=
  match symbol? (c :: cs) with
  | some (text, kind) =>
    .ok ⟨some ⟨kind, .text (String.ofList text), p.line, p.column, text⟩, p.right text.length,
      (c :: cs).drop text.length⟩
  | none => .error (.lexical (.unexpectedCharacter c p.line p.column))

/-- The lexeme at the front of `c :: cs`, which starts at `p`. -/
def lexeme (p : Position) (c : Char) (cs : List Char) : Except Fault Lexeme :=
  if isSpace c then .ok (spaceLexeme p (c :: cs))
  else if c = '#' then .ok (commentLexeme p (c :: cs))
  else if c = '\n' then .ok (newlineLexeme p ['\n'] cs)
  else if c = '\r' then
    match cs with
    | '\n' :: rest => .ok (newlineLexeme p ['\r', '\n'] rest)
    | _ => .ok (newlineLexeme p ['\r'] cs)
  else if c = '"' then stringLexeme p cs
  else if Numeral.isDigit c then numberLexeme p (c :: cs)
  else if isNameStart c then .ok (wordLexeme p (c :: cs))
  else symbolLexeme p c cs

/-- The token that ends every list of tokens. -/
def endToken (p : Position) : Token := ⟨.endOfInput, .absent, p.line, p.column, []⟩

/-- Cuts the text into lexemes; each one leaves less of it, so `fuel` is never used up if
it is the length of the text. -/
def lexemes : Nat → Position → List Char → Except Fault (List Token)
  | _, p, [] => .ok [endToken p]
  | 0, _, _ :: _ => .error .iterationLimit
  | fuel + 1, p, c :: cs => do
    let l ← lexeme p c cs
    let ts ← lexemes fuel l.next l.rest
    return l.token?.toList ++ ts

theorem length_dropWhile_le (f : Char → Bool) (cs : List Char) :
    (cs.dropWhile f).length ≤ cs.length :=
  (List.dropWhile_sublist f).length_le

theorem length_numberText_pos {c : Char} (cs : List Char) (h : Numeral.isDigit c = true) :
    0 < (numberText (c :: cs)).length := by
  cases cs <;> simp [numberText, h]

theorem length_symbol?_pos {cs : List Char} {s : List Char × Kind} (h : symbol? cs = some s) :
    0 < s.1.length := by
  have pos : ∀ s ∈ symbols, 0 < s.1.length := by decide
  exact pos s (List.mem_of_find?_eq_some h)

theorem length_rest_stringBody {opened : Nat} {p : Position} {cs : List Char} {b : StringBody}
    (h : stringBody opened p cs = .ok b) : b.rest.length < cs.length := by
  fun_induction stringBody opened p cs generalizing b with
  | case1 => cases h
  | case2 p cs =>
    cases h
    simp
  | case3 => cases h
  | case4 p e cs v hv ih =>
    obtain ⟨b, hb, rfl⟩ := Fault.map_eq_ok_iff.mp h
    have := ih hb
    simp only [StringBody.push, List.length_cons]
    omega
  | case5 => cases h
  | case6 p c cs _ _ _ ih =>
    obtain ⟨b, hb, rfl⟩ := Fault.map_eq_ok_iff.mp h
    have := ih hb
    simp only [StringBody.push, List.length_cons]
    omega

/-- A lexeme leaves less than the text it was cut from. -/
theorem length_rest_lexeme {p : Position} {c : Char} {cs : List Char} {l : Lexeme}
    (h : lexeme p c cs = .ok l) : l.rest.length ≤ cs.length := by
  unfold lexeme at h
  split at h
  next hc =>
    cases h
    simpa [spaceLexeme, hc] using length_dropWhile_le isSpace cs
  split at h
  next hc =>
    cases h
    subst hc
    have : ('#' :: cs).dropWhile (!endsComment ·) = cs.dropWhile (!endsComment ·) := rfl
    simpa [commentLexeme, this] using length_dropWhile_le (!endsComment ·) cs
  split at h
  next => cases h; exact Nat.le_refl _
  split at h
  next =>
    split at h
    · cases h
      exact Nat.le_succ _
    · cases h
      exact Nat.le_refl _
  split at h
  next =>
    obtain ⟨b, hb, rfl⟩ := Fault.map_eq_ok_iff.mp h
    exact Nat.le_of_lt (length_rest_stringBody hb)
  split at h
  next hc =>
    obtain ⟨datum, hd, rfl⟩ := Fault.map_eq_ok_iff.mp h
    have := length_numberText_pos cs hc
    simp only [List.length_drop, List.length_cons]
    omega
  split at h
  next hc =>
    cases h
    have : (c :: cs).dropWhile isNamePart = cs.dropWhile isNamePart := by
      simp [isNamePart, hc]
    simpa [wordLexeme, this] using length_dropWhile_le isNamePart cs
  next =>
    unfold symbolLexeme at h
    split at h
    next text kind hs =>
      cases h
      have : 0 < text.length := length_symbol?_pos hs
      simp only [List.length_drop, List.length_cons]
      omega
    next => cases h

theorem stringBody_error {opened : Nat} {p : Position} {cs : List Char} {f : Fault}
    (h : stringBody opened p cs = .error f) : ∃ cause, f = .lexical cause := by
  fun_induction stringBody opened p cs with
  | case1 => cases h; exact ⟨_, rfl⟩
  | case2 => cases h
  | case3 => cases h; exact ⟨_, rfl⟩
  | case4 p e cs v hv ih => exact ih (Fault.map_eq_error_iff.mp h)
  | case5 => cases h; exact ⟨_, rfl⟩
  | case6 p c cs _ _ _ ih => exact ih (Fault.map_eq_error_iff.mp h)

theorem numberDatum_error {p : Position} {text : List Char} {f : Fault}
    (h : numberDatum p text = .error f) : f = .numeralTooLong ∨ ∃ cause, f = .lexical cause := by
  unfold numberDatum at h
  split at h
  · split at h
    · cases h
      exact .inl rfl
    · cases h
  · cases h
  · cases h
    exact .inr ⟨_, rfl⟩

theorem lexeme_error {p : Position} {c : Char} {cs : List Char} {f : Fault}
    (h : lexeme p c cs = .error f) : f = .numeralTooLong ∨ ∃ cause, f = .lexical cause := by
  unfold lexeme at h
  split at h
  next => cases h
  split at h
  next => cases h
  split at h
  next => cases h
  split at h
  next => split at h <;> cases h
  split at h
  next => exact .inr (stringBody_error (Fault.map_eq_error_iff.mp h))
  split at h
  next => exact numberDatum_error (Fault.map_eq_error_iff.mp h)
  split at h
  next => cases h
  next =>
    unfold symbolLexeme at h
    split at h
    · cases h
    · cases h
      exact .inr ⟨_, rfl⟩

/-- The length of the text is enough fuel: only the text itself can be at fault. -/
theorem lexemes_error {fuel : Nat} {p : Position} {cs : List Char} {f : Fault}
    (enough : cs.length ≤ fuel) (h : lexemes fuel p cs = .error f) :
    f = .numeralTooLong ∨ ∃ cause, f = .lexical cause := by
  induction fuel generalizing p cs with
  | zero =>
    obtain rfl := List.eq_nil_of_length_eq_zero (Nat.le_zero.mp enough)
    simp [lexemes] at h
  | succ fuel ih =>
    cases cs with
    | nil => simp [lexemes] at h
    | cons c cs =>
      rw [lexemes] at h
      cases hl : lexeme p c cs with
      | error g =>
        simp only [hl, bind, Except.bind, Except.error.injEq] at h
        subst h
        exact lexeme_error hl
      | ok l =>
        have shorter := length_rest_lexeme hl
        cases hr : lexemes fuel l.next l.rest with
        | error g =>
          simp only [hl, hr, bind, Except.bind, Except.error.injEq] at h
          subst h
          exact ih (by simp only [List.length_cons] at enough; omega) hr
        | ok ts => simp [hl, hr, bind, Except.bind, pure, Except.pure] at h

end Lexer

/-- The tokens of a text, the comments among them. -/
def tokenizeWithComments (cs : List Char) : Except Fault (List Token) :=
  Lexer.lexemes cs.length .start cs

def tokenize (cs : List Char) : Except Fault (List Token) :=
  (tokenizeWithComments cs).map (List.filter (·.kind ≠ .comment))

theorem tokenizeWithComments_error {cs : List Char} {f : Fault}
    (h : tokenizeWithComments cs = .error f) :
    f = .numeralTooLong ∨ ∃ cause, f = .lexical cause :=
  Lexer.lexemes_error (Nat.le_refl _) h

theorem tokenize_error {cs : List Char} {f : Fault} (h : tokenize cs = .error f) :
    f = .numeralTooLong ∨ ∃ cause, f = .lexical cause :=
  tokenizeWithComments_error (Fault.map_eq_error_iff.mp h)

end ScopeScript
