import ScopeScript.Node.Parser

/-!
# The grammar of programs

Expressions are stratified: each stratum of infix operators groups to the left
and has the next tighter stratum as right operand. Below the strata stand the
prefix operators, below them chains of indices, and below those the primaries.
Statements are derived together with the kind of the token that follows them,
since some of them end only in front of certain tokens.

`Grammar` relates a symbol to the tokens it spans and to the trees they stand
for; it mentions neither binding powers nor the parser.
-/

namespace ScopeScript

/-- The levels of infix operators, the loosest first, and below them the prefix operators. -/
inductive Stratum where
  | comparison | logic | remainder | additive | multiplicative | member | prefixed
  deriving DecidableEq

namespace Stratum

def operators : Stratum → List Kind
  | .comparison => [.equal, .notEqual, .less, .greater, .lessEqual, .greaterEqual]
  | .logic => [.conjunction, .disjunction]
  | .remainder => [.percent]
  | .additive => [.plus, .minus, .plusAssign, .minusAssign]
  | .multiplicative => [.star, .slash]
  | .member => [.dot]
  | .prefixed => []

def tighter : Stratum → Stratum
  | .comparison => .logic
  | .logic => .remainder
  | .remainder => .additive
  | .additive => .multiplicative
  | .multiplicative => .member
  | .member => .prefixed
  | .prefixed => .prefixed

end Stratum

/-- What the grammar derives. A statement and a list of statements carry the kind of the
token after them. -/
inductive Symbol where
  | level (s : Stratum)
  | chain
  | primary
  | bracketed (opening closing : Kind)
  | items
  | parameters
  | names
  | braced
  | statements (next : Kind)
  | statement (next : Kind)
  | branch (next : Kind)
  | alternative (next : Kind)
  | clause (next : Kind)
  | test

abbrev Symbol.expression : Symbol := .level .comparison

namespace Token

def AllNewlines (ts : List Token) : Prop := ∀ t ∈ ts, t.kind = .newline

def AllSeparators (ts : List Token) : Prop :=
  ∀ t ∈ ts, t.kind = .newline ∨ t.kind = .semicolon

/-- The kind of the first token, or the given one if there is none. -/
def headKind (ts : List Token) (after : Kind) : Kind := (ts.head?.map Token.kind).getD after

/-- A name and an assignment operator, with which no expression statement begins. -/
def beginsAssignment : List Token → Bool
  | x :: op :: _ => x.kind = .name && op.kind.isAssignment
  | _ => false

end Token

open Token (AllNewlines AllSeparators headKind)

namespace Kind

def endsBlock : Kind → Bool
  | .endOfInput | .closeBrace => true
  | _ => false

/-- The kinds in front of which `print(…)` ends; the last one closes a header. -/
def endsPrint : Kind → Bool
  | .newline | .semicolon | .endOfInput | .closeBrace | .closeParen => true
  | _ => false

/-- The kinds that go on with a branch after its block. -/
def continuesBranch : Kind → Bool
  | .newline | .elifWord | .elseWord => true
  | _ => false

end Kind

/-- The leaf that `fn` puts in the place of the word `let`. -/
def Leaf.ofLet : Leaf := ⟨Kind.letWord.label, "let", none, none⟩

section
variable (trailing : Bool)

/-- `trailing` says whether a list of parameters may end in a comma, as arrays and arguments
may. -/
inductive Grammar : Symbol → List Token → List Node → Prop where
  -- Expressions.
  | tighten {s : Stratum} {ts : List Token} {n : Node} :
    s ≠ .prefixed → Grammar (.level s.tighter) ts [n] → Grammar (.level s) ts [n]
  | binary {s : Stratum} {ls rs : List Token} {op : Token} {a b : Node} :
    Grammar (.level s) ls [a] → op.kind ∈ s.operators → Grammar (.level s.tighter) rs [b] →
    Grammar (.level s) (ls ++ op :: rs) [.binary (.ofOperator op) a b op.line]
  | unary {op : Token} {ts : List Token} {a : Node} :
    op.kind = .minus ∨ op.kind = .bang → Grammar (.level .prefixed) ts [a] →
    Grammar (.level .prefixed) (op :: ts) [.unary (.ofOperator op) a op.line]
  | chain {ts : List Token} {n : Node} :
    Grammar .chain ts [n] → Grammar (.level .prefixed) ts [n]
  | primary {ts : List Token} {n : Node} : Grammar .primary ts [n] → Grammar .chain ts [n]
  | index {cs ps : List Token} {o c : Token} {a b : Node} :
    Grammar .chain cs [a] → o.kind = .openBracket → Grammar .expression ps [b] →
    c.kind = .closeBracket → Grammar .chain (cs ++ o :: (ps ++ [c])) [.index a b o.line]
  -- Primaries.
  | datum {t : Token} : t.kind = .number ∨ t.kind = .string →
    Grammar .primary [t] [.literal t.datum.toValue none]
  | truth {t : Token} : t.kind = .trueWord → Grammar .primary [t] [.literal (.bool true) none]
  | falsehood {t : Token} : t.kind = .falseWord →
    Grammar .primary [t] [.literal (.bool false) none]
  | name {t : Token} : t.kind = .name → Grammar .primary [t] [.leaf (.ofName t)]
  | call {f : Token} {ts : List Token} {ns : List Node} :
    f.kind = .name → Grammar (.bracketed .openParen .closeParen) ts ns →
    Grammar .primary (f :: ts) [.call (.leaf (.ofName f)) (.arguments ns none) f.line]
  | group {o c : Token} {ts : List Token} {n : Node} :
    o.kind = .openParen → Grammar .expression ts [n] → c.kind = .closeParen →
    Grammar .primary (o :: (ts ++ [c])) [n]
  | array {ts : List Token} {ns : List Node} :
    Grammar (.bracketed .openBracket .closeBracket) ts ns →
    Grammar .primary ts [.array ns none]
  | function {f : Token} {ps bs : List Token} {xs ns : List Node} :
    f.kind = .fnWord → Grammar .parameters ps xs → Grammar .braced bs ns →
    Grammar .primary (f :: (ps ++ bs)) [.function (.parameters xs none) (.block ns none) f.line]
  -- Elements of arrays and arguments of calls.
  | bracketed {opening closing : Kind} {o c : Token} {es ts : List Token} {ns : List Node} :
    o.kind = opening → AllNewlines es → Grammar .items ts ns → c.kind = closing →
    Grammar (.bracketed opening closing) (o :: (es ++ (ts ++ [c]))) ns
  | noItems : Grammar .items [] []
  | lastItem {ts es : List Token} {n : Node} :
    Grammar .expression ts [n] → AllNewlines es → Grammar .items (ts ++ es) [n]
  | moreItems {ts es fs us : List Token} {c : Token} {n : Node} {ns : List Node} :
    Grammar .expression ts [n] → AllNewlines es → c.kind = .comma → AllNewlines fs →
    Grammar .items us ns → Grammar .items (ts ++ (es ++ c :: (fs ++ us))) (n :: ns)
  -- Parameters.
  | parameters {o c : Token} {ts : List Token} {ns : List Node} :
    o.kind = .openParen → Grammar .names ts ns → c.kind = .closeParen →
    Grammar .parameters (o :: (ts ++ [c])) ns
  | noNames : Grammar .names [] []
  | lastName {x : Token} : x.kind = .name → Grammar .names [x] [.leaf (.ofName x)]
  | moreNames {x c : Token} {ts : List Token} {ns : List Node} :
    x.kind = .name → c.kind = .comma → (ts = [] → trailing = true) →
    Grammar .names ts ns → Grammar .names (x :: c :: ts) (.leaf (.ofName x) :: ns)
  -- Blocks.
  | braced {es ts : List Token} {o c : Token} {ns : List Node} :
    AllNewlines es → o.kind = .openBrace → Grammar (.statements .closeBrace) ts ns →
    c.kind = .closeBrace → Grammar .braced (es ++ o :: (ts ++ [c])) ns
  | noStatements {next : Kind} {ss : List Token} :
    next.endsBlock → AllSeparators ss → Grammar (.statements next) ss []
  | moreStatements {next : Kind} {ss ts us : List Token} {t : Token} {n : Node}
    {ns : List Node} :
    AllSeparators ss → Grammar (.statement (headKind us next)) (t :: ts) [n] →
    Grammar (.statements next) us ns →
    Grammar (.statements next) (ss ++ t :: (ts ++ us)) (n.atLine t.line :: ns)
  -- Statements.
  | block {next : Kind} {o : Token} {ts : List Token} {ns : List Node} :
    o.kind = .openBrace → Grammar .braced (o :: ts) ns →
    Grammar (.statement next) (o :: ts) [.block ns none]
  | print {next : Kind} {w o c : Token} {ts : List Token} {n : Node} :
    w.kind = .printWord → o.kind = .openParen → Grammar .expression ts [n] →
    c.kind = .closeParen → next.endsPrint →
    Grammar (.statement next) (w :: o :: (ts ++ [c])) [.print n none]
  | fresh {next : Kind} {w x op : Token} {ts : List Token} {n : Node} :
    w.kind = .letWord → x.kind = .name → op.kind = .assign → Grammar .expression ts [n] →
    next.endsExpression → Grammar (.statement next) (w :: x :: op :: ts)
      [.declaration (.leaf (.ofName x)) (.leaf (.ofOperator w)) n none]
  | assign {next : Kind} {x op : Token} {ts : List Token} {n : Node} :
    x.kind = .name → op.kind.isAssignment → Grammar .expression ts [n] →
    next.endsExpression → Grammar (.statement next) (x :: op :: ts)
      [.declaration (.leaf (.ofName x)) (.leaf (.ofOperator op)) n none]
  | conditional {next : Kind} {w : Token} {ts : List Token} {n : Node} :
    w.kind = .ifWord → Grammar (.branch next) (w :: ts) [n] →
    Grammar (.statement next) (w :: ts) [n]
  | while {next : Kind} {w o c : Token} {ts bs : List Token} {n : Node} {ns : List Node} :
    w.kind = .whileWord → o.kind = .openParen → Grammar .expression ts [n] →
    c.kind = .closeParen → Grammar .braced bs ns →
    Grammar (.statement next) (w :: o :: (ts ++ c :: bs)) [.loop n (.block ns none) none]
  | for {next : Kind} {w o s s' c : Token} {is ts rs bs : List Token} {test : Node}
    {init step ns : List Node} :
    w.kind = .forWord → o.kind = .openParen → Grammar (.clause .semicolon) is init →
    s.kind = .semicolon → Grammar .test ts [test] → s'.kind = .semicolon →
    Grammar (.clause .closeParen) rs step → c.kind = .closeParen → Grammar .braced bs ns →
    Grammar (.statement next) (w :: o :: (is ++ s :: (ts ++ s' :: (rs ++ c :: bs))))
      [.block (init ++ [.loop test (.block (ns ++ step) none) w.line]) none]
  | exit {next : Kind} {w : Token} : w.kind = .breakWord →
    Grammar (.statement next) [w] [.exit none]
  | named {next : Kind} {f x : Token} {ps bs : List Token} {xs ns : List Node} :
    f.kind = .fnWord → x.kind = .name → Grammar .parameters ps xs → Grammar .braced bs ns →
    Grammar (.statement next) (f :: x :: (ps ++ bs))
      [.declaration (.leaf (.ofName x)) (.leaf .ofLet)
        (.function (.parameters xs none) (.block ns none) f.line) none]
  | expression {next : Kind} {ts : List Token} {n : Node} :
    Grammar .expression ts [n] → Token.beginsAssignment ts = false → next.endsExpression →
    Grammar (.statement next) ts [.expression n none]
  -- Branches; the first token is the word that the caller has seen.
  | branch {next : Kind} {w o c : Token} {ts bs es rs : List Token} {n : Node}
    {ns ms : List Node} :
    o.kind = .openParen → Grammar .expression ts [n] → c.kind = .closeParen →
    Grammar .braced bs ns → AllNewlines es → Grammar (.alternative next) rs ms →
    Grammar (.branch next) (w :: o :: (ts ++ c :: (bs ++ (es ++ rs))))
      [.branch n (.block ns none) (.block ms none) w.line]
  | noAlternative {next : Kind} : next.continuesBranch = false →
    Grammar (.alternative next) [] []
  | chained {next : Kind} {w : Token} {ts : List Token} {n : Node} :
    w.kind = .elifWord → Grammar (.branch next) (w :: ts) [n] →
    Grammar (.alternative next) (w :: ts) [n]
  | otherwise {next : Kind} {w : Token} {bs : List Token} {ns : List Node} :
    w.kind = .elseWord → Grammar .braced bs ns → Grammar (.alternative next) (w :: bs) ns
  -- Parts of a header.
  | noTest : Grammar .test [] [.literal (.bool true) none]
  | someTest {ts : List Token} {n : Node} : Grammar .expression ts [n] → Grammar .test ts [n]
  | noClause {next : Kind} : Grammar (.clause next) [] []
  | someClause {next : Kind} {ss ts : List Token} {t : Token} {n : Node} :
    AllSeparators ss → Grammar (.statement next) (t :: ts) [n] →
    headKind ss t.kind ≠ next →
    Grammar (.clause next) (ss ++ t :: ts) [n.atLine t.line]

end

abbrev Derives : Symbol → List Token → List Node → Prop := Grammar true

end ScopeScript
