import ScopeScript.Value

/-!
# Operators on values

Which variants an operator takes depends on the variants alone. Integers are
exact; an integer beside a float becomes the nearest float first. Order
between integers and floats is exact.
-/

namespace ScopeScript

namespace Value

def mismatched (op : String) (a b : Value) : Except Fault Value :=
  .error (.mismatch (.operands op a.variant b.variant))

/-- An integer as a float, unless the nearest one is infinite. -/
def floatOfInt (i : Int) : Except Fault Binary64 :=
  let x := Binary64.ofInt i
  if x.isInfinite then .error .integerTooLarge else .ok x

/-- Applies an operation on floats to two numbers that are not both integers. -/
def onFloats (op : String) (f : Binary64 → Binary64 → Binary64) (a b : Value) :
    Except Fault Value :=
  match a, b with
  | .int i, .float y => (floatOfInt i).map fun x => .float (f x y)
  | .float x, .int j => (floatOfInt j).map fun y => .float (f x y)
  | .float x, .float y => .ok (.float (f x y))
  | a, b => mismatched op a b

/-- Applies an operation on integers to two integers, and the same operation on floats to
any other two numbers. -/
def arithmetic (op : String) (f : Int → Int → Int) (g : Binary64 → Binary64 → Binary64)
    (a b : Value) : Except Fault Value :=
  match a, b with
  | .int i, .int j => .ok (.int (f i j))
  | a, b => onFloats op g a b

def isTextLike : Value → Bool
  | .string _ | .int _ | .float _ => true
  | _ => false

def concat (a b : Value) : Except Fault Value :=
  if a.isTextLike && b.isTextLike then do
    let s ← a.display?
    let t ← b.display?
    return .string (s ++ t)
  else mismatched "+" a b

def isString : Value → Bool
  | .string _ => true
  | _ => false

def add (a b : Value) : Except Fault Value :=
  if a.isString || b.isString then concat a b
  else arithmetic "+" (· + ·) Binary64.add a b

def subtract (a b : Value) : Except Fault Value :=
  arithmetic "-" (· - ·) Binary64.sub a b

def multiply (a b : Value) : Except Fault Value :=
  arithmetic "*" (· * ·) Binary64.mul a b

def isNumber : Value → Bool
  | .int _ | .float _ => true
  | _ => false

def isZero : Value → Bool
  | .int i => i = 0
  | .float x => x.isZero
  | _ => false

/-- The quotient of integers, the second nonzero: an integer if it is exact, else the
nearest float. -/
def quotient (i j : Int) : Except Fault Value :=
  if j ∣ i then .ok (.int (i / j))
  else
    let x := Binary64.ofQuotient i j
    if x.isInfinite then .error .quotientTooLarge else .ok (.float x)

def divide (a b : Value) : Except Fault Value :=
  if a.isNumber && b.isZero then .error (.runtime .divisionByZero none)
  else match a, b with
    | .int i, .int j => quotient i j
    | a, b => onFloats "/" Binary64.div a b

/-- The remainder of truncated division: it has the sign of the first operand. -/
def modulo (a b : Value) : Except Fault Value :=
  match a, b with
  | .int i, .int j =>
    if j = 0 then .error (.runtime .moduloByZero none) else .ok (.int (i.tmod j))
  | .float x, .float y =>
    if y.isZero then .error (.runtime .moduloByZero none)
    else if x.isInfinite && !y.isNaN then .error .remainderDomain
    else .ok (.float (x.remainder y))
  | a, b => mismatched "%" a b

/-- Where a number stands on the extended line; a NaN stands nowhere. -/
def place? : Value → Option Place
  | .int i => some (.ofInt i)
  | .float x => x.place?
  | _ => none

/-- Comparison with a NaN is false. -/
def order (op : String) (compare : Place → Place → Bool) (a b : Value) : Except Fault Value :=
  if a.isNumber && b.isNumber then
    match a.place?, b.place? with
    | some p, some q => .ok (.bool (compare p q))
    | _, _ => .ok (.bool false)
  else mismatched op a b

/-- The Boolean that a context asks for. -/
def toBool (context : String) : Value → Except Fault Bool
  | .bool b => .ok b
  | v => .error (.mismatch (.expectsBoolean context v.variant))

/-- The second operand is only looked at if the first one leaves the result open. -/
def both (a b : Value) : Except Fault Value := do
  if ← a.toBool "'&&'" then return .bool (← b.toBool "'&&'") else return .bool false

def either (a b : Value) : Except Fault Value := do
  if ← a.toBool "'||'" then return .bool true else return .bool (← b.toBool "'||'")

def negate : Value → Except Fault Value
  | .int i => .ok (.int (-i))
  | .float x => .ok (.float x.neg)
  | v => .error (.mismatch (.cannotNegate v.variant))

/-- The operator that a leaf spells, applied to one operand. -/
def applyUnary (op : String) (v : Value) : Except Fault Value :=
  match op with
  | "-" => v.negate
  | "!" => (v.toBool "'!'").map fun b => .bool !b
  | op => .error (.malformed (.unsupportedUnary op))

/-- The operator of a given spelling, applied to two operands. -/
def applyBinary (op : String) (a b : Value) : Except Fault Value :=
  match op with
  | "+" => add a b
  | "-" => subtract a b
  | "*" => multiply a b
  | "/" => divide a b
  | "%" => modulo a b
  | "==" => .ok (.bool (a.equal b))
  | "!=" => .ok (.bool (!a.equal b))
  | "<" => order "<" Place.lt a b
  | ">" => order ">" (fun p q => q.lt p) a b
  | "<=" => order "<=" Place.le a b
  | ">=" => order ">=" (fun p q => q.le p) a b
  | "&&" => both a b
  | "||" => either a b
  | op => .error (.malformed (.unknownOperator op))

/-- The integer that an index stands for; a float without a fraction is one. -/
def toInteger : Value → Except Fault Int
  | .int i => .ok i
  | .float x =>
    match x.toInt? with
    | some i => .ok i
    | none => .error (.mismatch (.fractionalIndex x))
  | v => .error (.mismatch (.indexVariant v.variant))

/-- An index into an array: a whole number that is not negative. -/
def toIndex (v : Value) : Except Fault Nat := do
  let i ← v.toInteger
  if 0 ≤ i then return i.toNat
  else if Numeral.isWritable i then throw (.mismatch (.negativeIndex i))
  else throw .numeralTooLong

def toItems (context : String) : Value → Except Fault (List Value)
  | .array items => .ok items
  | v => .error (.mismatch (.expectsArray context v.variant))

def itemAt (items : List Value) (index : Nat) : Except Fault Value :=
  match items[index]? with
  | some v => .ok v
  | none =>
    if Numeral.isWritable index then
      .error (.runtime (.indexOutOfBounds index items.length) none)
    else .error .numeralTooLong

end Value

end ScopeScript
