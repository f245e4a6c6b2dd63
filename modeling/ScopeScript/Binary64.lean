/-!
# Double precision numbers in exact arithmetic

A finite number is a sign, a significand and a power of two in the one
canonical form of its value. Every operation computes the exact rational
result on integers and rounds once, to the nearest number, a tie going to
the even significand.
-/

namespace ScopeScript

/-- The significand fills 53 bits, unless the exponent is already the least one. -/
def Canonical (significand : Nat) (exponent : Int) : Prop :=
  significand < Nat.pow 2 53 ∧ -1074 ≤ exponent ∧ exponent ≤ 971 ∧
    (Nat.pow 2 52 ≤ significand ∨ exponent = -1074)

instance (significand : Nat) (exponent : Int) : Decidable (Canonical significand exponent) :=
  inferInstanceAs (Decidable (_ ∧ _))

inductive Binary64 where
  | nan
  | infinite (negative : Bool)
  | finite (negative : Bool) (significand : Nat) (exponent : Int)
      (canonical : Canonical significand exponent)
  deriving DecidableEq

/-- Where a number stands on the extended line: at an end, or at `units * 2 ^ exponent`. -/
inductive Place where
  | lowest
  | exact (units : Int) (exponent : Int)
  | highest
  deriving DecidableEq

namespace Place

def ofInt (i : Int) : Place := .exact i 0

/-- Both sides are brought to the smaller exponent and compared as integers. -/
def lt : Place → Place → Bool
  | .lowest, .lowest => false
  | .lowest, _ => true
  | .exact _ _, .lowest => false
  | .exact a p, .exact b q =>
    decide (a * Nat.pow 2 (p - min p q).toNat < b * Nat.pow 2 (q - min p q).toNat)
  | .exact _ _, .highest => true
  | .highest, _ => false

def le (a b : Place) : Bool := !b.lt a

end Place

namespace Binary64

def zero (negative : Bool) : Binary64 :=
  .finite negative 0 (-1074) (by decide)

/-- The quotient `n / d`, to the nearest integer; a half goes to the even one. -/
def nearestQuotient (n d : Nat) : Nat :=
  let floor := n / d
  let twice := 2 * (n % d)
  if twice < d then floor
  else if d < twice then floor + 1
  else if floor % 2 = 0 then floor
  else floor + 1

/-- The greatest `k` with `2 ^ k ≤ num / den`, for positive operands. -/
def floorLog2 (num den : Nat) : Int :=
  let k : Int := (num.log2 : Int) - den.log2
  if den * Nat.pow 2 k.toNat ≤ num * Nat.pow 2 (-k).toNat then k else k - 1

/-- A significand that rounded up to 54 bits moves to the next exponent; past the
last exponent the number is infinite. -/
def pack (negative : Bool) (significand : Nat) (exponent : Int) : Binary64 :=
  let carried := significand = Nat.pow 2 53
  let m := if carried then Nat.pow 2 52 else significand
  let q := if carried then exponent + 1 else exponent
  if h : Canonical m q then .finite negative m q h else .infinite negative

/-- The number nearest to `num / den`, for positive `den`. -/
def round (negative : Bool) (num den : Nat) : Binary64 :=
  if num = 0 then zero negative
  else
    let q := max (floorLog2 num den - 52) (-1074)
    pack negative (nearestQuotient (num * Nat.pow 2 (-q).toNat) (den * Nat.pow 2 q.toNat)) q

def roundScaled (negative : Bool) (significand : Nat) (exponent : Int) : Binary64 :=
  round negative (significand * Nat.pow 2 exponent.toNat) (Nat.pow 2 (-exponent).toNat)

def ofInt (i : Int) : Binary64 :=
  round (i < 0) i.natAbs 1

def ofQuotient (a b : Int) : Binary64 :=
  round ((a < 0) != (b < 0)) a.natAbs b.natAbs

def isInfinite : Binary64 → Bool
  | .infinite _ => true
  | _ => false

def isNaN : Binary64 → Bool
  | .nan => true
  | _ => false

def isZero : Binary64 → Bool
  | .finite _ m _ _ => m = 0
  | _ => false

def signed (negative : Bool) (significand : Nat) : Int :=
  if negative then -(significand : Int) else significand

def place? : Binary64 → Option Place
  | .nan => none
  | .infinite negative => some (if negative then .lowest else .highest)
  | .finite negative m q _ => some (.exact (signed negative m) q)

/-- The integer that a finite number without a fraction stands for. -/
def toInt? : Binary64 → Option Int
  | .finite negative m q _ =>
    let scaled := m * Nat.pow 2 q.toNat
    let unit := Nat.pow 2 (-q).toNat
    if scaled % unit = 0 then some (signed negative (scaled / unit)) else none
  | _ => none

def neg : Binary64 → Binary64
  | .nan => .nan
  | .infinite negative => .infinite (!negative)
  | .finite negative m q h => .finite (!negative) m q h

/-- A sum that is exactly zero is negative only for two negative terms. -/
def add : Binary64 → Binary64 → Binary64
  | .nan, _ => .nan
  | _, .nan => .nan
  | .infinite s, .infinite t => if s = t then .infinite s else .nan
  | .infinite s, .finite .. => .infinite s
  | .finite .., .infinite t => .infinite t
  | .finite s m p _, .finite t n q _ =>
    let low := min p q
    let sum := signed s m * Nat.pow 2 (p - low).toNat + signed t n * Nat.pow 2 (q - low).toNat
    if sum = 0 then zero (s && t) else roundScaled (sum < 0) sum.natAbs low

def sub (x y : Binary64) : Binary64 := add x (neg y)

def mul : Binary64 → Binary64 → Binary64
  | .nan, _ => .nan
  | _, .nan => .nan
  | .infinite s, .infinite t => .infinite (s != t)
  | .infinite s, .finite t n _ _ => if n = 0 then .nan else .infinite (s != t)
  | .finite s m _ _, .infinite t => if m = 0 then .nan else .infinite (s != t)
  | .finite s m p _, .finite t n q _ => roundScaled (s != t) (m * n) (p + q)

def div : Binary64 → Binary64 → Binary64
  | .nan, _ => .nan
  | _, .nan => .nan
  | .infinite _, .infinite _ => .nan
  | .infinite s, .finite t _ _ _ => .infinite (s != t)
  | .finite s _ _ _, .infinite t => zero (s != t)
  | .finite s m p _, .finite t n q _ =>
    if n = 0 then (if m = 0 then .nan else .infinite (s != t))
    else round (s != t) (m * Nat.pow 2 (p - q).toNat) (n * Nat.pow 2 (q - p).toNat)

/-- The remainder of truncated division, which is exact and has the sign of `x`. -/
def remainder (x y : Binary64) : Binary64 :=
  match x, y with
  | .nan, _ => .nan
  | _, .nan => .nan
  | .infinite _, _ => .nan
  | .finite .., .infinite _ => x
  | .finite s m p _, .finite _ n q _ =>
    if n = 0 then .nan
    else
      let low := min p q
      roundScaled s (m * Nat.pow 2 (p - low).toNat % (n * Nat.pow 2 (q - low).toNat)) low

/-- Numeric equality: a NaN equals nothing, and both zeros are equal. -/
def equal (x y : Binary64) : Bool :=
  match x, y with
  | .nan, _ => false
  | _, .nan => false
  | x, y => decide (x = y) || (x.isZero && y.isZero)

end Binary64

end ScopeScript
