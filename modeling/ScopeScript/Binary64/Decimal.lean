import ScopeScript.Binary64
import ScopeScript.Numeral

/-!
# Decimal text of double precision numbers

A decimal is a whole number of units of a power of ten. Writing picks the
decimal of fewest digits that reads back as the same number and, of those,
the nearest one. There are two layouts: the scientific one turns to an
exponent outside `1e-4 … 1e16`, the positional one never does.
-/

namespace ScopeScript

/-- The number `units * 10 ^ exponent`. -/
structure Decimal where
  units : Nat
  exponent : Int
  deriving DecidableEq

namespace Decimal

/-- Reading rounds the exact decimal once. -/
def toBinary64 (negative : Bool) (d : Decimal) : Binary64 :=
  Binary64.round negative (d.units * Nat.pow 10 d.exponent.toNat) (Nat.pow 10 (-d.exponent).toNat)

/-- Digits without a trailing zero, and the place of the decimal point among them,
counted from the left. -/
def normalDigits (d : Decimal) : List Char × Int :=
  let ds := Numeral.digits d.units
  let kept := (ds.reverse.dropWhile (· = '0')).reverse
  (kept, ds.length + d.exponent)

end Decimal

namespace Binary64

/-- The greatest `k` with `10 ^ k ≤ num / den`, for positive operands. -/
def floorLog10 (num den : Nat) : Int :=
  let k : Int := ((Numeral.digits num).length : Int) - (Numeral.digits den).length
  if den * Nat.pow 10 k.toNat ≤ num * Nat.pow 10 (-k).toNat then k else k - 1

/-- The decimal of at most `count` digits nearest to `num / den` among the two that
enclose it, if it reads back as `x`; `top` is the decimal exponent of `num / den`. -/
def decimalOfLength (x : Binary64) (num den : Nat) (top : Int) (count : Nat) : Option Decimal :=
  let e := top + 1 - count
  let n := num * Nat.pow 10 (-e).toNat
  let d := den * Nat.pow 10 e.toNat
  let below : Decimal := ⟨n / d, e⟩
  let above : Decimal := ⟨n / d + 1, e⟩
  let twice := 2 * (n % d)
  let belowFirst := if twice = d then n / d % 2 = 0 else twice < d
  let candidates := if belowFirst then [below, above] else [above, below]
  candidates.find? (fun c => c.toBinary64 false == x)

def exactDecimal (significand : Nat) (exponent : Int) : Decimal :=
  ⟨significand * Nat.pow 2 exponent.toNat * Nat.pow 5 (-exponent).toNat, min exponent 0⟩

/-- The decimal of fewest digits that reads back as `significand * 2 ^ exponent`. -/
def shortestDecimal (significand : Nat) (exponent : Int) : Decimal :=
  let x := roundScaled false significand exponent
  let num := significand * Nat.pow 2 exponent.toNat
  let den := Nat.pow 2 (-exponent).toNat
  let top := floorLog10 num den
  ((List.range 17).findSome? fun i => decimalOfLength x num den top (i + 1)).getD
    (exactDecimal significand exponent)

def signText (negative : Bool) : List Char := if negative then ['-'] else []

/-- Digits with the decimal point after the first `point` of them; at least one digit
stands on each side of it. -/
def positional (ds : List Char) (point : Int) : List Char :=
  if point ≤ 0 then
    '0' :: '.' :: (List.replicate (-point).toNat '0' ++ ds)
  else if ds.length ≤ point then
    ds ++ List.replicate (point - ds.length).toNat '0' ++ ['.', '0']
  else ds.take point.toNat ++ '.' :: ds.drop point.toNat

/-- One digit, the others after a decimal point, and an exponent of at least two digits. -/
def scientific (ds : List Char) (point : Int) : List Char :=
  let e := point - 1
  let exponent := Numeral.digits e.natAbs
  let padded := if exponent.length < 2 then '0' :: exponent else exponent
  let mark := if e < 0 then 'e' :: '-' :: padded else 'e' :: '+' :: padded
  match ds with
  | [] => mark
  | [d] => d :: mark
  | d :: rest => d :: '.' :: rest ++ mark

def positionalText (negative : Bool) (significand : Nat) (exponent : Int) : List Char :=
  if significand = 0 then signText negative ++ ['0', '.', '0']
  else
    let (ds, point) := (shortestDecimal significand exponent).normalDigits
    signText negative ++ positional ds point

def text : Binary64 → String
  | .nan => "nan"
  | .infinite negative => String.ofList (signText negative ++ "inf".toList)
  | .finite negative m q _ =>
    if m = 0 then String.ofList (positionalText negative m q)
    else
      let (ds, point) := (shortestDecimal m q).normalDigits
      let body := if -4 < point ∧ point ≤ 16 then positional ds point else scientific ds point
      String.ofList (signText negative ++ body)

/-- The text of a number in a program, which knows no exponents. -/
def sourceText : Binary64 → String
  | .nan => "NaN.0"
  | .infinite negative => String.ofList (signText negative ++ "Infinity.0".toList)
  | .finite negative m q _ => String.ofList (positionalText negative m q)

/-- Splits a digit string with an optional point and exponent into a decimal. -/
def readDecimal? (cs : List Char) : Option Decimal :=
  let whole := cs.takeWhile Numeral.isDigit
  let afterWhole := cs.dropWhile Numeral.isDigit
  let (fraction, afterFraction) := match afterWhole with
    | '.' :: r => (r.takeWhile Numeral.isDigit, r.dropWhile Numeral.isDigit)
    | r => ([], r)
  let exponent? : Option Int := match afterFraction with
    | [] => some 0
    | 'e' :: '+' :: r => Numeral.toInt? (String.ofList r)
    | 'e' :: r => Numeral.toInt? (String.ofList r)
    | _ => none
  if whole.isEmpty && fraction.isEmpty then none
  else exponent?.map fun e => ⟨Numeral.ofDigits (whole ++ fraction), e - fraction.length⟩

/-- Reads what `text` writes, and any other decimal with an optional exponent. -/
def ofText? (s : String) : Option Binary64 :=
  let (negative, body) := match s.toList with
    | '-' :: r => (true, r)
    | r => (false, r)
  if body = "nan".toList then some .nan
  else if body = "inf".toList then some (.infinite negative)
  else (readDecimal? body).map (·.toBinary64 negative)

end Binary64

end ScopeScript
