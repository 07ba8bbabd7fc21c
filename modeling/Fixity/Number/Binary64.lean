import Fixity.Number.Decimal

/-! Binary floating-point numbers of 64 bits, as exact values: rounded from decimal notation to the
nearest, and written with the fewest digits that identify them. -/
namespace Fixity

/-- A floating-point number. A finite one is `mantissa * 2 ^ exponent` with a sign; the mantissa has
53 bits, fewer only at the least exponent, which is -1074. -/
inductive Binary64 where
  | nan
  | infinite (negative : Bool)
  | finite (negative : Bool) (mantissa : Nat) (exponent : Int)
  deriving DecidableEq, Repr

namespace Binary64

/-- Every mantissa is less. -/
def mantissaLimit : Nat := Nat.pow 2 53

/-- Mantissas are no less, but at the least exponent. -/
def leastMantissa : Nat := Nat.pow 2 52

def leastExponent : Int := -1074

def greatestExponent : Int := 971

/-- The fraction `num * base ^ exponent / den` as numerator and denominator. -/
def scale (base : Nat) (exponent : Int) (num den : Nat) : Nat × Nat :=
  if 0 ≤ exponent then (num * Nat.pow base exponent.toNat, den)
  else (num, den * Nat.pow base (-exponent).toNat)

/-- The integer nearest to a fraction, of two the even one. -/
def divideToEven (num den : Nat) : Nat :=
  let quotient := num / den
  let twice := 2 * (num % den)
  if twice < den then quotient
  else if den < twice then quotient + 1
  else if quotient % 2 = 0 then quotient else quotient + 1

/-- The number with this sign nearest to a positive fraction. -/
def ofFraction (negative : Bool) (num den : Nat) : Binary64 :=
  let least : Int := (num.log2 : Int) - (den.log2 : Int) - 53
  let exponentFrom (e : Int) : Int := if e < leastExponent then leastExponent else e
  let low := exponentFrom least
  let exponent :=
    let (n, d) := scale 2 (-low) num den
    if n < mantissaLimit * d then low else low + 1
  let (n, d) := scale 2 (-exponent) num den
  let mantissa := divideToEven n d
  let (mantissa, exponent) :=
    if mantissa = mantissaLimit then (leastMantissa, exponent + 1) else (mantissa, exponent)
  if greatestExponent < exponent then .infinite negative else .finite negative mantissa exponent

/-- The nearest number; one that is too large becomes infinite. -/
def ofDecimal (x : Decimal) : Binary64 :=
  if x.digits = 0 then .finite x.negative 0 leastExponent
  else
    let magnitude : Int := (x.digits.log2 : Int) / 4 + x.exponent
    let greatest : Int := (x.digits.log2 : Int) / 3 + 1 + x.exponent
    if 400 < magnitude then .infinite x.negative
    else if greatest < -400 then .finite x.negative 0 leastExponent
    else
      let (num, den) := scale 10 x.exponent x.digits 1
      ofFraction x.negative num den

def isFinite : Binary64 → Bool
  | .finite _ _ _ => true
  | _ => false

def isZero : Binary64 → Bool
  | .finite _ mantissa _ => mantissa == 0
  | _ => false

/-- The nearest integer, halves away from zero. None is nearest to what is not finite. -/
def round? : Binary64 → Option Int
  | .finite negative mantissa exponent =>
    let (num, den) := scale 2 exponent mantissa 1
    some (signed negative ((2 * num + den) / (2 * den)))
  | _ => none

/-- The multiple of `10 ^ k` nearest to `mantissa * 2 ^ exponent`, as a factor of `10 ^ k`, among
those that round to this number. -/
def multiple? (mantissa : Nat) (exponent k : Int) : Option Nat :=
  let fraction (quarters : Nat) : Nat × Nat :=
    let (num, den) := scale 2 (exponent - 2) quarters 1
    scale 10 (-k) num den
  let (value, den) := fraction (4 * mantissa)
  let belowGap := if mantissa = leastMantissa ∧ leastExponent < exponent then 1 else 2
  let low := (fraction (4 * mantissa - belowGap)).1
  let high := (fraction (4 * mantissa + 2)).1
  let inside (n : Nat) : Bool :=
    if mantissa % 2 = 0 then decide (low ≤ n * den) && decide (n * den ≤ high)
    else decide (low < n * den) && decide (n * den < high)
  let floor := value / den
  if inside floor && (!inside (floor + 1) || decide (2 * (value % den) < den)) then some floor
  else if inside (floor + 1) then some (floor + 1)
  else none

/-- The first factor found for `k`, `k - 1` and so on. -/
def shortestFrom (mantissa : Nat) (exponent : Int) : Nat → Int → Nat × Int
  | 0, k => (0, k)
  | fuel + 1, k =>
    match multiple? mantissa exponent k with
    | some n => (n, k)
    | none => shortestFrom mantissa exponent fuel (k - 1)

/-- The fewest digits that identify a positive number, with the power of ten they count. -/
def shortest (mantissa : Nat) (exponent : Int) : Nat × Int :=
  shortestFrom mantissa exponent 640 309

/-- Digits that count a power of ten, written with a point but without an exponent. -/
def positional (digits : Nat) (exponent : Int) : List Char :=
  let ds := Nat.toDigits 10 digits
  if 0 ≤ exponent then ds ++ List.replicate exponent.toNat '0'
  else
    let places := (-exponent).toNat
    if places < ds.length then
      ds.take (ds.length - places) ++ '.' :: ds.drop (ds.length - places)
    else ['0', '.'] ++ List.replicate (places - ds.length) '0' ++ ds

def chars : Binary64 → List Char
  | .nan => ['N', 'a', 'N']
  | .infinite negative => (if negative then ['-'] else []) ++ ['i', 'n', 'f']
  | .finite negative mantissa exponent =>
    (if negative then ['-'] else []) ++
      if mantissa = 0 then ['0']
      else
        let (digits, k) := shortest mantissa exponent
        positional digits k

def text (x : Binary64) : String := String.ofList x.chars

end Binary64

end Fixity
