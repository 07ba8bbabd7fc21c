/-! Numbers in decimal notation, and digits in other bases. -/
namespace Fixity

/-- The value of a digit, letters counting from ten on. -/
def digitValue? (c : Char) : Option Nat :=
  if c.isDigit then some (c.toNat - '0'.toNat)
  else if 'a' ≤ c ∧ c ≤ 'z' then some (c.toNat - 'a'.toNat + 10)
  else if 'A' ≤ c ∧ c ≤ 'Z' then some (c.toNat - 'A'.toNat + 10)
  else none

def isDigitIn (base : Nat) (c : Char) : Bool := (digitValue? c).any (· < base)

/-- The number that some digits denote; other characters count as zero. -/
def ofDigits (base : Nat) (digits : List Char) : Nat :=
  digits.foldl (fun n c => n * base + (digitValue? c).getD 0) 0

/-- The number that a text of at least one digit denotes. -/
def natOfDigits? (base : Nat) (text : List Char) : Option Nat :=
  if !text.isEmpty && text.all (isDigitIn base) then some (ofDigits base text) else none

/-- A sign, if there is one, and what follows it; a minus sign is `true`. -/
def takeSign : List Char → Bool × List Char
  | '-' :: rest => (true, rest)
  | '+' :: rest => (false, rest)
  | rest => (false, rest)

def signed (negative : Bool) (n : Nat) : Int := if negative then -(n : Int) else n

/-- The number that a text of an optional sign and decimal digits denotes. -/
def intOfDigits? (text : List Char) : Option Int :=
  let (negative, digits) := takeSign text
  (natOfDigits? 10 digits).map (signed negative)

/-- The number `digits * 10 ^ exponent` with a sign, which zero has too. -/
structure Decimal where
  negative : Bool
  digits : Nat
  exponent : Int
  deriving DecidableEq, Repr

namespace Decimal

/-- The exponent written at the end of a number, zero if none is. -/
def exponentOfChars? : List Char → Option Int
  | [] => some 0
  | e :: rest => if e = 'e' ∨ e = 'E' then intOfDigits? rest else none

/-- Reads a sign, digits with a point before, among or after them, and an exponent; all but one
digit can be left out. -/
def ofChars? (text : List Char) : Option Decimal :=
  let (negative, rest) := takeSign text
  let (whole, rest) := rest.span Char.isDigit
  let (fraction, rest) :=
    match rest with
    | '.' :: rest => rest.span Char.isDigit
    | rest => ([], rest)
  if whole.isEmpty && fraction.isEmpty then none
  else
    (exponentOfChars? rest).map fun exponent =>
      ⟨negative, ofDigits 10 (whole ++ fraction), exponent - fraction.length⟩

end Decimal

end Fixity
