import Fixity.Toml.Entry
import Fixity.Toml.Quoted

/-! Plain values of TOML: texts, numbers, flags, dates and times. -/
namespace Fixity

namespace Toml

/-- Characters that can stand in a number, a word or a date. -/
def isWordChar (c : Char) : Bool := c.isAlphanum || ['_', '+', '-', '.', ':'].contains c

/-- Digits in groups with single underscores between them, these left out. -/
def digitGroups? (base : Nat) (afterDigit : Bool) : List Char → Option (List Char)
  | [] => if afterDigit then some [] else none
  | c :: rest =>
    if isDigitIn base c then (digitGroups? base true rest).map (c :: ·)
    else if c = '_' ∧ afterDigit then digitGroups? base false rest
    else none

/-- Decimal digits of an integer: zero does not come first unless it is alone. -/
def wholeDigits? (text : List Char) : Option (List Char) := do
  let digits ← digitGroups? 10 false text
  guard (digits.head? ≠ some '0' ∨ text.length = 1)
  return digits

def inWord? (n : Int) : Option Int :=
  if Int64.minValue.toInt ≤ n ∧ n ≤ Int64.maxValue.toInt then some n else none

/-- An integer of 64 bits, in decimal notation with a sign or in another base without one. -/
def integer? (text : List Char) : Option Int :=
  let based (base : Nat) (rest : List Char) :=
    (digitGroups? base false rest).bind fun digits => inWord? (ofDigits base digits)
  match text with
  | '0' :: 'x' :: rest => based 16 rest
  | '0' :: 'o' :: rest => based 8 rest
  | '0' :: 'b' :: rest => based 2 rest
  | text =>
    let (negative, rest) := takeSign text
    (wholeDigits? rest).bind fun digits => inWord? (signed negative (ofDigits 10 digits))

/-- The exponent of a number, its underscores left out. -/
def exponentPart? : List Char → Option (List Char)
  | [] => some []
  | e :: rest => do
    guard (e = 'e' ∨ e = 'E')
    let (negative, digits) := takeSign rest
    let digits ← digitGroups? 10 false digits
    return 'e' :: (if negative then ['-'] else []) ++ digits

/-- The fraction and the exponent of a number, of which one at least is given. -/
def fractionPart? : List Char → Option (List Char)
  | [] => none
  | '.' :: rest => do
    let (fraction, rest) := rest.span fun c => c.isDigit || c == '_'
    return '.' :: (← digitGroups? 10 false fraction) ++ (← exponentPart? rest)
  | rest => exponentPart? rest

/-- A number with a fraction or an exponent, infinity, or not a number. One that is too large to be
finite is refused unless it is negative. -/
def number? (text : List Char) : Option Binary64 :=
  let (negative, rest) := takeSign text
  if rest = ['i', 'n', 'f'] then some (.infinite negative)
  else if rest = ['n', 'a', 'n'] then some .nan
  else do
    let (whole, rest) := rest.span fun c => c.isDigit || c == '_'
    let whole ← wholeDigits? whole
    let decimal ← Decimal.ofChars? (whole ++ (← fractionPart? rest))
    let x := Binary64.ofDecimal { decimal with negative }
    guard (x ≠ .infinite false)
    return x

/-- A value written as one word. -/
def word? (text : List Char) : Option Entry :=
  if text = ['t', 'r', 'u', 'e'] then some (.plain (.flag true))
  else if text = ['f', 'a', 'l', 's', 'e'] then some (.plain (.flag false))
  else
    (moment? text).map .moment <|>
      (number? text).map (fun x => .plain (.number x)) <|>
      (integer? text).map (fun n => .plain (.integer n))

/-- A value that holds no others. A time can follow its date after a space. -/
def scalar? (text : List Char) : Option (Entry × List Char) :=
  match quoted? text with
  | some (s, rest) => some (.plain (.text (String.ofList s)), rest)
  | none => do
    let (word, rest) := text.span isWordChar
    let withTime := match rest with
      | ' ' :: more =>
        let (time, rest) := more.span isWordChar
        if isDate word && (timeWithOffset? time).isSome then some (word ++ 'T' :: time, rest)
        else none
      | _ => none
    let (word, rest) := withTime.getD (word, rest)
    return (← word? word, rest)

end Toml

end Fixity
