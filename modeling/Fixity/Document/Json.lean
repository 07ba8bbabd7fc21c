import Fixity.Document

/-! Documents as JSON over several lines, two spaces for each level. -/
namespace Fixity

namespace Document

def hexDigits (width n : Nat) (upper : Bool) : List Char :=
  let digits := Nat.toDigits 16 n
  let digits := if upper then digits.map Char.toUpper else digits
  List.replicate (width - digits.length) '0' ++ digits

/-- A character inside of quotes. Control characters are escaped, and all others written as they are
but for the quote and the backslash. -/
def jsonChar (c : Char) : List Char :=
  match c with
  | '"' => ['\\', '"']
  | '\\' => ['\\', '\\']
  | '\n' => ['\\', 'n']
  | '\r' => ['\\', 'r']
  | '\t' => ['\\', 't']
  | c =>
    if c.toNat = 8 then ['\\', 'b']
    else if c.toNat = 12 then ['\\', 'f']
    else if c.toNat < 32 then ['\\', 'u'] ++ hexDigits 4 c.toNat false
    else [c]

def jsonText (s : String) : List Char := '"' :: s.toList.flatMap jsonChar ++ ['"']

/-- The start of a line at a level. -/
def jsonLine (level : Nat) : List Char := '\n' :: List.replicate (2 * level) ' '

mutual

/-- The document at a level, followed by `rest`. -/
def jsonBefore (level : Nat) : Document → List Char → List Char
  | .null, rest => ['n', 'u', 'l', 'l'] ++ rest
  | .flag b, rest => (toString b).toList ++ rest
  | .integer n, rest => (toString n).toList ++ rest
  | .number x, rest => (if x.isFinite then x.chars else ['n', 'u', 'l', 'l']) ++ rest
  | .text s, rest => jsonText s ++ rest
  | .list [], rest => '[' :: ']' :: rest
  | .list (d :: ds), rest =>
    '[' :: jsonLine (level + 1) ++ jsonBefore (level + 1) d
      (jsonItemsBefore (level + 1) ds (jsonLine level ++ ']' :: rest))
  | .record [], rest => '\x7b' :: '\x7d' :: rest
  | .record (f :: fs), rest =>
    '\x7b' :: jsonLine (level + 1) ++ jsonFieldBefore (level + 1) f
      (jsonFieldsBefore (level + 1) fs (jsonLine level ++ '\x7d' :: rest))

/-- Further items of a list. -/
def jsonItemsBefore (level : Nat) : List Document → List Char → List Char
  | [], rest => rest
  | d :: ds, rest => ',' :: jsonLine level ++ jsonBefore level d (jsonItemsBefore level ds rest)

def jsonFieldBefore (level : Nat) : String × Document → List Char → List Char
  | (key, d), rest => jsonText key ++ ':' :: ' ' :: jsonBefore level d rest

/-- Further fields of a record. -/
def jsonFieldsBefore (level : Nat) : List (String × Document) → List Char → List Char
  | [], rest => rest
  | f :: fs, rest =>
    ',' :: jsonLine level ++ jsonFieldBefore level f (jsonFieldsBefore level fs rest)

end

def json (d : Document) : String := String.ofList (d.jsonBefore 0 [])

end Document

end Fixity
