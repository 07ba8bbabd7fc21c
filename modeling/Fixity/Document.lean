import Fixity.Number.Binary64

/-! Documents: nested lists and records of plain values, the common ground of the data formats.
Typed values are read from them, either exactly as they are typed or with the conversions that
configuration files allow. -/
namespace Fixity

inductive Document where
  | null
  | flag (value : Bool)
  | integer (value : Int)
  | number (value : Binary64)
  | text (value : String)
  | list (items : List Document)
  | record (fields : List (String × Document))
  deriving Inhabited

namespace Document

/-- The value under a key of a record. -/
def field? (key : String) : Document → Option Document
  | .record fields => fields.lookup key
  | _ => none

/-- An optional text, null if it is missing. -/
def ofText? : Option String → Document
  | none => .null
  | some s => .text s

end Document

/-- How plain values are read, and whether a list may stand for a record, its fields in order. -/
structure Reading where
  text? : Document → Option String
  integer? : Document → Option Int
  flag? : Document → Option Bool
  choice? : List String → Document → Option String
  allowsLists : Bool

namespace Reading

/-- Values have to be of the type that is read. -/
def strict : Reading where
  text?
    | .text s => some s
    | _ => none
  integer?
    | .integer n => some n
    | _ => none
  flag?
    | .flag b => some b
    | _ => none
  choice? names
    | .text s => names.find? (· == s)
    | _ => none
  allowsLists := false

/-- Words for a flag. -/
def flagOfWord? (word : String) : Option Bool :=
  if ["true", "on", "yes"].contains word.toLower then some true
  else if ["false", "off", "no"].contains word.toLower then some false
  else none

/-- Numbers beyond 64 bits become the nearest ones within. -/
def clamp (n : Int) : Int :=
  if n < Int64.minValue.toInt then Int64.minValue.toInt
  else if Int64.maxValue.toInt < n then Int64.maxValue.toInt
  else n

def integerOfNumber : Binary64 → Int
  | .nan => 0
  | .infinite true => Int64.minValue.toInt
  | .infinite false => Int64.maxValue.toInt
  | .finite negative mantissa exponent =>
    clamp (((Binary64.finite negative mantissa exponent).round?).getD 0)

/-- Values of one type are converted to the other where that is possible, and case does not count in
words and names. A name may also be the only key of a record. -/
def lenient : Reading where
  text?
    | .text s => some s
    | .flag b => some (toString b)
    | .integer n => some (toString n)
    | .number x => some x.text
    | _ => none
  integer?
    | .integer n => some n
    | .number x => some (integerOfNumber x)
    | .flag b => some (if b then 1 else 0)
    | .text s =>
      match flagOfWord? s with
      | some b => some (if b then 1 else 0)
      | none => intOfDigits? s.toList
    | _ => none
  flag?
    | .flag b => some b
    | .integer n => some (n != 0)
    | .number x => some !x.isZero
    | .text s => if s = "1" then some true else if s = "0" then some false else flagOfWord? s
    | _ => none
  choice? names
    | .text s => names.find? (fun name => name.toLower == s.toLower)
    | .record [(s, _)] => names.find? (fun name => name.toLower == s.toLower)
    | _ => none
  allowsLists := true

/-- A number of 32 bits. -/
def word? (r : Reading) (d : Document) : Option Int32 :=
  (r.integer? d).bind fun n =>
    if Int32.minValue.toInt ≤ n ∧ n ≤ Int32.maxValue.toInt then some (Int32.ofInt n) else none

/-- Null is read as no value. -/
def optional? {α : Type} (read : Document → Option α) : Document → Option (Option α)
  | .null => some none
  | d => (read d).map some

def items? {α : Type} (read : Document → Option α) : Document → Option (List α)
  | .list items => items.mapM read
  | _ => none

/-- The values of the named fields, where they are present. -/
def fields? (r : Reading) (names : List String) : Document → Option (List (Option Document))
  | .record fields => some (names.map fun name => fields.lookup name)
  | .list items =>
    if r.allowsLists then some ((List.range names.length).map fun i => items[i]?) else none
  | _ => none

/-- A field that must be present. -/
def required {α : Type} (read : Document → Option α) (field : Option Document) : Option α :=
  field.bind read

/-- A field with a value for when it is missing. -/
def defaulted {α : Type} (read : Document → Option α) (value : α) : Option Document → Option α
  | none => some value
  | some d => read d

end Reading

end Fixity
