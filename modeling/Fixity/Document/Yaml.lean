import Fixity.Document.Json
import Fixity.Text.CharacterClass

/-! Documents as YAML in block style. A text is written without quotes if it can be read back as
the same text that way, else between single quotes, and between double quotes if it has to be
escaped. -/
namespace Fixity

namespace Document

/-- Digits of which the first is a needless zero. -/
def isZeroPadded (text : List Char) : Bool :=
  match (takeSign text).2 with
  | '0' :: rest => !rest.isEmpty && rest.all Char.isDigit
  | _ => false

/-- The digits after a mark for their base. -/
def basedDigits? : List Char → Option Nat
  | '0' :: 'x' :: rest => natOfDigits? 16 rest
  | '0' :: 'o' :: rest => natOfDigits? 8 rest
  | '0' :: 'b' :: rest => natOfDigits? 2 rest
  | _ => none

/-- The integer that a text denotes: decimal, or in the base that it names. -/
def yamlInteger? (text : List Char) : Option Int :=
  let (negative, rest) := takeSign text
  (basedDigits? rest <|> if isZeroPadded text then none else natOfDigits? 10 rest).map
    (signed negative)

/-- Integers are numbers of 128 bits, signed or unsigned. -/
def isYamlInteger (text : List Char) : Bool :=
  (yamlInteger? text).any fun n =>
    decide (-(Nat.pow 2 127 : Int) ≤ n) && decide (n < (Nat.pow 2 128 : Int))

def yamlInfinities : List (List Char) :=
  [".inf".toList, ".Inf".toList, ".INF".toList]

def yamlNans : List (List Char) := [".nan".toList, ".NaN".toList, ".NAN".toList]

def isYamlFloat (text : List Char) : Bool :=
  yamlInfinities.contains (takeSign text).2 || yamlNans.contains text ||
    (Decimal.ofChars? text).any fun x => (Binary64.ofDecimal x).isFinite

/-- Words for null, true and false. -/
def yamlWords : List (List Char) :=
  ["null", "Null", "NULL", "~", "true", "True", "TRUE", "false", "False", "FALSE"].map String.toList

/-- Without quotes the text would be read as another value. -/
def readsAsOther (text : List Char) : Bool :=
  text.isEmpty || yamlWords.contains text || isYamlInteger text || isYamlFloat text ||
    isZeroPadded text

def yamlIndicators : List Char :=
  ['#', ',', '[', ']', '\x7b', '\x7d', '&', '*', '!', '|', '>', '\'', '"', '%', '@', '\x60']

/-- Without quotes the text would be read as a part of the structure. -/
def readsAsStructure (text : List Char) : Bool :=
  text.head?.any (fun c => yamlIndicators.contains c) ||
    ['-', '-', '-'].isPrefixOf text || ['.', '.', '.'].isPrefixOf text ||
    [['-'], ['?']].contains text || text.getLast? == some ':' || text.any isBlank

/-- Characters that are escaped wherever they stand. -/
def yamlSpecials : CharacterClass :=
  [(0x00, 0x1F), (0x7F, 0x9F), (0xA0, 0xA0), (0x2028, 0x2029), (0xFEFF, 0xFEFF), (0xFFFE, 0xFFFF)]

/-- Escapes that are named by a letter. -/
def yamlEscapes : List (Nat × Char) :=
  [(0x00, '0'), (0x07, 'a'), (0x08, 'b'), (0x09, 't'), (0x0A, 'n'), (0x0B, 'v'), (0x0C, 'f'),
    (0x0D, 'r'), (0x1B, 'e'), (0x22, '"'), (0x5C, '\\'), (0x85, 'N'), (0xA0, '_'), (0x2028, 'L'),
    (0x2029, 'P')]

/-- A character between double quotes. -/
def yamlChar (c : Char) : List Char :=
  match yamlEscapes.lookup c.toNat with
  | some name => ['\\', name]
  | none =>
    if !yamlSpecials.contains c then [c]
    else if c.toNat < 0x100 then ['\\', 'x'] ++ hexDigits 2 c.toNat true
    else if c.toNat < 0x10000 then ['\\', 'u'] ++ hexDigits 4 c.toNat true
    else ['\\', 'U'] ++ hexDigits 8 c.toNat true

def yamlText (text : List Char) : List Char :=
  if text.any yamlSpecials.contains then '"' :: text.flatMap yamlChar ++ ['"']
  else if readsAsOther text || readsAsStructure text then
    '\'' :: text.flatMap (fun c => if c = '\'' then ['\'', '\''] else [c]) ++ ['\'']
  else text

/-- A line and the number of spaces before it. -/
abbrev YamlLine := Nat × List Char

def indentLines (lines : List YamlLine) : List YamlLine := lines.map fun l => (l.1 + 2, l.2)

/-- Marks the lines of a list item. -/
def itemLines : List YamlLine → List YamlLine
  | [] => []
  | first :: rest => (first.1, '-' :: ' ' :: first.2) :: indentLines rest

mutual

/-- The value on one line, if it fits there: all but lists and records that hold something. -/
def yamlInline? : Document → Option (List Char)
  | .null => some ['n', 'u', 'l', 'l']
  | .flag b => some (toString b).toList
  | .integer n => some (toString n).toList
  | .number .nan => some ['.', 'n', 'a', 'n']
  | .number (.infinite false) => some ['.', 'i', 'n', 'f']
  | .number (.infinite true) => some ['-', '.', 'i', 'n', 'f']
  | .number x => some x.chars
  | .text s => some (yamlText s.toList)
  | .list [] => some ['[', ']']
  | .record [] => some ['\x7b', '\x7d']
  | .list (_ :: _) => none
  | .record (_ :: _) => none

def yamlLines : Document → List YamlLine
  | .list (d :: ds) => yamlItems (d :: ds)
  | .record (f :: fs) => yamlFields (f :: fs)
  | d => [(0, (yamlInline? d).getD [])]

def yamlItems : List Document → List YamlLine
  | [] => []
  | d :: ds => itemLines (yamlLines d) ++ yamlItems ds

def yamlField : String × Document → List YamlLine
  | (key, d) =>
    match yamlInline? d with
    | some value => [(0, yamlText key.toList ++ [':', ' '] ++ value)]
    | none =>
      (0, yamlText key.toList ++ [':']) ::
        match d with
        | .record _ => indentLines (yamlLines d)
        | _ => yamlLines d

def yamlFields : List (String × Document) → List YamlLine
  | [] => []
  | f :: fs => yamlField f ++ yamlFields fs

end

def yaml (d : Document) : String :=
  String.ofList (d.yamlLines.flatMap fun l => List.replicate l.1 ' ' ++ l.2 ++ ['\n'])

end Document

end Fixity
