import Fixity.Number.Decimal

/-! Lines and quoted texts of TOML. Each reader gives what it read and the characters after it. -/
namespace Fixity

namespace Toml

def isSpace (c : Char) : Bool := c == ' ' || c == '\t'

/-- Characters of comments and of texts: all but controls, of which only the tab is one. -/
def isPlain (c : Char) : Bool := c == '\t' || (decide (32 ≤ c.toNat) && c.toNat != 127)

def skipSpaces (text : List Char) : List Char := text.dropWhile isSpace

/-- What follows a line break: a line feed, after a carriage return or alone. -/
def lineBreak? : List Char → Option (List Char)
  | '\n' :: rest => some rest
  | '\r' :: '\n' :: rest => some rest
  | _ => none

/-- What follows the end of a line, which may hold spaces and a comment. -/
def lineEnd? (text : List Char) : Option (List Char) :=
  let rest := match skipSpaces text with
    | '#' :: rest => rest.dropWhile isPlain
    | rest => rest
  if rest.isEmpty then some [] else lineBreak? rest

/-- Skips spaces, line breaks and comments. A comment has to end before the text does. -/
def skipLines (inComment : Bool) : List Char → Option (List Char)
  | [] => if inComment then none else some []
  | c :: rest =>
    if c = '\n' then skipLines false rest
    else if c = '\r' then if rest.head? = some '\n' then skipLines false rest else none
    else if inComment then if isPlain c then skipLines true rest else none
    else if isSpace c then skipLines false rest
    else if c = '#' then skipLines true rest
    else some (c :: rest)

/-- A character given by its code point in hexadecimal digits. -/
def hexCharacter? (width : Nat) (text : List Char) : Option (Char × List Char) := do
  let digits := text.take width
  guard (digits.length = width)
  let n ← natOfDigits? 16 digits
  guard n.isValidChar
  return (Char.ofNat n, text.drop width)

/-- The character that an escape stands for, after its backslash. -/
def escape? : List Char → Option (Char × List Char)
  | 'b' :: rest => some ('\x08', rest)
  | 't' :: rest => some ('\t', rest)
  | 'n' :: rest => some ('\n', rest)
  | 'f' :: rest => some ('\x0c', rest)
  | 'r' :: rest => some ('\r', rest)
  | '"' :: rest => some ('"', rest)
  | '\\' :: rest => some ('\\', rest)
  | 'u' :: rest => hexCharacter? 4 rest
  | 'U' :: rest => hexCharacter? 8 rest
  | _ => none

def prepend (cs : List Char) (r : Option (List Char × List Char)) :
    Option (List Char × List Char) :=
  r.map fun (text, rest) => (cs ++ text, rest)

/-- The rest of a text after its opening quote, on one line; escapes belong to double quotes. -/
def lineBody (quote : Char) : Nat → List Char → Option (List Char × List Char)
  | 0, _ | _, [] => none
  | fuel + 1, c :: rest =>
    if c = quote then some ([], rest)
    else if c = '\\' ∧ quote = '"' then do
      let (e, rest) ← escape? rest
      prepend [e] (lineBody quote fuel rest)
    else if isPlain c then prepend [c] (lineBody quote fuel rest)
    else none

/-- Skips spaces and line breaks. -/
def skipBlankLines : List Char → List Char
  | '\r' :: '\n' :: rest => skipBlankLines rest
  | c :: rest => if isSpace c || c == '\n' then skipBlankLines rest else c :: rest
  | [] => []

/-- A backslash at the end of a line joins the line to the next text. -/
def joinedLine? (text : List Char) : Option (List Char) :=
  (lineBreak? (skipSpaces text)).map skipBlankLines

/-- The rest of a text over several lines, after its three opening quotes. Up to two quotes can
stand directly before the three that close it. -/
def blockBody (quote : Char) : Nat → List Char → Option (List Char × List Char)
  | 0, _ | _, [] => none
  | fuel + 1, c :: rest =>
    if c = quote then
      let quotes := ((c :: rest).takeWhile (· == quote)).length
      if 3 ≤ quotes then
        let taken := min quotes 5
        some (List.replicate (taken - 3) quote, (c :: rest).drop taken)
      else prepend (List.replicate quotes quote) (blockBody quote fuel ((c :: rest).drop quotes))
    else if c = '\\' ∧ quote = '"' then
      match joinedLine? rest with
      | some rest => blockBody quote fuel rest
      | none => do
        let (e, rest) ← escape? rest
        prepend [e] (blockBody quote fuel rest)
    else
      match lineBreak? (c :: rest) with
      | some rest => prepend ['\n'] (blockBody quote fuel rest)
      | none => if isPlain c then prepend [c] (blockBody quote fuel rest) else none

/-- A text between single quotes of either kind. -/
def quotedLine? : List Char → Option (List Char × List Char)
  | '"' :: rest => lineBody '"' (rest.length + 1) rest
  | '\'' :: rest => lineBody '\'' (rest.length + 1) rest
  | _ => none

/-- A text between quotes, over several lines if there are three of them. A line break directly
after the opening quotes does not count. -/
def quoted? (text : List Char) : Option (List Char × List Char) :=
  let block (quote : Char) (rest : List Char) :=
    blockBody quote (rest.length + 1) ((lineBreak? rest).getD rest)
  match text with
  | '"' :: '"' :: '"' :: rest => block '"' rest
  | '\'' :: '\'' :: '\'' :: rest => block '\'' rest
  | text => quotedLine? text

end Toml

end Fixity
