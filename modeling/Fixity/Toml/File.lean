import Fixity.Toml.Scalar
import Fixity.Toml.Table

/-! TOML files read as documents. -/
namespace Fixity

namespace Toml

/-- Paths have to be shorter, and values nested less deeply. -/
def depthLimit : Nat := 80

def isBareKeyChar (c : Char) : Bool := c.isAlphanum || c == '-' || c == '_'

/-- One part of a key, quoted or bare. -/
def keyPart? (text : List Char) : Option (String × List Char) :=
  match quotedLine? text with
  | some (s, rest) => some (String.ofList s, rest)
  | none =>
    let (word, rest) := text.span isBareKeyChar
    if word.isEmpty then none else some (String.ofList word, rest)

/-- The parts of a key with dots between them. -/
def keyParts? : Nat → List Char → Option (List String × List Char)
  | 0, _ => none
  | fuel + 1, text => do
    let (part, rest) ← keyPart? (skipSpaces text)
    match skipSpaces rest with
    | '.' :: rest =>
      let (parts, rest) ← keyParts? fuel rest
      return (part :: parts, rest)
    | rest => return ([part], rest)

/-- A key as the path to its last part, and that. -/
def key? (text : List Char) : Option ((List String × String) × List Char) := do
  let (parts, rest) ← keyParts? depthLimit text
  guard (parts.length < depthLimit)
  return ((parts.dropLast, ← parts.getLast?), rest)

/-- The items of an array after its opening bracket. -/
def items? (value? : List Char → Option (Entry × List Char)) :
    Nat → List Char → Option (List Entry × List Char)
  | 0, _ => none
  | fuel + 1, text => do
    match ← skipLines false text with
    | ']' :: rest => return ([], rest)
    | text =>
      let (e, rest) ← value? text
      match ← skipLines false rest with
      | ',' :: rest =>
        let (es, rest) ← items? value? fuel rest
        return (e :: es, rest)
      | ']' :: rest => return ([e], rest)
      | _ => none

/-- A key and its value with an equals sign between them. -/
def assignment? (value? : List Char → Option (Entry × List Char)) (text : List Char) :
    Option ((List String × String × Entry) × List Char) := do
  let ((path, key), rest) ← key? text
  let (e, rest) ← value? (skipSpaces (← match rest with
    | '=' :: rest => some rest
    | _ => none))
  return ((path, key, e), rest)

/-- The entries of a table on one line, after its opening brace. -/
def inlineEntries? (value? : List Char → Option (Entry × List Char)) :
    Nat → Entries → List Char → Option (Entries × List Char)
  | 0, _, _ => none
  | fuel + 1, entries, text => do
    let ((path, key, e), rest) ← assignment? value? text
    let entries ← assign path key e .braces entries
    match skipSpaces rest with
    | ',' :: rest => inlineEntries? value? fuel entries rest
    | '\x7d' :: rest => return (entries, rest)
    | _ => none

/-- A value nested at most so deeply. -/
def value? : Nat → List Char → Option (Entry × List Char)
  | depth + 1, '[' :: rest => do
    let (es, rest) ← items? (value? depth) (rest.length + 1) rest
    return (.array es, rest)
  | depth + 1, '\x7b' :: rest =>
    match skipSpaces rest with
    | '\x7d' :: rest => some (.table .braces [], rest)
    | rest => do
      let (entries, rest) ← inlineEntries? (value? depth) (rest.length + 1) [] rest
      return (.table .braces entries, rest)
  | _, text => scalar? text

/-- The table that assignments go into, and all that was read. -/
structure Progress where
  path : List String
  root : Entries

/-- Reads the header of a table or of a row, after its first bracket. -/
def header? (p : Progress) : List Char → Option (Progress × List Char)
  | '[' :: rest => do
    let ((path, key), rest) ← key? rest
    let rest ← mark? ']' (← mark? ']' rest)
    return (⟨path ++ [key], ← Entries.alter false (beginRow key) path .header p.root⟩, rest)
  | rest => do
    let ((path, key), rest) ← key? rest
    let rest ← mark? ']' rest
    return (⟨path ++ [key], ← Entries.alter false (beginTable key) path .header p.root⟩, rest)

def line? (p : Progress) : List Char → Option (Progress × List Char)
  | '[' :: rest => header? p rest
  | text => do
    let ((path, key, e), rest) ← assignment? (value? (depthLimit - 1)) text
    return (⟨p.path, ← Entries.alter false (assign path key e) p.path .header p.root⟩, rest)

/-- Reads line after line. -/
def lines? : Nat → Progress → List Char → Option Entries
  | 0, _, _ => none
  | fuel + 1, p, text =>
    let text := skipSpaces text
    if text.isEmpty then some p.root
    else
      match lineEnd? text with
      | some rest => lines? fuel p rest
      | none => do
        let (p, rest) ← line? p text
        lines? fuel p (← lineEnd? rest)

/-- The document in a text, which may begin with a byte order mark. -/
def document? (text : String) : Option Document :=
  let text := match text.toList with
    | '\uFEFF' :: rest => rest
    | text => text
  (lines? (text.length + 1) ⟨[], []⟩ text).bind Entries.document?

end Toml

end Fixity
