import Fixity.Document
import Fixity.Toml.Moment

/-! What stands under the keys of a TOML file, and the documents that this denotes. -/
namespace Fixity

namespace Toml

/-- How a table came to be. -/
inductive Origin where
  | header
  | innerHeader
  | dottedKey
  | braces
  deriving DecidableEq, Repr

/-- What stands under a key: a plain value, a moment, an array, a table, or the tables of an array
that headers make, the latest first. -/
inductive Entry where
  | plain (d : Document)
  | moment (text : List Char)
  | array (items : List Entry)
  | table (origin : Origin) (entries : List (String × Entry))
  | tables (rows : List (List (String × Entry)))

abbrev Entries := List (String × Entry)

/-- A table that has this key first stands for the moment which the text under the key gives. -/
def momentKey : String := "$__toml_private_datetime"

/-- The moment that a text under the reserved key gives. -/
def Entry.quotedMoment? : Entry → Option Document
  | .plain (.text s) =>
    (Toml.moment? s.toList).map fun moment => .text (String.ofList moment)
  | _ => none

mutual

def Entry.document? : Entry → Option Document
  | .plain d => some d
  | .moment text => some (.text (String.ofList text))
  | .array items => (Entry.documents? items).map .list
  | .table _ entries => Entries.document? entries
  | .tables rows => (Entry.records? rows).map fun ds => .list ds.reverse

def Entry.documents? : List Entry → Option (List Document)
  | [] => some []
  | e :: items => do return (← e.document?) :: (← Entry.documents? items)

def Entry.records? : List (List (String × Entry)) → Option (List Document)
  | [] => some []
  | row :: rows => do return (← Entries.document? row) :: (← Entry.records? rows)

/-- A record of the entries, or a moment. -/
def Entries.document? : List (String × Entry) → Option Document
  | [] => some (.record [])
  | (key, e) :: rest =>
    if key = momentKey then e.quotedMoment?
    else do return .record ((key, ← e.document?) :: (← Entries.fields? rest))

def Entries.fields? : List (String × Entry) → Option (List (String × Document))
  | [] => some []
  | (key, e) :: rest => do return (key, ← e.document?) :: (← Entries.fields? rest)

end

end Toml

end Fixity
