import Fixity.Toml.Entry

/-! Tables under construction. A table is made by its own header, by a header of a table inside of
it or by a dotted key; only some of the three may go on where another one began. A table in braces
is finished at once. -/
namespace Fixity

namespace Toml

def Entries.put (key : String) (e : Entry) : Entries → Entries
  | [] => [(key, e)]
  | f :: rest => if f.1 = key then (key, e) :: rest else f :: Entries.put key e rest

/-- Changes the table at the end of a path. Tables missing on the way are made; a path leads into
the latest table of an array. A dotted key does not enter a table that has a header of its own. -/
def Entries.alter (isDotted : Bool) (change : Origin → Entries → Option Entries) :
    List String → Origin → Entries → Option Entries
  | [], origin, entries => change origin entries
  | key :: path, _, entries => do
    let inside (origin : Origin) (inner : Entries) := alter isDotted change path origin inner
    match entries.lookup key with
    | none =>
      let origin := if isDotted then Origin.dottedKey else .innerHeader
      return entries.put key (.table origin (← inside origin []))
    | some (.table origin inner) =>
      if origin = .braces ∨ (isDotted ∧ origin = .header) then none
      else return entries.put key (.table origin (← inside origin inner))
    | some (.tables (row :: rows)) =>
      return entries.put key (.tables ((← inside .header row) :: rows))
    | some (.tables []) | some (.array _) | some (.moment _)
    | some (.plain _) => none

/-- Sets a key that is not set yet. What a dotted key sets belongs into a table made by dotted keys,
and nothing else does. -/
def assignKey (isDotted : Bool) (key : String) (e : Entry) (origin : Origin)
    (entries : Entries) : Option Entries :=
  if isDotted ≠ (origin == .dottedKey) ∨ (entries.lookup key).isSome then none
  else some (entries.put key e)

/-- Sets a dotted key, given as its path and its last part. -/
def assign (path : List String) (key : String) (e : Entry) :
    Origin → Entries → Option Entries :=
  Entries.alter true (assignKey (!path.isEmpty) key e) path

/-- Begins a table under a key, in which only headers of inner tables may have put something. The
table becomes the last one. -/
def beginTable (key : String) (_ : Origin) (entries : Entries) : Option Entries :=
  match entries.lookup key with
  | none => some (entries ++ [(key, .table .header [])])
  | some (.table .innerHeader inner) =>
    some (entries.filter (fun f => f.1 != key) ++ [(key, .table .header inner)])
  | some _ => none

/-- Begins a further table of an array. -/
def beginRow (key : String) (_ : Origin) (entries : Entries) : Option Entries :=
  match entries.lookup key with
  | none => some (entries.put key (.tables [[]]))
  | some (.tables rows) => some (entries.put key (.tables ([] :: rows)))
  | some _ => none

end Toml

end Fixity
