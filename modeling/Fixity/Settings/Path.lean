import Fixity.Document

/-! Paths to values inside of documents, as in `operators[1].symbol`, and documents laid over others
at the end of a path. -/
namespace Fixity

/-- One step into a document: to what stands under a key of a record, or at a position in a list,
which counts from the end if it is negative. -/
inductive Step where
  | field (key : String)
  | item (position : Int)
  deriving DecidableEq, Repr

abbrev Path := List Step

namespace Path

def isKeyChar (c : Char) : Bool := c.isAlphanum || c == ' ' || c == '_' || c == '-'

/-- A position between brackets, of 64 bits. -/
def position? (text : List Char) : Option Int := do
  let isSpace (c : Char) : Bool := c == ' ' || c == '\t'
  let inner := ((text.dropWhile isSpace).reverse.dropWhile isSpace).reverse
  guard (inner.head? ≠ some '+')
  let n ← intOfDigits? inner
  guard (Int64.minValue.toInt ≤ n ∧ n ≤ Int64.maxValue.toInt)
  return n

/-- The steps after the first key: keys after dots and positions between brackets. -/
def steps? : List Char → Option Path
  | [] => some []
  | '.' :: text =>
    let key := text.takeWhile isKeyChar
    if key.isEmpty then none
    else (steps? (text.dropWhile isKeyChar)).map (.field (String.ofList key) :: ·)
  | '[' :: text =>
    match position? (text.takeWhile (· != ']')), _h : text.dropWhile (· != ']') with
    | some n, _ :: rest => (steps? rest).map (.item n :: ·)
    | _, _ => none
  | _ => none
termination_by text => text.length
decreasing_by
  · have := (List.dropWhile_sublist (l := text) isKeyChar).length_le
    simp only [List.length_cons]
    omega
  · have := (List.dropWhile_sublist (l := text) (· != ']')).length_le
    rw [_h] at this
    simp only [List.length_cons] at this ⊢
    omega

def ofChars? (text : List Char) : Option Path :=
  let key := text.takeWhile isKeyChar
  if key.isEmpty then none
  else (steps? (text.dropWhile isKeyChar)).map (.field (String.ofList key) :: ·)

/-- The path that a key spells. A key that spells none is one step. -/
def ofKey (key : String) : Path := (ofChars? key.toList).getD [.field key]

end Path

namespace Document

/-- A record with a value under a key; what is no record gives way to one. -/
def withField (below : Document) (key : String) (d : Document) : Document :=
  match below with
  | .record fields =>
    if (fields.lookup key).isSome then
      .record (fields.map fun f => if f.1 = key then (key, d) else f)
    else .record (fields ++ [(key, d)])
  | _ => .record [(key, d)]

mutual

/-- What stands under a key after a value has been laid over it: records are joined key by key, and
all else is replaced. -/
def overlay (below : Option Document) : Document → Document
  | .record fields => overlayFields (below.getD (.record [])) fields
  | d => d

/-- A record with further fields laid over its own. Keys are put in lower case. -/
def overlayFields (below : Document) : List (String × Document) → Document
  | [] => below
  | (key, d) :: rest =>
    let key := key.toLower
    overlayFields (below.withField key (overlay (below.field? key) d)) rest

end

/-- The items of a list; what is no list gives way to an empty one. -/
def items : Document → List Document
  | .list ds => ds
  | _ => []

/-- The index of a position in a list of the given length, which it may exceed. -/
def index? (length : Nat) (position : Int) : Option Nat :=
  if 0 ≤ position then some position.toNat
  else if position.natAbs ≤ length then some (length - position.natAbs)
  else none

/-- Lays a value over what stands at the end of a path. Records and lists on the way are made where
there are none, and lists are filled up with nulls. At a position the value replaces what stood
there. No position lies before the start of a list. The case of a key counts on the way but not at
the end. -/
def place (d : Document) : Path → Document → Option Document
  | [], _ => some d
  | [.field key], below => some (below.overlayFields [(key, d)])
  | .field key :: path, below => do
    let inner ← d.place path ((below.field? key).getD .null)
    return below.withField key inner
  | .item position :: path, below => do
    let i ← index? below.items.length position
    let items := below.items ++ List.replicate (i + 1 - below.items.length) Document.null
    let inner ← d.place path (items.getD i .null)
    return .list (items.set i inner)

/-- A document with the fields of a record laid over it, at the paths that their keys spell. -/
def placeFields (below : Document) : Document → Option Document
  | .record fields => fields.foldlM (fun below (key, d) => d.place (Path.ofKey key) below) below
  | _ => none

end Document

end Fixity
