import Fixity.Document
import Fixity.Grammar.Predefined
import Fixity.Tree.Written
import Fixity.Types.Name

/-! Type expressions: names, arrays and unions, written in the grammar of types. -/
namespace Fixity

inductive TypeError where
  | parse (error : ParseError)
  | invalidTypeName (name : String)
  | unsupportedOperator (symbol : String)
  | inheritanceTooShort (count : Nat)
  deriving DecidableEq

def TypeError.message : TypeError → String
  | .parse error => error.message
  | .invalidTypeName name => s!"`{name}` is not a valid type name"
  | .unsupportedOperator symbol => s!"operator `{symbol}` has no meaning in a type expression"
  | .inheritanceTooShort count =>
    s!"an inheritance expression needs at least two types, got {count}"

variable [WordClass]

inductive TypeExpression where
  | name (name : TypeName)
  | array (items : TypeExpression)
  | union (members : List TypeExpression)

namespace TypeName

def ofChars (text : List Char) : Except TypeError TypeName :=
  match ofChars? text with
  | some name => .ok name
  | none => .error (.invalidTypeName (String.ofList (trimBlanks text)))

def ofString (text : String) : Except TypeError TypeName := ofChars text.toList

@[simp] theorem ofChars_chars (n : TypeName) : ofChars n.chars = .ok n := by
  simp [ofChars]

end TypeName

namespace TypeExpression

/-- The members of a union; any other expression is its only member. -/
def members : TypeExpression → List TypeExpression
  | .union ms => ms
  | t => [t]

/-- The union of the members of some expressions. A single member stands alone. -/
def unionOf (ts : List TypeExpression) : TypeExpression :=
  match ts.flatMap members with
  | [only] => only
  | ms => .union ms

/-- Reads a tree of array and union operators over names. -/
def ofTree : Tree → Except TypeError TypeExpression
  | .value t => (TypeName.ofChars t.chars).map .name
  | .node op [items] =>
    if op.isAfter && op.label == Operator.array.symbol.chars then do
      return .array (← ofTree items)
    else .error (.unsupportedOperator op.text)
  | .node op [left, right] =>
    if op.isBinary && op.label == Operator.union.symbol.chars then do
      let left ← ofTree left
      let right ← ofTree right
      return unionOf [left, right]
    else .error (.unsupportedOperator op.text)
  | .node op _ => .error (.unsupportedOperator op.text)

/-- What is written for a union without members. -/
def nil : Tree := .value (.literal ['n', 'i', 'l'])

def unionTree (left right : Tree) : Tree := .node (.ofOperator .union) [left, right]

mutual

/-- The tree of the expression. Unions fold to the left. -/
def toTree : TypeExpression → Tree
  | .name n => .value n.token
  | .array items => .node (.ofOperator .array) [items.toTree]
  | .union [] => nil
  | .union (t :: ts) => foldTrees t.toTree ts

/-- The union of what was folded so far with further members. -/
def foldTrees (folded : Tree) : List TypeExpression → Tree
  | [] => folded
  | t :: ts => foldTrees (unionTree folded t.toTree) ts

end

def text (t : TypeExpression) : String := t.toTree.text

/-- An operator over operands, if these are as many as it has places for. -/
def operatorTree (op : Operator) (operands : List Tree) : Except TypeError Tree :=
  ((Tree.ofOperator (.ofOperator op) operands).mapError .tree).mapError .parse

mutual

/-- The tree of the expression, built with a check of each operator. -/
def checkedTree : TypeExpression → Except TypeError Tree
  | .name n => .ok (.value n.token)
  | .array items => do operatorTree .array [← items.checkedTree]
  | .union [] => .ok nil
  | .union (t :: ts) => do checkedFold (← t.checkedTree) ts

/-- The union of what was folded so far with further members, built with the same check. -/
def checkedFold (folded : Tree) : List TypeExpression → Except TypeError Tree
  | [] => .ok folded
  | t :: ts => do checkedFold (← operatorTree .union [folded, ← t.checkedTree]) ts

end

def parse (input : String) : Except TypeError TypeExpression := do
  ofTree (← (Grammar.types.parse input).mapError .parse)

/-- Documents hold type expressions as texts. -/
def ofDocument? (r : Reading) (d : Document) : Option TypeExpression :=
  (r.text? d).bind fun s => (parse s).toOption

def document (t : TypeExpression) : Document := .text t.text

def isArray : TypeExpression → Bool
  | .array _ => true
  | _ => false

def isUnion : TypeExpression → Bool
  | .union _ => true
  | _ => false

mutual

/-- All names in written order. -/
def typeNames : TypeExpression → List TypeName
  | .name n => [n]
  | .array items => items.typeNames
  | .union ms => typeNamesOf ms

def typeNamesOf : List TypeExpression → List TypeName
  | [] => []
  | t :: ts => t.typeNames ++ typeNamesOf ts

end

mutual

def decEq : (s t : TypeExpression) → Decidable (s = t)
  | .name m, .name n => decidable_of_iff (m = n) (by simp)
  | .array s, .array t =>
    match decEq s t with
    | isTrue h => isTrue (by rw [h])
    | isFalse h => isFalse (by simp [h])
  | .union ss, .union ts =>
    match decEqList ss ts with
    | isTrue h => isTrue (by rw [h])
    | isFalse h => isFalse (by simp [h])
  | .name _, .array _ | .name _, .union _ | .array _, .name _ | .array _, .union _
  | .union _, .name _ | .union _, .array _ => isFalse (by simp)

def decEqList : (ss ts : List TypeExpression) → Decidable (ss = ts)
  | [], [] => isTrue rfl
  | [], _ :: _ => isFalse (by simp)
  | _ :: _, [] => isFalse (by simp)
  | s :: ss, t :: ts =>
    match decEq s t with
    | isTrue h =>
      match decEqList ss ts with
      | isTrue h' => isTrue (by rw [h, h'])
      | isFalse h' => isFalse (by simp [h'])
    | isFalse h => isFalse (by simp [h])

end

instance : DecidableEq TypeExpression := decEq

end TypeExpression

end Fixity
