import Fixity.Document
import Fixity.PostfixToken

/-! Expression trees, with their postfix order and as documents. A tree is rebuilt from its postfix
order read from the end: the last element is the root, and the operands of an operator come before
it, the last one nearest. -/
namespace Fixity

/-- An expression: a value, or an operator with its operands in written order. -/
inductive Tree where
  | value (token : Token)
  | node (operator : PostfixToken) (children : List Tree)

/-- Why a sequence or a list of operands forms no tree. -/
inductive TreeError where
  | empty
  | missingOperand (operator : String)
  | unresolvedTokens (remaining : Nat)
  | unsupportedArity (argCount : Nat)
  | childCount (operator : String) (expected actual : Nat)
  deriving DecidableEq, Repr

def TreeError.message : TreeError → String
  | .empty => "postfix notation is empty"
  | .missingOperand operator => s!"operator `{operator}` is missing an operand"
  | .unresolvedTokens remaining =>
    s!"postfix notation was not resolvable: {remaining} tokens left over"
  | .unsupportedArity argCount => s!"operators taking {argCount} arguments are not supported"
  | .childCount operator expected actual =>
    s!"operator `{operator}` expects {expected} children, got {actual}"

namespace Tree

/-- An operator with as many operands as it has places, at least one. -/
def ofOperator (operator : PostfixToken) (children : List Tree) : Except TreeError Tree :=
  if operator.argCount = 0 ∨ children.length ≠ operator.argCount then
    .error (.childCount operator.text operator.argCount children.length)
  else .ok (.node operator children)

def isValue : Tree → Bool
  | .value _ => true
  | .node _ _ => false

/-- What the root puts into a postfix sequence. -/
def root : Tree → PostfixToken
  | .value t => .value t
  | .node op _ => op

def children : Tree → List Tree
  | .value _ => []
  | .node _ cs => cs

def precedence (t : Tree) : Int32 := t.root.precedence

def associativity (t : Tree) : Associativity := t.root.associativity

/-- The text of the root alone. -/
def label (t : Tree) : List Char := t.root.label

def labelText (t : Tree) : String := String.ofList t.label

mutual

/-- The tree in postfix order, followed by `rest`. -/
def postfixBefore (rest : List PostfixToken) : Tree → List PostfixToken
  | .value t => .value t :: rest
  | .node op cs => postfixesBefore (op :: rest) cs

def postfixesBefore (rest : List PostfixToken) : List Tree → List PostfixToken
  | [] => rest
  | t :: ts => t.postfixBefore (postfixesBefore rest ts)

end

/-- The tree in postfix order: operands before their operator. -/
def postfixOrder (t : Tree) : List PostfixToken := t.postfixBefore []

/-- The postfix orders of some trees, one after the other. -/
def postfixOrders (ts : List Tree) : List PostfixToken := postfixesBefore [] ts

mutual

theorem postfixBefore_eq (rest : List PostfixToken) :
    (t : Tree) → t.postfixBefore rest = t.postfixOrder ++ rest
  | .value t => by simp [postfixBefore, postfixOrder]
  | .node op cs => by
    rw [postfixOrder, postfixBefore, postfixBefore, postfixesBefore_eq (op :: rest) cs,
      postfixesBefore_eq [op] cs, List.append_assoc, List.singleton_append]

theorem postfixesBefore_eq (rest : List PostfixToken) :
    (ts : List Tree) → postfixesBefore rest ts = postfixOrders ts ++ rest
  | [] => by simp [postfixesBefore, postfixOrders]
  | t :: ts => by
    rw [postfixOrders, postfixesBefore, postfixesBefore, postfixBefore_eq _ t,
      postfixBefore_eq _ t, postfixesBefore_eq rest ts, postfixesBefore_eq [] ts,
      List.append_nil, List.append_assoc]

end

@[simp] theorem postfixOrder_value (t : Token) : (value t).postfixOrder = [.value t] := by
  simp [postfixOrder, postfixBefore]

@[simp] theorem postfixOrder_node (op : PostfixToken) (cs : List Tree) :
    (node op cs).postfixOrder = postfixOrders cs ++ [op] := by
  rw [postfixOrder, postfixBefore, postfixesBefore_eq]

@[simp] theorem postfixOrders_nil : postfixOrders [] = [] := by
  simp [postfixOrders, postfixesBefore]

@[simp] theorem postfixOrders_cons (t : Tree) (ts : List Tree) :
    postfixOrders (t :: ts) = t.postfixOrder ++ postfixOrders ts := by
  rw [postfixOrders, postfixesBefore, postfixBefore_eq, postfixOrders]

mutual

/-- Equality of trees is decided from the root down. -/
def decEq : (s t : Tree) → Decidable (s = t)
  | .value a, .value b => decidable_of_iff (a = b) (by simp)
  | .value _, .node _ _ => isFalse (by simp)
  | .node _ _, .value _ => isFalse (by simp)
  | .node p cs, .node q ds =>
    match decEqList cs ds with
    | isTrue h => decidable_of_iff (p = q) (by simp [h])
    | isFalse h => isFalse (by simp [h])

def decEqList : (ss ts : List Tree) → Decidable (ss = ts)
  | [], [] => isTrue rfl
  | [], _ :: _ => isFalse (by simp)
  | _ :: _, [] => isFalse (by simp)
  | s :: ss, t :: ts =>
    match decEq s t with
    | isTrue h =>
      match decEqList ss ts with
      | isTrue h' => isTrue (by rw [h, h'])
      | isFalse h' => isFalse (by simp [h'])
    | isFalse h => isFalse (by simp [h])

end

instance : DecidableEq Tree := decEq

end Tree

/-- An operator that lacks operands, with those found so far in written order. -/
structure Unfinished where
  operator : PostfixToken
  children : List Tree

namespace Tree

/-- Gives an operand to the innermost unfinished operator. An operator finished by it is an operand
of the next one. Once none is unfinished, the tree stands alone. -/
def supply (operand : Tree) : List Unfinished → Except TreeError (Tree ⊕ List Unfinished)
  | [] => .ok (.inl operand)
  | u :: rest =>
    if u.children.length + 1 < u.operator.argCount then
      .ok (.inr (⟨u.operator, operand :: u.children⟩ :: rest))
    else do supply (← ofOperator u.operator (operand :: u.children)) rest

/-- Reads a sequence, its last element first. -/
def rebuild : List Unfinished → List PostfixToken → Except TreeError Tree
  | unfinished, [] =>
    .error (.missingOperand ((unfinished.head?.map fun u => u.operator.text).getD ""))
  | unfinished, t :: earlier =>
    match t.value? with
    | some v => do
      match ← supply (.value v) unfinished with
      | .inr unfinished => rebuild unfinished earlier
      | .inl tree =>
        if earlier.isEmpty then return tree else throw (.unresolvedTokens earlier.length)
    | none =>
      if 2 < t.argCount then .error (.unsupportedArity t.argCount)
      else rebuild (⟨t, []⟩ :: unfinished) earlier

/-- The tree whose postfix order the sequence is. -/
def ofPostfix (tokens : List PostfixToken) : Except TreeError Tree :=
  if tokens.isEmpty then .error .empty else rebuild [] tokens.reverse

end Tree

namespace PostfixToken

def document (t : PostfixToken) : Document :=
  .record [("arg_count", .integer t.argCount),
    ("values", .list (t.slots.map fun slot => .ofText? (slot.map Token.text))),
    ("precedence", .integer t.precedence.toInt),
    ("associativity", .text t.associativity.text)]

end PostfixToken

namespace Tree

mutual

def document : Tree → Document
  | .value t => .record [("kind", .text "value"), ("token", .text t.text)]
  | .node op cs =>
    .record [("kind", .text "operator"), ("operator", op.document),
      ("children", .list (documents cs))]

def documents : List Tree → List Document
  | [] => []
  | t :: ts => t.document :: documents ts

end

end Tree

end Fixity
