import Fixity.Tree

/-! Trees as nested lists with the operator first, such as `(| A ([] B))`. -/
namespace Fixity

namespace Tree

mutual

def sexpressionChars : Tree → List Char
  | .value t => t.chars
  | .node op cs => '(' :: op.label ++ sexpressionOperands cs ++ [')']

/-- Operands, each after a space. -/
def sexpressionOperands : List Tree → List Char
  | [] => []
  | t :: ts => ' ' :: t.sexpressionChars ++ sexpressionOperands ts

end

mutual

/-- The nested list, followed by `rest`. -/
def sexpressionBefore (rest : List Char) : Tree → List Char
  | .value t => t.chars ++ rest
  | .node op cs => '(' :: op.label ++ sexpressionOperandsBefore (')' :: rest) cs

def sexpressionOperandsBefore (rest : List Char) : List Tree → List Char
  | [] => rest
  | t :: ts => ' ' :: t.sexpressionBefore (sexpressionOperandsBefore rest ts)

end

mutual

theorem sexpressionBefore_eq (rest : List Char) :
    (t : Tree) → t.sexpressionBefore rest = t.sexpressionChars ++ rest
  | .value t => by simp [sexpressionBefore, sexpressionChars]
  | .node op cs => by
    simp [sexpressionBefore, sexpressionChars, sexpressionOperandsBefore_eq _ cs]

theorem sexpressionOperandsBefore_eq (rest : List Char) :
    (ts : List Tree) → sexpressionOperandsBefore rest ts = sexpressionOperands ts ++ rest
  | [] => by simp [sexpressionOperandsBefore, sexpressionOperands]
  | t :: ts => by
    simp [sexpressionOperandsBefore, sexpressionOperands, sexpressionBefore_eq _ t,
      sexpressionOperandsBefore_eq _ ts]

end

def sexpression (t : Tree) : String := String.ofList (t.sexpressionBefore [])

@[simp] theorem toList_sexpression (t : Tree) : t.sexpression.toList = t.sexpressionChars := by
  simp [sexpression, sexpressionBefore_eq]

end Tree

end Fixity
