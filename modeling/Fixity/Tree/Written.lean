import Fixity.Tree

/-! Trees written the way expressions are, with parentheses only where they are needed.

An operand before its operator leaves the operators on its right edge waiting when the symbol of the
operator is read: each of them has to be applied first, or else the operand needs parentheses. An
operand after its operator is looked at along its left edge in the same way. An edge ends at a
symbol and at an operand that has parentheses of its own. -/
namespace Fixity

namespace PostfixToken

/-- Fills the places of the slots with operands in turn. -/
def fillSlots : List (Option Token) → List (List Token) → List Token
  | [], _ => []
  | some symbol :: slots, operands => symbol :: fillSlots slots operands
  | none :: slots, operand :: operands => operand ++ fillSlots slots operands
  | none :: slots, [] => fillSlots slots []

theorem fillSlots_nil (slots : List (Option Token)) :
    fillSlots slots [] = slots.filterMap id := by
  induction slots with
  | nil => rfl
  | cons slot slots ih => cases slot <;> simp [fillSlots, ih]

/-- The next operand takes the first place, after the symbols before it. -/
theorem fillSlots_cons (slots : List (Option Token)) (operand : List Token)
    (operands : List (List Token)) : fillSlots slots (operand :: operands) =
      (slots.takeWhile Option.isSome).filterMap id ++
        match slots.dropWhile Option.isSome with
        | [] => []
        | _ :: slots => operand ++ fillSlots slots operands := by
  induction slots with
  | nil => rfl
  | cons slot slots ih => cases slot <;> simp [fillSlots, ih]

/-- The operator written out with its operands. -/
def fill (t : PostfixToken) (operands : List (List Token)) : List Token :=
  fillSlots t.slots operands

/-- One of two neighbours is written at the side on which the other one is not: whether `inner`,
written before (`isFirst`) or after the symbol of `outer`, loses an operand to `outer`. -/
def captures (outer inner : PostfixToken) (isFirst : Bool) : Bool :=
  if isFirst then !inner.appliesBefore outer else outer.appliesBefore inner

/-- An operand stands at the edge that faces an operator written after it or before it. -/
def hasOperandAtEdge (t : PostfixToken) (isFirst : Bool) : Bool :=
  if isFirst then t.endsWithOperand else t.startsWithOperand

end PostfixToken

/-- Encloses the tokens in parentheses. -/
def parenthesized (tokens : List Token) : List Token :=
  DelimiterPair.parentheses.opening :: tokens ++ [DelimiterPair.parentheses.closing]

namespace Tree

mutual

/-- Whether a tree needs parentheses as an operand of `parent`, written before its first symbol if
`isFirst` holds and after a symbol otherwise. -/
def needsParentheses (parent : PostfixToken) (isFirst : Bool) : Tree → Bool
  | .value _ => false
  | .node op cs =>
    if 2 < parent.argCount then decide (1 < op.argCount)
    else if parent.captures op isFirst then true
    else if op.hasOperandAtEdge isFirst then
      if isFirst then lastNeedsParentheses parent op cs else firstNeedsParentheses parent op cs
    else false

/-- Follows the right edge of an operand of `parent` into the last operand of `op`. -/
def lastNeedsParentheses (parent op : PostfixToken) : List Tree → Bool
  | [] => false
  | [t] => !t.needsParentheses op false && t.needsParentheses parent true
  | _ :: t :: ts => lastNeedsParentheses parent op (t :: ts)

/-- Follows the left edge of an operand of `parent` into the first operand of `op`. -/
def firstNeedsParentheses (parent op : PostfixToken) : List Tree → Bool
  | [] => false
  | t :: _ => !t.needsParentheses op true && t.needsParentheses parent false

end

mutual

/-- The tokens of the tree as an expression. -/
def written : Tree → List Token
  | .value t => [t]
  | .node op cs => op.fill (writtenOperands op op.startsWithOperand cs)

/-- The tokens of each operand. Only the first of them can stand before the first symbol. -/
def writtenOperands (op : PostfixToken) (isFirst : Bool) : List Tree → List (List Token)
  | [] => []
  | t :: ts =>
    (if t.needsParentheses op isFirst then parenthesized t.written else t.written) ::
      writtenOperands op false ts

end

mutual

/-- The tokens of the tree, followed by `rest`. -/
def writtenBefore (rest : List Token) : Tree → List Token
  | .value t => t :: rest
  | .node op cs => filledBefore op op.startsWithOperand op.slots rest cs

/-- The slots of `op` that are still to be filled with operands, followed by `rest`. -/
def filledBefore (op : PostfixToken) (isFirst : Bool) (slots : List (Option Token))
    (rest : List Token) : List Tree → List Token
  | [] => slots.filterMap id ++ rest
  | t :: ts =>
    (slots.takeWhile Option.isSome).filterMap id ++
      match slots.dropWhile Option.isSome with
      | [] => rest
      | _ :: slots =>
        if t.needsParentheses op isFirst then
          DelimiterPair.parentheses.opening ::
            t.writtenBefore (DelimiterPair.parentheses.closing ::
              filledBefore op false slots rest ts)
        else t.writtenBefore (filledBefore op false slots rest ts)

end

mutual

theorem writtenBefore_eq (rest : List Token) :
    (t : Tree) → t.writtenBefore rest = t.written ++ rest
  | .value t => by simp [writtenBefore, written]
  | .node op cs => by
    rw [writtenBefore, written, filledBefore_eq, PostfixToken.fill]

theorem filledBefore_eq (op : PostfixToken) (isFirst : Bool) (slots : List (Option Token))
    (rest : List Token) : (ts : List Tree) → filledBefore op isFirst slots rest ts =
      PostfixToken.fillSlots slots (writtenOperands op isFirst ts) ++ rest
  | [] => by
    rw [filledBefore, writtenOperands, PostfixToken.fillSlots_nil]
  | t :: ts => by
    rw [filledBefore, writtenOperands, PostfixToken.fillSlots_cons, List.append_assoc]
    congr 1
    split
    · simp
    · split <;>
        simp [parenthesized, writtenBefore_eq _ t, filledBefore_eq op false _ rest ts]

end

def text (t : Tree) : String := String.ofList (joinTokens (t.writtenBefore []))

@[simp] theorem toList_text (t : Tree) : t.text.toList = joinTokens t.written := by
  simp [text, writtenBefore_eq]

end Tree

end Fixity
