import Fixity.Proofs.Bracketing
import Fixity.Tree.Written

/-! The bracketing that a tree is written as. The test for parentheses walks the edge of an operand
and looks for an operator that the parent captures; that edge is the one of the operand as it is
printed, so what is printed has no conflicts. -/
namespace Fixity

namespace PostfixToken

variable {op : Operator}

theorem argCount_ofOperator_le (op : Operator) : ¬2 < (ofOperator op).argCount := by
  rcases op with ⟨_, _, _, _ | (_ | _), _, _⟩ <;> simp [Arity.argCount]

theorem fill_before (h : op.arity = .unary .before) (operand : List Token) :
    (ofOperator op).fill [operand] = op.symbol :: operand := by
  rcases op with ⟨_, _, _, _ | (_ | _), _, _⟩ <;> cases h
  simp [ofOperator, fill, fillSlots]

theorem fill_after (h : op.arity = .unary .after) (operand : List Token) :
    (ofOperator op).fill [operand] = operand ++ [op.symbol] := by
  rcases op with ⟨_, _, _, _ | (_ | _), _, _⟩ <;> cases h
  simp [ofOperator, fill, fillSlots]

theorem fill_binary (h : op.arity = .binary) (left right : List Token) :
    (ofOperator op).fill [left, right] = left ++ op.symbol :: right := by
  rcases op with ⟨_, _, _, _ | (_ | _), _, _⟩ <;> cases h
  simp [ofOperator, fill, fillSlots]

end PostfixToken

namespace Tree

variable (op : Operator) (x : PostfixToken) (cs : List Tree)

theorem needsParentheses_first :
    (node x cs).needsParentheses (.ofOperator op) true =
      (!x.appliesBefore (.ofOperator op) ||
        x.endsWithOperand && lastNeedsParentheses (.ofOperator op) x cs) := by
  rw [needsParentheses, if_neg (PostfixToken.argCount_ofOperator_le op)]
  cases h : x.appliesBefore (.ofOperator op) <;> cases h' : x.endsWithOperand <;>
    simp [PostfixToken.captures, PostfixToken.hasOperandAtEdge, h, h']

theorem needsParentheses_later :
    (node x cs).needsParentheses (.ofOperator op) false =
      ((PostfixToken.ofOperator op).appliesBefore x ||
        x.startsWithOperand && firstNeedsParentheses (.ofOperator op) x cs) := by
  rw [needsParentheses, if_neg (PostfixToken.argCount_ofOperator_le op)]
  cases h : (PostfixToken.ofOperator op).appliesBefore x <;> cases h' : x.startsWithOperand <;>
    simp [PostfixToken.captures, PostfixToken.hasOperandAtEdge, h, h']

end Tree

namespace Bracketing

/-- Encloses a bracketing in parentheses if need be. -/
def wrap (needed : Bool) (r : Bracketing) : Bracketing :=
  if needed then .enclosed .parentheses r else r

/-- The bracketing with the parentheses that printing puts around operands, instead of its own. -/
def printed : Bracketing → Bracketing
  | value t => value t
  | before op r => before op (wrap (r.tree.needsParentheses (.ofOperator op) false) r.printed)
  | after op r => after op (wrap (r.tree.needsParentheses (.ofOperator op) true) r.printed)
  | binary op l r =>
    binary op (wrap (l.tree.needsParentheses (.ofOperator op) true) l.printed)
      (wrap (r.tree.needsParentheses (.ofOperator op) false) r.printed)
  | enclosed _ r => r.printed

variable {v : Vocabulary} {op : Operator} {r : Bracketing}

@[simp] theorem tree_wrap (b : Bool) (r : Bracketing) : (wrap b r).tree = r.tree := by
  cases b <;> rfl

@[simp] theorem elements_wrap (b : Bool) (r : Bracketing) : (wrap b r).elements = r.elements := by
  cases b <;> rfl

theorem tokens_wrap (b : Bool) (r : Bracketing) :
    (wrap b r).tokens = if b then parenthesized r.tokens else r.tokens := by
  cases b <;> rfl

theorem ConflictFree.conflictFree_wrap (h : r.ConflictFree) (b : Bool) :
    (wrap b r).ConflictFree := by
  cases b <;> exact h

theorem Over.over_wrap (h : r.Over v) (hp : v.IsEffective .parentheses) (b : Bool) :
    (wrap b r).Over v := by
  cases b
  · exact h
  · exact ⟨hp, h⟩

/-- What is enclosed yields to everything. -/
theorem yieldsTo_wrap {b : Bool} : (wrap b r).YieldsTo op ↔ b = true ∨ r.YieldsTo op := by
  cases b <;> simp [wrap, YieldsTo, rightEdge]

theorem resists_wrap {b : Bool} : (wrap b r).Resists op ↔ b = true ∨ r.Resists op := by
  cases b <;> simp [wrap, Resists, leftEdge]

@[simp] theorem tree_printed (r : Bracketing) : r.printed.tree = r.tree := by
  induction r with
  | value t => rfl
  | before op r ih => simp [printed, tree, ih]
  | after op r ih => simp [printed, tree, ih]
  | binary op l r ihl ihr => simp [printed, tree, ihl, ihr]
  | enclosed p r ih => simpa [printed, tree] using ih

@[simp] theorem elements_printed (r : Bracketing) : r.printed.elements = r.elements := by
  induction r with
  | value t => rfl
  | before op r ih => simp [printed, elements, ih]
  | after op r ih => simp [printed, elements, ih]
  | binary op l r ihl ihr => simp [printed, elements, ihl, ihr]
  | enclosed p r ih => simpa [printed, elements] using ih

theorem Over.tokens_printed (h : r.Over v) : r.printed.tokens = r.tree.written := by
  induction r with
  | value t => simp [printed, tokens, tree, Tree.written]
  | before op r ih =>
    have hs : (PostfixToken.ofOperator op).startsWithOperand = false := by simp [h.1.2]
    simp [printed, tokens, tree, Tree.written, Tree.writtenOperands, hs,
      PostfixToken.fill_before h.1.2, tokens_wrap, ih h.2]
  | after op r ih =>
    have hs : (PostfixToken.ofOperator op).startsWithOperand = true := by simp [h.1.2]
    simp [printed, tokens, tree, Tree.written, Tree.writtenOperands, hs,
      PostfixToken.fill_after h.1.2, tokens_wrap, ih h.2]
  | binary op l r ihl ihr =>
    have hs : (PostfixToken.ofOperator op).startsWithOperand = true := by simp [h.1.2]
    simp [printed, tokens, tree, Tree.written, Tree.writtenOperands, hs,
      PostfixToken.fill_binary h.1.2, tokens_wrap, ihl h.2.1, ihr h.2.2]
  | enclosed p r ih => exact ih h.2

theorem Over.over_printed (h : r.Over v) (hp : v.IsEffective .parentheses) : r.printed.Over v := by
  induction r with
  | value t => exact h
  | before op r ih => exact ⟨h.1, (ih h.2).over_wrap hp _⟩
  | after op r ih => exact ⟨h.1, (ih h.2).over_wrap hp _⟩
  | binary op l r ihl ihr => exact ⟨h.1, (ihl h.2.1).over_wrap hp _, (ihr h.2.2).over_wrap hp _⟩
  | enclosed p r ih => exact ih h.2

/-- An operand before its operator gets parentheses unless its printed right edge yields. -/
theorem Over.needsParentheses_first (h : r.Over v) (op : Operator) :
    r.tree.needsParentheses (.ofOperator op) true = !decide (r.printed.YieldsTo op) := by
  induction r with
  | value t => simp [tree, Tree.needsParentheses, printed, YieldsTo, rightEdge]
  | before x r ih =>
    have hx : (PostfixToken.ofOperator x).endsWithOperand = true := by simp [h.1.2]
    simp [tree, Tree.needsParentheses_first, hx, Tree.lastNeedsParentheses, printed,
      yieldsTo_before, yieldsTo_wrap, ih h.2, Operator.appliesBefore]
  | after x r ih =>
    have hx : (PostfixToken.ofOperator x).endsWithOperand = false := by simp [h.1.2]
    simp [tree, Tree.needsParentheses_first, hx, printed, YieldsTo, rightEdge,
      Operator.appliesBefore]
  | binary x l r ihl ihr =>
    have hx : (PostfixToken.ofOperator x).endsWithOperand = true := by simp [h.1.2]
    simp [tree, Tree.needsParentheses_first, hx, Tree.lastNeedsParentheses, printed,
      yieldsTo_binary, yieldsTo_wrap, ihr h.2.2, Operator.appliesBefore]
  | enclosed p r ih => exact ih h.2

/-- An operand after its operator gets parentheses unless its printed left edge resists. -/
theorem Over.needsParentheses_later (h : r.Over v) (op : Operator) :
    r.tree.needsParentheses (.ofOperator op) false = !decide (r.printed.Resists op) := by
  induction r with
  | value t => simp [tree, Tree.needsParentheses, printed, Resists, leftEdge]
  | before x r ih =>
    have hx : (PostfixToken.ofOperator x).startsWithOperand = false := by simp [h.1.2]
    simp [tree, Tree.needsParentheses_later, hx, printed, Resists, leftEdge,
      Operator.appliesBefore]
  | after x r ih =>
    have hx : (PostfixToken.ofOperator x).startsWithOperand = true := by simp [h.1.2]
    simp [tree, Tree.needsParentheses_later, hx, Tree.firstNeedsParentheses, printed,
      resists_after, resists_wrap, ih h.2, Operator.appliesBefore]
  | binary x l r ihl ihr =>
    have hx : (PostfixToken.ofOperator x).startsWithOperand = true := by simp [h.1.2]
    simp [tree, Tree.needsParentheses_later, hx, Tree.firstNeedsParentheses, printed,
      resists_binary, resists_wrap, ihl h.2.1, Operator.appliesBefore]
  | enclosed p r ih => exact ih h.2

/-- What is wrapped if need be yields where it has to. -/
theorem Over.yieldsTo_wrap_printed (h : r.Over v) (op : Operator) :
    (wrap (r.tree.needsParentheses (.ofOperator op) true) r.printed).YieldsTo op := by
  rw [yieldsTo_wrap, h.needsParentheses_first]
  by_cases hy : r.printed.YieldsTo op <;> simp [hy]

theorem Over.resists_wrap_printed (h : r.Over v) (op : Operator) :
    (wrap (r.tree.needsParentheses (.ofOperator op) false) r.printed).Resists op := by
  rw [resists_wrap, h.needsParentheses_later]
  by_cases hr : r.printed.Resists op <;> simp [hr]

/-- What is printed is read as it was meant. -/
theorem Over.conflictFree_printed (h : r.Over v) : r.printed.ConflictFree := by
  induction r with
  | value t => trivial
  | before op r ih => exact ⟨(ih h.2).conflictFree_wrap _, h.2.resists_wrap_printed op⟩
  | after op r ih => exact ⟨(ih h.2).conflictFree_wrap _, h.2.yieldsTo_wrap_printed op⟩
  | binary op l r ihl ihr =>
    obtain ⟨-, hl, hr⟩ := h
    have hleft := hl.yieldsTo_wrap_printed op
    have hright := hr.resists_wrap_printed op
    exact ⟨⟨(ihl hl).conflictFree_wrap _, hleft⟩, (ihr hr).conflictFree_wrap _, hright⟩
  | enclosed p r ih => exact ih h.2

end Bracketing

end Fixity
