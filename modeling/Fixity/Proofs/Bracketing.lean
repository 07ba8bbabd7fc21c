import Fixity.Proofs.Vocabulary

/-! Bracketings of a sequence of tokens: trees that keep the delimiters around their parts. The
order of operators decides which bracketing is meant. Where an operand is not enclosed, the
operators on the edge of it that faces its parent compete with the parent for what stands between
them. -/
namespace Fixity

namespace PostfixToken

@[simp] theorem startsWithOperand_ofOperator (op : Operator) :
    (ofOperator op).startsWithOperand = (op.arity != .unary .before) := by
  rcases op with ⟨_, _, _, _ | (_ | _), _, _⟩ <;> rfl

@[simp] theorem endsWithOperand_ofOperator (op : Operator) :
    (ofOperator op).endsWithOperand = (op.arity != .unary .after) := by
  rcases op with ⟨_, _, _, _ | (_ | _), _, _⟩ <;> rfl

end PostfixToken

/-- Whether `a`, written before `b`, takes its operands first. -/
def Operator.appliesBefore (a b : Operator) : Bool :=
  (PostfixToken.ofOperator a).appliesBefore (.ofOperator b)

theorem Operator.appliesBefore_of_after {a : Operator} (h : a.arity = .unary .after)
    (b : Operator) : a.appliesBefore b = true := by
  simp [appliesBefore, PostfixToken.appliesBefore, h]

theorem Operator.appliesBefore_of_before {a b : Operator} (ha : a.arity ≠ .unary .after)
    (hb : b.arity = .unary .before) : a.appliesBefore b = false := by
  simp [appliesBefore, PostfixToken.appliesBefore, ha, hb]

namespace Tree

mutual

/-- The elements of a tree in written order. -/
def inOrder : Tree → List PostfixToken
  | .value t => [.value t]
  | .node op cs => if op.startsWithOperand then inOrderAround op cs else op :: inOrders cs

/-- The operator is written after the first of its operands. -/
def inOrderAround (op : PostfixToken) : List Tree → List PostfixToken
  | [] => [op]
  | t :: ts => t.inOrder ++ op :: inOrders ts

def inOrders : List Tree → List PostfixToken
  | [] => []
  | t :: ts => t.inOrder ++ inOrders ts

end

end Tree

/-- A tree, any part of which can be enclosed in delimiters. -/
inductive Bracketing where
  | value (token : Token)
  | before (op : Operator) (operand : Bracketing)
  | after (op : Operator) (operand : Bracketing)
  | binary (op : Operator) (left right : Bracketing)
  | enclosed (pair : DelimiterPair) (inner : Bracketing)
  deriving DecidableEq

namespace Bracketing

/-- All tokens in written order. -/
def tokens : Bracketing → List Token
  | value t => [t]
  | before op r => op.symbol :: r.tokens
  | after op r => r.tokens ++ [op.symbol]
  | binary op l r => l.tokens ++ op.symbol :: r.tokens
  | enclosed p r => p.opening :: (r.tokens ++ [p.closing])

/-- The values and operators in written order. -/
def elements : Bracketing → List PostfixToken
  | value t => [.value t]
  | before op r => .ofOperator op :: r.elements
  | after op r => r.elements ++ [.ofOperator op]
  | binary op l r => l.elements ++ .ofOperator op :: r.elements
  | enclosed _ r => r.elements

/-- The tree without its delimiters. -/
def tree : Bracketing → Tree
  | value t => .value t
  | before op r => .node (.ofOperator op) [r.tree]
  | after op r => .node (.ofOperator op) [r.tree]
  | binary op l r => .node (.ofOperator op) [l.tree, r.tree]
  | enclosed _ r => r.tree

/-- Number of the pairs of delimiters. -/
def enclosures : Bracketing → Nat
  | value _ => 0
  | before _ r => r.enclosures
  | after _ r => r.enclosures
  | binary _ l r => l.enclosures + r.enclosures
  | enclosed _ r => r.enclosures + 1

/-- Operators, values and delimiters are used for what they are in the vocabulary. -/
def Over (v : Vocabulary) : Bracketing → Prop
  | value t => v.IsValue t
  | before op r => (op ∈ v.operators.operators ∧ op.arity = .unary .before) ∧ r.Over v
  | after op r => (op ∈ v.operators.operators ∧ op.arity = .unary .after) ∧ r.Over v
  | binary op l r =>
    (op ∈ v.operators.operators ∧ op.arity = .binary) ∧ l.Over v ∧ r.Over v
  | enclosed p r => v.IsEffective p ∧ r.Over v

theorem Over.inOrder_tree {v : Vocabulary} {r : Bracketing} (h : r.Over v) :
    r.tree.inOrder = r.elements := by
  induction r with
  | value t => simp [tree, elements, Tree.inOrder]
  | before op r ih => simp [tree, elements, Tree.inOrder, Tree.inOrders, h.1.2, ih h.2]
  | after op r ih =>
    simp [tree, elements, Tree.inOrder, Tree.inOrderAround, Tree.inOrders, h.1.2, ih h.2]
  | binary op l r ihl ihr =>
    simp [tree, elements, Tree.inOrder, Tree.inOrderAround, Tree.inOrders, h.1.2, ihl h.2.1,
      ihr h.2.2]
  | enclosed p r ih => exact ih h.2

/-- The operators that a token after the bracketing competes with, from the root down. The edge ends
where a symbol or a delimiter is written last. -/
def rightEdge : Bracketing → List Operator
  | value _ => []
  | before op r => op :: r.rightEdge
  | after op _ => [op]
  | binary op _ r => op :: r.rightEdge
  | enclosed _ _ => []

theorem Over.mem_operators_of_mem_rightEdge {v : Vocabulary} {r : Bracketing} (h : r.Over v)
    {op : Operator} (hop : op ∈ r.rightEdge) : op ∈ v.operators.operators := by
  induction r with
  | value t => cases hop
  | before x r ih =>
    rcases List.mem_cons.1 hop with rfl | hop
    · exact h.1.1
    · exact ih h.2 hop
  | after x r _ =>
    obtain rfl := List.mem_singleton.1 hop
    exact h.1.1
  | binary x l r _ ihr =>
    rcases List.mem_cons.1 hop with rfl | hop
    · exact h.1.1
    · exact ihr h.2.2 hop
  | enclosed p r _ => cases hop

/-- The operators that a token before the bracketing competes with, from the root down. -/
def leftEdge : Bracketing → List Operator
  | value _ => []
  | before op _ => [op]
  | after op r => op :: r.leftEdge
  | binary op l _ => op :: l.leftEdge
  | enclosed _ _ => []

/-- All operators on the edge of `r` that faces a following `op` go before `op`. -/
def YieldsTo (r : Bracketing) (op : Operator) : Prop := ∀ x ∈ r.rightEdge, x.appliesBefore op = true

/-- A preceding `op` goes before no operator on the edge of `r` that faces it. -/
def Resists (r : Bracketing) (op : Operator) : Prop := ∀ x ∈ r.leftEdge, op.appliesBefore x = false

section

variable {op : Operator} {r : Bracketing}

theorem yieldsTo_before {x : Operator} :
    (before x r).YieldsTo op ↔ x.appliesBefore op = true ∧ r.YieldsTo op :=
  List.forall_mem_cons

theorem yieldsTo_binary {x : Operator} {l : Bracketing} :
    (binary x l r).YieldsTo op ↔ x.appliesBefore op = true ∧ r.YieldsTo op :=
  List.forall_mem_cons

theorem resists_after {x : Operator} :
    (after x r).Resists op ↔ op.appliesBefore x = false ∧ r.Resists op :=
  List.forall_mem_cons

theorem resists_binary {x : Operator} {l : Bracketing} :
    (binary x l r).Resists op ↔ op.appliesBefore x = false ∧ l.Resists op :=
  List.forall_mem_cons

end

/-- No operator takes an operand away from another one that is not enclosed. -/
def ConflictFree : Bracketing → Prop
  | value _ => True
  | before op r => r.ConflictFree ∧ r.Resists op
  | after op r => r.ConflictFree ∧ r.YieldsTo op
  | binary op l r => (l.ConflictFree ∧ l.YieldsTo op) ∧ r.ConflictFree ∧ r.Resists op
  | enclosed _ r => r.ConflictFree

/-- The bracketing explains every token of `ts` as the vocabulary does. -/
def Reads (r : Bracketing) (v : Vocabulary) (ts : List Token) : Prop :=
  r.Over v ∧ r.tokens = ts

instance decidableOver (v : Vocabulary) : (r : Bracketing) → Decidable (r.Over v)
  | value t => inferInstanceAs (Decidable (v.IsValue t))
  | before _ r | after _ r | enclosed _ r =>
    have := decidableOver v r
    inferInstanceAs (Decidable (_ ∧ r.Over v))
  | binary _ l r =>
    have := decidableOver v l
    have := decidableOver v r
    inferInstanceAs (Decidable (_ ∧ l.Over v ∧ r.Over v))

instance (r : Bracketing) (op : Operator) : Decidable (r.YieldsTo op) :=
  inferInstanceAs (Decidable (∀ x ∈ r.rightEdge, _))

instance (r : Bracketing) (op : Operator) : Decidable (r.Resists op) :=
  inferInstanceAs (Decidable (∀ x ∈ r.leftEdge, _))

instance decidableConflictFree : (r : Bracketing) → Decidable r.ConflictFree
  | value _ => isTrue trivial
  | before op r =>
    have := decidableConflictFree r
    inferInstanceAs (Decidable (r.ConflictFree ∧ r.Resists op))
  | after op r =>
    have := decidableConflictFree r
    inferInstanceAs (Decidable (r.ConflictFree ∧ r.YieldsTo op))
  | binary op l r =>
    have := decidableConflictFree l
    have := decidableConflictFree r
    inferInstanceAs (Decidable ((l.ConflictFree ∧ l.YieldsTo op) ∧ r.ConflictFree ∧ r.Resists op))
  | enclosed _ r => decidableConflictFree r

instance (r : Bracketing) (v : Vocabulary) (ts : List Token) : Decidable (r.Reads v ts) :=
  inferInstanceAs (Decidable (r.Over v ∧ r.tokens = ts))

end Bracketing

end Fixity
