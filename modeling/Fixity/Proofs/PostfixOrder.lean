import Fixity.Proofs.RoundTrip

/-! Trees and sequences in postfix order stand for each other. Only the trees of unary and binary
operators are rebuilt, and a sequence that yields one is its postfix order, but for what elements
without operands carry beside their tokens. -/
namespace Fixity

namespace Tree

/-- A tree put together from values and from operators with all their operands. -/
inductive WellFormed : Tree → Prop where
  | value (t : Token) : WellFormed (.value t)
  | operator {op : PostfixToken} {cs : List Tree} {t : Tree} (hcs : ∀ c ∈ cs, WellFormed c)
      (ht : ofOperator op cs = .ok t) : WellFormed t

mutual

/-- The operators of the tree, from the root down. -/
def operators : Tree → List PostfixToken
  | .value _ => []
  | .node op cs => op :: operatorsOf cs

def operatorsOf : List Tree → List PostfixToken
  | [] => []
  | t :: ts => t.operators ++ operatorsOf ts

end

theorem mem_operatorsOf_iff {op : PostfixToken} {ts : List Tree} :
    op ∈ operatorsOf ts ↔ ∃ t ∈ ts, op ∈ t.operators := by
  induction ts with
  | nil => simp [operatorsOf]
  | cons t ts ih => simp [operatorsOf, ih]

/-- The operators take one or two operands. -/
def FewOperands (t : Tree) : Prop := ∀ op ∈ t.operators, op.argCount = 1 ∨ op.argCount = 2

theorem fewOperands_node {op : PostfixToken} {cs : List Tree} : (node op cs).FewOperands ↔
    (op.argCount = 1 ∨ op.argCount = 2) ∧ ∀ c ∈ cs, c.FewOperands := by
  simp only [FewOperands, operators, List.forall_mem_cons, mem_operatorsOf_iff]
  refine and_congr_right fun _ => ?_
  constructor
  · exact fun h c hc x hx => h x ⟨c, hc, hx⟩
  · rintro h x ⟨c, hc, hx⟩
    exact h c hc x hx

theorem WellFormed.proper {t : Tree} (h : t.WellFormed) (hops : t.FewOperands) : t.Proper := by
  induction h with
  | value t => exact .value t
  | @operator op cs t hcs ht ih =>
    obtain ⟨-, hlen, rfl⟩ := ofOperator_eq_ok_iff.1 ht
    obtain ⟨hop, hops⟩ := fewOperands_node.1 hops
    rcases hop with hop | hop
    · obtain ⟨c, rfl⟩ := List.length_eq_one_iff.1 (hlen.trans hop)
      exact .unary hop (ih c (by simp) (hops c (by simp)))
    · obtain ⟨l, r, rfl⟩ := List.length_eq_two.1 (hlen.trans hop)
      exact .binary hop (ih l (by simp) (hops l (by simp))) (ih r (by simp) (hops r (by simp)))

theorem Proper.fewOperands {t : Tree} (h : t.Proper) : t.FewOperands := by
  induction h with
  | value => simp [FewOperands, operators]
  | unary h _ ih => exact fewOperands_node.2 ⟨.inl h, by simpa using ih⟩
  | binary h _ _ ihl ihr => exact fewOperands_node.2 ⟨.inr h, by simpa using ⟨ihl, ihr⟩⟩

theorem Proper.wellFormed {t : Tree} (h : t.Proper) : t.WellFormed := by
  induction h with
  | value t => exact .value t
  | @unary op c h _ ih =>
    have ht : ofOperator op [c] = .ok (.node op [c]) := ofOperator_eq_ok_iff.2 (by simp [h])
    exact .operator (by simpa using ih) ht
  | @binary op l r h _ _ ihl ihr =>
    have ht : ofOperator op [l, r] = .ok (.node op [l, r]) := ofOperator_eq_ok_iff.2 (by simp [h])
    exact .operator (by simpa using ⟨ihl, ihr⟩) ht

theorem proper_iff {t : Tree} : t.Proper ↔ t.WellFormed ∧ t.FewOperands :=
  ⟨fun h => ⟨h.wellFormed, h.fewOperands⟩, fun h => h.1.proper h.2⟩

/-- Just the trees of unary and binary operators are rebuilt, each from its own postfix order. -/
theorem rebuilt_iff_postfixOrder :
    (∀ (sequence : List PostfixToken) (t : Tree), ofPostfix sequence = .ok t ↔
      t.WellFormed ∧ t.FewOperands ∧ t.postfixOrder = sequence.map PostfixToken.plain) ∧
    (∀ t : Tree, t.WellFormed → t.FewOperands → ofPostfix t.postfixOrder = .ok t) ∧
    ∀ (g : Grammar) (s : String) (t : Tree), g.parse s = .ok t →
      g.shunt s = .ok t.postfixOrder := by
  refine ⟨?_, ?_, ?_⟩
  · intro sequence t
    rw [ofPostfix_eq_ok_iff, proper_iff, and_assoc]
  · intro t ht hops
    exact (ht.proper hops).ofPostfix_postfixOrder
  · intro g s t h
    obtain ⟨r, hr, rfl⟩ := Vocabulary.parseFrom_eq_ok_iff_read?.1 h
    rw [Vocabulary.shunt, Vocabulary.shuntFrom, Vocabulary.run_of_read? hr, mapError_ok]

/-- `-(a-b)` is rebuilt also if the element of `a` has a precedence, of which nothing is left. -/
theorem rebuilt_of_ranked_value :
    let a : Token := .literal ['a']
    let b : Token := .literal ['b']
    let ranked : PostfixToken := ⟨0, [some a], 7, .left, rfl, rfl⟩
    let sequence : List PostfixToken :=
      [ranked, .value b, .ofOperator .subtract, .ofOperator .negative]
    let t : Tree := .node (.ofOperator .negative)
      [.node (.ofOperator .subtract) [.value a, .value b]]
    t.WellFormed ∧ t.FewOperands ∧ ofPostfix sequence = .ok t ∧ t.postfixOrder ≠ sequence ∧
      ofPostfix t.postfixOrder = .ok t ∧ Grammar.arithmetic.parse "-(a-b)" = .ok t ∧
      Grammar.arithmetic.shunt "-(a-b)" = .ok t.postfixOrder := by
  intro a b ranked sequence t
  obtain ⟨hiff, hback, hshunt⟩ := rebuilt_iff_postfixOrder
  have hsequence : ofPostfix sequence = .ok t := by decide
  have hparse : Grammar.arithmetic.parse "-(a-b)" = .ok t := by decide +kernel
  obtain ⟨ht, hops, -⟩ := (hiff sequence t).1 hsequence
  exact ⟨ht, hops, hsequence, by decide, hback t ht hops, hparse, hshunt _ _ t hparse⟩

end Tree

end Fixity
