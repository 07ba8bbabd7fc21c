import Fixity.Grammar.Predefined
import Fixity.Proofs.Assembly.Completeness
import Fixity.Proofs.Parsing
import Fixity.Proofs.Printed

/-! Trees that are printed and read again. Printing a tree means writing down a bracketing of it
without conflicts, and that is the bracketing which parsing finds. -/
namespace Fixity

namespace Tree

theorem ofOperator_eq_ok_iff {op : PostfixToken} {cs : List Tree} {t : Tree} :
    ofOperator op cs = .ok t ↔ op.argCount ≠ 0 ∧ cs.length = op.argCount ∧ t = .node op cs := by
  unfold ofOperator
  split
  · rename_i h
    simp only [reduceCtorEq, false_iff]
    rintro ⟨h0, hlen, -⟩
    exact h.elim h0 (absurd hlen)
  · rename_i h
    obtain ⟨h0, hlen⟩ := not_or.1 h
    simp only [Except.ok.injEq, h0, Decidable.not_not.1 hlen, eq_comm, ne_eq, not_false_eq_true,
      true_and]

/-- A tree put together from the values and the operators of a vocabulary. -/
inductive Over (v : Vocabulary) : Tree → Prop where
  | value {t : Token} (h : v.IsValue t) : Over v (.value t)
  | operator {op : Operator} (cs : List Tree) {t : Tree} (hop : op ∈ v.operators.operators)
      (hcs : ∀ c ∈ cs, Over v c) (ht : ofOperator (.ofOperator op) cs = .ok t) : Over v t

/-- Such a tree can be read off somewhere, for example where nothing is enclosed. -/
theorem Over.exists_bracketing {v : Vocabulary} {t : Tree} (h : t.Over v) :
    ∃ r : Bracketing, r.Over v ∧ r.tree = t := by
  induction h with
  | @value t h => exact ⟨.value t, h, rfl⟩
  | @operator op cs t hop _ ht ih =>
    obtain ⟨-, hlen, rfl⟩ := ofOperator_eq_ok_iff.1 ht
    rw [PostfixToken.argCount_ofOperator] at hlen
    cases ha : op.arity with
    | binary =>
      rw [ha] at hlen
      obtain ⟨a, b, rfl⟩ := List.length_eq_two.1 hlen
      obtain ⟨l, hl, rfl⟩ := ih a (by simp)
      obtain ⟨r, hr, rfl⟩ := ih b (by simp)
      exact ⟨.binary op l r, ⟨⟨hop, ha⟩, hl, hr⟩, rfl⟩
    | unary side =>
      rw [ha] at hlen
      obtain ⟨a, rfl⟩ := List.length_eq_one_iff.1 hlen
      obtain ⟨r, hr, rfl⟩ := ih a (by simp)
      cases side with
      | before => exact ⟨.before op r, ⟨⟨hop, ha⟩, hr⟩, rfl⟩
      | after => exact ⟨.after op r, ⟨⟨hop, ha⟩, hr⟩, rfl⟩

end Tree

theorem Bracketing.Over.tree {v : Vocabulary} {r : Bracketing} (h : r.Over v) : r.tree.Over v := by
  induction r with
  | value t => exact .value h
  | before op r ih =>
    exact .operator [r.tree] h.1.1 (by simpa using ih h.2)
      (Tree.ofOperator_eq_ok_iff.2 (by simp [h.1.2, Arity.argCount, Bracketing.tree]))
  | after op r ih =>
    exact .operator [r.tree] h.1.1 (by simpa using ih h.2)
      (Tree.ofOperator_eq_ok_iff.2 (by simp [h.1.2, Arity.argCount, Bracketing.tree]))
  | binary op l r ihl ihr =>
    exact .operator [l.tree, r.tree] h.1.1 (by simpa using ⟨ihl h.2.1, ihr h.2.2⟩)
      (Tree.ofOperator_eq_ok_iff.2 (by simp [h.1.2, Arity.argCount, Bracketing.tree]))
  | enclosed p r ih => exact ih h.2

namespace Grammar

/-- The tokens of a printed tree give its postfix order and, from that, the tree. So does its text,
if it is split into these tokens again. -/
theorem parse_written (g : Grammar) (hp : g.IsEffective .parentheses) (t : Tree)
    (ht : t.Over g.toVocabulary) :
    t.text.toList = joinTokens t.written ∧
      g.shuntTokens t.written = .ok t.postfixOrder ∧
      Tree.ofPostfix t.postfixOrder = .ok t ∧
      (g.tokenize t.text = t.written → g.parse t.text = .ok t) := by
  obtain ⟨r, hr, rfl⟩ := ht.exists_bracketing
  have hread : g.read? r.tree.written = some r.printed := by
    rw [← hr.tokens_printed]
    exact read?_tokens (hr.over_printed hp) hr.conflictFree_printed
  have hrun := Vocabulary.run_of_read? hread
  rw [Bracketing.tree_printed] at hrun
  refine ⟨Tree.toList_text _, Vocabulary.shuntTokens_eq_ok_iff.2 hrun,
    hr.proper.ofPostfix_postfixOrder, ?_⟩
  intro htok
  rw [Vocabulary.parse, htok, Vocabulary.parseFrom_eq_ok_iff_read?]
  exact ⟨r.printed, hread, Bracketing.tree_printed r⟩

/-- `(a-b)^-(c-d)` -/
theorem parse_written_power_of_differences :
    let r : Bracketing := .binary .exponentiation
      (.binary .subtract (.value (.literal ['a'])) (.value (.literal ['b'])))
      (.before .negative
        (.binary .subtract (.value (.literal ['c'])) (.value (.literal ['d']))))
    arithmetic.IsEffective .parentheses ∧ r.tree.Over arithmetic.toVocabulary ∧
      r.tree.text = "(a-b)^-(c-d)" ∧
      arithmetic.shuntTokens r.tree.written = .ok r.tree.postfixOrder ∧
      arithmetic.parse "(a-b)^-(c-d)" = .ok r.tree := by
  intro r
  have hp : arithmetic.IsEffective .parentheses := by decide
  have ht : r.tree.Over arithmetic.toVocabulary := Bracketing.Over.tree (by decide)
  obtain ⟨htext, hrun, -, hparse⟩ := parse_written arithmetic hp r.tree ht
  have he : r.tree.text = "(a-b)^-(c-d)" := by decide
  rw [he] at hparse
  exact ⟨hp, ht, he, hrun, hparse (by decide +kernel)⟩

end Grammar

end Fixity
