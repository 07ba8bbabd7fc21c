import Fixity.Grammar.Predefined
import Fixity.Proofs.Parsing
import Fixity.Proofs.Printed

/-! No way to enclose parts of a tree is cheaper than the printed one. Where printing encloses an
operand, any other bracketing without conflicts has spent a pair on an edge of that operand, and
this pair is one that printing does without. -/
namespace Fixity

namespace Tree

mutual

/-- Number of the pairs of parentheses that are put around operands. -/
def insertedParentheses : Tree → Nat
  | .value _ => 0
  | .node op cs => insertedAround op op.startsWithOperand cs

def insertedAround (op : PostfixToken) (isFirst : Bool) : List Tree → Nat
  | [] => 0
  | t :: ts =>
    (if t.needsParentheses op isFirst then t.insertedParentheses + 1 else t.insertedParentheses) +
      insertedAround op false ts

end

end Tree

namespace Bracketing

variable {v : Vocabulary} {g : Grammar} {op : Operator} {r s : Bracketing}

theorem enclosures_wrap (b : Bool) (r : Bracketing) :
    (wrap b r).enclosures = if b then r.enclosures + 1 else r.enclosures := by
  cases b <;> rfl

theorem Over.enclosures_printed (h : r.Over v) :
    r.printed.enclosures = r.tree.insertedParentheses := by
  induction r with
  | value t => simp [printed, enclosures, tree, Tree.insertedParentheses]
  | before op r ih =>
    have hs : (PostfixToken.ofOperator op).startsWithOperand = false := by simp [h.1.2]
    simp [printed, enclosures, tree, Tree.insertedParentheses, Tree.insertedAround, hs,
      enclosures_wrap, ih h.2]
  | after op r ih =>
    have hs : (PostfixToken.ofOperator op).startsWithOperand = true := by simp [h.1.2]
    simp [printed, enclosures, tree, Tree.insertedParentheses, Tree.insertedAround, hs,
      enclosures_wrap, ih h.2]
  | binary op l r ihl ihr =>
    have hs : (PostfixToken.ofOperator op).startsWithOperand = true := by simp [h.1.2]
    simp [printed, enclosures, tree, Tree.insertedParentheses, Tree.insertedAround, hs,
      enclosures_wrap, ihl h.2.1, ihr h.2.2]
  | enclosed p r ih => exact ih h.2

/-- `s` has at most as many pairs of delimiters as `r`, and fewer if an operator on an edge of `s`
gets in the way of one that no operator on that edge of `r` does. -/
structure NoDearer (s r : Bracketing) : Prop where
  le : s.enclosures ≤ r.enclosures
  right : ∀ op, r.YieldsTo op → ¬s.YieldsTo op → s.enclosures < r.enclosures
  left : ∀ op, r.Resists op → ¬s.Resists op → s.enclosures < r.enclosures

theorem NoDearer.of_lt (h : s.enclosures < r.enclosures) : NoDearer s r :=
  ⟨Nat.le_of_lt h, fun _ _ _ => h, fun _ _ _ => h⟩

/-- A pair that is needed has been spared before. -/
theorem NoDearer.wrap {b : Bool} (h : NoDearer s r) (hb : b = true → s.enclosures < r.enclosures) :
    NoDearer (wrap b s) r := by
  cases b with
  | false => exact h
  | true =>
    refine ⟨hb rfl, ?_, ?_⟩
    · intro op _ hn
      exact absurd (yieldsTo_wrap.2 (.inl rfl)) hn
    · intro op _ hn
      exact absurd (resists_wrap.2 (.inl rfl)) hn

theorem NoDearer.wrap_first (h : NoDearer r.printed r) (ho : r.Over v) (hy : r.YieldsTo op) :
    NoDearer (Bracketing.wrap (r.tree.needsParentheses (.ofOperator op) true) r.printed) r := by
  apply h.wrap
  intro hb
  have hn : ¬r.printed.YieldsTo op := by simpa [ho.needsParentheses_first] using hb
  exact h.right op hy hn

theorem NoDearer.wrap_later (h : NoDearer r.printed r) (ho : r.Over v) (hr : r.Resists op) :
    NoDearer (Bracketing.wrap (r.tree.needsParentheses (.ofOperator op) false) r.printed) r := by
  apply h.wrap
  intro hb
  have hn : ¬r.printed.Resists op := by simpa [ho.needsParentheses_later] using hb
  exact h.left op hr hn

theorem NoDearer.before (h : NoDearer s r) : NoDearer (.before op s) (.before op r) where
  le := h.le
  right q hr hs := by
    rw [yieldsTo_before] at hr hs
    apply h.right q hr.2
    exact fun hn => hs ⟨hr.1, hn⟩
  left q hr hs := absurd hr hs

theorem NoDearer.after (h : NoDearer s r) : NoDearer (.after op s) (.after op r) where
  le := h.le
  right q hr hs := absurd hr hs
  left q hr hs := by
    rw [resists_after] at hr hs
    apply h.left q hr.2
    exact fun hn => hs ⟨hr.1, hn⟩

theorem NoDearer.binary {l m : Bracketing} (hl : NoDearer m l) (hr : NoDearer s r) :
    NoDearer (.binary op m s) (.binary op l r) where
  le := Nat.add_le_add hl.le hr.le
  right q h hn := by
    rw [yieldsTo_binary] at h hn
    have hlt := hr.right q h.2 fun hs => hn ⟨h.1, hs⟩
    exact Nat.add_lt_add_of_le_of_lt hl.le hlt
  left q h hn := by
    rw [resists_binary] at h hn
    have hlt := hl.left q h.2 fun hs => hn ⟨h.1, hs⟩
    exact Nat.add_lt_add_of_lt_of_le hlt hr.le

theorem ConflictFree.noDearer_printed (hc : r.ConflictFree) (ho : r.Over v) :
    NoDearer r.printed r := by
  induction r with
  | value t => exact ⟨Nat.le_refl _, fun _ h hn => absurd h hn, fun _ h hn => absurd h hn⟩
  | before op r ih =>
    have hoperand := (ih hc.1 ho.2).wrap_later ho.2 hc.2
    exact hoperand.before
  | after op r ih =>
    have hoperand := (ih hc.1 ho.2).wrap_first ho.2 hc.2
    exact hoperand.after
  | binary op l r ihl ihr =>
    obtain ⟨⟨hl, hy⟩, hr, hres⟩ := hc
    have hleft := (ihl hl ho.2.1).wrap_first ho.2.1 hy
    have hright := (ihr hr ho.2.2).wrap_later ho.2.2 hres
    exact hleft.binary hright
  | enclosed p r ih =>
    -- the pair pays for whatever an operator around it asks for
    have hle := (ih hc ho.2).le
    exact .of_lt (Nat.lt_succ_of_le hle)

/-- Only the pairs that enclose something open anything. -/
theorem Over.countP_opening (h : r.Over g.toVocabulary) :
    r.tokens.countP (fun t => (g.opening? t).isSome) = r.enclosures := by
  have hnone : ∀ {t : Token}, g.isDelimiter t = false → g.opening? t = none := fun h =>
    (Vocabulary.isDelimiter_eq_false_iff.1 h).1
  induction r with
  | value t => simp [tokens, enclosures, hnone h.1]
  | before op r ih =>
    simp [tokens, enclosures, hnone (Grammar.isDelimiter_symbol h.1.1), ih h.2]
  | after op r ih =>
    simp [tokens, enclosures, hnone (Grammar.isDelimiter_symbol h.1.1), ih h.2]
  | binary op l r ihl ihr =>
    simp [tokens, enclosures, hnone (Grammar.isDelimiter_symbol h.1.1), ihl h.2.1, ihr h.2.2]
  | enclosed p r ih => simp [tokens, enclosures, h.1.1, h.1.2, ih h.2]

/-- Nothing is enclosed where no delimiter is written. -/
theorem Over.enclosures_eq_zero_iff (h : r.Over g.toVocabulary) :
    r.enclosures = 0 ↔ ∀ x ∈ r.tokens, g.isDelimiter x = false := by
  constructor
  · intro h0
    induction r with
    | value t => simpa [tokens] using h.1
    | before op r ih => simpa [tokens, Grammar.isDelimiter_symbol h.1.1] using ih h.2 h0
    | after op r ih =>
      have hr := ih h.2 h0
      simpa [tokens, Grammar.isDelimiter_symbol h.1.1, or_imp, forall_and] using hr
    | binary op l r ihl ihr =>
      obtain ⟨hl, hr⟩ := Nat.add_eq_zero_iff.1 h0
      have hboth := And.intro (ihl h.2.1 hl) (ihr h.2.2 hr)
      simpa [tokens, Grammar.isDelimiter_symbol h.1.1, or_imp, forall_and] using hboth
    | enclosed p r ih => cases h0
  · intro hd
    rw [← h.countP_opening, List.countP_eq_zero]
    intro x hx
    simp [(Vocabulary.isDelimiter_eq_false_iff.1 (hd x hx)).1]

theorem length_tokens (r : Bracketing) :
    r.tokens.length = r.elements.length + 2 * r.enclosures := by
  induction r with
  | value t => rfl
  | before op r ih =>
    simp only [tokens, elements, enclosures, List.length_cons, ih]
    omega
  | after op r ih =>
    simp only [tokens, elements, enclosures, List.length_append, List.length_singleton, ih]
    omega
  | binary op l r ihl ihr =>
    simp only [tokens, elements, enclosures, List.length_append, List.length_cons, ihl, ihr]
    omega
  | enclosed p r ih =>
    simp only [tokens, elements, enclosures, List.length_cons, List.length_append,
      List.length_nil, ih]
    omega

/-- Where nothing is enclosed, the values and the operators are all that is written. -/
theorem tokens_of_enclosures_eq_zero (h : r.enclosures = 0) :
    r.tokens = r.elements.flatMap PostfixToken.symbols := by
  induction r with
  | value t => rfl
  | before op r ih => simp [tokens, elements, ih h]
  | after op r ih => simp [tokens, elements, ih h]
  | binary op l r ihl ihr =>
    obtain ⟨hl, hr⟩ := Nat.add_eq_zero_iff.1 h
    simp [tokens, elements, ihl hl, ihr hr]
  | enclosed p r ih => cases h

theorem ConflictFree.written_tree (hc : r.ConflictFree) (ho : r.Over v)
    (h : r.enclosures = 0) : r.tree.written = r.tokens := by
  have hzero : r.printed.enclosures = 0 := by
    have hle := (hc.noDearer_printed ho).le
    omega
  rw [← ho.tokens_printed, tokens_of_enclosures_eq_zero hzero, elements_printed,
    tokens_of_enclosures_eq_zero h]

end Bracketing

namespace Grammar

/-- An expression has no fewer opening delimiters than its tree has parentheses when it is printed.
Without delimiters it is printed as it is. -/
theorem insertedParentheses_le (g : Grammar) (ts : List Token) (t : Tree)
    (h : g.parseTokens ts = .ok t) :
    t.written.length = t.inOrder.length + 2 * t.insertedParentheses ∧
      t.insertedParentheses ≤ ts.countP (fun x => (g.opening? x).isSome) ∧
      ((∀ x ∈ ts, g.isDelimiter x = false) →
        t.insertedParentheses = 0 ∧ t.written = ts ∧ t.text.toList = joinTokens ts) := by
  obtain ⟨r, hr, rfl⟩ := Vocabulary.parseFrom_eq_ok_iff_read?.1 h
  obtain ⟨⟨ho, rfl⟩, hc⟩ := Vocabulary.reads_of_read? hr
  have hle : r.tree.insertedParentheses ≤ r.enclosures := by
    rw [← ho.enclosures_printed]
    exact (hc.noDearer_printed ho).le
  refine ⟨?_, ?_, ?_⟩
  · rw [← ho.tokens_printed, Bracketing.length_tokens, Bracketing.elements_printed, ho.inOrder_tree,
      ho.enclosures_printed]
  · rwa [ho.countP_opening]
  · intro hd
    have hcount : r.enclosures = 0 := by
      rw [← ho.countP_opening, List.countP_eq_zero]
      intro x hx
      simp [(Vocabulary.isDelimiter_eq_false_iff.1 (hd x hx)).1]
    have hzero : r.tree.insertedParentheses = 0 := by omega
    have hwritten : r.tree.written = r.tokens := by
      rw [← ho.enclosures_printed] at hzero
      rw [← ho.tokens_printed, Bracketing.tokens_of_enclosures_eq_zero hzero,
        Bracketing.elements_printed, Bracketing.tokens_of_enclosures_eq_zero hcount]
    exact ⟨hzero, hwritten, by rw [Tree.toList_text, hwritten]⟩

/-- Of the pairs in `((a-b))-(c-d)` one remains, and `a-b^c` gets none. -/
theorem insertedParentheses_of_differences :
    let a : Bracketing := .value (.literal ['a'])
    let b : Bracketing := .value (.literal ['b'])
    let c : Bracketing := .value (.literal ['c'])
    let d : Bracketing := .value (.literal ['d'])
    let r : Bracketing := .binary .subtract
      (.enclosed .parentheses (.enclosed .parentheses (.binary .subtract a b)))
      (.enclosed .parentheses (.binary .subtract c d))
    let s : Bracketing := .binary .subtract a (.binary .exponentiation b c)
    arithmetic.parseTokens r.tokens = .ok r.tree ∧ r.tree.insertedParentheses = 1 ∧
      r.tree.written.length = 9 ∧ arithmetic.parseTokens s.tokens = .ok s.tree ∧
      s.tree.insertedParentheses = 0 ∧ s.tree.written = s.tokens := by
  intro a b c d r s
  have hr : arithmetic.parseTokens r.tokens = .ok r.tree := by rfl
  have hs : arithmetic.parseTokens s.tokens = .ok s.tree := by rfl
  have hone : r.tree.insertedParentheses = 1 := by rfl
  obtain ⟨hlength, -, -⟩ := insertedParentheses_le arithmetic r.tokens r.tree hr
  obtain ⟨-, -, hplain⟩ := insertedParentheses_le arithmetic s.tokens s.tree hs
  obtain ⟨hzero, hwritten, -⟩ := hplain (by decide)
  rw [hone] at hlength
  exact ⟨hr, hone, hlength.trans rfl, hs, hzero, hwritten⟩

end Grammar

end Fixity
