import Fixity.Proofs.Except
import Fixity.Proofs.Vocabulary

/-! What sets of operators and grammars accept. An operator is checked only against those before it,
and a delimiter pair only against the operators, but what is accepted in the end is told by
conditions on all of them. -/
namespace Fixity

namespace OperatorSet

variable {set set' : OperatorSet} {op : Operator} {ops : List Operator}

theorem eq_of_operators_eq (h : set.operators = set'.operators) : set = set' := by
  cases set
  cases set'
  cases h
  rfl

theorem conflict?_eq_none_iff {earlier : List Operator} :
    conflict? earlier op = none ↔ ∀ e ∈ earlier, e.Compatible op := by
  constructor
  · exact fun h e he => compatible_of_conflict?_eq_none h he
  · intro h
    have hd : ¬(earlier.any fun e => e.symbol == op.symbol && e.arity == op.arity) = true := by
      simp only [List.any_eq_true, Bool.and_eq_true, beq_iff_eq]
      rintro ⟨e, he, hs, ha⟩
      exact (h e he hs).1 ha
    have ha : ¬(earlier.any fun e => e.symbol == op.symbol &&
        (e.arity == .unary .after || op.arity == .unary .after)) = true := by
      simp only [List.any_eq_true, Bool.and_eq_true, Bool.or_eq_true, beq_iff_eq]
      rintro ⟨e, he, hs, ha | ha⟩
      · exact (h e he hs).2.1 ha
      · exact (h e he hs).2.2 ha
    rw [conflict?, if_neg hd, if_neg ha]

theorem add_eq_error_iff {e : GrammarError} :
    set.add op = .error e ↔ conflict? set.operators op = some e := by
  unfold add
  split
  · rename_i error h
    simp [h]
  · rename_i h
    simp [h]

theorem add_eq_ok_iff : set.add op = .ok set' ↔ set'.operators = set.operators ++ [op] := by
  unfold add
  split
  · rename_i error he
    simp only [reduceCtorEq, false_iff]
    intro h
    have hc := set'.compatible
    rw [h, List.pairwise_append] at hc
    rw [conflict?_eq_none_iff.2 fun e hm => hc.2.2 e hm op (by simp)] at he
    cases he
  · constructor
    · rintro ⟨⟩
      rfl
    · exact fun h => congrArg Except.ok (eq_of_operators_eq h.symm)

theorem foldlM_add_eq_ok_iff :
    ops.foldlM add set = .ok set' ↔ set'.operators = set.operators ++ ops := by
  induction ops generalizing set with
  | nil =>
    rw [List.append_nil]
    constructor
    · rintro ⟨⟩
      rfl
    · exact fun h => congrArg Except.ok (eq_of_operators_eq h.symm)
  | cons op ops ih =>
    rw [List.foldlM_cons, bind_eq_ok_iff]
    simp only [add_eq_ok_iff, ih]
    constructor
    · rintro ⟨mid, hmid, h⟩
      rw [h, hmid, List.append_assoc, List.singleton_append]
    · intro h
      have hc := set'.compatible
      rw [h, List.append_cons, List.pairwise_append] at hc
      exact ⟨⟨set.operators ++ [op], hc.1⟩, rfl, by rw [h, List.append_cons]⟩

theorem foldlM_add_eq_error_iff {e : GrammarError} : ops.foldlM add set = .error e ↔
    ∃ earlier op later, ops = earlier ++ op :: later ∧
      (set.operators ++ earlier).Pairwise Operator.Compatible ∧
        conflict? (set.operators ++ earlier) op = some e := by
  induction ops generalizing set with
  | nil =>
    constructor
    · rintro ⟨⟩
    · rintro ⟨earlier, op, later, h, -⟩
      simp at h
  | cons op ops ih =>
    rw [List.foldlM_cons, bind_eq_error_iff]
    simp only [add_eq_error_iff, add_eq_ok_iff, ih]
    constructor
    · rintro (h | ⟨mid, hmid, earlier, x, later, rfl, hearlier, hx⟩)
      · exact ⟨[], op, ops, rfl, by simpa using set.compatible, by simpa using h⟩
      · rw [hmid, List.append_assoc, List.singleton_append] at hearlier hx
        exact ⟨op :: earlier, x, later, rfl, hearlier, hx⟩
    · rintro ⟨earlier, x, later, h, hearlier, hx⟩
      cases earlier with
      | nil =>
        cases h
        exact .inl (by simpa using hx)
      | cons y earlier =>
        cases h
        rw [List.append_cons] at hearlier hx
        refine .inr ⟨⟨set.operators ++ [op], ?_⟩, rfl, earlier, x, later, rfl, hearlier, hx⟩
        exact (List.pairwise_append.1 hearlier).1

/-- The first operator that does not fit those before it is reported. -/
theorem ofList_eq_error_iff {e : GrammarError} : ofList ops = .error e ↔
    ∃ earlier op later, ops = earlier ++ op :: later ∧ earlier.Pairwise Operator.Compatible ∧
      conflict? earlier op = some e := by
  simp [ofList, foldlM_add_eq_error_iff, empty]

theorem ofList_eq_ok_iff : ofList ops = .ok set ↔ set.operators = ops := foldlM_add_eq_ok_iff

theorem exists_ofList_eq_ok_iff :
    (∃ set, ofList ops = .ok set) ↔ ops.Pairwise Operator.Compatible := by
  simp only [ofList_eq_ok_iff]
  constructor
  · rintro ⟨set, rfl⟩
    exact set.compatible
  · exact fun h => ⟨⟨ops, h⟩, rfl⟩

/-- Of operators that fit none twice has the same symbol and arity, and where one is written after
its operand, so are all with its symbol. -/
theorem pairwise_compatible_iff : ops.Pairwise Operator.Compatible ↔
    (ops.Pairwise fun a b => ¬(a.symbol = b.symbol ∧ a.arity = b.arity)) ∧
      ∀ a ∈ ops, ∀ b ∈ ops, a.symbol = b.symbol → a.arity = .unary .after →
        b.arity = .unary .after := by
  constructor
  · intro h
    refine ⟨h.imp fun hab hsame => (hab hsame.1).1 hsame.2, ?_⟩
    intro a ha b hb hs hafter
    by_cases he : a = b
    · rwa [← he]
    · exact absurd hafter (h.forall ha hb he hs).2.1
  · rintro ⟨hpair, hafter⟩
    refine hpair.imp_of_mem fun {a b} ha hb hab hs => ?_
    have hne : a.arity ≠ b.arity := fun he => hab ⟨hs, he⟩
    refine ⟨hne, ?_, ?_⟩
    · intro h
      exact hne (h.trans (hafter a ha b hb hs h).symm)
    · intro h
      exact hne ((hafter b hb a ha hs.symm h).trans h.symm)

end OperatorSet

namespace Grammar

variable {operators operators' : OperatorSet} {delimiters : List DelimiterPair} {g : Grammar}

theorem ofParts_eq_error_iff {e : GrammarError} : ofParts operators delimiters = .error e ↔
    delimiters.findSome? (pairError? operators) = some e := by
  unfold ofParts
  split
  · rename_i error h
    simp [h]
  · rename_i h
    simp [h]

theorem exists_ofParts_eq_ok_iff : (∃ g, ofParts operators delimiters = .ok g) ↔
    delimiters.findSome? (pairError? operators) = none := by
  rw [exists_eq_ok_iff, Option.eq_none_iff_forall_ne_some]
  exact forall_congr' fun _ => not_congr ofParts_eq_error_iff

theorem toVocabulary_of_ofParts (h : ofParts operators delimiters = .ok g) :
    g.toVocabulary = ⟨operators, delimiters⟩ := by
  unfold ofParts at h
  split at h
  · cases h
  · cases h
    rfl

/-- Every grammar is accepted as the grammar of its own parts. -/
theorem ofParts_eq_ok_iff :
    ofParts operators delimiters = .ok g ↔ g.toVocabulary = ⟨operators, delimiters⟩ := by
  refine ⟨toVocabulary_of_ofParts, ?_⟩
  obtain ⟨v, hpairs, hsymbols⟩ := g
  rintro rfl
  have hnone : delimiters.findSome? (pairError? operators) = none := by
    apply List.findSome?_eq_none_iff.2
    intro p hp
    rw [pairError?, if_neg (hpairs p hp), Option.map_eq_none_iff, List.find?_eq_none]
    intro t ht
    rw [hsymbols p hp t ht]
    exact Bool.false_ne_true
  obtain ⟨g, hg⟩ := exists_ofParts_eq_ok_iff.2 hnone
  have hv := toVocabulary_of_ofParts hg
  rw [hg]
  cases g
  cases hv
  rfl

theorem pairError?_congr (h : ∀ t, operators.contains t = operators'.contains t) :
    pairError? operators = pairError? operators' := by
  have hc : operators.contains = operators'.contains := funext h
  funext p
  rw [pairError?, pairError?, hc]

end Grammar

end Fixity
