import Fixity.Proofs.Validation
import Mathlib.Data.List.Sort

/-! The index of some operators by their symbols. An operator that is added to it is compared with
the roles of its own symbol alone, and looked up without a search of the others. What a symbol has
in the index is what a search of the operators finds, so the index is built of the same operators as
their set, and both tell the same of every symbol. -/
namespace Fixity

variable {op : Operator} {ops : List Operator}

namespace SymbolRoles

variable {roles : SymbolRoles}

/-- A place is taken beside that of the operator, and one of the two is the place after an
operand. -/
theorem isAmbiguous_put_iff (hfree : roles.get? op.arity = none) :
    (roles.put op).isAmbiguous = true ↔ ∃ arity, (roles.get? arity).isSome = true ∧
      (arity = .unary .after ∨ op.arity = .unary .after) := by
  rw [isAmbiguous_eq]
  simp only [get?_put, Bool.and_eq_true, Bool.or_eq_true]
  rcases ha : op.arity with _ | (_ | _)
  · simp
  · simp
  · simp only [reduceCtorEq, if_true, if_false, Option.isSome_some, true_and, or_true, and_true,
      Arity.unary.injEq]
    constructor
    · rintro (h | h) <;> exact ⟨_, h⟩
    · rintro ⟨_ | (_ | _), h⟩
      · exact .inr h
      · exact .inl h
      · rw [← ha, hfree] at h
        cases h

/-- With what a search of earlier operators finds in each place, an operator is refused just if it
is in conflict with one of them. -/
theorem add_eq
    (h : ∀ arity, roles.get? arity = ops.find? fun e => e.symbol == op.symbol && e.arity == arity) :
    roles.add op = match OperatorSet.conflict? ops op with
      | some error => .error error
      | none => .ok (roles.put op) := by
  have hsome : ∀ arity, (roles.get? arity).isSome = true ↔
      ∃ e ∈ ops, e.symbol = op.symbol ∧ e.arity = arity := by
    intro arity
    simp [h]
  have hdup : (roles.get? op.arity).isSome =
      ops.any fun e => e.symbol == op.symbol && e.arity == op.arity := by
    rw [Bool.eq_iff_iff, hsome]
    simp
  rw [add, OperatorSet.conflict?, ← hdup]
  split
  · rfl
  · rename_i hfree
    have hambiguous : (roles.put op).isAmbiguous = ops.any fun e => e.symbol == op.symbol &&
        (e.arity == .unary .after || op.arity == .unary .after) := by
      rw [Bool.eq_iff_iff, isAmbiguous_put_iff (by simpa using hfree)]
      simp only [hsome, List.any_eq_true, Bool.and_eq_true, Bool.or_eq_true, beq_iff_eq]
      constructor
      · rintro ⟨_, ⟨e, he, hs, rfl⟩, ha⟩
        exact ⟨e, he, hs, ha⟩
      · rintro ⟨e, he, hs, ha⟩
        exact ⟨e.arity, ⟨e, he, hs, rfl⟩, ha⟩
    rw [hambiguous]
    split <;> rfl

end SymbolRoles

namespace OperatorIndex

variable {index : OperatorIndex} {set : OperatorSet} {t : Token}

/-- The symbols are those of the operators, and under each stands in each place what a search of
the operators finds. -/
structure Lists (index : OperatorIndex) (ops : List Operator) : Prop where
  contains_eq (symbol : Token) : index.contains symbol = ops.any fun op => op.symbol == symbol
  get?_eq (symbol : Token) (arity : Arity) : (index.rolesOf symbol).get? arity =
    ops.find? fun op => op.symbol == symbol && op.arity == arity

theorem lists_empty : empty.Lists [] where
  contains_eq _ := rfl
  get?_eq _ arity := SymbolRoles.get?_empty arity

theorem Lists.insert (h : index.Lists ops)
    (hfree : ∀ e ∈ ops, e.symbol = op.symbol → e.arity ≠ op.arity) :
    (index.insert op.symbol ((index.rolesOf op.symbol).put op)).Lists (ops ++ [op]) where
  contains_eq symbol := by
    rw [contains, roles?_insert, List.any_append, ← h.contains_eq, contains]
    by_cases hs : op.symbol = symbol <;> simp [hs]
  get?_eq symbol arity := by
    rw [rolesOf_insert, List.find?_append, ← h.get?_eq]
    by_cases hs : op.symbol = symbol
    · subst hs
      rw [if_pos rfl, SymbolRoles.get?_put]
      by_cases ha : op.arity = arity
      · subst ha
        have hnone : (index.rolesOf op.symbol).get? op.arity = none := by
          rw [h.get?_eq, List.find?_eq_none]
          simpa using hfree
        simp [hnone]
      · simp [ha]
    · simp [hs]

/-- One operator more is in the index and in the set, or in neither for the same reason. -/
theorem Lists.sameUpTo_add (h : index.Lists set.operators) (op : Operator) :
    SameUpTo (fun index set => index.Lists set.operators) (index.add op) (set.add op) := by
  rw [add, SymbolRoles.add_eq (h.get?_eq op.symbol)]
  cases hc : OperatorSet.conflict? set.operators op with
  | some error =>
    rw [OperatorSet.add_eq_error_iff.2 hc]
    exact .error error
  | none =>
    obtain ⟨set', hset'⟩ : ∃ set', set.add op = .ok set' := by
      rw [exists_eq_ok_iff]
      intro e
      simp [OperatorSet.add_eq_error_iff, hc]
    rw [hset']
    refine .ok ?_
    rw [OperatorSet.add_eq_ok_iff.1 hset']
    exact h.insert fun e he hs => (OperatorSet.conflict?_eq_none_iff.1 hc e he hs).1

theorem sameUpTo_ofList (ops : List Operator) :
    SameUpTo (fun index set => index.Lists set.operators) (ofList ops)
      (OperatorSet.ofList ops) := by
  rw [ofList, OperatorSet.ofList]
  apply SameUpTo.foldlM
  · exact fun _ _ op h => h.sameUpTo_add op
  · exact lists_empty

/-! What is looked up. -/

theorem Lists.before?_eq (h : index.Lists set.operators) (t : Token) :
    index.before? t = set.before? t := by
  rw [OperatorSet.before?, ← h.get?_eq, before?, rolesOf]
  cases index.roles? t <;> rfl

theorem Lists.after?_eq (h : index.Lists set.operators) (t : Token) :
    index.after? t = set.after? t := by
  have hafter : index.after? t =
      ((index.rolesOf t).get? (.unary .after)).or ((index.rolesOf t).get? .binary) := by
    rw [after?, rolesOf]
    cases index.roles? t <;> rfl
  ext op
  rw [hafter, h.get?_eq, h.get?_eq, Option.or_eq_some_iff, OperatorSet.find?_arity_eq_some_iff,
    OperatorSet.find?_arity_eq_some_iff, OperatorSet.after?_eq_some_iff]
  constructor
  · rintro (⟨hop, ha, hs⟩ | ⟨-, hop, ha, hs⟩) <;> exact ⟨hop, by simp [ha], hs⟩
  · rintro ⟨hop, hb, rfl⟩
    by_cases ha : op.arity = .unary .after
    · exact .inl ⟨hop, ha, rfl⟩
    · refine .inr ⟨?_, hop, Arity.eq_binary hb ha, rfl⟩
      -- A binary operator shares its symbol with none that is written after its operand.
      rw [List.find?_eq_none]
      intro e he hp
      simp only [Bool.and_eq_true, beq_iff_eq] at hp
      obtain rfl | hne := OperatorSet.eq_or_arity_ne he hop hp.1
      · exact ha hp.2
      · exact hne.2.1 hp.2

theorem mem_symbols_iff : t ∈ index.symbols ↔ index.contains t = true := by
  simp [symbols, contains, roles?, List.find?_isSome]

theorem Lists.symbols_eq (h : index.Lists set.operators) : index.symbols = set.symbols := by
  have hirrefl : Std.Irrefl fun s t : Token => s.before t = true :=
    ⟨fun s => by simp [Token.before_self]⟩
  have hantisymm := Token.isWeakOrder_before.antisymm Token.before_self
  have hordered : index.symbols.Pairwise fun s t => s.before t = true :=
    List.pairwise_map.2 index.ordered
  refine hordered.eq_of_mem_iff (pairwise_sortDistinct Token.isWeakOrder_before _) fun t => ?_
  rw [mem_symbols_iff, h.contains_eq]
  exact OperatorSet.mem_symbols_iff.symm

/-- An index is made of the operators that make a set, and refuses all others for the same reason.
Looking a symbol up in it finds what the set has, and it lists the same symbols. -/
theorem ofList_agrees (ops : List Operator) :
    SameUpTo (fun index set => (∀ t, index.before? t = set.before? t ∧
        index.after? t = set.after? t ∧ index.contains t = set.contains t) ∧
      index.symbols = set.symbols) (ofList ops) (OperatorSet.ofList ops) := by
  refine (sameUpTo_ofList ops).imp fun index set h => ⟨fun t => ?_, h.symbols_eq⟩
  exact ⟨h.before?_eq t, h.after?_eq t, h.contains_eq t⟩

end OperatorIndex

end Fixity
