import Fixity.Grammar.Predefined
import Fixity.Proofs.Meaning

/-! Grammars with more operators and delimiters than others. What is added has a meaning only where
one of its symbols occurs, so texts without them are read as before. -/
namespace Fixity

/-- The third list is the second one with the first one put in, each item at any place. -/
inductive Inserted {α : Type} : List α → List α → List α → Prop where
  | nil : Inserted [] [] []
  | keep {added xs ys : List α} (x : α) (h : Inserted added xs ys) :
      Inserted added (x :: xs) (x :: ys)
  | add {added xs ys : List α} (x : α) (h : Inserted added xs ys) :
      Inserted (x :: added) xs (x :: ys)

namespace Inserted

variable {α : Type} {added xs ys : List α} {p : α → Bool}

/-- What is put in does not matter for the items of which it is none. -/
theorem filter_eq (h : Inserted added xs ys) (hp : ∀ a ∈ added, p a = false) :
    ys.filter p = xs.filter p := by
  induction h with
  | nil => rfl
  | keep x _ ih => rw [List.filter_cons, List.filter_cons, ih hp]
  | add x _ ih =>
    obtain ⟨hx, hadded⟩ := List.forall_mem_cons.1 hp
    rw [List.filter_cons_of_neg (by simp [hx]), ih hadded]

theorem find?_eq (h : Inserted added xs ys) (hp : ∀ a ∈ added, p a = false) :
    ys.find? p = xs.find? p := by
  rw [← List.head?_filter, ← List.head?_filter, h.filter_eq hp]

theorem any_eq (h : Inserted added xs ys) (hp : ∀ a ∈ added, p a = false) :
    ys.any p = xs.any p := by
  rw [Bool.eq_iff_iff, List.any_eq_true, List.any_eq_true, ← List.find?_isSome,
    ← List.find?_isSome, h.find?_eq hp]

end Inserted

namespace Vocabulary

variable {v w : Vocabulary} {ops : List Operator} {pairs : List DelimiterPair} {t : Token}

theorem agreeOn_of_inserted (hops : Inserted ops v.operators.operators w.operators.operators)
    (hpairs : Inserted pairs v.delimiters w.delimiters) (hop : ∀ op ∈ ops, op.symbol ≠ t)
    (hpair : ∀ p ∈ pairs, p.opening ≠ t ∧ p.closing ≠ t) : w.AgreeOn v t where
  opening? := hpairs.find?_eq fun p hp => beq_eq_false_iff_ne.2 (hpair p hp).1
  isClosing := hpairs.any_eq fun p hp => beq_eq_false_iff_ne.2 (hpair p hp).2
  before? := hops.find?_eq fun op h => by simp [hop op h]
  after? := hops.find?_eq fun op h => by simp [hop op h]

end Vocabulary

namespace Grammar

/-- A text in which no added symbol occurs is read with the additions as without them: into the same
tokens, and with the same result or fault. -/
theorem reads_alike_of_inserted (g g' : Grammar) {ops : List Operator} {pairs : List DelimiterPair}
    (hops : Inserted ops g.operators.operators g'.operators.operators)
    (hpairs : Inserted pairs g.delimiters g'.delimiters) (input : String)
    (hop : ∀ op ∈ ops, ¬op.symbol.OccursIn input)
    (hpair : ∀ p ∈ pairs, ¬p.opening.OccursIn input ∧ ¬p.closing.OccursIn input) :
    g'.tokenize input = g.tokenize input ∧ g'.shunt input = g.shunt input ∧
      g'.parse input = g.parse input := by
  have hagree : ∀ t : Token, t.OccursIn input → g'.AgreeOn g.toVocabulary t := by
    intro t ht
    apply Vocabulary.agreeOn_of_inserted hops hpairs
    · rintro op hm rfl
      exact hop op hm ht
    · intro p hm
      constructor
      · rintro rfl
        exact (hpair p hm).1 ht
      · rintro rfl
        exact (hpair p hm).2 ht
  exact ⟨Vocabulary.tokenize_eq_of_agreeOn hagree, Vocabulary.shunt_eq_of_agreeOn hagree,
    Vocabulary.parse_eq_of_agreeOn hagree⟩

/-- A doubled sign and parentheses with signs in them are added to the signs and parentheses that
they are made of. -/
theorem reads_alike_of_inserted_of_signs :
    let doubled : Operator := ⟨.literal ['-', '-'], none, 3, .unary .before, .none, by decide⟩
    let pair : DelimiterPair := ⟨.literal ['(', '-'], .literal ['-', ')']⟩
    let g : Grammar := ⟨⟨⟨[.subtract, .negative], by decide⟩, [.parentheses]⟩,
      by decide, by decide⟩
    let g' : Grammar := ⟨⟨⟨[.subtract, doubled, .negative], by decide⟩, [pair, .parentheses]⟩,
      by decide, by decide⟩
    let input := "-( a-b ) -c"
    ¬doubled.symbol.OccursIn input ∧ ¬pair.opening.OccursIn input ∧ ¬pair.closing.OccursIn input ∧
      g'.tokenize input = g.tokenize input ∧ g'.shunt input = g.shunt input ∧
      g'.parse input = g.parse input := by
  intro doubled pair g g' input
  have hops : Inserted [doubled] [.subtract, .negative] [.subtract, doubled, .negative] :=
    .keep _ (.add _ (.keep _ .nil))
  have hpairs : Inserted [pair] [.parentheses] [pair, .parentheses] := .add _ (.keep _ .nil)
  have hop : ¬doubled.symbol.OccursIn input := by decide +kernel
  have hpair : ¬pair.opening.OccursIn input ∧ ¬pair.closing.OccursIn input := by decide +kernel
  have halike := reads_alike_of_inserted g g' hops hpairs input (by simpa using hop)
    (by simpa using hpair)
  exact ⟨hop, hpair.1, hpair.2, halike⟩

end Grammar

end Fixity
