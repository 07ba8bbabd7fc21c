import Fixity.Grammar.Predefined
import Fixity.Proofs.Meaning
import Fixity.Proofs.Validation

/-! Operator sets are checked exactly, and the order in which operators are given means nothing. At
most one of them can be meant by a symbol on either side of an operand, so it does not matter where
in the list that one stands. -/
namespace Fixity

/-- The token with just this text. -/
def Token.ofText? (text : String) : Option Token :=
  (ofString text).toOption.filter fun t => t.text == text

theorem Token.ofText?_eq_some_iff {text : String} {t : Token} :
    ofText? text = some t ↔ t.text = text := by
  constructor
  · intro h
    simpa using (Option.filter_eq_some_iff.1 h).2
  · rintro rfl
    simp [ofText?, Except.toOption]

namespace OperatorSet

variable {set set' : OperatorSet} {t : Token} {s : String} {op : Operator}

theorem before?_text_eq_some_iff : (Token.ofText? s).bind set.before? = some op ↔
    op ∈ set.operators ∧ op.arity = .unary .before ∧ op.symbol.text = s := by
  simp only [Option.bind_eq_some_iff, Token.ofText?_eq_some_iff, before?_eq_some_iff]
  constructor
  · rintro ⟨t, rfl, hop, ha, rfl⟩
    exact ⟨hop, ha, rfl⟩
  · rintro ⟨hop, ha, rfl⟩
    exact ⟨op.symbol, rfl, hop, ha, rfl⟩

theorem after?_text_eq_some_iff : (Token.ofText? s).bind set.after? = some op ↔
    op ∈ set.operators ∧ op.arity ≠ .unary .before ∧ op.symbol.text = s := by
  simp only [Option.bind_eq_some_iff, Token.ofText?_eq_some_iff, after?_eq_some_iff]
  constructor
  · rintro ⟨t, rfl, hop, ha, rfl⟩
    exact ⟨hop, ha, rfl⟩
  · rintro ⟨hop, ha, rfl⟩
    exact ⟨op.symbol, rfl, hop, ha, rfl⟩

theorem contains_text_iff :
    (Token.ofText? s).any set.contains = true ↔ ∃ op ∈ set.operators, op.symbol.text = s := by
  simp only [Option.any_eq_true, Token.ofText?_eq_some_iff, contains, List.any_eq_true, beq_iff_eq]
  constructor
  · rintro ⟨t, rfl, op, hop, rfl⟩
    exact ⟨op, hop, rfl⟩
  · rintro ⟨op, hop, rfl⟩
    exact ⟨op.symbol, rfl, op, hop, rfl⟩

theorem before?_congr (h : set.operators.Perm set'.operators) (t : Token) :
    set.before? t = set'.before? t := by
  ext op
  rw [before?_eq_some_iff, before?_eq_some_iff, h.mem_iff]

theorem after?_congr (h : set.operators.Perm set'.operators) (t : Token) :
    set.after? t = set'.after? t := by
  ext op
  rw [after?_eq_some_iff, after?_eq_some_iff, h.mem_iff]

theorem contains_congr (h : set.operators.Perm set'.operators) (t : Token) :
    set.contains t = set'.contains t := by
  rw [contains_eq, contains_eq, before?_congr h, after?_congr h]

end OperatorSet

namespace Vocabulary

variable {v w : Vocabulary}

theorem agreeOn_of_perm (h : v.operators.operators.Perm w.operators.operators)
    (hd : v.delimiters = w.delimiters) (t : Token) : v.AgreeOn w t where
  opening? := opening?_congr hd t
  isClosing := isClosing_congr hd t
  before? := OperatorSet.before?_congr h t
  after? := OperatorSet.after?_congr h t

theorem tokenize_congr (h : ∀ t, v.AgreeOn w t) (input : String) :
    v.tokenize input = w.tokenize input :=
  tokenize_eq_of_agreeOn fun t _ => h t

theorem shunt_congr (h : ∀ t, v.AgreeOn w t) (input : String) : v.shunt input = w.shunt input :=
  shunt_eq_of_agreeOn fun t _ => h t

theorem parse_congr (h : ∀ t, v.AgreeOn w t) (input : String) : v.parse input = w.parse input :=
  parse_eq_of_agreeOn fun t _ => h t

end Vocabulary

namespace OperatorSet

/-- Operators form a set just if no two of them conflict. Each can be found in it by its symbol, and
a set of the same operators in another order reads everything alike. -/
theorem ofList_in_any_order (ops : List Operator) :
    ((∃ set, ofList ops = .ok set) ↔
      (ops.Pairwise fun a b => ¬(a.symbol = b.symbol ∧ a.arity = b.arity)) ∧
        ∀ a ∈ ops, ∀ b ∈ ops, a.symbol = b.symbol → a.arity = .unary .after →
          b.arity = .unary .after) ∧
    (∀ set, ofList ops = .ok set → ∀ s : String,
      (∀ op, (Token.ofText? s).bind set.before? = some op ↔
        op ∈ ops ∧ op.arity = .unary .before ∧ op.symbol.text = s) ∧
      (∀ op, (Token.ofText? s).bind set.after? = some op ↔
        op ∈ ops ∧ op.arity ≠ .unary .before ∧ op.symbol.text = s) ∧
      ((Token.ofText? s).any set.contains = true ↔ ∃ op ∈ ops, op.symbol.text = s)) ∧
    ∀ ops' : List Operator, ops.Perm ops' →
      ((∃ set, ofList ops = .ok set) ↔ ∃ set, ofList ops' = .ok set) ∧
      ∀ set set', ofList ops = .ok set → ofList ops' = .ok set' →
        ∀ delimiters : List DelimiterPair,
          ((∃ g, Grammar.ofParts set delimiters = .ok g) ↔
            ∃ g, Grammar.ofParts set' delimiters = .ok g) ∧
          ∀ g g' : Grammar, Grammar.ofParts set delimiters = .ok g →
            Grammar.ofParts set' delimiters = .ok g' → ∀ input : String,
              g.tokenize input = g'.tokenize input ∧ g.shunt input = g'.shunt input ∧
                g.parse input = g'.parse input := by
  refine ⟨exists_ofList_eq_ok_iff.trans pairwise_compatible_iff, ?_, ?_⟩
  · intro set hset s
    obtain rfl := ofList_eq_ok_iff.1 hset
    exact ⟨fun op => before?_text_eq_some_iff, fun op => after?_text_eq_some_iff, contains_text_iff⟩
  · intro ops' hperm
    refine ⟨?_, ?_⟩
    · rw [exists_ofList_eq_ok_iff, exists_ofList_eq_ok_iff]
      exact hperm.pairwise_iff fun h => h.symm
    · intro set set' hset hset' delimiters
      obtain rfl := ofList_eq_ok_iff.1 hset
      obtain rfl := ofList_eq_ok_iff.1 hset'
      refine ⟨?_, ?_⟩
      · rw [Grammar.exists_ofParts_eq_ok_iff, Grammar.exists_ofParts_eq_ok_iff,
          Grammar.pairError?_congr (contains_congr hperm)]
      · intro g g' hg hg' input
        have hagree : ∀ t, g.AgreeOn g'.toVocabulary t := by
          rw [Grammar.toVocabulary_of_ofParts hg, Grammar.toVocabulary_of_ofParts hg']
          exact Vocabulary.agreeOn_of_perm hperm rfl
        exact ⟨Vocabulary.tokenize_congr hagree input, Vocabulary.shunt_congr hagree input,
          Vocabulary.parse_congr hagree input⟩

/-- The sign is told from the difference also if it comes first. -/
theorem ofList_in_any_order_of_signs :
    let ops : List Operator := [.subtract, .exponentiation, .negative, .array]
    let set : OperatorSet := ⟨ops, by decide⟩
    let set' : OperatorSet := ⟨ops.reverse, by decide⟩
    let g : Grammar := ⟨⟨set, [.parentheses]⟩, by decide, by decide⟩
    let g' : Grammar := ⟨⟨set', [.parentheses]⟩, by decide, by decide⟩
    ofList ops = .ok set ∧ ofList ops.reverse = .ok set' ∧
      Grammar.ofParts set [.parentheses] = .ok g ∧ Grammar.ofParts set' [.parentheses] = .ok g' ∧
      (Token.ofText? "-").bind set.before? = some .negative ∧
      (Token.ofText? "-").bind set.after? = some .subtract ∧
      ∀ input, g.tokenize input = g'.tokenize input ∧ g.shunt input = g'.shunt input ∧
        g.parse input = g'.parse input := by
  intro ops set set' g g'
  obtain ⟨-, hfind, horder⟩ := ofList_in_any_order ops
  have hset : ofList ops = .ok set := by decide
  have hset' : ofList ops.reverse = .ok set' := by decide
  have hg : Grammar.ofParts set [.parentheses] = .ok g := by decide
  have hg' : Grammar.ofParts set' [.parentheses] = .ok g' := by decide
  obtain ⟨hbefore, hafter, -⟩ := hfind set hset "-"
  obtain ⟨-, hread⟩ := horder ops.reverse (List.reverse_perm ops).symm
  obtain ⟨-, halike⟩ := hread set set' hset hset' [.parentheses]
  refine ⟨hset, hset', hg, hg', ?_, ?_, halike g g' hg hg'⟩
  · exact (hbefore .negative).2 (by decide)
  · exact (hafter .subtract).2 (by decide)

end OperatorSet

end Fixity
