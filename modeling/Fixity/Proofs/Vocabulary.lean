import Fixity.Grammar
import Mathlib.Data.List.Pairwise

/-! What the tokens of a vocabulary mean, and that a symbol and the side from which it is read
determine an operator. -/
namespace Fixity

theorem Arity.eq_binary {a : Arity} (hb : a ≠ .unary .before) (ha : a ≠ .unary .after) :
    a = .binary := by
  rcases a with _ | (_ | _)
  · rfl
  · exact absurd rfl hb
  · exact absurd rfl ha

namespace OperatorSet

variable {set : OperatorSet} {op : Operator} {t : Token}

instance : Std.Symm Operator.Compatible := ⟨fun _ _ => Operator.Compatible.symm⟩

/-- Of two operators with one symbol, one is a prefix operator and the other one binary. -/
theorem eq_or_arity_ne {a b : Operator} (ha : a ∈ set.operators) (hb : b ∈ set.operators)
    (hs : a.symbol = b.symbol) :
    a = b ∨ a.arity ≠ b.arity ∧ a.arity ≠ .unary .after ∧ b.arity ≠ .unary .after := by
  by_cases h : a = b
  · exact .inl h
  · exact .inr (set.compatible.forall ha hb h hs)

/-- A search finds every operator with the symbol and an arity of the kind that is searched for, if
the operators that share a symbol have at most one arity of this kind. -/
theorem find?_eq_some_iff {p : Arity → Bool}
    (hp : ∀ a b, p a = true → p b = true → a ≠ .unary .after → b ≠ .unary .after → a = b) :
    (set.operators.find? fun op => op.symbol == t && p op.arity) = some op ↔
      op ∈ set.operators ∧ p op.arity = true ∧ op.symbol = t := by
  constructor
  · intro h
    have hop := List.find?_some h
    simp only [Bool.and_eq_true, beq_iff_eq] at hop
    exact ⟨List.mem_of_find?_eq_some h, hop.2, hop.1⟩
  · rintro ⟨hm, ha, rfl⟩
    cases h : set.operators.find? fun e => e.symbol == op.symbol && p e.arity with
    | none => simpa [ha] using List.find?_eq_none.1 h op hm
    | some op' =>
      have hop' := List.find?_some h
      simp only [Bool.and_eq_true, beq_iff_eq] at hop'
      obtain rfl | hne := eq_or_arity_ne (List.mem_of_find?_eq_some h) hm hop'.1
      · rfl
      · exact absurd (hp _ _ hop'.2 ha hne.2.1 hne.2.2) hne.1

theorem find?_arity_eq_some_iff {a : Arity} :
    (set.operators.find? fun op => op.symbol == t && op.arity == a) = some op ↔
      op ∈ set.operators ∧ op.arity = a ∧ op.symbol = t := by
  rw [find?_eq_some_iff (p := fun b => b == a), beq_iff_eq]
  intro b c hb hc _ _
  exact (eq_of_beq hb).trans (eq_of_beq hc).symm

theorem before?_eq_some_iff :
    set.before? t = some op ↔ op ∈ set.operators ∧ op.arity = .unary .before ∧ op.symbol = t :=
  find?_arity_eq_some_iff

theorem after?_eq_some_iff :
    set.after? t = some op ↔ op ∈ set.operators ∧ op.arity ≠ .unary .before ∧ op.symbol = t := by
  rw [after?, find?_eq_some_iff (p := fun a => a != .unary .before), bne_iff_ne]
  intro a b ha hb ha' hb'
  rw [Arity.eq_binary (bne_iff_ne.1 ha) ha', Arity.eq_binary (bne_iff_ne.1 hb) hb']

theorem contains_symbol (h : op ∈ set.operators) : set.contains op.symbol = true :=
  List.any_eq_true.2 ⟨op, h, by simp⟩

theorem mem_symbols_iff : t ∈ set.symbols ↔ set.contains t = true := by
  simp [symbols, mem_sortDistinct_iff fun _ _ => Token.eq_of_incomparable, contains]

end OperatorSet

namespace Vocabulary

variable {v : Vocabulary} {p : DelimiterPair} {t : Token}

/-- A token that neither operates nor encloses. -/
def IsValue (v : Vocabulary) (t : Token) : Prop :=
  v.isDelimiter t = false ∧ v.operators.contains t = false

/-- A pair that can enclose an expression: the first one with its opening token, and the closing
token does not open a pair itself. -/
def IsEffective (v : Vocabulary) (p : DelimiterPair) : Prop :=
  v.opening? p.opening = some p ∧ v.opening? p.closing = none

instance (v : Vocabulary) (t : Token) : Decidable (v.IsValue t) :=
  inferInstanceAs (Decidable (_ ∧ _))

instance (v : Vocabulary) (p : DelimiterPair) : Decidable (v.IsEffective p) :=
  inferInstanceAs (Decidable (_ ∧ _))

theorem opening_of_opening? (h : v.opening? t = some p) : p.opening = t := by
  simpa using List.find?_some h

theorem isDelimiter_eq_false_iff :
    v.isDelimiter t = false ↔ v.opening? t = none ∧ v.isClosing t = false := by
  simp [isDelimiter]

theorem isDelimiter_iff : v.isDelimiter t = true ↔ ∃ p ∈ v.delimiters, t ∈ p.tokens := by
  simp only [isDelimiter, opening?, isClosing, DelimiterPair.tokens, Bool.or_eq_true,
    List.find?_isSome, List.any_eq_true, beq_iff_eq, ← exists_or, ← and_or_left, List.mem_cons,
    List.not_mem_nil, or_false]
  simp only [eq_comm]

/-- The values among some tokens. -/
def values (v : Vocabulary) (ts : List Token) : List Token := ts.filter fun t => v.IsValue t

@[simp] theorem values_nil : v.values [] = [] := rfl

@[simp] theorem values_append (ts us : List Token) :
    v.values (ts ++ us) = v.values ts ++ v.values us := by
  simp [values]

theorem values_cons_of_isValue (h : v.IsValue t) (ts : List Token) :
    v.values (t :: ts) = t :: v.values ts := by
  simp [values, h]

theorem values_cons_of_not_isValue (h : ¬v.IsValue t) (ts : List Token) :
    v.values (t :: ts) = v.values ts := by
  simp [values, h]

/-- The table of a vocabulary holds the tokens that are no values. -/
theorem mem_symbolTable_iff : t.chars ∈ v.symbolTable.symbols ↔ ¬v.IsValue t := by
  have hmem : t.chars ∈ v.symbols.map Token.chars ↔ t ∈ v.symbols := by
    constructor
    · intro h
      obtain ⟨u, hu, he⟩ := List.mem_map.1 h
      rwa [← Token.ext he]
    · exact List.mem_map_of_mem
  rw [symbolTable, SymbolTable.mem_symbols_ofList, and_iff_left t.chars_ne_nil, hmem, symbols,
    List.mem_append, OperatorSet.mem_symbols_iff, List.mem_flatMap, ← isDelimiter_iff]
  simp only [IsValue, not_and_or, Bool.not_eq_false, or_comm]

theorem exists_of_mem_symbolTable {s : List Char} (h : s ∈ v.symbolTable.symbols) :
    ∃ x : Token, ¬v.IsValue x ∧ x.chars = s := by
  obtain ⟨x, -, rfl⟩ := List.mem_map.1 (SymbolTable.mem_symbols_ofList.1 h).1
  exact ⟨x, mem_symbolTable_iff.1 h, rfl⟩

theorem IsEffective.mem (h : v.IsEffective p) : p ∈ v.delimiters := List.mem_of_find?_eq_some h.1

theorem IsEffective.isClosing (h : v.IsEffective p) : v.isClosing p.closing = true :=
  List.any_eq_true.2 ⟨p, h.mem, by simp⟩

theorem not_isValue_symbol {op : Operator} (h : op ∈ v.operators.operators) :
    ¬v.IsValue op.symbol := by
  simp [IsValue, OperatorSet.contains_symbol h]

theorem IsEffective.not_isValue_opening (h : v.IsEffective p) : ¬v.IsValue p.opening := by
  simp [IsValue, isDelimiter, h.1]

theorem IsEffective.not_isValue_closing (h : v.IsEffective p) : ¬v.IsValue p.closing := by
  simp [IsValue, isDelimiter, h.isClosing]

theorem isEffective_parentheses (h : v.delimiters = [.parentheses]) :
    v.IsEffective .parentheses := by
  rw [IsEffective, opening?, opening?, h]
  decide

end Vocabulary

namespace Grammar

variable {g : Grammar} {op : Operator}

theorem isDelimiter_symbol (h : op ∈ g.operators.operators) : g.isDelimiter op.symbol = false := by
  have hn : ∀ p ∈ g.delimiters, p.opening ≠ op.symbol ∧ p.closing ≠ op.symbol := by
    intro p hp
    have ho := g.not_operator p hp p.opening (by simp [DelimiterPair.tokens])
    have hc := g.not_operator p hp p.closing (by simp [DelimiterPair.tokens])
    constructor
    · intro e
      simp [e, OperatorSet.contains_symbol h] at ho
    · intro e
      simp [e, OperatorSet.contains_symbol h] at hc
  rw [Vocabulary.isDelimiter_eq_false_iff]
  constructor
  · exact List.find?_eq_none.2 fun p hp => by simp [(hn p hp).1]
  · exact List.any_eq_false.2 fun p hp => by simp [(hn p hp).2]

end Grammar

end Fixity
