import Fixity.Proofs.Tokenizing
import Fixity.Proofs.Vocabulary

/-! Reading asks a vocabulary only what the tokens mean that are read. Vocabularies that agree on
these tokens read them in the same way, with the same faults. If they agree on all tokens that occur
in a text, they also split the text in the same way. -/
namespace Fixity

theorem OperatorSet.contains_eq (set : OperatorSet) (t : Token) :
    set.contains t = ((set.before? t).isSome || (set.after? t).isSome) := by
  rw [Bool.eq_iff_iff]
  simp only [contains, before?, after?, Bool.or_eq_true, List.find?_isSome, List.any_eq_true,
    Bool.and_eq_true, beq_iff_eq, bne_iff_ne]
  constructor
  · rintro ⟨op, hop, rfl⟩
    by_cases ha : op.arity = .unary .before
    · exact .inl ⟨op, hop, rfl, ha⟩
    · exact .inr ⟨op, hop, rfl, ha⟩
  · rintro (⟨op, hop, rfl, -⟩ | ⟨op, hop, rfl, -⟩)
    · exact ⟨op, hop, rfl⟩
    · exact ⟨op, hop, rfl⟩

namespace Vocabulary

variable {v w : Vocabulary} {t : Token}

theorem opening?_congr (hd : v.delimiters = w.delimiters) (t : Token) :
    v.opening? t = w.opening? t := by
  rw [opening?, opening?, hd]

theorem isClosing_congr (hd : v.delimiters = w.delimiters) (t : Token) :
    v.isClosing t = w.isClosing t := by
  rw [isClosing, isClosing, hd]

theorem isDelimiter_congr (hd : v.delimiters = w.delimiters) (t : Token) :
    v.isDelimiter t = w.isDelimiter t := by
  rw [isDelimiter, isDelimiter, opening?_congr hd, isClosing_congr hd]

/-- The token opens, closes and operates alike in two vocabularies. -/
structure AgreeOn (v w : Vocabulary) (t : Token) : Prop where
  opening? : v.opening? t = w.opening? t
  isClosing : v.isClosing t = w.isClosing t
  before? : v.operators.before? t = w.operators.before? t
  after? : v.operators.after? t = w.operators.after? t

theorem AgreeOn.symm (h : v.AgreeOn w t) : w.AgreeOn v t :=
  ⟨h.opening?.symm, h.isClosing.symm, h.before?.symm, h.after?.symm⟩

theorem AgreeOn.contains (h : v.AgreeOn w t) : v.operators.contains t = w.operators.contains t := by
  rw [OperatorSet.contains_eq, OperatorSet.contains_eq, h.before?, h.after?]

theorem AgreeOn.isDelimiter (h : v.AgreeOn w t) : v.isDelimiter t = w.isDelimiter t := by
  rw [Vocabulary.isDelimiter, Vocabulary.isDelimiter, h.opening?, h.isClosing]

theorem AgreeOn.isValue_iff (h : v.AgreeOn w t) : v.IsValue t ↔ w.IsValue t := by
  rw [IsValue, IsValue, h.isDelimiter, h.contains]

end Vocabulary

namespace Shunting

variable {v w : Vocabulary}

theorem State.step_congr {t : Token} (h : v.AgreeOn w t) (position : Nat) (s : State) :
    s.step v position t = s.step w position t := by
  unfold step readOperator
  rw [h.opening?, h.isClosing, h.contains, h.before?, h.after?]

theorem State.steps_congr {ts : List Token} (h : ∀ t ∈ ts, v.AgreeOn w t) (position : Nat)
    (s : State) : s.steps v position ts = s.steps w position ts := by
  induction ts generalizing position s with
  | nil => rfl
  | cons t ts ih =>
    obtain ⟨ht, hts⟩ := List.forall_mem_cons.1 h
    rw [steps, steps, step_congr ht]
    congr 1
    funext s'
    exact ih hts (position + 1) s'

theorem run_congr {ts : List Token} (h : ∀ t ∈ ts, v.AgreeOn w t) : run v ts = run w ts := by
  have hfilter : (ts.filter fun t => !v.isDelimiter t) = ts.filter fun t => !w.isDelimiter t :=
    List.filter_congr fun t ht => by rw [(h t ht).isDelimiter]
  rw [run, run, State.steps_congr h, hfilter]

end Shunting

namespace Vocabulary

variable {v w : Vocabulary} {ts : List Token}

theorem shuntFrom_congr (h : ∀ t ∈ ts, v.AgreeOn w t) (input : String) :
    v.shuntFrom input ts = w.shuntFrom input ts := by
  rw [shuntFrom, shuntFrom, Shunting.run_congr h]

theorem parseFrom_congr (h : ∀ t ∈ ts, v.AgreeOn w t) (input : String) :
    v.parseFrom input ts = w.parseFrom input ts := by
  rw [parseFrom, parseFrom, shuntFrom_congr h]

end Vocabulary

/-- The token occurs in the input without its blanks. -/
def Token.OccursIn (t : Token) (input : String) : Prop := t.chars <:+: withoutBlanks input.toList

instance (t : Token) (input : String) : Decidable (t.OccursIn input) :=
  inferInstanceAs (Decidable (_ <:+: _))

theorem Token.isInfix_joinTokens {t : Token} {ts : List Token} (h : t ∈ ts) :
    t.chars <:+: joinTokens ts := by
  obtain ⟨earlier, later, rfl⟩ := List.append_of_mem h
  exact ⟨joinTokens earlier, joinTokens later, by simp⟩

namespace Vocabulary

variable {v w : Vocabulary} {input : String}

theorem occursIn_of_mem_tokenize {t : Token} (h : t ∈ v.tokenize input) : t.OccursIn input := by
  obtain ⟨hjoin, -⟩ := SymbolTable.tokenize_eq_iff.1 (Eq.refl (v.tokenize input))
  rw [Token.OccursIn, ← hjoin]
  exact Token.isInfix_joinTokens h

theorem tokenize_eq_of_agreeOn (h : ∀ t : Token, t.OccursIn input → v.AgreeOn w t) :
    v.tokenize input = w.tokenize input := by
  have hmem : ∀ {v w : Vocabulary}, (∀ t : Token, t.OccursIn input → v.AgreeOn w t) →
      ∀ s, s <:+: withoutBlanks input.toList → s ∈ v.symbolTable.symbols →
        s ∈ w.symbolTable.symbols := by
    intro v w h s hin hs
    obtain ⟨x, hx, rfl⟩ := exists_of_mem_symbolTable hs
    exact mem_symbolTable_iff.2 (mt (h x hin).isValue_iff.2 hx)
  apply SymbolTable.tokenize_congr
  exact fun s hin => ⟨hmem h s hin, hmem (fun t ht => (h t ht).symm) s hin⟩

theorem shunt_eq_of_agreeOn (h : ∀ t : Token, t.OccursIn input → v.AgreeOn w t) :
    v.shunt input = w.shunt input := by
  rw [shunt, shunt, ← tokenize_eq_of_agreeOn h]
  exact shuntFrom_congr (fun t ht => h t (occursIn_of_mem_tokenize ht)) input

theorem parse_eq_of_agreeOn (h : ∀ t : Token, t.OccursIn input → v.AgreeOn w t) :
    v.parse input = w.parse input := by
  rw [parse, parse, ← tokenize_eq_of_agreeOn h]
  exact parseFrom_congr (fun t ht => h t (occursIn_of_mem_tokenize ht)) input

end Vocabulary

end Fixity
