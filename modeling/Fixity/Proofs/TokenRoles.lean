import Fixity.Grammar.Predefined
import Fixity.Proofs.Transitions
import Mathlib.Data.List.Forall2

/-! What becomes of each token on the way to postfix order. Values stay in written order, since they
never wait. Operators may wait, but each comes out as the operator that the token before its symbol
lets the symbol stand for. -/
namespace Fixity

open Shunting

namespace Vocabulary

variable {v : Vocabulary} {t : Token} {p : DelimiterPair} {op : Operator} {ts : List Token}
  {previous : Option Token}

/-- Whether an operand is called for after the token, or at the start. An operator that is written
after its operand shares its symbol with no other, so it does not matter which of the operators with
one symbol the token stands for. -/
def callsForOperand (v : Vocabulary) : Option Token → Bool
  | none => true
  | some t =>
    (v.opening? t).isSome || (!v.isClosing t &&
      v.operators.operators.any fun op => op.symbol == t && op.arity != .unary .after)

theorem callsForOperand_opening (h : v.opening? t = some p) :
    v.callsForOperand (some t) = true := by
  simp [callsForOperand, h]

theorem callsForOperand_closing (ho : v.opening? t = none) (hc : v.isClosing t = true) :
    v.callsForOperand (some t) = false := by
  simp [callsForOperand, ho, hc]

theorem callsForOperand_value (h : v.IsValue t) : v.callsForOperand (some t) = false := by
  obtain ⟨ho, -⟩ := isDelimiter_eq_false_iff.1 h.1
  have hn : ∀ op ∈ v.operators.operators, op.symbol ≠ t := by
    simpa [OperatorSet.contains] using h.2
  simp only [callsForOperand, ho, Option.isSome_none, Bool.false_or, Bool.and_eq_false_imp]
  intro _
  apply List.any_eq_false.2
  intro op hop
  simp [hn op hop]

theorem callsForOperand_symbol (hd : v.isDelimiter op.symbol = false)
    (hop : op ∈ v.operators.operators) :
    v.callsForOperand (some op.symbol) = (op.arity != .unary .after) := by
  obtain ⟨ho, hc⟩ := isDelimiter_eq_false_iff.1 hd
  simp only [callsForOperand, ho, hc, Option.isSome_none, Bool.false_or, Bool.not_false,
    Bool.true_and]
  rw [Bool.eq_iff_iff]
  simp only [List.any_eq_true, Bool.and_eq_true, beq_iff_eq, bne_iff_ne]
  constructor
  · rintro ⟨other, hother, hsymbol, harity⟩
    rcases OperatorSet.eq_or_arity_ne hother hop hsymbol with rfl | hne
    · exact harity
    · exact hne.2.2
  · intro harity
    exact ⟨op, hop, rfl, harity⟩

/-- The symbols of operators among some tokens, each with the token before it. -/
def operatorPlaces (v : Vocabulary) (previous : Option Token) (ts : List Token) :
    List (Option Token × Token) :=
  ((previous :: ts.map some).zip ts).filter fun place =>
    !v.isDelimiter place.2 && v.operators.contains place.2

theorem operatorPlaces_cons (previous : Option Token) (t : Token) (ts : List Token) :
    v.operatorPlaces previous (t :: ts) =
      v.operatorPlaces previous [t] ++ v.operatorPlaces (some t) ts := by
  simp only [operatorPlaces, List.map_cons, List.zip_cons_cons, List.map_nil, List.zip_nil_right]
  rw [← List.filter_append, List.singleton_append]

theorem operatorPlaces_delimiter (h : v.isDelimiter t = true) :
    v.operatorPlaces previous [t] = [] := by
  simp [operatorPlaces, h]

theorem operatorPlaces_value (h : v.IsValue t) : v.operatorPlaces previous [t] = [] := by
  simp [operatorPlaces, h.2]

theorem operatorPlaces_symbol (hd : v.isDelimiter op.symbol = false)
    (hop : op ∈ v.operators.operators) :
    v.operatorPlaces previous [op.symbol] = [(previous, op.symbol)] := by
  simp [operatorPlaces, hd, OperatorSet.contains_symbol hop]

/-- The symbol stands for the operator: for one that is written before its operand just if the token
before it calls for an operand. -/
structure StandsFor (v : Vocabulary) (place : Option Token × Token) (op : Operator) : Prop where
  mem : op ∈ v.operators.operators
  symbol : op.symbol = place.2
  side : op.arity = .unary .before ↔ v.callsForOperand place.1 = true

end Vocabulary

namespace Shunting.State

variable {v : Vocabulary} {s s' s'' : State} {position : Nat} {t : Token} {ts : List Token}
  {previous : Option Token}

/-- The values that have come out, in this order. -/
def values (s : State) : List Token := s.output.reverse.filterMap PostfixToken.value?

/-- The operators that have come out or wait. -/
def operators (s : State) : List PostfixToken := s.held.filter fun e => !e.isValue

/-- What is known about the state after a token. -/
structure After (v : Vocabulary) (previous : Option Token) (s : State) : Prop where
  expectsOperand : s.previous.expectsOperand = v.callsForOperand previous
  waiting : ∀ e, .operator e ∈ s.stack → ∃ op ∈ v.operators.operators, e = .ofOperator op

theorem after_initial (v : Vocabulary) : After v none initial where
  expectsOperand := rfl
  waiting := by simp [initial]

/-- What tokens that follow `previous` add to the values that have come out and to the operators. -/
structure Adds (v : Vocabulary) (previous : Option Token) (ts : List Token) (s s' : State) :
    Prop where
  values : s'.values = s.values ++ v.values ts
  operators : ∃ ops, List.Forall₂ v.StandsFor (v.operatorPlaces previous ts) ops ∧
    s'.operators.Perm (ops.map .ofOperator ++ s.operators)

theorem After.values_move {ops : List PostfixToken} {rest : List Entry} (h : After v previous s)
    (hstack : s.stack = ops.map .operator ++ rest) :
    (ops.reverse ++ s.output).reverse.filterMap PostfixToken.value? = s.values := by
  have hnone : ops.filterMap PostfixToken.value? = [] := by
    apply List.filterMap_eq_nil_iff.2
    intro e he
    obtain ⟨op, -, rfl⟩ := h.waiting e (by simp [hstack, he])
    simp
  simp [values, hnone]

theorem After.step (h : After v previous s) (ht : Transition v s t s') : After v (some t) s' := by
  cases ht with
  | opening ho _ =>
    refine ⟨(Vocabulary.callsForOperand_opening ho).symm, ?_⟩
    intro e he
    exact h.waiting e (by simpa using he)
  | closing ho hc _ hu =>
    obtain ⟨ops, pair, hstack, -, -⟩ := exists_of_unwind hu
    refine ⟨(Vocabulary.callsForOperand_closing ho hc).symm, ?_⟩
    intro e he
    exact h.waiting e (by simp [hstack, he])
  | @operator op hd hop _ =>
    obtain ⟨ops, hstack, -⟩ := exists_release (.ofOperator op) s.output s.stack
    refine ⟨?_, ?_⟩
    · rw [Vocabulary.callsForOperand_symbol hd hop]
      rcases ha : op.arity with _ | (_ | _) <;> simp [push, ha, Previous.expectsOperand]
    · intro e he
      simp only [push, List.mem_cons, Entry.operator.injEq] at he
      rcases he with rfl | he
      · exact ⟨op, hop, rfl⟩
      · apply h.waiting e
        rw [hstack]
        exact List.mem_append_right _ he
  | operand hv _ => exact ⟨(Vocabulary.callsForOperand_value hv).symm, h.waiting⟩

theorem After.adds (h : After v previous s) (ht : Transition v s t s') :
    Adds v previous [t] s s' := by
  cases ht with
  | @opening t pair ho _ =>
    have hd : v.isDelimiter t = true := by simp [Vocabulary.isDelimiter, ho]
    refine ⟨?_, [], ?_, .refl _⟩
    · simp [values, Vocabulary.values, Vocabulary.IsValue, hd]
    · simp [Vocabulary.operatorPlaces_delimiter hd]
  | @closing t output stack ho hc _ hu =>
    have hd : v.isDelimiter t = true := by simp [Vocabulary.isDelimiter, hc]
    obtain ⟨ops, pair, hstack, -, rfl⟩ := exists_of_unwind hu
    refine ⟨?_, [], ?_, (held_of_unwind hu).filter _⟩
    · rw [values, h.values_move hstack]
      simp [Vocabulary.values, Vocabulary.IsValue, hd]
    · simp [Vocabulary.operatorPlaces_delimiter hd]
  | @operator op hd hop he =>
    obtain ⟨ops, hstack, houtput⟩ := exists_release (.ofOperator op) s.output s.stack
    have hv := Vocabulary.not_isValue_symbol hop
    refine ⟨?_, [op], ?_, ?_⟩
    · rw [Vocabulary.values_cons_of_not_isValue hv, Vocabulary.values_nil, List.append_nil, values]
      simp only [push, houtput]
      exact h.values_move hstack
    · rw [Vocabulary.operatorPlaces_symbol hd hop]
      refine .cons ⟨hop, rfl, ?_⟩ .nil
      rw [← h.expectsOperand, he]
      simp
    · simpa [operators] using (held_push s op).filter fun e => !e.isValue
  | @operand t hv _ =>
    refine ⟨?_, [], ?_, ?_⟩
    · simp [values, Vocabulary.values, hv]
    · simp [Vocabulary.operatorPlaces_value hv]
    · simp [operators, held, Shunting.held]

theorem Adds.cons (h : Adds v previous [t] s s') (h' : Adds v (some t) ts s' s'') :
    Adds v previous (t :: ts) s s'' := by
  obtain ⟨ops, hops, hperm⟩ := h.operators
  obtain ⟨ops', hops', hperm'⟩ := h'.operators
  refine ⟨?_, ops ++ ops', ?_, ?_⟩
  · rw [h'.values, h.values, List.append_assoc, ← Vocabulary.values_append, List.singleton_append]
  · rw [Vocabulary.operatorPlaces_cons]
    exact List.rel_append hops hops'
  · refine hperm'.trans ((hperm.append_left _).trans ?_)
    rw [List.map_append, ← List.append_assoc]
    exact List.perm_append_comm.append_right s.operators

/-- A run adds the values in written order, and each operator in the role of its place. -/
theorem After.steps (h : After v previous s) (hs : s.steps v position ts = .ok s') :
    (∃ last, After v last s') ∧ Adds v previous ts s s' := by
  induction ts generalizing s position previous with
  | nil =>
    cases hs
    exact ⟨⟨previous, h⟩, by simp, [], .nil, .refl _⟩
  | cons t ts ih =>
    obtain ⟨s₁, hs₁, hs⟩ := bind_eq_ok_iff.1 hs
    have ht := transition_of_step hs₁
    obtain ⟨hlast, hadds⟩ := ih (h.step ht) hs
    exact ⟨hlast, (h.adds ht).cons hadds⟩

end Shunting.State

namespace Shunting

variable {v : Vocabulary} {ts : List Token} {sequence : List PostfixToken}

theorem values_of_run (h : run v ts = .ok sequence) :
    sequence.filterMap PostfixToken.value? = v.values ts := by
  obtain ⟨s, hs, hf⟩ := run_eq_ok_iff.1 h
  obtain ⟨⟨last, hlast⟩, hadds⟩ := (State.after_initial v).steps hs
  obtain ⟨ops, hstack, hout⟩ := flush_eq_ok_iff.1 hf
  rw [← List.append_nil (ops.map Entry.operator)] at hstack
  have hmove := hlast.values_move hstack
  rw [← hout, List.reverse_reverse, hadds.values] at hmove
  simpa [State.values, State.initial] using hmove

theorem operators_of_run (h : run v ts = .ok sequence) :
    ∃ ops : List Operator, List.Forall₂ v.StandsFor (v.operatorPlaces none ts) ops ∧
      (sequence.filter fun e => !e.isValue).Perm (ops.map .ofOperator) := by
  obtain ⟨s, hs, hf⟩ := run_eq_ok_iff.1 h
  obtain ⟨-, hadds⟩ := (State.after_initial v).steps hs
  obtain ⟨ops, hops, hperm⟩ := hadds.operators
  have hsequence : sequence.Perm s.held :=
    (List.reverse_perm sequence).symm.trans (held_of_flush hf)
  refine ⟨ops, hops, (hsequence.filter _).trans ?_⟩
  simpa [State.operators, State.held, held, State.initial] using hperm

end Shunting

namespace Vocabulary

/-- Postfix order has the tokens that are no delimiters, each of them once: the values in written
order, and for each symbol of an operator the one that it stands for after the token before it. -/
theorem shuntTokens_keeps_tokens (v : Vocabulary) (ts : List Token) :
    (∀ input expected actual,
      v.shuntTokens ts ≠ .error ⟨input, .lengthMismatch expected actual⟩) ∧
    ∀ sequence, v.shuntTokens ts = .ok sequence →
      (sequence.map PostfixToken.text).Perm
        ((ts.filter fun t => !v.isDelimiter t).map Token.text) ∧
      sequence.filterMap PostfixToken.value? = ts.filter (fun t => v.IsValue t) ∧
      ∃ ops : List Operator, List.Forall₂ v.StandsFor (v.operatorPlaces none ts) ops ∧
        (sequence.filter fun e => !e.isValue).Perm (ops.map .ofOperator) := by
  constructor
  · intro input expected actual h
    obtain ⟨hrun, -⟩ := shuntTokens_eq_error_iff.1 h
    obtain ⟨t, position, hnames⟩ | ⟨d, hd⟩ := names_or_unclosed_of_run hrun
    · cases hnames.offender
    · cases hd
  · intro sequence h
    have hrun := shuntTokens_eq_ok_iff.1 h
    refine ⟨?_, values_of_run hrun, operators_of_run hrun⟩
    obtain ⟨s, hs, hf⟩ := run_eq_ok_iff.1 hrun
    have hsymbols := (List.reverse_perm sequence).symm.map PostfixToken.symbols |>.trans
      (symbols_of_flush hs hf)
    have htexts := hsymbols.map fun ts => String.ofList (joinTokens ts)
    simp only [List.map_map, Function.comp_def, joinTokens_cons, joinTokens_nil,
      List.append_nil] at htexts
    exact htexts

/-- Of four signs the first and the last are written before their operands. The second pair closes
with the sign of a product, which is a delimiter here and no operator. -/
theorem shuntTokens_keeps_tokens_of_signs :
    let a : Token := .literal ['a']
    let b : Token := .literal ['b']
    let c : Token := .literal ['c']
    let minus : Token := .literal ['-']
    let pair : DelimiterPair := ⟨.literal ['('], .literal ['*']⟩
    let v : Vocabulary := ⟨.arithmetic, [.parentheses, pair, .parentheses]⟩
    let ts : List Token := [minus, DelimiterPair.parentheses.opening, a, minus, b,
      DelimiterPair.parentheses.closing, minus, minus, c]
    ∃ sequence, v.shuntTokens ts = .ok sequence ∧
      (sequence.map PostfixToken.text).Perm
        ((ts.filter fun t => !v.isDelimiter t).map Token.text) ∧
      sequence.filterMap PostfixToken.value? = [a, b, c] ∧
      ∃ ops : List Operator, List.Forall₂ v.StandsFor (v.operatorPlaces none ts) ops ∧
        (sequence.filter fun e => !e.isValue).Perm (ops.map .ofOperator) := by
  intro a b c minus pair v ts
  have hts : v.shuntTokens ts = .ok [.value a, .value b, .ofOperator .subtract,
      .ofOperator .negative, .value c, .ofOperator .negative, .ofOperator .subtract] := by
    decide
  obtain ⟨-, hkeeps⟩ := shuntTokens_keeps_tokens v ts
  obtain ⟨htexts, hvalues, hoperators⟩ := hkeeps _ hts
  exact ⟨_, hts, htexts, by rw [hvalues]; decide, hoperators⟩

end Vocabulary

end Fixity
