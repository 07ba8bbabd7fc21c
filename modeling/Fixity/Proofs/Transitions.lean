import Fixity.Proofs.Conservation

/-! What a token does to the postfix machine: one case for each kind of token that it can read, and
for one that it cannot read a fault that names the token. -/
namespace Fixity

namespace ShuntFault

/-- The token at which reading stops. The faults that are found only after the last token name no
such token. -/
def offender? : ShuntFault → Option Token
  | nonMatchingDelimiters _ closing => some closing
  | startsWithClosingDelimiter delimiter => some delimiter
  | startsWithOperator symbol => some symbol
  | operandExpected symbol _ => some symbol
  | operatorExpected symbol _ => some symbol
  | unclosedDelimiter _ => none
  | lengthMismatch _ _ => none

def position? : ShuntFault → Option Nat
  | operandExpected _ position => some position
  | operatorExpected _ position => some position
  | _ => none

/-- The fault names `t` as the token at which reading stops, and gives no other position for it. -/
structure Names (fault : ShuntFault) (t : Token) (position : Nat) : Prop where
  offender : fault.offender? = some t
  position : ∀ n ∈ fault.position?, n = position

end ShuntFault

namespace Shunting

open ShuntFault

variable {v : Vocabulary} {s s' : State} {position : Nat} {t : Token}

theorem names_of_unwind {closing : Token} {output : List PostfixToken} {stack : List Entry}
    {fault : ShuntFault} (h : unwind closing output stack = .error fault) (position : Nat) :
    fault.Names closing position := by
  fun_induction unwind closing output stack with
  | case1 =>
    cases h
    exact ⟨rfl, by simp [position?]⟩
  | case2 output op stack ih => exact ih h
  | case3 => cases h
  | case4 =>
    cases h
    exact ⟨rfl, by simp [position?]⟩

namespace State

/-- The ways to read a token. -/
inductive Transition (v : Vocabulary) (s : State) : Token → State → Prop where
  | opening {t : Token} {pair : DelimiterPair} (h : v.opening? t = some pair)
      (he : s.previous.expectsOperand = true) :
      Transition v s t { s with stack := .delimiter pair :: s.stack, previous := .opening }
  | closing {t : Token} {output : List PostfixToken} {stack : List Entry}
      (ho : v.opening? t = none) (hc : v.isClosing t = true)
      (he : s.previous.expectsOperand = false)
      (h : unwind t s.output s.stack = .ok (output, stack)) :
      Transition v s t ⟨output, stack, .closing⟩
  | operator {op : Operator} (hd : v.isDelimiter op.symbol = false)
      (hop : op ∈ v.operators.operators)
      (he : s.previous.expectsOperand = decide (op.arity = .unary .before)) :
      Transition v s op.symbol (s.push op)
  | operand {t : Token} (h : v.IsValue t) (he : s.previous.expectsOperand = true) :
      Transition v s t { s with output := .value t :: s.output, previous := .operand }

/-- What a token leads to: a state that some transition reaches, or a fault that names the token. -/
def Outcome (v : Vocabulary) (s : State) (position : Nat) (t : Token) :
    Except ShuntFault State → Prop
  | .ok s' => Transition v s t s'
  | .error fault => fault.Names t position

theorem outcome_readOpening {pair : DelimiterPair} (h : v.opening? t = some pair) :
    Outcome v s position t (s.readOpening position pair t) := by
  unfold readOpening
  split
  · rename_i he
    exact .opening h he
  · exact ⟨rfl, by simp [position?]⟩

theorem outcome_readClosing (ho : v.opening? t = none) (hc : v.isClosing t = true) :
    Outcome v s position t (s.readClosing position t) := by
  unfold readClosing
  split
  · exact ⟨rfl, nofun⟩
  · split
    · exact ⟨rfl, by simp [position?]⟩
    · rename_i he
      cases hu : unwind t s.output s.stack with
      | error fault => exact names_of_unwind hu position
      | ok result => exact .closing ho hc (Bool.eq_false_iff.2 he) hu

theorem outcome_readOperator (hd : v.isDelimiter t = false) :
    Outcome v s position t (s.readOperator position v.operators t) := by
  unfold readOperator
  split
  · rename_i he
    split
    · rename_i op hop
      obtain ⟨hm, ha, rfl⟩ := OperatorSet.before?_eq_some_iff.1 hop
      exact .operator hd hm (by simp [he, ha])
    · split
      · exact ⟨rfl, nofun⟩
      · exact ⟨rfl, by simp [position?]⟩
  · rename_i he
    split
    · rename_i op hop
      obtain ⟨hm, ha, rfl⟩ := OperatorSet.after?_eq_some_iff.1 hop
      exact .operator hd hm (by simp [he, ha])
    · exact ⟨rfl, by simp [position?]⟩

theorem outcome_readOperand (h : v.IsValue t) :
    Outcome v s position t (s.readOperand position t) := by
  unfold readOperand
  split
  · rename_i he
    exact .operand h he
  · exact ⟨rfl, by simp [position?]⟩

theorem outcome_step (v : Vocabulary) (s : State) (position : Nat) (t : Token) :
    Outcome v s position t (s.step v position t) := by
  unfold step
  cases ho : v.opening? t with
  | some pair => exact outcome_readOpening ho
  | none =>
    cases hc : v.isClosing t with
    | true => exact outcome_readClosing ho hc
    | false =>
      have hd : v.isDelimiter t = false := Vocabulary.isDelimiter_eq_false_iff.2 ⟨ho, hc⟩
      cases hn : v.operators.contains t with
      | true => exact outcome_readOperator hd
      | false => exact outcome_readOperand ⟨hd, hn⟩

theorem transition_of_step (h : s.step v position t = .ok s') : Transition v s t s' := by
  have ho := outcome_step v s position t
  rwa [h] at ho

theorem names_of_step {fault : ShuntFault} (h : s.step v position t = .error fault) :
    fault.Names t position := by
  have ho := outcome_step v s position t
  rwa [h] at ho

theorem steps_append (v : Vocabulary) (position : Nat) (s : State) (ts us : List Token) :
    s.steps v position (ts ++ us) =
      s.steps v position ts >>= fun s' => s'.steps v (position + ts.length) us := by
  induction ts generalizing position s with
  | nil => rfl
  | cons t ts ih =>
    rw [List.cons_append, steps, steps]
    cases s.step v position t with
    | error => rfl
    | ok s' =>
      have he : position + 1 + ts.length = position + (t :: ts).length := by
        rw [List.length_cons]
        omega
      rw [← he]
      exact ih (position + 1) s'

theorem steps_append_singleton_eq_ok_iff {ts : List Token} :
    s.steps v position (ts ++ [t]) = .ok s' ↔
      ∃ s₁, s.steps v position ts = .ok s₁ ∧ s₁.step v (position + ts.length) t = .ok s' := by
  rw [steps_append, bind_eq_ok_iff]
  refine exists_congr fun s₁ => and_congr_right fun _ => ?_
  rw [steps, bind_eq_ok_iff]
  constructor
  · rintro ⟨s₂, hs, ⟨⟩⟩
    exact hs
  · exact fun hs => ⟨s', hs, rfl⟩

/-- Reading fails at the first token that cannot be read. -/
theorem exists_of_steps_eq_error {ts : List Token} {fault : ShuntFault}
    (h : s.steps v position ts = .error fault) :
    ∃ earlier t later s₁, ts = earlier ++ t :: later ∧ s.steps v position earlier = .ok s₁ ∧
      s₁.step v (position + earlier.length) t = .error fault := by
  induction ts generalizing position s with
  | nil => cases h
  | cons t ts ih =>
    cases hs : s.step v position t with
    | error fault' =>
      rw [steps, hs] at h
      cases h
      exact ⟨[], t, ts, s, rfl, rfl, hs⟩
    | ok s₁ =>
      rw [steps, hs] at h
      obtain ⟨earlier, u, later, s₂, rfl, he, hu⟩ := ih h
      refine ⟨t :: earlier, u, later, s₂, rfl, ?_, ?_⟩
      · rw [steps, hs]
        exact he
      · rw [List.length_cons, Nat.add_comm earlier.length, ← Nat.add_assoc]
        exact hu

end State

/-- The pair of an entry whose closing delimiter has not been read. -/
def Entry.pair? : Entry → Option DelimiterPair
  | .operator _ => none
  | .delimiter pair => some pair

/-- At the end the innermost of the open pairs is at fault. -/
theorem flush_eq_error_iff {output : List PostfixToken} {stack : List Entry} {fault : ShuntFault} :
    flush output stack = .error fault ↔
      ∃ p, (stack.filterMap Entry.pair?).head? = some p ∧ fault = .unclosedDelimiter p.opening := by
  fun_induction flush output stack with
  | case1 => simp
  | case2 output op stack ih => exact ih
  | case3 output pair stack => simp [Entry.pair?, eq_comm]

/-- A run fails where a token cannot be read or a pair is left open. -/
theorem run_eq_error_iff {ts : List Token} {fault : ShuntFault} :
    run v ts = .error fault ↔ State.initial.steps v 0 ts = .error fault ∨
      ∃ s, State.initial.steps v 0 ts = .ok s ∧ flush s.output s.stack = .error fault := by
  rw [run]
  cases hs : State.initial.steps v 0 ts with
  | error fault' => simp [bind, Except.bind]
  | ok s =>
    cases hf : flush s.output s.stack with
    | error fault' => simp [bind, Except.bind, hf]
    | ok out =>
      have hl : out.length = (ts.filter fun t => !v.isDelimiter t).length := by
        simpa using (symbols_of_flush hs hf).length_eq
      simp [bind, Except.bind, hf, hl, pure, Except.pure]

/-- Every fault of a run names a token that cannot be read or a delimiter that is not closed. -/
theorem names_or_unclosed_of_run {ts : List Token} {fault : ShuntFault}
    (h : run v ts = .error fault) :
    (∃ t position, fault.Names t position) ∨ ∃ d, fault = .unclosedDelimiter d := by
  rcases run_eq_error_iff.1 h with hs | ⟨s, -, hf⟩
  · obtain ⟨earlier, t, later, s₁, -, -, ht⟩ := State.exists_of_steps_eq_error hs
    exact .inl ⟨t, _, State.names_of_step ht⟩
  · obtain ⟨p, -, rfl⟩ := flush_eq_error_iff.1 hf
    exact .inr ⟨p.opening, rfl⟩

end Shunting

end Fixity
