import Fixity.Proofs.Except
import Fixity.Proofs.Vocabulary
import Mathlib.Data.List.Perm.Basic

/-! The postfix machine neither loses nor doubles a token: its output and its stack together hold
the tokens read so far that are no delimiters. So the check of the number of tokens at the end of a
run never fails. -/
namespace Fixity

namespace Shunting

def Entry.operator? : Entry → Option PostfixToken
  | .operator op => some op
  | .delimiter _ => none

/-- The elements in an output and on a stack. -/
def held (output : List PostfixToken) (stack : List Entry) : List PostfixToken :=
  output ++ stack.filterMap Entry.operator?

def State.held (s : State) : List PostfixToken := Shunting.held s.output s.stack

/-- Moving operators from the top of the stack to the output. -/
theorem held_move (ops output : List PostfixToken) (stack : List Entry) :
    (held (ops.reverse ++ output) stack).Perm (held output (ops.map .operator ++ stack)) := by
  have hops : (ops.map Entry.operator).filterMap Entry.operator? = ops := by
    simp [List.filterMap_map, Function.comp_def, Entry.operator?]
  rw [held, held, List.filterMap_append, hops, ← List.append_assoc]
  exact (List.perm_append_comm.trans ((List.reverse_perm ops).append_left output)).append_right _

/-- The operators that an incoming one releases are on top of the stack. -/
theorem exists_release (incoming : PostfixToken) (output : List PostfixToken)
    (stack : List Entry) : ∃ ops : List PostfixToken,
      stack = ops.map .operator ++ (release incoming output stack).2 ∧
        (release incoming output stack).1 = ops.reverse ++ output := by
  fun_induction release incoming output stack with
  | case1 output op stack _ ih =>
    obtain ⟨ops, hstack, houtput⟩ := ih
    refine ⟨op :: ops, ?_, by simp [houtput]⟩
    rw [List.map_cons, List.cons_append, ← hstack]
  | case2 => exact ⟨[], rfl, rfl⟩
  | case3 => exact ⟨[], rfl, rfl⟩

/-- A closing delimiter moves all operators above the innermost open pair, which it closes. -/
theorem exists_of_unwind {closing : Token} {output output' : List PostfixToken}
    {stack stack' : List Entry} (h : unwind closing output stack = .ok (output', stack')) :
    ∃ (ops : List PostfixToken) (pair : DelimiterPair),
      stack = ops.map .operator ++ .delimiter pair :: stack' ∧ pair.closing = closing ∧
        output' = ops.reverse ++ output := by
  fun_induction unwind closing output stack with
  | case1 => cases h
  | case2 output op stack ih =>
    obtain ⟨ops, pair, rfl, hpair, rfl⟩ := ih h
    exact ⟨op :: ops, pair, rfl, hpair, by simp⟩
  | case3 output pair stack hpair =>
    cases h
    exact ⟨[], pair, rfl, hpair, rfl⟩
  | case4 => cases h

theorem held_release (incoming : PostfixToken) (output : List PostfixToken) (stack : List Entry) :
    (held (release incoming output stack).1 (release incoming output stack).2).Perm
      (held output stack) := by
  obtain ⟨ops, hstack, houtput⟩ := exists_release incoming output stack
  have hmove := held_move ops output (release incoming output stack).2
  rwa [← hstack, ← houtput] at hmove

theorem held_of_unwind {closing : Token} {output output' : List PostfixToken}
    {stack stack' : List Entry} (h : unwind closing output stack = .ok (output', stack')) :
    (held output' stack').Perm (held output stack) := by
  obtain ⟨ops, pair, rfl, -, rfl⟩ := exists_of_unwind h
  exact held_move ops output (.delimiter pair :: stack')

/-- At the end the stack holds operators only, which follow the output from the top down. -/
theorem flush_eq_ok_iff {output out : List PostfixToken} {stack : List Entry} :
    flush output stack = .ok out ↔
      ∃ ops : List PostfixToken, stack = ops.map .operator ∧ out = ops.reverse ++ output := by
  fun_induction flush output stack with
  | case1 output =>
    constructor
    · rintro ⟨⟩
      exact ⟨[], rfl, rfl⟩
    · rintro ⟨ops, h, rfl⟩
      obtain rfl := List.map_eq_nil_iff.1 h.symm
      rfl
  | case2 output op stack ih =>
    rw [ih]
    constructor
    · rintro ⟨ops, rfl, rfl⟩
      exact ⟨op :: ops, rfl, by simp⟩
    · rintro ⟨ops, h, rfl⟩
      obtain ⟨op', ops, rfl, hop, rfl⟩ := List.map_eq_cons_iff.1 h.symm
      cases hop
      exact ⟨ops, rfl, by simp⟩
  | case3 output pair stack =>
    constructor
    · rintro ⟨⟩
    · rintro ⟨ops, h, rfl⟩
      obtain ⟨_, _, _, hop, _⟩ := List.map_eq_cons_iff.1 h.symm
      cases hop

theorem held_of_flush {output out : List PostfixToken} {stack : List Entry}
    (h : flush output stack = .ok out) : out.Perm (held output stack) := by
  obtain ⟨ops, rfl, rfl⟩ := flush_eq_ok_iff.1 h
  simpa [held] using held_move ops output []

namespace State

variable {v : Vocabulary} {s s' : State} {position : Nat} {t : Token}

theorem held_push (s : State) (op : Operator) :
    (s.push op).held.Perm (.ofOperator op :: s.held) := by
  have h := held_release (.ofOperator op) s.output s.stack
  simp only [push, held, Shunting.held, Entry.operator?, List.filterMap_cons] at h ⊢
  exact List.perm_middle.trans (h.cons _)

theorem held_of_readOpening {pair : DelimiterPair}
    (h : s.readOpening position pair t = .ok s') : s'.held = s.held := by
  unfold readOpening at h
  split at h <;> cases h
  rfl

theorem held_of_readClosing (h : s.readClosing position t = .ok s') : s'.held.Perm s.held := by
  unfold readClosing at h
  split at h
  · cases h
  · split at h
    · cases h
    · obtain ⟨⟨output, stack⟩, hu, h⟩ := bind_eq_ok_iff.1 h
      cases h
      exact held_of_unwind hu

/-- An operator adds the element of an operator with the token as its symbol. -/
theorem held_of_readOperator {operators : OperatorSet}
    (h : s.readOperator position operators t = .ok s') :
    ∃ op ∈ operators.operators, op.symbol = t ∧ s'.held.Perm (.ofOperator op :: s.held) := by
  unfold readOperator at h
  split at h
  · split at h
    · rename_i op hop
      cases h
      obtain ⟨hm, -, ht⟩ := OperatorSet.before?_eq_some_iff.1 hop
      exact ⟨op, hm, ht, held_push s op⟩
    · split at h <;> cases h
  · split at h
    · rename_i op hop
      cases h
      obtain ⟨hm, -, ht⟩ := OperatorSet.after?_eq_some_iff.1 hop
      exact ⟨op, hm, ht, held_push s op⟩
    · cases h

theorem held_of_readOperand (h : s.readOperand position t = .ok s') :
    s'.held = .value t :: s.held := by
  unfold readOperand at h
  split at h <;> cases h
  rfl

/-- Each token that is no delimiter adds one element with it as the only symbol. -/
theorem symbols_of_step (h : s.step v position t = .ok s') :
    (s'.held.map PostfixToken.symbols).Perm
      ((if v.isDelimiter t then [] else [[t]]) ++ s.held.map PostfixToken.symbols) := by
  unfold step at h
  split at h
  · rename_i pair hp
    simp [Vocabulary.isDelimiter, hp, held_of_readOpening h]
  · rename_i ho
    split at h
    · rename_i hc
      simpa [Vocabulary.isDelimiter, hc] using (held_of_readClosing h).map _
    · rename_i hc
      have hd : v.isDelimiter t = false :=
        Vocabulary.isDelimiter_eq_false_iff.2 ⟨ho, Bool.eq_false_iff.2 hc⟩
      split at h
      · obtain ⟨op, -, rfl, hp⟩ := held_of_readOperator h
        simpa [hd] using hp.map PostfixToken.symbols
      · simp [hd, held_of_readOperand h]

theorem symbols_of_steps {ts : List Token} (h : s.steps v position ts = .ok s') :
    (s'.held.map PostfixToken.symbols).Perm
      ((ts.filter fun t => !v.isDelimiter t).map (fun t => [t]) ++
        s.held.map PostfixToken.symbols) := by
  induction ts generalizing s position with
  | nil =>
    cases h
    exact .refl _
  | cons t ts ih =>
    obtain ⟨s₁, hs, h⟩ := bind_eq_ok_iff.1 h
    refine (ih h).trans ?_
    refine ((symbols_of_step hs).append_left _).trans ?_
    by_cases hd : v.isDelimiter t = true
    · simp [hd]
    · rw [Bool.not_eq_true] at hd
      simp [hd]

end State

variable {v : Vocabulary}

/-- The symbols of the postfix order are the tokens that are no delimiters. -/
theorem symbols_of_flush {ts : List Token} {s : State} {out : List PostfixToken}
    (hs : State.initial.steps v 0 ts = .ok s) (hf : flush s.output s.stack = .ok out) :
    (out.map PostfixToken.symbols).Perm
      ((ts.filter fun t => !v.isDelimiter t).map fun t => [t]) := by
  have h := ((held_of_flush hf).map PostfixToken.symbols).trans (State.symbols_of_steps hs)
  simpa [State.held, held, State.initial] using h

/-- The final check of a run is void. -/
theorem run_eq_ok_iff {ts : List Token} {sequence : List PostfixToken} :
    run v ts = .ok sequence ↔
      ∃ s, State.initial.steps v 0 ts = .ok s ∧ flush s.output s.stack = .ok sequence.reverse := by
  simp only [run, bind_eq_ok_iff]
  constructor
  · rintro ⟨s, hs, out, hf, h⟩
    split at h
    · cases h
      exact ⟨s, hs, by rw [List.reverse_reverse, hf]⟩
    · cases h
  · rintro ⟨s, hs, hf⟩
    have hl : sequence.reverse.length = (ts.filter fun t => !v.isDelimiter t).length := by
      simpa using (symbols_of_flush hs hf).length_eq
    refine ⟨s, hs, sequence.reverse, hf, ?_⟩
    rw [if_pos hl, List.reverse_reverse]
    rfl

end Shunting

namespace Vocabulary

open Shunting

variable {v : Vocabulary} {ts : List Token} {sequence : List PostfixToken}

theorem shuntTokens_eq_ok_iff : v.shuntTokens ts = .ok sequence ↔ run v ts = .ok sequence := by
  rw [shuntTokens, shuntFrom, mapError_eq_ok_iff]

theorem shuntTokens_eq_error_iff {e : ShuntError} : v.shuntTokens ts = .error e ↔
    run v ts = .error e.fault ∧ e.input = String.ofList (joinTokens ts) := by
  rw [shuntTokens, shuntFrom, mapError_eq_error_iff]
  constructor
  · rintro ⟨fault, h, rfl⟩
    exact ⟨h, rfl⟩
  · rintro ⟨h, hi⟩
    exact ⟨e.fault, h, by rw [← hi]⟩

end Vocabulary

end Fixity
