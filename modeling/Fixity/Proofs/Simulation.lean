import Fixity.Proofs.Assembly.Soundness
import Fixity.Proofs.Conservation
import Fixity.Proofs.Rebuilding

/-! The postfix machine and assemblies go through the same tokens in the same way. The output holds
the postfix order of every part that has been read, the stack the operators and the delimiters of
the frames. A postfix operator, although its operand is complete, stays on the stack until the next
operator or delimiter comes. -/
namespace Fixity

open Shunting

variable {v : Vocabulary}

namespace Bracketing

/-- The postfix order, its last element first. -/
def output (r : Bracketing) : List PostfixToken := r.tree.postfixOrder.reverse

@[simp] theorem output_value (t : Token) : (value t).output = [.value t] := by
  simp [output, tree]

@[simp] theorem output_before (op : Operator) (r : Bracketing) :
    (before op r).output = .ofOperator op :: r.output := by
  simp [output, tree]

@[simp] theorem output_after (op : Operator) (r : Bracketing) :
    (after op r).output = .ofOperator op :: r.output := by
  simp [output, tree]

@[simp] theorem output_binary (op : Operator) (l r : Bracketing) :
    (binary op l r).output = .ofOperator op :: (r.output ++ l.output) := by
  simp [output, tree]

@[simp] theorem output_enclosed (p : DelimiterPair) (r : Bracketing) :
    (enclosed p r).output = r.output := rfl

theorem output_ne_nil (r : Bracketing) : r.output ≠ [] := by
  induction r with
  | enclosed p r ih => exact ih
  | _ => simp

/-- What is already in the output when the bracketing has just been read. -/
def released : Bracketing → List PostfixToken
  | after _ r => r.output
  | r => r.output

/-- What is still on the stack then. -/
def waiting : Bracketing → List PostfixToken
  | after op _ => [.ofOperator op]
  | _ => []

theorem released_ne_nil (r : Bracketing) : r.released ≠ [] := by
  cases r with
  | after op r => exact r.output_ne_nil
  | _ => exact output_ne_nil _

theorem Over.proper {r : Bracketing} (h : r.Over v) : r.tree.Proper := by
  induction r with
  | value t => exact .value t
  | before op r ih => exact .unary (by simp [h.1.2, Arity.argCount]) (ih h.2)
  | after op r ih => exact .unary (by simp [h.1.2, Arity.argCount]) (ih h.2)
  | binary op l r ihl ihr =>
    exact .binary (by simp [h.1.2, Arity.argCount]) (ihl h.2.1) (ihr h.2.2)
  | enclosed p r ih => exact ih h.2

end Bracketing

namespace Frame

def entry : Frame → Entry
  | before op => .operator (.ofOperator op)
  | binary op _ => .operator (.ofOperator op)
  | opened p => .delimiter p

def output : Frame → List PostfixToken
  | binary _ l => l.output
  | _ => []

theorem output_fill {f : Frame} {op : PostfixToken} (h : f.entry = .operator op) (r : Bracketing) :
    (f.fill r).output = op :: (r.output ++ f.output) := by
  cases f with
  | opened => cases h
  | before b =>
    cases h
    simp [fill, output]
  | binary b l =>
    cases h
    simp [fill, output]

theorem exists_entry_of_isOperator {f : Frame} (h : f.isOperator = true) :
    ∃ op, f.entry = .operator op := by
  cases f with
  | opened => cases h
  | _ => exact ⟨_, rfl⟩

end Frame

namespace Assembly

/-- The state of the postfix machine after the same tokens. -/
inductive Represents : Assembly → State → Prop where
  | waiting (fs : List Frame) {previous : Previous} (h : previous.expectsOperand = true) :
      Represents ⟨fs, none⟩ ⟨fs.flatMap Frame.output, fs.map Frame.entry, previous⟩
  | complete {fs : List Frame} {r : Bracketing} {previous : Previous}
      (h : previous.expectsOperand = false) :
      Represents ⟨fs, some r⟩ ⟨r.released ++ fs.flatMap Frame.output,
        r.waiting.map .operator ++ fs.map Frame.entry, previous⟩

/-- Both fail, or both go on in states that belong together. -/
def Agree : Option Assembly → Except ShuntFault State → Prop
  | some a, .ok s => Represents a s
  | none, .error _ => True
  | _, _ => False

theorem represents_initial : Represents initial State.initial := .waiting [] rfl

/-- A function of output and stack that is not changed by moving `op`. -/
def Moves {α : Type} (F : List PostfixToken → List Entry → α) (op : PostfixToken) : Prop :=
  ∀ output stack, F output (.operator op :: stack) = F (op :: output) stack

/-- Moving operators to the output is filling the frames. -/
theorem eq_collapse_of_moves {α : Type} {F : List PostfixToken → List Entry → α}
    {p : Frame → Bool} (hp : ∀ f, p f = true → ∃ op, f.entry = .operator op ∧ Moves F op)
    {r r' : Bracketing} {fs fs' : List Frame} (h : collapse p r fs = (r', fs')) :
    F (r.output ++ fs.flatMap Frame.output) (fs.map Frame.entry) =
      F (r'.output ++ fs'.flatMap Frame.output) (fs'.map Frame.entry) := by
  induction fs generalizing r with
  | nil =>
    cases h
    rfl
  | cons f fs ih =>
    rw [collapse] at h
    split at h
    · rename_i hf
      obtain ⟨op, he, hm⟩ := hp f hf
      rw [← ih h, Frame.output_fill he, List.map_cons, he, hm]
      simp
    · cases h
      rfl

theorem eq_of_moves_waiting {α : Type} {F : List PostfixToken → List Entry → α} {r : Bracketing}
    (h : ∀ op ∈ r.waiting, Moves F op) (output : List PostfixToken) (stack : List Entry) :
    F (r.released ++ output) (r.waiting.map .operator ++ stack) = F (r.output ++ output) stack := by
  cases r with
  | after op r =>
    have hm := h (.ofOperator op) (List.mem_singleton_self _)
    simpa [Bracketing.waiting, Bracketing.released] using hm _ _
  | _ => rfl

theorem moves_release {op incoming : Operator} (h : op.appliesBefore incoming = true) :
    Moves (release (.ofOperator incoming)) (.ofOperator op) := fun _ _ => if_pos h

theorem release_of_fits {op : Operator} {fs : List Frame} (h : Fits [op] fs)
    (output : List PostfixToken) : release (.ofOperator op) output (fs.map Frame.entry) =
      (output, fs.map Frame.entry) := by
  cases fs with
  | nil => rfl
  | cons f fs =>
    have hf := h op (List.mem_singleton_self op)
    cases f with
    | opened => rfl
    | before b => exact if_neg (Bool.eq_false_iff.1 hf)
    | binary b l => exact if_neg (Bool.eq_false_iff.1 hf)

/-- `op` takes the same operators off the stack as off the frames. -/
theorem release_collapse {op : Operator} {r r' : Bracketing} {fs fs' : List Frame} (hr : r.Over v)
    (h : collapse (Frame.appliesBefore op) r fs = (r', fs')) :
    release (.ofOperator op) (r.released ++ fs.flatMap Frame.output)
        (r.waiting.map .operator ++ fs.map Frame.entry) =
      (r'.output ++ fs'.flatMap Frame.output, fs'.map Frame.entry) := by
  have hw : ∀ x ∈ r.waiting, Moves (release (.ofOperator op)) x := by
    cases r with
    | after x r =>
      have hm := moves_release (Operator.appliesBefore_of_after hr.1.2 op)
      simpa [Bracketing.waiting] using hm
    | _ => simp [Bracketing.waiting]
  have hp : ∀ f : Frame, f.appliesBefore op = true →
      ∃ x, f.entry = .operator x ∧ Moves (release (.ofOperator op)) x := by
    intro f hf
    cases f with
    | opened => cases hf
    | _ => exact ⟨_, rfl, moves_release hf⟩
  have hfit := fits_collapse op r fs
  rw [h] at hfit
  calc
    _ = _ := eq_of_moves_waiting hw _ _
    _ = _ := eq_collapse_of_moves hp h
    _ = _ := release_of_fits hfit _

/-- Where all operators are moved, they are moved as all frames are filled. -/
theorem eq_collapse_isOperator {α : Type} {F : List PostfixToken → List Entry → α}
    (hm : ∀ op, Moves F op) {r r' : Bracketing} {fs fs' : List Frame}
    (h : collapse Frame.isOperator r fs = (r', fs')) :
    F (r.released ++ fs.flatMap Frame.output) (r.waiting.map .operator ++ fs.map Frame.entry) =
      F (r'.output ++ fs'.flatMap Frame.output) (fs'.map Frame.entry) := by
  have hp : ∀ f : Frame, f.isOperator = true → ∃ op, f.entry = .operator op ∧ Moves F op := by
    intro f hf
    obtain ⟨op, he⟩ := Frame.exists_entry_of_isOperator hf
    exact ⟨op, he, hm op⟩
  exact (eq_of_moves_waiting (fun op _ => hm op) _ _).trans (eq_collapse_of_moves hp h)

theorem unwind_collapse {r r' : Bracketing} {fs fs' : List Frame}
    (h : collapse Frame.isOperator r fs = (r', fs')) (closing : Token) :
    unwind closing (r.released ++ fs.flatMap Frame.output)
        (r.waiting.map .operator ++ fs.map Frame.entry) =
      unwind closing (r'.output ++ fs'.flatMap Frame.output) (fs'.map Frame.entry) :=
  eq_collapse_isOperator (F := unwind closing) (fun _ _ _ => rfl) h

theorem flush_collapse {r r' : Bracketing} {fs fs' : List Frame}
    (h : collapse Frame.isOperator r fs = (r', fs')) :
    flush (r.released ++ fs.flatMap Frame.output)
        (r.waiting.map .operator ++ fs.map Frame.entry) =
      flush (r'.output ++ fs'.flatMap Frame.output) (fs'.map Frame.entry) :=
  eq_collapse_isOperator (F := flush) (fun _ _ _ => rfl) h

/-- Filling all operators ends before an open delimiter or with no frames. -/
theorem collapse_isOperator_eq {r r' : Bracketing} {fs fs' : List Frame}
    (h : collapse Frame.isOperator r fs = (r', fs')) :
    fs' = [] ∨ ∃ p rest, fs' = .opened p :: rest := by
  induction fs generalizing r with
  | nil =>
    cases h
    exact .inl rfl
  | cons f fs ih =>
    rw [collapse] at h
    split at h
    · exact ih h
    · rename_i hf
      cases h
      cases f with
      | opened p => exact .inr ⟨p, fs, rfl⟩
      | _ => exact absurd rfl hf

theorem agree_readOpening {a : Assembly} {s : State} (h : Represents a s) (position : Nat)
    (p : DelimiterPair) (t : Token) : Agree (a.readOpening p) (s.readOpening position p t) := by
  cases h with
  | waiting _ h =>
    simp only [readOpening, State.readOpening, if_pos h]
    exact .waiting (.opened p :: _) rfl
  | complete h => simp [readOpening, State.readOpening, h, Agree]

theorem agree_readOperand {a : Assembly} {s : State} (h : Represents a s) (position : Nat)
    (t : Token) : Agree (a.readOperand t) (s.readOperand position t) := by
  cases h with
  | waiting _ h =>
    simp only [readOperand, State.readOperand, if_pos h]
    exact .complete (r := .value t) rfl
  | complete h => simp [readOperand, State.readOperand, h, Agree]

theorem agree_readClosing {a : Assembly} {s : State} (h : Represents a s) (position : Nat)
    (t : Token) : Agree (a.readClosing t) (s.readClosing position t) := by
  cases h with
  | waiting _ h =>
    simp only [readClosing, State.readClosing, h]
    split <;> trivial
  | @complete fs r previous h =>
    have hne : (r.released ++ fs.flatMap Frame.output).isEmpty = false := by
      simp [r.released_ne_nil]
    rcases hcol : collapse Frame.isOperator r fs with ⟨r', fs'⟩
    simp only [readClosing, State.readClosing, h, hne, hcol, unwind_collapse hcol]
    obtain rfl | ⟨p, rest, rfl⟩ := collapse_isOperator_eq hcol
    · trivial
    · by_cases hp : p.closing = t
      · simp only [List.map_cons, Frame.entry, unwind, if_pos hp]
        exact .complete (r := .enclosed p r') rfl
      · simp only [List.map_cons, Frame.entry, unwind, if_neg hp]
        trivial

theorem agree_readOperator {a : Assembly} {s : State} (h : Represents a s) (ha : Sound v a)
    (position : Nat) (t : Token) :
    Agree (a.readOperator v.operators t) (s.readOperator position v.operators t) := by
  cases h with
  | waiting fs h =>
    cases hop : v.operators.before? t with
    | none =>
      simp only [readOperator, State.readOperator, if_pos h, hop, Option.map_none]
      split <;> exact trivial
    | some op =>
      obtain ⟨-, hb, -⟩ := OperatorSet.before?_eq_some_iff.1 hop
      have hfit : Fits [op] fs := by
        cases fs with
        | nil => trivial
        | cons f fs => simp [Fits, ha.frames.1.appliesBefore_eq_false hb]
      have hprev : (Previous.operator op.arity).expectsOperand = true := by rw [hb]; rfl
      simp only [readOperator, State.readOperator, if_pos h, hop, State.push, release_of_fits hfit]
      exact .waiting (.before op :: fs) hprev
  | @complete fs r previous h =>
    cases hop : v.operators.after? t with
    | none => simp [readOperator, State.readOperator, h, hop, Agree]
    | some op =>
      obtain ⟨-, hb, -⟩ := OperatorSet.after?_eq_some_iff.1 hop
      rcases hcol : collapse (Frame.appliesBefore op) r fs with ⟨r', fs'⟩
      simp only [readOperator, State.readOperator, h, hop, State.push, hcol, Option.map_some,
        release_collapse (ha.operand r rfl).isOver hcol]
      by_cases hbin : op.arity = .binary
      · have hprev : (Previous.operator op.arity).expectsOperand = true := by rw [hbin]; rfl
        simp only [push, if_pos hbin]
        exact .waiting (.binary op r' :: fs') hprev
      · have haf : op.arity = .unary .after := by
          by_contra hne
          exact hbin (Arity.eq_binary hb hne)
        have hprev : (Previous.operator op.arity).expectsOperand = false := by rw [haf]; rfl
        simp only [push, if_neg hbin]
        exact .complete (r := .after op r') hprev

theorem agree_step {a : Assembly} {s : State} (h : Represents a s) (ha : Sound v a)
    (position : Nat) (t : Token) : Agree (a.step v t) (s.step v position t) := by
  unfold step State.step
  cases v.opening? t with
  | some p => exact agree_readOpening h position p t
  | none =>
    cases v.isClosing t with
    | true => exact agree_readClosing h position t
    | false =>
      cases v.operators.contains t with
      | true => exact agree_readOperator h ha position t
      | false => exact agree_readOperand h position t

theorem agree_steps {a : Assembly} {s : State} (h : Represents a s) (ha : Sound v a)
    (position : Nat) (ts : List Token) : Agree (a.steps v ts) (s.steps v position ts) := by
  induction ts generalizing a s position with
  | nil => exact h
  | cons t ts ih =>
    have hs := agree_step h ha position t
    rw [steps, State.steps]
    cases hr : a.step v t with
    | none =>
      cases hr' : s.step v position t with
      | error => trivial
      | ok => simp [hr, hr', Agree] at hs
    | some a' =>
      cases hr' : s.step v position t with
      | error => simp [hr, hr', Agree] at hs
      | ok s' =>
        rw [hr, hr'] at hs
        exact ih hs (ha.step (step_eq_some_iff.1 hr)) (position + 1)

/-- After tokens that can be read there are both an assembly and a state, which belong together. -/
theorem exists_represents_of_state {ts : List Token} {s : State}
    (h : State.initial.steps v 0 ts = .ok s) :
    ∃ a, initial.steps v ts = some a ∧ Represents a s := by
  have hagree := agree_steps represents_initial (sound_initial (v := v)) 0 ts
  rw [h] at hagree
  cases ha : initial.steps v ts with
  | none => simp [ha, Agree] at hagree
  | some a =>
    rw [ha] at hagree
    exact ⟨a, rfl, hagree⟩

theorem exists_represents_of_assembly {ts : List Token} {a : Assembly}
    (h : initial.steps v ts = some a) :
    ∃ s, State.initial.steps v 0 ts = .ok s ∧ Represents a s := by
  have hagree := agree_steps represents_initial (sound_initial (v := v)) 0 ts
  rw [h] at hagree
  cases hs : State.initial.steps v 0 ts with
  | error => simp [hs, Agree] at hagree
  | ok s =>
    rw [hs] at hagree
    exact ⟨s, rfl, hagree⟩

end Assembly

end Fixity
