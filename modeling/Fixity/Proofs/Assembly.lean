import Fixity.Proofs.Bracketing
import Mathlib.Data.List.Induction

/-! Bracketings under construction. The tokens read so far form a stack of frames, each with an
operand still to come, and perhaps an operand for the innermost frame. Reading on, an assembly fills
frames at the moments at which the postfix machine releases operators, so it shows which tree the
output and the stack of that machine stand for. -/
namespace Fixity

/-- A bracketing with its last part missing: an operand, or a nested expression with what closes
it. -/
inductive Frame where
  | before (op : Operator)
  | binary (op : Operator) (left : Bracketing)
  | opened (pair : DelimiterPair)

namespace Frame

/-- The bracketing that the missing part completes. -/
def fill : Frame → Bracketing → Bracketing
  | before op, r => .before op r
  | binary op l, r => .binary op l r
  | opened p, r => .enclosed p r

def isOperator : Frame → Bool
  | before _ => true
  | binary _ _ => true
  | opened _ => false

/-- The operator of the frame takes the operand that has been read, not `incoming`. -/
def appliesBefore (incoming : Operator) : Frame → Bool
  | before op => op.appliesBefore incoming
  | binary op _ => op.appliesBefore incoming
  | opened _ => false

theorem isOperator_of_appliesBefore {incoming : Operator} {f : Frame}
    (h : f.appliesBefore incoming = true) : f.isOperator = true := by
  cases f with
  | opened => cases h
  | _ => rfl

def tokens : Frame → List Token
  | before op => [op.symbol]
  | binary op l => l.tokens ++ [op.symbol]
  | opened p => [p.opening]

def elements : Frame → List PostfixToken
  | before op => [.ofOperator op]
  | binary op l => l.elements ++ [.ofOperator op]
  | opened _ => []

theorem tokens_fill {f : Frame} (h : f.isOperator = true) (r : Bracketing) :
    (f.fill r).tokens = f.tokens ++ r.tokens := by
  cases f with
  | opened => cases h
  | _ => simp [fill, tokens, Bracketing.tokens]

@[simp] theorem elements_fill (f : Frame) (r : Bracketing) :
    (f.fill r).elements = f.elements ++ r.elements := by
  cases f <;> simp [fill, elements, Bracketing.elements]

end Frame

/-- What has been read of an expression. The innermost frame comes first. -/
structure Assembly where
  frames : List Frame
  operand : Option Bracketing

namespace Assembly

def initial : Assembly := ⟨[], none⟩

/-- Fills the innermost frames as long as they satisfy a condition. -/
def collapse (p : Frame → Bool) : Bracketing → List Frame → Bracketing × List Frame
  | r, [] => (r, [])
  | r, f :: fs => if p f then collapse p (f.fill r) fs else (r, f :: fs)

def readOpening (a : Assembly) (pair : DelimiterPair) : Option Assembly :=
  match a.operand with
  | none => some ⟨.opened pair :: a.frames, none⟩
  | some _ => none

def readClosing (a : Assembly) (t : Token) : Option Assembly :=
  match a.operand with
  | none => none
  | some r =>
    match collapse Frame.isOperator r a.frames with
    | (r, .opened pair :: fs) =>
      if pair.closing = t then some ⟨fs, some (.enclosed pair r)⟩ else none
    | _ => none

/-- What an operator makes of the operand before it. -/
def push (op : Operator) : Bracketing × List Frame → Assembly
  | (r, fs) =>
    if op.arity = .binary then ⟨.binary op r :: fs, none⟩ else ⟨fs, some (.after op r)⟩

def readOperator (a : Assembly) (operators : OperatorSet) (t : Token) : Option Assembly :=
  match a.operand with
  | none => (operators.before? t).map fun op => ⟨.before op :: a.frames, none⟩
  | some r =>
    (operators.after? t).map fun op => push op (collapse (Frame.appliesBefore op) r a.frames)

def readOperand (a : Assembly) (t : Token) : Option Assembly :=
  match a.operand with
  | none => some ⟨a.frames, some (.value t)⟩
  | some _ => none

def step (v : Vocabulary) (a : Assembly) (t : Token) : Option Assembly :=
  match v.opening? t with
  | some pair => a.readOpening pair
  | none =>
    if v.isClosing t then a.readClosing t
    else if v.operators.contains t then a.readOperator v.operators t
    else a.readOperand t

def steps (v : Vocabulary) : Assembly → List Token → Option Assembly
  | a, [] => some a
  | a, t :: ts => (a.step v t).bind fun a => steps v a ts

/-- The bracketing, if nothing is missing. -/
def finish (a : Assembly) : Option Bracketing :=
  match a.operand with
  | none => none
  | some r =>
    match collapse Frame.isOperator r a.frames with
    | (r, []) => some r
    | _ => none

/-- What the next token does to an assembly, by what the token is. -/
inductive Step (v : Vocabulary) : Assembly → Token → Assembly → Prop where
  | opening (fs : List Frame) {p : DelimiterPair} (h : v.opening? p.opening = some p) :
      Step v ⟨fs, none⟩ p.opening ⟨.opened p :: fs, none⟩
  | closing {fs fs' : List Frame} {r r' : Bracketing} {p : DelimiterPair}
      (ho : v.opening? p.closing = none) (hc : v.isClosing p.closing = true)
      (h : collapse Frame.isOperator r fs = (r', .opened p :: fs')) :
      Step v ⟨fs, some r⟩ p.closing ⟨fs', some (.enclosed p r')⟩
  | before (fs : List Frame) {op : Operator} (hop : op ∈ v.operators.operators)
      (ha : op.arity = .unary .before) (hd : v.isDelimiter op.symbol = false) :
      Step v ⟨fs, none⟩ op.symbol ⟨.before op :: fs, none⟩
  | after {fs fs' : List Frame} {r r' : Bracketing} {op : Operator}
      (hop : op ∈ v.operators.operators) (ha : op.arity = .unary .after)
      (hd : v.isDelimiter op.symbol = false)
      (h : collapse (Frame.appliesBefore op) r fs = (r', fs')) :
      Step v ⟨fs, some r⟩ op.symbol ⟨fs', some (.after op r')⟩
  | binary {fs fs' : List Frame} {r r' : Bracketing} {op : Operator}
      (hop : op ∈ v.operators.operators) (ha : op.arity = .binary)
      (hd : v.isDelimiter op.symbol = false)
      (h : collapse (Frame.appliesBefore op) r fs = (r', fs')) :
      Step v ⟨fs, some r⟩ op.symbol ⟨.binary op r' :: fs', none⟩
  | value (fs : List Frame) {t : Token} (h : v.IsValue t) :
      Step v ⟨fs, none⟩ t ⟨fs, some (.value t)⟩

variable {v : Vocabulary}

theorem step_eq_some_of_step {a a' : Assembly} {t : Token} (h : Step v a t a') :
    a.step v t = some a' := by
  cases h with
  | opening _ h => simp [step, h, readOpening]
  | closing ho hc h => simp [step, ho, hc, readClosing, h]
  | before _ hop ha hd =>
    obtain ⟨ho, hc⟩ := Vocabulary.isDelimiter_eq_false_iff.1 hd
    simp [step, ho, hc, OperatorSet.contains_symbol hop, readOperator,
      OperatorSet.before?_eq_some_iff.2 ⟨hop, ha, rfl⟩]
  | after hop ha hd h =>
    obtain ⟨ho, hc⟩ := Vocabulary.isDelimiter_eq_false_iff.1 hd
    simp [step, ho, hc, OperatorSet.contains_symbol hop, readOperator, h, push, ha,
      OperatorSet.after?_eq_some_iff.2 ⟨hop, by simp [ha], rfl⟩]
  | binary hop ha hd h =>
    obtain ⟨ho, hc⟩ := Vocabulary.isDelimiter_eq_false_iff.1 hd
    simp [step, ho, hc, OperatorSet.contains_symbol hop, readOperator, h, push, ha,
      OperatorSet.after?_eq_some_iff.2 ⟨hop, by simp [ha], rfl⟩]
  | value _ h =>
    obtain ⟨ho, hc⟩ := Vocabulary.isDelimiter_eq_false_iff.1 h.1
    simp [step, ho, hc, h.2, readOperand]

theorem step_of_readOperator {a a' : Assembly} {t : Token} (hd : v.isDelimiter t = false)
    (h : a.readOperator v.operators t = some a') : Step v a t a' := by
  obtain ⟨fs, _ | r⟩ := a
  · obtain ⟨op, hop, rfl⟩ := Option.map_eq_some_iff.1 h
    obtain ⟨hm, ha, rfl⟩ := OperatorSet.before?_eq_some_iff.1 hop
    exact .before fs hm ha hd
  · obtain ⟨op, hop, rfl⟩ := Option.map_eq_some_iff.1 h
    obtain ⟨hm, ha, rfl⟩ := OperatorSet.after?_eq_some_iff.1 hop
    by_cases hb : op.arity = .binary
    · simp only [push, if_pos hb]
      exact .binary hm hb hd rfl
    · simp only [push, if_neg hb]
      refine .after hm ?_ hd rfl
      by_contra hf
      exact hb (Arity.eq_binary ha hf)

theorem step_of_readClosing {a a' : Assembly} {t : Token} (ho : v.opening? t = none)
    (hc : v.isClosing t = true) (h : a.readClosing t = some a') : Step v a t a' := by
  obtain ⟨fs, _ | r⟩ := a
  · cases h
  · simp only [readClosing] at h
    split at h
    · rename_i r' p fs' hcol
      split at h
      · rename_i hp
        cases h
        subst hp
        exact .closing ho hc hcol
      · cases h
    · cases h

theorem step_eq_some_iff {a a' : Assembly} {t : Token} :
    a.step v t = some a' ↔ Step v a t a' := by
  refine ⟨fun h => ?_, step_eq_some_of_step⟩
  unfold step at h
  split at h
  · rename_i p hp
    obtain ⟨fs, _ | r⟩ := a
    · cases h
      obtain rfl := Vocabulary.opening_of_opening? hp
      exact .opening fs hp
    · cases h
  · rename_i ho
    split at h
    · rename_i hc
      exact step_of_readClosing ho hc h
    · rename_i hc
      have hd : v.isDelimiter t = false :=
        Vocabulary.isDelimiter_eq_false_iff.2 ⟨ho, Bool.eq_false_iff.2 hc⟩
      split at h
      · exact step_of_readOperator hd h
      · rename_i hn
        obtain ⟨fs, _ | r⟩ := a
        · cases h
          exact .value fs ⟨hd, Bool.eq_false_iff.2 hn⟩
        · cases h

theorem steps_append (a : Assembly) (ts us : List Token) :
    a.steps v (ts ++ us) = (a.steps v ts).bind fun b => b.steps v us := by
  induction ts generalizing a with
  | nil => rfl
  | cons t ts ih =>
    simp only [List.cons_append, steps, Option.bind_assoc]
    congr 1
    funext b
    exact ih b

theorem steps_trans {a b c : Assembly} {ts us : List Token} (h : a.steps v ts = some b)
    (h' : b.steps v us = some c) : a.steps v (ts ++ us) = some c := by
  rw [steps_append, h]
  exact h'

theorem Step.steps {a b : Assembly} {t : Token} (h : Step v a t b) : a.steps v [t] = some b := by
  simp [Assembly.steps, step_eq_some_of_step h]

/-- Two ways to write a frame and a bracketing, put together for the whole assembly. -/
def written {α : Type} (ofFrame : Frame → List α) (ofBracketing : Bracketing → List α) :
    Assembly → List α
  | ⟨fs, none⟩ => fs.reverse.flatMap ofFrame
  | ⟨fs, some r⟩ => fs.reverse.flatMap ofFrame ++ ofBracketing r

/-- All tokens that have been read. -/
def tokens : Assembly → List Token := written Frame.tokens Bracketing.tokens

/-- The values and operators that have been read. -/
def elements : Assembly → List PostfixToken := written Frame.elements Bracketing.elements

/-- Filling frames changes nothing in what is written. -/
theorem written_collapse {α : Type} {ofFrame : Frame → List α} {ofBracketing : Bracketing → List α}
    {p : Frame → Bool}
    (h : ∀ f r, p f = true → ofBracketing (f.fill r) = ofFrame f ++ ofBracketing r)
    (r : Bracketing) (fs : List Frame) :
    written ofFrame ofBracketing ⟨(collapse p r fs).2, some (collapse p r fs).1⟩ =
      written ofFrame ofBracketing ⟨fs, some r⟩ := by
  induction fs generalizing r with
  | nil => rfl
  | cons f fs ih =>
    rw [collapse]
    split
    · rename_i hf
      rw [ih, written, written, h f r hf]
      simp
    · rfl

theorem tokens_collapse {p : Frame → Bool} (hp : ∀ f, p f = true → f.isOperator = true)
    {r r' : Bracketing} {fs fs' : List Frame} (h : collapse p r fs = (r', fs')) :
    tokens ⟨fs', some r'⟩ = tokens ⟨fs, some r⟩ := by
  have hw := written_collapse (fun f r hf => Frame.tokens_fill (hp f hf) r) r fs
  rw [h] at hw
  exact hw

theorem elements_collapse {p : Frame → Bool} {r r' : Bracketing} {fs fs' : List Frame}
    (h : collapse p r fs = (r', fs')) : elements ⟨fs', some r'⟩ = elements ⟨fs, some r⟩ := by
  have hw := written_collapse (p := p) (fun f r _ => Frame.elements_fill f r) r fs
  rw [h] at hw
  exact hw

theorem Step.tokens {a a' : Assembly} {t : Token} (h : Step v a t a') :
    a'.tokens = a.tokens ++ [t] := by
  cases h with
  | opening => simp [Assembly.tokens, written, Frame.tokens]
  | closing ho hc h =>
    rw [← tokens_collapse (fun _ h => h) h]
    simp [Assembly.tokens, written, Frame.tokens, Bracketing.tokens]
  | before => simp [Assembly.tokens, written, Frame.tokens]
  | after hop ha hd h =>
    rw [← tokens_collapse (fun _ => Frame.isOperator_of_appliesBefore) h]
    simp [Assembly.tokens, written, Bracketing.tokens]
  | binary hop ha hd h =>
    rw [← tokens_collapse (fun _ => Frame.isOperator_of_appliesBefore) h]
    simp [Assembly.tokens, written, Frame.tokens]
  | value => simp [Assembly.tokens, written, Bracketing.tokens]

/-- What each step preserves, a run preserves. -/
theorem steps_induction {P : List Token → Assembly → Prop} {a b : Assembly} {ts : List Token}
    (h : a.steps v ts = some b) (h₀ : P [] a)
    (hs : ∀ {ts a t a'}, P ts a → Step v a t a' → P (ts ++ [t]) a') : P ts b := by
  induction ts using List.reverseRecOn generalizing b with
  | nil => cases h; exact h₀
  | append_singleton ts t ih =>
    rw [steps_append] at h
    obtain ⟨c, hc, h⟩ := Option.bind_eq_some_iff.1 h
    rw [Assembly.steps, Option.bind_eq_some_iff] at h
    obtain ⟨d, hd, h⟩ := h
    cases h
    exact hs (ih hc) (step_eq_some_iff.1 hd)

theorem finish_eq_some_iff {a : Assembly} {r : Bracketing} :
    a.finish = some r ↔
      ∃ r₀, a.operand = some r₀ ∧ collapse Frame.isOperator r₀ a.frames = (r, []) := by
  obtain ⟨fs, _ | r₀⟩ := a
  · simp [finish]
  · simp only [finish, Option.some.injEq, exists_eq_left']
    split
    · rename_i r' h
      simp [h]
    · rename_i h
      simpa using fun hr => h r hr

end Assembly

/-- The bracketing of some tokens in which operators go before others as the vocabulary has it. -/
def Vocabulary.read? (v : Vocabulary) (ts : List Token) : Option Bracketing :=
  (Assembly.initial.steps v ts).bind Assembly.finish

end Fixity
