import Fixity.Proofs.RoundTrip
import Fixity.Proofs.TokenRoles

/-! What the postfix machine keeps in order while it reads, up to the end of the input. Its output
is a row of complete trees: the left operands of the binary operators that wait and, unless an
operand must come next, the operand that has been read last. An operator that is written after its
operand is the next to leave the stack. -/
namespace Fixity

namespace PostfixToken

/-- The number of values less that of binary operators. -/
def balance (ts : List PostfixToken) : Int := ts.countP isValue - ts.countP isBinary

@[simp] theorem balance_nil : balance [] = 0 := rfl

@[simp] theorem balance_reverse (ts : List PostfixToken) : balance ts.reverse = balance ts := by
  simp [balance]

@[simp] theorem isBinary_value (t : Token) : (value t).isBinary = false := rfl

@[simp] theorem isBinary_ofOperator (op : Operator) :
    (ofOperator op).isBinary = (op.arity == .binary) := by
  rcases op with ⟨_, _, _, _ | (_ | _), _, _⟩ <;> rfl

theorem balance_value_cons (t : Token) (ts : List PostfixToken) :
    balance (value t :: ts) = balance ts + 1 := by
  rw [balance, balance, List.countP_cons_of_pos (isValue_value t),
    List.countP_cons_of_neg (by simp)]
  omega

theorem balance_ofOperator_cons (op : Operator) (ts : List PostfixToken) :
    balance (ofOperator op :: ts) = balance ts + 1 - op.arity.argCount := by
  cases ha : op.arity with
  | binary =>
    simp [balance, ha, Arity.argCount]
    omega
  | unary side => simp [balance, ha, Arity.argCount]

end PostfixToken

theorem Tree.postfixOrders_append (ts us : List Tree) :
    postfixOrders (ts ++ us) = postfixOrders ts ++ postfixOrders us := by
  induction ts with
  | nil => simp
  | cons t ts ih => simp [ih]

theorem Arity.argCount_ne_zero (a : Arity) : a.argCount ≠ 0 := by
  cases a <;> simp [Arity.argCount]

/-- The symbol of an operator that is written after its operand, and of no other. -/
def Vocabulary.IsAfterSymbol (v : Vocabulary) (t : Token) : Prop :=
  v.isDelimiter t = false ∧ ∃ op ∈ v.operators.operators, op.arity = .unary .after ∧ op.symbol = t

namespace Shunting

open PostfixToken

/-- An operator that is written after its operand. -/
def Entry.isAfter : Entry → Bool
  | .operator op => op.isAfter
  | .delimiter _ => false

def Entry.isBinary : Entry → Bool
  | .operator op => op.isBinary
  | .delimiter _ => false

/-- The output is the postfix order of the trees; of both, the latest ones come first. -/
inductive Completes (v : Vocabulary) : List PostfixToken → List Tree → Prop where
  | nil : Completes v [] []
  | value {x : Token} {output : List PostfixToken} {trees : List Tree} (hx : v.IsValue x)
      (h : Completes v output trees) : Completes v (.value x :: output) (.value x :: trees)
  | operator {op : Operator} {output : List PostfixToken} {operands trees : List Tree}
      (hop : op ∈ v.operators.operators) (hlen : operands.length = op.arity.argCount)
      (h : Completes v output (operands.reverse ++ trees)) :
      Completes v (.ofOperator op :: output) (.node (.ofOperator op) operands :: trees)

namespace Completes

variable {v : Vocabulary} {output output' : List PostfixToken} {trees : List Tree}

theorem forall_over (h : Completes v output trees) : ∀ t ∈ trees, t.Over v := by
  induction h with
  | nil => simp
  | value hx _ ih => exact List.forall_mem_cons.2 ⟨.value hx, ih⟩
  | @operator op output operands trees hop hlen _ ih =>
    have hne : (ofOperator op).argCount ≠ 0 := by
      rw [argCount_ofOperator]
      exact op.arity.argCount_ne_zero
    have htree := Tree.ofOperator_eq_ok_iff.2 ⟨hne, by rw [hlen, argCount_ofOperator], rfl⟩
    have hoperands : ∀ t ∈ operands, t.Over v := fun t ht => ih t (by simp [ht])
    have htrees : ∀ t ∈ trees, t.Over v := fun t ht => ih t (by simp [ht])
    exact List.forall_mem_cons.2 ⟨.operator operands hop hoperands htree, htrees⟩

theorem postfixOrders_reverse (h : Completes v output trees) :
    Tree.postfixOrders trees.reverse = output.reverse := by
  induction h with
  | nil => simp
  | value _ _ ih => simp [Tree.postfixOrders_append, ih]
  | operator _ _ _ ih =>
    rw [List.reverse_append, List.reverse_reverse, Tree.postfixOrders_append] at ih
    simp [Tree.postfixOrders_append, ← ih]

theorem balance_eq (h : Completes v output trees) : balance output = trees.length := by
  induction h with
  | nil => simp
  | value _ _ ih =>
    rw [balance_value_cons, ih, List.length_cons]
    omega
  | operator _ hlen _ ih =>
    rw [List.length_append, List.length_reverse, hlen] at ih
    rw [balance_ofOperator_cons, ih, List.length_cons]
    omega

theorem eq_nil_iff (h : Completes v output trees) : trees = [] ↔ output = [] := by
  cases h <;> simp

/-- At any earlier point the output was in the same order. -/
theorem of_suffix (h : Completes v output trees) (hs : output' <:+ output) :
    ∃ trees', Completes v output' trees' := by
  induction h with
  | nil => exact ⟨[], List.suffix_nil.1 hs ▸ .nil⟩
  | value hx h ih =>
    rcases List.suffix_cons_iff.1 hs with rfl | hs
    · exact ⟨_, .value hx h⟩
    · exact ih hs
  | operator hop hlen h ih =>
    rcases List.suffix_cons_iff.1 hs with rfl | hs
    · exact ⟨_, .operator hop hlen h⟩
    · exact ih hs

/-- The first operator has operands before it. -/
theorem filterMap_value?_ne_nil (h : Completes v output trees) (hne : output ≠ []) :
    output.filterMap PostfixToken.value? ≠ [] := by
  induction h with
  | nil => exact absurd rfl hne
  | value => simp
  | @operator op output operands trees _ hlen h ih =>
    have houtput : output ≠ [] := by
      intro hnil
      have hoperands := (List.append_eq_nil_iff.1 (h.eq_nil_iff.2 hnil)).1
      rw [List.reverse_eq_nil_iff.1 hoperands] at hlen
      exact op.arity.argCount_ne_zero hlen.symm
    simpa using ih houtput

end Completes

namespace State

variable {v : Vocabulary} {s s' m : State} {t : Token} {previous : Option Token}

/-- How many trees the output must have. -/
def owed (s : State) : Nat :=
  s.stack.countP Entry.isBinary + if s.previous.expectsOperand then 0 else 1

/-- Reading an operator keeps the number: a binary one counts instead of the operand before it. -/
theorem owed_operator {op : Operator} {output output' : List PostfixToken} {stack : List Entry}
    {p : Previous} (hp : p.expectsOperand = decide (op.arity = .unary .before)) :
    owed ⟨output', .operator (.ofOperator op) :: stack, .operator op.arity⟩ =
      owed ⟨output, stack, p⟩ := by
  simp only [owed, List.countP_cons, Entry.isBinary, isBinary_ofOperator, hp]
  rcases op.arity with _ | (_ | _) <;> simp [Previous.expectsOperand]

/-- The output is a row of trees, one for each binary operator that waits and one more after an
operand. Each part of it that has come out first is a row of trees as well. -/
structure Balanced (v : Vocabulary) (s : State) : Prop where
  balance_eq : balance s.output = s.owed
  of_prefix : ∀ first, first <+: s.output.reverse → first ≠ [] →
    1 ≤ balance first ∧ ∃ trees, (∀ t ∈ trees, t.Over v) ∧ Tree.postfixOrders trees = first

theorem balanced_of_completes {trees : List Tree} (h : Completes v s.output trees)
    (hlen : trees.length = s.owed) : Balanced v s := by
  refine ⟨by rw [h.balance_eq, hlen], fun first hfirst hne => ?_⟩
  have hsuffix : first.reverse <:+ s.output := List.reverse_prefix.1 (by simpa using hfirst)
  obtain ⟨trees', h'⟩ := h.of_suffix hsuffix
  have hpos : 0 < trees'.length := List.length_pos_iff.2 (mt h'.eq_nil_iff.1 (by simpa using hne))
  refine ⟨?_, trees'.reverse, fun t ht => h'.forall_over t (by simpa using ht), ?_⟩
  · rw [← balance_reverse, h'.balance_eq]
    omega
  · rw [h'.postfixOrders_reverse, List.reverse_reverse]

/-- The operator that a token is read as, unless it is a delimiter. -/
def readAs? (v : Vocabulary) (s : State) (t : Token) : Option Operator :=
  if v.isDelimiter t then none
  else if s.previous.expectsOperand then v.operators.before? t
  else v.operators.after? t

/-- The states on the way through a step that reads `t`, before `t` itself changes anything: the
operators on the stack move to the output one by one. -/
inductive Within (v : Vocabulary) (s : State) (t : Token) : State → Prop where
  | start : Within v s t s
  | release {op : PostfixToken} {incoming : Operator} {output : List PostfixToken}
      {stack : List Entry} (h : Within v s t ⟨output, .operator op :: stack, s.previous⟩)
      (hin : s.readAs? v t = some incoming) (ha : op.appliesBefore (.ofOperator incoming) = true) :
      Within v s t ⟨op :: output, stack, s.previous⟩
  | unwind {op : PostfixToken} {output : List PostfixToken} {stack : List Entry}
      (h : Within v s t ⟨output, .operator op :: stack, s.previous⟩) (ho : v.opening? t = none)
      (hc : v.isClosing t = true) (he : s.previous.expectsOperand = false) :
      Within v s t ⟨op :: output, stack, s.previous⟩

theorem Within.release_all {incoming : Operator} {output : List PostfixToken} {stack : List Entry}
    (h : Within v s t ⟨output, stack, s.previous⟩) (hin : s.readAs? v t = some incoming) :
    Within v s t ⟨(Shunting.release (.ofOperator incoming) output stack).1,
      (Shunting.release (.ofOperator incoming) output stack).2, s.previous⟩ := by
  fun_induction Shunting.release (.ofOperator incoming) output stack with
  | case1 output op stack ha ih => exact ih (h.release hin ha)
  | case2 => exact h
  | case3 => exact h

theorem Within.unwind_all {output output' : List PostfixToken} {stack stack' : List Entry}
    (h : Within v s t ⟨output, stack, s.previous⟩) (ho : v.opening? t = none)
    (hc : v.isClosing t = true) (he : s.previous.expectsOperand = false)
    (hu : Shunting.unwind t output stack = .ok (output', stack')) :
    ∃ pair, Within v s t ⟨output', .delimiter pair :: stack', s.previous⟩ := by
  fun_induction Shunting.unwind t output stack with
  | case1 => cases hu
  | case2 output op stack ih => exact ih (h.unwind ho hc he) hu
  | case3 output pair stack =>
    cases hu
    exact ⟨pair, h⟩
  | case4 => cases hu

/-- What holds between two tokens, the first of which is `previous`. -/
structure Disciplined (v : Vocabulary) (previous : Option Token) (s : State) : Prop
    extends After v previous s where
  completes : ∃ trees, Completes v s.output trees ∧ trees.length = s.owed
  isAfter_tail : ∀ e ∈ s.stack.tail, e.isAfter = false
  isAfter_head : (∃ e ∈ s.stack.head?, e.isAfter = true) ↔ s.previous = .operator (.unary .after)
  previous_eq : s.previous = .operator (.unary .after) ↔ ∃ t ∈ previous, v.IsAfterSymbol t

theorem disciplined_initial (v : Vocabulary) : Disciplined v none initial where
  toAfter := after_initial v
  completes := ⟨[], .nil, rfl⟩
  isAfter_tail := by simp [initial]
  isAfter_head := by simp [initial]
  previous_eq := by simp [initial]

theorem not_exists_isAfter_head {stack : List Entry} (h : ∀ e ∈ stack, e.isAfter = false) :
    ¬∃ e ∈ stack.head?, e.isAfter = true := by
  rintro ⟨e, he, hafter⟩
  exact Bool.false_ne_true ((h e (List.mem_of_mem_head? he)).symm.trans hafter)

/-- Where an operand must come next, nothing waits that has its operand already. -/
theorem Disciplined.isAfter_eq_false (h : Disciplined v previous s)
    (he : s.previous.expectsOperand = true) : ∀ e ∈ s.stack, e.isAfter = false := by
  have hhead : ∀ e ∈ s.stack.head?, e.isAfter = false := by
    intro e hhead
    by_contra hafter
    have hprevious := h.isAfter_head.1 ⟨e, hhead, eq_true_of_ne_false hafter⟩
    simp [hprevious, Previous.expectsOperand] at he
  have htail := h.isAfter_tail
  cases hs : s.stack with
  | nil => simp
  | cons e stack =>
    rw [hs] at hhead htail
    exact List.forall_mem_cons.2 ⟨hhead e rfl, htail⟩

/-- An operator takes its operands from the end of the row. -/
theorem completes_move {op : Operator} {output : List PostfixToken} {stack : List Entry}
    {p : Previous} (hop : op ∈ v.operators.operators) (he : p.expectsOperand = false)
    (h : ∃ trees, Completes v output trees ∧
      trees.length = owed ⟨output, .operator (.ofOperator op) :: stack, p⟩) :
    ∃ trees, Completes v (.ofOperator op :: output) trees ∧
      trees.length = owed ⟨.ofOperator op :: output, stack, p⟩ := by
  obtain ⟨trees, hc, hlen⟩ := h
  have howed : trees.length = op.arity.argCount + stack.countP Entry.isBinary := by
    rw [hlen, owed, List.countP_cons, Entry.isBinary, isBinary_ofOperator, he]
    cases op.arity <;> simp [Arity.argCount] <;> omega
  let operands := (trees.take op.arity.argCount).reverse
  have hoperands : operands.length = op.arity.argCount := by simp [operands]; omega
  refine ⟨.node (.ofOperator op) operands :: trees.drop op.arity.argCount, ?_, ?_⟩
  · exact .operator hop hoperands (by simpa [operands] using hc)
  · simp [owed, he]
    omega

theorem readAs?_eq_some_iff {op : Operator} : s.readAs? v t = some op ↔
    v.isDelimiter t = false ∧ op ∈ v.operators.operators ∧ op.symbol = t ∧
      s.previous.expectsOperand = decide (op.arity = .unary .before) := by
  unfold readAs?
  cases hd : v.isDelimiter t with
  | true => simp
  | false =>
    cases he : s.previous.expectsOperand with
    | true => simp [OperatorSet.before?_eq_some_iff, and_comm]
    | false => simp [OperatorSet.after?_eq_some_iff, and_comm]

/-- Nothing moves where an operand must come next, and what moves takes its operands along. -/
theorem Disciplined.within (h : Disciplined v previous s) (hm : Within v s t m) :
    m.previous = s.previous ∧ m.stack <:+ s.stack ∧
      ∃ trees, Completes v m.output trees ∧ trees.length = m.owed := by
  have hmove : ∀ {op output stack}, .operator op :: stack <:+ s.stack →
      s.previous.expectsOperand = false →
      (∃ trees, Completes v output trees ∧
        trees.length = owed ⟨output, .operator op :: stack, s.previous⟩) →
      stack <:+ s.stack ∧ ∃ trees, Completes v (op :: output) trees ∧
        trees.length = owed ⟨op :: output, stack, s.previous⟩ := by
    intro op output stack hsuffix he hc
    obtain ⟨op, hop, rfl⟩ := h.waiting op (hsuffix.subset List.mem_cons_self)
    exact ⟨(List.suffix_cons _ _).trans hsuffix, completes_move hop he hc⟩
  induction hm with
  | start => exact ⟨rfl, List.suffix_rfl, h.completes⟩
  | @release op incoming output stack _ hin ha ih =>
    obtain ⟨-, hsuffix, hc⟩ := ih
    -- Only an operator that has its operand would go before one that has none, and none waits.
    have he : s.previous.expectsOperand = false := by
      by_contra he
      rw [Bool.not_eq_false] at he
      have hafter : op.isAfter = false :=
        h.isAfter_eq_false he (.operator op) (hsuffix.subset List.mem_cons_self)
      have hbefore : incoming.arity = .unary .before := by
        simpa [he] using (readAs?_eq_some_iff.1 hin).2.2.2
      simp [appliesBefore, hafter, hbefore] at ha
    exact ⟨rfl, hmove hsuffix he hc⟩
  | unwind _ _ _ he ih =>
    obtain ⟨-, hsuffix, hc⟩ := ih
    exact ⟨rfl, hmove hsuffix he hc⟩

theorem Within.balanced (hm : Within v s t m) (h : Disciplined v previous s) : Balanced v m := by
  obtain ⟨-, -, trees, hc, hlen⟩ := h.within hm
  exact balanced_of_completes hc hlen

/-- No operator that has its operand already is compared with one that has none yet. -/
theorem Within.isAfter_eq_false {e : Entry} {op : Operator} (hm : Within v s t m)
    (h : Disciplined v previous s) (he : e ∈ m.stack) (hop : s.readAs? v t = some op)
    (ha : op.arity = .unary .before) : e.isAfter = false := by
  obtain ⟨-, hsuffix, -⟩ := h.within hm
  have hexpects := (readAs?_eq_some_iff.1 hop).2.2.2
  exact h.isAfter_eq_false (by simpa [ha] using hexpects) e (hsuffix.subset he)

/-- An operator that has its operand is released by any other one. -/
theorem isAfter_release_eq_false (incoming : PostfixToken) (output : List PostfixToken)
    (stack : List Entry) (h : ∀ e ∈ stack.tail, e.isAfter = false) :
    ∀ e ∈ (Shunting.release incoming output stack).2, e.isAfter = false := by
  fun_induction Shunting.release incoming output stack with
  | case1 output op stack _ ih => exact ih fun e he => h e (List.mem_of_mem_tail he)
  | case2 output op stack ha =>
    have hop : op.isAfter = false := by
      by_contra hafter
      simp [appliesBefore, hafter] at ha
    exact List.forall_mem_cons.2 ⟨hop, h⟩
  | case3 output stack hstack =>
    cases stack with
    | nil => simp
    | cons e stack =>
      cases e with
      | operator op => exact (hstack op stack rfl).elim
      | delimiter pair => exact List.forall_mem_cons.2 ⟨rfl, h⟩

theorem not_isAfterSymbol_of_isDelimiter (h : v.isDelimiter t = true) : ¬v.IsAfterSymbol t :=
  fun ht => Bool.false_ne_true (ht.1.symm.trans h)

theorem not_isAfterSymbol_of_isValue (h : v.IsValue t) : ¬v.IsAfterSymbol t := by
  rintro ⟨-, op, hop, -, rfl⟩
  exact Vocabulary.not_isValue_symbol hop h

theorem isAfterSymbol_symbol_iff {op : Operator} (hd : v.isDelimiter op.symbol = false)
    (hop : op ∈ v.operators.operators) :
    v.IsAfterSymbol op.symbol ↔ op.arity = .unary .after := by
  constructor
  · rintro ⟨-, op', hop', ha, hs⟩
    obtain rfl | hne := OperatorSet.eq_or_arity_ne hop' hop hs
    · exact ha
    · exact absurd ha hne.2.1
  · exact fun ha => ⟨hd, op, hop, ha, rfl⟩

theorem Disciplined.step (h : Disciplined v previous s) (ht : Transition v s t s') :
    Disciplined v (some t) s' := by
  have hafter := h.toAfter.step ht
  cases ht with
  | @opening t pair ho he =>
    have hd : v.isDelimiter t = true := by simp [Vocabulary.isDelimiter, ho]
    obtain ⟨trees, hc, hlen⟩ := h.completes
    refine ⟨hafter, ⟨trees, hc, ?_⟩, h.isAfter_eq_false he, ?_, ?_⟩
    · rw [hlen, owed, he]
      rfl
    · simp [Entry.isAfter]
    · simp [not_isAfterSymbol_of_isDelimiter hd]
  | @closing t output stack ho hcl he hu =>
    have hd : v.isDelimiter t = true := by simp [Vocabulary.isDelimiter, hcl]
    obtain ⟨pair, hm⟩ := Within.start.unwind_all ho hcl he hu
    obtain ⟨-, hsuffix, trees, hc, hlen⟩ := h.within hm
    have hnone : ∀ e ∈ stack, e.isAfter = false := by
      intro e hmem
      obtain ⟨above, hstack⟩ := hsuffix
      apply h.isAfter_tail
      cases above with
      | nil => simpa [← hstack] using hmem
      | cons => simp [← hstack, hmem]
    refine ⟨hafter, ⟨trees, hc, ?_⟩, fun e hmem => hnone e (List.mem_of_mem_tail hmem), ?_, ?_⟩
    · rw [hlen, owed, he]
      rfl
    · exact iff_of_false (not_exists_isAfter_head hnone) (by simp)
    · simp [not_isAfterSymbol_of_isDelimiter hd]
  | @operator op hd hop he =>
    have hin : s.readAs? v op.symbol = some op := readAs?_eq_some_iff.2 ⟨hd, hop, rfl, he⟩
    obtain ⟨-, hsuffix, trees, hc, hlen⟩ := h.within (Within.start.release_all hin)
    refine ⟨hafter, ⟨trees, hc, ?_⟩, ?_, ?_, ?_⟩
    · rw [hlen]
      exact (owed_operator he).symm
    · exact isAfter_release_eq_false _ _ _ h.isAfter_tail
    · simp [push, Entry.isAfter]
    · simp [push, isAfterSymbol_symbol_iff hd hop]
  | @operand t hv he =>
    obtain ⟨trees, hc, hlen⟩ := h.completes
    refine ⟨hafter, ⟨_, .value hv hc, ?_⟩, h.isAfter_tail, ?_, ?_⟩
    · rw [List.length_cons, hlen, owed, he]
      rfl
    · exact iff_of_false (not_exists_isAfter_head (h.isAfter_eq_false he)) (by simp)
    · simp [not_isAfterSymbol_of_isValue hv]

/-- A run keeps the discipline. -/
theorem disciplined_of_steps {ts : List Token} (hs : initial.steps v 0 ts = .ok s) :
    Disciplined v ts.getLast? s := by
  induction ts using List.reverseRecOn generalizing s with
  | nil =>
    cases hs
    exact disciplined_initial v
  | append_singleton ts t ih =>
    obtain ⟨s₁, hs₁, ht⟩ := steps_append_singleton_eq_ok_iff.1 hs
    rw [List.getLast?_concat]
    exact (ih hs₁).step (transition_of_step ht)

theorem output_eq_nil_iff {ts : List Token} (hs : initial.steps v 0 ts = .ok s) :
    s.output = [] ↔ v.values ts = [] := by
  obtain ⟨-, hadds⟩ := (after_initial v).steps hs
  have hvalues : s.output.reverse.filterMap PostfixToken.value? = v.values ts := by
    simpa [values, initial] using hadds.values
  obtain ⟨trees, hc, -⟩ := (disciplined_of_steps hs).completes
  rw [← hvalues, List.filterMap_reverse, List.reverse_eq_nil_iff]
  constructor
  · intro h
    simp [h]
  · intro h
    by_contra hne
    exact hc.filterMap_value?_ne_nil hne h

/-- Wherever reading has come without a fault, also while operators move for the next token, the
output is a row of complete trees, as many as the binary operators that wait and one more unless an
operand must come next; so is each part of it that has come out first. Between two tokens, an
operator that has its operand waits just if it has been read last, and then on top of the stack. So
it is never compared with one that has no operand yet. The first thing to come out is a value.

The flush at the end of the input is left out. It moves what waits without a look at the operands:
after `a+` it puts out `a` and the operator, which is no row of trees. -/
theorem steps_keep_discipline (v : Vocabulary) (ts : List Token) (s : State)
    (hs : initial.steps v 0 ts = .ok s) :
    (Balanced v s ∧ ∀ t m, Within v s t m → Balanced v m) ∧
      (∀ e ∈ s.stack.tail, e.isAfter = false) ∧
      ((∃ e ∈ s.stack.head?, e.isAfter = true) ↔ ∃ t ∈ ts.getLast?, v.IsAfterSymbol t) ∧
      (∀ t m op, Within v s t m → s.readAs? v t = some op → op.arity = .unary .before →
        ∀ e ∈ m.stack, e.isAfter = false) ∧
      (s.output = [] ↔ v.values ts = []) := by
  have h := disciplined_of_steps hs
  refine ⟨⟨?_, fun t m hm => hm.balanced h⟩, h.isAfter_tail, ?_, ?_, output_eq_nil_iff hs⟩
  · obtain ⟨trees, hc, hlen⟩ := h.completes
    exact balanced_of_completes hc hlen
  · exact h.isAfter_head.trans h.previous_eq
  · intro t m op hm hop ha e he
    exact hm.isAfter_eq_false h he hop ha

/-- In `a-(b-c!)`, before the closing parenthesis: the operator after `c` is the first to move. -/
theorem steps_keep_discipline_of_factorial :
    let a : Token := .literal ['a']
    let b : Token := .literal ['b']
    let c : Token := .literal ['c']
    let minus : Operator := .subtract
    let factorial : Operator := .unary .after (.literal ['!']) 5
    let v : Vocabulary := ⟨⟨[minus, .negative, factorial], by decide⟩, [.parentheses]⟩
    let ts : List Token := [a, minus.symbol, DelimiterPair.parentheses.opening, b, minus.symbol, c,
      factorial.symbol]
    let waiting : List Entry := [.operator (.ofOperator minus), .delimiter .parentheses,
      .operator (.ofOperator minus)]
    let s : State := ⟨[.value c, .value b, .value a],
      .operator (.ofOperator factorial) :: waiting, .operator (.unary .after)⟩
    let m : State := ⟨.ofOperator factorial :: s.output, waiting, s.previous⟩
    initial.steps v 0 ts = .ok s ∧ Within v s DelimiterPair.parentheses.closing m ∧
      Balanced v m ∧ m.owed = 3 ∧ (∃ t ∈ ts.getLast?, v.IsAfterSymbol t) ∧
      (∀ e ∈ waiting, e.isAfter = false) ∧ v.values ts ≠ [] := by
  intro a b c minus factorial v ts waiting s m
  have hs : initial.steps v 0 ts = .ok s := by decide
  have hm : Within v s DelimiterPair.parentheses.closing m :=
    Within.start.unwind (by decide) (by decide) rfl
  obtain ⟨⟨-, hbalanced⟩, htail, htop, -, houtput⟩ := steps_keep_discipline v ts s hs
  refine ⟨hs, hm, hbalanced _ m hm, by decide, htop.1 ⟨_, rfl, rfl⟩, htail, ?_⟩
  exact mt houtput.2 (by simp [s])

end State

end Shunting

end Fixity
