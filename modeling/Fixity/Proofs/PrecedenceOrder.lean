import Fixity.Grammar.Predefined
import Fixity.Proofs.Bracketing
import Fixity.Proofs.Except
import Fixity.Proofs.Meaning
import Mathlib.Data.List.Forall2

/-! Of the precedences nothing but their order matters, and the associativity of a prefix operator
never does. Grammars that differ in nothing else find the same faults and the same trees, but for
the precedences and associativities that the trees carry. Their machines run side by side: at every
token the same operators wait, and the same ones are released. -/
namespace Fixity

namespace PostfixToken

/-- The element without its precedence and its associativity. -/
def unranked (t : PostfixToken) : PostfixToken :=
  { t with precedence := 0, associativity := .none }

@[simp] theorem argCount_unranked (t : PostfixToken) : t.unranked.argCount = t.argCount := rfl

@[simp] theorem value?_unranked (t : PostfixToken) : t.unranked.value? = t.value? := rfl

@[simp] theorem text_unranked (t : PostfixToken) : t.unranked.text = t.text := rfl

theorem unranked_ofOperator_congr {op op' : Operator} (hs : op.symbol = op'.symbol)
    (ha : op.arity = op'.arity) : (ofOperator op).unranked = (ofOperator op').unranked := by
  unfold ofOperator
  rw [hs, ha]
  split <;> rfl

end PostfixToken

namespace Tree

mutual

/-- The tree without the precedences and associativities of its operators. -/
def unranked : Tree → Tree
  | .value t => .value t
  | .node op cs => .node op.unranked (unrankedAll cs)

def unrankedAll : List Tree → List Tree
  | [] => []
  | t :: ts => t.unranked :: unrankedAll ts

end

theorem unrankedAll_eq_map (ts : List Tree) : unrankedAll ts = ts.map unranked := by
  induction ts with
  | nil => rfl
  | cons t ts ih => rw [unrankedAll, ih, List.map_cons]

theorem ofOperator_unranked (op : PostfixToken) (cs : List Tree) :
    ofOperator op.unranked (cs.map unranked) = (ofOperator op cs).map unranked := by
  simp only [ofOperator, PostfixToken.argCount_unranked, PostfixToken.text_unranked,
    List.length_map]
  split
  · rfl
  · simp [Except.map, unranked, unrankedAll_eq_map]

end Tree

def Unfinished.unranked (u : Unfinished) : Unfinished :=
  ⟨u.operator.unranked, u.children.map Tree.unranked⟩

namespace Tree

theorem supply_unranked (t : Tree) (us : List Unfinished) :
    supply t.unranked (us.map Unfinished.unranked) =
      (supply t us).map (Sum.map unranked (List.map Unfinished.unranked)) := by
  induction us generalizing t with
  | nil => rfl
  | cons u us ih =>
    by_cases hw : u.children.length + 1 < u.operator.argCount
    · simp [supply, Unfinished.unranked, hw, Except.map]
    · have ho := ofOperator_unranked u.operator (t :: u.children)
      rw [List.map_cons] at ho
      simp only [List.map_cons, supply, Unfinished.unranked, List.length_map,
        PostfixToken.argCount_unranked, if_neg hw, ho]
      cases ofOperator u.operator (t :: u.children) with
      | error e => rfl
      | ok node => exact ih node

theorem rebuild_unranked (us : List Unfinished) (ts : List PostfixToken) :
    rebuild (us.map Unfinished.unranked) (ts.map PostfixToken.unranked) =
      (rebuild us ts).map unranked := by
  induction ts generalizing us with
  | nil => cases us <;> rfl
  | cons t ts ih =>
    cases hv : t.value? with
    | some v =>
      have hs := supply_unranked (.value v) us
      rw [unranked] at hs
      simp only [List.map_cons, rebuild, PostfixToken.value?_unranked, hv, hs, List.isEmpty_map,
        List.length_map]
      cases supply (.value v) us with
      | error e => rfl
      | ok result =>
        cases result with
        | inl tree => cases ts <;> rfl
        | inr us' => exact ih us'
    | none =>
      by_cases ha : 2 < t.argCount
      · simp [rebuild, hv, ha, Except.map]
      · simpa [rebuild, hv, ha, Unfinished.unranked] using ih (⟨t, []⟩ :: us)

theorem ofPostfix_unranked (ts : List PostfixToken) :
    ofPostfix (ts.map PostfixToken.unranked) = (ofPostfix ts).map unranked := by
  have hr := rebuild_unranked [] ts.reverse
  rw [ofPostfix, ofPostfix, List.isEmpty_map, ← List.map_reverse]
  split
  · rfl
  · exact hr

end Tree

/-- Lists that are related element by element are searched alike. -/
theorem rel_find? {α β : Type} {R : α → β → Prop} {p : α → Bool} {q : β → Bool} {xs : List α}
    {ys : List β} (h : List.Forall₂ R xs ys) (hpq : ∀ x y, R x y → p x = q y) :
    Option.Rel R (xs.find? p) (ys.find? q) := by
  induction h with
  | nil => exact .none
  | @cons x y xs ys hxy _ ih =>
    rw [List.find?_cons, List.find?_cons, hpq x y hxy]
    cases q y with
    | true => exact .some hxy
    | false => exact ih

namespace OperatorSet

variable {set set' : OperatorSet} {a a' b b' : Operator}

/-- The two operators have the same place in their sets. -/
def Counterparts (set set' : OperatorSet) (op op' : Operator) : Prop :=
  (op, op') ∈ set.operators.zip set'.operators

/-- The operators of the second set are those of the first one, with precedences of their own that
are in the same order. Prefix operators can also have another associativity. -/
structure Regrades (set set' : OperatorSet) : Prop where
  length_eq : set.operators.length = set'.operators.length
  symbol_eq : ∀ p ∈ set.operators.zip set'.operators, p.1.symbol = p.2.symbol
  arity_eq : ∀ p ∈ set.operators.zip set'.operators, p.1.arity = p.2.arity
  precedence_lt_iff : ∀ p ∈ set.operators.zip set'.operators,
    ∀ q ∈ set.operators.zip set'.operators,
      (p.1.precedence < q.1.precedence ↔ p.2.precedence < q.2.precedence)
  associativity_eq : ∀ p ∈ set.operators.zip set'.operators,
    p.1.arity ≠ .unary .before → p.1.associativity = p.2.associativity

namespace Regrades

theorem forall₂_counterparts (h : set.Regrades set') :
    List.Forall₂ (set.Counterparts set') set.operators set'.operators :=
  List.forall₂_iff_zip.2 ⟨h.length_eq, id⟩

theorem precedence_eq_iff (h : set.Regrades set') (ha : set.Counterparts set' a a')
    (hb : set.Counterparts set' b b') :
    a.precedence = b.precedence ↔ a'.precedence = b'.precedence := by
  -- the order is total, so it tells which precedences are equal
  have heq : ∀ p q : Int32, p = q ↔ ¬q < p ∧ ¬p < q := by
    intro p q
    rw [Int32.not_lt, Int32.not_lt]
    constructor
    · rintro rfl
      exact ⟨Int32.le_refl p, Int32.le_refl p⟩
    · exact fun hle => Int32.le_antisymm hle.1 hle.2
  rw [heq, heq, h.precedence_lt_iff _ ha _ hb, h.precedence_lt_iff _ hb _ ha]

theorem appliesBefore_eq (h : set.Regrades set') (ha : set.Counterparts set' a a')
    (hb : set.Counterparts set' b b') : a.appliesBefore b = a'.appliesBefore b' := by
  have haa : a.arity = a'.arity := h.arity_eq _ ha
  have hba : b.arity = b'.arity := h.arity_eq _ hb
  have hlt : b.precedence < a.precedence ↔ b'.precedence < a'.precedence :=
    h.precedence_lt_iff (b, b') hb (a, a') ha
  simp only [Operator.appliesBefore, PostfixToken.appliesBefore, PostfixToken.isAfter_ofOperator,
    PostfixToken.isBefore_ofOperator, PostfixToken.argCount_ofOperator,
    PostfixToken.precedence_ofOperator, PostfixToken.associativity_ofOperator, haa, hba, hlt,
    Bool.beq_eq_decide_eq, h.precedence_eq_iff ha hb]
  -- a prefix operator that comes in releases no operator by its precedence or associativity
  by_cases hbefore : b.arity = .unary .before
  · simp [← hba, hbefore]
  · have hassoc : b.associativity = b'.associativity := h.associativity_eq _ hb hbefore
    rw [hassoc]

theorem rel_before? (h : set.Regrades set') (t : Token) :
    Option.Rel (set.Counterparts set') (set.before? t) (set'.before? t) :=
  rel_find? h.forall₂_counterparts fun op op' hop => by rw [h.symbol_eq _ hop, h.arity_eq _ hop]

theorem rel_after? (h : set.Regrades set') (t : Token) :
    Option.Rel (set.Counterparts set') (set.after? t) (set'.after? t) :=
  rel_find? h.forall₂_counterparts fun op op' hop => by rw [h.symbol_eq _ hop, h.arity_eq _ hop]

theorem contains_eq (h : set.Regrades set') (t : Token) : set.contains t = set'.contains t := by
  have hsome : ∀ {x y : Option Operator}, Option.Rel (set.Counterparts set') x y →
      x.isSome = y.isSome := by
    rintro x y (_ | _) <;> rfl
  rw [OperatorSet.contains_eq, OperatorSet.contains_eq, hsome (h.rel_before? t),
    hsome (h.rel_after? t)]

theorem symbols_eq (h : set.Regrades set') : set.symbols = set'.symbols := by
  have hs : List.Forall₂ (fun op op' => op.symbol = op'.symbol) set.operators set'.operators :=
    h.forall₂_counterparts.imp fun op op' hop => h.symbol_eq _ hop
  rw [symbols, symbols]
  congr 1
  rwa [← List.forall₂_eq_eq_eq, List.forall₂_map_left_iff, List.forall₂_map_right_iff]

end Regrades

end OperatorSet

namespace Shunting

open OperatorSet

variable {set set' : OperatorSet} {op op' : Operator}

/-- Entries that hold counterparts or the same pair. -/
inductive Entry.Alike (set set' : OperatorSet) : Entry → Entry → Prop where
  | operator {op op' : Operator} (h : set.Counterparts set' op op') :
      Alike set set' (.operator (.ofOperator op)) (.operator (.ofOperator op'))
  | delimiter (pair : DelimiterPair) : Alike set set' (.delimiter pair) (.delimiter pair)

/-- What has been put out and what waits in two runs. What waits is still compared with operators to
come, so that more has to be known of it. -/
structure Alike (set set' : OperatorSet) (w w' : List PostfixToken × List Entry) : Prop where
  output : w.1.map PostfixToken.unranked = w'.1.map PostfixToken.unranked
  stack : List.Forall₂ (Entry.Alike set set') w.2 w'.2

variable {output output' : List PostfixToken} {stack stack' : List Entry}

theorem map_unranked_cons (h : set.Regrades set') (hop : set.Counterparts set' op op')
    (ho : output.map PostfixToken.unranked = output'.map PostfixToken.unranked) :
    (PostfixToken.ofOperator op :: output).map PostfixToken.unranked =
      (PostfixToken.ofOperator op' :: output').map PostfixToken.unranked := by
  have hu := PostfixToken.unranked_ofOperator_congr (h.symbol_eq _ hop) (h.arity_eq _ hop)
  rw [List.map_cons, List.map_cons, hu, ho]

/-- Counterparts release counterparts. -/
theorem alike_release (h : set.Regrades set') (hop : set.Counterparts set' op op')
    (ho : output.map PostfixToken.unranked = output'.map PostfixToken.unranked)
    (hs : List.Forall₂ (Entry.Alike set set') stack stack') :
    Alike set set' (release (.ofOperator op) output stack)
      (release (.ofOperator op') output' stack') := by
  induction hs generalizing output output' with
  | nil => exact ⟨ho, .nil⟩
  | @cons e e' stack stack' he hs ih =>
    cases he with
    | @operator waiting waiting' hw =>
      have happlies := h.appliesBefore_eq hw hop
      rw [Operator.appliesBefore, Operator.appliesBefore] at happlies
      rw [release, release, happlies]
      split
      · exact ih (map_unranked_cons h hw ho)
      · exact ⟨ho, .cons (.operator hw) hs⟩
    | delimiter pair => exact ⟨ho, .cons (.delimiter pair) hs⟩

theorem sameUpTo_unwind (h : set.Regrades set') (closing : Token)
    (ho : output.map PostfixToken.unranked = output'.map PostfixToken.unranked)
    (hs : List.Forall₂ (Entry.Alike set set') stack stack') :
    SameUpTo (Alike set set') (unwind closing output stack) (unwind closing output' stack') := by
  induction hs generalizing output output' with
  | nil => exact .error _
  | @cons e e' stack stack' he hs ih =>
    cases he with
    | operator hw => exact ih (map_unranked_cons h hw ho)
    | delimiter pair =>
      rw [unwind, unwind]
      split
      · exact .ok ⟨ho, hs⟩
      · exact .error _

theorem sameUpTo_flush (h : set.Regrades set')
    (ho : output.map PostfixToken.unranked = output'.map PostfixToken.unranked)
    (hs : List.Forall₂ (Entry.Alike set set') stack stack') :
    SameUpTo (fun out out' => out.map PostfixToken.unranked = out'.map PostfixToken.unranked)
      (flush output stack) (flush output' stack') := by
  induction hs generalizing output output' with
  | nil => exact .ok ho
  | @cons e e' stack stack' he hs ih =>
    cases he with
    | operator hw => exact ih (map_unranked_cons h hw ho)
    | delimiter pair => exact .error _

namespace State

/-- States in which the same was read. -/
structure Alike (set set' : OperatorSet) (s s' : State) : Prop where
  work : Shunting.Alike set set' (s.output, s.stack) (s'.output, s'.stack)
  previous : s.previous = s'.previous

variable {v w : Vocabulary} {s s' : State} {position : Nat} {t : Token}

theorem Alike.isEmpty_output (hs : Alike set set' s s') :
    s.output.isEmpty = s'.output.isEmpty := by
  rw [← List.isEmpty_map, hs.work.output, List.isEmpty_map]

theorem Alike.push (hs : Alike set set' s s') (h : set.Regrades set')
    (hop : set.Counterparts set' op op') : Alike set set' (s.push op) (s'.push op') := by
  have hr := alike_release h hop hs.work.output hs.work.stack
  exact ⟨⟨hr.output, .cons (.operator hop) hr.stack⟩, congrArg Previous.operator (h.arity_eq _ hop)⟩

theorem sameUpTo_readOpening (hs : Alike set set' s s') (position : Nat) (pair : DelimiterPair)
    (t : Token) : SameUpTo (Alike set set') (s.readOpening position pair t)
      (s'.readOpening position pair t) := by
  rw [readOpening, readOpening, hs.previous]
  split
  · exact .ok ⟨⟨hs.work.output, .cons (.delimiter pair) hs.work.stack⟩, rfl⟩
  · exact .error _

theorem sameUpTo_readClosing (h : set.Regrades set') (hs : Alike set set' s s') (position : Nat)
    (t : Token) : SameUpTo (Alike set set') (s.readClosing position t)
      (s'.readClosing position t) := by
  rw [readClosing, readClosing, hs.previous, hs.isEmpty_output]
  split
  · exact .error _
  · split
    · exact .error _
    · exact (sameUpTo_unwind h t hs.work.output hs.work.stack).bind fun _ _ hw => .ok ⟨hw, rfl⟩

theorem sameUpTo_readOperator (h : set.Regrades set') (hs : Alike set set' s s') (position : Nat)
    (t : Token) : SameUpTo (Alike set set') (s.readOperator position set t)
      (s'.readOperator position set' t) := by
  have hbefore := h.rel_before? t
  have hafter := h.rel_after? t
  rw [readOperator, readOperator, hs.previous, hs.isEmpty_output]
  split
  · generalize set.before? t = found, set'.before? t = found' at hbefore ⊢
    cases hbefore with
    | some hop => exact .ok (hs.push h hop)
    | none =>
      dsimp only
      split <;> exact .error _
  · generalize set.after? t = found, set'.after? t = found' at hafter ⊢
    cases hafter with
    | some hop => exact .ok (hs.push h hop)
    | none => exact .error _

theorem sameUpTo_readOperand (hs : Alike set set' s s') (position : Nat) (t : Token) :
    SameUpTo (Alike set set') (s.readOperand position t) (s'.readOperand position t) := by
  rw [readOperand, readOperand, hs.previous]
  split
  · exact .ok ⟨⟨by rw [List.map_cons, List.map_cons, hs.work.output], hs.work.stack⟩, rfl⟩
  · exact .error _

theorem sameUpTo_step (h : v.operators.Regrades w.operators) (hd : v.delimiters = w.delimiters)
    (hs : Alike v.operators w.operators s s') (position : Nat) (t : Token) :
    SameUpTo (Alike v.operators w.operators) (s.step v position t) (s'.step w position t) := by
  rw [step, step, Vocabulary.opening?_congr hd, Vocabulary.isClosing_congr hd, h.contains_eq]
  split
  · exact sameUpTo_readOpening hs position _ t
  · split
    · exact sameUpTo_readClosing h hs position t
    · split
      · exact sameUpTo_readOperator h hs position t
      · exact sameUpTo_readOperand hs position t

theorem sameUpTo_steps (h : v.operators.Regrades w.operators) (hd : v.delimiters = w.delimiters)
    (hs : Alike v.operators w.operators s s') (position : Nat) (ts : List Token) :
    SameUpTo (Alike v.operators w.operators) (s.steps v position ts) (s'.steps w position ts) := by
  induction ts generalizing s s' position with
  | nil => exact .ok hs
  | cons t ts ih =>
    exact (sameUpTo_step h hd hs position t).bind fun _ _ hs' => ih hs' (position + 1)

end State

variable {v w : Vocabulary}

theorem sameUpTo_run (h : v.operators.Regrades w.operators) (hd : v.delimiters = w.delimiters)
    (ts : List Token) :
    SameUpTo (fun out out' => out.map PostfixToken.unranked = out'.map PostfixToken.unranked)
      (run v ts) (run w ts) := by
  have hdelimiter : v.isDelimiter = w.isDelimiter := funext (Vocabulary.isDelimiter_congr hd)
  have hinitial : State.Alike v.operators w.operators .initial .initial := ⟨⟨rfl, .nil⟩, rfl⟩
  refine (State.sameUpTo_steps h hd hinitial 0 ts).bind fun s s' hs => ?_
  refine (sameUpTo_flush h hs.work.output hs.work.stack).bind fun out out' hout => ?_
  have hlength : out.length = out'.length := by simpa using congrArg List.length hout
  rw [hdelimiter, hlength]
  dsimp only
  split
  · exact .ok (by rw [List.map_reverse, List.map_reverse, hout])
  · exact .error _

end Shunting

namespace Vocabulary

variable {v w : Vocabulary}

theorem tokenize_regraded (h : v.operators.Regrades w.operators)
    (hd : v.delimiters = w.delimiters) (input : String) : v.tokenize input = w.tokenize input := by
  have hsymbols : v.symbols = w.symbols := by rw [symbols, symbols, h.symbols_eq, hd]
  rw [tokenize, tokenize, symbolTable, symbolTable, hsymbols]

theorem sameUpTo_parseFrom (h : v.operators.Regrades w.operators)
    (hd : v.delimiters = w.delimiters) (input : String) (ts : List Token) :
    SameUpTo (fun t t' => t.unranked = t'.unranked) (v.parseFrom input ts)
      (w.parseFrom input ts) := by
  have hshunt := (Shunting.sameUpTo_run h hd ts).mapError (ShuntError.mk input)
  refine (hshunt.mapError ParseError.shunt).bind fun sequence sequence' hs => ?_
  have htree : (Tree.ofPostfix sequence).map Tree.unranked =
      (Tree.ofPostfix sequence').map Tree.unranked := by
    rw [← Tree.ofPostfix_unranked, hs, Tree.ofPostfix_unranked]
  exact (sameUpTo_of_map_eq htree).mapError ParseError.tree

end Vocabulary

namespace Grammar

/-- Regrading the operators of a grammar changes nothing but the precedences and associativities
that trees carry. -/
theorem parse_regraded (g g' : Grammar) (hd : g.delimiters = g'.delimiters)
    (h : g.operators.Regrades g'.operators) (input : String) :
    SameUpTo (fun t t' => t.unranked = t'.unranked) (g.parse input) (g'.parse input) := by
  rw [Vocabulary.parse, Vocabulary.parse, Vocabulary.tokenize_regraded h hd]
  exact Vocabulary.sameUpTo_parseFrom h hd input _

/-- The precedences can be the least and the greatest one, and that of values between them. -/
theorem parse_regraded_to_extremes :
    let subtract : Operator := ⟨.literal ['-'], none, Int32.minValue, .binary, .left, by decide⟩
    let negative : Operator := ⟨.literal ['-'], none, -1, .unary .before, .left, by decide⟩
    let power : Operator := ⟨.literal ['^'], none, 0, .binary, .right, by decide⟩
    let array : Operator :=
      ⟨.literal ['[', ']'], none, Int32.maxValue, .unary .after, .none, by decide⟩
    let set : OperatorSet := ⟨[.subtract, .negative, .exponentiation, .array], by decide⟩
    let set' : OperatorSet := ⟨[subtract, negative, power, array], by decide⟩
    let g : Grammar := ⟨⟨set, [.parentheses]⟩, by decide, by decide⟩
    let g' : Grammar := ⟨⟨set', [.parentheses]⟩, by decide, by decide⟩
    let tree (op op₁ op₂ op₃ : Operator) : Tree :=
      .node (.ofOperator op) [.value (.literal ['a']), .node (.ofOperator op₁)
        [.node (.ofOperator op₂) [.value (.literal ['b']),
          .node (.ofOperator op₃) [.value (.literal ['c'])]]]]
    g.operators.Regrades g'.operators ∧
      g.parse "a--b^c[]" = .ok (tree .subtract .negative .exponentiation .array) ∧
      g'.parse "a--b^c[]" = .ok (tree subtract negative power array) ∧
      (tree .subtract .negative .exponentiation .array).unranked =
        (tree subtract negative power array).unranked := by
  intro subtract negative power array set set' g g' tree
  have h : g.operators.Regrades g'.operators :=
    ⟨rfl, by decide, by decide, by decide, by decide⟩
  have ht : g.parse "a--b^c[]" = .ok (tree .subtract .negative .exponentiation .array) := by
    decide +kernel
  have ht' : g'.parse "a--b^c[]" = .ok (tree subtract negative power array) := by decide +kernel
  have hsame := parse_regraded g g' rfl h "a--b^c[]"
  rw [ht, ht'] at hsame
  cases hsame with
  | ok he => exact ⟨h, ht, ht', he⟩

end Grammar

end Fixity
