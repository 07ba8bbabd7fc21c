import Fixity.Proofs.PostfixOrder

/-! How rebuilding ends, told by one number. Read from its end, a sequence wants one operand at
first, and each element takes the place of one and wants its own. The unfinished operators always
lack as many operands as the number says. So rebuilding goes on as long as something is wanted, and
what is left over, missing or too much for the tree builder shows without building anything. -/
namespace Fixity

namespace PostfixToken

/-- The operands still wanted when these elements have been read, the last one first. -/
def wanted : List PostfixToken → Int
  | [] => 1
  | t :: ts => wanted ts + t.argCount - 1

/-- Up to here an operand was wanted all the time, and no element took more than two. -/
def Wanting (read : List PostfixToken) : Prop :=
  (∀ t ∈ read, t.argCount ≤ 2) ∧ ∀ later, later <:+ read → 0 < wanted later

theorem wanted_eq (read : List PostfixToken) : wanted read = 1 - weight read := by
  induction read with
  | nil => rfl
  | cons t ts ih =>
    rw [wanted, weight_cons, ih]
    omega

variable {t : PostfixToken} {read : List PostfixToken}

@[simp] theorem wanting_nil : Wanting [] := by
  refine ⟨by simp, ?_⟩
  intro later h
  rw [List.suffix_nil.1 h, wanted]
  exact Int.one_pos

theorem wanting_cons :
    Wanting (t :: read) ↔ Wanting read ∧ t.argCount ≤ 2 ∧ 0 < wanted (t :: read) := by
  constructor
  · intro h
    obtain ⟨ht, hread⟩ := List.forall_mem_cons.1 h.1
    refine ⟨⟨hread, ?_⟩, ht, h.2 _ List.suffix_rfl⟩
    intro later hs
    exact h.2 later (hs.trans (List.suffix_cons t read))
  · intro h
    obtain ⟨hread, ht, hw⟩ := h
    refine ⟨List.forall_mem_cons.2 ⟨ht, hread.1⟩, ?_⟩
    intro later hs
    rcases List.suffix_cons_iff.1 hs with rfl | hs
    · exact hw
    · exact hread.2 later hs

theorem Wanting.wanted_pos (h : Wanting read) : 0 < wanted read := h.2 read List.suffix_rfl

/-- The element after which nothing is wanted is a value. -/
theorem Wanting.argCount_eq_zero (h : Wanting read) (hw : wanted (t :: read) = 0) :
    t.argCount = 0 := by
  have hpos := h.wanted_pos
  rw [wanted] at hw
  omega

/-- Something is wanted up to the start of a sequence, up to an element with too many operands or up
to a point at which nothing is wanted. -/
theorem wanting_or_exists (sequence : List PostfixToken) :
    Wanting sequence ∨
    (∃ unread t read, sequence = unread ++ t :: read ∧ Wanting read ∧ 2 < t.argCount) ∨
    ∃ unread t read, sequence = unread ++ t :: read ∧ Wanting read ∧ wanted (t :: read) = 0 := by
  induction sequence with
  | nil => exact .inl wanting_nil
  | cons t ts ih =>
    rcases ih with h | ⟨unread, u, read, rfl, h⟩ | ⟨unread, u, read, rfl, h⟩
    · by_cases ht : 2 < t.argCount
      · exact .inr (.inl ⟨[], t, ts, rfl, h, ht⟩)
      · by_cases hw : wanted (t :: ts) = 0
        · exact .inr (.inr ⟨[], t, ts, rfl, h, hw⟩)
        · have hpos := h.wanted_pos
          have hnext : 0 < wanted (t :: ts) := by
            rw [wanted] at hw ⊢
            omega
          exact .inl (wanting_cons.2 ⟨h, Nat.not_lt.1 ht, hnext⟩)
    · exact .inr (.inl ⟨t :: unread, u, read, rfl, h⟩)
    · exact .inr (.inr ⟨t :: unread, u, read, rfl, h⟩)

end PostfixToken

namespace Tree

open PostfixToken

variable {t : PostfixToken} {read unread : List PostfixToken}

theorem weight_postfixOrders {cs : List Tree} (h : ∀ c ∈ cs, c.Proper) :
    weight (postfixOrders cs) = cs.length := by
  induction cs with
  | nil => simp
  | cons c cs ih =>
    obtain ⟨hc, hcs⟩ := List.forall_mem_cons.1 h
    rw [postfixOrders_cons, weight_append, hc.weight_postfixOrder, ih hcs, List.length_cons]
    omega

/-- Every unfinished operator lacks an operand. -/
theorem weight_consumed_nonpos {us : List Unfinished} (hus : ∀ u ∈ us, u.Sound) :
    weight (consumed us) ≤ 0 := by
  induction us with
  | nil => exact Int.le_refl 0
  | cons u us ih =>
    obtain ⟨hu, hus⟩ := List.forall_mem_cons.1 hus
    have hrest := ih hus
    have hlack := hu.length_lt
    rw [consumed_cons, weight_append, weight_cons, weight_postfixOrders hu.proper]
    omega

/-- While something is wanted, what has been read is held by unfinished operators. -/
theorem exists_unfinished (h : Wanting read) :
    ∃ us : List Unfinished, (∀ u ∈ us, u.Sound) ∧ consumed us = read.map plain ∧
      ∀ earlier, rebuild [] (read.reverse ++ earlier) = rebuild us earlier := by
  induction read with
  | nil => exact ⟨[], by simp, rfl, fun _ => rfl⟩
  | cons t read ih =>
    obtain ⟨hread, ht, hw⟩ := wanting_cons.1 h
    obtain ⟨us, hus, hc, hr⟩ := ih hread
    have hnext : ∀ earlier, rebuild [] ((t :: read).reverse ++ earlier) =
        rebuild us (t :: earlier) := by
      intro earlier
      rw [List.reverse_cons, List.append_assoc, hr]
      rfl
    simp only [hnext, List.map_cons]
    cases hv : t.value? with
    | none =>
      refine ⟨⟨t, []⟩ :: us, sound_singleton hv (Nat.not_lt.2 ht) hus, ?_, ?_⟩
      · simp [hc, plain_of_value?_eq_none hv]
      · intro earlier
        rw [rebuild, hv]
        exact if_neg (Nat.not_lt.2 ht)
    | some v =>
      have hs := sound_of_supply (.value v) hus
      rw [hc, postfixOrder_value, List.singleton_append, ← plain_of_value? hv,
        ← List.map_cons (f := plain)] at hs
      split at hs
      · exact hs.elim
      · -- A tree that stands alone leaves nothing wanted.
        have hweight := hs.1.weight_postfixOrder
        rw [hs.2, weight_map_plain] at hweight
        rw [wanted_eq] at hw
        omega
      · rename_i us' hsup
        refine ⟨us', hs.1, hs.2, ?_⟩
        intro earlier
        rw [rebuild, hv]
        simp only [hsup]
        rfl

theorem ofPostfix_append_cons (unread read : List PostfixToken) (t : PostfixToken) :
    ofPostfix (unread ++ t :: read) = rebuild [] (read.reverse ++ t :: unread.reverse) := by
  simp [ofPostfix]

theorem ofPostfix_of_argCount_gt (h : Wanting read) (ht : 2 < t.argCount)
    (unread : List PostfixToken) :
    ofPostfix (unread ++ t :: read) = .error (.unsupportedArity t.argCount) := by
  obtain ⟨us, -, -, hr⟩ := exists_unfinished h
  have hv : t.value? = none := value?_eq_none_iff.2 (by omega)
  rw [ofPostfix_append_cons, hr, rebuild, hv]
  exact if_pos ht

/-- Once nothing is wanted, there is a tree, which has to be the last thing read. -/
theorem exists_ofPostfix_of_wanted_eq_zero (h : Wanting read) (hw : wanted (t :: read) = 0)
    (unread : List PostfixToken) :
    ∃ tree, ofPostfix (unread ++ t :: read) =
      if unread.isEmpty then .ok tree else .error (.unresolvedTokens unread.length) := by
  obtain ⟨us, hus, hc, hr⟩ := exists_unfinished h
  have ht := h.argCount_eq_zero hw
  obtain ⟨v, hv⟩ : ∃ v, t.value? = some v := by
    apply Option.ne_none_iff_exists'.1
    exact fun hn => value?_eq_none_iff.1 hn ht
  have hs := sound_of_supply (.value v) hus
  split at hs
  · exact hs.elim
  · rename_i tree hsup
    refine ⟨tree, ?_⟩
    rw [ofPostfix_append_cons, hr, rebuild, hv]
    simp only [hsup, bind, Except.bind, List.isEmpty_reverse, List.length_reverse]
    rfl
  · -- The value would leave an operator that lacks an operand.
    have hweight := weight_consumed_nonpos hs.1
    rw [hs.2, hc, weight_append, weight_map_plain, (Proper.value v).weight_postfixOrder] at hweight
    rw [wanted_eq, weight_cons] at hw
    omega

/-- Where something is still wanted at the start, the innermost unfinished operator is reported. -/
theorem exists_ofPostfix_eq_missingOperand (h : Wanting read) (hne : read ≠ []) :
    ∃ op ∈ read, (op.argCount = 1 ∨ op.argCount = 2) ∧
      ofPostfix read = .error (.missingOperand op.text) := by
  obtain ⟨us, hus, hc, hr⟩ := exists_unfinished h
  cases us with
  | nil =>
    rw [consumed_nil] at hc
    exact absurd (List.map_eq_nil_iff.1 hc.symm) hne
  | cons u us =>
    obtain ⟨hu, -⟩ := List.forall_mem_cons.1 hus
    have hlt := hu.length_lt
    have hle := hu.argCount_le
    have hmem : u.operator ∈ read.map plain := by simp [← hc]
    obtain ⟨op, hop, he⟩ := List.mem_map.1 hmem
    have hcount := argCount_plain op
    rw [he] at hcount
    have hplain : op.plain = op := plain_of_value?_eq_none (value?_eq_none_iff.2 (by omega))
    rw [hplain] at he
    refine ⟨op, hop, by omega, ?_⟩
    have hmissing := hr []
    rw [List.append_nil] at hmissing
    rw [ofPostfix, if_neg (by simpa using hne), hmissing, he]
    rfl

/-- The five ways in which rebuilding ends. -/
inductive Outcome (sequence : List PostfixToken) : Except TreeError Tree → Prop where
  | empty (h : sequence = []) : Outcome sequence (.error .empty)
  | many {unread read : List PostfixToken} {t : PostfixToken}
      (hs : sequence = unread ++ t :: read) (h : Wanting read) (ht : 2 < t.argCount) :
      Outcome sequence (.error (.unsupportedArity t.argCount))
  | tree {read : List PostfixToken} {t : PostfixToken} (hs : sequence = t :: read)
      (h : Wanting read) (hw : wanted (t :: read) = 0) (tree : Tree) : Outcome sequence (.ok tree)
  | leftOver {unread read : List PostfixToken} {t : PostfixToken}
      (hs : sequence = unread ++ t :: read) (h : Wanting read) (hw : wanted (t :: read) = 0)
      (hne : unread ≠ []) : Outcome sequence (.error (.unresolvedTokens unread.length))
  | missing (hne : sequence ≠ []) (h : Wanting sequence) {op : PostfixToken} (hop : op ∈ sequence)
      (hcount : op.argCount = 1 ∨ op.argCount = 2) :
      Outcome sequence (.error (.missingOperand op.text))

theorem outcome_ofPostfix (sequence : List PostfixToken) :
    Outcome sequence (ofPostfix sequence) := by
  rcases wanting_or_exists sequence with h | ⟨unread, t, read, hs, h, ht⟩ |
    ⟨unread, t, read, hs, h, hw⟩
  · by_cases hne : sequence = []
    · subst hne
      exact .empty rfl
    · obtain ⟨op, hop, hcount, he⟩ := exists_ofPostfix_eq_missingOperand h hne
      rw [he]
      exact .missing hne h hop hcount
  · have he := ofPostfix_of_argCount_gt h ht unread
    rw [← hs] at he
    rw [he]
    exact .many hs h ht
  · obtain ⟨tree, he⟩ := exists_ofPostfix_of_wanted_eq_zero h hw unread
    rw [← hs] at he
    rw [he]
    cases unread with
    | nil => exact .tree hs h hw tree
    | cons u unread => exact .leftOver hs h hw (by simp)

section

variable {sequence : List PostfixToken}

theorem ofPostfix_eq_empty_iff : ofPostfix sequence = .error .empty ↔ sequence = [] := by
  have hout := outcome_ofPostfix sequence
  constructor
  · intro he
    rw [he] at hout
    cases hout with
    | empty h => exact h
  · rintro rfl
    rfl

theorem ofPostfix_eq_unsupportedArity_iff {n : Nat} :
    ofPostfix sequence = .error (.unsupportedArity n) ↔
      ∃ unread t read, sequence = unread ++ t :: read ∧ Wanting read ∧ 2 < t.argCount ∧
        t.argCount = n := by
  have hout := outcome_ofPostfix sequence
  constructor
  · intro he
    rw [he] at hout
    cases hout with
    | many hs h ht => exact ⟨_, _, _, hs, h, ht, rfl⟩
  · rintro ⟨unread, t, read, rfl, h, ht, rfl⟩
    exact ofPostfix_of_argCount_gt h ht unread

theorem exists_ofPostfix_eq_ok_iff : (∃ tree, ofPostfix sequence = .ok tree) ↔
    ∃ t read, sequence = t :: read ∧ Wanting read ∧ wanted (t :: read) = 0 := by
  have hout := outcome_ofPostfix sequence
  constructor
  · rintro ⟨tree, he⟩
    rw [he] at hout
    cases hout with
    | tree hs h hw => exact ⟨_, _, hs, h, hw⟩
  · rintro ⟨t, read, rfl, h, hw⟩
    exact exists_ofPostfix_of_wanted_eq_zero h hw []

theorem ofPostfix_eq_unresolvedTokens_iff {m : Nat} :
    ofPostfix sequence = .error (.unresolvedTokens m) ↔
      ∃ unread t read, sequence = unread ++ t :: read ∧ Wanting read ∧ wanted (t :: read) = 0 ∧
        unread.length = m ∧ 0 < m := by
  have hout := outcome_ofPostfix sequence
  constructor
  · intro he
    rw [he] at hout
    cases hout with
    | leftOver hs h hw hne => exact ⟨_, _, _, hs, h, hw, rfl, List.length_pos_iff.2 hne⟩
  · rintro ⟨unread, t, read, rfl, h, hw, rfl, hpos⟩
    obtain ⟨tree, he⟩ := exists_ofPostfix_of_wanted_eq_zero h hw unread
    have hne : unread ≠ [] := List.length_pos_iff.1 hpos
    rwa [if_neg (by simpa using hne)] at he

theorem exists_ofPostfix_eq_missingOperand_iff :
    (∃ text, ofPostfix sequence = .error (.missingOperand text)) ↔
      sequence ≠ [] ∧ Wanting sequence := by
  have hout := outcome_ofPostfix sequence
  constructor
  · rintro ⟨text, he⟩
    rw [he] at hout
    cases hout with
    | missing hne h => exact ⟨hne, h⟩
  · rintro ⟨hne, h⟩
    obtain ⟨op, -, -, he⟩ := exists_ofPostfix_eq_missingOperand h hne
    exact ⟨op.text, he⟩

/-- The operator that is reported takes operands. -/
theorem exists_mem_of_missingOperand {text : String}
    (he : ofPostfix sequence = .error (.missingOperand text)) :
    ∃ op ∈ sequence, (op.argCount = 1 ∨ op.argCount = 2) ∧ op.text = text := by
  have hout := outcome_ofPostfix sequence
  rw [he] at hout
  cases hout with
  | missing _ _ hop hcount => exact ⟨_, hop, hcount, rfl⟩

theorem ofPostfix_ne_childCount (text : String) (expected actual : Nat) :
    ofPostfix sequence ≠ .error (.childCount text expected actual) := by
  intro he
  have hout := outcome_ofPostfix sequence
  rw [he] at hout
  cases hout

end

/-- How rebuilding ends is told by the operands wanted: by the first element from the end with more
than two operands while something is wanted, by the point at which nothing is wanted, or else by the
want at the start. Elements without operands become values, and none of them is reported. -/
theorem ofPostfix_classified (sequence : List PostfixToken) :
    (ofPostfix sequence = .error .empty ↔ sequence = []) ∧
    (∀ n, ofPostfix sequence = .error (.unsupportedArity n) ↔
      ∃ unread t read, sequence = unread ++ t :: read ∧ Wanting read ∧ 2 < t.argCount ∧
        t.argCount = n) ∧
    ((∃ tree, ofPostfix sequence = .ok tree) ↔
      ∃ t read, sequence = t :: read ∧ Wanting read ∧ wanted (t :: read) = 0) ∧
    (∀ m, ofPostfix sequence = .error (.unresolvedTokens m) ↔
      ∃ unread t read, sequence = unread ++ t :: read ∧ Wanting read ∧ wanted (t :: read) = 0 ∧
        unread.length = m ∧ 0 < m) ∧
    ((∃ text, ofPostfix sequence = .error (.missingOperand text)) ↔
      sequence ≠ [] ∧ Wanting sequence) ∧
    (∀ text expected actual, ofPostfix sequence ≠ .error (.childCount text expected actual)) ∧
    (∀ tree, ofPostfix sequence = .ok tree →
      tree.FewOperands ∧ tree.postfixOrder = sequence.map plain) ∧
    ∀ text, ofPostfix sequence = .error (.missingOperand text) →
      ∃ op ∈ sequence, (op.argCount = 1 ∨ op.argCount = 2) ∧ op.text = text := by
  refine ⟨ofPostfix_eq_empty_iff, fun _ => ofPostfix_eq_unsupportedArity_iff,
    exists_ofPostfix_eq_ok_iff, fun _ => ofPostfix_eq_unresolvedTokens_iff,
    exists_ofPostfix_eq_missingOperand_iff, ofPostfix_ne_childCount, ?_,
    fun _ => exists_mem_of_missingOperand⟩
  intro tree he
  obtain ⟨ht, hts⟩ := ofPostfix_eq_ok_iff.1 he
  exact ⟨ht.fewOperands, hts⟩

/-- An operator with three operands is too much while something is wanted, and left over after a
value. A difference is rebuilt with two operands, and reported with one. -/
theorem ofPostfix_classified_of_choice :
    let a : PostfixToken := .value (.literal ['a'])
    let minus : PostfixToken := .ofOperator .subtract
    let choice : PostfixToken :=
      ⟨3, [none, some (.literal ['?']), none, some (.literal [':']), none], 1, .right, rfl, rfl⟩
    ofPostfix [choice, minus] = .error (.unsupportedArity 3) ∧
      ofPostfix [choice, a] = .error (.unresolvedTokens 1) ∧
      (∃ tree, ofPostfix [a, a, minus] = .ok tree ∧ tree.FewOperands ∧
        tree.postfixOrder = [a, a, minus].map plain) ∧
      ofPostfix [a, minus] = .error (.missingOperand "-") ∧
      ∃ op ∈ [a, minus], (op.argCount = 1 ∨ op.argCount = 2) ∧ op.text = "-" := by
  intro a minus choice
  have hminus : Wanting [minus] := wanting_cons.2 ⟨wanting_nil, by decide⟩
  have hrest : Wanting [a, minus] := wanting_cons.2 ⟨hminus, by decide⟩
  obtain ⟨-, hmany, -, -, -⟩ := ofPostfix_classified [choice, minus]
  obtain ⟨-, -, -, hleft, -⟩ := ofPostfix_classified [choice, a]
  obtain ⟨-, -, htree, -, -, -, hfew, -⟩ := ofPostfix_classified [a, a, minus]
  obtain ⟨-, -, -, -, -, -, -, hoperator⟩ := ofPostfix_classified [a, minus]
  obtain ⟨tree, ht⟩ := htree.2 ⟨a, [a, minus], rfl, hrest, by decide⟩
  have hmissing : ofPostfix [a, minus] = .error (.missingOperand "-") := by decide
  exact ⟨(hmany 3).2 ⟨[], choice, [minus], rfl, hminus, by decide, rfl⟩,
    (hleft 1).2 ⟨[choice], a, [], rfl, wanting_nil, by decide, rfl, by decide⟩,
    ⟨tree, ht, hfew tree ht⟩, hmissing, hoperator _ hmissing⟩

end Tree

end Fixity
