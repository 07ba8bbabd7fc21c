import Fixity.Tree
import Mathlib.Data.List.Basic

/-! Postfix order as a faithful form of trees. A tree of unary and binary operators is rebuilt from
its postfix order, and no sequence yields another tree than the one whose postfix order it is. -/
namespace Fixity

namespace PostfixToken

/-- The operands that a sequence leaves: each element adds one and consumes its own. -/
def weight : List PostfixToken → Int
  | [] => 0
  | t :: ts => 1 - t.argCount + weight ts

@[simp] theorem weight_nil : weight [] = 0 := rfl

@[simp] theorem weight_cons (t : PostfixToken) (ts : List PostfixToken) :
    weight (t :: ts) = 1 - t.argCount + weight ts := rfl

@[simp] theorem weight_append (ss ts : List PostfixToken) :
    weight (ss ++ ts) = weight ss + weight ts := by
  induction ss with
  | nil => simp
  | cons s ss ih =>
    rw [List.cons_append, weight_cons, weight_cons, ih]
    omega

@[simp] theorem weight_reverse (ts : List PostfixToken) : weight ts.reverse = weight ts := by
  induction ts with
  | nil => rfl
  | cons t ts ih =>
    rw [List.reverse_cons, weight_append, ih, weight_cons, weight_cons, weight_nil]
    omega

/-- The one slot of an element without operands holds its token. -/
theorem value?_eq_none_iff {t : PostfixToken} : t.value? = none ↔ t.argCount ≠ 0 := by
  constructor
  · intro hv h0
    have hl := t.length_slots
    have hc := t.count_slots
    rw [h0] at hl hc
    obtain ⟨slot, hs⟩ := List.length_eq_one_iff.1 hl
    rw [value?, if_pos h0, hs] at hv
    rw [hs] at hc
    cases slot with
    | none => simp at hc
    | some _ => cases hv
  · exact fun h => if_neg h

/-- The element that a tree puts in the place of this one: where there are no operands, nothing but
the token counts. -/
def plain (t : PostfixToken) : PostfixToken :=
  match t.value? with
  | some v => .value v
  | none => t

theorem plain_of_value? {t : PostfixToken} {v : Token} (h : t.value? = some v) :
    t.plain = .value v := by
  rw [plain, h]

theorem plain_of_value?_eq_none {t : PostfixToken} (h : t.value? = none) : t.plain = t := by
  rw [plain, h]

@[simp] theorem argCount_plain (t : PostfixToken) : t.plain.argCount = t.argCount := by
  cases hv : t.value? with
  | none => rw [plain_of_value?_eq_none hv]
  | some v =>
    have h0 : t.argCount = 0 := by
      by_contra hne
      cases hv.symm.trans (value?_eq_none_iff.2 hne)
    rw [plain_of_value? hv, argCount_value, h0]

theorem weight_map_plain (ts : List PostfixToken) : weight (ts.map plain) = weight ts := by
  induction ts with
  | nil => rfl
  | cons t ts ih => rw [List.map_cons, weight_cons, weight_cons, argCount_plain, ih]

end PostfixToken

namespace Tree

open PostfixToken

/-- The tree is made of unary and binary operators with their operands. -/
inductive Proper : Tree → Prop where
  | value (t : Token) : Proper (.value t)
  | unary {op : PostfixToken} {c : Tree} (h : op.argCount = 1) (hc : Proper c) :
      Proper (.node op [c])
  | binary {op : PostfixToken} {l r : Tree} (h : op.argCount = 2) (hl : Proper l)
      (hr : Proper r) : Proper (.node op [l, r])

theorem Proper.weight_postfixOrder {t : Tree} (h : t.Proper) : weight t.postfixOrder = 1 := by
  induction h with
  | value => simp
  | unary h _ ih => simp [h, ih]
  | binary h _ _ ihl ihr => simp [h, ihl, ihr]

/-- Rebuilding after an operand has been found. -/
def resume (operand : Tree) (unfinished : List Unfinished) (earlier : List PostfixToken) :
    Except TreeError Tree := do
  match ← supply operand unfinished with
  | .inr unfinished => rebuild unfinished earlier
  | .inl tree => if earlier.isEmpty then return tree else throw (.unresolvedTokens earlier.length)

theorem rebuild_value (t : Token) (us : List Unfinished) (earlier : List PostfixToken) :
    rebuild us (.value t :: earlier) = resume (.value t) us earlier := rfl

theorem rebuild_operator {op : PostfixToken} (h : op.argCount = 1 ∨ op.argCount = 2)
    (us : List Unfinished) (earlier : List PostfixToken) :
    rebuild us (op :: earlier) = rebuild (⟨op, []⟩ :: us) earlier := by
  have hv : op.value? = none := if_neg (by omega)
  have ha : ¬2 < op.argCount := by omega
  simp [rebuild, hv, ha]

theorem resume_waiting {op : PostfixToken} {cs : List Tree} (h : cs.length + 1 < op.argCount)
    (t : Tree) (us : List Unfinished) (earlier : List PostfixToken) :
    resume t (⟨op, cs⟩ :: us) earlier = rebuild (⟨op, t :: cs⟩ :: us) earlier := by
  simp only [resume, supply, if_pos h]
  rfl

theorem resume_finished {op : PostfixToken} {cs : List Tree} (h : cs.length + 1 = op.argCount)
    (t : Tree) (us : List Unfinished) (earlier : List PostfixToken) :
    resume t (⟨op, cs⟩ :: us) earlier = resume (.node op (t :: cs)) us earlier := by
  have hw : ¬cs.length + 1 < op.argCount := by omega
  have ho : ofOperator op (t :: cs) = .ok (.node op (t :: cs)) := if_neg (by simp; omega)
  simp only [resume, supply, if_neg hw, ho]
  rfl

/-- Reading the postfix order of a tree from its end finds the tree as one operand. -/
theorem Proper.rebuild_reverse {t : Tree} (h : t.Proper) (us : List Unfinished)
    (earlier : List PostfixToken) :
    rebuild us (t.postfixOrder.reverse ++ earlier) = resume t us earlier := by
  induction h generalizing us earlier with
  | value t => exact rebuild_value t us earlier
  | unary h _ ih =>
    simp only [postfixOrder_node, postfixOrders_cons, postfixOrders_nil, List.append_nil,
      List.reverse_append, List.reverse_singleton, List.cons_append, List.nil_append]
    rw [rebuild_operator (.inl h), ih, resume_finished (by simp [h])]
  | binary h _ _ ihl ihr =>
    simp only [postfixOrder_node, postfixOrders_cons, postfixOrders_nil, List.append_nil,
      List.reverse_append, List.reverse_singleton, List.cons_append, List.nil_append,
      List.append_assoc]
    rw [rebuild_operator (.inr h), ihr, resume_waiting (by simp [h]), ihl,
      resume_finished (by simp [h])]

theorem Proper.ofPostfix_postfixOrder {t : Tree} (h : t.Proper) :
    ofPostfix t.postfixOrder = .ok t := by
  have hne : t.postfixOrder ≠ [] := by
    intro he
    have hw := h.weight_postfixOrder
    simp [he] at hw
  have hr := h.rebuild_reverse [] []
  rw [List.append_nil] at hr
  rw [ofPostfix, if_neg (by simpa using hne), hr]
  rfl

end Tree

/-- The operator takes one or two operands. It lacks some, and those that it has are proper. -/
structure Unfinished.Sound (u : Unfinished) : Prop where
  argCount_le : u.operator.argCount ≤ 2
  length_lt : u.children.length < u.operator.argCount
  proper : ∀ c ∈ u.children, c.Proper

theorem Unfinished.Sound.proper_node {u : Unfinished} (hu : u.Sound) {t : Tree} (ht : t.Proper)
    (h : u.children.length + 1 = u.operator.argCount) :
    (Tree.node u.operator (t :: u.children)).Proper := by
  obtain ⟨op, cs⟩ := u
  rcases cs with _ | ⟨c, _ | ⟨d, cs⟩⟩
  · exact .unary h.symm ht
  · exact .binary h.symm ht (hu.proper c (by simp))
  · have hle := hu.argCount_le
    simp only [List.length_cons] at h hle
    omega

namespace Tree

open PostfixToken

/-- What has been read of a sequence, from the point reached to its end. -/
def consumed (us : List Unfinished) : List PostfixToken :=
  us.flatMap fun u => postfixOrders u.children ++ [u.operator]

@[simp] theorem consumed_nil : consumed [] = [] := rfl

@[simp] theorem consumed_cons (u : Unfinished) (us : List Unfinished) :
    consumed (u :: us) = postfixOrders u.children ++ u.operator :: consumed us := by
  simp [consumed]

/-- An operand is added to what has been read, whether it leaves an operator that lacks another one
or was the last one wanted. -/
theorem sound_of_supply {us : List Unfinished} {t : Tree} (ht : t.Proper)
    (hus : ∀ u ∈ us, u.Sound) :
    match supply t us with
    | .error _ => False
    | .ok (.inl tree) => tree.Proper ∧ tree.postfixOrder = t.postfixOrder ++ consumed us
    | .ok (.inr us') => (∀ u ∈ us', u.Sound) ∧ consumed us' = t.postfixOrder ++ consumed us := by
  induction us generalizing t with
  | nil => simp [supply, ht]
  | cons u us ih =>
    obtain ⟨hu, hus⟩ := List.forall_mem_cons.1 hus
    by_cases hw : u.children.length + 1 < u.operator.argCount
    · have hmore : Unfinished.Sound ⟨u.operator, t :: u.children⟩ :=
        ⟨hu.argCount_le, hw, List.forall_mem_cons.2 ⟨ht, hu.proper⟩⟩
      simp only [supply, if_pos hw]
      exact ⟨List.forall_mem_cons.2 ⟨hmore, hus⟩, by simp⟩
    · have hlen : u.children.length + 1 = u.operator.argCount := by
        have hlt := hu.length_lt
        omega
      have ho : ofOperator u.operator (t :: u.children) =
          .ok (.node u.operator (t :: u.children)) := if_neg (by simp; omega)
      have hs : supply t (u :: us) = supply (.node u.operator (t :: u.children)) us := by
        simp only [supply, if_neg hw, ho]
        rfl
      have he : (node u.operator (t :: u.children)).postfixOrder ++ consumed us =
          t.postfixOrder ++ consumed (u :: us) := by simp
      rw [hs, ← he]
      exact ih (hu.proper_node ht hlen) hus

theorem sound_singleton {op : PostfixToken} (h : op.value? = none) (hle : ¬2 < op.argCount)
    {us : List Unfinished} (hus : ∀ u ∈ us, u.Sound) :
    ∀ u ∈ (⟨op, []⟩ : Unfinished) :: us, u.Sound :=
  List.forall_mem_cons.2
    ⟨⟨Nat.not_lt.1 hle, Nat.pos_of_ne_zero (value?_eq_none_iff.1 h), by simp⟩, hus⟩

/-- What is rebuilt is a proper tree whose postfix order has been read. -/
theorem sound_of_rebuild {ts : List PostfixToken} {us : List Unfinished} {t : Tree}
    (h : rebuild us ts = .ok t) (hus : ∀ u ∈ us, u.Sound) :
    t.Proper ∧ t.postfixOrder = (ts.map plain).reverse ++ consumed us := by
  induction ts generalizing us with
  | nil => simp [rebuild] at h
  | cons e ts ih =>
    rw [rebuild] at h
    split at h
    · rename_i v hv
      have hs := sound_of_supply (.value v) hus
      split at hs
      · exact hs.elim
      · rename_i hsup
        rw [hsup] at h
        cases ts with
        | nil =>
          cases h
          simpa [plain_of_value? hv] using hs
        | cons => cases h
      · rename_i us' hsup
        rw [hsup] at h
        obtain ⟨hp, ho⟩ := ih h hs.1
        exact ⟨hp, by simp [ho, hs.2, plain_of_value? hv]⟩
    · rename_i hv
      split at h
      · cases h
      · rename_i hle
        obtain ⟨hp, ho⟩ := ih h (sound_singleton hv hle hus)
        exact ⟨hp, by simp [ho, plain_of_value?_eq_none hv]⟩

/-- Elements without operands differ from values in nothing that matters here. -/
theorem rebuild_map_plain (us : List Unfinished) (ts : List PostfixToken) :
    rebuild us (ts.map plain) = rebuild us ts := by
  induction ts generalizing us with
  | nil => rfl
  | cons e ts ih =>
    cases hv : e.value? with
    | some v => simp [rebuild, plain_of_value? hv, hv, ih]
    | none => simp [rebuild, plain_of_value?_eq_none hv, hv, ih]

theorem ofPostfix_map_plain (ts : List PostfixToken) : ofPostfix (ts.map plain) = ofPostfix ts := by
  rw [ofPostfix, ← List.map_reverse, rebuild_map_plain, List.isEmpty_map, ofPostfix]

/-- Rebuilding undoes writing in postfix order, and nothing else is rebuilt. -/
theorem ofPostfix_eq_ok_iff {ts : List PostfixToken} {t : Tree} :
    ofPostfix ts = .ok t ↔ t.Proper ∧ t.postfixOrder = ts.map plain := by
  constructor
  · intro h
    rw [ofPostfix] at h
    split at h
    · cases h
    · simpa using sound_of_rebuild h (List.forall_mem_nil _)
  · rintro ⟨ht, hts⟩
    rw [← ofPostfix_map_plain, ← hts, ht.ofPostfix_postfixOrder]

theorem weight_of_ofPostfix {ts : List PostfixToken} {t : Tree} (h : ofPostfix ts = .ok t) :
    weight ts = 1 := by
  obtain ⟨ht, hts⟩ := ofPostfix_eq_ok_iff.1 h
  rw [← weight_map_plain, ← hts, ht.weight_postfixOrder]

end Tree

end Fixity
