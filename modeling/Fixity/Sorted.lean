/-! Lists kept in a strict order by insertion: each element stands once, and what is inserted at an
occupied place replaces the one that stood there. -/
namespace Fixity

variable {α : Type _}

/-- Puts `a` at its place in a list ordered by `before`. -/
def insertSorted (before : α → α → Bool) (a : α) : List α → List α
  | [] => [a]
  | b :: rest =>
    if before a b then a :: b :: rest
    else if before b a then b :: insertSorted before a rest
    else a :: rest

/-- The members of a list in the order of `before`, each once. -/
def sortDistinct (before : α → α → Bool) (xs : List α) : List α :=
  xs.foldr (insertSorted before) []

@[simp] theorem insertSorted_nil (before : α → α → Bool) (a : α) :
    insertSorted before a [] = [a] := rfl

@[simp] theorem sortDistinct_nil (before : α → α → Bool) : sortDistinct before [] = [] := rfl

@[simp] theorem sortDistinct_cons (before : α → α → Bool) (a : α) (xs : List α) :
    sortDistinct before (a :: xs) = insertSorted before a (sortDistinct before xs) := rfl

theorem eq_or_mem_of_mem_insertSorted {before : α → α → Bool} {a b : α} {xs : List α}
    (h : b ∈ insertSorted before a xs) : b = a ∨ b ∈ xs := by
  induction xs with
  | nil => simpa using h
  | cons x rest ih =>
    unfold insertSorted at h
    split at h
    · simpa using h
    · split at h
      · rcases List.mem_cons.1 h with rfl | h
        · simp
        · rcases ih h with h | h <;> simp [h]
      · rcases List.mem_cons.1 h with h | h <;> simp [h]

/-- A strict order in which elements that are not ordered come before the same elements. -/
structure IsWeakOrder (before : α → α → Bool) : Prop where
  trans {a b c : α} : before a b = true → before b c = true → before a c = true
  of_incomparable {a b c : α} :
    before a b = false → before b a = false → before b c = true → before a c = true

theorem IsWeakOrder.comap {β : Type _} {before : α → α → Bool} (hb : IsWeakOrder before)
    (key : β → α) : IsWeakOrder fun a b => before (key a) (key b) :=
  ⟨hb.trans, hb.of_incomparable⟩

theorem IsWeakOrder.antisymm {before : α → α → Bool} (hb : IsWeakOrder before)
    (hirrefl : ∀ a, before a a = false) : Std.Antisymm fun a b => before a b = true := by
  refine ⟨fun a b hab hba => ?_⟩
  have h := hb.trans hab hba
  rw [hirrefl a] at h
  cases h

theorem pairwise_insertSorted {before : α → α → Bool} (hb : IsWeakOrder before) (a : α)
    {xs : List α} (h : xs.Pairwise fun x y => before x y = true) :
    (insertSorted before a xs).Pairwise fun x y => before x y = true := by
  induction xs with
  | nil => simp
  | cons x rest ih =>
    obtain ⟨hx, hrest⟩ := List.pairwise_cons.1 h
    unfold insertSorted
    split
    · rename_i hax
      refine List.pairwise_cons.2 ⟨?_, h⟩
      intro y hy
      rcases List.mem_cons.1 hy with rfl | hy
      · exact hax
      · exact hb.trans hax (hx y hy)
    · rename_i hax
      split
      · rename_i hxa
        refine List.pairwise_cons.2 ⟨?_, ih hrest⟩
        intro y hy
        rcases eq_or_mem_of_mem_insertSorted hy with rfl | hy
        · exact hxa
        · exact hx y hy
      · rename_i hxa
        refine List.pairwise_cons.2 ⟨?_, hrest⟩
        intro y hy
        exact hb.of_incomparable (Bool.eq_false_iff.2 hax) (Bool.eq_false_iff.2 hxa) (hx y hy)

theorem pairwise_sortDistinct {before : α → α → Bool} (hb : IsWeakOrder before) (xs : List α) :
    (sortDistinct before xs).Pairwise fun x y => before x y = true := by
  induction xs with
  | nil => exact .nil
  | cons x rest ih => exact pairwise_insertSorted hb x ih

theorem mem_of_mem_sortDistinct {before : α → α → Bool} {b : α} {xs : List α}
    (h : b ∈ sortDistinct before xs) : b ∈ xs := by
  induction xs with
  | nil => exact h
  | cons x rest ih =>
    rcases eq_or_mem_of_mem_insertSorted h with rfl | h
    · simp
    · simp [ih h]

theorem mem_insertSorted_self (before : α → α → Bool) (a : α) (xs : List α) :
    a ∈ insertSorted before a xs := by
  fun_induction insertSorted before a xs with
  | case1 => simp
  | case2 => simp
  | case3 b rest _ _ ih => exact List.mem_cons_of_mem b ih
  | case4 => simp

/-- Only elements that are ordered neither way replace each other. -/
theorem mem_insertSorted_of_mem {before : α → α → Bool}
    (hb : ∀ a b, before a b = false → before b a = false → a = b) (a : α) {b : α} {xs : List α}
    (h : b ∈ xs) : b ∈ insertSorted before a xs := by
  fun_induction insertSorted before a xs with
  | case1 => simp at h
  | case2 => exact List.mem_cons_of_mem a h
  | case3 x rest _ _ ih =>
    rcases List.mem_cons.1 h with rfl | h
    · simp
    · exact List.mem_cons_of_mem x (ih h)
  | case4 x rest hax hxa =>
    obtain rfl := hb a x (Bool.eq_false_iff.2 hax) (Bool.eq_false_iff.2 hxa)
    exact h

/-- Searching finds the new element first, and what it replaced was found just if it is. -/
theorem find?_insertSorted {before : α → α → Bool} {p : α → Bool} {a : α}
    (hbefore : ∀ b, before b a = true → p a = true → p b = false)
    (hreplaced : ∀ b, before a b = false → before b a = false → p b = p a) (xs : List α) :
    (insertSorted before a xs).find? p = if p a = true then some a else xs.find? p := by
  fun_induction insertSorted before a xs with
  | case1 => cases hp : p a <;> simp [hp]
  | case2 => cases hp : p a <;> simp [hp]
  | case3 b rest _ hba ih =>
    cases hp : p a with
    | true => simp [hbefore b hba hp, ih, hp]
    | false => simp [List.find?_cons, ih, hp]
  | case4 b rest hab hba =>
    have hpb := hreplaced b (Bool.eq_false_iff.2 hab) (Bool.eq_false_iff.2 hba)
    cases hp : p a <;> simp [hp, hpb]

theorem mem_sortDistinct_iff {before : α → α → Bool}
    (hb : ∀ a b, before a b = false → before b a = false → a = b) {b : α} {xs : List α} :
    b ∈ sortDistinct before xs ↔ b ∈ xs := by
  refine ⟨mem_of_mem_sortDistinct, fun h => ?_⟩
  induction xs with
  | nil => exact h
  | cons x rest ih =>
    rcases List.mem_cons.1 h with rfl | h
    · exact mem_insertSorted_self before b (sortDistinct before rest)
    · exact mem_insertSorted_of_mem hb x (ih h)

end Fixity
