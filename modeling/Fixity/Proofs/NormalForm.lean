import Fixity.Proofs.Except
import Fixity.Types.Expression
import Mathlib.Data.List.Basic

/-! Normal forms of type expressions. Reading a tree merges a union that is a part of another one
into it, so the tree of an expression is read as the normal form of the expression. Flat expressions
are their own normal forms, and their trees are those whose unions are folded to the left. -/
namespace Fixity

variable [WordClass]

namespace TypeName

/-- The name that stands for a union without members. -/
def nil : TypeName :=
  .literal ['n', 'i', 'l'] <| by simp [isNameCharacter_letter]

end TypeName

namespace TypeExpression

/-- Each union has at least two members, and none of them is a union. -/
inductive Flat : TypeExpression → Prop where
  | name (n : TypeName) : Flat (.name n)
  | array {t : TypeExpression} (ht : Flat t) : Flat (.array t)
  | union {ts : List TypeExpression} (htwo : 2 ≤ ts.length)
      (hnot : ∀ t ∈ ts, t.isUnion = false) (hts : ∀ t ∈ ts, Flat t) : Flat (.union ts)

mutual

/-- The expression with unions merged into the unions that they are members of, a single member in
place of its union and `nil` in place of a union without members. -/
def normalForm : TypeExpression → TypeExpression
  | .name n => .name n
  | .array items => .array items.normalForm
  | .union [] => .name .nil
  | .union (t :: ts) => unionOf (t.normalForm :: normalForms ts)

def normalForms : List TypeExpression → List TypeExpression
  | [] => []
  | t :: ts => t.normalForm :: normalForms ts

end

theorem normalForms_eq_map (ts : List TypeExpression) : normalForms ts = ts.map normalForm := by
  induction ts with
  | nil => rfl
  | cons t ts ih => rw [normalForms, ih, List.map_cons]

theorem normalForm_union {ts : List TypeExpression} (h : ts ≠ []) :
    (union ts).normalForm = unionOf (ts.map normalForm) := by
  cases ts with
  | nil => exact absurd rfl h
  | cons t ts => rw [normalForm, normalForms_eq_map, List.map_cons]

variable {s t x y : TypeExpression} {ts xs : List TypeExpression}

/-! Unions of flat expressions. -/

theorem members_eq_singleton (h : t.isUnion = false) : t.members = [t] := by
  cases t with
  | name n => rfl
  | array t => rfl
  | union ts => cases h

theorem flatMap_members_eq_self (h : ∀ t ∈ ts, t.isUnion = false) : ts.flatMap members = ts := by
  induction ts with
  | nil => rfl
  | cons t ts ih =>
    obtain ⟨ht, hts⟩ := List.forall_mem_cons.1 h
    rw [List.flatMap_cons, members_eq_singleton ht, ih hts, List.singleton_append]

theorem Flat.members_ne_nil (h : t.Flat) : t.members ≠ [] := by
  cases h with
  | name n => simp [members]
  | array ht => simp [members]
  | union htwo _ _ =>
    rintro rfl
    simp at htwo

theorem Flat.of_mem_members (h : t.Flat) (hx : x ∈ t.members) : x.Flat ∧ x.isUnion = false := by
  cases h with
  | name n =>
    obtain rfl := List.mem_singleton.1 hx
    exact ⟨.name n, rfl⟩
  | array ht =>
    obtain rfl := List.mem_singleton.1 hx
    exact ⟨.array ht, rfl⟩
  | union _ hnot hts => exact ⟨hts x hx, hnot x hx⟩

/-- A union has the members of its parts, if these are no unions. -/
theorem members_unionOf_of_members (h : ∀ t ∈ ts, ∀ x ∈ t.members, x.isUnion = false) :
    (unionOf ts).members = ts.flatMap members := by
  rw [unionOf]
  split
  · rename_i only honly
    have hmem : only ∈ ts.flatMap members := by simp [honly]
    obtain ⟨t, ht, hx⟩ := List.mem_flatMap.1 hmem
    rw [honly, members_eq_singleton (h t ht only hx)]
  · rfl

theorem members_unionOf (h : ∀ t ∈ ts, t.Flat) : (unionOf ts).members = ts.flatMap members :=
  members_unionOf_of_members fun t ht _ hx => ((h t ht).of_mem_members hx).2

theorem flat_unionOf (hne : ts ≠ []) (h : ∀ t ∈ ts, t.Flat) : (unionOf ts).Flat := by
  have hmem : ∀ x ∈ ts.flatMap members, x.Flat ∧ x.isUnion = false := by
    intro x hx
    obtain ⟨t, ht, hx⟩ := List.mem_flatMap.1 hx
    exact (h t ht).of_mem_members hx
  have hpos : ts.flatMap members ≠ [] := by
    obtain ⟨t, ht⟩ := List.exists_mem_of_ne_nil ts hne
    intro hnil
    exact (h t ht).members_ne_nil (List.flatMap_eq_nil_iff.1 hnil t ht)
  rw [unionOf]
  split
  · rename_i only honly
    exact (hmem only (by simp [honly])).1
  · rename_i hmany
    refine .union ?_ (fun x hx => (hmem x hx).2) (fun x hx => (hmem x hx).1)
    match hms : ts.flatMap members with
    | [] => exact absurd hms hpos
    | [only] => exact absurd hms (hmany only)
    | _ :: _ :: _ => simp

/-- A union depends on the members of its parts alone. -/
theorem unionOf_congr (h : ts.flatMap members = xs.flatMap members) : unionOf ts = unionOf xs := by
  rw [unionOf, h, unionOf]

/-- A union of unions is the union of all that these are unions of. -/
theorem unionOf_map_unionOf {tss : List (List TypeExpression)}
    (h : ∀ ts ∈ tss, ∀ t ∈ ts, ∀ x ∈ t.members, x.isUnion = false) :
    unionOf (tss.map unionOf) = unionOf tss.flatten := by
  apply unionOf_congr
  rw [List.flatMap_map, List.flatten_eq_flatMap, List.flatMap_assoc]
  exact List.flatMap_congr fun ts hts => members_unionOf_of_members (h ts hts)

theorem Flat.unionOf_singleton (h : t.Flat) : unionOf [t] = t := by
  cases h with
  | name n => rfl
  | array ht => rfl
  | @union ts htwo _ _ =>
    match ts with
    | _ :: _ :: _ => simp [unionOf, members]

/-- A union that is a part of another one can be replaced by its own parts. -/
theorem unionOf_append_singleton (h : ∀ t ∈ ts, t.Flat) (t : TypeExpression) :
    unionOf [unionOf ts, t] = unionOf (ts ++ [t]) := by
  apply unionOf_congr
  simp [members_unionOf h]

mutual

theorem flat_normalForm : (t : TypeExpression) → t.normalForm.Flat
  | .name n => .name n
  | .array items => .array (flat_normalForm items)
  | .union [] => .name .nil
  | .union (t :: ts) => by
    rw [normalForm]
    exact flat_unionOf (by simp)
      (List.forall_mem_cons.2 ⟨flat_normalForm t, flat_normalForms ts⟩)

theorem flat_normalForms : (ts : List TypeExpression) → ∀ t ∈ normalForms ts, t.Flat
  | [] => by simp [normalForms]
  | t :: ts => List.forall_mem_cons.2 ⟨flat_normalForm t, flat_normalForms ts⟩

end

theorem Flat.normalForm_eq_self (h : t.Flat) : t.normalForm = t := by
  induction h with
  | name n => rfl
  | array _ ih => rw [normalForm, ih]
  | @union ts htwo hnot _ ih =>
    have hne : ts ≠ [] := by
      rintro rfl
      simp at htwo
    rw [normalForm_union hne, List.map_congr_left ih, List.map_id', unionOf,
      flatMap_members_eq_self hnot]
    match ts with
    | _ :: _ :: _ => rfl

theorem normalForm_eq_self_iff : t.normalForm = t ↔ t.Flat :=
  ⟨fun h => h ▸ flat_normalForm t, Flat.normalForm_eq_self⟩

/-! The tree of an expression. -/

theorem foldTrees_append (folded : Tree) (ts xs : List TypeExpression) :
    foldTrees folded (ts ++ xs) = foldTrees (foldTrees folded ts) xs := by
  induction ts generalizing folded with
  | nil => rfl
  | cons t ts ih => rw [List.cons_append, foldTrees, foldTrees, ih]

mutual

/-- The check of the operators never fails. -/
theorem checkedTree_eq : (t : TypeExpression) → t.checkedTree = .ok t.toTree
  | .name n => rfl
  | .array items => by
    rw [checkedTree, checkedTree_eq items]
    rfl
  | .union [] => rfl
  | .union (t :: ts) => by
    rw [checkedTree, checkedTree_eq t, toTree]
    exact checkedFold_eq t.toTree ts

theorem checkedFold_eq (folded : Tree) :
    (ts : List TypeExpression) → checkedFold folded ts = .ok (foldTrees folded ts)
  | [] => rfl
  | t :: ts => by
    rw [checkedFold, checkedTree_eq t, foldTrees]
    exact checkedFold_eq (unionTree folded t.toTree) ts

end

theorem ofTree_name (n : TypeName) : ofTree (.value n.token) = .ok (.name n) := by
  rw [ofTree]
  simp [Except.map]

theorem ofTree_array_eq_ok_iff {a : Tree} :
    ofTree (.node (.ofOperator .array) [a]) = .ok t ↔ ∃ x, ofTree a = .ok x ∧ .array x = t := by
  rw [ofTree, if_pos (by decide), bind_eq_ok_iff]
  simp [pure, Except.pure]

theorem ofTree_array {a : Tree} (h : ofTree a = .ok x) :
    ofTree (.node (.ofOperator .array) [a]) = .ok (.array x) :=
  ofTree_array_eq_ok_iff.2 ⟨x, h, rfl⟩

theorem ofTree_unionTree_eq_ok_iff {a b : Tree} : ofTree (unionTree a b) = .ok t ↔
    ∃ x, ofTree a = .ok x ∧ ∃ y, ofTree b = .ok y ∧ unionOf [x, y] = t := by
  rw [unionTree, ofTree, if_pos (by decide)]
  simp only [bind_eq_ok_iff]
  simp [pure, Except.pure]

theorem ofTree_unionTree {a b : Tree} (ha : ofTree a = .ok x) (hb : ofTree b = .ok y) :
    ofTree (unionTree a b) = .ok (unionOf [x, y]) :=
  ofTree_unionTree_eq_ok_iff.2 ⟨x, ha, y, hb, rfl⟩

/-- What is read is flat. -/
theorem flat_of_ofTree {a : Tree} (h : ofTree a = .ok t) : t.Flat := by
  fun_induction ofTree a generalizing t with
  | case1 x =>
    cases hn : TypeName.ofChars x.chars with
    | error e => simp [hn, Except.map] at h
    | ok n =>
      rw [hn] at h
      cases h
      exact .name n
  | case2 op items _ ih =>
    obtain ⟨s, hs, ⟨⟩⟩ := bind_eq_ok_iff.1 h
    exact .array (ih hs)
  | case3 => cases h
  | case4 op left right _ ihl ihr =>
    obtain ⟨l, hl, h⟩ := bind_eq_ok_iff.1 h
    obtain ⟨r, hr, ⟨⟩⟩ := bind_eq_ok_iff.1 h
    exact flat_unionOf (by simp) (by simp [ihl hl, ihr hr])
  | case5 => cases h
  | case6 => cases h

theorem flat_of_parse {input : String} (h : parse input = .ok t) : t.Flat := by
  obtain ⟨a, -, ha⟩ := bind_eq_ok_iff.1 h
  exact flat_of_ofTree ha

mutual

/-- Reading the tree of an expression gives its normal form. -/
theorem ofTree_toTree : (t : TypeExpression) → ofTree t.toTree = .ok t.normalForm
  | .name n => ofTree_name n
  | .array items => ofTree_array (ofTree_toTree items)
  | .union [] => ofTree_name .nil
  | .union (t :: ts) => by
    have hfirst : ofTree t.toTree = .ok (unionOf [t.normalForm]) := by
      rw [ofTree_toTree t, (flat_normalForm t).unionOf_singleton]
    rw [toTree, normalForm]
    exact ofTree_foldTrees (by simp [flat_normalForm]) hfirst ts

/-- Each further member of a union is added to those that were read before it. -/
theorem ofTree_foldTrees {xs : List TypeExpression} {folded : Tree} (hxs : ∀ x ∈ xs, x.Flat)
    (h : ofTree folded = .ok (unionOf xs)) : (ts : List TypeExpression) →
      ofTree (foldTrees folded ts) = .ok (unionOf (xs ++ normalForms ts))
  | [] => by simpa [foldTrees, normalForms] using h
  | t :: ts => by
    -- The invariant: what has been read so far is the union of `xs`, and all of these are flat.
    have hflat : ∀ x ∈ xs ++ [t.normalForm], x.Flat :=
      List.forall_mem_append.2 ⟨hxs, by simp [flat_normalForm]⟩
    have hnext := ofTree_unionTree h (ofTree_toTree t)
    rw [unionOf_append_singleton hxs] at hnext
    simpa [foldTrees, normalForms] using ofTree_foldTrees hflat hnext ts

end

/-! Trees whose unions are folded to the left. -/

/-- A tree over names in which no union has a union as its right operand. -/
inductive Folded : Tree → Prop where
  | name (n : TypeName) : Folded (.value n.token)
  | array {a : Tree} (ha : Folded a) : Folded (.node (.ofOperator .array) [a])
  | union {a b : Tree} (ha : Folded a) (hb : Folded b) (hnot : b.root ≠ .ofOperator .union) :
      Folded (unionTree a b)

theorem root_foldTrees (folded : Tree) (h : ts ≠ []) :
    (foldTrees folded ts).root = .ofOperator .union := by
  rw [← List.dropLast_append_getLast h, foldTrees_append]
  rfl

theorem Flat.root_toTree_eq_iff (h : t.Flat) :
    t.toTree.root = .ofOperator .union ↔ t.isUnion = true := by
  cases h with
  | name n => simp [toTree, Tree.root, isUnion, PostfixToken.value_ne_ofOperator]
  | array _ =>
    simp only [toTree, Tree.root, isUnion]
    decide
  | @union ts htwo _ _ =>
    cases ts with
    | nil => simp at htwo
    | cons t ts =>
      have hne : ts ≠ [] := by
        rintro rfl
        simp at htwo
      simp [toTree, root_foldTrees _ hne, isUnion]

theorem folded_foldTrees {a : Tree} (ha : Folded a)
    (h : ∀ t ∈ ts, Folded t.toTree ∧ t.toTree.root ≠ .ofOperator .union) :
    Folded (foldTrees a ts) := by
  induction ts generalizing a with
  | nil => exact ha
  | cons t ts ih =>
    obtain ⟨⟨ht, hnot⟩, hts⟩ := List.forall_mem_cons.1 h
    exact ih (.union ha ht hnot) hts

theorem Flat.folded_toTree (h : t.Flat) : Folded t.toTree := by
  induction h with
  | name n => exact .name n
  | array _ ih => exact .array ih
  | @union ts htwo hnot hts ih =>
    match ts with
    | t :: ts =>
      have hroot : ∀ x ∈ t :: ts, x.toTree.root ≠ .ofOperator .union := by
        intro x hx
        simp [(hts x hx).root_toTree_eq_iff, hnot x hx]
      exact folded_foldTrees (ih t List.mem_cons_self) fun x hx =>
        ⟨ih x (List.mem_cons_of_mem t hx), hroot x (List.mem_cons_of_mem t hx)⟩

/-- Further members of a union are folded onto the tree of the union. -/
theorem Flat.toTree_union_members_append (h : t.Flat) (ts : List TypeExpression) :
    (TypeExpression.union (t.members ++ ts)).toTree = foldTrees t.toTree ts := by
  cases h with
  | name n => rfl
  | array _ => rfl
  | @union xs htwo _ _ =>
    match xs with
    | x :: xs => exact foldTrees_append x.toTree xs ts

/-- A tree that is folded to the left is the tree of a flat expression. -/
theorem Folded.exists_flat {a : Tree} (h : Folded a) :
    ∃ t : TypeExpression, t.Flat ∧ t.toTree = a := by
  induction h with
  | name n => exact ⟨.name n, .name n, rfl⟩
  | array _ ih =>
    obtain ⟨t, ht, rfl⟩ := ih
    exact ⟨.array t, .array ht, rfl⟩
  | union _ _ hnot iha ihb =>
    obtain ⟨s, hs, rfl⟩ := iha
    obtain ⟨t, ht, rfl⟩ := ihb
    -- The left operand may be a union, so its members are taken; the right one is a member itself.
    have htu : t.isUnion = false := by simpa [ht.root_toTree_eq_iff] using hnot
    have hmem : ∀ x ∈ s.members ++ [t], x.Flat ∧ x.isUnion = false :=
      List.forall_mem_append.2 ⟨fun x hx => hs.of_mem_members hx, by simp [ht, htu]⟩
    have hpos := List.length_pos_iff.2 hs.members_ne_nil
    refine ⟨.union (s.members ++ [t]), .union ?_ (fun x hx => (hmem x hx).2)
      (fun x hx => (hmem x hx).1), hs.toTree_union_members_append [t]⟩
    rw [List.length_append, List.length_singleton]
    omega

/-- An expression has the tree of its normal form if and only if that tree is folded to the left. -/
theorem toTree_normalForm_iff : t.normalForm.toTree = t.toTree ↔ Folded t.toTree := by
  constructor
  · intro h
    rw [← h]
    exact (flat_normalForm t).folded_toTree
  · intro h
    obtain ⟨s, hs, hst⟩ := h.exists_flat
    have hnormal := ofTree_toTree s
    rw [hst, ofTree_toTree t, hs.normalForm_eq_self] at hnormal
    cases hnormal
    exact hst

end TypeExpression

end Fixity
