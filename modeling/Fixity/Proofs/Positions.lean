import Fixity.Tree.Graphviz
import Mathlib.Data.List.Basic

/-! The nodes of a tree, told apart by where they stand. A position lists which child to take at
each step on the way down from the root, so the words that are positions, in the order of a
dictionary, are the nodes in pre-order. -/
namespace Fixity.Tree

/-- The part of the tree at a position. -/
def subtree? (t : Tree) : List Nat → Option Tree
  | [] => some t
  | i :: p => t.children[i]?.bind fun c => c.subtree? p

mutual

/-- The nodes in pre-order: the position of each, and the part of the tree of which it is the
root. -/
def nodes : Tree → List (List Nat × Tree)
  | .value x => [([], .value x)]
  | .node op cs => ([], .node op cs) :: nodesFrom 0 cs

/-- The nodes of siblings, the first of which is child `i` of their parent. -/
def nodesFrom (i : Nat) : List Tree → List (List Nat × Tree)
  | [] => []
  | t :: ts => t.nodes.map (Prod.map (i :: ·) id) ++ nodesFrom (i + 1) ts

end

mutual

/-- The positions in post-order. -/
def positionsUp : Tree → List (List Nat)
  | .value _ => [[]]
  | .node _ cs => positionsUpFrom 0 cs ++ [[]]

def positionsUpFrom (i : Nat) : List Tree → List (List Nat)
  | [] => []
  | t :: ts => t.positionsUp.map (i :: ·) ++ positionsUpFrom (i + 1) ts

end

variable {t u s : Tree} {ts : List Tree} {i : Nat} {p : List Nat}

theorem nodes_eq (t : Tree) : t.nodes = ([], t) :: nodesFrom 0 t.children := by
  cases t <;> rfl

theorem positionsUp_eq (t : Tree) : t.positionsUp = positionsUpFrom 0 t.children ++ [[]] := by
  cases t <;> rfl

theorem size_eq (t : Tree) : t.size = sizes t.children + 1 := by
  cases t <;> rfl

/-- What holds of every tree of whose children it holds, holds of all trees. -/
theorem induction {P : Tree → Prop} (h : ∀ t, (∀ c ∈ t.children, P c) → P t) (t : Tree) : P t :=
  @Tree.rec P (fun ts => ∀ c ∈ ts, P c) (fun x => h (.value x) (List.forall_mem_nil P))
    (fun op cs ih => h (.node op cs) ih) (List.forall_mem_nil P)
    (fun _ _ ht hts => List.forall_mem_cons.2 ⟨ht, hts⟩) t

theorem mem_nodesFrom_iff : (p, s) ∈ nodesFrom i ts ↔
    ∃ j q c, p = (i + j) :: q ∧ ts[j]? = some c ∧ (q, s) ∈ c.nodes := by
  induction ts generalizing i with
  | nil => simp [nodesFrom]
  | cons t ts ih =>
    rw [nodesFrom, List.mem_append, ih]
    constructor
    · rintro (h | ⟨j, q, c, rfl, hc, hq⟩)
      · obtain ⟨⟨q, s⟩, hq, he⟩ := List.mem_map.1 h
        cases he
        exact ⟨0, q, t, rfl, rfl, hq⟩
      · exact ⟨j + 1, q, c, by simp [Nat.add_right_comm, Nat.add_assoc], hc, hq⟩
    · rintro ⟨_ | j, q, c, rfl, hc, hq⟩
      · cases hc
        exact .inl (List.mem_map.2 ⟨(q, s), hq, rfl⟩)
      · exact .inr ⟨j, q, c, by simp [Nat.add_right_comm, Nat.add_assoc], hc, hq⟩

/-- Every node is listed with its position. -/
theorem mem_nodes_iff : (p, s) ∈ t.nodes ↔ t.subtree? p = some s := by
  induction p generalizing t with
  | nil =>
    rw [nodes_eq, List.mem_cons, mem_nodesFrom_iff]
    simp [subtree?, eq_comm]
  | cons i p ih =>
    rw [nodes_eq, List.mem_cons, mem_nodesFrom_iff, subtree?, Option.bind_eq_some_iff]
    constructor
    · rintro (h | ⟨j, q, c, he, hc, hq⟩)
      · cases h
      · rw [Nat.zero_add] at he
        cases he
        exact ⟨c, hc, ih.1 hq⟩
    · rintro ⟨c, hc, hp⟩
      exact .inr ⟨i, p, c, by rw [Nat.zero_add], hc, ih.2 hp⟩

mutual

theorem length_nodes : (t : Tree) → t.nodes.length = t.size
  | .value _ => rfl
  | .node _ cs => by rw [nodes, List.length_cons, size, length_nodesFrom 0 cs]

theorem length_nodesFrom (i : Nat) : (ts : List Tree) → (nodesFrom i ts).length = sizes ts
  | [] => rfl
  | t :: ts => by
    rw [nodesFrom, List.length_append, List.length_map, sizes, length_nodes t,
      length_nodesFrom (i + 1) ts]

end

mutual

/-- A node stands before those below it and before its later siblings. -/
theorem pairwise_nodes : (t : Tree) → t.nodes.Pairwise fun m n => m.1 < n.1
  | .value _ => List.pairwise_singleton _ _
  | .node _ cs => by
    rw [nodes, List.pairwise_cons]
    refine ⟨?_, pairwise_nodesFrom 0 cs⟩
    rintro ⟨p, s⟩ h
    obtain ⟨j, q, c, rfl, -, -⟩ := mem_nodesFrom_iff.1 h
    exact List.nil_lt_cons _ _

theorem pairwise_nodesFrom (i : Nat) :
    (ts : List Tree) → (nodesFrom i ts).Pairwise fun m n => m.1 < n.1
  | [] => .nil
  | t :: ts => by
    rw [nodesFrom, List.pairwise_append, List.pairwise_map]
    refine ⟨?_, pairwise_nodesFrom (i + 1) ts, ?_⟩
    · exact (pairwise_nodes t).imp fun h => List.cons_lt_cons_iff.2 (.inr ⟨rfl, h⟩)
    · rintro m hm ⟨p, s⟩ h
      obtain ⟨⟨q, s'⟩, -, rfl⟩ := List.mem_map.1 hm
      obtain ⟨j, q', c, rfl, -, -⟩ := mem_nodesFrom_iff.1 h
      exact List.cons_lt_cons_iff.2 (.inl (by omega))

end

/-- The trees have nodes at the same positions, and `f` says the same of those at one position. -/
def AgreeIn {α : Type} (f : Tree → α) (t u : Tree) : Prop :=
  ∀ p, (t.subtree? p).map f = (u.subtree? p).map f

theorem agreeIn_of_map_nodes {α : Type} {f : Tree → α}
    (h : t.nodes.map (fun n => (n.1, f n.2)) = u.nodes.map fun n => (n.1, f n.2)) :
    AgreeIn f t u := by
  intro p
  have hmem : ∀ {t : Tree} {a : α},
      (t.subtree? p).map f = some a ↔ (p, a) ∈ t.nodes.map fun n => (n.1, f n.2) := by
    intro t a
    simp [mem_nodes_iff]
  refine Option.ext fun a => ?_
  rw [hmem, hmem, h]

end Fixity.Tree
