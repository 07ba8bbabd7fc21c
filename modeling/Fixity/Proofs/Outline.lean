import Fixity.Proofs.Lines
import Fixity.Proofs.Positions
import Fixity.Tree.Outline

/-! Outlines of trees. The line of a node shows where the node stands: how deep it is, and which of
the nodes above it have later siblings. As the drawing comes before any label, no label can be
mistaken for a part of it. -/
namespace Fixity

namespace Tree

/-- The node at the position is not the last child of its parent. -/
def hasLaterSibling (t : Tree) (p : List Nat) : Bool :=
  match p.getLast? with
  | none => false
  | some i => (t.subtree? (p.dropLast ++ [i + 1])).isSome

/-- What lines below a node show of it. -/
def segment (hasLater : Bool) : List Char := if hasLater then ['│', ' '] else [' ', ' ']

def connector (hasLater : Bool) : List Char := if hasLater then ['├', '─'] else ['└', '─']

/-- One segment for each node above the position. -/
def indentAt (t : Tree) (p : List Nat) : List Char :=
  (List.range p.length).flatMap fun k => segment (t.hasLaterSibling (p.take k))

/-- The line of the node `s` at a position. -/
def lineAt (t : Tree) (p : List Nat) (s : Tree) : List Char :=
  t.indentAt p ++ connector (t.hasLaterSibling p) ++ [' ', s.icon, ' '] ++ cutLabel s.label

variable {t : Tree} {p : List Nat} {i : Nat}

theorem subtree?_append (t : Tree) (p q : List Nat) :
    t.subtree? (p ++ q) = (t.subtree? p).bind fun s => s.subtree? q := by
  induction p generalizing t with
  | nil => rfl
  | cons i p ih =>
    rw [List.cons_append, subtree?, subtree?, Option.bind_assoc]
    exact congrArg _ (funext fun c => ih c)

theorem hasLaterSibling_concat :
    t.hasLaterSibling (p ++ [i]) = (t.subtree? (p ++ [i + 1])).isSome := by
  simp [hasLaterSibling]

theorem indentAt_concat :
    t.indentAt (p ++ [i]) = t.indentAt p ++ segment (t.hasLaterSibling p) := by
  have htake : ∀ k ∈ List.range p.length, (p ++ [i]).take k = p.take k := by
    intro k hk
    exact List.take_append_of_le_length (Nat.le_of_lt (List.mem_range.1 hk))
  have hbefore : (List.range p.length).flatMap
      (fun k => segment (t.hasLaterSibling ((p ++ [i]).take k))) = t.indentAt p := by
    rw [indentAt, List.flatMap_def, List.flatMap_def]
    congr 1
    exact List.map_congr_left fun k hk => by rw [htake k hk]
  rw [indentAt, List.length_append, List.length_singleton, List.range_succ, List.flatMap_append,
    hbefore]
  simp

theorem outlineIndent_indentAt (t : Tree) (p : List Nat) (i : Nat) :
    outlineIndent (t.indentAt p) (!t.hasLaterSibling p) = t.indentAt (p ++ [i]) := by
  rw [indentAt_concat, outlineIndent, segment]
  cases t.hasLaterSibling p <;> rfl

theorem outlineLine_indentAt (t : Tree) (p : List Nat) (s : Tree) :
    outlineLine (t.indentAt p) (!t.hasLaterSibling p) s = t.lineAt p s ++ ['\n'] := by
  rw [outlineLine, lineAt, connector]
  cases t.hasLaterSibling p <;> rfl

theorem outlineLines_cons (indent : List Char) (isLast : Bool) (s : Tree) :
    s.outlineLines indent isLast = outlineLine indent isLast s ::
      outlineLinesBelow (outlineIndent indent isLast) s.children := by
  cases s <;> rfl

mutual

/-- The lines of the part of a tree that hangs at a position. -/
theorem outlineLines_eq (t : Tree) (p : List Nat) : (s : Tree) → t.subtree? p = some s →
    s.outlineLines (t.indentAt p) (!t.hasLaterSibling p) =
      s.nodes.map fun n => t.lineAt (p ++ n.1) n.2 ++ ['\n']
  | .value x, _ => by
    rw [outlineLines_cons, outlineLine_indentAt, nodes_eq, List.map_cons, List.append_nil]
    rfl
  | .node op cs, h => by
    have hchildren : ∀ j, t.subtree? (p ++ [0 + j]) = cs[j]? := by
      intro j
      simp [subtree?_append, h, subtree?, children]
    rw [outlineLines_cons, outlineLine_indentAt, nodes_eq, List.map_cons, List.append_nil]
    exact congrArg _ (outlineLinesBelow_eq t p 0 cs hchildren)

/-- The lines of siblings, the first of which is child `i` of the node at the position. -/
theorem outlineLinesBelow_eq (t : Tree) (p : List Nat) (i : Nat) : (ss : List Tree) →
    (∀ j, t.subtree? (p ++ [i + j]) = ss[j]?) →
      outlineLinesBelow (outlineIndent (t.indentAt p) (!t.hasLaterSibling p)) ss =
        (nodesFrom i ss).map fun n => t.lineAt (p ++ n.1) n.2 ++ ['\n']
  | [], _ => rfl
  | s :: ss, h => by
    have hfirst : t.subtree? (p ++ [i]) = some s := h 0
    have hlast : ss.isEmpty = !t.hasLaterSibling (p ++ [i]) := by
      rw [hasLaterSibling_concat, h 1]
      cases ss <;> rfl
    have hrest : ∀ j, t.subtree? (p ++ [i + 1 + j]) = ss[j]? := by
      intro j
      rw [Nat.add_assoc, Nat.add_comm 1, h]
      rfl
    rw [outlineLinesBelow, outlineLinesBelow_eq t p (i + 1) ss hrest, outlineIndent_indentAt t p i,
      hlast, outlineLines_eq t (p ++ [i]) s hfirst]
    simp [nodesFrom]

end

theorem role_eq_of_icon_eq {t u : Tree} (h : t.icon = u.icon) : t.role = u.role := by
  rw [icon, icon] at h
  revert h
  cases t.role <;> cases u.role <;> decide

theorem outlineLine_injective {indent : List Char} {isLast isLast' : Bool} {t u : Tree}
    (h : outlineLine indent isLast t = outlineLine indent isLast' u) :
    isLast = isLast' ∧ t.role = u.role ∧ cutLabel t.label = cutLabel u.label := by
  simp only [outlineLine, List.append_assoc] at h
  obtain ⟨hconnector, hrest⟩ := List.append_inj (List.append_cancel_left h)
    (by cases isLast <;> cases isLast' <;> rfl)
  have hicon : t.icon = u.icon := (List.cons.inj (List.cons.inj hrest).2).1
  refine ⟨?_, role_eq_of_icon_eq hicon, ?_⟩
  · revert hconnector
    cases isLast <;> cases isLast' <;> decide
  · rw [hicon] at hrest
    exact List.append_cancel_right (List.append_cancel_left hrest)

mutual

theorem indent_prefix_outlineLines (indent : List Char) (isLast : Bool) :
    (t : Tree) → ∀ line ∈ t.outlineLines indent isLast, indent <+: line
  | .value x => by simp [outlineLines, outlineLine, List.append_assoc]
  | .node op cs => by
    intro line h
    rcases List.mem_cons.1 h with rfl | h
    · simp [outlineLine, List.append_assoc]
    · have hbelow := indent_prefix_outlineLinesBelow (outlineIndent indent isLast) cs line h
      exact (List.prefix_append _ _).trans hbelow

theorem indent_prefix_outlineLinesBelow (indent : List Char) :
    (ts : List Tree) → ∀ line ∈ outlineLinesBelow indent ts, indent <+: line
  | [] => by simp [outlineLinesBelow]
  | t :: ts => by
    intro line h
    rcases List.mem_append.1 h with h | h
    · exact indent_prefix_outlineLines indent ts.isEmpty t line h
    · exact indent_prefix_outlineLinesBelow indent ts line h

end

/-- Where an indentation goes on, a later sibling has its connector. -/
theorem not_outlineIndent_prefix {indent : List Char} {isLast : Bool} {ts : List Tree} :
    ∀ line ∈ (outlineLinesBelow indent ts).head?, ¬outlineIndent indent isLast <+: line := by
  cases ts with
  | nil => simp [outlineLinesBelow]
  | cons t ts =>
    rw [outlineLinesBelow, outlineLines_cons]
    simp only [List.cons_append, List.head?_cons, Option.mem_some_iff, forall_eq', outlineIndent,
      outlineLine, List.append_assoc, List.prefix_append_right_inj]
    cases isLast <;> cases ts.isEmpty <;> simp

/-- What an outline shows of a node, but for its place. -/
def shown (t : Tree) : PostfixToken.Role × List Char := (t.role, cutLabel t.label)

/-- The lines below the first of some siblings are those that its indentation begins. -/
theorem nodes_of_outlineLinesBelow_eq {ts us : List Tree} {indent : List Char}
    (ih : ∀ t ∈ ts, ∀ (indent : List Char) (u : Tree),
      outlineLinesBelow indent t.children = outlineLinesBelow indent u.children →
        (nodesFrom 0 t.children).map (Prod.map id shown) =
          (nodesFrom 0 u.children).map (Prod.map id shown))
    (h : outlineLinesBelow indent ts = outlineLinesBelow indent us) (i : Nat) :
    (nodesFrom i ts).map (Prod.map id shown) = (nodesFrom i us).map (Prod.map id shown) := by
  induction ts generalizing us i with
  | nil =>
    cases us with
    | nil => rfl
    | cons u us => simp [outlineLinesBelow, outlineLines_cons] at h
  | cons t ts ihs =>
    cases us with
    | nil => simp [outlineLinesBelow, outlineLines_cons] at h
    | cons u us =>
      obtain ⟨ht, hts⟩ := List.forall_mem_cons.1 ih
      rw [outlineLinesBelow, outlineLinesBelow, outlineLines_cons, outlineLines_cons,
        List.cons_append, List.cons_append] at h
      obtain ⟨hfirst, hlines⟩ := List.cons.inj h
      obtain ⟨hlast, hrole, hlabel⟩ := outlineLine_injective hfirst
      rw [← hlast] at hlines
      obtain ⟨hbelow, hlater⟩ := eq_of_append_eq_append
        (p := (outlineIndent indent ts.isEmpty <+: ·)) (indent_prefix_outlineLinesBelow _ _)
        (indent_prefix_outlineLinesBelow _ _) not_outlineIndent_prefix not_outlineIndent_prefix
        hlines
      have hshown : shown t = shown u := Prod.ext hrole hlabel
      have hnodes : t.nodes.map (Prod.map id shown) = u.nodes.map (Prod.map id shown) := by
        rw [nodes_eq, nodes_eq u, List.map_cons, List.map_cons, ht _ u hbelow, Prod.map_apply,
          Prod.map_apply, hshown]
      have hmap : ∀ t : Tree, (t.nodes.map (Prod.map (i :: ·) id)).map (Prod.map id shown) =
          (t.nodes.map (Prod.map id shown)).map (Prod.map (i :: ·) id) := by simp
      rw [nodesFrom, nodesFrom, List.map_append, List.map_append, hmap, hmap, hnodes,
        ihs hts hlater (i + 1)]

theorem nodes_of_outlineLinesBelow_children_eq {t u : Tree} {indent : List Char}
    (h : outlineLinesBelow indent t.children = outlineLinesBelow indent u.children) :
    (nodesFrom 0 t.children).map (Prod.map id shown) =
      (nodesFrom 0 u.children).map (Prod.map id shown) := by
  induction t using Tree.induction generalizing u indent with
  | h t ih => exact nodes_of_outlineLinesBelow_eq (fun c hc indent u hcu => ih c hc hcu) h 0

theorem outlineLines_root (t : Tree) :
    t.outlineLines [] true = t.nodes.map fun n => t.lineAt n.1 n.2 ++ ['\n'] :=
  outlineLines_eq t [] t rfl

theorem newline_not_mem_lineAt (t : Tree) (p : List Nat) (s : Tree) : '\n' ∉ t.lineAt p s := by
  have hsegment : ∀ b, '\n' ∉ segment b := by decide
  have hconnector : ∀ b, '\n' ∉ connector b := by decide
  have hicon : '\n' ≠ s.icon := by
    rw [icon]
    cases s.role <;> decide
  have hlabel : '\n' ∉ cutLabel s.label := by
    have htake : '\n' ∉ s.label.take 30 :=
      fun h => newline_not_mem_label s (List.mem_of_mem_take h)
    rw [cutLabel]
    split
    · simp [htake]
    · exact newline_not_mem_label s
  simp [lineAt, indentAt, hsegment, hconnector, hicon, hlabel]

theorem hasLines_outline (t : Tree) :
    HasLines t.outline (t.nodes.map fun n => t.lineAt n.1 n.2) := by
  constructor
  · rw [outline, outlineLines_root, String.toList_ofList, List.flatMap_map, List.flatMap_def]
  · intro line h
    obtain ⟨n, -, rfl⟩ := List.mem_map.1 h
    exact newline_not_mem_lineAt t n.1 n.2

theorem outlineLines_of_outline_eq {t u : Tree} (h : t.outline = u.outline) :
    t.outlineLines [] true = u.outlineLines [] true := by
  have hlines := congrArg (List.map (· ++ ['\n']))
    ((hasLines_outline t).unique (h ▸ hasLines_outline u))
  rw [List.map_map, List.map_map] at hlines
  rw [outlineLines_root, outlineLines_root]
  exact hlines

/-- An outline has a line for each node, in pre-order. Above the node, each node adds a segment that
tells whether it has later siblings; then come the connector, which tells the same of the node
itself, its icon and its label, cut after thirty characters. So trees with the same outline have the
same shape, the same roles and the same cut labels, whatever characters the labels have. -/
theorem outline_draws_tree (t : Tree) :
    HasLines t.outline (t.nodes.map fun n => t.indentAt n.1 ++ connector (t.hasLaterSibling n.1) ++
        [' ', n.2.icon, ' '] ++ cutLabel n.2.label) ∧
      t.nodes.length = t.size ∧ (t.nodes.Pairwise fun m n => m.1 < n.1) ∧
      ∀ u : Tree, u.outline = t.outline →
        AgreeIn (fun s => (s.role, cutLabel s.label)) t u := by
  refine ⟨hasLines_outline t, length_nodes t, pairwise_nodes t, fun u h => ?_⟩
  have hlines := outlineLines_of_outline_eq h.symm
  rw [outlineLines_cons, outlineLines_cons _ _ u] at hlines
  obtain ⟨hroot, hbelow⟩ := List.cons.inj hlines
  obtain ⟨-, hrole, hlabel⟩ := outlineLine_injective hroot
  apply agreeIn_of_map_nodes
  rw [nodes_eq, nodes_eq u, List.map_cons, List.map_cons]
  exact congrArg₂ _ (Prod.ext rfl (Prod.ext hrole hlabel))
    (nodes_of_outlineLinesBelow_children_eq hbelow)

/-- Labels that look like drawings, and two that differ after thirty characters. -/
theorem outline_draws_strokes :
    let a : Tree := .value (.literal ['├', '─'])
    let first : Tree := .node (.ofOperator (.unary .after (.literal ['└', '─']) 2)) [a]
    let long : List Char := List.replicate 30 'x'
    let strokes (last : Token) : Tree :=
      .node (.ofOperator ⟨.literal ['│'], none, 1, .binary, .left, by decide⟩) [first, .value last]
    let t := strokes (.literal (long ++ ['y']))
    let u := strokes (.literal (long ++ ['z']))
    t ≠ u ∧ u.outline = t.outline ∧
      HasLines t.outline ["└─ ◇ │".toList, "  ├─ ◁ └─".toList, "  │ └─ ○ ├─".toList,
        "  └─ ○ xxxxxxxxxxxxxxxxxxxxxxxxxxxxxx...".toList] ∧
      AgreeIn (fun s => (s.role, cutLabel s.label)) t u := by
  intro a first long strokes t u
  obtain ⟨hlines, -, -, hagree⟩ := outline_draws_tree t
  have hsame : u.outline = t.outline := by decide +kernel
  refine ⟨by decide, hsame, ?_, hagree u hsame⟩
  have hlist : t.nodes.map (fun n => t.lineAt n.1 n.2) =
      ["└─ ◇ │".toList, "  ├─ ◁ └─".toList, "  │ └─ ○ ├─".toList,
        "  └─ ○ xxxxxxxxxxxxxxxxxxxxxxxxxxxxxx...".toList] := by
    decide +kernel
  rw [← hlist]
  exact hlines

end Tree

end Fixity
