import Fixity.Proofs.Lines
import Fixity.Proofs.Positions
import Mathlib.Data.List.Forall2
import Mathlib.Data.List.Range
import Mathlib.Data.List.Zip

/-! Graphviz digraphs of trees. A node is numbered by its place in pre-order, an edge stands where
its target stands in post-order, and labels are quoted without loss. So a digraph can be read back
as the tree that it was made of. -/
namespace Fixity

namespace Tree

/-- All of one character replaced. -/
def replaceChar (c : Char) (word text : List Char) : List Char :=
  text.flatMap fun d => if d = c then word else [d]

/-- Splits at the first quote before which no backslash stands, other than escaped ones. -/
def splitAtQuote : List Char → Option (List Char × List Char)
  | [] => none
  | '"' :: rest => some ([], rest)
  | '\\' :: c :: rest => (splitAtQuote rest).map (Prod.map (['\\', c] ++ ·) id)
  | c :: rest => (splitAtQuote rest).map (Prod.map (c :: ·) id)

/-- Leaves out the backslash before each escaped character. -/
def unescapeLabel : List Char → List Char
  | '\\' :: c :: rest => c :: unescapeLabel rest
  | c :: rest => c :: unescapeLabel rest
  | [] => []

/-- No replacement escapes what the other one has put in. -/
theorem escapeLabel_eq_replaceChar (label : List Char) : escapeLabel label =
    replaceChar '"' ['\\', '"'] (replaceChar '\\' ['\\', '\\'] label) := by
  simp only [escapeLabel, replaceChar, List.flatMap_assoc]
  congr 1
  funext c
  by_cases hb : c = '\\'
  · subst hb
    rfl
  · by_cases hq : c = '"'
    · subst hq
      rfl
    · simp [hb, hq]

theorem escapeLabel_cons (c : Char) (label : List Char) : escapeLabel (c :: label) =
    (if c = '\\' ∨ c = '"' then ['\\', c] else [c]) ++ escapeLabel label := rfl

theorem splitAtQuote_escapeLabel (label rest : List Char) :
    splitAtQuote (escapeLabel label ++ '"' :: rest) = some (escapeLabel label, rest) := by
  induction label with
  | nil => rfl
  | cons c label ih =>
    rw [escapeLabel_cons]
    split
    · simp [splitAtQuote, ih]
    · rename_i hc
      obtain ⟨hb, hq⟩ := not_or.1 hc
      simp [splitAtQuote, hb, ih]

theorem unescapeLabel_escapeLabel (label : List Char) :
    unescapeLabel (escapeLabel label) = label := by
  induction label with
  | nil => rfl
  | cons c label ih =>
    rw [escapeLabel_cons]
    split
    · simp [unescapeLabel, ih]
    · rename_i hc
      obtain ⟨hb, hq⟩ := not_or.1 hc
      simp [unescapeLabel, hb, ih]

theorem escapeLabel_injective {label label' : List Char}
    (h : escapeLabel label = escapeLabel label') : label = label' := by
  rw [← unescapeLabel_escapeLabel label, h, unescapeLabel_escapeLabel]

theorem edges_eq (id : Nat) (t : Tree) : t.edges id = edgesBelow id (id + 1) t.children := by
  cases t <;> rfl

mutual

theorem perm_targets (id : Nat) :
    (t : Tree) → ((t.edges id).map Prod.snd).Perm (List.range' (id + 1) (sizes t.children))
  | .value _ => .refl _
  | .node _ cs => perm_targetsBelow id (id + 1) cs

/-- Each node below a parent is the target of one edge. -/
theorem perm_targetsBelow (parent next : Nat) : (ts : List Tree) →
    ((edgesBelow parent next ts).map Prod.snd).Perm (List.range' next (sizes ts))
  | [] => .refl _
  | t :: ts => by
    have hrange : List.range' next (sizes (t :: ts)) = next ::
        (List.range' (next + 1) (sizes t.children) ++ List.range' (next + t.size) (sizes ts)) := by
      rw [sizes, size_eq, Nat.add_right_comm, List.range'_succ, ← List.range'_append]
      simp [Nat.add_assoc, Nat.add_comm]
    rw [hrange, edgesBelow, List.map_append, List.map_cons]
    refine List.perm_middle.trans (List.Perm.cons _ ?_)
    exact (perm_targets next t).append (perm_targetsBelow parent (next + t.size) ts)

end

/-- Among numbered positions, the edge leads to `p` from the parent of it. -/
def LeadsTo (numbered : List (List Nat)) (edge : Nat × Nat) (p : List Nat) : Prop :=
  numbered[edge.1]? = some p.dropLast ∧ numbered[edge.2]? = some p

variable {numbered : List (List Nat)}

mutual

/-- A tree at the position `root`, of which the nodes are numbered from `id` on. -/
theorem leadsTo_edges (root : List Nat) (id : Nat) :
    (t : Tree) → (t.nodes.map fun n => root ++ n.1) <+: numbered.drop id →
      List.Forall₂ (fun e p => LeadsTo numbered e (root ++ p)) (t.edges id)
        (positionsUpFrom 0 t.children)
  | .value _, _ => .nil
  | .node op cs, h => by
    obtain ⟨rest, hrest⟩ := h
    have hroot : numbered[id]? = some root := by
      rw [← List.head?_drop, ← hrest]
      simp [nodes]
    have hbelow : ((nodesFrom 0 cs).map fun n => root ++ n.1) <+: numbered.drop (id + 1) := by
      rw [← List.tail_drop, ← hrest]
      simp [nodes]
    exact leadsTo_edgesBelow root id (id + 1) 0 hroot cs hbelow

theorem leadsTo_edgesBelow (root : List Nat) (parent next i : Nat)
    (hp : numbered[parent]? = some root) :
    (ts : List Tree) → ((nodesFrom i ts).map fun n => root ++ n.1) <+: numbered.drop next →
      List.Forall₂ (fun e p => LeadsTo numbered e (root ++ p)) (edgesBelow parent next ts)
        (positionsUpFrom i ts)
  | [], _ => .nil
  | t :: ts, h => by
    have hmap : (nodesFrom i (t :: ts)).map (fun n => root ++ n.1) =
        (t.nodes.map fun n => (root ++ [i]) ++ n.1) ++
          (nodesFrom (i + 1) ts).map fun n => root ++ n.1 := by
      simp [nodesFrom]
    rw [hmap] at h
    have hfirst := (List.prefix_append _ _).trans h
    have hrest : ((nodesFrom (i + 1) ts).map fun n => root ++ n.1) <+:
        numbered.drop (next + t.size) := by
      obtain ⟨rest, h⟩ := h
      rw [← List.drop_drop, ← h, List.append_assoc, ← length_nodes, ← List.length_map,
        List.drop_left]
      exact List.prefix_append _ _
    have hnext : numbered[next]? = some (root ++ [i]) := by
      obtain ⟨rest, h⟩ := hfirst
      rw [← List.head?_drop, ← h, nodes_eq]
      simp
    rw [edgesBelow, positionsUpFrom, positionsUp_eq, List.map_append, List.append_assoc]
    refine List.rel_append ?_ (.cons ⟨?_, hnext⟩ ?_)
    · have hedges := leadsTo_edges (root ++ [i]) next t hfirst
      simpa using hedges
    · simpa using hp
    · exact leadsTo_edgesBelow root parent (next + t.size) (i + 1) hp ts hrest

end

mutual

theorem le_source (id : Nat) : (t : Tree) → ∀ e ∈ t.edges id, id ≤ e.1
  | .value _ => by simp [edges]
  | .node op cs => by
    intro e he
    rcases source_edgesBelow id (id + 1) cs e he with h | h <;> omega

theorem source_edgesBelow (parent next : Nat) :
    (ts : List Tree) → ∀ e ∈ edgesBelow parent next ts, e.1 = parent ∨ next ≤ e.1
  | [] => by simp [edgesBelow]
  | t :: ts => by
    intro e he
    rw [edgesBelow, List.mem_append, List.mem_cons] at he
    rcases he with he | rfl | he
    · exact .inr (le_source next t e he)
    · exact .inl rfl
    · rcases source_edgesBelow parent (next + t.size) ts e he with h | h
      · exact .inl h
      · exact .inr (by omega)

end

/-- The first edge from the parent shows where the edges below its first child end. -/
theorem positions_of_edgesBelow_eq {ts us : List Tree} {parent next : Nat} (hlt : parent < next)
    (ih : ∀ t ∈ ts, ∀ (id : Nat) (u : Tree), t.edges id = u.edges id →
      t.nodes.map Prod.fst = u.nodes.map Prod.fst)
    (h : edgesBelow parent next ts = edgesBelow parent next us) (i : Nat) :
    (nodesFrom i ts).map Prod.fst = (nodesFrom i us).map Prod.fst := by
  induction ts generalizing us next i with
  | nil =>
    cases us with
    | nil => rfl
    | cons => simp [edgesBelow] at h
  | cons t ts ihs =>
    cases us with
    | nil => simp [edgesBelow] at h
    | cons u us =>
      have hsource : ∀ t : Tree, ∀ e ∈ t.edges next, e.1 ≠ parent := by
        intro t e he
        have hle := le_source next t e he
        omega
      obtain ⟨ht, hts⟩ := List.forall_mem_cons.1 ih
      obtain ⟨hedges, hrest⟩ := eq_of_append_eq_append (p := fun e => e.1 ≠ parent) (hsource t)
        (hsource u) (by simp) (by simp) h
      have hpositions := ht next u hedges
      have hsize : t.size = u.size := by
        simpa [length_nodes] using congrArg List.length hpositions
      rw [hsize] at hrest
      have hlater := ihs (by omega) hts (List.cons.inj hrest).2 (i + 1)
      have hmap : ∀ t : Tree, (t.nodes.map (Prod.map (i :: ·) id)).map Prod.fst =
          (t.nodes.map Prod.fst).map (i :: ·) := by simp
      rw [nodesFrom, nodesFrom, List.map_append, List.map_append, hmap, hmap, hpositions, hlater]

theorem positions_of_edges_eq {t u : Tree} {id : Nat} (h : t.edges id = u.edges id) :
    t.nodes.map Prod.fst = u.nodes.map Prod.fst := by
  induction t using Tree.induction generalizing u id with
  | h t ih =>
    rw [edges_eq, edges_eq id u] at h
    have hbelow := positions_of_edgesBelow_eq (Nat.lt_succ_self id)
      (fun c hc id u hcu => ih c hc hcu) h 0
    rw [nodes_eq, nodes_eq u, List.map_cons, List.map_cons, hbelow]

def nodeLine (id : Nat) (label : List Char) : List Char :=
  s!"    n{id} [label=\"".toList ++ escapeLabel label ++ ['"', ']', ';']

def edgeLine (edge : Nat × Nat) : List Char := s!"    n{edge.1} -> n{edge.2};".toList

theorem toString_self (s : String) : toString s = s := rfl

theorem toList_graphvizNode (id : Nat) (label : List Char) :
    (graphvizNode id label).toList = nodeLine id label ++ ['\n'] := by
  simp only [graphvizNode, nodeLine, toString_self, String.toList_append, String.toList_ofList,
    List.append_assoc, List.append_cancel_left_eq]
  simp

theorem toList_graphvizEdge (edge : Nat × Nat) :
    (graphvizEdge edge).toList = edgeLine edge ++ ['\n'] := by
  simp only [graphvizEdge, edgeLine, toString_self, String.toList_append, List.append_assoc,
    List.append_cancel_left_eq]
  simp

theorem nodeLine_injective {id : Nat} {label label' : List Char}
    (h : nodeLine id label = nodeLine id label') : label = label' :=
  escapeLabel_injective (List.append_cancel_left (List.append_cancel_right h))

theorem isDigit_of_mem_toString {n : Nat} {c : Char} (h : c ∈ (toString n).toList) :
    c.isDigit = true := by
  rw [Nat.toString_eq_repr, Nat.toList_repr] at h
  exact Nat.isDigit_of_mem_toDigits (by decide) (by decide) h

theorem toList_toString_injective {m n : Nat} (h : (toString m).toList = (toString n).toList) :
    m = n := by
  rw [Nat.toString_eq_repr, Nat.toString_eq_repr, Nat.toList_repr, Nat.toList_repr] at h
  rw [← Nat.ofDigitChars_ten_toDigits (n := m), h, Nat.ofDigitChars_ten_toDigits]

theorem edgeLine_injective {edge edge' : Nat × Nat} (h : edgeLine edge = edgeLine edge') :
    edge = edge' := by
  obtain ⟨parent, child⟩ := edge
  obtain ⟨parent', child'⟩ := edge'
  simp only [edgeLine, toString_self, String.toList_append, List.append_assoc,
    List.append_cancel_left_eq] at h
  obtain ⟨hparent, hrest⟩ := eq_of_append_eq_append (p := fun c => c.isDigit = true)
    (fun _ => isDigit_of_mem_toString) (fun _ => isDigit_of_mem_toString) (by simp) (by simp) h
  obtain ⟨hchild, -⟩ := eq_of_append_eq_append (p := fun c => c.isDigit = true)
    (fun _ => isDigit_of_mem_toString) (fun _ => isDigit_of_mem_toString) (by simp) (by simp)
    (List.append_cancel_left hrest)
  rw [toList_toString_injective hparent, toList_toString_injective hchild]

theorem newline_not_mem_toString (n : Nat) : '\n' ∉ (toString n).toList := by
  intro h
  have hdigit := isDigit_of_mem_toString h
  revert hdigit
  decide

theorem newline_not_mem_escapeLabel {label : List Char} (h : '\n' ∉ label) :
    '\n' ∉ escapeLabel label := by
  induction label with
  | nil => simp [escapeLabel]
  | cons c label ih =>
    obtain ⟨hc, hlabel⟩ := not_or.1 (mt List.mem_cons.2 h)
    rw [escapeLabel_cons, List.mem_append]
    split <;> simp [hc, ih hlabel]

theorem newline_not_mem_nodeLine (id : Nat) {label : List Char} (h : '\n' ∉ label) :
    '\n' ∉ nodeLine id label := by
  simp only [nodeLine, toString_self, String.toList_append, List.mem_append,
    newline_not_mem_toString, newline_not_mem_escapeLabel h, or_false]
  decide

theorem newline_not_mem_edgeLine (edge : Nat × Nat) : '\n' ∉ edgeLine edge := by
  simp only [edgeLine, toString_self, String.toList_append, List.mem_append,
    newline_not_mem_toString, or_false]
  decide

mutual

theorem labels_eq : (t : Tree) → t.labels = t.nodes.map fun n => n.2.label
  | .value x => by simp [labels, nodes, label, root, PostfixToken.label]
  | .node op cs => by
    rw [labels, nodes, List.map_cons, labelsBelow_eq 0 cs]
    rfl

theorem labelsBelow_eq (i : Nat) :
    (ts : List Tree) → labelsBelow ts = (nodesFrom i ts).map fun n => n.2.label
  | [] => rfl
  | t :: ts => by
    rw [labelsBelow, nodesFrom, labels_eq t, labelsBelow_eq (i + 1) ts]
    simp

end

/-- The lines of a digraph. -/
def graphvizLines (t : Tree) : List (List Char) :=
  "digraph \x7b".toList :: t.nodes.mapIdx (fun id n => nodeLine id n.2.label) ++
    (t.edges 0).map edgeLine ++ ["\x7d".toList]

theorem length_graphvizLines (t : Tree) :
    t.graphvizLines.length = t.size + (t.edges 0).length + 2 := by
  simp [graphvizLines, length_nodes]
  omega

theorem hasLines_graphviz (t : Tree) : HasLines t.graphviz t.graphvizLines := by
  have hnodes : (t.labels.mapIdx graphvizNode).map String.toList =
      (t.nodes.mapIdx fun id n => nodeLine id n.2.label).map fun line => line ++ ['\n'] := by
    apply List.ext_getElem?
    intro id
    simp [labels_eq, toList_graphvizNode, Function.comp_def]
  have hedges : ((t.edges 0).map graphvizEdge).map String.toList =
      ((t.edges 0).map edgeLine).map fun line => line ++ ['\n'] := by
    simp [toList_graphvizEdge]
  constructor
  · simp only [graphviz_eq, graphvizLines, String.toList_append, String.toList_join,
      List.flatMap_def, hnodes, hedges, List.map_append, List.map_cons, List.flatten_append,
      List.flatten_cons]
    simp
  · intro line h
    simp only [graphvizLines, List.mem_append, List.mem_cons, List.mem_mapIdx, List.mem_map,
      List.not_mem_nil, or_false] at h
    rcases h with ((rfl | ⟨id, hid, rfl⟩) | ⟨edge, -, rfl⟩) | rfl
    · decide
    · exact newline_not_mem_nodeLine id (newline_not_mem_label _)
    · exact newline_not_mem_edgeLine edge
    · decide

theorem length_edges (t : Tree) : (t.edges 0).length + 1 = t.size := by
  have h := (perm_targets 0 t).length_eq
  rw [List.length_map, List.length_range'] at h
  rw [h, size_eq]

/-- The numbers of lines of both kinds tell them apart. -/
theorem nodes_and_edges_of_graphviz_eq {t u : Tree} (h : u.graphviz = t.graphviz) :
    t.nodes.map (fun n => n.2.label) = u.nodes.map (fun n => n.2.label) ∧
      t.edges 0 = u.edges 0 := by
  have hlines : t.graphvizLines = u.graphvizLines :=
    (hasLines_graphviz t).unique (h ▸ hasLines_graphviz u)
  have hsize : t.nodes.length = u.nodes.length := by
    have hlength := congrArg List.length hlines
    have ht := length_edges t
    have hu := length_edges u
    rw [length_graphvizLines, length_graphvizLines] at hlength
    rw [length_nodes, length_nodes]
    omega
  obtain ⟨hnodes, hedges⟩ := List.append_inj (List.cons.inj (List.append_cancel_right hlines)).2
    (by simpa using hsize)
  constructor
  · apply List.ext_getElem?
    intro id
    have hline : (t.nodes[id]?.map fun n => n.2.label).map (nodeLine id) =
        (u.nodes[id]?.map fun n => n.2.label).map (nodeLine id) := by
      simpa [Function.comp_def] using congrArg (·[id]?) hnodes
    simpa using Option.map_injective (fun _ _ => nodeLine_injective) hline
  · exact List.map_injective_iff.2 (fun _ _ => edgeLine_injective) hedges

/-- A digraph has a line for each node, numbered in pre-order, and then one for each node but the
root, in post-order, with the edge from its parent. In quotes, a label ends at the first quote that
is not escaped, and it is what remains when the escapes are undone. So trees with the same digraph
have the same shape and the same labels. -/
theorem graphviz_draws_tree (t : Tree) :
    HasLines t.graphviz ("digraph \x7b".toList ::
        t.nodes.mapIdx (fun id n => nodeLine id n.2.label) ++ (t.edges 0).map edgeLine ++
        ["\x7d".toList]) ∧
      t.nodes.length = t.size ∧ (t.nodes.Pairwise fun m n => m.1 < n.1) ∧
      (t.edges 0).length + 1 = t.size ∧
      ((t.edges 0).map Prod.snd).Perm (List.range' 1 (t.size - 1)) ∧
      List.Forall₂ (LeadsTo (t.nodes.map Prod.fst)) (t.edges 0) t.positionsUp.dropLast ∧
      (∀ label rest : List Char,
        escapeLabel label = replaceChar '"' ['\\', '"'] (replaceChar '\\' ['\\', '\\'] label) ∧
          splitAtQuote (escapeLabel label ++ '"' :: rest) = some (escapeLabel label, rest) ∧
          unescapeLabel (escapeLabel label) = label) ∧
      ∀ u : Tree, u.graphviz = t.graphviz → AgreeIn label t u := by
  refine ⟨hasLines_graphviz t, length_nodes t, pairwise_nodes t, length_edges t, ?_, ?_, ?_, ?_⟩
  · simpa [size_eq t] using perm_targets 0 t
  · rw [positionsUp_eq, List.dropLast_concat]
    have hedges : List.Forall₂ (fun e p => LeadsTo (t.nodes.map Prod.fst) e ([] ++ p)) (t.edges 0)
        (positionsUpFrom 0 t.children) := leadsTo_edges [] 0 t (by simp)
    simpa using hedges
  · intro label rest
    exact ⟨escapeLabel_eq_replaceChar label, splitAtQuote_escapeLabel label rest,
      unescapeLabel_escapeLabel label⟩
  · intro u h
    obtain ⟨hlabels, hedges⟩ := nodes_and_edges_of_graphviz_eq h
    apply agreeIn_of_map_nodes
    rw [← List.zip_map', ← List.zip_map', positions_of_edges_eq hedges, hlabels]

/-- A quote as an operator after `\a`. Digraphs do not show precedences, by which two such trees can
differ. -/
theorem graphviz_draws_quote :
    let a : Tree := .value (.literal ['\\', 'a'])
    let quoted (precedence : Int32) : Tree :=
      .node (.ofOperator (.unary .after (.literal ['"']) precedence)) [a]
    quoted 1 ≠ quoted 2 ∧ (quoted 2).graphviz = (quoted 1).graphviz ∧
      HasLines (quoted 1).graphviz ["digraph \x7b".toList, "    n0 [label=\"\\\"\"];".toList,
        "    n1 [label=\"\\\\a\"];".toList, "    n0 -> n1;".toList, "\x7d".toList] ∧
      AgreeIn label (quoted 1) (quoted 2) := by
  intro a quoted
  obtain ⟨hlines, -, -, -, -, -, -, hagree⟩ := graphviz_draws_tree (quoted 1)
  have hsame : (quoted 2).graphviz = (quoted 1).graphviz := by decide +kernel
  refine ⟨by decide, hsame, ?_, hagree (quoted 2) hsame⟩
  have hlist : (quoted 1).graphvizLines = ["digraph \x7b".toList, "    n0 [label=\"\\\"\"];".toList,
      "    n1 [label=\"\\\\a\"];".toList, "    n0 -> n1;".toList, "\x7d".toList] := by
    decide +kernel
  rw [← hlist]
  exact hlines

end Tree

end Fixity
