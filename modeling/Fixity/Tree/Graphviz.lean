import Fixity.Tree

/-! Trees as Graphviz digraphs. The nodes are numbered and listed from the root down and from left
to right; the edges follow, each after those below it. -/
namespace Fixity

namespace Tree

mutual

/-- Number of nodes. -/
def size : Tree → Nat
  | .value _ => 1
  | .node _ cs => sizes cs + 1

def sizes : List Tree → Nat
  | [] => 0
  | t :: ts => t.size + sizes ts

end

mutual

/-- The labels in the order in which the nodes are numbered. -/
def labels : Tree → List (List Char)
  | .value t => [t.chars]
  | .node op cs => op.label :: labelsBelow cs

def labelsBelow : List Tree → List (List Char)
  | [] => []
  | t :: ts => t.labels ++ labelsBelow ts

end

mutual

/-- The edges of a tree whose root has the given number, from parent to child. -/
def edges (id : Nat) : Tree → List (Nat × Nat)
  | .value _ => []
  | .node _ cs => edgesBelow id (id + 1) cs

/-- The edges to and below the children of `parent`, of which the first has the number `next`. -/
def edgesBelow (parent next : Nat) : List Tree → List (Nat × Nat)
  | [] => []
  | t :: ts => t.edges next ++ (parent, next) :: edgesBelow parent (next + t.size) ts

end

mutual

/-- The labels of the tree, followed by `rest`. -/
def labelsBefore (rest : List (List Char)) : Tree → List (List Char)
  | .value t => t.chars :: rest
  | .node op cs => op.label :: labelsBelowBefore rest cs

def labelsBelowBefore (rest : List (List Char)) : List Tree → List (List Char)
  | [] => rest
  | t :: ts => t.labelsBefore (labelsBelowBefore rest ts)

end

mutual

theorem labelsBefore_eq (rest : List (List Char)) :
    (t : Tree) → t.labelsBefore rest = t.labels ++ rest
  | .value t => by simp [labelsBefore, labels]
  | .node op cs => by simp [labelsBefore, labels, labelsBelowBefore_eq rest cs]

theorem labelsBelowBefore_eq (rest : List (List Char)) :
    (ts : List Tree) → labelsBelowBefore rest ts = labelsBelow ts ++ rest
  | [] => by simp [labelsBelowBefore, labelsBelow]
  | t :: ts => by
    simp [labelsBelowBefore, labelsBelow, labelsBefore_eq _ t, labelsBelowBefore_eq rest ts]

end

mutual

/-- The number after those of a tree whose root has the given number, and its edges, the last one
first, after those that are `done`. -/
def edgesAfter (id : Nat) (done : List (Nat × Nat)) : Tree → Nat × List (Nat × Nat)
  | .value _ => (id + 1, done)
  | .node _ cs => edgesBelowAfter id (id + 1) done cs

def edgesBelowAfter (parent next : Nat) (done : List (Nat × Nat)) :
    List Tree → Nat × List (Nat × Nat)
  | [] => (next, done)
  | t :: ts =>
    let below := t.edgesAfter next done
    edgesBelowAfter parent below.1 ((parent, next) :: below.2) ts

end

mutual

theorem edgesAfter_eq (id : Nat) (done : List (Nat × Nat)) :
    (t : Tree) → t.edgesAfter id done = (id + t.size, (t.edges id).reverse ++ done)
  | .value t => by simp [edgesAfter, size, edges]
  | .node op cs => by
    simp only [edgesAfter, size, edges, edgesBelowAfter_eq id (id + 1) done cs,
      Nat.add_right_comm id 1, Nat.add_assoc]

theorem edgesBelowAfter_eq (parent next : Nat) (done : List (Nat × Nat)) :
    (ts : List Tree) → edgesBelowAfter parent next done ts =
      (next + sizes ts, (edgesBelow parent next ts).reverse ++ done)
  | [] => by simp [edgesBelowAfter, sizes, edgesBelow]
  | t :: ts => by
    simp [edgesBelowAfter, sizes, edgesBelow, edgesAfter_eq next done t,
      edgesBelowAfter_eq parent _ _ ts, Nat.add_assoc]

end

/-- A label between quotes: a backslash goes before each backslash and each quote. -/
def escapeLabel (label : List Char) : List Char :=
  label.flatMap fun c => if c = '\\' ∨ c = '"' then ['\\', c] else [c]

def graphvizNode (id : Nat) (label : List Char) : String :=
  s!"    n{id} [label=\"" ++ String.ofList (escapeLabel label) ++ "\"];\n"

def graphvizEdge (edge : Nat × Nat) : String := s!"    n{edge.1} -> n{edge.2};\n"

def graphviz (t : Tree) : String :=
  "digraph \x7b\n" ++ String.join ((t.labelsBefore []).mapIdx graphvizNode) ++
    String.join ((t.edgesAfter 0 []).2.reverse.map graphvizEdge) ++ "\x7d\n"

theorem graphviz_eq (t : Tree) : t.graphviz =
    "digraph \x7b\n" ++ String.join (t.labels.mapIdx graphvizNode) ++
      String.join ((t.edges 0).map graphvizEdge) ++ "\x7d\n" := by
  simp [graphviz, labelsBefore_eq, edgesAfter_eq]

end Tree

end Fixity
