import Fixity.Document.Yaml
import Fixity.Sorted
import Fixity.Tree.Graphviz
import Fixity.Tree.Outline
import Fixity.Tree.SExpression
import Fixity.Tree.Written

/-! Ways to write a tree, known by their names. -/
namespace Fixity

structure Format where
  name : String
  description : String
  render : Tree → String

inductive FormatError where
  | formatNotFound (name : String)
  deriving DecidableEq, Repr

def FormatError.message : FormatError → String
  | .formatNotFound name => s!"Format '{name}' not found"

namespace Tree

/-- The elements of the postfix order with spaces between them. -/
def postfixText (t : Tree) : String :=
  " ".intercalate (t.postfixOrder.map PostfixToken.text)

end Tree

namespace Format

def dot : Format := ⟨"dot", "Graphviz digraph", Tree.graphviz⟩

def expr : Format := ⟨"expr", "Infix expression with minimal parentheses", Tree.text⟩

def json : Format := ⟨"json", "Tree as pretty-printed JSON", fun t => t.document.json⟩

def rpn : Format := ⟨"rpn", "Postfix (reverse Polish) notation", Tree.postfixText⟩

def sexpr : Format := ⟨"sexpr", "S-expression, operator first", Tree.sexpression⟩

def treeviz : Format := ⟨"treeviz", "Indented tree, one node per line", Tree.outline⟩

def yaml : Format := ⟨"yaml", "Tree as YAML", fun t => t.document.yaml⟩

/-- Order by name. -/
def before (f g : Format) : Bool := decide (f.name < g.name)

theorem isWeakOrder_before : IsWeakOrder before where
  trans hab hbc := by
    simp only [before, decide_eq_true_eq] at hab hbc ⊢
    exact String.lt_trans hab hbc
  of_incomparable hab hba hbc := by
    simp only [before, decide_eq_true_eq, decide_eq_false_iff_not, String.not_lt] at hab hba hbc ⊢
    rwa [String.le_antisymm hba hab]

def all : List Format := [expr, rpn, sexpr, treeviz, dot, json, yaml]

end Format

/-- Formats in the order of their names, no two of the same name. -/
structure FormatRegistry where
  formats : List Format
  ordered : formats.Pairwise fun f g => f.before g = true

namespace FormatRegistry

def empty : FormatRegistry := ⟨[], .nil⟩

/-- Adds a format in place of the one that had its name. -/
def register (r : FormatRegistry) (f : Format) : FormatRegistry :=
  ⟨insertSorted Format.before f r.formats,
    pairwise_insertSorted Format.isWeakOrder_before f r.ordered⟩

def standard : FormatRegistry := Format.all.foldl register empty

def get? (r : FormatRegistry) (name : String) : Option Format :=
  r.formats.find? fun f => f.name == name

def has (r : FormatRegistry) (name : String) : Bool := (r.get? name).isSome

def names (r : FormatRegistry) : List String := r.formats.map (·.name)

def serialize (r : FormatRegistry) (t : Tree) (name : String) : Except FormatError String :=
  match r.get? name with
  | some f => .ok (f.render t)
  | none => .error (.formatNotFound name)

end FormatRegistry

end Fixity
