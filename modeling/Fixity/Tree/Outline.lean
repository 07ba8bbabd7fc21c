import Fixity.Tree

/-! Trees drawn with one line for each node, children indented below their parent. -/
namespace Fixity

namespace Tree

/-- What the root is in an expression. A node is no value, even if its operator has no operands. -/
def role : Tree → PostfixToken.Role
  | .value _ => .value
  | .node op _ => if op.isValue then .other else op.role

/-- A mark that tells the roles apart. -/
def icon (t : Tree) : Char :=
  match t.role with
  | .value => '○'
  | .before => '▷'
  | .after => '◁'
  | .binary => '◇'
  | .other => '◈'

/-- At most thirty characters of a label. -/
def cutLabel (label : List Char) : List Char :=
  if 30 < label.length then label.take 30 ++ ['.', '.', '.'] else label

/-- The line of the root. -/
def outlineLine (indent : List Char) (isLast : Bool) (t : Tree) : List Char :=
  indent ++ (if isLast then ['└', '─'] else ['├', '─']) ++
    [' ', t.icon, ' '] ++ cutLabel t.label ++ ['\n']

/-- The indentation of what stands below a node. -/
def outlineIndent (indent : List Char) (isLast : Bool) : List Char :=
  indent ++ if isLast then [' ', ' '] else ['│', ' ']

mutual

/-- The lines of a tree that is or is not the last child of its parent. -/
def outlineLines (indent : List Char) (isLast : Bool) : Tree → List (List Char)
  | .value t => [outlineLine indent isLast (.value t)]
  | .node op cs =>
    outlineLine indent isLast (.node op cs) :: outlineLinesBelow (outlineIndent indent isLast) cs

def outlineLinesBelow (indent : List Char) : List Tree → List (List Char)
  | [] => []
  | t :: ts => t.outlineLines indent ts.isEmpty ++ outlineLinesBelow indent ts

end

def outline (t : Tree) : String := String.ofList (t.outlineLines [] true).flatten

end Tree

end Fixity
