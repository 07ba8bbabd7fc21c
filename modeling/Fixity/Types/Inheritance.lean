import Fixity.Types.Expression

/-! The parents of a type that inherits from several types, such as `[Person, Employee]`. -/
namespace Fixity

variable [WordClass]

structure InheritanceExpression where
  parents : List TypeExpression
  two_le_length : 2 ≤ parents.length
  deriving DecidableEq

namespace InheritanceExpression

@[ext] theorem ext {e f : InheritanceExpression} (h : e.parents = f.parents) : e = f := by
  cases e; cases f; cases h; rfl

def ofParents (parents : List TypeExpression) : Except TypeError InheritanceExpression :=
  if h : 2 ≤ parents.length then .ok ⟨parents, h⟩
  else .error (.inheritanceTooShort parents.length)

theorem ofParents_eq_ok_iff {parents : List TypeExpression} {e : InheritanceExpression} :
    ofParents parents = .ok e ↔ parents = e.parents := by
  constructor
  · intro h
    unfold ofParents at h
    split at h
    · cases h
      rfl
    · cases h
  · rintro rfl
    exact dif_pos e.two_le_length

theorem ofParents_eq_error_iff {parents : List TypeExpression} {error : TypeError} :
    ofParents parents = .error error ↔
      parents.length < 2 ∧ error = .inheritanceTooShort parents.length := by
  unfold ofParents
  split
  · simp only [reduceCtorEq, false_iff, not_and]
    omega
  · simp only [Except.error.injEq, eq_comm (a := error), iff_and_self]
    omega

/-- Parses every parent before they are counted. -/
def parse (parents : List String) : Except TypeError InheritanceExpression := do
  ofParents (← parents.mapM TypeExpression.parse)

def text (e : InheritanceExpression) : String :=
  "[" ++ ", ".intercalate (e.parents.map TypeExpression.text) ++ "]"

/-- Documents hold the parents as a list of type expressions. -/
def ofDocument? (r : Reading) (d : Document) : Option InheritanceExpression :=
  (Reading.items? (TypeExpression.ofDocument? r) d).bind fun parents => (ofParents parents).toOption

def document (e : InheritanceExpression) : Document :=
  .list (e.parents.map TypeExpression.document)

end InheritanceExpression

end Fixity
