import Fixity.Proofs.NormalForm
import Fixity.Proofs.PrintedText
import Fixity.Types.Inheritance

/-! Type expressions that are printed and read again. No symbol occurs in a name, so the text of an
expression is parsed as its tree, and what is read is the normal form of what was printed. -/
namespace Fixity

open Grammar (types)

namespace TypeName

/-- Every symbol of the grammar of types has a character that names do not have. -/
theorem exists_mark_mem {s : List Char} (h : s ∈ types.symbolTable.symbols) :
    ∃ c ∈ s, c ∈ typeMarks := by
  have hmarks : (types.symbolTable.symbols.all fun s => s.any typeMarks.contains) = true := by
    decide +kernel
  simpa using List.all_eq_true.1 hmarks s h

theorem free_chars [WordClass] (n : TypeName) : types.symbolTable.Free n.chars := by
  rw [SymbolTable.free_iff]
  intro s hs hsub
  obtain ⟨c, hc, hmark⟩ := exists_mark_mem hs
  have hname := n.isNameCharacter_of_mem c (hsub.subset hc)
  rw [isNameCharacter_mark hmark] at hname
  cases hname

theorem printable_token [WordClass] (n : TypeName) : types.Printable (.value n.token) :=
  Grammar.printable_value n.free_chars

end TypeName

namespace TypeExpression

theorem printable_array {a : Tree} (ha : types.Printable a) :
    types.Printable (.node (.ofOperator .array) [a]) :=
  ha.after (by decide) rfl

theorem printable_unionTree {a b : Tree} (ha : types.Printable a) (hb : types.Printable b) :
    types.Printable (unionTree a b) :=
  ha.binary hb (by decide) rfl

section

variable [WordClass]

mutual

theorem printable_toTree : (t : TypeExpression) → types.Printable t.toTree
  | .name n => n.printable_token
  | .array items => printable_array (printable_toTree items)
  | .union [] => TypeName.nil.printable_token
  | .union (t :: ts) => printable_foldTrees (printable_toTree t) ts

theorem printable_foldTrees {a : Tree} (ha : types.Printable a) :
    (ts : List TypeExpression) → types.Printable (foldTrees a ts)
  | [] => ha
  | t :: ts => printable_foldTrees (printable_unionTree ha (printable_toTree t)) ts

end

theorem types_parse_toTree (t : TypeExpression) : types.parse t.text = .ok t.toTree :=
  ((printable_toTree t).parse_text Grammar.isEffective_parentheses_types
    Grammar.separating_types).2

theorem parse_text (t : TypeExpression) : parse t.text = .ok t.normalForm := by
  rw [parse, types_parse_toTree]
  exact ofTree_toTree t

/-- The text of an expression determines its tree. -/
theorem text_eq_iff {s t : TypeExpression} : s.text = t.text ↔ s.toTree = t.toTree := by
  constructor
  · intro h
    have hs := types_parse_toTree s
    rw [h, types_parse_toTree t] at hs
    exact (Except.ok.inj hs).symm
  · intro h
    rw [text, h, text]

theorem ofDocument?_document {r : Reading} (hr : ∀ s, r.text? (.text s) = some s)
    (t : TypeExpression) : ofDocument? r t.document = some t.normalForm := by
  rw [ofDocument?, document, hr, Option.bind_some, parse_text]
  rfl

/-- An expression has a tree, and its text and its document are read as its normal form. So exactly
the flat expressions are read as they were. A text is printed again as its normal form is, which is
the same text exactly if no union was printed as the right operand of another one. -/
theorem parse_text_eq_normalForm (t : TypeExpression) :
    t.checkedTree = .ok t.toTree ∧
      parse t.text = .ok t.normalForm ∧
      (parse t.text = .ok t ↔ t.Flat) ∧
      (ofDocument? .strict t.document = some t ↔ t.Flat) ∧
      (parse t.text).map text = .ok t.normalForm.text ∧
      ((parse t.text).map text = .ok t.text ↔ Folded t.toTree) := by
  have hparse := parse_text t
  have hread : ofDocument? .strict t.document = some t.normalForm :=
    ofDocument?_document (fun _ => rfl) t
  have hprint : (parse t.text).map text = .ok t.normalForm.text := by
    rw [hparse]
    rfl
  refine ⟨checkedTree_eq t, hparse, ?_, ?_, hprint, ?_⟩
  · rw [hparse, Except.ok.injEq, normalForm_eq_self_iff]
  · rw [hread, Option.some.injEq, normalForm_eq_self_iff]
  · rw [hprint, Except.ok.injEq, text_eq_iff, toTree_normalForm_iff]

end

/-- The union of `A` with the union of `B` and `C` is printed with parentheses, which are not
printed again once it is read. -/
theorem parse_text_of_nested_union :
    let a : TypeName := .literal ['A']
    let b : TypeName := .literal ['B']
    let c : TypeName := .literal ['C']
    let t : TypeExpression := .union [.name a, .union [.name b, .name c]]
    t.text = "A|(B|C)" ∧ (parse t.text).map text = .ok "A|B|C" ∧
      (parse t.text).map text ≠ .ok t.text := by
  decide +kernel

end TypeExpression

namespace InheritanceExpression

/-- Parents are read back from their document just if each of them is flat. -/
theorem ofDocument?_document_eq_iff [WordClass] (e : InheritanceExpression) :
    ofDocument? .strict e.document = some e ↔ ∀ t ∈ e.parents, t.Flat := by
  have hitems : ∀ ts : List TypeExpression,
      (ts.map TypeExpression.document).mapM (TypeExpression.ofDocument? .strict) =
        some (ts.map TypeExpression.normalForm) := by
    intro ts
    induction ts with
    | nil => rfl
    | cons t ts ih =>
      rw [List.map_cons, List.mapM_cons, TypeExpression.ofDocument?_document (fun _ => rfl), ih]
      rfl
  have hparents : ∀ parents, (ofParents parents).toOption = some e ↔ parents = e.parents := by
    intro parents
    rw [← ofParents_eq_ok_iff]
    cases ofParents parents <;> simp [Except.toOption]
  have hflat := List.map_inj_left (l := e.parents) (f := TypeExpression.normalForm) (g := id)
  rw [ofDocument?, document, Reading.items?, hitems, Option.bind_some, hparents]
  simpa [TypeExpression.normalForm_eq_self_iff] using hflat

end InheritanceExpression

end Fixity
