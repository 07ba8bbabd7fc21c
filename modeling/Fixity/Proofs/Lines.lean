import Fixity.Tree
import Mathlib.Data.List.Basic

/-! Lists that are taken apart where a kind of element first occurs, and texts as lines. -/
namespace Fixity

variable {α : Type} {p : α → Prop} {xs xs' ys ys' : List α}

/-- What comes before the first element of another kind is found in one way only. -/
theorem eq_of_append_eq_append (hxs : ∀ x ∈ xs, p x) (hxs' : ∀ x ∈ xs', p x)
    (hys : ∀ y ∈ ys.head?, ¬p y) (hys' : ∀ y ∈ ys'.head?, ¬p y) (h : xs ++ ys = xs' ++ ys') :
    xs = xs' ∧ ys = ys' := by
  rcases List.append_eq_append_iff.1 h with ⟨_ | ⟨a, rest⟩, rfl, rfl⟩ | ⟨_ | ⟨a, rest⟩, rfl, rfl⟩
  · simp
  · exact absurd (hxs' a (by simp)) (hys a (by simp))
  · simp
  · exact absurd (hxs a (by simp)) (hys' a (by simp))

/-- The text consists of the lines, each of which a line feed ends. -/
structure HasLines (text : String) (lines : List (List Char)) : Prop where
  toList_eq : text.toList = lines.flatMap fun line => line ++ ['\n']
  not_mem : ∀ line ∈ lines, '\n' ∉ line

theorem eq_of_flatMap_lines_eq {lines lines' : List (List Char)}
    (h : ∀ line ∈ lines, '\n' ∉ line) (h' : ∀ line ∈ lines', '\n' ∉ line)
    (he : (lines.flatMap fun line => line ++ ['\n']) = lines'.flatMap fun line => line ++ ['\n']) :
    lines = lines' := by
  induction lines generalizing lines' with
  | nil =>
    cases lines' with
    | nil => rfl
    | cons => simp at he
  | cons line lines ih =>
    cases lines' with
    | nil => simp at he
    | cons line' lines' =>
      obtain ⟨hline, hlines⟩ := List.forall_mem_cons.1 h
      obtain ⟨hline', hlines'⟩ := List.forall_mem_cons.1 h'
      simp only [List.flatMap_cons, List.append_assoc, List.singleton_append] at he
      obtain ⟨rfl, hrest⟩ := eq_of_append_eq_append (p := (· ≠ '\n'))
        (fun c hc hn => hline (hn ▸ hc)) (fun c hc hn => hline' (hn ▸ hc)) (by simp) (by simp) he
      rw [ih hlines hlines' (List.cons.inj hrest).2]

theorem HasLines.unique {text : String} {lines lines' : List (List Char)}
    (h : HasLines text lines) (h' : HasLines text lines') : lines = lines' :=
  eq_of_flatMap_lines_eq h.not_mem h'.not_mem (h.toList_eq.symm.trans h'.toList_eq)

/-- Labels have no line feeds, as tokens have no blanks. -/
theorem Tree.newline_not_mem_label (t : Tree) : '\n' ∉ t.label := by
  intro h
  obtain ⟨x, -, hx⟩ := List.mem_flatMap.1 h
  have hblank := x.not_isBlank _ hx
  revert hblank
  decide

end Fixity
