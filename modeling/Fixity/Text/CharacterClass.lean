/-! Character classes given by ranges of code points, and the class of blanks, which expressions
may hold anywhere without a change of meaning. -/
namespace Fixity

/-- A set of characters as ranges of code points, both ends included. -/
abbrev CharacterClass := List (Nat × Nat)

namespace CharacterClass

def contains (k : CharacterClass) (c : Char) : Bool :=
  k.any fun r => decide (r.1 ≤ c.toNat) && decide (c.toNat ≤ r.2)

@[simp] theorem contains_nil (c : Char) : contains [] c = false := rfl

@[simp] theorem contains_cons (r : Nat × Nat) (k : CharacterClass) (c : Char) :
    contains (r :: k) c =
      ((decide (r.1 ≤ c.toNat) && decide (c.toNat ≤ r.2)) || contains k c) := rfl

/-- The characters with the White_Space property. -/
def blanks : CharacterClass :=
  [(0x09, 0x0D), (0x20, 0x20), (0x85, 0x85), (0xA0, 0xA0), (0x1680, 0x1680), (0x2000, 0x200A),
    (0x2028, 0x2029), (0x202F, 0x202F), (0x205F, 0x205F), (0x3000, 0x3000)]

end CharacterClass

def isBlank (c : Char) : Bool := CharacterClass.blanks.contains c

/-- The text without its blanks. -/
def withoutBlanks (text : List Char) : List Char := text.filter fun c => !isBlank c

/-- The text without the blanks at its two ends. -/
def trimBlanks (text : List Char) : List Char :=
  ((text.dropWhile isBlank).reverse.dropWhile isBlank).reverse

@[simp] theorem withoutBlanks_nil : withoutBlanks [] = [] := rfl

@[simp] theorem withoutBlanks_append (s t : List Char) :
    withoutBlanks (s ++ t) = withoutBlanks s ++ withoutBlanks t := by
  simp [withoutBlanks]

theorem isBlank_of_mem_withoutBlanks {c : Char} {text : List Char} (h : c ∈ withoutBlanks text) :
    isBlank c = false := by
  simpa using (List.mem_filter.1 h).2

theorem withoutBlanks_eq_self {text : List Char} (h : ∀ c ∈ text, isBlank c = false) :
    withoutBlanks text = text :=
  List.filter_eq_self.2 fun c hc => by simp [h c hc]

theorem trimBlanks_eq_self {text : List Char} (h : ∀ c ∈ text, isBlank c = false) :
    trimBlanks text = text := by
  have hdrop : ∀ text : List Char, (∀ c ∈ text, isBlank c = false) →
      text.dropWhile isBlank = text := by
    intro text h
    cases text with
    | nil => rfl
    | cons c rest => simp [h c]
  rw [trimBlanks, hdrop text h, hdrop text.reverse (by simpa using h), List.reverse_reverse]

@[simp] theorem withoutBlanks_withoutBlanks (text : List Char) :
    withoutBlanks (withoutBlanks text) = withoutBlanks text :=
  withoutBlanks_eq_self fun _ => isBlank_of_mem_withoutBlanks

end Fixity
