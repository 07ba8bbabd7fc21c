import Fixity.Text.WordCharacter
import Fixity.Token

/-! Names of types: word characters and hyphens. Which characters make words is a parameter, of
which little has to be known. -/
namespace Fixity

/-- What stands between the names in a type expression. -/
def typeMarks : List Char := ['(', ')', '|', '[', ']']

/-- The characters that make words. No blank is one of them and no mark of a type expression, and
all letters of the Latin alphabet are. -/
class WordClass where
  contains : Char → Bool
  isBlank_eq_false {c : Char} (h : contains c = true) : isBlank c = false
  contains_mark {c : Char} (h : c ∈ typeMarks) : contains c = false
  contains_letter {c : Char} (h : c.isAlpha = true) : contains c = true

/-- The word characters of all scripts. -/
instance : WordClass where
  contains := CharacterClass.words.contains
  isBlank_eq_false := CharacterClass.contains_eq_false_of_apart CharacterClass.apart_words_blanks
  contains_mark h := by
    have hmarks : (typeMarks.all fun c => !CharacterClass.words.contains c) = true := by
      decide +kernel
    simpa using List.all_eq_true.1 hmarks _ h
  contains_letter := CharacterClass.words_contains_of_isAlpha

variable [WordClass]

def isNameCharacter (c : Char) : Bool := c == '-' || WordClass.contains c

theorem isBlank_eq_false_of_isNameCharacter {c : Char} (h : isNameCharacter c = true) :
    isBlank c = false := by
  rcases Bool.or_eq_true_iff.1 h with h | h
  · rw [eq_of_beq h]; decide
  · exact WordClass.isBlank_eq_false h

theorem isNameCharacter_mark {c : Char} (h : c ∈ typeMarks) : isNameCharacter c = false := by
  have hhyphen : c ≠ '-' := by
    rintro rfl
    revert h
    decide
  rw [isNameCharacter, beq_eq_false_iff_ne.2 hhyphen, WordClass.contains_mark h, Bool.or_self]

theorem isNameCharacter_letter {c : Char} (h : c.isAlpha = true) : isNameCharacter c = true := by
  rw [isNameCharacter, WordClass.contains_letter h, Bool.or_true]

/-- The name of a type, as it is written. -/
structure TypeName where
  chars : List Char
  chars_ne_nil : chars ≠ []
  isNameCharacter_of_mem : ∀ c ∈ chars, isNameCharacter c = true

namespace TypeName

@[ext] theorem ext {m n : TypeName} (h : m.chars = n.chars) : m = n := by
  cases m; cases n; cases h; rfl

instance : DecidableEq TypeName := fun m n =>
  decidable_of_iff (m.chars = n.chars) ⟨ext, congrArg chars⟩

/-- The name of characters all of which names may have. -/
def literal (chars : List Char)
    (h : (!chars.isEmpty && chars.all isNameCharacter) = true := by decide +kernel) :
    TypeName where
  chars := chars
  chars_ne_nil := by rintro rfl; simp at h
  isNameCharacter_of_mem := by
    simp only [Bool.and_eq_true, List.all_eq_true] at h
    exact h.2

/-- The name in a text, blanks around it left out. -/
def ofChars? (text : List Char) : Option TypeName :=
  let text := trimBlanks text
  if h : (!text.isEmpty && text.all isNameCharacter) = true then some (.literal text h) else none

def text (n : TypeName) : String := String.ofList n.chars

def token (n : TypeName) : Token :=
  ⟨n.chars, n.chars_ne_nil, fun c hc =>
    isBlank_eq_false_of_isNameCharacter (n.isNameCharacter_of_mem c hc)⟩

@[simp] theorem chars_token (n : TypeName) : n.token.chars = n.chars := rfl

@[simp] theorem ofChars?_chars (n : TypeName) : ofChars? n.chars = some n := by
  have hname : (!n.chars.isEmpty && n.chars.all isNameCharacter) = true := by
    simp [n.chars_ne_nil, List.all_eq_true.2 n.isNameCharacter_of_mem]
  have htrim : trimBlanks n.chars = n.chars := trimBlanks_eq_self n.token.not_isBlank
  simp [ofChars?, htrim, hname, literal]

end TypeName

end Fixity
