import Fixity.Sorted
import Fixity.Text.CharacterClass

/-! Tokens, the units of an expression, and the pairs of tokens that enclose a nested expression. -/
namespace Fixity

/-- A text that holds at least one character and no blank. -/
structure Token where
  chars : List Char
  chars_ne_nil : chars ≠ []
  not_isBlank : ∀ c ∈ chars, isBlank c = false
  deriving DecidableEq

inductive TokenError where
  | empty
  deriving DecidableEq, Repr

def TokenError.message : TokenError → String
  | .empty => "tokens may not be empty"

namespace Token

/-- The token left when the blanks are dropped. -/
def ofChars (text : List Char) : Except TokenError Token :=
  if h : withoutBlanks text = [] then .error .empty
  else .ok ⟨withoutBlanks text, h, fun _ => isBlank_of_mem_withoutBlanks⟩

def ofString (text : String) : Except TokenError Token := ofChars text.toList

/-- The token of characters none of which is blank. -/
def literal (chars : List Char)
    (h : (!chars.isEmpty && chars.all fun c => !isBlank c) = true := by decide) : Token where
  chars := chars
  chars_ne_nil := by rintro rfl; simp at h
  not_isBlank c hc := by
    simp only [Bool.and_eq_true, List.all_eq_true] at h
    simpa using h.2 c hc

def text (t : Token) : String := String.ofList t.chars

/-- Length in bytes of the encoded text. -/
def byteSize (t : Token) : Nat := t.text.utf8ByteSize

/-- Order by code points. -/
def before (s t : Token) : Bool := decide (s.chars < t.chars)

@[ext] theorem ext {s t : Token} (h : s.chars = t.chars) : s = t := by
  cases s; cases t; cases h; rfl

theorem before_self (t : Token) : t.before t = false := by
  simp [before]

theorem eq_of_incomparable {s t : Token} (hst : s.before t = false) (hts : t.before s = false) :
    s = t := by
  simp only [before, decide_eq_false_iff_not, List.not_lt] at hst hts
  exact ext (List.le_antisymm hts hst)

theorem isWeakOrder_before : IsWeakOrder before where
  trans {a b c} hab hbc := by
    simp only [before, decide_eq_true_eq] at hab hbc ⊢
    exact List.lt_trans hab hbc
  of_incomparable {a b c} hab hba hbc := eq_of_incomparable hab hba ▸ hbc

@[simp] theorem toList_text (t : Token) : t.text.toList = t.chars := String.toList_ofList

theorem eq_of_text_eq {s t : Token} (h : s.text = t.text) : s = t := by
  have hchars := congrArg String.toList h
  rw [toList_text, toList_text] at hchars
  exact ext hchars

@[simp] theorem withoutBlanks_chars (t : Token) : withoutBlanks t.chars = t.chars :=
  withoutBlanks_eq_self t.not_isBlank

@[simp] theorem ofChars_chars (t : Token) : ofChars t.chars = .ok t := by
  simp [ofChars, t.chars_ne_nil]

@[simp] theorem ofString_text (t : Token) : ofString t.text = .ok t := by
  simp [ofString]

end Token

/-- The texts of some tokens, one after the other. -/
def joinTokens (ts : List Token) : List Char := ts.flatMap Token.chars

@[simp] theorem joinTokens_nil : joinTokens [] = [] := rfl

@[simp] theorem joinTokens_cons (t : Token) (ts : List Token) :
    joinTokens (t :: ts) = t.chars ++ joinTokens ts := rfl

@[simp] theorem joinTokens_append (ss ts : List Token) :
    joinTokens (ss ++ ts) = joinTokens ss ++ joinTokens ts := by
  simp [joinTokens]

@[simp] theorem withoutBlanks_joinTokens (ts : List Token) :
    withoutBlanks (joinTokens ts) = joinTokens ts := by
  induction ts with
  | nil => rfl
  | cons t ts ih => simp [ih]

/-- One token that opens and one that closes a nested expression. -/
structure DelimiterPair where
  opening : Token
  closing : Token
  deriving DecidableEq

namespace DelimiterPair

def ofStrings (opening closing : String) : Except TokenError DelimiterPair := do
  let opening ← Token.ofString opening
  let closing ← Token.ofString closing
  return ⟨opening, closing⟩

/-- Both delimiters, the opening one first. -/
def tokens (p : DelimiterPair) : List Token := [p.opening, p.closing]

def text (p : DelimiterPair) : String := p.opening.text ++ p.closing.text

def parentheses : DelimiterPair :=
  ⟨.literal ['('], .literal [')']⟩

end DelimiterPair

end Fixity
