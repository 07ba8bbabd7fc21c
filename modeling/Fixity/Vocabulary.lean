import Fixity.OperatorSet

/-! The words that an expression language gives a meaning, its operators and its delimiters, and how
a text is split at them. At each place the longest symbol that starts there is taken; the characters
at which no symbol starts form basic tokens, which are as long as possible. -/
namespace Fixity

namespace SymbolTable

/-- Number of bytes of the encoded text. -/
def byteCount (text : List Char) : Nat := text.foldr (fun c n => c.utf8Size + n) 0

/-- Longer symbols come first, those of one length in the order of their code points. -/
def before (s t : List Char) : Bool :=
  decide (byteCount t < byteCount s) || (byteCount s == byteCount t && decide (s < t))

theorem before_eq_true_iff {s t : List Char} :
    before s t = true ↔ byteCount t < byteCount s ∨ byteCount s = byteCount t ∧ s < t := by
  simp [before]

theorem before_eq_false_iff {s t : List Char} :
    before s t = false ↔ byteCount s ≤ byteCount t ∧ (byteCount s = byteCount t → ¬s < t) := by
  simp only [before, Bool.or_eq_false_iff, Bool.and_eq_false_imp, beq_iff_eq,
    decide_eq_false_iff_not, Nat.not_lt]

theorem eq_of_incomparable {s t : List Char} (hst : before s t = false) (hts : before t s = false) :
    s = t := by
  rw [before_eq_false_iff] at hst hts
  have hlength : byteCount s = byteCount t := by omega
  exact List.le_antisymm (List.not_lt.1 (hts.2 hlength.symm)) (List.not_lt.1 (hst.2 hlength))

theorem isWeakOrder_before : IsWeakOrder before where
  trans {a b c} hab hbc := by
    rw [before_eq_true_iff] at hab hbc ⊢
    rcases hab with hab | ⟨hab, h⟩
    · rcases hbc with hbc | ⟨hbc, _⟩ <;> exact .inl (by omega)
    · rcases hbc with hbc | ⟨hbc, h'⟩
      · exact .inl (by omega)
      · exact .inr ⟨by omega, List.lt_trans h h'⟩
  of_incomparable {a b c} hab hba hbc := eq_of_incomparable hab hba ▸ hbc

end SymbolTable

/-- Symbols to split at. The first one that a text starts with is the longest such symbol. -/
structure SymbolTable where
  symbols : List (List Char)
  ne_nil : ∀ s ∈ symbols, s ≠ []
  ordered : symbols.Pairwise fun s t => SymbolTable.before s t = true
  deriving DecidableEq

namespace SymbolTable

/-- The table of some symbols; empty and repeated ones do not count. -/
def ofList (symbols : List (List Char)) : SymbolTable where
  symbols := sortDistinct before (symbols.filter fun s => !s.isEmpty)
  ne_nil s h := by simpa using (List.mem_filter.1 (mem_of_mem_sortDistinct h)).2
  ordered := pairwise_sortDistinct isWeakOrder_before _

theorem mem_symbols_ofList {symbols : List (List Char)} {s : List Char} :
    s ∈ (ofList symbols).symbols ↔ s ∈ symbols ∧ s ≠ [] := by
  simp [ofList, mem_sortDistinct_iff fun _ _ => eq_of_incomparable]

/-- The longest symbol that stands at the start of the text. -/
def symbolAt? (t : SymbolTable) (text : List Char) : Option (List Char) :=
  t.symbols.find? fun s => s.isPrefixOf text

theorem ne_nil_of_symbolAt? {t : SymbolTable} {text s : List Char} (h : t.symbolAt? text = some s) :
    s ≠ [] :=
  t.ne_nil s (List.mem_of_find?_eq_some h)

/-- Splits before the first place at which a symbol starts. -/
def splitBasic (t : SymbolTable) : List Char → List Char × List Char
  | [] => ([], [])
  | c :: rest =>
    match t.symbolAt? (c :: rest) with
    | some _ => ([], c :: rest)
    | none => ((c :: (t.splitBasic rest).1), (t.splitBasic rest).2)

theorem splitBasic_append (t : SymbolTable) (text : List Char) :
    (t.splitBasic text).1 ++ (t.splitBasic text).2 = text := by
  induction text with
  | nil => rfl
  | cons c rest ih =>
    unfold splitBasic
    split
    · rfl
    · simp [ih]

theorem length_splitBasic_le (t : SymbolTable) (text : List Char) :
    (t.splitBasic text).2.length ≤ text.length := by
  have h := congrArg List.length (t.splitBasic_append text)
  simp only [List.length_append] at h
  omega

/-- The symbols and the basic runs of the text, in order. -/
def cut (t : SymbolTable) : List Char → List (List Char)
  | [] => []
  | c :: rest =>
    match _h : t.symbolAt? (c :: rest) with
    | some s => s :: t.cut ((c :: rest).drop s.length)
    | none => (c :: (t.splitBasic rest).1) :: t.cut (t.splitBasic rest).2
termination_by text => text.length
decreasing_by
  · have hs := List.length_pos_iff.2 (ne_nil_of_symbolAt? _h)
    simp only [List.length_drop, List.length_cons]
    omega
  · have hb := t.length_splitBasic_le rest
    simp only [List.length_cons]
    omega

/-- The tokens of an expression, its blanks left out. -/
def tokenize (t : SymbolTable) (input : String) : List Token :=
  (t.cut (withoutBlanks input.toList)).filterMap fun piece => (Token.ofChars piece).toOption

end SymbolTable

structure Vocabulary where
  operators : OperatorSet
  delimiters : List DelimiterPair
  deriving DecidableEq

namespace Vocabulary

/-- The first pair that the token opens. -/
def opening? (v : Vocabulary) (t : Token) : Option DelimiterPair :=
  v.delimiters.find? fun pair => pair.opening == t

def isClosing (v : Vocabulary) (t : Token) : Bool :=
  v.delimiters.any fun pair => pair.closing == t

def isDelimiter (v : Vocabulary) (t : Token) : Bool := (v.opening? t).isSome || v.isClosing t

/-- All symbols, those of operators first. -/
def symbols (v : Vocabulary) : List Token :=
  v.operators.symbols ++ v.delimiters.flatMap DelimiterPair.tokens

def symbolTable (v : Vocabulary) : SymbolTable := .ofList (v.symbols.map Token.chars)

def tokenize (v : Vocabulary) (input : String) : List Token := v.symbolTable.tokenize input

end Vocabulary

end Fixity
