import Fixity.Grammar.Definition
import Fixity.Proofs.Validation

/-! Grammars and the definitions that they are validated from. Validation leaves out the blanks of
symbols and delimiters and keeps everything else. So a definition is got back from its grammar but
for these blanks, and a grammar from its definition as it was. -/
namespace Fixity

/-- The text without its blanks. -/
def dropBlanks (text : String) : String := String.ofList (withoutBlanks text.toList)

namespace Token

variable {text : String} {t : Token}

theorem ofString_eq_ok_iff : ofString text = .ok t ↔ t.text = dropBlanks text := by
  constructor
  · intro h
    rw [ofString, ofChars] at h
    split at h
    · cases h
    · cases h
      rfl
  · intro h
    have hchars : t.chars = withoutBlanks text.toList := by
      simpa [dropBlanks] using congrArg String.toList h
    have hne : withoutBlanks text.toList ≠ [] := hchars ▸ t.chars_ne_nil
    rw [ofString, ofChars, dif_neg hne]
    exact congrArg Except.ok (ext hchars.symm)

theorem ofString_eq_error_iff {e : TokenError} :
    ofString text = .error e ↔ dropBlanks text = "" := by
  have hempty : dropBlanks text = "" ↔ withoutBlanks text.toList = [] := by
    rw [← String.toList_eq_nil_iff, dropBlanks, String.toList_ofList]
  rw [hempty, ofString, ofChars]
  split
  · rename_i h
    simp [h]
  · rename_i h
    simp [h]

theorem exists_ofString_eq_ok_iff : (∃ t, ofString text = .ok t) ↔ dropBlanks text ≠ "" := by
  rw [exists_eq_ok_iff]
  exact ⟨fun h => mt ofString_eq_error_iff.2 (h .empty), fun h _ => mt ofString_eq_error_iff.1 h⟩

@[simp] theorem dropBlanks_text (t : Token) : dropBlanks t.text = t.text :=
  (ofString_eq_ok_iff.1 t.ofString_text).symm

end Token

namespace Operator

variable {op : Operator} {symbol : Token} {precedence : Int32} {unary : Bool} {side : Option Side}
  {associativity : Associativity}

/-- The flags tell all about an operator but its name. -/
theorem ofFlags_eq_ok_iff : ofFlags symbol precedence unary side associativity = .ok op ↔
    op.symbol = symbol ∧ op.name = none ∧ op.precedence = precedence ∧ op.isUnary = unary ∧
      op.arity.side? = side ∧ op.associativity = associativity := by
  constructor
  · intro h
    unfold ofFlags at h
    split at h
    · cases h
      simp [isUnary, Arity.side?]
    · cases h
    · cases h
    · split at h
      · cases h
      · cases h
        simp [isUnary, Arity.side?]
  · rintro ⟨rfl, hname, rfl, rfl, rfl, rfl⟩
    obtain ⟨symbol, name, precedence, arity, associativity, hassociates⟩ := op
    cases hname
    cases arity with
    | binary =>
      -- The check of the associativity passes because the operator has passed it before.
      have hne := hassociates rfl
      simp [ofFlags, isUnary, Arity.side?, hne]
    | unary side => rfl

theorem ofFlags_eq_error_iff {e : OperatorError} :
    ofFlags symbol precedence unary side associativity = .error e ↔
      (unary = true ∧ side = none ∧ e = .missingUnaryPosition symbol) ∨
      (unary = false ∧ side ≠ none ∧ e = .unexpectedUnaryPosition symbol) ∨
      (unary = false ∧ side = none ∧ associativity = .none ∧ e = .nonAssociativeBinary symbol) := by
  unfold ofFlags
  split
  · simp
  · simp [eq_comm]
  · simp [eq_comm]
  · split
    · simp_all [eq_comm]
    · simp_all

end Operator

namespace OperatorDefinition

def withoutBlanks (d : OperatorDefinition) : OperatorDefinition :=
  { d with symbol := dropBlanks d.symbol }

@[simp] theorem withoutBlanks_ofOperator (op : Operator) :
    (ofOperator op).withoutBlanks = ofOperator op := by
  simp [withoutBlanks, ofOperator]

theorem operator_eq_ok_iff {d : OperatorDefinition} {op : Operator} :
    d.operator = .ok op ↔ ofOperator op = d.withoutBlanks := by
  simp only [operator, bind_eq_ok_iff, mapError_eq_ok_iff, Token.ofString_eq_ok_iff,
    Operator.ofFlags_eq_ok_iff]
  constructor
  · rintro ⟨symbol, hsymbol, nameless, ⟨rfl, -, hprecedence, hunary, hside, hassoc⟩, ⟨⟩⟩
    simpa [ofOperator, withoutBlanks, Operator.isUnary] using
      ⟨hsymbol, hprecedence, hunary, hside, hassoc⟩
  · intro h
    obtain ⟨symbol, name, precedence, unary, side, associativity⟩ := d
    simp only [ofOperator, withoutBlanks, OperatorDefinition.mk.injEq] at h
    obtain ⟨hsymbol, rfl, hprecedence, hunary, hside, hassoc⟩ := h
    exact ⟨op.symbol, hsymbol, { op with name := none },
      ⟨rfl, rfl, hprecedence, hunary, hside, hassoc⟩, rfl⟩

end OperatorDefinition

namespace DelimiterDefinition

def withoutBlanks (d : DelimiterDefinition) : DelimiterDefinition :=
  ⟨dropBlanks d.opening, dropBlanks d.closing⟩

@[simp] theorem withoutBlanks_ofPair (p : DelimiterPair) :
    (ofPair p).withoutBlanks = ofPair p := by
  simp [withoutBlanks, ofPair]

theorem pair_eq_ok_iff {d : DelimiterDefinition} {p : DelimiterPair} :
    d.pair = .ok p ↔ ofPair p = d.withoutBlanks := by
  simp only [pair, DelimiterPair.ofStrings, mapError_eq_ok_iff, bind_eq_ok_iff,
    Token.ofString_eq_ok_iff]
  constructor
  · rintro ⟨opening, hopening, closing, hclosing, ⟨⟩⟩
    rw [ofPair, withoutBlanks, hopening, hclosing]
  · intro h
    injection h with hopening hclosing
    exact ⟨p.opening, hopening, p.closing, hclosing, rfl⟩

theorem pair_eq_error_iff {d : DelimiterDefinition} {e : GrammarError} : d.pair = .error e ↔
    (dropBlanks d.opening = "" ∨ dropBlanks d.closing = "") ∧ e = .token .empty := by
  simp only [pair, DelimiterPair.ofStrings, mapError_eq_error_iff, bind_eq_error_iff,
    Token.ofString_eq_error_iff]
  constructor
  · rintro ⟨⟨⟩, hblank | ⟨_, _, hblank | ⟨_, _, ⟨⟩⟩⟩, rfl⟩
    · exact ⟨.inl hblank, rfl⟩
    · exact ⟨.inr hblank, rfl⟩
  · rintro ⟨hblank, rfl⟩
    refine ⟨.empty, ?_, rfl⟩
    by_cases hopening : dropBlanks d.opening = ""
    · exact .inl hopening
    · obtain ⟨opening, h⟩ := Token.exists_ofString_eq_ok_iff.2 hopening
      exact .inr ⟨opening, h, .inl (hblank.resolve_left hopening)⟩

end DelimiterDefinition

namespace GrammarDefinition

variable {d : GrammarDefinition} {g : Grammar}

/-- The definition with the blanks left out of all symbols and delimiters. -/
def withoutBlanks (d : GrammarDefinition) : GrammarDefinition :=
  ⟨d.operators.map .withoutBlanks, d.delimiters.map .withoutBlanks⟩

theorem withoutBlanks_ofGrammar (g : Grammar) : (ofGrammar g).withoutBlanks = ofGrammar g := by
  simp [withoutBlanks, ofGrammar, Function.comp_def]

theorem mapM_operator_eq_ok_iff {ops : List Operator} :
    d.operators.mapM OperatorDefinition.operator = .ok ops ↔
      ops.map OperatorDefinition.ofOperator = d.withoutBlanks.operators :=
  mapM_eq_ok_iff fun _ _ => OperatorDefinition.operator_eq_ok_iff

theorem mapM_pair_eq_ok_iff {pairs : List DelimiterPair} :
    d.delimiters.mapM DelimiterDefinition.pair = .ok pairs ↔
      pairs.map DelimiterDefinition.ofPair = d.withoutBlanks.delimiters :=
  mapM_eq_ok_iff fun _ _ => DelimiterDefinition.pair_eq_ok_iff

theorem grammar_eq_ok_iff : d.grammar = .ok g ↔ ofGrammar g = d.withoutBlanks := by
  simp only [grammar, bind_eq_ok_iff, mapM_operator_eq_ok_iff, mapM_pair_eq_ok_iff,
    OperatorSet.ofList_eq_ok_iff, Grammar.ofParts_eq_ok_iff]
  constructor
  · rintro ⟨ops, hops, pairs, hpairs, set, rfl, hg⟩
    rw [ofGrammar, hg, hops, hpairs]
  · intro h
    have hops := congrArg operators h
    have hpairs := congrArg delimiters h
    exact ⟨_, hops, _, hpairs, g.operators, rfl, rfl⟩

/-- Writing a grammar down and validating what was written gives the grammar itself, with all that
is derived from its operators and delimiters. A valid definition is written down again as it was,
but for the blanks of its symbols and delimiters. Definitions of the same grammar differ in nothing
else. -/
theorem grammar_iff_ofGrammar : (∀ g : Grammar, (ofGrammar g).grammar = .ok g) ∧
    ∀ (d : GrammarDefinition) (g : Grammar),
      d.grammar = .ok g ↔ ofGrammar g = d.withoutBlanks := by
  refine ⟨?_, fun _ _ => grammar_eq_ok_iff⟩
  intro g
  rw [grammar_eq_ok_iff, withoutBlanks_ofGrammar]

/-- Two signs and the parentheses with blanks around them, and the name of the second with one in
it. -/
theorem grammar_iff_ofGrammar_of_signs :
    let signs (minus : String) : List OperatorDefinition :=
      [⟨minus, none, 2, false, none, .left⟩, ⟨minus, some "A SIGN", 3, true, some .before, .none⟩]
    let d : GrammarDefinition := ⟨signs " - ", [⟨"( ", "\t)"⟩]⟩
    ∃ g, d.grammar = .ok g ∧ ofGrammar g = ⟨signs "-", [⟨"(", ")"⟩]⟩ ∧
      (ofGrammar g).grammar = .ok g := by
  intro signs d
  let minus : Token := .literal ['-']
  let operators : OperatorSet := ⟨[⟨minus, none, 2, .binary, .left, by decide⟩,
    ⟨minus, some "A SIGN", 3, .unary .before, .none, by decide⟩], by decide⟩
  let g : Grammar := ⟨⟨operators, [.parentheses]⟩, by decide, by decide⟩
  obtain ⟨hback, hiff⟩ := grammar_iff_ofGrammar
  have hg : d.grammar = .ok g := (hiff d g).2 (by decide)
  exact ⟨g, hg, (hiff d g).1 hg, hback g⟩

end GrammarDefinition

end Fixity
