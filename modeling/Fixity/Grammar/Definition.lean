import Fixity.Document
import Fixity.Grammar

/-! Grammars as they are written down in configuration files: texts and flags that still have to be
validated. -/
namespace Fixity

structure OperatorDefinition where
  symbol : String
  name : Option String
  precedence : Int32
  unary : Bool
  unaryPosition : Option Side
  associativity : Associativity
  deriving DecidableEq

structure DelimiterDefinition where
  opening : String
  closing : String
  deriving DecidableEq

structure GrammarDefinition where
  operators : List OperatorDefinition
  delimiters : List DelimiterDefinition
  deriving DecidableEq

namespace Associativity

def ofDocument? (r : Reading) (d : Document) : Option Associativity :=
  (r.choice? (all.map text) d).bind fun name => all.find? (·.text == name)

end Associativity

namespace Side

def ofDocument? (r : Reading) (d : Document) : Option Side :=
  (r.choice? (all.map text) d).bind fun name => all.find? (·.text == name)

end Side

namespace OperatorDefinition

/-- Validates the symbol first and then the flags. -/
def operator (d : OperatorDefinition) : Except GrammarError Operator := do
  let symbol ← (Token.ofString d.symbol).mapError .token
  let op ← (Operator.ofFlags symbol d.precedence d.unary d.unaryPosition d.associativity).mapError
    .operator
  return { op with name := d.name }

def ofOperator (op : Operator) : OperatorDefinition :=
  ⟨op.symbol.text, op.name, op.precedence, op.isUnary, op.arity.side?, op.associativity⟩

/-- Only the symbol has to be given. -/
def ofDocument? (r : Reading) (d : Document) : Option OperatorDefinition := do
  let names := ["symbol", "name", "precedence", "unary", "unary_position", "associativity"]
  match ← r.fields? names d with
  | [symbol, name, precedence, unary, unaryPosition, associativity] =>
    return {
      symbol := ← Reading.required r.text? symbol
      name := ← Reading.defaulted (Reading.optional? r.text?) none name
      precedence := ← Reading.defaulted r.word? 0 precedence
      unary := ← Reading.defaulted r.flag? false unary
      unaryPosition :=
        ← Reading.defaulted (Reading.optional? (Side.ofDocument? r)) none unaryPosition
      associativity := ← Reading.defaulted (Associativity.ofDocument? r) .left associativity }
  | _ => none

def document (d : OperatorDefinition) : Document :=
  .record [("symbol", .text d.symbol), ("name", .ofText? d.name),
    ("precedence", .integer d.precedence.toInt), ("unary", .flag d.unary),
    ("unary_position", .ofText? (d.unaryPosition.map Side.text)),
    ("associativity", .text d.associativity.text)]

end OperatorDefinition

namespace DelimiterDefinition

def pair (d : DelimiterDefinition) : Except GrammarError DelimiterPair :=
  (DelimiterPair.ofStrings d.opening d.closing).mapError .token

def ofPair (p : DelimiterPair) : DelimiterDefinition := ⟨p.opening.text, p.closing.text⟩

def ofDocument? (r : Reading) (d : Document) : Option DelimiterDefinition := do
  match ← r.fields? ["opening", "closing"] d with
  | [opening, closing] =>
    return ⟨← Reading.required r.text? opening, ← Reading.required r.text? closing⟩
  | _ => none

def document (d : DelimiterDefinition) : Document :=
  .record [("opening", .text d.opening), ("closing", .text d.closing)]

end DelimiterDefinition

namespace GrammarDefinition

/-- Validates all operators, then all delimiter pairs, then how they fit together. -/
def grammar (d : GrammarDefinition) : Except GrammarError Grammar := do
  let operators ← d.operators.mapM OperatorDefinition.operator
  let delimiters ← d.delimiters.mapM DelimiterDefinition.pair
  Grammar.ofParts (← OperatorSet.ofList operators) delimiters

def ofGrammar (g : Grammar) : GrammarDefinition :=
  ⟨g.operators.operators.map .ofOperator, g.delimiters.map .ofPair⟩

/-- The delimiters of a grammar that names none. -/
def defaultDelimiters : List DelimiterDefinition := [.ofPair .parentheses]

def ofDocument? (r : Reading) (d : Document) : Option GrammarDefinition := do
  match ← r.fields? ["operators", "delimiters"] d with
  | [operators, delimiters] =>
    return {
      operators := ← Reading.required (Reading.items? (OperatorDefinition.ofDocument? r)) operators
      delimiters := ← Reading.defaulted (Reading.items? (DelimiterDefinition.ofDocument? r))
        defaultDelimiters delimiters }
  | _ => none

def document (d : GrammarDefinition) : Document :=
  .record [("operators", .list (d.operators.map OperatorDefinition.document)),
    ("delimiters", .list (d.delimiters.map DelimiterDefinition.document))]

end GrammarDefinition

namespace Token

def ofDocument? (r : Reading) (d : Document) : Option Token :=
  (r.text? d).bind fun s => (ofString s).toOption

end Token

namespace DelimiterPair

def ofDocument? (r : Reading) (d : Document) : Option DelimiterPair :=
  (DelimiterDefinition.ofDocument? r d).bind fun d => d.pair.toOption

def document (p : DelimiterPair) : Document := (DelimiterDefinition.ofPair p).document

end DelimiterPair

namespace Operator

/-- The name is left out if there is none. -/
def document (op : Operator) : Document :=
  .record ([("symbol", .text op.symbol.text)] ++
    (op.name.map fun name => ("name", .text name)).toList ++
    [("precedence", .integer op.precedence.toInt), ("arity", .text op.arity.text),
      ("associativity", .text op.associativity.text)])

end Operator

end Fixity
