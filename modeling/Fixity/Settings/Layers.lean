import Fixity.Grammar.Definition
import Fixity.Settings.Path
import Fixity.Toml.File

/-! Grammars from layers of configuration. A later layer replaces what earlier ones say at the paths
that its keys spell; tables alone are joined key by key. -/
namespace Fixity

inductive Layer where
  | document (d : Document)
  | text (toml : String)
  /-- A file that must exist, with its contents if it does. -/
  | file (contents : Option String)
  /-- A file that need not exist. -/
  | optionalFile (contents : Option String)

inductive LoadError where
  | missingFile
  | malformed
  | mismatched
  | grammar (error : GrammarError)
  deriving DecidableEq

def LoadError.message : LoadError → String
  | .missingFile => "could not read grammar configuration: the file cannot be read"
  | .malformed => "could not read grammar configuration: the text is not valid TOML"
  | .mismatched => "could not read grammar configuration: it does not describe a grammar"
  | .grammar error => s!"invalid grammar: {error.message}"

namespace Layer

/-- The contents of a layer, if it has any. -/
def contents : Layer → Except LoadError (Option Document)
  | .document d => .ok (some d)
  | .text toml | .file (some toml) | .optionalFile (some toml) =>
    match Toml.document? toml with
    | some d => .ok (some d)
    | none => .error .malformed
  | .file none => .error .missingFile
  | .optionalFile none => .ok none

/-- The grammar of type expressions. Nothing is said of a flag or a position for the binary
operator, so a later layer finds no value there. -/
def defaults : Layer := .document <| .record [
  ("operators", .list [
    .record [("symbol", .text "[]"), ("name", .text "ARRAY"), ("precedence", .integer 5),
      ("unary", .flag true), ("unary_position", .text "postfix"), ("associativity", .text "none")],
    .record [("symbol", .text "|"), ("name", .text "UNION"), ("precedence", .integer 0),
      ("associativity", .text "left")]]),
  ("delimiters", .list [.record [("opening", .text "("), ("closing", .text ")")]])]

end Layer

namespace GrammarDefinition

/-- The definition that some layers give, of which every one has to be readable. -/
def ofLayers (layers : List Layer) : Except LoadError GrammarDefinition := do
  let contents ← layers.mapM Layer.contents
  match ((contents.filterMap id).foldlM Document.placeFields (.record [])).bind
    (ofDocument? .lenient) with
  | some definition => return definition
  | none => throw .mismatched

end GrammarDefinition

namespace Grammar

def ofLayers (layers : List Layer) : Except LoadError Grammar := do
  (← GrammarDefinition.ofLayers layers).grammar.mapError .grammar

/-- The grammar of a single file, given by its contents. -/
def ofFile (contents : Option String) : Except LoadError Grammar := ofLayers [.file contents]

end Grammar

end Fixity
