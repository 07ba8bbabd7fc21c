import Fixity.Format
import Fixity.Settings.Layers
import Fixity.Types.Expression

/-! The command line as a function of its arguments and of the grammar file that they name. -/
namespace Fixity

namespace CommandLine

/-- What to do, on which expression. -/
inductive Command where
  | tokenize (expression : String)
  | rpn (expression : String)
  | parse (expression format : String)
  | type (expression : String)
  | listFormats
  | help
  | version
  deriving DecidableEq, Repr

structure Request where
  command : Command
  grammarPath : Option String
  deriving DecidableEq, Repr

structure Outcome where
  code : UInt32
  stdout : String
  stderr : String
  deriving DecidableEq, Repr

/-- The option that a command takes a value with. -/
inductive OptionName where
  | grammar
  | format
  deriving DecidableEq, Repr

namespace OptionName

def long : OptionName → String
  | .grammar => "grammar"
  | .format => "format"

def short : OptionName → Char
  | .grammar => 'g'
  | .format => 'f'

end OptionName

/-- Why the arguments give no request of their own. -/
inductive Stop where
  | usage
  | help
  | version
  deriving DecidableEq, Repr

/-- Arguments sorted into options and expressions, of which so many more can follow. -/
structure Arguments where
  options : List (OptionName × String)
  expressions : List String
  room : Nat

namespace Arguments

/-- No arguments, where so many expressions are expected. -/
def expecting (room : Nat) : Arguments := ⟨[], [], room⟩

def value? (a : Arguments) (name : OptionName) : Option String := a.options.lookup name

/-- No option can be given twice. -/
def withOption (a : Arguments) (name : OptionName) (value : String) : Except Stop Arguments :=
  if (a.value? name).isSome then .error .usage
  else .ok { a with options := (name, value) :: a.options }

def withExpressions (a : Arguments) (expressions : List String) : Except Stop Arguments :=
  if a.room < expressions.length then .error .usage
  else .ok ⟨a.options, a.expressions ++ expressions, a.room - expressions.length⟩

end Arguments

/-- What one argument asks for by itself. -/
inductive Meaning where
  | expression
  | onlyExpressions
  | nothing
  | option (name : OptionName) (value : String)
  | awaiting (name : OptionName)
  | stop (reason : Stop)
  deriving DecidableEq, Repr

/-- A hyphen alone is no option. -/
def isOption (arg : String) : Bool := arg.startsWith "-" && arg != "-"

/-- Reads an option spelled out, with its value after an equals sign if it has one there. -/
def readLong (names : List OptionName) (hasVersion : Bool) (text : List Char) : Meaning :=
  let (word, rest) := text.span (· != '=')
  let word := String.ofList word
  let value := match rest with
    | '=' :: value => some (String.ofList value)
    | _ => none
  match names.find? (·.long == word), value with
  | some name, some value => .option name value
  | some name, none => .awaiting name
  | none, none =>
    if word = "verbose" then .nothing
    else if word = "help" then .stop .help
    else if word = "version" ∧ hasVersion then .stop .version
    else .stop .usage
  | none, some _ => .stop .usage

/-- Reads options of one letter each. Of those with a value only the last one can be there, and what
follows it is the value. -/
def readShort (names : List OptionName) (hasVersion : Bool) : List Char → Meaning
  | [] => .nothing
  | c :: rest =>
    match names.find? (·.short == c) with
    | some name =>
      match rest with
      | [] => .awaiting name
      | '=' :: value => .option name (String.ofList value)
      | value => .option name (String.ofList value)
    | none =>
      if c = 'v' then readShort names hasVersion rest
      else if c = 'h' then .stop .help
      else if c = 'V' ∧ hasVersion then .stop .version
      else .stop .usage

def read (names : List OptionName) (hasVersion : Bool) (arg : String) : Meaning :=
  match arg.toList with
  | ['-', '-'] => .onlyExpressions
  | '-' :: '-' :: word => readLong names hasVersion word
  | ['-'] => .expression
  | '-' :: letters => readShort names hasVersion letters
  | _ => .expression

/-- Sorts the arguments of a command that has the named options. -/
def sortArguments (names : List OptionName) : Arguments → List String → Except Stop Arguments
  | a, [] => .ok a
  | a, arg :: rest =>
    match read names false arg with
    | .expression => do sortArguments names (← a.withExpressions [arg]) rest
    | .onlyExpressions => a.withExpressions rest
    | .nothing => sortArguments names a rest
    | .option name value => do sortArguments names (← a.withOption name value) rest
    | .awaiting name =>
      match rest with
      | value :: rest =>
        if isOption value then .error .usage
        else do sortArguments names (← a.withOption name value) rest
      | [] => .error .usage
    | .stop reason => .error reason

/-- Reads the arguments of a command that takes one expression. -/
def readExpression (names : List OptionName) (args : List String)
    (make : String → Arguments → Command) : Except Stop Request := do
  let a ← sortArguments names (.expecting 1) args
  match a.expressions with
  | [expression] => return ⟨make expression a, a.value? .grammar⟩
  | _ => throw .usage

def readCommand (name : String) (args : List String) : Except Stop Request :=
  match name with
  | "tokenize" => readExpression [.grammar] args fun e _ => .tokenize e
  | "rpn" => readExpression [.grammar] args fun e _ => .rpn e
  | "parse" =>
    readExpression [.grammar, .format] args fun e a => .parse e ((a.value? .format).getD "treeviz")
  | "type" => readExpression [] args fun e _ => .type e
  | "list-formats" => (sortArguments [] (.expecting 0) args).map fun _ => ⟨.listFormats, none⟩
  | "help" =>
    match args with
    | [] => .error .help
    | [command] =>
      if ["tokenize", "rpn", "parse", "type", "list-formats", "help"].contains command then
        .error .help
      else .error .usage
    | _ => .error .usage
  | _ => .error .usage

/-- Reads all arguments: options, then a command with its own arguments. -/
def readRequest : List String → Except Stop Request
  | [] => .error .usage
  | arg :: rest =>
    match read [] true arg with
    | .expression => readCommand arg rest
    | .nothing => readRequest rest
    | .stop reason => .error reason
    | .onlyExpressions | .option _ _ | .awaiting _ => .error .usage

/-- The request that the arguments make, if they are understood. -/
def request? (args : List String) : Option Request :=
  match readRequest args with
  | .ok request => some request
  | .error .help => some ⟨.help, none⟩
  | .error .version => some ⟨.version, none⟩
  | .error .usage => none

def usage : String :=
  String.join <| [
    "Usage: typeshunt [-v] <COMMAND>",
    "",
    "Commands:",
    "  tokenize <EXPR> [-g <FILE>]             Print the tokens",
    "  rpn <EXPR> [-g <FILE>]                  Print the postfix sequence",
    "  parse <EXPR> [-g <FILE>] [-f <FORMAT>]  Print the tree",
    "  type <EXPR>                             Print a normalized type expression",
    "  list-formats                            List output formats"].map (· ++ "\n")

def failure (message : String) : Outcome := ⟨1, "", s!"Error: {message}\n"⟩

/-- Output that ends with a line break, which is added if it is missing. -/
def success (output : String) : Outcome :=
  ⟨0, if output.endsWith "\n" then output else output ++ "\n", ""⟩

def joinTexts (texts : List String) : String := " ".intercalate texts ++ "\n"

def formatLine (f : Format) : String :=
  "  " ++ f.name ++ "".pushn ' ' (10 - f.name.length) ++ f.description ++ "\n"

/-- Writes an expression of a grammar as a tree. The format is looked up before the expression is
parsed. -/
def parse (g : Grammar) (expression format : String) : Outcome :=
  let registry := FormatRegistry.standard
  match registry.get? format with
  | none =>
    failure (s!"unknown format '{format}', available: " ++ ", ".intercalate registry.names)
  | some f =>
    match g.parse expression with
    | .ok tree => success (f.render tree)
    | .error error => failure error.message

/-- Does what is asked for. The contents are those of the grammar file, if it can be read. -/
def run (request : Request) (contents : Option String) : Outcome :=
  let withGrammar (act : Grammar → Outcome) : Outcome :=
    match request.grammarPath with
    | none => act .types
    | some _ =>
      match Grammar.ofFile contents with
      | .ok g => act g
      | .error error => failure error.message
  match request.command with
  | .tokenize expression => withGrammar fun g =>
    ⟨0, joinTexts ((g.tokenize expression).map Token.text), ""⟩
  | .rpn expression => withGrammar fun g =>
    match g.shunt expression with
    | .ok sequence => ⟨0, joinTexts (sequence.map PostfixToken.text), ""⟩
    | .error error => failure error.message
  | .parse expression format => withGrammar fun g => parse g expression format
  | .type expression =>
    match TypeExpression.parse expression with
    | .ok e => ⟨0, e.text ++ "\n", ""⟩
    | .error error => failure error.message
  | .listFormats =>
    let lines := FormatRegistry.standard.formats.map formatLine
    ⟨0, "Available formats:\n\n" ++ String.join lines, ""⟩
  | .help => ⟨0, usage, ""⟩
  | .version => ⟨0, "typeshunt 0.1.0\n", ""⟩

/-- The outcome of arguments that are not understood. -/
def misuse : Outcome := ⟨2, "", usage⟩

end CommandLine

end Fixity
