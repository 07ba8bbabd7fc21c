import Fixity.PostfixToken
import Fixity.Vocabulary

/-! A machine that reads an expression token by token and writes it in postfix order. Operators wait
on a stack until one that binds less tightly, a closing delimiter or the end of the input releases
them. What was read last decides whether an operand or an operator must follow, and so which of the
operators with one symbol is meant. -/
namespace Fixity

/-- Why a sequence of tokens is no expression. -/
inductive ShuntFault where
  | nonMatchingDelimiters (opening : Option Token) (closing : Token)
  | startsWithClosingDelimiter (delimiter : Token)
  | startsWithOperator (symbol : Token)
  | operandExpected (symbol : Token) (position : Nat)
  | operatorExpected (symbol : Token) (position : Nat)
  | unclosedDelimiter (delimiter : Token)
  | lengthMismatch (expected actual : Nat)
  deriving DecidableEq

/-- A fault in the tokens of `input`. -/
structure ShuntError where
  input : String
  fault : ShuntFault
  deriving DecidableEq

def ShuntError.message (e : ShuntError) : String :=
  let input := e.input
  match e.fault with
  | .nonMatchingDelimiters (some opening) closing =>
    s!"invalid input `{input}`: `{opening.text}` was closed by `{closing.text}`"
  | .nonMatchingDelimiters none closing =>
    s!"invalid input `{input}`: `{closing.text}` does not close any open delimiter"
  | .startsWithClosingDelimiter delimiter =>
    s!"input `{input}` may not start with closing delimiter `{delimiter.text}`"
  | .startsWithOperator symbol => s!"input `{input}` may not start with operator `{symbol.text}`"
  | .operandExpected symbol position =>
    s!"expected a value or prefix operator at position {position} of `{input}`, " ++
      s!"found `{symbol.text}`"
  | .operatorExpected symbol position =>
    s!"expected a binary or postfix operator at position {position} of `{input}`, " ++
      s!"found `{symbol.text}`"
  | .unclosedDelimiter delimiter => s!"input `{input}` leaves delimiter `{delimiter.text}` unclosed"
  | .lengthMismatch expected actual =>
    s!"input `{input}` produced {actual} postfix tokens, expected {expected}"

namespace Shunting

/-- What was read last. -/
inductive Previous where
  | start
  | opening
  | closing
  | operand
  | operator (arity : Arity)
  deriving DecidableEq, Repr

/-- An operand must come next, with the operators and the opening delimiters before it. -/
def Previous.expectsOperand : Previous → Bool
  | .start | .opening | .operator .binary | .operator (.unary .before) => true
  | .closing | .operand | .operator (.unary .after) => false

/-- What waits on the stack: an operator, or a pair whose closing delimiter has not been read. -/
inductive Entry where
  | operator (op : PostfixToken)
  | delimiter (pair : DelimiterPair)
  deriving DecidableEq

/-- The output has its latest element first, the stack its top. -/
structure State where
  output : List PostfixToken
  stack : List Entry
  previous : Previous
  deriving DecidableEq

def State.initial : State := ⟨[], [], .start⟩

/-- Moves the operators that go before `incoming` from the stack to the output. -/
def release (incoming : PostfixToken) : List PostfixToken → List Entry →
    List PostfixToken × List Entry
  | output, .operator op :: stack =>
    if op.appliesBefore incoming then release incoming (op :: output) stack
    else (output, .operator op :: stack)
  | output, stack => (output, stack)

/-- Moves operators to the output down to the innermost open pair, which `closing` must close. -/
def unwind (closing : Token) : List PostfixToken → List Entry →
    Except ShuntFault (List PostfixToken × List Entry)
  | _, [] => .error (.nonMatchingDelimiters none closing)
  | output, .operator op :: stack => unwind closing (op :: output) stack
  | output, .delimiter pair :: stack =>
    if pair.closing = closing then .ok (output, stack)
    else .error (.nonMatchingDelimiters (some pair.opening) closing)

/-- Moves all that waits to the output. -/
def flush : List PostfixToken → List Entry → Except ShuntFault (List PostfixToken)
  | output, [] => .ok output
  | output, .operator op :: stack => flush (op :: output) stack
  | _, .delimiter pair :: _ => .error (.unclosedDelimiter pair.opening)

namespace State

def readOpening (s : State) (position : Nat) (pair : DelimiterPair) (t : Token) :
    Except ShuntFault State :=
  if s.previous.expectsOperand then
    .ok { s with stack := .delimiter pair :: s.stack, previous := .opening }
  else .error (.operatorExpected t position)

def readClosing (s : State) (position : Nat) (t : Token) : Except ShuntFault State :=
  if s.output.isEmpty then .error (.startsWithClosingDelimiter t)
  else if s.previous.expectsOperand then .error (.operandExpected t position)
  else do
    let (output, stack) ← unwind t s.output s.stack
    return ⟨output, stack, .closing⟩

/-- Puts an operator on the stack, below which only weaker ones remain. -/
def push (s : State) (op : Operator) : State :=
  let incoming := PostfixToken.ofOperator op
  let (output, stack) := release incoming s.output s.stack
  ⟨output, .operator incoming :: stack, .operator op.arity⟩

def readOperator (s : State) (position : Nat) (operators : OperatorSet) (t : Token) :
    Except ShuntFault State :=
  if s.previous.expectsOperand then
    match operators.before? t with
    | some op => .ok (s.push op)
    | none =>
      if s.output.isEmpty then .error (.startsWithOperator t)
      else .error (.operandExpected t position)
  else
    match operators.after? t with
    | some op => .ok (s.push op)
    | none => .error (.operatorExpected t position)

def readOperand (s : State) (position : Nat) (t : Token) : Except ShuntFault State :=
  if s.previous.expectsOperand then
    .ok { s with output := .value t :: s.output, previous := .operand }
  else .error (.operatorExpected t position)

/-- Reads the token at `position`. A token with several meanings opens before it closes, and closes
before it operates. -/
def step (v : Vocabulary) (position : Nat) (s : State) (t : Token) : Except ShuntFault State :=
  match v.opening? t with
  | some pair => s.readOpening position pair t
  | none =>
    if v.isClosing t then s.readClosing position t
    else if v.operators.contains t then s.readOperator position v.operators t
    else s.readOperand position t

/-- Reads tokens of which the first stands at `position`. -/
def steps (v : Vocabulary) : Nat → State → List Token → Except ShuntFault State
  | _, s, [] => .ok s
  | position, s, t :: ts => do steps v (position + 1) (← s.step v position t) ts

end State

/-- The postfix order of some tokens. Each of them that is no delimiter has to come out once. -/
def run (v : Vocabulary) (tokens : List Token) : Except ShuntFault (List PostfixToken) := do
  let s ← State.initial.steps v 0 tokens
  let output ← flush s.output s.stack
  let expected := (tokens.filter fun t => !v.isDelimiter t).length
  if output.length = expected then return output.reverse
  else throw (.lengthMismatch expected output.length)

end Shunting

namespace Vocabulary

/-- The postfix order of tokens that were read from `input`. -/
def shuntFrom (v : Vocabulary) (input : String) (tokens : List Token) :
    Except ShuntError (List PostfixToken) :=
  (Shunting.run v tokens).mapError fun fault => ⟨input, fault⟩

def shuntTokens (v : Vocabulary) (tokens : List Token) : Except ShuntError (List PostfixToken) :=
  v.shuntFrom (String.ofList (joinTokens tokens)) tokens

def shunt (v : Vocabulary) (input : String) : Except ShuntError (List PostfixToken) :=
  v.shuntFrom input (v.tokenize input)

end Vocabulary

end Fixity
