import Fixity.Operator

/-! Elements of a postfix sequence: values, and operators with places for their operands. -/
namespace Fixity

/-- Number of texts and places that an element with so many operands lays out. -/
def slotCount : Nat → Nat
  | 0 => 1
  | 1 => 2
  | n => 2 * n - 1

/-- Nothing is cut off from a number of slots that suffices for the operands. -/
theorem eq_slotCount {n k : Nat} (hn : n < UInt64.size) (hnk : n ≤ k)
    (hk : k = slotCount n % UInt64.size) : k = slotCount n := by
  match n with
  | 0 | 1 => exact hk
  | n + 2 =>
    simp only [slotCount, UInt64.size] at *
    omega

/-- An element of a postfix sequence. Its slots are in written order, and an empty one is the place
of an operand. -/
structure PostfixToken where
  argCount : Nat
  slots : List (Option Token)
  precedence : Int32
  associativity : Associativity
  length_slots : slots.length = slotCount argCount
  count_slots : slots.count none = argCount
  deriving DecidableEq

/-- Slots that do not fit a number of operands. -/
inductive LayoutError where
  | listLength (actual expected : Nat)
  | placeholderCount (actual expected : Nat)
  deriving DecidableEq, Repr

def LayoutError.message : LayoutError → String
  | .listLength actual expected => s!"expected {expected} values, got {actual}"
  | .placeholderCount actual expected => s!"expected {expected} placeholders, got {actual}"

/-- Precedence of values, below that of every usual operator. -/
def valuePrecedence : Int32 := -1

namespace PostfixToken

/-- An element with the given slots. The numbers of operands and of slots are 64-bit words, and
what the latter exceeds them by is cut off. -/
def ofSlots (argCount : UInt64) (slots : List (Option Token)) (precedence : Int32)
    (associativity : Associativity) : Except LayoutError PostfixToken :=
  let n := argCount.toNat
  let expected := slotCount n % UInt64.size
  if h : slots.length = expected then
    if hp : slots.count none = n then
      .ok ⟨n, slots, precedence, associativity,
        eq_slotCount argCount.toNat_lt (hp ▸ List.count_le_length) h, hp⟩
    else .error (.placeholderCount (slots.count none) n)
  else .error (.listLength slots.length expected)

def value (token : Token) : PostfixToken :=
  ⟨0, [some token], valuePrecedence, .none, rfl, rfl⟩

def ofOperator (op : Operator) : PostfixToken :=
  match op.arity with
  | .unary .before => ⟨1, [some op.symbol, none], op.precedence, op.associativity, rfl, rfl⟩
  | .unary .after => ⟨1, [none, some op.symbol], op.precedence, op.associativity, rfl, rfl⟩
  | .binary => ⟨2, [none, some op.symbol, none], op.precedence, op.associativity, rfl, rfl⟩

/-- An operand is written before the first symbol. -/
def startsWithOperand (t : PostfixToken) : Bool := t.slots.head? == some none

/-- An operand is written after the last symbol. -/
def endsWithOperand (t : PostfixToken) : Bool := t.slots.getLast? == some none

/-- A unary operator written before its operand. -/
def isBefore (t : PostfixToken) : Bool := t.argCount == 1 && !t.startsWithOperand

/-- A unary operator written after its operand. -/
def isAfter (t : PostfixToken) : Bool := t.argCount == 1 && t.startsWithOperand

def isBinary (t : PostfixToken) : Bool := t.argCount == 2

def isValue (t : PostfixToken) : Bool := t.argCount == 0

/-- The token of a value. -/
def value? (t : PostfixToken) : Option Token :=
  if t.argCount = 0 then t.slots.head?.join else none

/-- The symbols in written order. -/
def symbols (t : PostfixToken) : List Token := t.slots.filterMap id

def label (t : PostfixToken) : List Char := joinTokens t.symbols

def text (t : PostfixToken) : String := String.ofList t.label

/-- What an element is in an expression. -/
inductive Role where
  | value
  | before
  | after
  | binary
  | other
  deriving DecidableEq, Repr

def role (t : PostfixToken) : Role :=
  if t.isValue then .value
  else if t.isBefore then .before
  else if t.isAfter then .after
  else if t.isBinary then .binary
  else .other

/-- Whether the operator `waiting` takes its operands before `incoming` takes any.

After `a waiting b`, the operator with the higher precedence takes `b`, and of two equal ones the
first, if `incoming` is left associative. An operator written after its operand has that operand
already; one written before has none yet, and one written after takes the nearest operand from a
binary operator. -/
def appliesBefore (waiting incoming : PostfixToken) : Bool :=
  if waiting.isAfter then true
  else if incoming.isBefore then false
  else if incoming.argCount == 1 && decide (2 ≤ waiting.argCount) then false
  else decide (incoming.precedence < waiting.precedence) ||
    (waiting.precedence == incoming.precedence && incoming.associativity == .left)

@[simp] theorem argCount_value (t : Token) : (value t).argCount = 0 := rfl

@[simp] theorem value?_value (t : Token) : (value t).value? = some t := rfl

@[simp] theorem isValue_value (t : Token) : (value t).isValue = true := rfl

@[simp] theorem symbols_value (t : Token) : (value t).symbols = [t] := rfl

@[simp] theorem argCount_ofOperator (op : Operator) :
    (ofOperator op).argCount = op.arity.argCount := by
  unfold ofOperator; split <;> simp [Arity.argCount, *]

@[simp] theorem value?_ofOperator (op : Operator) : (ofOperator op).value? = none := by
  unfold ofOperator; split <;> rfl

@[simp] theorem isValue_ofOperator (op : Operator) : (ofOperator op).isValue = false := by
  unfold ofOperator; split <;> rfl

@[simp] theorem precedence_ofOperator (op : Operator) :
    (ofOperator op).precedence = op.precedence := by
  unfold ofOperator; split <;> rfl

@[simp] theorem associativity_ofOperator (op : Operator) :
    (ofOperator op).associativity = op.associativity := by
  unfold ofOperator; split <;> rfl

@[simp] theorem symbols_ofOperator (op : Operator) : (ofOperator op).symbols = [op.symbol] := by
  unfold ofOperator; split <;> rfl

@[simp] theorem text_ofOperator (op : Operator) : (ofOperator op).text = op.symbol.text := by
  simp [text, label, Token.text]

theorem value_inj {s t : Token} : value s = value t ↔ s = t := by
  refine ⟨fun h => ?_, congrArg value⟩
  simpa using congrArg value? h

theorem value_ne_ofOperator (t : Token) (op : Operator) : value t ≠ ofOperator op := by
  intro h
  have hcount := congrArg argCount h
  cases ha : op.arity <;> simp [ha, Arity.argCount] at hcount

@[simp] theorem isBefore_ofOperator (op : Operator) :
    (ofOperator op).isBefore = (op.arity == .unary .before) := by
  rcases op with ⟨_, _, _, _ | (_ | _), _, _⟩ <;> rfl

@[simp] theorem isAfter_ofOperator (op : Operator) :
    (ofOperator op).isAfter = (op.arity == .unary .after) := by
  rcases op with ⟨_, _, _, _ | (_ | _), _, _⟩ <;> rfl

end PostfixToken

end Fixity
