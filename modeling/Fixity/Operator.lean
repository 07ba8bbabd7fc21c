import Fixity.Token

/-! Operators: a symbol with the number and the place of its operands, a precedence and an
associativity. A higher precedence binds more tightly. -/
namespace Fixity

/-- How operators of equal precedence group. -/
inductive Associativity where
  | left
  | right
  | none
  deriving DecidableEq, Repr

/-- The side of its operand on which a unary operator is written. -/
inductive Side where
  | before
  | after
  deriving DecidableEq, Repr

inductive Arity where
  | binary
  | unary (side : Side)
  deriving DecidableEq, Repr

namespace Associativity

def text : Associativity → String
  | .left => "left"
  | .right => "right"
  | .none => "none"

def all : List Associativity := [.left, .right, .none]

end Associativity

namespace Side

def text : Side → String
  | .before => "prefix"
  | .after => "postfix"

def all : List Side := [.before, .after]

end Side

namespace Arity

def argCount : Arity → Nat
  | .binary => 2
  | .unary _ => 1

def side? : Arity → Option Side
  | .binary => none
  | .unary side => some side

def text : Arity → String
  | .binary => "binary"
  | .unary side => "unary-" ++ side.text

end Arity

/-- An operator. One with two operands is left or right associative. -/
structure Operator where
  symbol : Token
  name : Option String
  precedence : Int32
  arity : Arity
  associativity : Associativity
  binary_associates : arity = .binary → associativity ≠ .none
  deriving DecidableEq

/-- Contradicting flags in the description of an operator. -/
inductive OperatorError where
  | missingUnaryPosition (symbol : Token)
  | unexpectedUnaryPosition (symbol : Token)
  | nonAssociativeBinary (symbol : Token)
  deriving DecidableEq

def OperatorError.message : OperatorError → String
  | .missingUnaryPosition symbol =>
    s!"unary operator `{symbol.text}` needs a `unary_position` (prefix or postfix)"
  | .unexpectedUnaryPosition symbol =>
    s!"binary operator `{symbol.text}` may not declare a `unary_position`"
  | .nonAssociativeBinary symbol =>
    s!"binary operator `{symbol.text}` must be left or right associative"

namespace Operator

/-- The operator that is unary exactly if `unary` is set and then stands on the given side. -/
def ofFlags (symbol : Token) (precedence : Int32) (unary : Bool) (side : Option Side)
    (associativity : Associativity) : Except OperatorError Operator :=
  match unary, side with
  | true, some side =>
    .ok ⟨symbol, none, precedence, .unary side, associativity, by simp⟩
  | true, none => .error (.missingUnaryPosition symbol)
  | false, some _ => .error (.unexpectedUnaryPosition symbol)
  | false, none =>
    if h : associativity = .none then .error (.nonAssociativeBinary symbol)
    else .ok ⟨symbol, none, precedence, .binary, associativity, fun _ => h⟩

def binary (symbol : Token) (precedence : Int32) (associativity : Associativity) :
    Except OperatorError Operator :=
  ofFlags symbol precedence false none associativity

/-- A unary operator that does not associate. -/
def unary (side : Side) (symbol : Token) (precedence : Int32) : Operator :=
  ⟨symbol, none, precedence, .unary side, .none, by simp⟩

def withName (op : Operator) (name : String) : Operator := { op with name := some name }

def isUnary (op : Operator) : Bool := op.arity != .binary

/-- Two operators can be told apart by what was read before them: they differ in symbol or in
arity, and none of one symbol is written after its operand. -/
def Compatible (a b : Operator) : Prop :=
  a.symbol = b.symbol → a.arity ≠ b.arity ∧ a.arity ≠ .unary .after ∧ b.arity ≠ .unary .after

instance (a b : Operator) : Decidable (Compatible a b) :=
  inferInstanceAs (Decidable (_ → _))

theorem Compatible.symm {a b : Operator} (h : Compatible a b) : Compatible b a := fun e =>
  ⟨(h e.symm).1.symm, (h e.symm).2.2, (h e.symm).2.1⟩

end Operator

end Fixity
