import Fixity.Grammar

/-! The operators of arithmetic and of type expressions. -/
namespace Fixity

namespace Operator

def add : Operator :=
  ⟨.literal ['+'], some "ADD", 2, .binary, .left, by decide⟩

def subtract : Operator :=
  ⟨.literal ['-'], some "SUBTRACT", 2, .binary, .left, by decide⟩

def multiply : Operator :=
  ⟨.literal ['*'], some "MULTIPLY", 3, .binary, .left, by decide⟩

def divide : Operator :=
  ⟨.literal ['/'], some "DIVIDE", 3, .binary, .left, by decide⟩

def exponentiation : Operator :=
  ⟨.literal ['^'], some "EXPONENTIATION", 4, .binary, .right, by decide⟩

/-- The sign binds less tightly than a power: `-a^b` is the negative of `a^b`. -/
def negative : Operator :=
  ⟨.literal ['-'], some "NEGATIVE", 3, .unary .before, .none, by decide⟩

def positive : Operator :=
  ⟨.literal ['+'], some "POSITIVE", 3, .unary .before, .none, by decide⟩

/-- The array of a type, `A[]`. -/
def array : Operator :=
  ⟨.literal ['[', ']'], some "ARRAY", 5, .unary .after, .none, by decide⟩

/-- One or the other of two types, `A|B`. -/
def union : Operator :=
  ⟨.literal ['|'], some "UNION", 0, .binary, .left, by decide⟩

end Operator

namespace OperatorSet

def arithmetic : OperatorSet :=
  ⟨[.add, .subtract, .multiply, .divide, .exponentiation, .negative, .positive], by decide⟩

def types : OperatorSet := ⟨[.array, .union], by decide⟩

end OperatorSet

namespace Grammar

def arithmetic : Grammar :=
  ⟨⟨.arithmetic, [.parentheses]⟩, by decide, by decide⟩

/-- The grammar of type expressions: arrays, unions and parentheses. -/
def types : Grammar :=
  ⟨⟨.types, [.parentheses]⟩, by decide, by decide⟩

end Grammar

end Fixity
