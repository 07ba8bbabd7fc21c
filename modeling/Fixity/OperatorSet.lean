import Fixity.Operator
import Fixity.Sorted

/-! Sets of operators in which the text before a symbol decides which operator the symbol is, and
indexes of such operators by their symbols. -/
namespace Fixity

/-- Operators and delimiters that cannot be used together. -/
inductive GrammarError where
  | token (error : TokenError)
  | operator (error : OperatorError)
  | ambiguousOperator (symbol : Token)
  | duplicateOperator (symbol : Token) (arity : Arity)
  | symbolCollision (symbol : Token)
  | degenerateDelimiterPair (symbol : Token)
  deriving DecidableEq

def GrammarError.message : GrammarError → String
  | .token error => error.message
  | .operator error => error.message
  | .ambiguousOperator symbol =>
    s!"`{symbol.text}` is declared as a postfix operator and as a binary or prefix operator"
  | .duplicateOperator symbol arity =>
    s!"`{symbol.text}` is declared more than once as a {arity.text} operator"
  | .symbolCollision symbol => s!"`{symbol.text}` is used both as an operator and as a delimiter"
  | .degenerateDelimiterPair symbol =>
    s!"delimiter pair uses `{symbol.text}` for both opening and closing"

structure OperatorSet where
  operators : List Operator
  compatible : operators.Pairwise Operator.Compatible
  deriving DecidableEq

namespace OperatorSet

def empty : OperatorSet := ⟨[], .nil⟩

/-- What keeps `op` from joining the operators `earlier`, if anything does. -/
def conflict? (earlier : List Operator) (op : Operator) : Option GrammarError :=
  if earlier.any fun e => e.symbol == op.symbol && e.arity == op.arity then
    some (.duplicateOperator op.symbol op.arity)
  else if earlier.any fun e =>
      e.symbol == op.symbol && (e.arity == .unary .after || op.arity == .unary .after) then
    some (.ambiguousOperator op.symbol)
  else none

theorem compatible_of_conflict?_eq_none {earlier : List Operator} {op e : Operator}
    (h : conflict? earlier op = none) (he : e ∈ earlier) : e.Compatible op := by
  unfold conflict? at h
  split at h
  · cases h
  · rename_i hd
    split at h
    · cases h
    · rename_i ha
      simp only [List.any_eq_true, Bool.and_eq_true, Bool.or_eq_true, beq_iff_eq, not_exists,
        not_and, not_or] at hd ha
      exact fun hs => ⟨hd e he hs, (ha e he hs).1, (ha e he hs).2⟩

/-- The set with one more operator at its end. -/
def add (set : OperatorSet) (op : Operator) : Except GrammarError OperatorSet :=
  match h : conflict? set.operators op with
  | some error => .error error
  | none => .ok
    { operators := set.operators ++ [op]
      compatible := List.pairwise_append.2 ⟨set.compatible, List.pairwise_singleton _ _,
        fun _ he _ ho => by
          cases List.mem_singleton.1 ho
          exact compatible_of_conflict?_eq_none h he⟩ }

/-- The set of the given operators; the first one that fits none before it is reported. -/
def ofList (operators : List Operator) : Except GrammarError OperatorSet :=
  operators.foldlM add empty

/-- The operator with this symbol that is written before its operand. -/
def before? (set : OperatorSet) (symbol : Token) : Option Operator :=
  set.operators.find? fun op => op.symbol == symbol && op.arity == .unary .before

/-- The operator with this symbol that is written after an operand; there is at most one. -/
def after? (set : OperatorSet) (symbol : Token) : Option Operator :=
  set.operators.find? fun op => op.symbol == symbol && op.arity != .unary .before

def contains (set : OperatorSet) (symbol : Token) : Bool :=
  set.operators.any fun op => op.symbol == symbol

/-- The symbols in the order of their code points, each once. -/
def symbols (set : OperatorSet) : List Token :=
  sortDistinct Token.before (set.operators.map (·.symbol))

end OperatorSet

/-- The operators with one symbol, each in the place of its arity. -/
structure SymbolRoles where
  before? : Option Operator
  after? : Option Operator
  binary? : Option Operator
  deriving DecidableEq

namespace SymbolRoles

def empty : SymbolRoles := ⟨none, none, none⟩

def get? (roles : SymbolRoles) : Arity → Option Operator
  | .unary .before => roles.before?
  | .unary .after => roles.after?
  | .binary => roles.binary?

/-- Puts an operator in its place, whatever stands there. -/
def put (roles : SymbolRoles) (op : Operator) : SymbolRoles :=
  match op.arity with
  | .unary .before => { roles with before? := some op }
  | .unary .after => { roles with after? := some op }
  | .binary => { roles with binary? := some op }

/-- An operator that is written after its operand shares the symbol with another one. -/
def isAmbiguous (roles : SymbolRoles) : Bool :=
  roles.after?.isSome && (roles.before?.isSome || roles.binary?.isSome)

/-- Puts an operator in its place, which must be free. -/
def add (roles : SymbolRoles) (op : Operator) : Except GrammarError SymbolRoles :=
  if (roles.get? op.arity).isSome then .error (.duplicateOperator op.symbol op.arity)
  else if (roles.put op).isAmbiguous then .error (.ambiguousOperator op.symbol)
  else .ok (roles.put op)

@[simp] theorem get?_empty (arity : Arity) : empty.get? arity = none := by
  rcases arity with _ | (_ | _) <;> rfl

theorem get?_put (roles : SymbolRoles) (op : Operator) (arity : Arity) :
    (roles.put op).get? arity = if op.arity = arity then some op else roles.get? arity := by
  unfold put
  rcases arity with _ | (_ | _) <;> split <;> simp [get?, *]

theorem isAmbiguous_eq (roles : SymbolRoles) : roles.isAmbiguous =
    ((roles.get? (.unary .after)).isSome &&
      ((roles.get? (.unary .before)).isSome || (roles.get? .binary).isSome)) := rfl

end SymbolRoles

/-- The roles of each symbol, the symbols in the order of their code points. -/
structure OperatorIndex where
  entries : List (Token × SymbolRoles)
  ordered : entries.Pairwise fun a b => a.1.before b.1 = true
  deriving DecidableEq

namespace OperatorIndex

def empty : OperatorIndex := ⟨[], .nil⟩

def roles? (index : OperatorIndex) (symbol : Token) : Option SymbolRoles :=
  (index.entries.find? fun entry => entry.1 == symbol).map Prod.snd

/-- The roles of a symbol, none if it is not in the index. -/
def rolesOf (index : OperatorIndex) (symbol : Token) : SymbolRoles :=
  (index.roles? symbol).getD .empty

/-- The index with these roles of the symbol, in place of those it had. -/
def insert (index : OperatorIndex) (symbol : Token) (roles : SymbolRoles) : OperatorIndex where
  entries := insertSorted (fun a b => a.1.before b.1) (symbol, roles) index.entries
  ordered := pairwise_insertSorted (Token.isWeakOrder_before.comap Prod.fst) _ index.ordered

/-- Adds an operator to the roles of its symbol. -/
def add (index : OperatorIndex) (op : Operator) : Except GrammarError OperatorIndex := do
  let roles ← (index.rolesOf op.symbol).add op
  return index.insert op.symbol roles

/-- The index of the given operators; the first one for which there is no place is reported. -/
def ofList (operators : List Operator) : Except GrammarError OperatorIndex :=
  operators.foldlM add empty

def before? (index : OperatorIndex) (symbol : Token) : Option Operator :=
  (index.roles? symbol).bind fun roles => roles.before?

def after? (index : OperatorIndex) (symbol : Token) : Option Operator :=
  (index.roles? symbol).bind fun roles => roles.after?.or roles.binary?

def contains (index : OperatorIndex) (symbol : Token) : Bool := (index.roles? symbol).isSome

def symbols (index : OperatorIndex) : List Token := index.entries.map Prod.fst

theorem roles?_insert (index : OperatorIndex) (s t : Token) (roles : SymbolRoles) :
    (index.insert s roles).roles? t = if s = t then some roles else index.roles? t := by
  rw [roles?, insert, find?_insertSorted]
  · by_cases h : s = t <;> simp [h, roles?]
  · intro entry hentry hs
    rw [beq_eq_false_iff_ne]
    rintro rfl
    rw [eq_of_beq hs, Token.before_self] at hentry
    cases hentry
  · intro entry hs hentry
    rw [Token.eq_of_incomparable hs hentry]

theorem rolesOf_insert (index : OperatorIndex) (s t : Token) (roles : SymbolRoles) :
    (index.insert s roles).rolesOf t = if s = t then roles else index.rolesOf t := by
  rw [rolesOf, roles?_insert]
  split <;> rfl

end OperatorIndex

end Fixity
