import Fixity.Shunting
import Fixity.Tree

/-! Grammars: vocabularies in which operators and delimiters do not get in each other's way, and the
trees of expressions in them. -/
namespace Fixity

/-- Why an expression has no tree. -/
inductive ParseError where
  | shunt (error : ShuntError)
  | tree (error : TreeError)
  deriving DecidableEq

def ParseError.message : ParseError → String
  | .shunt error => error.message
  | .tree error => error.message

namespace Vocabulary

def parseFrom (v : Vocabulary) (input : String) (tokens : List Token) : Except ParseError Tree := do
  let sequence ← (v.shuntFrom input tokens).mapError .shunt
  (Tree.ofPostfix sequence).mapError .tree

def parseTokens (v : Vocabulary) (tokens : List Token) : Except ParseError Tree :=
  v.parseFrom (String.ofList (joinTokens tokens)) tokens

def parse (v : Vocabulary) (input : String) : Except ParseError Tree :=
  v.parseFrom input (v.tokenize input)

end Vocabulary

/-- A vocabulary in which every delimiter pair has two different tokens and no delimiter is an
operator. -/
structure Grammar extends Vocabulary where
  opening_ne_closing : ∀ p ∈ delimiters, p.opening ≠ p.closing
  not_operator : ∀ p ∈ delimiters, ∀ t ∈ p.tokens, operators.contains t = false
  deriving DecidableEq

namespace Grammar

/-- What is wrong with a delimiter pair beside the given operators, if anything is. -/
def pairError? (operators : OperatorSet) (p : DelimiterPair) : Option GrammarError :=
  if p.opening = p.closing then some (.degenerateDelimiterPair p.opening)
  else (p.tokens.find? operators.contains).map .symbolCollision

theorem pairError?_eq_none {operators : OperatorSet} {p : DelimiterPair}
    (h : pairError? operators p = none) :
    p.opening ≠ p.closing ∧ ∀ t ∈ p.tokens, operators.contains t = false := by
  unfold pairError? at h
  split at h
  · cases h
  · rename_i hp
    simp only [Option.map_eq_none_iff, List.find?_eq_none, Bool.not_eq_true] at h
    exact ⟨hp, h⟩

/-- The grammar with these operators and delimiters. The first bad pair is reported. -/
def ofParts (operators : OperatorSet) (delimiters : List DelimiterPair) :
    Except GrammarError Grammar :=
  match h : delimiters.findSome? (pairError? operators) with
  | some error => .error error
  | none => .ok
    { operators, delimiters
      opening_ne_closing := fun p hp => (pairError?_eq_none (List.findSome?_eq_none_iff.1 h p hp)).1
      not_operator := fun p hp => (pairError?_eq_none (List.findSome?_eq_none_iff.1 h p hp)).2 }

end Grammar

end Fixity
