import Fixity.Proofs.Definitions

/-! Which fault of a grammar's definition is reported. The operators are looked at one by one, then
the delimiters one by one, then the operators together and in the end the delimiters beside the
operators. The first fault on this way is reported, and without a fault there is a grammar. All is
told by the definition after its blanks are dropped. -/
namespace Fixity

/-- What operators are told apart by. -/
structure Signature where
  symbol : String
  arity : Arity

/-- The signatures of a set of operators: none is there twice, and a symbol that is written after
its operand is written nowhere else. -/
structure Consistent (signatures : List Signature) : Prop where
  distinct : signatures.Nodup
  after_alone : ∀ a ∈ signatures, ∀ b ∈ signatures, a.symbol = b.symbol →
    a.arity = .unary .after → b.arity = .unary .after

/-- What is wrong with operators of these signatures beside each other: the first one that makes
the signatures up to it inconsistent is there already, or else its symbol is written after an
operand and elsewhere. -/
inductive Conflict : List Signature → GrammarError → Prop where
  | duplicate {earlier later : List Signature} {symbol : Token} {arity : Arity}
      (hearlier : Consistent earlier) (hmem : ⟨symbol.text, arity⟩ ∈ earlier) :
      Conflict (earlier ++ ⟨symbol.text, arity⟩ :: later) (.duplicateOperator symbol arity)
  | ambiguous {earlier later : List Signature} {symbol : Token} {arity : Arity}
      (hearlier : Consistent earlier) (hmem : ⟨symbol.text, arity⟩ ∉ earlier)
      (hambiguous : ¬Consistent (earlier ++ [⟨symbol.text, arity⟩])) :
      Conflict (earlier ++ ⟨symbol.text, arity⟩ :: later) (.ambiguousOperator symbol)

namespace Operator

def signature (op : Operator) : Signature := ⟨op.symbol.text, op.arity⟩

theorem signature_eq_iff {a b : Operator} :
    a.signature = b.signature ↔ a.symbol = b.symbol ∧ a.arity = b.arity := by
  rw [signature, signature, Signature.mk.injEq]
  exact and_congr_left' ⟨Token.eq_of_text_eq, congrArg Token.text⟩

end Operator

namespace OperatorSet

variable {ops : List Operator} {op : Operator} {e : GrammarError}

theorem consistent_map_signature_iff :
    Consistent (ops.map Operator.signature) ↔ ops.Pairwise Operator.Compatible := by
  have hsymbol : ∀ {a b : Operator}, a.signature.symbol = b.signature.symbol ↔
      a.symbol = b.symbol := ⟨Token.eq_of_text_eq, congrArg Token.text⟩
  rw [pairwise_compatible_iff]
  simp only [← Operator.signature_eq_iff]
  constructor
  · rintro ⟨hdistinct, halone⟩
    refine ⟨List.pairwise_map.1 hdistinct, ?_⟩
    intro a ha b hb hs
    exact halone _ (List.mem_map_of_mem ha) _ (List.mem_map_of_mem hb) (hsymbol.2 hs)
  · rintro ⟨hdistinct, halone⟩
    refine ⟨List.pairwise_map.2 hdistinct, ?_⟩
    simp only [List.forall_mem_map]
    exact fun a ha b hb hs => halone a ha b hb (hsymbol.1 hs)

theorem conflict?_eq_some_iff {earlier : List Operator} : conflict? earlier op = some e ↔
    (op.signature ∈ earlier.map Operator.signature ∧ e = .duplicateOperator op.symbol op.arity) ∨
    (op.signature ∉ earlier.map Operator.signature ∧ ¬(∀ a ∈ earlier, a.Compatible op) ∧
      e = .ambiguousOperator op.symbol) := by
  have hmem : (earlier.any fun a => a.symbol == op.symbol && a.arity == op.arity) = true ↔
      op.signature ∈ earlier.map Operator.signature := by
    simp [Operator.signature_eq_iff]
  rw [← conflict?_eq_none_iff, conflict?]
  by_cases hd : op.signature ∈ earlier.map Operator.signature
  · rw [if_pos (hmem.2 hd)]
    simp [hd, eq_comm]
  · rw [if_neg (mt hmem.1 hd)]
    split <;> simp [hd, eq_comm]

theorem exists_of_map_signature_eq {earlier later : List Signature} {symbol : Token} {arity : Arity}
    (h : ops.map Operator.signature = earlier ++ ⟨symbol.text, arity⟩ :: later) :
    ∃ before op after, ops = before ++ op :: after ∧ earlier = before.map Operator.signature ∧
      op.symbol = symbol ∧ op.arity = arity := by
  obtain ⟨before, rest, rfl, rfl, hrest⟩ := List.map_eq_append_iff.1 h
  obtain ⟨op, after, rfl, hop, rfl⟩ := List.map_eq_cons_iff.1 hrest
  injection hop with hsymbol harity
  exact ⟨before, op, after, rfl, rfl, Token.eq_of_text_eq hsymbol, harity⟩

theorem consistent_append_iff {earlier : List Operator} :
    Consistent (earlier.map Operator.signature ++ [op.signature]) ↔
      Consistent (earlier.map Operator.signature) ∧ ∀ a ∈ earlier, a.Compatible op := by
  have hmap : earlier.map Operator.signature ++ [op.signature] =
      (earlier ++ [op]).map Operator.signature := by simp
  rw [hmap, consistent_map_signature_iff, consistent_map_signature_iff]
  simp [List.pairwise_append]

theorem ofList_eq_error_iff_conflict :
    ofList ops = .error e ↔ Conflict (ops.map Operator.signature) e := by
  rw [ofList_eq_error_iff]
  simp only [← consistent_map_signature_iff, conflict?_eq_some_iff]
  constructor
  · rintro ⟨earlier, op, later, rfl, hearlier, ⟨hmem, rfl⟩ | ⟨hmem, hnot, rfl⟩⟩
    · rw [List.map_append, List.map_cons]
      exact .duplicate hearlier hmem
    · rw [List.map_append, List.map_cons]
      exact .ambiguous hearlier hmem (mt consistent_append_iff.1 fun h => hnot h.2)
  · intro h
    -- The signatures are split at the conflict, and so are the operators that they belong to.
    generalize hops : ops.map Operator.signature = signatures at h
    cases h with
    | duplicate hearlier hmem =>
      obtain ⟨earlier, op, later, rfl, rfl, rfl, rfl⟩ := exists_of_map_signature_eq hops
      exact ⟨earlier, op, later, rfl, hearlier, .inl ⟨hmem, rfl⟩⟩
    | ambiguous hearlier hmem hambiguous =>
      obtain ⟨earlier, op, later, rfl, rfl, rfl, rfl⟩ := exists_of_map_signature_eq hops
      refine ⟨earlier, op, later, rfl, hearlier, .inr ⟨hmem, ?_, rfl⟩⟩
      exact fun h => hambiguous (consistent_append_iff.2 ⟨hearlier, h⟩)

end OperatorSet

namespace OperatorDefinition

/-- What is wrong with an operator by itself. -/
inductive Fault (d : OperatorDefinition) : GrammarError → Prop where
  | blank (h : d.symbol = "") : Fault d (.token .empty)
  | missingSide {symbol : Token} (hsymbol : symbol.text = d.symbol) (hunary : d.unary = true)
      (hside : d.unaryPosition = none) : Fault d (.operator (.missingUnaryPosition symbol))
  | unexpectedSide {symbol : Token} (hsymbol : symbol.text = d.symbol) (hbinary : d.unary = false)
      (hside : d.unaryPosition ≠ none) : Fault d (.operator (.unexpectedUnaryPosition symbol))
  | nonAssociative {symbol : Token} (hsymbol : symbol.text = d.symbol) (hbinary : d.unary = false)
      (hside : d.unaryPosition = none) (hassoc : d.associativity = .none) :
      Fault d (.operator (.nonAssociativeBinary symbol))

def signature (d : OperatorDefinition) : Signature :=
  ⟨d.symbol, d.unaryPosition.elim .binary .unary⟩

@[simp] theorem signature_ofOperator (op : Operator) :
    (ofOperator op).signature = op.signature := by
  have harity : op.arity.side?.elim .binary .unary = op.arity := by
    cases op.arity <;> rfl
  rw [signature, ofOperator, harity, Operator.signature]

theorem operator_eq_error_iff {d : OperatorDefinition} {e : GrammarError} :
    d.operator = .error e ↔ d.withoutBlanks.Fault e := by
  simp only [operator, bind_eq_error_iff, mapError_eq_error_iff, mapError_eq_ok_iff,
    Token.ofString_eq_error_iff, Token.ofString_eq_ok_iff, Operator.ofFlags_eq_error_iff]
  constructor
  · rintro (⟨⟨⟩, hblank, rfl⟩ | ⟨symbol, hsymbol, ⟨_, hflags, rfl⟩ | ⟨_, _, ⟨⟩⟩⟩)
    · exact .blank hblank
    · obtain ⟨hunary, hside, rfl⟩ | ⟨hbinary, hside, rfl⟩ | ⟨hbinary, hside, hassoc, rfl⟩ := hflags
      · exact .missingSide hsymbol hunary hside
      · exact .unexpectedSide hsymbol hbinary hside
      · exact .nonAssociative hsymbol hbinary hside hassoc
  · rintro (hblank | ⟨hsymbol, hunary, hside⟩ | ⟨hsymbol, hbinary, hside⟩ |
      ⟨hsymbol, hbinary, hside, hassoc⟩)
    · exact .inl ⟨.empty, hblank, rfl⟩
    · exact .inr ⟨_, hsymbol, .inl ⟨_, .inl ⟨hunary, hside, rfl⟩, rfl⟩⟩
    · exact .inr ⟨_, hsymbol, .inl ⟨_, .inr (.inl ⟨hbinary, hside, rfl⟩), rfl⟩⟩
    · exact .inr ⟨_, hsymbol, .inl ⟨_, .inr (.inr ⟨hbinary, hside, hassoc, rfl⟩), rfl⟩⟩

end OperatorDefinition

namespace DelimiterDefinition

/-- What is wrong with a pair of delimiters by itself. -/
inductive Fault (d : DelimiterDefinition) : GrammarError → Prop where
  | blank (h : d.opening = "" ∨ d.closing = "") : Fault d (.token .empty)

/-- What is wrong with a pair of delimiters beside operators with these symbols. -/
inductive Clash (symbols : List String) (d : DelimiterDefinition) : GrammarError → Prop where
  | degenerate {t : Token} (hopening : t.text = d.opening) (hclosing : t.text = d.closing) :
      Clash symbols d (.degenerateDelimiterPair t)
  | opening {t : Token} (hne : d.opening ≠ d.closing) (hopening : t.text = d.opening)
      (hmem : d.opening ∈ symbols) : Clash symbols d (.symbolCollision t)
  | closing {t : Token} (hne : d.opening ≠ d.closing) (hopening : d.opening ∉ symbols)
      (hclosing : t.text = d.closing) (hmem : d.closing ∈ symbols) :
      Clash symbols d (.symbolCollision t)

theorem pair_eq_error_iff_fault {d : DelimiterDefinition} {e : GrammarError} :
    d.pair = .error e ↔ d.withoutBlanks.Fault e := by
  rw [pair_eq_error_iff]
  constructor
  · rintro ⟨hblank, rfl⟩
    exact .blank hblank
  · rintro ⟨hblank⟩
    exact ⟨hblank, rfl⟩

end DelimiterDefinition

namespace Grammar

variable {operators : OperatorSet}

theorem pairError?_eq_some_iff {p : DelimiterPair} {e : GrammarError} :
    pairError? operators p = some e ↔
      (p.opening = p.closing ∧ e = .degenerateDelimiterPair p.opening) ∨
      (p.opening ≠ p.closing ∧ operators.contains p.opening = true ∧
        e = .symbolCollision p.opening) ∨
      (p.opening ≠ p.closing ∧ operators.contains p.opening = false ∧
        operators.contains p.closing = true ∧ e = .symbolCollision p.closing) := by
  rw [pairError?, DelimiterPair.tokens, List.find?_cons, List.find?_cons, List.find?_nil]
  split
  · rename_i heq
    simp [heq, @eq_comm _ e]
  · rename_i hne
    cases hopening : operators.contains p.opening with
    | true => simp [hne, @eq_comm _ e]
    | false => cases operators.contains p.closing <;> simp [hne, @eq_comm _ e]

theorem pairError?_eq_some_iff_clash {p : DelimiterPair} {e : GrammarError} :
    pairError? operators p = some e ↔
      (DelimiterDefinition.ofPair p).Clash (operators.operators.map (·.symbol.text)) e := by
  have htext : ∀ {s t : Token}, s.text = t.text ↔ s = t :=
    ⟨Token.eq_of_text_eq, congrArg Token.text⟩
  have hmem : ∀ {t : Token}, t.text ∈ operators.operators.map (·.symbol.text) ↔
      operators.contains t = true := by
    simp [OperatorSet.contains, htext]
  rw [pairError?_eq_some_iff]
  constructor
  · rintro (⟨heq, rfl⟩ | ⟨hne, hopening, rfl⟩ | ⟨hne, hopening, hclosing, rfl⟩)
    · exact .degenerate rfl (htext.2 heq)
    · exact .opening (mt htext.1 hne) rfl (hmem.2 hopening)
    · refine .closing (mt htext.1 hne) (fun h => ?_) rfl (hmem.2 hclosing)
      exact Bool.false_ne_true (hopening.symm.trans (hmem.1 h))
  · rintro (⟨hopening, hclosing⟩ | ⟨hne, hopening, h⟩ | ⟨hne, hnot, hclosing, h⟩)
    · cases htext.1 hopening
      exact .inl ⟨htext.1 hclosing, rfl⟩
    · cases htext.1 hopening
      exact .inr (.inl ⟨mt htext.2 hne, hmem.1 h, rfl⟩)
    · cases htext.1 hclosing
      exact .inr (.inr ⟨mt htext.2 hne, Bool.eq_false_iff.2 (mt hmem.2 hnot), hmem.1 h, rfl⟩)

theorem ofParts_eq_error_iff_firstFault {pairs : List DelimiterPair} {e : GrammarError} :
    ofParts operators pairs = .error e ↔
      FirstFault (DelimiterDefinition.Clash (operators.operators.map (·.symbol.text)))
        (pairs.map .ofPair) e :=
  ofParts_eq_error_iff.trans
    (findSome?_eq_some_iff_firstFault fun _ _ => pairError?_eq_some_iff_clash)

theorem exists_ofParts_eq_ok_iff_faultless {pairs : List DelimiterPair} :
    (∃ g, ofParts operators pairs = .ok g) ↔
      Faultless (DelimiterDefinition.Clash (operators.operators.map (·.symbol.text)))
        (pairs.map .ofPair) := by
  rw [exists_eq_ok_iff, ← forall_not_firstFault_iff]
  exact forall_congr' fun _ => not_congr ofParts_eq_error_iff_firstFault

end Grammar

namespace GrammarDefinition

variable {d : GrammarDefinition} {ops : List Operator} {e : GrammarError}

def signatures (d : GrammarDefinition) : List Signature :=
  d.operators.map OperatorDefinition.signature

def symbols (d : GrammarDefinition) : List String := d.operators.map (·.symbol)

/-- What a definition without blanks is refused for. Each of the four checks is made only where
those before it find nothing. -/
inductive Refused (d : GrammarDefinition) : GrammarError → Prop where
  | operator {e : GrammarError} (h : FirstFault OperatorDefinition.Fault d.operators e) :
      Refused d e
  | delimiter {e : GrammarError} (hoperators : Faultless OperatorDefinition.Fault d.operators)
      (h : FirstFault DelimiterDefinition.Fault d.delimiters e) : Refused d e
  | conflict {e : GrammarError} (hoperators : Faultless OperatorDefinition.Fault d.operators)
      (hdelimiters : Faultless DelimiterDefinition.Fault d.delimiters)
      (h : Conflict d.signatures e) : Refused d e
  | clash {e : GrammarError} (hoperators : Faultless OperatorDefinition.Fault d.operators)
      (hdelimiters : Faultless DelimiterDefinition.Fault d.delimiters)
      (hconsistent : Consistent d.signatures)
      (h : FirstFault (DelimiterDefinition.Clash d.symbols) d.delimiters e) : Refused d e

/-- None of the four checks of a definition without blanks finds anything. -/
structure Valid (d : GrammarDefinition) : Prop where
  operators : Faultless OperatorDefinition.Fault d.operators
  delimiters : Faultless DelimiterDefinition.Fault d.delimiters
  consistent : Consistent d.signatures
  apart : Faultless (DelimiterDefinition.Clash d.symbols) d.delimiters

theorem signatures_eq (h : ops.map .ofOperator = d.operators) :
    d.signatures = ops.map Operator.signature := by
  simp [signatures, ← h, Function.comp_def]

theorem symbols_eq (h : ops.map .ofOperator = d.operators) :
    d.symbols = ops.map (·.symbol.text) := by
  simp [symbols, ← h, Function.comp_def, OperatorDefinition.ofOperator]

theorem consistent_iff (h : ops.map .ofOperator = d.operators) :
    Consistent d.signatures ↔ ops.Pairwise Operator.Compatible := by
  rw [signatures_eq h, OperatorSet.consistent_map_signature_iff]

theorem mapM_operator_eq_error_iff : d.operators.mapM OperatorDefinition.operator = .error e ↔
    FirstFault OperatorDefinition.Fault d.withoutBlanks.operators e :=
  mapM_eq_error_iff fun _ _ => OperatorDefinition.operator_eq_error_iff

theorem mapM_pair_eq_error_iff : d.delimiters.mapM DelimiterDefinition.pair = .error e ↔
    FirstFault DelimiterDefinition.Fault d.withoutBlanks.delimiters e :=
  mapM_eq_error_iff fun _ _ => DelimiterDefinition.pair_eq_error_iff_fault

theorem exists_operators_iff :
    (∃ ops : List Operator, ops.map .ofOperator = d.withoutBlanks.operators) ↔
      Faultless OperatorDefinition.Fault d.withoutBlanks.operators := by
  simp only [← mapM_operator_eq_ok_iff]
  exact exists_mapM_eq_ok_iff fun _ _ => OperatorDefinition.operator_eq_error_iff

theorem exists_pairs_iff :
    (∃ pairs : List DelimiterPair, pairs.map .ofPair = d.withoutBlanks.delimiters) ↔
      Faultless DelimiterDefinition.Fault d.withoutBlanks.delimiters := by
  simp only [← mapM_pair_eq_ok_iff]
  exact exists_mapM_eq_ok_iff fun _ _ => DelimiterDefinition.pair_eq_error_iff_fault

theorem grammar_eq_error_iff : d.grammar = .error e ↔ d.withoutBlanks.Refused e := by
  simp only [grammar, bind_eq_error_iff, mapM_operator_eq_error_iff, mapM_operator_eq_ok_iff,
    mapM_pair_eq_error_iff, mapM_pair_eq_ok_iff, OperatorSet.ofList_eq_error_iff_conflict,
    OperatorSet.ofList_eq_ok_iff, Grammar.ofParts_eq_error_iff_firstFault]
  constructor
  -- A check is reached with what those before it gave, so it is enough to know when they give it.
  · rintro (h | ⟨ops, hops, h | ⟨pairs, hpairs, h | ⟨set, rfl, h⟩⟩⟩)
    · exact .operator h
    · exact .delimiter (exists_operators_iff.1 ⟨ops, hops⟩) h
    · rw [← signatures_eq hops] at h
      exact .conflict (exists_operators_iff.1 ⟨ops, hops⟩) (exists_pairs_iff.1 ⟨pairs, hpairs⟩) h
    · rw [← symbols_eq hops, hpairs] at h
      exact .clash (exists_operators_iff.1 ⟨_, hops⟩) (exists_pairs_iff.1 ⟨pairs, hpairs⟩)
        ((consistent_iff hops).2 set.compatible) h
  · rintro (h | ⟨hoperators, h⟩ | ⟨hoperators, hdelimiters, h⟩ |
      ⟨hoperators, hdelimiters, hconsistent, h⟩)
    · exact .inl h
    · obtain ⟨ops, hops⟩ := exists_operators_iff.2 hoperators
      exact .inr ⟨ops, hops, .inl h⟩
    · obtain ⟨ops, hops⟩ := exists_operators_iff.2 hoperators
      obtain ⟨pairs, hpairs⟩ := exists_pairs_iff.2 hdelimiters
      rw [signatures_eq hops] at h
      exact .inr ⟨ops, hops, .inr ⟨pairs, hpairs, .inl h⟩⟩
    · obtain ⟨ops, hops⟩ := exists_operators_iff.2 hoperators
      obtain ⟨pairs, hpairs⟩ := exists_pairs_iff.2 hdelimiters
      rw [symbols_eq hops, ← hpairs] at h
      exact .inr ⟨ops, hops, .inr ⟨pairs, hpairs,
        .inr ⟨⟨ops, (consistent_iff hops).1 hconsistent⟩, rfl, h⟩⟩⟩

theorem exists_grammar_eq_ok_iff : (∃ g, d.grammar = .ok g) ↔ d.withoutBlanks.Valid := by
  simp only [grammar, bind_eq_ok_iff, mapM_operator_eq_ok_iff, mapM_pair_eq_ok_iff,
    OperatorSet.ofList_eq_ok_iff]
  constructor
  · rintro ⟨g, ops, hops, pairs, hpairs, set, rfl, hg⟩
    refine ⟨exists_operators_iff.1 ⟨_, hops⟩, exists_pairs_iff.1 ⟨pairs, hpairs⟩,
      (consistent_iff hops).2 set.compatible, ?_⟩
    rw [symbols_eq hops, ← hpairs]
    exact Grammar.exists_ofParts_eq_ok_iff_faultless.1 ⟨g, hg⟩
  · rintro ⟨hoperators, hdelimiters, hconsistent, hapart⟩
    obtain ⟨ops, hops⟩ := exists_operators_iff.2 hoperators
    obtain ⟨pairs, hpairs⟩ := exists_pairs_iff.2 hdelimiters
    obtain ⟨set, rfl⟩ : ∃ set : OperatorSet, set.operators = ops :=
      ⟨⟨ops, (consistent_iff hops).1 hconsistent⟩, rfl⟩
    rw [symbols_eq hops, ← hpairs] at hapart
    obtain ⟨g, hg⟩ := Grammar.exists_ofParts_eq_ok_iff_faultless.2 hapart
    exact ⟨g, _, hops, pairs, hpairs, set, rfl, hg⟩

/-- A definition is refused for the first fault that the four checks find in their order, and there
is a grammar for it exactly if they find none. -/
theorem grammar_reports_first_fault (d : GrammarDefinition) :
    (∀ e, d.grammar = .error e ↔ d.withoutBlanks.Refused e) ∧
      ((∃ g, d.grammar = .ok g) ↔ d.withoutBlanks.Valid) :=
  ⟨fun _ => grammar_eq_error_iff, exists_grammar_eq_ok_iff⟩

/-- The second operator has the symbol of the first one after its operand. The third operator, which
is there already, and the delimiters, which are the same, come too late. -/
example :
    let sign (symbol : String) (unary : Bool) (side : Option Side) : OperatorDefinition :=
      ⟨symbol, none, 0, unary, side, .left⟩
    let d : GrammarDefinition :=
      ⟨[sign "!" true (some .before), sign "! " true (some .after), sign "!" true (some .before)],
        [⟨"|", " |"⟩]⟩
    d.grammar = .error (.ambiguousOperator (.literal ['!'])) := by rfl

end GrammarDefinition

end Fixity
