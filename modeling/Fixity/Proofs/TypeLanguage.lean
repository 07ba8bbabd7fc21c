import Fixity.Proofs.Nesting
import Fixity.Proofs.PrintedTypes

/-! The language of type expressions, as texts. A text that is spelled like a type expression has a
tree, even where its names are texts that types cannot have. The first one of these is then found
when the tree is read, from left to right. -/
namespace Fixity

open Grammar (types Phrase)

namespace TypeExpression

/-- The texts of phrases with the names in them in written order: `E ::= T ('|' T)*`,
`T ::= P '[]'*`, `P ::= N | '(' E ')'`, where it is open what a name `N` is. -/
inductive Spelled (isName : List Char → Prop) : Phrase → List Char → List (List Char) → Prop where
  | name {n : List Char} (h : isName n) : Spelled isName .primary n [n]
  | enclosed {w : List Char} {ns : List (List Char)} (h : Spelled isName .expression w ns) :
      Spelled isName .primary ('(' :: (w ++ [')'])) ns
  | primary {w : List Char} {ns : List (List Char)} (h : Spelled isName .primary w ns) :
      Spelled isName .operand w ns
  | array {w : List Char} {ns : List (List Char)} (h : Spelled isName .operand w ns) :
      Spelled isName .operand (w ++ ['[', ']']) ns
  | operand {w : List Char} {ns : List (List Char)} (h : Spelled isName .operand w ns) :
      Spelled isName .expression w ns
  | union {w u : List Char} {ns ms : List (List Char)} (hl : Spelled isName .expression w ns)
      (hr : Spelled isName .operand u ms) : Spelled isName .expression (w ++ '|' :: u) (ns ++ ms)

/-- Word characters and hyphens, at least one. -/
def IsName [WordClass] (n : List Char) : Prop := n ≠ [] ∧ ∀ c ∈ n, isNameCharacter c = true

instance [WordClass] (n : List Char) : Decidable (IsName n) :=
  decidable_of_iff ((!n.isEmpty && n.all isNameCharacter) = true) (by simp [IsName])

/-- A text that is one token and no symbol. -/
def IsBasic (n : List Char) : Prop :=
  ∃ x : Token, x.chars = n ∧ types.IsValue x ∧ types.tokenize (String.ofList n) = [x]

theorem isBasic_chars_iff {x : Token} : IsBasic x.chars ↔ types.symbolTable.Free x.chars := by
  constructor
  · rintro ⟨y, hy, hv, htok⟩
    obtain rfl := Token.ext hy
    have hsplits := (SymbolTable.tokenize_eq_iff.1 htok).2
    exact (hsplits.symbol_or_free y (List.mem_singleton_self y)).resolve_left
      (by simpa [Vocabulary.mem_symbolTable_iff])
  · intro h
    have hsplits : types.symbolTable.Splits [x] := .basic h (by simp) .nil
    refine ⟨x, rfl, Vocabulary.isValue_of_free h, ?_⟩
    simpa [Vocabulary.tokenize] using hsplits.tokenize_joinTokens

theorem IsName.isBasic [WordClass] {n : List Char} (h : IsName n) : IsBasic n := by
  let name : TypeName := ⟨n, h.1, h.2⟩
  have hfree : types.symbolTable.Free name.token.chars := TypeName.free_chars name
  exact isBasic_chars_iff.2 hfree

namespace Spelled

variable {p q : List Char → Prop} {k : Phrase} {w : List Char} {ns : List (List Char)}

theorem forall_name (h : Spelled p k w ns) : ∀ n ∈ ns, p n := by
  induction h with
  | name h => simpa using h
  | enclosed _ ih => exact ih
  | primary _ ih => exact ih
  | array _ ih => exact ih
  | operand _ ih => exact ih
  | union _ _ ihl ihr => exact List.forall_mem_append.2 ⟨ihl, ihr⟩

theorem mono (h : Spelled p k w ns) (hq : ∀ n ∈ ns, q n) : Spelled q k w ns := by
  induction h with
  | name _ => exact .name (by simpa using hq)
  | enclosed _ ih => exact .enclosed (ih hq)
  | primary _ ih => exact .primary (ih hq)
  | array _ ih => exact .array (ih hq)
  | operand _ ih => exact .operand (ih hq)
  | union _ _ ihl ihr =>
    obtain ⟨hl, hr⟩ := List.forall_mem_append.1 hq
    exact .union (ihl hl) (ihr hr)

/-- What is spelled like a phrase is made of tokens that can be read. -/
theorem exists_bracketing (h : Spelled IsBasic k w ns) :
    ∃ r : Bracketing, r.Over types.toVocabulary ∧ r.HasFreeValues types.toVocabulary ∧
      joinTokens r.tokens = w ∧ r.tree.leaves.map Token.chars = ns := by
  induction h with
  | name h =>
    obtain ⟨x, rfl, hv, htok⟩ := h
    have hfree := isBasic_chars_iff.1 ⟨x, rfl, hv, htok⟩
    exact ⟨.value x, hv, Bracketing.hasFreeValues_value hfree,
      by simp [Bracketing.tokens], by simp⟩
  | enclosed _ ih =>
    obtain ⟨r, ho, hfree, rfl, rfl⟩ := ih
    exact ⟨.enclosed .parentheses r, ⟨Grammar.isEffective_parentheses_types, ho⟩, hfree,
      by simp [Bracketing.tokens, DelimiterPair.parentheses, Token.literal], rfl⟩
  | primary _ ih => exact ih
  | array _ ih =>
    obtain ⟨r, ho, hfree, rfl, rfl⟩ := ih
    exact ⟨.after .array r, ⟨⟨by decide, rfl⟩, ho⟩, Bracketing.hasFreeValues_after.2 hfree,
      by simp [Bracketing.tokens, Operator.array, Token.literal], by simp⟩
  | operand _ ih => exact ih
  | union _ _ ihl ihr =>
    obtain ⟨l, hol, hfreel, rfl, rfl⟩ := ihl
    obtain ⟨r, hor, hfreer, rfl, rfl⟩ := ihr
    exact ⟨.binary .union l r, ⟨⟨by decide, rfl⟩, hol, hor⟩,
      Bracketing.hasFreeValues_binary.2 ⟨hfreel, hfreer⟩,
      by simp [Bracketing.tokens, Operator.union, Token.literal], by simp⟩

end Spelled

/-! What is derived in the grammar of types is spelled like a type expression. -/

theorem eq_array_or_eq_union {op : Operator} (h : op ∈ types.operators.operators) :
    op = .array ∨ op = .union := by
  simpa [types, OperatorSet.types] using h

theorem eq_array_of_after {op : Operator} (h : op ∈ types.operators.operators)
    (ha : op.arity = .unary .after) : op = .array := by
  rcases eq_array_or_eq_union h with rfl | rfl
  · rfl
  · cases ha

theorem eq_union_of_binary {op : Operator} (h : op ∈ types.operators.operators)
    (ha : op.arity = .binary) : op = .union := by
  rcases eq_array_or_eq_union h with rfl | rfl
  · cases ha
  · rfl

theorem arity_ne_before {op : Operator} (h : op ∈ types.operators.operators) :
    op.arity ≠ .unary .before := by
  rcases eq_array_or_eq_union h with rfl | rfl <;> simp [Operator.array, Operator.union]

theorem values_symbols {ops : List Operator} (h : ∀ op ∈ ops, op ∈ types.operators.operators) :
    types.values (ops.map Operator.symbol) = [] := by
  simp only [Vocabulary.values, List.filter_eq_nil_iff, List.forall_mem_map, decide_eq_true_eq]
  exact fun op hop => Vocabulary.not_isValue_symbol (h op hop)

theorem Spelled.arrays {p : List Char → Prop} {w : List Char} {ns : List (List Char)}
    (hw : Spelled p .operand w ns) {ops : List Operator}
    (h : ∀ op ∈ ops, op ∈ types.operators.operators ∧ op.arity = .unary .after) :
    Spelled p .operand (w ++ joinTokens (ops.map Operator.symbol)) ns := by
  induction ops generalizing w with
  | nil => simpa using hw
  | cons op ops ih =>
    obtain ⟨hop, hops⟩ := List.forall_mem_cons.1 h
    obtain rfl := eq_array_of_after hop.1 hop.2
    rw [List.map_cons, joinTokens_cons, ← List.append_assoc]
    exact ih (.array hw) hops

theorem spelled_of_derives {k : Phrase} {ts : List Token} {es : List PostfixToken}
    (d : types.Derives k ts es)
    (hfree : ∀ x ∈ ts, types.IsValue x → types.symbolTable.Free x.chars) :
    Spelled IsBasic k (joinTokens ts) ((types.values ts).map Token.chars) := by
  induction d with
  | @value x h =>
    rw [Vocabulary.values_cons_of_isValue h, joinTokens_cons, joinTokens_nil, List.append_nil]
    exact .name (isBasic_chars_iff.2 (hfree x (List.mem_singleton_self x) h))
  | @enclosed p ts es h _ ih =>
    have hp : p = .parentheses := by simpa [types] using h.mem
    obtain ⟨-, hfree⟩ := List.forall_mem_cons.1 hfree
    have hvalues : types.values (p.opening :: (ts ++ [p.closing])) = types.values ts := by
      rw [Vocabulary.values_cons_of_not_isValue h.not_isValue_opening, Vocabulary.values_append,
        Vocabulary.values_cons_of_not_isValue h.not_isValue_closing, Vocabulary.values_nil,
        List.append_nil]
    rw [hvalues, hp]
    simpa [DelimiterPair.parentheses, Token.literal] using
      Spelled.enclosed (ih (List.forall_mem_append.1 hfree).1)
  | operand before after hb _ ha ih =>
    obtain rfl : before = [] := by
      cases before with
      | nil => rfl
      | cons op _ => exact absurd (hb op (by simp)).2 (arity_ne_before (hb op (by simp)).1)
    rw [List.map_nil, List.nil_append] at hfree ⊢
    have hafter := values_symbols fun op hop => (ha op hop).1
    rw [joinTokens_append, Vocabulary.values_append, hafter, List.append_nil]
    exact (Spelled.primary (ih (List.forall_mem_append.1 hfree).1)).arrays ha
  | single _ ih => exact .operand (ih hfree)
  | @binary op ts us es fs _ hop _ ihl ihr =>
    obtain ⟨hfreel, hfreer⟩ := List.forall_mem_append.1 hfree
    rw [Vocabulary.values_append,
      Vocabulary.values_cons_of_not_isValue (Vocabulary.not_isValue_symbol hop.1)]
    obtain rfl := eq_union_of_binary hop.1 hop.2
    simpa [Operator.union, Token.literal] using
      Spelled.union (ihl hfreel) (ihr (List.forall_mem_cons.1 hfreer).2)

/-- A text that has a tree is spelled like a type expression. -/
theorem spelled_of_parse {s : String} {t : Tree} (h : types.parse s = .ok t) :
    ∃ ns, Spelled IsBasic .expression (withoutBlanks s.toList) ns := by
  obtain ⟨r, hr, rfl⟩ := Vocabulary.parseFrom_eq_ok_iff_read?.1 h
  obtain ⟨⟨ho, htokens⟩, -⟩ := Vocabulary.reads_of_read? hr
  obtain ⟨hjoin, hsplits⟩ := SymbolTable.tokenize_eq_iff.1 htokens.symm
  rw [← hjoin]
  refine ⟨_, spelled_of_derives (Grammar.derives_of_over ho) ?_⟩
  intro x hx hv
  exact (hsplits.symbol_or_free x hx).resolve_left (by simpa [Vocabulary.mem_symbolTable_iff])

section

variable [WordClass]

/-! The names of what is read. -/

theorem typeNamesOf_append (ts us : List TypeExpression) :
    typeNamesOf (ts ++ us) = typeNamesOf ts ++ typeNamesOf us := by
  induction ts with
  | nil => rfl
  | cons t ts ih => rw [List.cons_append, typeNamesOf, typeNamesOf, ih, List.append_assoc]

theorem typeNamesOf_members (t : TypeExpression) : typeNamesOf t.members = t.typeNames := by
  cases t with
  | name n => simp [members, typeNamesOf]
  | array t => simp [members, typeNamesOf]
  | union ts => rw [members, typeNames]

/-- Merging unions keeps the names in their order. -/
theorem typeNames_unionOf (ts : List TypeExpression) :
    (unionOf ts).typeNames = typeNamesOf ts := by
  have hflat : typeNamesOf (ts.flatMap members) = typeNamesOf ts := by
    induction ts with
    | nil => rfl
    | cons t ts ih =>
      rw [List.flatMap_cons, typeNamesOf_append, typeNamesOf_members, ih, typeNamesOf]
  rw [unionOf, ← hflat]
  split
  · rename_i only honly
    rw [honly]
    simp [typeNamesOf]
  · rw [typeNames]

/-! Reading the tree. -/

theorem ofChars_of_isName {n : List Char} (h : IsName n) :
    TypeName.ofChars n = .ok ⟨n, h.1, h.2⟩ :=
  TypeName.ofChars_chars ⟨n, h.1, h.2⟩

theorem ofChars_of_not_isName {x : Token} (h : ¬IsName x.chars) :
    TypeName.ofChars x.chars = .error (.invalidTypeName x.text) := by
  have htrim : trimBlanks x.chars = x.chars := trimBlanks_eq_self x.not_isBlank
  have hall : (!x.chars.isEmpty && x.chars.all isNameCharacter) = false := by
    rw [Bool.eq_false_iff]
    intro hname
    simp only [Bool.and_eq_true, List.all_eq_true] at hname
    exact h ⟨x.chars_ne_nil, hname.2⟩
  simp [TypeName.ofChars, TypeName.ofChars?, htrim, hall, Token.text]

variable {r : Bracketing}

/-- Over names, reading gives an expression with these names. -/
theorem exists_ofTree_tree (h : r.Over types.toVocabulary)
    (hn : ∀ x ∈ r.tree.leaves, IsName x.chars) :
    ∃ e, ofTree r.tree = .ok e ∧
      e.typeNames.map TypeName.chars = r.tree.leaves.map Token.chars := by
  induction r with
  | value x =>
    have hx : IsName x.chars := hn x (List.mem_singleton_self x)
    refine ⟨.name ⟨x.chars, hx.1, hx.2⟩, ?_, rfl⟩
    rw [Bracketing.tree, ofTree, ofChars_of_isName hx]
    rfl
  | before op r _ => exact absurd h.1.2 (arity_ne_before h.1.1)
  | after op r ih =>
    obtain rfl := eq_array_of_after h.1.1 h.1.2
    rw [Bracketing.leaves_after] at hn ⊢
    obtain ⟨e, he, hnames⟩ := ih h.2 hn
    exact ⟨.array e, ofTree_array he, by rwa [typeNames]⟩
  | binary op l r ihl ihr =>
    obtain rfl := eq_union_of_binary h.1.1 h.1.2
    rw [Bracketing.leaves_binary] at hn ⊢
    obtain ⟨hnl, hnr⟩ := List.forall_mem_append.1 hn
    obtain ⟨e, he, hnames⟩ := ihl h.2.1 hnl
    obtain ⟨f, hf, hnames'⟩ := ihr h.2.2 hnr
    refine ⟨unionOf [e, f], ofTree_unionTree he hf, ?_⟩
    simp [typeNames_unionOf, typeNamesOf, hnames, hnames']
  | enclosed p r ih => exact ih h.2 hn

/-- Where some values are no names, the first of them is reported. -/
theorem ofTree_tree_of_find? (h : r.Over types.toVocabulary) {x : Token}
    (hx : r.tree.leaves.find? (fun x => !decide (IsName x.chars)) = some x) :
    ofTree r.tree = .error (.invalidTypeName x.text) := by
  induction r with
  | value y =>
    obtain ⟨hname, rfl⟩ : ¬IsName y.chars ∧ y = x := by
      simpa using hx
    rw [Bracketing.tree, ofTree, ofChars_of_not_isName hname]
    rfl
  | before op r _ => exact absurd h.1.2 (arity_ne_before h.1.1)
  | after op r ih =>
    obtain rfl := eq_array_of_after h.1.1 h.1.2
    rw [Bracketing.leaves_after] at hx
    rw [Bracketing.tree, ofTree, if_pos (by decide), ih h.2 hx]
    rfl
  | binary op l r ihl ihr =>
    obtain rfl := eq_union_of_binary h.1.1 h.1.2
    rw [Bracketing.leaves_binary, List.find?_append, Option.or_eq_some_iff] at hx
    rw [Bracketing.tree, ofTree, if_pos (by decide)]
    rcases hx with hx | ⟨hnone, hx⟩
    · rw [ihl h.2.1 hx]
      rfl
    · -- The left operand is read before the right one, without an error.
      obtain ⟨e, he, -⟩ := exists_ofTree_tree h.2.1 (by simpa using hnone)
      rw [he, ihr h.2.2 hx]
      rfl
  | enclosed p r ih => exact ih h.2 hx

/-! Texts. -/

/-- A text that is spelled like a type expression has a tree with the names as its leaves. -/
theorem parse_of_spelled {s : String} {ns : List (List Char)}
    (h : Spelled IsBasic .expression (withoutBlanks s.toList) ns) :
    ∃ r : Bracketing, r.Over types.toVocabulary ∧ r.tree.leaves.map Token.chars = ns ∧
      parse s = ofTree r.tree := by
  obtain ⟨r, ho, hfree, hw, rfl⟩ := h.exists_bracketing
  have htok : types.tokenize s = r.tokens :=
    SymbolTable.tokenize_eq_iff.2 ⟨hw, ho.splits_tokens Grammar.separating_types hfree⟩
  obtain ⟨r', hr', -⟩ := (Grammar.derives_of_over ho).exists_read?
  obtain ⟨⟨ho', htokens⟩, -⟩ := Vocabulary.reads_of_read? hr'
  have hparse : types.parse s = .ok r'.tree := by
    rw [Vocabulary.parse, htok, Vocabulary.parseFrom_eq_ok_iff_read?]
    exact ⟨r', hr', rfl⟩
  refine ⟨r', ho', ?_, ?_⟩
  · rw [ho'.leaves_tree, htokens, ho.leaves_tree]
  · rw [parse, hparse]
    rfl

variable {s : String} {ns : List (List Char)}

theorem exists_parse_of_spelled (h : Spelled IsName .expression (withoutBlanks s.toList) ns) :
    ∃ e, parse s = .ok e ∧ e.typeNames.map TypeName.chars = ns := by
  obtain ⟨r, ho, rfl, hparse⟩ := parse_of_spelled (h.mono fun n hn => (h.forall_name n hn).isBasic)
  rw [hparse]
  exact exists_ofTree_tree ho fun x hx => h.forall_name x.chars (List.mem_map_of_mem hx)

theorem parse_eq_invalidTypeName {n : List Char}
    (h : Spelled IsBasic .expression (withoutBlanks s.toList) ns)
    (hn : ns.find? (fun n => !decide (IsName n)) = some n) :
    parse s = .error (.invalidTypeName (String.ofList n)) := by
  obtain ⟨r, ho, rfl, hparse⟩ := parse_of_spelled h
  rw [List.find?_map, Option.map_eq_some_iff] at hn
  obtain ⟨x, hx, rfl⟩ := hn
  rw [hparse]
  exact ofTree_tree_of_find? ho hx

theorem exists_parse_eq_error (h : ¬∃ ns, Spelled IsBasic .expression (withoutBlanks s.toList) ns) :
    ∃ error, parse s = .error (.parse error) := by
  cases ht : types.parse s with
  | error error =>
    refine ⟨error, ?_⟩
    rw [parse, ht]
    rfl
  | ok t => exact absurd (spelled_of_parse ht) h

/-- Of the names that a text is spelled with, either all can be names of types or there is a first
one that cannot. -/
theorem spelled_isName_or_find? (h : Spelled IsBasic .expression (withoutBlanks s.toList) ns) :
    Spelled IsName .expression (withoutBlanks s.toList) ns ∨
      ∃ n, ns.find? (fun n => !decide (IsName n)) = some n := by
  cases hn : ns.find? (fun n => !decide (IsName n)) with
  | none => exact .inl (h.mono (by simpa using hn))
  | some n => exact .inr ⟨n, rfl⟩

/-- Just the texts that are spelled like a type expression are type expressions, with the names in
them. If a text is so only with texts in the place of names that types cannot have, the first of
these is reported, and any other text has no tree. -/
theorem parse_succeeds_iff_spelled (s : String) :
    ((∃ e, parse s = .ok e) ↔
      ∃ ns, Spelled IsName .expression (withoutBlanks s.toList) ns) ∧
    (∀ e ns, parse s = .ok e → Spelled IsName .expression (withoutBlanks s.toList) ns →
      e.typeNames.map TypeName.chars = ns) ∧
    (∀ ns, (¬∃ ms, Spelled IsName .expression (withoutBlanks s.toList) ms) →
      Spelled IsBasic .expression (withoutBlanks s.toList) ns →
      ∃ n, ns.find? (fun n => !decide (IsName n)) = some n ∧
        parse s = .error (.invalidTypeName (String.ofList n))) ∧
    ((¬∃ ns, Spelled IsBasic .expression (withoutBlanks s.toList) ns) →
      ∃ error, parse s = .error (.parse error)) ∧
    ∀ symbol, parse s ≠ .error (.unsupportedOperator symbol) := by
  refine ⟨⟨?_, ?_⟩, ?_, ?_, exists_parse_eq_error, ?_⟩
  · rintro ⟨e, he⟩
    by_cases hbasic : ∃ ns, Spelled IsBasic .expression (withoutBlanks s.toList) ns
    · obtain ⟨ns, hns⟩ := hbasic
      rcases spelled_isName_or_find? hns with h | ⟨n, hn⟩
      · exact ⟨ns, h⟩
      · rw [parse_eq_invalidTypeName hns hn] at he
        cases he
    · obtain ⟨error, herror⟩ := exists_parse_eq_error hbasic
      rw [herror] at he
      cases he
  · rintro ⟨ns, hns⟩
    obtain ⟨e, he, -⟩ := exists_parse_of_spelled hns
    exact ⟨e, he⟩
  · intro e ns he hns
    obtain ⟨f, hf, hnames⟩ := exists_parse_of_spelled hns
    cases he.symm.trans hf
    exact hnames
  · intro ns hname hns
    obtain ⟨n, hn⟩ := (spelled_isName_or_find? hns).resolve_left fun h => hname ⟨ns, h⟩
    exact ⟨n, hn, parse_eq_invalidTypeName hns hn⟩
  · intro symbol
    by_cases hbasic : ∃ ns, Spelled IsBasic .expression (withoutBlanks s.toList) ns
    · obtain ⟨ns, hns⟩ := hbasic
      rcases spelled_isName_or_find? hns with h | ⟨n, hn⟩
      · obtain ⟨e, he, -⟩ := exists_parse_of_spelled h
        simp [he]
      · simp [parse_eq_invalidTypeName hns hn]
    · obtain ⟨error, herror⟩ := exists_parse_eq_error hbasic
      simp [herror]

end

/-- `A|b-c[]` has two names. Of the texts in `A|(b.c|d!)[]` the second is the first that is no name.
Nothing is spelled `A|`. -/
theorem parse_succeeds_iff_spelled_of_arrays :
    (∃ e, parse "A | b-c[]" = .ok e ∧
      e.typeNames.map TypeName.chars = [['A'], ['b', '-', 'c']]) ∧
    parse "A|(b.c|d!)[]" = .error (.invalidTypeName "b.c") ∧
    ∃ error, parse "A|" = .error (.parse error) := by
  have hname : ∀ {n}, IsName n → Spelled IsName .operand n [n] := fun h => .primary (.name h)
  have hbasic : ∀ {n}, IsBasic n → Spelled IsBasic .operand n [n] := fun h => .primary (.name h)
  refine ⟨?_, ?_, ?_⟩
  · obtain ⟨hiff, hnames, -⟩ := parse_succeeds_iff_spelled "A | b-c[]"
    have hs : Spelled IsName .expression (withoutBlanks "A | b-c[]".toList)
        [['A'], ['b', '-', 'c']] :=
      .union (.operand (hname (n := ['A']) (by decide +kernel)))
        (.array (hname (n := ['b', '-', 'c']) (by decide +kernel)))
    obtain ⟨e, he⟩ := hiff.2 ⟨_, hs⟩
    exact ⟨e, he, hnames e _ he hs⟩
  · obtain ⟨hiff, -, hfirst, -⟩ := parse_succeeds_iff_spelled "A|(b.c|d!)[]"
    have hfails : ¬∃ e, parse "A|(b.c|d!)[]" = .ok e := by
      rintro ⟨e, he⟩
      have herror : (parse "A|(b.c|d!)[]").toOption = none := by decide +kernel
      rw [he] at herror
      cases herror
    have hfree : ∀ x ∈ [Token.literal ['A'], .literal ['b', '.', 'c'], .literal ['d', '!']],
        IsBasic x.chars := by
      intro x hx
      rw [isBasic_chars_iff, SymbolTable.free_iff]
      revert x
      decide
    have hs : Spelled IsBasic .expression (withoutBlanks "A|(b.c|d!)[]".toList)
        [['A'], ['b', '.', 'c'], ['d', '!']] :=
      .union (.operand (hbasic (hfree (.literal ['A']) (by decide))))
        (.array (.primary (.enclosed (.union
          (.operand (hbasic (hfree (.literal ['b', '.', 'c']) (by decide))))
          (hbasic (hfree (.literal ['d', '!']) (by decide)))))))
    obtain ⟨n, hn, hparse⟩ := hfirst _ (fun h => hfails (hiff.2 h)) hs
    have hfind : [['A'], ['b', '.', 'c'], ['d', '!']].find? (fun n => !decide (IsName n)) =
        some ['b', '.', 'c'] := by decide +kernel
    cases hn.symm.trans hfind
    exact hparse
  · obtain ⟨hiff, -, hfirst, hother, -⟩ := parse_succeeds_iff_spelled "A|"
    have hfails : parse "A|" = .error (.parse (.tree (.missingOperand "|"))) := by decide +kernel
    apply hother
    rintro ⟨ns, hns⟩
    by_cases h : ∃ ms, Spelled IsName .expression (withoutBlanks "A|".toList) ms
    · obtain ⟨e, he⟩ := hiff.2 h
      simp [hfails] at he
    · obtain ⟨n, -, hn⟩ := hfirst ns h hns
      simp [hfails] at hn

end TypeExpression

end Fixity
