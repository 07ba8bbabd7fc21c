import Fixity.Grammar.Predefined
import Fixity.Proofs.Assembly.Completeness
import Fixity.Proofs.Parsing
import Fixity.Proofs.Printed
import Fixity.Proofs.Tokenizing

/-! Printed trees as texts. A bracketing never has two values side by side, so where no symbol can
grow into what follows it, a printed text is split into just the tokens that were printed. -/
namespace Fixity

theorem Tree.ofList_joinTokens_written (t : Tree) :
    String.ofList (joinTokens t.written) = t.text := by
  rw [← Tree.toList_text, String.ofList_toList]

namespace Vocabulary

variable {v : Vocabulary}

theorem isValue_of_free {x : Token} (h : v.symbolTable.Free x.chars) : v.IsValue x := by
  by_contra hx
  exact SymbolTable.free_iff.1 h x.chars (mem_symbolTable_iff.2 hx) List.infix_rfl

end Vocabulary

namespace Bracketing

variable {v : Vocabulary} {r : Bracketing}

/-- The values among the tokens are those of the tree. -/
theorem Over.value_mem_elements_iff (h : r.Over v) {x : Token} :
    .value x ∈ r.elements ↔ x ∈ r.tokens ∧ v.IsValue x := by
  have hsymbol : ∀ {op : Operator}, op ∈ v.operators.operators → v.IsValue x → x ≠ op.symbol := by
    rintro op hop hx rfl
    exact Vocabulary.not_isValue_symbol hop hx
  induction r with
  | value t =>
    simp only [elements, tokens, List.mem_singleton, PostfixToken.value_inj]
    constructor
    · rintro rfl
      exact ⟨rfl, h⟩
    · exact fun hx => hx.1
  | before op r ih =>
    have hne := hsymbol h.1.1
    simp only [elements, tokens, List.mem_cons, PostfixToken.value_ne_ofOperator, false_or, ih h.2]
    tauto
  | after op r ih =>
    have hne := hsymbol h.1.1
    simp only [elements, tokens, List.mem_append, List.mem_singleton,
      PostfixToken.value_ne_ofOperator, or_false, ih h.2]
    tauto
  | binary op l r ihl ihr =>
    have hne := hsymbol h.1.1
    simp only [elements, tokens, List.mem_append, List.mem_cons,
      PostfixToken.value_ne_ofOperator, false_or, ihl h.2.1, ihr h.2.2]
    tauto
  | enclosed p r ih =>
    have ho : v.IsValue x → x ≠ p.opening := by
      rintro hx rfl
      exact h.1.not_isValue_opening hx
    have hc : v.IsValue x → x ≠ p.closing := by
      rintro hx rfl
      exact h.1.not_isValue_closing hx
    simp only [elements, tokens, List.mem_append, List.mem_cons, List.not_mem_nil, or_false,
      ih h.2]
    tauto

/-- Of two neighbours one is an operator or a delimiter. -/
theorem Over.isChain_tokens (h : r.Over v) :
    r.tokens.IsChain fun x y => ¬v.IsValue x ∨ ¬v.IsValue y := by
  induction r with
  | value t => simp [tokens]
  | before op r ih =>
    have hop := Vocabulary.not_isValue_symbol h.1.1
    simp [tokens, List.isChain_cons, hop, ih h.2]
  | after op r ih =>
    have hop := Vocabulary.not_isValue_symbol h.1.1
    simp [tokens, List.isChain_append, hop, ih h.2]
  | binary op l r ihl ihr =>
    have hop := Vocabulary.not_isValue_symbol h.1.1
    simp [tokens, List.isChain_append, List.isChain_cons, hop, ihl h.2.1, ihr h.2.2]
  | enclosed p r ih =>
    have ho := h.1.not_isValue_opening
    have hc := h.1.not_isValue_closing
    simp [tokens, List.isChain_append, List.isChain_cons, ho, hc, ih h.2]

/-- No symbol occurs in a value. -/
def HasFreeValues (v : Vocabulary) (r : Bracketing) : Prop :=
  ∀ x, .value x ∈ r.elements → v.symbolTable.Free x.chars

theorem hasFreeValues_value {x : Token} (h : v.symbolTable.Free x.chars) :
    (value x).HasFreeValues v := by
  intro y hy
  obtain rfl := PostfixToken.value_inj.1 (List.mem_singleton.1 hy)
  exact h

theorem hasFreeValues_before {op : Operator} :
    (before op r).HasFreeValues v ↔ r.HasFreeValues v := by
  simp [HasFreeValues, elements, PostfixToken.value_ne_ofOperator]

theorem hasFreeValues_after {op : Operator} :
    (after op r).HasFreeValues v ↔ r.HasFreeValues v := by
  simp [HasFreeValues, elements, PostfixToken.value_ne_ofOperator]

theorem hasFreeValues_binary {op : Operator} {l : Bracketing} :
    (binary op l r).HasFreeValues v ↔ l.HasFreeValues v ∧ r.HasFreeValues v := by
  simp [HasFreeValues, elements, PostfixToken.value_ne_ofOperator, or_imp, forall_and]

theorem hasFreeValues_printed : r.printed.HasFreeValues v ↔ r.HasFreeValues v := by
  simp [HasFreeValues]

theorem Over.symbol_or_free (h : r.Over v) (hfree : r.HasFreeValues v) :
    ∀ x ∈ r.tokens, x.chars ∈ v.symbolTable.symbols ∨ v.symbolTable.Free x.chars := by
  intro x hx
  by_cases hv : v.IsValue x
  · exact .inr (hfree x (h.value_mem_elements_iff.2 ⟨hx, hv⟩))
  · exact .inl (Vocabulary.mem_symbolTable_iff.2 hv)

theorem Over.splits_tokens (h : r.Over v) (hs : v.symbolTable.Separating)
    (hfree : r.HasFreeValues v) : v.symbolTable.Splits r.tokens := by
  apply hs.splits (h.symbol_or_free hfree)
  simpa only [Vocabulary.mem_symbolTable_iff] using h.isChain_tokens

theorem Over.tokenize_text (h : r.Over v) (hs : v.symbolTable.Splits r.printed.tokens) :
    v.tokenize r.tree.text = r.tree.written := by
  rw [← Tree.ofList_joinTokens_written, ← h.tokens_printed]
  exact hs.tokenize_joinTokens

end Bracketing

namespace Grammar

variable {g : Grammar} {t : Tree}

/-- The grammar has the operators of the tree, and takes its values for values in a text. -/
def Printable (g : Grammar) (t : Tree) : Prop :=
  ∃ r : Bracketing, r.Over g.toVocabulary ∧ r.HasFreeValues g.toVocabulary ∧ r.tree = t

theorem printable_of_parse {input : String} (h : g.parse input = .ok t) : g.Printable t := by
  obtain ⟨r, hr, rfl⟩ := Vocabulary.parseFrom_eq_ok_iff_read?.1 h
  obtain ⟨⟨ho, htokens⟩, -⟩ := Vocabulary.reads_of_read? hr
  refine ⟨r, ho, ?_, rfl⟩
  intro x hx
  obtain ⟨hmem, hv⟩ := ho.value_mem_elements_iff.1 hx
  rw [htokens] at hmem
  have hsplits := (SymbolTable.tokenize_eq_iff.1 (rfl : g.tokenize input = _)).2
  exact (hsplits.symbol_or_free x hmem).resolve_left (by simpa [Vocabulary.mem_symbolTable_iff])

theorem printable_value {x : Token} (h : g.symbolTable.Free x.chars) :
    g.Printable (.value x) :=
  ⟨.value x, Vocabulary.isValue_of_free h, Bracketing.hasFreeValues_value h, rfl⟩

theorem Printable.after {op : Operator} (h : g.Printable t) (hop : op ∈ g.operators.operators)
    (ha : op.arity = .unary .after) : g.Printable (.node (.ofOperator op) [t]) := by
  obtain ⟨r, ho, hfree, rfl⟩ := h
  exact ⟨.after op r, ⟨⟨hop, ha⟩, ho⟩, Bracketing.hasFreeValues_after.2 hfree, rfl⟩

theorem Printable.binary {op : Operator} {u : Tree} (ht : g.Printable t) (hu : g.Printable u)
    (hop : op ∈ g.operators.operators) (ha : op.arity = .binary) :
    g.Printable (.node (.ofOperator op) [t, u]) := by
  obtain ⟨l, hl, hlfree, rfl⟩ := ht
  obtain ⟨r, hr, hrfree, rfl⟩ := hu
  exact ⟨.binary op l r, ⟨⟨hop, ha⟩, hl, hr⟩,
    Bracketing.hasFreeValues_binary.2 ⟨hlfree, hrfree⟩, rfl⟩

/-- Where a printed text is split into the tokens of the tree, it is parsed as the tree. -/
theorem parse_text_of_tokenize_eq (h : g.Printable t) (hp : g.IsEffective .parentheses)
    (htok : g.tokenize t.text = t.written) : g.parse t.text = .ok t := by
  obtain ⟨r, ho, -, rfl⟩ := h
  have hread := read?_tokens (ho.over_printed hp) ho.conflictFree_printed
  rw [ho.tokens_printed] at hread
  rw [Vocabulary.parse, htok, Vocabulary.parseFrom_eq_ok_iff_read?]
  exact ⟨r.printed, hread, Bracketing.tree_printed r⟩

/-- A tree is printed as a text that is split into the tokens of the tree and parsed as the tree. -/
theorem Printable.parse_text (h : g.Printable t) (hp : g.IsEffective .parentheses)
    (hs : g.symbolTable.Separating) :
    g.tokenize t.text = t.written ∧ g.parse t.text = .ok t := by
  have htok : g.tokenize t.text = t.written := by
    obtain ⟨r, ho, hfree, rfl⟩ := h
    have hfree' := Bracketing.hasFreeValues_printed.2 hfree
    exact ho.tokenize_text ((ho.over_printed hp).splits_tokens hs hfree')
  exact ⟨htok, parse_text_of_tokenize_eq h hp htok⟩

theorem isEffective_parentheses_types : types.IsEffective .parentheses := by decide

/-- The symbols are `[]`, `|`, `(` and `)`. Only `]` continues one, and none begins with it. -/
theorem separating_types : types.symbolTable.Separating := by decide

/-- A type expression is printed as a text that is parsed as the same tree, whatever characters its
values have. So printing it again gives the same text. -/
theorem types_parse_text (s : String) (t : Tree) (h : types.parse s = .ok t) :
    types.tokenize t.text = t.written ∧ types.parse t.text = .ok t ∧
      ∀ u, types.parse t.text = .ok u → u.text = t.text := by
  obtain ⟨htok, hparse⟩ :=
    (printable_of_parse h).parse_text isEffective_parentheses_types separating_types
  refine ⟨htok, hparse, ?_⟩
  intro u hu
  rw [hparse] at hu
  cases hu
  rfl

/-- Without the parentheses around them, the values `A[` and `]` stand next to symbols. -/
theorem types_parse_text_of_brackets :
    let t : Tree := .node (.ofOperator .array) [.node (.ofOperator .union)
      [.value (.literal ['A', '[']), .value (.literal [']'])]]
    types.parse "( ( A[ ) | (]) ) []" = .ok t ∧ t.text = "(A[|])[]" ∧
      types.parse "(A[|])[]" = .ok t := by
  intro t
  have hs : types.parse "( ( A[ ) | (]) ) []" = .ok t := by decide +kernel
  have htext : t.text = "(A[|])[]" := by decide
  obtain ⟨-, hparse, -⟩ := types_parse_text _ t hs
  rw [htext] at hparse
  exact ⟨hs, htext, hparse⟩

end Grammar

end Fixity
