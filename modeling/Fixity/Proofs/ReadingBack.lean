import Fixity.Proofs.FewestParentheses
import Fixity.Proofs.Language
import Fixity.Proofs.PrintedText
import Mathlib.Data.List.Infix

/-! Trees that are read back from their texts. Tokens are printed without anything between them, so
a symbol can grow into what is printed after it. Parentheses stop that: a text falls apart at them.
So a grammar reads its trees back as soon as that works for expressions without parentheses. -/
namespace Fixity

namespace SymbolTable

variable {t : SymbolTable} {c : Char} {xs ys : List Token}

/-- The character is a symbol and occurs in no other one. -/
def Isolates (t : SymbolTable) (c : Char) : Prop :=
  [c] ∈ t.symbols ∧ ∀ s ∈ t.symbols, c ∈ s → s = [c]

instance (t : SymbolTable) (c : Char) : Decidable (t.Isolates c) :=
  inferInstanceAs (Decidable (_ ∧ _))

theorem Isolates.symbolAt?_cons (h : t.Isolates c) (rest : List Char) :
    t.symbolAt? (c :: rest) = some [c] := by
  refine symbolAt?_eq_some_iff.2 ⟨h.1, by simp, ?_⟩
  intro u hu hp
  obtain ⟨d, u, rfl⟩ := List.exists_cons_of_ne_nil (t.ne_nil u hu)
  obtain ⟨rfl, -⟩ := List.cons_prefix_cons.1 hp
  rw [h.2 _ hu List.mem_cons_self]

/-- A symbol that begins before the character ends before it. -/
theorem Isolates.prefix_append_cons_iff (h : t.Isolates c) {s text : List Char}
    (hs : s ∈ t.symbols) (hne : text ≠ []) (rest : List Char) :
    s <+: text ++ c :: rest ↔ s <+: text := by
  refine ⟨fun hp => ?_, fun hp => hp.trans (List.prefix_append _ _)⟩
  rcases List.prefix_or_prefix_of_prefix hp (List.prefix_append text _) with hst | ⟨w, rfl⟩
  · exact hst
  · cases w with
    | nil => rw [List.append_nil]
    | cons d w =>
      rw [List.prefix_append_right_inj, List.cons_prefix_cons] at hp
      have hlength := congrArg List.length (h.2 _ hs (by simp [hp.1]))
      have hpos := List.length_pos_iff.2 hne
      simp only [List.length_append, List.length_cons, List.length_nil] at hlength
      omega

theorem Isolates.symbolAt?_append_cons (h : t.Isolates c) {text : List Char} (hne : text ≠ [])
    (rest : List Char) : t.symbolAt? (text ++ c :: rest) = t.symbolAt? text := by
  refine Option.ext fun s => ?_
  rw [symbolAt?_eq_some_iff, symbolAt?_eq_some_iff]
  refine and_congr_right fun hs => and_congr (h.prefix_append_cons_iff hs hne rest) ?_
  exact forall₂_congr fun u hu => by rw [h.prefix_append_cons_iff hu hne rest]

/-- What stands before the character and what stands after it are split on their own. -/
theorem Isolates.splits_append_cons_iff (h : t.Isolates c) {p : Token} (hp : p.chars = [c]) :
    t.Splits (xs ++ p :: ys) ↔ t.Splits xs ∧ t.Splits ys := by
  constructor
  · intro hs
    refine ⟨hs.of_append_left, ?_⟩
    rw [List.append_cons] at hs
    exact hs.of_append_right
  · rintro ⟨hxs, hys⟩
    have hjoin : ∀ xs, joinTokens (xs ++ p :: ys) = joinTokens xs ++ c :: joinTokens ys := by
      simp [hp]
    induction hxs with
    | nil => exact .symbol (by rw [joinTokens_cons, hp]; exact h.symbolAt?_cons _) hys
    | @symbol x xs hx _ ih =>
      rw [List.cons_append]
      refine .symbol ?_ ih
      rw [← List.cons_append, hjoin, h.symbolAt?_append_cons (by simp [x.chars_ne_nil]), hx]
    | @basic x xs hx hnext _ ih =>
      rw [List.cons_append]
      refine .basic ?_ ?_ ih
      · intro s hs hsuffix
        rw [hjoin, ← List.append_assoc, h.symbolAt?_append_cons (by simp [hs]), hx s hs hsuffix]
      · intro _
        rw [hjoin]
        cases xs with
        | nil => rw [joinTokens_nil, List.nil_append, h.symbolAt?_cons]; rfl
        | cons y xs =>
          rw [h.symbolAt?_append_cons (by simp [y.chars_ne_nil])]
          exact hnext (by simp)

theorem Isolates.chars_eq (h : t.Isolates c) {x : Token} (hx : x.chars ∈ t.symbols ∨ t.Free x.chars)
    (hc : c ∈ x.chars) : x.chars = [c] := by
  rcases hx with hx | hx
  · exact h.2 _ hx hc
  · exact absurd ((List.singleton_infix_iff c x.chars).2 hc) (free_iff.1 hx [c] h.1)

/-- Two ways to put such characters between the same tokens give different texts. -/
theorem eq_of_joinTokens_eq {d : Token → Bool}
    (hd : ∀ x, d x = true → ∃ c, t.Isolates c ∧ x.chars = [c])
    (hxs : ∀ x ∈ xs, x.chars ∈ t.symbols ∨ t.Free x.chars)
    (hys : ∀ y ∈ ys, y.chars ∈ t.symbols ∨ t.Free y.chars)
    (hfilter : (xs.filter fun x => !d x) = ys.filter fun y => !d y)
    (hjoin : joinTokens xs = joinTokens ys) : xs = ys := by
  have heq : ∀ {x y : Token}, d x = true → (y.chars ∈ t.symbols ∨ t.Free y.chars) →
      x.chars.head? = y.chars.head? → y = x := by
    intro x y hx hy hhead
    obtain ⟨c, hc, hchars⟩ := hd x hx
    rw [hchars] at hhead
    have hmem : c ∈ y.chars := List.mem_of_mem_head? hhead.symm
    exact Token.ext ((hc.chars_eq hy hmem).trans hchars.symm)
  induction xs generalizing ys with
  | nil =>
    cases ys with
    | nil => rfl
    | cons y ys => simp [y.chars_ne_nil] at hjoin
  | cons x xs ih =>
    cases ys with
    | nil => simp [x.chars_ne_nil] at hjoin
    | cons y ys =>
      obtain ⟨hx, hxs'⟩ := List.forall_mem_cons.1 hxs
      obtain ⟨hy, hys'⟩ := List.forall_mem_cons.1 hys
      have hhead : x.chars.head? = y.chars.head? := by
        have h := congrArg List.head? hjoin
        rwa [joinTokens_cons, joinTokens_cons, List.head?_append_of_ne_nil _ x.chars_ne_nil,
          List.head?_append_of_ne_nil _ y.chars_ne_nil] at h
      obtain rfl : x = y := by
        cases hdx : d x with
        | true => exact (heq hdx hy hhead).symm
        | false =>
          cases hdy : d y with
          | true => exact heq hdy hx hhead.symm
          | false => simpa [hdx, hdy] using congrArg List.head? hfilter
      have hrest : (xs.filter fun x => !d x) = ys.filter fun y => !d y := by
        cases hdx : d x <;> simpa [hdx] using hfilter
      rw [ih hxs' hys' hrest (List.append_cancel_left hjoin)]

end SymbolTable

namespace Vocabulary

/-- Parentheses are the only delimiters, and no operator has one in its symbol. -/
structure HasPlainParentheses (v : Vocabulary) : Prop where
  delimiters_eq : v.delimiters = [.parentheses]
  notMem_symbol : ∀ op ∈ v.operators.operators, '(' ∉ op.symbol.chars ∧ ')' ∉ op.symbol.chars

/-- The tree of every text is the tree of the text that it is printed as. -/
def ReadsBack (v : Vocabulary) : Prop := ∀ s t, v.parse s = .ok t → v.parse t.text = .ok t

variable {v : Vocabulary} {x : Token}

namespace HasPlainParentheses

theorem isDelimiter_iff (h : v.HasPlainParentheses) : v.isDelimiter x = true ↔
    x = DelimiterPair.parentheses.opening ∨ x = DelimiterPair.parentheses.closing := by
  simp [Vocabulary.isDelimiter_iff, h.delimiters_eq, DelimiterPair.tokens]

theorem exists_chars_eq (h : v.HasPlainParentheses) (hx : v.isDelimiter x = true) :
    ∃ c, x.chars = [c] ∧ ∀ op ∈ v.operators.operators, c ∉ op.symbol.chars := by
  rcases h.isDelimiter_iff.1 hx with rfl | rfl
  · exact ⟨'(', rfl, fun op hop => (h.notMem_symbol op hop).1⟩
  · exact ⟨')', rfl, fun op hop => (h.notMem_symbol op hop).2⟩

theorem exists_isolates (h : v.HasPlainParentheses) (hx : v.isDelimiter x = true) :
    ∃ c, v.symbolTable.Isolates c ∧ x.chars = [c] := by
  obtain ⟨c, hc, hop⟩ := h.exists_chars_eq hx
  refine ⟨c, ⟨?_, ?_⟩, hc⟩
  · rw [← hc]
    exact mem_symbolTable_iff.2 fun hv => Bool.false_ne_true (hv.1.symm.trans hx)
  · intro s hs hmem
    obtain ⟨y, hy, rfl⟩ := exists_of_mem_symbolTable hs
    cases hd : v.isDelimiter y with
    | true =>
      obtain ⟨d, hyd, -⟩ := h.exists_chars_eq hd
      rw [hyd] at hmem ⊢
      rw [List.mem_singleton.1 hmem]
    | false =>
      obtain ⟨op, hmember, rfl⟩ : ∃ op ∈ v.operators.operators, op.symbol = y := by
        simpa [IsValue, hd, OperatorSet.contains] using hy
      exact absurd hmem (hop op hmember)

/-- What is enclosed, and what stands before and after it, is split on its own. -/
theorem splits_enclosed_iff (h : v.HasPlainParentheses) {xs ts ys : List Token} :
    v.symbolTable.Splits (xs ++ DelimiterPair.parentheses.opening ::
        (ts ++ DelimiterPair.parentheses.closing :: ys)) ↔
      v.symbolTable.Splits xs ∧ v.symbolTable.Splits ts ∧ v.symbolTable.Splits ys := by
  obtain ⟨c, hopening, hc⟩ := h.exists_isolates (h.isDelimiter_iff.2 (.inl rfl))
  obtain ⟨d, hclosing, hd⟩ := h.exists_isolates (h.isDelimiter_iff.2 (.inr rfl))
  rw [hopening.splits_append_cons_iff hc, hclosing.splits_append_cons_iff hd]

end HasPlainParentheses

end Vocabulary

namespace Bracketing

variable {v : Vocabulary} {r : Bracketing} {x : Token}

/-- The bracketing with parentheses around all operands, and no other delimiters. -/
def separated : Bracketing → Bracketing
  | value t => value t
  | before op r => before op (enclosed .parentheses r.separated)
  | after op r => after op (enclosed .parentheses r.separated)
  | binary op l r =>
    binary op (enclosed .parentheses l.separated) (enclosed .parentheses r.separated)
  | enclosed _ r => r.separated

@[simp] theorem tree_separated (r : Bracketing) : r.separated.tree = r.tree := by
  induction r with
  | value t => rfl
  | before op r ih => simp [separated, tree, ih]
  | after op r ih => simp [separated, tree, ih]
  | binary op l r ihl ihr => simp [separated, tree, ihl, ihr]
  | enclosed p r ih => simpa [separated, tree] using ih

theorem Over.over_separated (h : r.Over v) (hp : v.IsEffective .parentheses) :
    r.separated.Over v := by
  induction r with
  | value t => exact h
  | before op r ih => exact ⟨h.1, hp, ih h.2⟩
  | after op r ih => exact ⟨h.1, hp, ih h.2⟩
  | binary op l r ihl ihr => exact ⟨h.1, ⟨hp, ihl h.2.1⟩, hp, ihr h.2.2⟩
  | enclosed p r ih => exact ih h.2

theorem conflictFree_separated (r : Bracketing) : r.separated.ConflictFree := by
  induction r with
  | value t => trivial
  | before op r ih => exact ⟨ih, List.forall_mem_nil _⟩
  | after op r ih => exact ⟨ih, List.forall_mem_nil _⟩
  | binary op l r ihl ihr => exact ⟨⟨ihl, List.forall_mem_nil _⟩, ihr, List.forall_mem_nil _⟩
  | enclosed p r ih => exact ih

/-- With a parenthesis next to each value and each operator, nothing can grow together. -/
theorem Over.splits_separated (h : r.Over v) (hv : v.HasPlainParentheses)
    (hfree : r.HasFreeValues v) : v.symbolTable.Splits r.separated.tokens := by
  have hsymbol : ∀ {op : Operator}, op ∈ v.operators.operators →
      v.symbolTable.Splits [op.symbol] := by
    intro op hop
    have hmem := Vocabulary.mem_symbolTable_iff.2 (Vocabulary.not_isValue_symbol hop)
    exact .symbol (by simpa using SymbolTable.symbolAt?_self hmem) .nil
  induction r with
  | value t => exact .basic (hfree t (by simp [elements])) (by simp) .nil
  | before op r ih =>
    have hr := ih h.2 (hasFreeValues_before.1 hfree)
    exact hv.splits_enclosed_iff.2 ⟨hsymbol h.1.1, hr, .nil⟩
  | after op r ih =>
    have hr := ih h.2 (hasFreeValues_after.1 hfree)
    have hall := hv.splits_enclosed_iff.2 ⟨.nil, hr, hsymbol h.1.1⟩
    simpa [separated, tokens] using hall
  | binary op l r ihl ihr =>
    obtain ⟨hl, hr⟩ := hasFreeValues_binary.1 hfree
    have hright := hv.splits_enclosed_iff.2 ⟨hsymbol h.1.1, ihr h.2.2 hr, .nil⟩
    have hall := hv.splits_enclosed_iff.2 ⟨.nil, ihl h.2.1 hl, hright⟩
    simpa [separated, tokens] using hall
  | enclosed p r ih => exact ih h.2 hfree

/-- The bracketing with a value in place of everything that is enclosed. -/
def outline (x : Token) : Bracketing → Bracketing
  | value t => value t
  | before op r => before op (r.outline x)
  | after op r => after op (r.outline x)
  | binary op l r => binary op (l.outline x) (r.outline x)
  | enclosed _ _ => value x

theorem enclosures_outline (x : Token) (r : Bracketing) : (r.outline x).enclosures = 0 := by
  induction r with
  | value t => rfl
  | before op r ih => exact ih
  | after op r ih => exact ih
  | binary op l r ihl ihr => simp [outline, enclosures, ihl, ihr]
  | enclosed p r ih => rfl

theorem Over.over_outline (h : r.Over v) (hx : v.IsValue x) : (r.outline x).Over v := by
  induction r with
  | value t => exact h
  | before op r ih => exact ⟨h.1, ih h.2⟩
  | after op r ih => exact ⟨h.1, ih h.2⟩
  | binary op l r ihl ihr => exact ⟨h.1, ihl h.2.1, ihr h.2.2⟩
  | enclosed p r ih => exact hx

theorem HasFreeValues.outline (h : r.HasFreeValues v) (hx : v.symbolTable.Free x.chars) :
    (r.outline x).HasFreeValues v := by
  induction r with
  | value t => exact h
  | before op r ih => exact hasFreeValues_before.2 (ih (hasFreeValues_before.1 h))
  | after op r ih => exact hasFreeValues_after.2 (ih (hasFreeValues_after.1 h))
  | binary op l r ihl ihr =>
    obtain ⟨hl, hr⟩ := hasFreeValues_binary.1 h
    exact hasFreeValues_binary.2 ⟨ihl hl, ihr hr⟩
  | enclosed p r ih => exact hasFreeValues_value hx

theorem exists_value_mem_elements (r : Bracketing) : ∃ x, .value x ∈ r.elements := by
  induction r with
  | value t => exact ⟨t, List.mem_cons_self⟩
  | before op r ih =>
    obtain ⟨x, hx⟩ := ih
    exact ⟨x, List.mem_cons_of_mem _ hx⟩
  | after op r ih =>
    obtain ⟨x, hx⟩ := ih
    exact ⟨x, List.mem_append_left _ hx⟩
  | binary op l r ihl ihr =>
    obtain ⟨x, hx⟩ := ihl
    exact ⟨x, List.mem_append_left _ hx⟩
  | enclosed p r ih => exact ih

/-- What is enclosed can be put back where a value has been found. -/
theorem Over.splits_of_outline (hv : v.HasPlainParentheses)
    (houtline : ∀ s : Bracketing, s.Over v → s.HasFreeValues v →
      v.symbolTable.Splits (s.outline x).tokens)
    (h : r.Over v) (hfree : r.HasFreeValues v) (xs ys : List Token)
    (hs : v.symbolTable.Splits (xs ++ ((r.outline x).tokens ++ ys))) :
    v.symbolTable.Splits (xs ++ (r.tokens ++ ys)) := by
  induction r generalizing xs ys with
  | value t => exact hs
  | before op r ih =>
    simp only [outline, tokens, List.cons_append] at hs ⊢
    rw [List.append_cons] at hs ⊢
    exact ih h.2 (hasFreeValues_before.1 hfree) _ _ hs
  | after op r ih =>
    simp only [outline, tokens, List.append_assoc] at hs ⊢
    exact ih h.2 (hasFreeValues_after.1 hfree) _ _ hs
  | binary op l r ihl ihr =>
    obtain ⟨hl, hr⟩ := hasFreeValues_binary.1 hfree
    simp only [outline, tokens, List.append_assoc, List.cons_append] at hs ⊢
    have hleft := ihl h.2.1 hl _ _ hs
    rw [← List.append_assoc, List.append_cons] at hleft ⊢
    exact ihr h.2.2 hr _ _ hleft
  | enclosed p r ih =>
    obtain rfl : p = .parentheses := by simpa [hv.delimiters_eq] using h.1.mem
    have hinner := ih h.2 hfree [] [] (by simpa using houtline r h.2 hfree)
    -- without the value, what stands on either side of it is split as before
    have hall := hv.splits_enclosed_iff.2
      ⟨hs.of_append_left, by simpa using hinner, hs.of_append_right.of_append_right⟩
    simpa [tokens] using hall

/-- Where bracketings without delimiters are split into their tokens, all are. -/
theorem Over.splits_of_plain (hv : v.HasPlainParentheses)
    (hplain : ∀ s : Bracketing, s.Over v → s.HasFreeValues v → s.enclosures = 0 →
      v.symbolTable.Splits s.tokens)
    (h : r.Over v) (hfree : r.HasFreeValues v) : v.symbolTable.Splits r.tokens := by
  obtain ⟨x, hx⟩ := r.exists_value_mem_elements
  have hxfree := hfree x hx
  have houtline : ∀ s : Bracketing, s.Over v → s.HasFreeValues v →
      v.symbolTable.Splits (s.outline x).tokens := by
    intro s ho hs
    apply hplain (s.outline x) (ho.over_outline (Vocabulary.isValue_of_free hxfree))
    · exact hs.outline hxfree
    · exact enclosures_outline x s
  have hr := h.splits_of_outline hv houtline hfree [] [] (by simpa using houtline r h hfree)
  simpa using hr

end Bracketing

namespace Grammar

variable {g : Grammar} {r : Bracketing}

/-- Each bracketing has a text of which it is the tree. -/
theorem parse_separated (hg : g.HasPlainParentheses) (h : r.Over g.toVocabulary)
    (hfree : r.HasFreeValues g.toVocabulary) :
    g.parse (String.ofList (joinTokens r.separated.tokens)) = .ok r.tree := by
  have hp := Vocabulary.isEffective_parentheses hg.delimiters_eq
  have hread := read?_tokens (h.over_separated hp) r.conflictFree_separated
  rw [Vocabulary.parse, Vocabulary.tokenize, (h.splits_separated hg hfree).tokenize_joinTokens,
    Vocabulary.parseFrom_eq_ok_iff_read?]
  exact ⟨_, hread, r.tree_separated⟩

/-- The tokens of a text that is read back are those that have been printed: parentheses in other
places would show in the text. -/
theorem tokenize_text_of_parse_text {t : Tree} (hg : g.HasPlainParentheses) (h : g.Printable t)
    (hback : g.parse t.text = .ok t) : g.tokenize t.text = t.written := by
  obtain ⟨r, ho, hfree, rfl⟩ := h
  obtain ⟨r', hr', htree⟩ := Vocabulary.parseFrom_eq_ok_iff_read?.1 hback
  obtain ⟨⟨ho', htokens⟩, -⟩ := Vocabulary.reads_of_read? hr'
  obtain ⟨hjoin, hsplits⟩ := SymbolTable.tokenize_eq_iff.1 htokens.symm
  have hprinted := ho.over_printed (Vocabulary.isEffective_parentheses hg.delimiters_eq)
  have helements : r'.elements = r.printed.elements := by
    rw [← ho'.inOrder_tree, htree, ho.inOrder_tree, Bracketing.elements_printed]
  have hfilter : (r'.tokens.filter fun x => !g.isDelimiter x) =
      r.printed.tokens.filter fun x => !g.isDelimiter x := by
    have hsymbols := (derives_of_over hprinted).symbols
    rw [← helements, (derives_of_over ho').symbols] at hsymbols
    exact List.map_injective_iff.2 (fun _ _ => List.singleton_inj.1) hsymbols
  rw [← htokens, ← ho.tokens_printed]
  refine SymbolTable.eq_of_joinTokens_eq (fun _ => hg.exists_isolates) hsplits.symbol_or_free
    (hprinted.symbol_or_free (Bracketing.hasFreeValues_printed.2 hfree)) hfilter ?_
  rw [hjoin, Tree.toList_text, withoutBlanks_joinTokens, ho.tokens_printed]

/-- Where no symbol can grow into what is written after it, all trees are read back. -/
theorem readsBack_of_separating (hd : g.delimiters = [.parentheses])
    (hs : g.symbolTable.Separating) : g.ReadsBack := by
  intro s t h
  exact ((printable_of_parse h).parse_text (Vocabulary.isEffective_parentheses hd) hs).2

theorem readsBack_arithmetic : arithmetic.ReadsBack :=
  readsBack_of_separating rfl (by decide)

/-- In a grammar with the parentheses alone as delimiters, neither of which occurs in the symbol of
an operator, a printed text is read back just if it is split into the tokens of the tree. All trees
of the grammar are read back just if the expressions without delimiters can be written without
blanks. -/
theorem readsBack_iff (g : Grammar) (hg : g.HasPlainParentheses) :
    (∀ s t, g.parse s = .ok t → (g.parse t.text = .ok t ↔ g.tokenize t.text = t.written)) ∧
      (g.ReadsBack ↔ ∀ ts t, g.parseTokens ts = .ok t →
        (∀ x ∈ ts, g.isDelimiter x = false ∧ (g.IsValue x → g.symbolTable.Free x.chars)) →
        g.tokenize (String.ofList (joinTokens ts)) = ts) := by
  have hp := Vocabulary.isEffective_parentheses hg.delimiters_eq
  have hiff : ∀ s t, g.parse s = .ok t →
      (g.parse t.text = .ok t ↔ g.tokenize t.text = t.written) := by
    intro s t h
    have hprintable := printable_of_parse h
    exact ⟨tokenize_text_of_parse_text hg hprintable, parse_text_of_tokenize_eq hprintable hp⟩
  refine ⟨hiff, ?_⟩
  constructor
  · intro hback ts t ht hts
    obtain ⟨r, hr, rfl⟩ := Vocabulary.parseFrom_eq_ok_iff_read?.1 ht
    obtain ⟨⟨ho, rfl⟩, hc⟩ := Vocabulary.reads_of_read? hr
    have hfree : r.HasFreeValues g.toVocabulary := by
      intro x hx
      obtain ⟨hmem, hv⟩ := ho.value_mem_elements_iff.1 hx
      exact (hts x hmem).2 hv
    -- the law speaks of trees that come from a text: with all operands enclosed there is one
    have hparse := parse_separated hg ho hfree
    have htok := (hiff _ _ hparse).1 (hback _ _ hparse)
    have h0 := ho.enclosures_eq_zero_iff.2 fun x hx => (hts x hx).1
    rw [← hc.written_tree ho h0, Tree.ofList_joinTokens_written, htok]
  · intro hwritten s t h
    have hplain : ∀ r : Bracketing, r.Over g.toVocabulary → r.HasFreeValues g.toVocabulary →
        r.enclosures = 0 → g.symbolTable.Splits r.tokens := by
      intro r ho hfree h0
      obtain ⟨r', hr', -⟩ := (derives_of_over ho).exists_read?
      have hts : g.parseTokens r.tokens = .ok r'.tree :=
        Vocabulary.parseFrom_eq_ok_iff_read?.2 ⟨r', hr', rfl⟩
      refine (SymbolTable.tokenize_eq_iff.1 (hwritten r.tokens r'.tree hts ?_)).2
      intro x hx
      exact ⟨ho.enclosures_eq_zero_iff.1 h0 x hx,
        fun hv => hfree x (ho.value_mem_elements_iff.2 ⟨hx, hv⟩)⟩
    obtain ⟨r, ho, hfree, rfl⟩ := printable_of_parse h
    have hsplits := (ho.over_printed hp).splits_of_plain hg hplain
      (Bracketing.hasFreeValues_printed.2 hfree)
    exact (hiff s r.tree h).2 (ho.tokenize_text hsplits)

/-- `a-(-b)` is printed with two signs side by side, and read back. -/
theorem readsBack_difference_of_negative :
    let t : Tree := .node (.ofOperator .subtract)
      [.value (.literal ['a']), .node (.ofOperator .negative) [.value (.literal ['b'])]]
    arithmetic.HasPlainParentheses ∧ arithmetic.parse "a-(-b)" = .ok t ∧ t.text = "a--b" ∧
      arithmetic.parse "a--b" = .ok t := by
  intro t
  have hg : arithmetic.HasPlainParentheses := ⟨rfl, by decide⟩
  have ht : arithmetic.parse "a-(-b)" = .ok t := by decide +kernel
  have htext : t.text = "a--b" := by decide
  have hback := ((readsBack_iff arithmetic hg).1 "a-(-b)" t ht).2 (by decide +kernel)
  rw [htext] at hback
  exact ⟨hg, ht, htext, hback⟩

/-- With a prefix operator `--` beside `-`, the text of `-(-a)` has another tree. -/
theorem not_readsBack_of_doubled_sign :
    let minus : Operator := .unary .before (.literal ['-']) 0
    let decrement : Operator := .unary .before (.literal ['-', '-']) 0
    let set : OperatorSet := ⟨[minus, decrement], by decide⟩
    let g : Grammar := ⟨⟨set, [.parentheses]⟩, by decide, by decide⟩
    let a : Tree := .value (.literal ['a'])
    let t : Tree := .node (.ofOperator minus) [.node (.ofOperator minus) [a]]
    OperatorSet.ofList [minus, decrement] = .ok set ∧ ofParts set [.parentheses] = .ok g ∧
      g.parse "-(-a)" = .ok t ∧ t.text = "--a" ∧
      g.parse "--a" = .ok (.node (.ofOperator decrement) [a]) ∧ ¬g.ReadsBack := by
  intro minus decrement set g a t
  have ht : g.parse "-(-a)" = .ok t := by decide +kernel
  have htext : t.text = "--a" := by decide
  have hother : g.parse "--a" = .ok (.node (.ofOperator decrement) [a]) := by decide +kernel
  refine ⟨by decide, by decide, ht, htext, hother, ?_⟩
  intro hback
  have hsame := hback "-(-a)" t ht
  rw [htext, hother] at hsame
  revert hsame
  decide

end Grammar

end Fixity
