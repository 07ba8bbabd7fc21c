import Fixity.Grammar.Predefined
import Fixity.Proofs.PrintedText
import Fixity.Proofs.ViablePrefix

/-! Expressions inside expressions. A value can be replaced by an expression in delimiters: an
enclosed part shows no operators on its edges, just as a value shows none, so no conflict arises
around it. Just the pairs that the vocabulary finds again by their tokens can enclose. -/
namespace Fixity

namespace Tree

mutual

/-- The values of the tree from left to right. -/
def leaves : Tree → List Token
  | .value t => [t]
  | .node _ cs => leavesOf cs

def leavesOf : List Tree → List Token
  | [] => []
  | t :: ts => t.leaves ++ leavesOf ts

end

mutual

/-- The tree with `u` in place of the leaf that has `k` others on its left. -/
def replaceLeaf : Tree → Nat → Tree → Tree
  | .value t, k, u => if k = 0 then u else .value t
  | .node op cs, k, u => .node op (replaceLeafOf cs k u)

def replaceLeafOf : List Tree → Nat → Tree → List Tree
  | [], _, _ => []
  | t :: ts, k, u =>
    if k < t.leaves.length then t.replaceLeaf k u :: ts
    else t :: replaceLeafOf ts (k - t.leaves.length) u

end

variable {k : Nat} {t u : Tree}

theorem replaceLeafOf_first (h : k < t.leaves.length) (ts : List Tree) :
    replaceLeafOf (t :: ts) k u = t.replaceLeaf k u :: ts := by
  rw [replaceLeafOf, if_pos h]

theorem replaceLeafOf_later (ts : List Tree) :
    replaceLeafOf (t :: ts) (t.leaves.length + k) u = t :: replaceLeafOf ts k u := by
  rw [replaceLeafOf, if_neg (by omega), Nat.add_sub_cancel_left]

end Tree

namespace Bracketing

variable {v : Vocabulary} {r : Bracketing}

@[simp] theorem leaves_value (t : Token) : (value t).tree.leaves = [t] := by
  simp [tree, Tree.leaves]

@[simp] theorem leaves_before (op : Operator) (r : Bracketing) :
    (before op r).tree.leaves = r.tree.leaves := by
  simp [tree, Tree.leaves, Tree.leavesOf]

@[simp] theorem leaves_after (op : Operator) (r : Bracketing) :
    (after op r).tree.leaves = r.tree.leaves := by
  simp [tree, Tree.leaves, Tree.leavesOf]

@[simp] theorem leaves_binary (op : Operator) (l r : Bracketing) :
    (binary op l r).tree.leaves = l.tree.leaves ++ r.tree.leaves := by
  simp [tree, Tree.leaves, Tree.leavesOf]

@[simp] theorem leaves_enclosed (p : DelimiterPair) (r : Bracketing) :
    (enclosed p r).tree.leaves = r.tree.leaves := by
  simp [tree]

/-- The leaves of the tree are the values among the tokens. -/
theorem Over.leaves_tree (h : r.Over v) : r.tree.leaves = v.values r.tokens := by
  induction r with
  | value t => simp [tokens, Vocabulary.values_cons_of_isValue h]
  | before op r ih =>
    have hop := Vocabulary.not_isValue_symbol h.1.1
    simp [tokens, ih h.2, Vocabulary.values_cons_of_not_isValue hop]
  | after op r ih =>
    have hop := Vocabulary.not_isValue_symbol h.1.1
    simp [tokens, ih h.2, Vocabulary.values_cons_of_not_isValue hop]
  | binary op l r ihl ihr =>
    have hop := Vocabulary.not_isValue_symbol h.1.1
    simp [tokens, ihl h.2.1, ihr h.2.2, Vocabulary.values_cons_of_not_isValue hop]
  | enclosed p r ih =>
    have ho := h.1.not_isValue_opening
    have hc := h.1.not_isValue_closing
    simp [tokens, ih h.2, Vocabulary.values_cons_of_not_isValue ho,
      Vocabulary.values_cons_of_not_isValue hc]

/-- The second bracketing has `inner`, enclosed in `p`, where the first one has the value `x`. The
lists are the tokens before and after that place. -/
inductive Expands (p : DelimiterPair) (inner : Bracketing) (x : Token) :
    Bracketing → Bracketing → List Token → List Token → Prop where
  | here : Expands p inner x (value x) (enclosed p inner) [] []
  | before {r r' : Bracketing} {ts us : List Token} (op : Operator)
      (h : Expands p inner x r r' ts us) :
      Expands p inner x (before op r) (before op r') (op.symbol :: ts) us
  | after {r r' : Bracketing} {ts us : List Token} (op : Operator)
      (h : Expands p inner x r r' ts us) :
      Expands p inner x (after op r) (after op r') ts (us ++ [op.symbol])
  | left {l l' : Bracketing} {ts us : List Token} (op : Operator) (r : Bracketing)
      (h : Expands p inner x l l' ts us) :
      Expands p inner x (binary op l r) (binary op l' r) ts (us ++ op.symbol :: r.tokens)
  | right {r r' : Bracketing} {ts us : List Token} (op : Operator) (l : Bracketing)
      (h : Expands p inner x r r' ts us) :
      Expands p inner x (binary op l r) (binary op l r') (l.tokens ++ op.symbol :: ts) us
  | enclosed {r r' : Bracketing} {ts us : List Token} (q : DelimiterPair)
      (h : Expands p inner x r r' ts us) :
      Expands p inner x (enclosed q r) (enclosed q r') (q.opening :: ts) (us ++ [q.closing])

variable {p : DelimiterPair} {inner r' : Bracketing} {x : Token} {ts us : List Token}

/-- Of two parts of a list, one holds a given place. -/
theorem eq_append_cons_of_append_eq {α : Type} {as bs ts us : List α} {x : α}
    (h : as ++ bs = ts ++ x :: us) :
    (∃ rest, as = ts ++ x :: rest ∧ us = rest ++ bs) ∨
      ∃ rest, bs = rest ++ x :: us ∧ ts = as ++ rest := by
  rcases List.append_eq_append_iff.1 h with ⟨rest, rfl, hbs⟩ | ⟨_ | ⟨y, rest⟩, rfl, hbs⟩
  · exact .inr ⟨rest, hbs, rfl⟩
  · exact .inr ⟨[], hbs.symm, by simp⟩
  · obtain ⟨rfl, rfl⟩ := List.cons.inj hbs
    exact .inl ⟨rest, rfl, rfl⟩

/-- Any value among the tokens can be expanded. -/
theorem Over.exists_expands (h : r.Over v) (p : DelimiterPair) (inner : Bracketing)
    (hx : v.IsValue x) (he : r.tokens = ts ++ x :: us) :
    ∃ r', Expands p inner x r r' ts us := by
  have hsymbol : ∀ {y : Token}, ¬v.IsValue y → x ≠ y := by
    rintro y hy rfl
    exact hy hx
  induction r generalizing ts us with
  | value t =>
    obtain ⟨rfl, h⟩ | ⟨_, -, h⟩ := List.cons_eq_append_iff.1 he
    · obtain ⟨rfl, rfl⟩ := List.cons.inj h
      exact ⟨_, .here⟩
    · simp at h
  | before op r ih =>
    have hop := hsymbol (Vocabulary.not_isValue_symbol h.1.1)
    obtain ⟨rfl, hc⟩ | ⟨ts, rfl, hr⟩ := List.cons_eq_append_iff.1 he
    · exact absurd (List.cons.inj hc).1 hop
    · obtain ⟨r', hr'⟩ := ih h.2 hr
      exact ⟨_, .before op hr'⟩
  | after op r ih =>
    have hop := hsymbol (Vocabulary.not_isValue_symbol h.1.1)
    obtain ⟨us, hr, rfl⟩ | ⟨_, hc, -⟩ := eq_append_cons_of_append_eq he
    · obtain ⟨r', hr'⟩ := ih h.2 hr
      exact ⟨_, .after op hr'⟩
    · have hmem : x ∈ [op.symbol] := by simp [hc]
      exact absurd (List.mem_singleton.1 hmem) hop
  | binary op l r ihl ihr =>
    have hop := hsymbol (Vocabulary.not_isValue_symbol h.1.1)
    obtain ⟨us, hl, rfl⟩ | ⟨ts, hrest, rfl⟩ := eq_append_cons_of_append_eq he
    · obtain ⟨l', hl'⟩ := ihl h.2.1 hl
      exact ⟨_, .left op r hl'⟩
    · obtain ⟨rfl, hc⟩ | ⟨ts, rfl, hr⟩ := List.cons_eq_append_iff.1 hrest
      · exact absurd (List.cons.inj hc).1 hop
      · obtain ⟨r', hr'⟩ := ihr h.2.2 hr
        exact ⟨_, .right op l hr'⟩
  | enclosed q r ih =>
    have ho := hsymbol h.1.not_isValue_opening
    have hc := hsymbol h.1.not_isValue_closing
    obtain ⟨rfl, hx⟩ | ⟨ts, rfl, hrest⟩ := List.cons_eq_append_iff.1 he
    · exact absurd (List.cons.inj hx).1 ho
    · obtain ⟨us, hr, rfl⟩ | ⟨_, hx, -⟩ := eq_append_cons_of_append_eq hrest
      · obtain ⟨r', hr'⟩ := ih h.2 hr
        exact ⟨_, .enclosed q hr'⟩
      · have hmem : x ∈ [q.closing] := by simp [hx]
        exact absurd (List.mem_singleton.1 hmem) hc

namespace Expands

theorem tokens_eq (h : Expands p inner x r r' ts us) :
    r.tokens = ts ++ x :: us ∧
      r'.tokens = ts ++ p.opening :: (inner.tokens ++ p.closing :: us) := by
  induction h with
  | here => simp [tokens]
  | before op _ ih => simp [tokens, ih.1, ih.2]
  | after op _ ih => simp [tokens, ih.1, ih.2]
  | left op r _ ih => simp [tokens, ih.1, ih.2]
  | right op l _ ih => simp [tokens, ih.1, ih.2]
  | enclosed q _ ih => simp [tokens, ih.1, ih.2]

theorem preserves_over (h : Expands p inner x r r' ts us) (hr : r.Over v) (hp : v.IsEffective p)
    (hi : inner.Over v) : r'.Over v := by
  induction h with
  | here => exact ⟨hp, hi⟩
  | before op _ ih => exact ⟨hr.1, ih hr.2⟩
  | after op _ ih => exact ⟨hr.1, ih hr.2⟩
  | left op r _ ih => exact ⟨hr.1, ih hr.2.1, hr.2.2⟩
  | right op l _ ih => exact ⟨hr.1, hr.2.1, ih hr.2.2⟩
  | enclosed q _ ih => exact ⟨hr.1, ih hr.2⟩

/-- Neither a value nor an enclosed part has operators on its edges. -/
theorem edges_eq (h : Expands p inner x r r' ts us) :
    r'.leftEdge = r.leftEdge ∧ r'.rightEdge = r.rightEdge := by
  induction h with
  | here => exact ⟨rfl, rfl⟩
  | before op _ ih => simp [leftEdge, rightEdge, ih.2]
  | after op _ ih => simp [leftEdge, rightEdge, ih.1]
  | left op r _ ih => simp [leftEdge, rightEdge, ih.1]
  | right op l _ ih => simp [leftEdge, rightEdge, ih.2]
  | enclosed q _ ih => exact ⟨rfl, rfl⟩

theorem resists_iff (h : Expands p inner x r r' ts us) (op : Operator) :
    r'.Resists op ↔ r.Resists op := by
  rw [Resists, h.edges_eq.1, Resists]

theorem yieldsTo_iff (h : Expands p inner x r r' ts us) (op : Operator) :
    r'.YieldsTo op ↔ r.YieldsTo op := by
  rw [YieldsTo, h.edges_eq.2, YieldsTo]

theorem conflictFree (h : Expands p inner x r r' ts us) (hr : r.ConflictFree)
    (hi : inner.ConflictFree) : r'.ConflictFree := by
  induction h with
  | here => exact hi
  | before op h ih => exact ⟨ih hr.1, (h.resists_iff op).2 hr.2⟩
  | after op h ih => exact ⟨ih hr.1, (h.yieldsTo_iff op).2 hr.2⟩
  | left op r h ih => exact ⟨⟨ih hr.1.1, (h.yieldsTo_iff op).2 hr.1.2⟩, hr.2⟩
  | right op l h ih => exact ⟨hr.1, ih hr.2.1, (h.resists_iff op).2 hr.2.2⟩
  | enclosed q _ ih => exact ih hr

/-- The values before the place count the leaves before the one that stands there. -/
theorem leaves_getElem? (h : Expands p inner x r r' ts us) (hr : r.Over v) (hx : v.IsValue x) :
    r.tree.leaves[(v.values ts).length]? = some x := by
  rw [hr.leaves_tree, h.tokens_eq.1, Vocabulary.values_append,
    Vocabulary.values_cons_of_isValue hx]
  simp

theorem length_values_lt (h : Expands p inner x r r' ts us) (hr : r.Over v) (hx : v.IsValue x) :
    (v.values ts).length < r.tree.leaves.length :=
  (List.getElem?_eq_some_iff.1 (h.leaves_getElem? hr hx)).1

theorem tree_eq (h : Expands p inner x r r' ts us) (hr : r.Over v) (hx : v.IsValue x) :
    r'.tree = r.tree.replaceLeaf (v.values ts).length inner.tree := by
  induction h with
  | here => simp [tree, Tree.replaceLeaf]
  | before op h ih =>
    have hop := Vocabulary.not_isValue_symbol hr.1.1
    rw [Vocabulary.values_cons_of_not_isValue hop, tree, tree, Tree.replaceLeaf,
      Tree.replaceLeafOf_first (h.length_values_lt hr.2 hx), ih hr.2]
  | after op h ih =>
    rw [tree, tree, Tree.replaceLeaf, Tree.replaceLeafOf_first (h.length_values_lt hr.2 hx),
      ih hr.2]
  | left op r h ih =>
    rw [tree, tree, Tree.replaceLeaf, Tree.replaceLeafOf_first (h.length_values_lt hr.2.1 hx),
      ih hr.2.1]
  | right op l h ih =>
    have hop := Vocabulary.not_isValue_symbol hr.1.1
    rw [Vocabulary.values_append, Vocabulary.values_cons_of_not_isValue hop, List.length_append,
      ← hr.2.1.leaves_tree, tree, tree, Tree.replaceLeaf, Tree.replaceLeafOf_later,
      Tree.replaceLeafOf_first (h.length_values_lt hr.2.2 hx), ih hr.2.2]
  | enclosed q h ih =>
    rw [Vocabulary.values_cons_of_not_isValue hr.1.not_isValue_opening]
    exact ih hr.2

end Expands

end Bracketing

namespace Grammar

variable {g : Grammar} {p : DelimiterPair} {ts us : List Token} {t u : Tree}

/-- An expression in the place of a value, in delimiters, becomes the part of the tree that the
value was. -/
theorem parseTokens_replaceLeaf (g : Grammar) {p : DelimiterPair} (hp : g.IsEffective p)
    {ts us : List Token} {t u : Tree} (ht : g.parseTokens ts = .ok t)
    (hu : g.parseTokens us = .ok u) {i : Nat} (hi : i < ts.length) (hx : g.IsValue ts[i]) :
    t.leaves[(g.values (ts.take i)).length]? = some ts[i] ∧
      g.parseTokens (ts.take i ++ p.opening :: (us ++ p.closing :: ts.drop (i + 1))) =
        .ok (t.replaceLeaf (g.values (ts.take i)).length u) := by
  obtain ⟨r, hr, rfl⟩ := Vocabulary.parseFrom_eq_ok_iff_read?.1 ht
  obtain ⟨inner, hinner, rfl⟩ := Vocabulary.parseFrom_eq_ok_iff_read?.1 hu
  obtain ⟨⟨ho, htokens⟩, hc⟩ := Vocabulary.reads_of_read? hr
  obtain ⟨⟨hio, rfl⟩, hic⟩ := Vocabulary.reads_of_read? hinner
  have hsplit : r.tokens = ts.take i ++ ts[i] :: ts.drop (i + 1) := by
    rw [htokens, List.cons_getElem_drop_succ, List.take_append_drop]
  obtain ⟨r', he⟩ := ho.exists_expands p inner hx hsplit
  refine ⟨he.leaves_getElem? ho hx, Vocabulary.parseFrom_eq_ok_iff_read?.2 ⟨r', ?_, ?_⟩⟩
  · rw [← he.tokens_eq.2]
    exact read?_tokens (he.preserves_over ho hp hio) (he.conflictFree hc hic)
  · exact he.tree_eq ho hx

/-- In `a*b^c` the difference `d-e` in the place of `b`. -/
theorem parseTokens_replaceLeaf_of_power :
    let a : Token := .literal ['a']
    let b : Token := .literal ['b']
    let c : Token := .literal ['c']
    let d : Token := .literal ['d']
    let e : Token := .literal ['e']
    let ts : List Token := [a, .literal ['*'], b, .literal ['^'], c]
    let us : List Token := [d, .literal ['-'], e]
    let difference : Tree := .node (.ofOperator .subtract) [.value d, .value e]
    let t : Tree := .node (.ofOperator .multiply)
      [.value a, .node (.ofOperator .exponentiation) [.value b, .value c]]
    arithmetic.IsEffective .parentheses ∧ arithmetic.parseTokens ts = .ok t ∧
      arithmetic.parseTokens us = .ok difference ∧ arithmetic.IsValue b ∧
      arithmetic.parseTokens [a, .literal ['*'], DelimiterPair.parentheses.opening, d,
        .literal ['-'], e, DelimiterPair.parentheses.closing, .literal ['^'], c] =
        .ok (.node (.ofOperator .multiply)
          [.value a, .node (.ofOperator .exponentiation) [difference, .value c]]) := by
  intro a b c d e ts us difference t
  have hp : arithmetic.IsEffective .parentheses := by decide
  have ht : arithmetic.parseTokens ts = .ok t := by decide
  have hu : arithmetic.parseTokens us = .ok difference := by decide
  have hb : arithmetic.IsValue b := by decide
  have hi : 2 < ts.length := by decide
  exact ⟨hp, ht, hu, hb, (parseTokens_replaceLeaf arithmetic hp ht hu hi hb).2⟩

/-- The pair changes nothing around any expression. -/
def Encloses (g : Grammar) (p : DelimiterPair) : Prop :=
  ∀ ts t, g.parseTokens ts = .ok t → g.parseTokens (p.opening :: (ts ++ [p.closing])) = .ok t

theorem encloses_of_isEffective (hp : g.IsEffective p) : g.Encloses p := by
  intro ts t ht
  obtain ⟨r, hr, rfl⟩ := Vocabulary.parseFrom_eq_ok_iff_read?.1 ht
  obtain ⟨⟨ho, rfl⟩, hc⟩ := Vocabulary.reads_of_read? hr
  refine Vocabulary.parseFrom_eq_ok_iff_read?.2 ⟨.enclosed p r, ?_, rfl⟩
  exact read?_tokens (r := .enclosed p r) ⟨hp, ho⟩ hc

/-- A pair that encloses a value encloses everything. -/
theorem isEffective_of_encloses (h : g.Encloses p) : g.IsEffective p := by
  obtain ⟨x, hx⟩ := g.exists_isValue
  have hread : g.read? [x] = some (.value x) := read?_tokens (r := .value x) hx trivial
  have hvalue := h [x] (.value x) (Vocabulary.parseFrom_eq_ok_iff_read?.2 ⟨_, hread, rfl⟩)
  obtain ⟨r, hr, htree⟩ := Vocabulary.parseFrom_eq_ok_iff_read?.1 hvalue
  obtain ⟨⟨ho, htokens⟩, -⟩ := Vocabulary.reads_of_read? hr
  cases r with
  | enclosed q r =>
    obtain ⟨hopening, htail⟩ := List.cons.inj htokens
    obtain ⟨-, hclosing⟩ := List.append_inj' htail rfl
    obtain rfl : q = p := by
      cases q
      cases p
      rw [DelimiterPair.mk.injEq]
      exact ⟨hopening, List.singleton_inj.1 hclosing⟩
    exact ho.1
  | value y => cases htokens
  | before op r => cases htree
  | after op r => cases htree
  | binary op l r => cases htree

/-- Just the pairs that are found again by their tokens enclose expressions. So all pairs of a
grammar do if and only if no two of them have one opening token and none is closed by a token that
opens a pair. -/
theorem encloses_iff_isEffective (g : Grammar) :
    (∀ p, g.Encloses p ↔ g.IsEffective p) ∧
      ((∀ p ∈ g.delimiters, g.Encloses p) ↔ ∀ p ∈ g.delimiters, ∀ q ∈ g.delimiters,
        (p.opening = q.opening → p = q) ∧ p.closing ≠ q.opening) := by
  have hiff : ∀ p, g.Encloses p ↔ g.IsEffective p := fun p =>
    ⟨isEffective_of_encloses, encloses_of_isEffective⟩
  refine ⟨hiff, ?_⟩
  simp only [hiff]
  constructor
  · intro h p hp q hq
    have hpo := (h p hp).1
    have hqo := (h q hq).1
    refine ⟨?_, ?_⟩
    · intro he
      rw [he, hqo] at hpo
      exact (Option.some.inj hpo).symm
    · intro he
      exact List.find?_eq_none.1 (h p hp).2 q hq (by simp [he])
  · intro h p hp
    constructor
    · have hsome : (g.opening? p.opening).isSome := by
        simpa [Vocabulary.opening?] using ⟨p, hp, rfl⟩
      obtain ⟨q, hq⟩ := Option.isSome_iff_exists.1 hsome
      have hopening := Vocabulary.opening_of_opening? hq
      rw [hq, (h q (List.mem_of_find?_eq_some hq) p hp).1 hopening]
    · refine List.find?_eq_none.2 fun q hq he => ?_
      exact (h p hp q hq).2 (eq_of_beq he).symm

/-- Of two pairs that are opened by a parenthesis, the second one encloses nothing. -/
theorem not_encloses_second_pair :
    let bracket : Token := .literal [']']
    let second : DelimiterPair := ⟨DelimiterPair.parentheses.opening, bracket⟩
    let g : Grammar := ⟨⟨.arithmetic, [.parentheses, second]⟩, by decide, by decide⟩
    let a : Token := .literal ['a']
    second ∈ g.delimiters ∧ g.parseTokens [a] = .ok (.value a) ∧
      g.parseTokens [second.opening, a, second.closing] = .error (.shunt ⟨"(a]",
        .nonMatchingDelimiters (some DelimiterPair.parentheses.opening) bracket⟩) ∧
      ¬∀ p ∈ g.delimiters, g.Encloses p := by
  intro bracket second g a
  have ha : g.parseTokens [a] = .ok (.value a) := by decide
  have hfault : g.parseTokens [second.opening, a, second.closing] = .error (.shunt ⟨"(a]",
      .nonMatchingDelimiters (some DelimiterPair.parentheses.opening) bracket⟩) := by decide
  refine ⟨by decide, ha, hfault, ?_⟩
  intro h
  have hok := h second (by decide) [a] (.value a) ha
  rw [List.singleton_append, hfault] at hok
  cases hok

end Grammar

end Fixity
