import Fixity.Proofs.Lines
import Fixity.Proofs.ReadingBack
import Fixity.Tree.SExpression

/-! Nested lists of parsed expressions, read back. Spaces and parentheses end every token, a list
starts unlike any value, and among the operators with one symbol the number of operands decides. -/
namespace Fixity

namespace Tree

/-- A tree of operators of the vocabulary and of values in which no symbol occurs. -/
inductive FreeOver (v : Vocabulary) : Tree → Prop where
  | value {x : Token} (h : v.symbolTable.Free x.chars) : FreeOver v (.value x)
  | operator {op : Operator} {cs : List Tree} (hop : op ∈ v.operators.operators)
      (hlen : cs.length = op.arity.argCount) (hcs : ∀ c ∈ cs, FreeOver v c) :
      FreeOver v (.node (.ofOperator op) cs)

end Tree

theorem Bracketing.Over.freeOver_tree {v : Vocabulary} {r : Bracketing} (h : r.Over v)
    (hfree : r.HasFreeValues v) : r.tree.FreeOver v := by
  induction r with
  | value x => exact .value (hfree x (List.mem_singleton.2 rfl))
  | before op r ih =>
    have hr := ih h.2 (hasFreeValues_before.1 hfree)
    exact .operator h.1.1 (by rw [h.1.2]; rfl) (by simpa using hr)
  | after op r ih =>
    have hr := ih h.2 (hasFreeValues_after.1 hfree)
    exact .operator h.1.1 (by rw [h.1.2]; rfl) (by simpa using hr)
  | binary op l r ihl ihr =>
    obtain ⟨hl, hr⟩ := hasFreeValues_binary.1 hfree
    exact .operator h.1.1 (by rw [h.1.2]; rfl) (by simpa using ⟨ihl h.2.1 hl, ihr h.2.2 hr⟩)
  | enclosed p r ih => exact ih h.2 hfree

theorem Grammar.freeOver_of_parse {g : Grammar} {input : String} {t : Tree}
    (h : g.parse input = .ok t) : t.FreeOver g.toVocabulary := by
  obtain ⟨r, ho, hfree, rfl⟩ := printable_of_parse h
  exact ho.freeOver_tree hfree

theorem Arity.eq_of_argCount_eq {a b : Arity} (ha : a ≠ .unary .after) (hb : b ≠ .unary .after)
    (h : a.argCount = b.argCount) : a = b := by
  rcases a with _ | (_ | _)
  · rcases b with _ | side
    · rfl
    · cases h
  · rcases b with _ | (_ | _)
    · cases h
    · rfl
    · exact absurd rfl hb
  · exact absurd rfl ha

/-- Two operators with one symbol take different numbers of operands. -/
theorem OperatorSet.eq_of_argCount_eq {set : OperatorSet} {a b : Operator}
    (ha : a ∈ set.operators) (hb : b ∈ set.operators) (hs : a.symbol = b.symbol)
    (hn : a.arity.argCount = b.arity.argCount) : a = b := by
  obtain h | ⟨hne, ha', hb'⟩ := eq_or_arity_ne ha hb hs
  · exact h
  · exact absurd (Arity.eq_of_argCount_eq ha' hb' hn) hne

/-- No parenthesis occurs in the token. -/
def Token.IsPlain (x : Token) : Prop := '(' ∉ x.chars ∧ ')' ∉ x.chars

/-- A token cannot go on with the text. -/
def EndsToken (text : List Char) : Prop := ∀ c ∈ text.head?, c = ' ' ∨ c = ')'

variable {v : Vocabulary} {t u : Tree} {x y : Token} {r r' : List Char}

theorem Vocabulary.HasPlainParentheses.isPlain_of_free (hv : v.HasPlainParentheses)
    (h : v.symbolTable.Free x.chars) : x.IsPlain := by
  have hchars : ∀ {y : Token}, v.isDelimiter y = true → ¬y.chars <:+: x.chars := by
    intro y hy
    exact SymbolTable.free_iff.1 h y.chars
      (mem_symbolTable_iff.2 fun hvalue => Bool.false_ne_true (hvalue.1.symm.trans hy))
  constructor
  · intro hmem
    exact hchars (hv.isDelimiter_iff.2 (.inl rfl)) ((List.singleton_infix_iff _ _).2 hmem)
  · intro hmem
    exact hchars (hv.isDelimiter_iff.2 (.inr rfl)) ((List.singleton_infix_iff _ _).2 hmem)

theorem Token.eq_of_append_eq_append (hx : x.IsPlain) (hy : y.IsPlain) (hr : EndsToken r)
    (hr' : EndsToken r') (h : x.chars ++ r = y.chars ++ r') : x = y ∧ r = r' := by
  have hchars : ∀ {x : Token}, x.IsPlain → ∀ c ∈ x.chars, ¬(c = ' ' ∨ c = ')') := by
    rintro x hx c hc (rfl | rfl)
    · exact absurd (x.not_isBlank _ hc) (by decide)
    · exact hx.2 hc
  obtain ⟨hxy, hrest⟩ := Fixity.eq_of_append_eq_append (hchars hx) (hchars hy)
    (fun c hc => not_not_intro (hr c hc)) (fun c hc => not_not_intro (hr' c hc)) h
  exact ⟨Token.ext hxy, hrest⟩

namespace Tree

/-- A nested list starts with a parenthesis, and a value does not. -/
theorem chars_append_ne_sexpressionChars_node (hx : x.IsPlain) (op : PostfixToken)
    (cs : List Tree) : x.chars ++ r ≠ (node op cs).sexpressionChars ++ r' := by
  intro h
  cases hchars : x.chars with
  | nil => exact x.chars_ne_nil hchars
  | cons c rest =>
    simp only [hchars, sexpressionChars, List.cons_append, List.cons.injEq] at h
    exact hx.1 (by simp [hchars, h.1])

theorem endsToken_sexpressionOperands (ts : List Tree) (r : List Char) :
    EndsToken (sexpressionOperands ts ++ ')' :: r) := by
  cases ts <;> simp [EndsToken, sexpressionOperands]

theorem sexpressionOperands_append_injective {ts us : List Tree}
    (ih : ∀ t ∈ ts, ∀ {u : Tree} {r r' : List Char}, u.FreeOver v → EndsToken r → EndsToken r' →
      t.sexpressionChars ++ r = u.sexpressionChars ++ r' → t = u ∧ r = r')
    (hus : ∀ u ∈ us, u.FreeOver v)
    (h : sexpressionOperands ts ++ ')' :: r = sexpressionOperands us ++ ')' :: r') :
    ts = us ∧ r = r' := by
  induction ts generalizing us with
  | nil =>
    cases us with
    | nil => exact ⟨rfl, (List.cons.inj h).2⟩
    | cons u us => simp [sexpressionOperands] at h
  | cons t ts ihs =>
    cases us with
    | nil => simp [sexpressionOperands] at h
    | cons u us =>
      obtain ⟨ht, hts⟩ := List.forall_mem_cons.1 ih
      obtain ⟨hu, hus'⟩ := List.forall_mem_cons.1 hus
      simp only [sexpressionOperands, List.cons_append, List.append_assoc, List.cons.injEq,
        true_and] at h
      obtain ⟨rfl, hrest⟩ := ht hu (endsToken_sexpressionOperands ts r)
        (endsToken_sexpressionOperands us r') h
      obtain ⟨rfl, hr⟩ := ihs hts hus' hrest
      exact ⟨rfl, hr⟩

/-- Where one tree is written, no other one is, and it ends at one place only. The induction needs
the texts after the lists, as an operand is followed by later ones. -/
theorem FreeOver.sexpressionChars_append_injective (hv : v.HasPlainParentheses)
    (ht : t.FreeOver v) (hu : u.FreeOver v) (hr : EndsToken r) (hr' : EndsToken r')
    (h : t.sexpressionChars ++ r = u.sexpressionChars ++ r') : t = u ∧ r = r' := by
  induction ht generalizing u r r' with
  | @value x hx =>
    have hxn := hv.isPlain_of_free hx
    cases hu with
    | @value y hy =>
      have hyn := hv.isPlain_of_free hy
      obtain ⟨rfl, hrest⟩ := Token.eq_of_append_eq_append hxn hyn hr hr' h
      exact ⟨rfl, hrest⟩
    | operator => exact absurd h (chars_append_ne_sexpressionChars_node hxn _ _)
  | @operator op cs hop hlen hcs ih =>
    cases hu with
    | value hy =>
      have hyn := hv.isPlain_of_free hy
      exact absurd h.symm (chars_append_ne_sexpressionChars_node hyn _ _)
    | @operator op' ds hop' hlen' hds =>
      simp only [sexpressionChars, PostfixToken.label, PostfixToken.symbols_ofOperator,
        joinTokens_cons, joinTokens_nil, List.cons_append, List.append_assoc, List.cons.injEq,
        true_and, List.nil_append] at h
      obtain ⟨hsymbol, hrest⟩ := Token.eq_of_append_eq_append (hv.notMem_symbol op hop)
        (hv.notMem_symbol op' hop') (endsToken_sexpressionOperands cs r)
        (endsToken_sexpressionOperands ds r') h
      obtain ⟨rfl, hr⟩ := sexpressionOperands_append_injective
        (fun c hc u r r' hu hr hr' h => ih c hc hu hr hr' h) hds hrest
      obtain rfl := OperatorSet.eq_of_argCount_eq hop hop' hsymbol (hlen.symm.trans hlen')
      exact ⟨rfl, hr⟩

end Tree

/-- In a grammar with plain parentheses, different trees have different nested lists: the list shows
which operators the tree has, with their precedences and associativities. -/
theorem Grammar.sexpression_identifies_tree (g : Grammar) (hg : g.HasPlainParentheses)
    (s s' : String) (t t' : Tree) (h : g.parse s = .ok t) (h' : g.parse s' = .ok t')
    (he : t.sexpression = t'.sexpression) : t = t' := by
  have hends : EndsToken [] := nofun
  have hchars := congrArg String.toList he
  rw [Tree.toList_sexpression, Tree.toList_sexpression] at hchars
  exact ((freeOver_of_parse h).sexpressionChars_append_injective hg (freeOver_of_parse h')
    hends hends (congrArg (· ++ []) hchars)).1

/-- In `(- (- a) b)` the outer sign is an operator with two operands. -/
theorem Grammar.sexpression_identifies_difference :
    let a : Tree := .value (.literal ['a'])
    let b : Tree := .value (.literal ['b'])
    let t : Tree := .node (.ofOperator .subtract) [.node (.ofOperator .negative) [a], b]
    arithmetic.HasPlainParentheses ∧ arithmetic.parse "-a - b" = .ok t ∧
      arithmetic.parse "((-a)-(b))" = .ok t ∧ t.sexpression = "(- (- a) b)" ∧
      ∀ s t', arithmetic.parse s = .ok t' → t'.sexpression = "(- (- a) b)" → t' = t := by
  intro a b t
  have hparse : arithmetic.parse "-a - b" = .ok t := by decide +kernel
  have hlist : t.sexpression = "(- (- a) b)" := by decide +kernel
  have hplain : arithmetic.HasPlainParentheses := ⟨rfl, by decide⟩
  refine ⟨hplain, hparse, by decide +kernel, hlist, fun s t' h he => ?_⟩
  exact sexpression_identifies_tree arithmetic hplain s "-a - b" t' t h hparse (he.trans hlist.symm)

end Fixity
