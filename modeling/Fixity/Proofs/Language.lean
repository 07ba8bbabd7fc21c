import Fixity.Grammar.Predefined
import Fixity.Proofs.Assembly.Completeness
import Fixity.Proofs.Parsing

/-! The language of a grammar. Which sequences of tokens are expressions depends on the symbols
alone: operands are joined by binary operators, and each may have prefix operators before and
postfix operators after it, whatever their precedences. -/
namespace Fixity

namespace Grammar

/-- What a sequence of tokens can be derived as. -/
inductive Phrase where
  | expression
  | operand
  | primary
  deriving DecidableEq, Repr

/-- The derivations of phrases, with what each value and each symbol in them stands for. -/
inductive Derives (g : Grammar) : Phrase → List Token → List PostfixToken → Prop where
  | value {t : Token} (h : g.IsValue t) : Derives g .primary [t] [.value t]
  | enclosed {p : DelimiterPair} {ts : List Token} {es : List PostfixToken}
      (h : g.IsEffective p) (d : Derives g .expression ts es) :
      Derives g .primary (p.opening :: (ts ++ [p.closing])) es
  | operand (before after : List Operator) {ts : List Token} {es : List PostfixToken}
      (hb : ∀ op ∈ before, op ∈ g.operators.operators ∧ op.arity = .unary .before)
      (d : Derives g .primary ts es)
      (ha : ∀ op ∈ after, op ∈ g.operators.operators ∧ op.arity = .unary .after) :
      Derives g .operand (before.map Operator.symbol ++ ts ++ after.map Operator.symbol)
        (before.map .ofOperator ++ es ++ after.map .ofOperator)
  | single {ts : List Token} {es : List PostfixToken} (d : Derives g .operand ts es) :
      Derives g .expression ts es
  | binary {op : Operator} {ts us : List Token} {es fs : List PostfixToken}
      (dl : Derives g .expression ts es)
      (hop : op ∈ g.operators.operators ∧ op.arity = .binary) (dr : Derives g .operand us fs) :
      Derives g .expression (ts ++ op.symbol :: us) (es ++ .ofOperator op :: fs)

variable {g : Grammar}

namespace Derives

variable {ts us : List Token} {es fs : List PostfixToken} {op : Operator}

theorem expression_of_primary (d : Derives g .primary ts es) : Derives g .expression ts es := by
  simpa using single (operand [] [] (by simp) d (by simp))

/-- A prefix operator belongs to the first operand. -/
theorem cons_before (hop : op ∈ g.operators.operators ∧ op.arity = .unary .before)
    (d : Derives g .expression ts es) :
    Derives g .expression (op.symbol :: ts) (.ofOperator op :: es) := by
  generalize hk : Phrase.expression = k at d
  induction d with
  | single d =>
    cases d with
    | operand before after hb d ha =>
      exact single (operand (op :: before) after (List.forall_mem_cons.2 ⟨hop, hb⟩) d ha)
  | binary dl hop' dr ih => exact binary (ih hk) hop' dr
  | _ => cases hk

/-- A postfix operator belongs to the last operand. -/
theorem append_after (hop : op ∈ g.operators.operators ∧ op.arity = .unary .after)
    (d : Derives g .expression ts es) :
    Derives g .expression (ts ++ [op.symbol]) (es ++ [.ofOperator op]) := by
  have hlast : ∀ {us fs}, Derives g .operand us fs →
      Derives g .operand (us ++ [op.symbol]) (fs ++ [.ofOperator op]) := by
    intro us fs d
    cases d with
    | operand before after hb d ha =>
      have hd := operand before (after ++ [op]) hb d (by
        simpa [or_imp, forall_and] using ⟨⟨fun x hx => (ha x hx).1, hop.1⟩,
          fun x hx => (ha x hx).2, hop.2⟩)
      simpa using hd
  cases d with
  | single d => exact single (hlast d)
  | binary dl hop' dr => simpa using binary dl hop' (hlast dr)

theorem append_binary (hop : op ∈ g.operators.operators ∧ op.arity = .binary)
    (dl : Derives g .expression ts es) (dr : Derives g .expression us fs) :
    Derives g .expression (ts ++ op.symbol :: us) (es ++ .ofOperator op :: fs) := by
  generalize hk : Phrase.expression = k at dr
  induction dr with
  | single d => exact binary dl hop d
  | binary dl' hop' dr ih => simpa using binary (ih hk) hop' dr
  | _ => cases hk

end Derives

/-- Every way to read some tokens is a derivation of them. -/
theorem derives_of_over {r : Bracketing} (h : r.Over g.toVocabulary) :
    Derives g .expression r.tokens r.elements := by
  induction r with
  | value t => exact .expression_of_primary (.value h)
  | before op r ih => exact .cons_before h.1 (ih h.2)
  | after op r ih => exact .append_after h.1 (ih h.2)
  | binary op l r ihl ihr => exact .append_binary h.1 (ihl h.2.1) (ihr h.2.2)
  | enclosed p r ih => exact .expression_of_primary (.enclosed h.1 (ih h.2))

end Grammar

namespace Assembly

/-- The pairs whose closing delimiter has not been read, the innermost first. -/
def openPairs (fs : List Frame) : List DelimiterPair := fs.filterMap fun
  | .opened p => some p
  | _ => none

theorem openPairs_collapse {p : Frame → Bool} (hp : ∀ f, p f = true → f.isOperator = true)
    {r r' : Bracketing} {fs fs' : List Frame} (h : collapse p r fs = (r', fs')) :
    openPairs fs' = openPairs fs := by
  induction fs generalizing r with
  | nil =>
    cases h
    rfl
  | cons f fs ih =>
    rw [collapse] at h
    split at h
    · rename_i hf
      have hop := hp f hf
      rw [ih h]
      cases f with
      | opened => cases hop
      | _ => rfl
    · cases h
      rfl

/-- Reading the tokens adds the elements and leaves no other pairs open than before. -/
structure Adds (v : Vocabulary) (a : Assembly) (ts : List Token) (es : List PostfixToken)
    (b : Assembly) : Prop where
  steps : a.steps v ts = some b
  openPairs : openPairs b.frames = openPairs a.frames
  elements : b.elements = a.elements ++ es

variable {v : Vocabulary} {g : Grammar}

theorem Adds.trans {a b c : Assembly} {ts us : List Token} {es fs : List PostfixToken}
    (h : Adds v a ts es b) (h' : Adds v b us fs c) : Adds v a (ts ++ us) (es ++ fs) c where
  steps := steps_trans h.steps h'.steps
  openPairs := h'.openPairs.trans h.openPairs
  elements := by rw [h'.elements, h.elements, List.append_assoc]

theorem adds_value {t : Token} (h : v.IsValue t) (fs : List Frame) :
    Adds v ⟨fs, none⟩ [t] [.value t] ⟨fs, some (.value t)⟩ where
  steps := (Step.value fs h).steps
  openPairs := rfl
  elements := rfl

theorem adds_before {op : Operator}
    (h : op ∈ g.operators.operators ∧ op.arity = .unary .before) (fs : List Frame) :
    Adds g.toVocabulary ⟨fs, none⟩ [op.symbol] [.ofOperator op] ⟨.before op :: fs, none⟩ where
  steps := (Step.before fs h.1 h.2 (Grammar.isDelimiter_symbol h.1)).steps
  openPairs := rfl
  elements := by simp [elements, written, Frame.elements]

theorem adds_after {op : Operator}
    (h : op ∈ g.operators.operators ∧ op.arity = .unary .after) (fs : List Frame) (r : Bracketing) :
    ∃ fs' r', Adds g.toVocabulary ⟨fs, some r⟩ [op.symbol] [.ofOperator op] ⟨fs', some r'⟩ := by
  rcases hcol : collapse (Frame.appliesBefore op) r fs with ⟨r', fs'⟩
  refine ⟨fs', .after op r', (Step.after h.1 h.2 (Grammar.isDelimiter_symbol h.1) hcol).steps,
    openPairs_collapse (fun _ => Frame.isOperator_of_appliesBefore) hcol, ?_⟩
  rw [← elements_collapse hcol]
  simp [elements, written, Bracketing.elements]

theorem adds_binary {op : Operator}
    (h : op ∈ g.operators.operators ∧ op.arity = .binary) (fs : List Frame) (r : Bracketing) :
    ∃ fs', Adds g.toVocabulary ⟨fs, some r⟩ [op.symbol] [.ofOperator op] ⟨fs', none⟩ := by
  rcases hcol : collapse (Frame.appliesBefore op) r fs with ⟨r', fs'⟩
  have hpairs : openPairs fs' = openPairs fs :=
    openPairs_collapse (fun _ => Frame.isOperator_of_appliesBefore) hcol
  refine ⟨.binary op r' :: fs', (Step.binary h.1 h.2 (Grammar.isDelimiter_symbol h.1) hcol).steps,
    hpairs, ?_⟩
  rw [← elements_collapse hcol]
  simp [elements, written, Frame.elements]

/-- A closing delimiter finds the pair that was opened last. -/
theorem adds_enclosed {p : DelimiterPair} (h : v.IsEffective p) {fs fs' : List Frame}
    {r : Bracketing} {ts : List Token} {es : List PostfixToken}
    (ha : Adds v ⟨.opened p :: fs, none⟩ ts es ⟨fs', some r⟩) :
    ∃ fs' r', Adds v ⟨fs, none⟩ (p.opening :: (ts ++ [p.closing])) es ⟨fs', some r'⟩ := by
  rcases hcol : collapse Frame.isOperator r fs' with ⟨r', fs''⟩
  have hpairs := (openPairs_collapse (fun _ h => h) hcol).trans ha.openPairs
  obtain rfl | ⟨q, rest, rfl⟩ := collapse_isOperator_eq hcol
  · cases hpairs
  · obtain ⟨rfl, hrest⟩ := List.cons.inj hpairs
    have hopen := (Step.opening fs h.1).steps
    have hclose := (Step.closing h.2 h.isClosing hcol).steps
    refine ⟨rest, .enclosed q r', steps_trans hopen (steps_trans ha.steps hclose), hrest, ?_⟩
    have he := (elements_collapse hcol).trans ha.elements
    simpa [elements, written, Frame.elements, Bracketing.elements] using he

theorem adds_befores {ops : List Operator}
    (h : ∀ op ∈ ops, op ∈ g.operators.operators ∧ op.arity = .unary .before) (fs : List Frame) :
    ∃ fs', Adds g.toVocabulary ⟨fs, none⟩ (ops.map Operator.symbol) (ops.map .ofOperator)
      ⟨fs', none⟩ := by
  induction ops generalizing fs with
  | nil => exact ⟨fs, rfl, rfl, by simp⟩
  | cons op ops ih =>
    obtain ⟨hop, hops⟩ := List.forall_mem_cons.1 h
    obtain ⟨fs', ha⟩ := ih hops (.before op :: fs)
    exact ⟨fs', (adds_before hop fs).trans ha⟩

theorem adds_afters {ops : List Operator}
    (h : ∀ op ∈ ops, op ∈ g.operators.operators ∧ op.arity = .unary .after) (fs : List Frame)
    (r : Bracketing) : ∃ fs' r', Adds g.toVocabulary ⟨fs, some r⟩ (ops.map Operator.symbol)
      (ops.map .ofOperator) ⟨fs', some r'⟩ := by
  induction ops generalizing fs r with
  | nil => exact ⟨fs, r, rfl, rfl, by simp⟩
  | cons op ops ih =>
    obtain ⟨hop, hops⟩ := List.forall_mem_cons.1 h
    obtain ⟨fs₁, r₁, ha⟩ := adds_after hop fs r
    obtain ⟨fs₂, r₂, ha'⟩ := ih hops fs₁ r₁
    exact ⟨fs₂, r₂, ha.trans ha'⟩

/-- What can be derived is read without a fault, whatever has been read before. -/
theorem adds_of_derives {k : Grammar.Phrase} {ts : List Token} {es : List PostfixToken}
    (d : Grammar.Derives g k ts es) (fs : List Frame) :
    ∃ fs' r, Adds g.toVocabulary ⟨fs, none⟩ ts es ⟨fs', some r⟩ := by
  induction d generalizing fs with
  | value h => exact ⟨fs, _, adds_value h fs⟩
  | @enclosed p ts es h d ih =>
    obtain ⟨fs', r, ha⟩ := ih (.opened p :: fs)
    exact adds_enclosed h ha
  | operand _ _ hb d ha ih =>
    obtain ⟨fs₁, h₁⟩ := adds_befores hb fs
    obtain ⟨fs₂, r₂, h₂⟩ := ih fs₁
    obtain ⟨fs₃, r₃, h₃⟩ := adds_afters ha fs₂ r₂
    exact ⟨fs₃, r₃, (h₁.trans h₂).trans h₃⟩
  | single d ih => exact ih fs
  | binary dl hop dr ihl ihr =>
    obtain ⟨fs₁, r₁, h₁⟩ := ihl fs
    obtain ⟨fs₂, h₂⟩ := adds_binary hop fs₁ r₁
    obtain ⟨fs₃, r₃, h₃⟩ := ihr fs₂
    exact ⟨fs₃, r₃, h₁.trans (h₂.trans h₃)⟩

end Assembly

namespace Grammar

variable {g : Grammar} {ts : List Token} {es : List PostfixToken}

theorem Derives.exists_read? (d : Derives g .expression ts es) :
    ∃ r, g.read? ts = some r ∧ r.elements = es := by
  obtain ⟨fs, r₀, ha⟩ := Assembly.adds_of_derives d []
  rcases hcol : Assembly.collapse Frame.isOperator r₀ fs with ⟨r, fs'⟩
  have hpairs := (Assembly.openPairs_collapse (fun _ h => h) hcol).trans ha.openPairs
  obtain rfl | ⟨q, rest, rfl⟩ := Assembly.collapse_isOperator_eq hcol
  · refine ⟨r, ?_, (Assembly.elements_collapse hcol).trans ha.elements⟩
    rw [Vocabulary.read?, Assembly.initial, ha.steps, Option.bind_some,
      Assembly.finish_eq_some_iff]
    exact ⟨r₀, rfl, hcol⟩
  · cases hpairs

/-- The values and operators of an expression are its tokens other than delimiters. -/
theorem Derives.symbols {k : Phrase} (d : Derives g k ts es) :
    es.map PostfixToken.symbols = (ts.filter fun t => !g.isDelimiter t).map fun t => [t] := by
  have hop : ∀ {op : Operator}, op ∈ g.operators.operators → g.isDelimiter op.symbol = false :=
    isDelimiter_symbol
  have hops : ∀ {side : Side} {ops : List Operator},
      (∀ op ∈ ops, op ∈ g.operators.operators ∧ op.arity = .unary side) →
      (ops.map Operator.symbol).filter (fun t => !g.isDelimiter t) = ops.map Operator.symbol := by
    intro side ops h
    simp only [List.filter_eq_self, List.forall_mem_map]
    intro op hm
    simp [hop (h op hm).1]
  induction d with
  | value h => simp [h.1]
  | @enclosed p ts es h d ih =>
    have ho : g.isDelimiter p.opening = true := by simp [Vocabulary.isDelimiter, h.1]
    have hc : g.isDelimiter p.closing = true := by simp [Vocabulary.isDelimiter, h.isClosing]
    simp [ho, hc, ih]
  | operand _ _ hb d ha ih => simp [ih, hops hb, hops ha, Function.comp_def]
  | single d ih => exact ih
  | binary dl h dr ihl ihr => simp [ihl, ihr, hop h.1]

/-- Just the expressions have a parse, and the tree has each symbol in the role that a derivation
gives it. -/
theorem parseTokens_succeeds_iff_derives (g : Grammar) (ts : List Token) :
    ((∃ t, g.parseTokens ts = .ok t) ↔ ∃ es, Derives g .expression ts es) ∧
    ∀ es, Derives g .expression ts es →
      es.map PostfixToken.symbols = ((ts.filter fun t => !g.isDelimiter t).map fun t => [t]) ∧
      ∀ t, g.parseTokens ts = .ok t → t.inOrder = es := by
  simp only [Vocabulary.parseTokens, Vocabulary.parseFrom_eq_ok_iff_read?]
  refine ⟨⟨?_, ?_⟩, ?_⟩
  · rintro ⟨_, r, hr, rfl⟩
    obtain ⟨⟨ho, rfl⟩, -⟩ := Vocabulary.reads_of_read? hr
    exact ⟨r.elements, derives_of_over ho⟩
  · rintro ⟨es, d⟩
    obtain ⟨r, hr, -⟩ := d.exists_read?
    exact ⟨r.tree, r, hr, rfl⟩
  · intro es d
    refine ⟨d.symbols, ?_⟩
    rintro _ ⟨r, hr, rfl⟩
    obtain ⟨r', hr', he⟩ := d.exists_read?
    cases hr.symm.trans hr'
    obtain ⟨⟨ho, -⟩, -⟩ := Vocabulary.reads_of_read? hr
    rw [ho.inOrder_tree, he]

/-- In `-(a-b)--c` the first and the last sign are prefix operators, the others binary. -/
theorem inOrder_of_difference_of_negatives :
    let a : Token := .literal ['a']
    let b : Token := .literal ['b']
    let c : Token := .literal ['c']
    let minus : Token := .literal ['-']
    let ts : List Token := [minus, DelimiterPair.parentheses.opening, a, minus, b,
      DelimiterPair.parentheses.closing, minus, minus, c]
    (∃ t, arithmetic.parseTokens ts = .ok t) ∧
      ∀ t, arithmetic.parseTokens ts = .ok t → t.inOrder =
        [.ofOperator .negative, .value a, .ofOperator .subtract, .value b, .ofOperator .subtract,
          .ofOperator .negative, .value c] := by
  intro a b c minus ts
  let r : Bracketing := .binary .subtract
    (.before .negative (.enclosed .parentheses (.binary .subtract (.value a) (.value b))))
    (.before .negative (.value c))
  have hd : Derives arithmetic .expression r.tokens r.elements := derives_of_over (by decide)
  obtain ⟨hiff, hroles⟩ := parseTokens_succeeds_iff_derives arithmetic ts
  obtain ⟨-, hinOrder⟩ := hroles _ hd
  exact ⟨hiff.2 ⟨_, hd⟩, hinOrder⟩

end Grammar

end Fixity
