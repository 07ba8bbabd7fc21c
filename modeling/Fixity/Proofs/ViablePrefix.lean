import Fixity.Grammar.Predefined
import Fixity.Proofs.Language
import Fixity.Proofs.Transitions
import Mathlib.Data.Fintype.EquivFin

/-! Faults at the earliest token. Whatever has been read without a fault can be completed: with a
value if an operand is missing, and with the closing delimiters of the pairs that are open. So the
token at which reading stops is the first one after which no way to go on is left. -/
namespace Fixity

namespace Token

instance : Infinite Token := by
  let ofLength (n : Nat) : Token :=
    ⟨List.replicate (n + 1) 'a', by simp, fun c hc => by rw [List.eq_of_mem_replicate hc]; decide⟩
  refine .of_injective ofLength ?_
  intro m n h
  have hlength := congrArg (fun t => t.chars.length) h
  simpa [ofLength] using hlength

end Token

namespace Vocabulary

variable {v : Vocabulary}

/-- Only finitely many tokens are symbols. -/
theorem exists_isValue (v : Vocabulary) : ∃ t, v.IsValue t := by
  obtain ⟨t, ht⟩ := Infinite.exists_notMem_finset v.symbols.toFinset
  refine ⟨t, ?_⟩
  rw [List.mem_toFinset] at ht
  by_contra hv
  rw [← mem_symbolTable_iff, symbolTable, SymbolTable.mem_symbols_ofList] at hv
  obtain ⟨u, hu, he⟩ := List.mem_map.1 hv.1
  exact ht (Token.ext he ▸ hu)

/-- The pairs that some tokens leave open, the innermost first: a closing delimiter closes the pair
that was opened last. -/
def unclosed (v : Vocabulary) (ts : List Token) : List DelimiterPair :=
  ts.foldl (fun pairs t =>
    match v.opening? t with
    | some pair => pair :: pairs
    | none => if v.isClosing t then pairs.tail else pairs) []

theorem unclosed_append_singleton (ts : List Token) (t : Token) :
    v.unclosed (ts ++ [t]) =
      match v.opening? t with
      | some pair => pair :: v.unclosed ts
      | none => if v.isClosing t then (v.unclosed ts).tail else v.unclosed ts := by
  rw [unclosed, List.foldl_append]
  rfl

theorem unclosed_append_of_not_isDelimiter (ts : List Token) {t : Token}
    (h : v.isDelimiter t = false) : v.unclosed (ts ++ [t]) = v.unclosed ts := by
  obtain ⟨ho, hc⟩ := isDelimiter_eq_false_iff.1 h
  simp [unclosed_append_singleton, ho, hc]

end Vocabulary

namespace Assembly

open Shunting

variable {v : Vocabulary} {a : Assembly} {ts : List Token}

/-- The open frames are those of the pairs that the tokens leave open. -/
theorem unclosed_of_steps (h : initial.steps v ts = some a) :
    v.unclosed ts = openPairs a.frames := by
  refine steps_induction (P := fun ts a => v.unclosed ts = openPairs a.frames) h rfl ?_
  intro ts a t a' ha hs
  cases hs with
  | opening fs h =>
    rw [v.unclosed_append_singleton, h, ha]
    rfl
  | closing ho hc h =>
    have hpairs := openPairs_collapse (fun _ h => h) h
    rw [v.unclosed_append_singleton, ho, if_pos hc, ha, ← hpairs]
    rfl
  | before fs hop hb hd =>
    rw [v.unclosed_append_of_not_isDelimiter ts hd, ha]
    rfl
  | after hop hb hd h =>
    have hpairs := openPairs_collapse (fun _ => Frame.isOperator_of_appliesBefore) h
    rw [v.unclosed_append_of_not_isDelimiter ts hd, ha, hpairs]
  | binary hop hb hd h =>
    have hpairs := openPairs_collapse (fun _ => Frame.isOperator_of_appliesBefore) h
    rw [v.unclosed_append_of_not_isDelimiter ts hd, ha, ← hpairs]
    rfl
  | value fs h =>
    rw [v.unclosed_append_of_not_isDelimiter ts h.1, ha]

theorem Represents.pairs_stack {s : State} (h : Represents a s) :
    s.stack.filterMap Entry.pair? = openPairs a.frames := by
  have hframes : ∀ fs : List Frame, (fs.map Frame.entry).filterMap Entry.pair? = openPairs fs := by
    intro fs
    rw [List.filterMap_map, openPairs]
    congr 1
    funext f
    cases f <;> rfl
  cases h with
  | waiting fs => exact hframes fs
  | @complete fs r =>
    have hwaiting : (r.waiting.map Entry.operator).filterMap Entry.pair? = [] := by
      simp [List.filterMap_eq_nil_iff, Entry.pair?]
    rw [List.filterMap_append, hwaiting, hframes, List.nil_append]

/-- With an operand at hand, closing all open pairs from the inside completes the expression. -/
theorem exists_completion_of_operand
    (hv : ∀ p ∈ v.delimiters, ∀ q ∈ v.delimiters, p.opening ≠ q.closing) {fs : List Frame}
    {r : Bracketing} (ha : Sound v ⟨fs, some r⟩) :
    ∃ us b r', steps v ⟨fs, some r⟩ us = some b ∧ b.finish = some r' := by
  induction hp : openPairs fs generalizing fs r with
  | nil =>
    rcases hcol : collapse Frame.isOperator r fs with ⟨r', fs'⟩
    have hpairs := openPairs_collapse (fun _ h => h) hcol
    obtain rfl | ⟨p, rest, rfl⟩ := collapse_isOperator_eq hcol
    · exact ⟨[], _, r', rfl, finish_eq_some_iff.2 ⟨r, rfl, hcol⟩⟩
    · cases hpairs.trans hp
  | cons p ps ih =>
    rcases hcol : collapse Frame.isOperator r fs with ⟨r', fs'⟩
    have hpairs := (openPairs_collapse (fun _ h => h) hcol).trans hp
    obtain rfl | ⟨q, rest, rfl⟩ := collapse_isOperator_eq hcol
    · cases hpairs
    · obtain ⟨rfl, hrest⟩ := List.cons.inj hpairs
      have hsound := (ha.operand r rfl).collapse (p := Frame.isOperator) (fun _ h => h) ha.frames
      rw [hcol] at hsound
      have hmem : q ∈ v.delimiters := List.mem_of_find?_eq_some hsound.1.1
      have ho : v.opening? q.closing = none := by
        rw [Vocabulary.opening?, List.find?_eq_none]
        simpa using fun p hp => hv p hp q hmem
      have hc : v.isClosing q.closing = true := List.any_eq_true.2 ⟨q, hmem, by simp⟩
      have hstep : Step v ⟨fs, some r⟩ q.closing ⟨rest, some (.enclosed q r')⟩ :=
        .closing ho hc hcol
      obtain ⟨us, b, r'', hus, hb⟩ := ih (ha.step hstep) hrest
      exact ⟨q.closing :: us, b, r'', steps_trans hstep.steps hus, hb⟩

theorem exists_completion
    (hv : ∀ p ∈ v.delimiters, ∀ q ∈ v.delimiters, p.opening ≠ q.closing) (ha : Sound v a) :
    ∃ us b r, a.steps v us = some b ∧ b.finish = some r := by
  obtain ⟨fs, _ | r⟩ := a
  · obtain ⟨t, ht⟩ := v.exists_isValue
    have hstep := Step.value fs ht
    obtain ⟨us, b, r, hus, hb⟩ := exists_completion_of_operand hv (ha.step hstep)
    exact ⟨t :: us, b, r, steps_trans hstep.steps hus, hb⟩
  · exact exists_completion_of_operand hv ha

end Assembly

namespace Grammar

open Shunting

variable {g : Grammar} {ts : List Token}

/-- Tokens can be added so that all together are an expression. -/
def Viable (g : Grammar) (ts : List Token) : Prop := ∃ us t, g.parseTokens (ts ++ us) = .ok t

/-- The tokens before this position can be completed to an expression, but no more with the one at
it. -/
def Offends (g : Grammar) (ts : List Token) (position : Nat) : Prop :=
  position < ts.length ∧ g.Viable (ts.take position) ∧ ¬g.Viable (ts.take (position + 1))

/-- Just what is read without a fault can be completed. -/
theorem viable_iff (hg : ∀ p ∈ g.delimiters, ∀ q ∈ g.delimiters, p.opening ≠ q.closing) :
    g.Viable ts ↔ ∃ s, State.initial.steps g.toVocabulary 0 ts = .ok s := by
  constructor
  · rintro ⟨us, t, h⟩
    obtain ⟨r, hr, -⟩ := Vocabulary.parseFrom_eq_ok_iff_read?.1 h
    obtain ⟨b, hb, -⟩ := Option.bind_eq_some_iff.1 hr
    rw [Assembly.steps_append] at hb
    obtain ⟨a, ha, -⟩ := Option.bind_eq_some_iff.1 hb
    obtain ⟨s, hs, -⟩ := Assembly.exists_represents_of_assembly ha
    exact ⟨s, hs⟩
  · rintro ⟨s, hs⟩
    obtain ⟨a, ha, -⟩ := Assembly.exists_represents_of_state hs
    obtain ⟨us, b, r, hus, hb⟩ := Assembly.exists_completion hg (Assembly.sound_of_steps ha).1
    refine ⟨us, r.tree, Vocabulary.parseFrom_eq_ok_iff_read?.2 ⟨r, ?_, rfl⟩⟩
    rw [Vocabulary.read?, Assembly.steps_trans ha hus, Option.bind_some, hb]

theorem Viable.of_append {us : List Token} (h : g.Viable (ts ++ us)) : g.Viable ts := by
  obtain ⟨ws, t, ht⟩ := h
  exact ⟨us ++ ws, t, by rwa [← List.append_assoc]⟩

theorem viable_nil (g : Grammar) : g.Viable [] := by
  obtain ⟨t, ht⟩ := g.exists_isValue
  have hread : g.read? [t] = some (.value t) := read?_tokens (r := .value t) ht trivial
  exact ⟨[t], .value t, Vocabulary.parseFrom_eq_ok_iff_read?.2 ⟨.value t, hread, rfl⟩⟩

/-- Where no token offends, all of them can be completed. -/
theorem viable_iff_not_offends : g.Viable ts ↔ ∀ position, ¬g.Offends ts position := by
  constructor
  · rintro h position ⟨-, -, hn⟩
    rw [← List.take_append_drop (position + 1) ts] at h
    exact hn h.of_append
  · intro h
    have htake : ∀ n ≤ ts.length, g.Viable (ts.take n) := by
      intro n hn
      induction n with
      | zero => exact g.viable_nil
      | succ n ih =>
        by_contra hne
        exact h n ⟨hn, ih (Nat.le_of_succ_le hn), hne⟩
    simpa using htake ts.length (Nat.le_refl _)

/-- Reading stops at the token that offends. -/
theorem offends_of_steps_eq_error
    (hg : ∀ p ∈ g.delimiters, ∀ q ∈ g.delimiters, p.opening ≠ q.closing) {fault : ShuntFault}
    (h : State.initial.steps g.toVocabulary 0 ts = .error fault) :
    ∃ position, g.Offends ts position ∧ fault.offender? = ts[position]? ∧
      ∀ n ∈ fault.position?, n = position := by
  obtain ⟨earlier, t, later, s, rfl, hs, ht⟩ := State.exists_of_steps_eq_error h
  have hnames := State.names_of_step ht
  have hviable : g.Viable earlier := (viable_iff hg).2 ⟨s, hs⟩
  have hstuck : ¬g.Viable (earlier ++ [t]) := by
    rw [viable_iff hg]
    rintro ⟨s', hs'⟩
    obtain ⟨s₁, hs₁, ht'⟩ := State.steps_append_singleton_eq_ok_iff.1 hs'
    cases hs.symm.trans hs₁
    cases ht.symm.trans ht'
  refine ⟨earlier.length, ⟨by simp, by simpa using hviable, ?_⟩, ?_, ?_⟩
  · rwa [List.take_length_add_append, List.take_succ_cons, List.take_zero]
  · rw [hnames.offender]
    simp
  · simpa using hnames.position

/-- The innermost of the open pairs is reported, once all tokens have been read. -/
theorem run_eq_unclosedDelimiter_iff {v : Vocabulary} {d : Token} :
    run v ts = .error (.unclosedDelimiter d) ↔ (∃ s, State.initial.steps v 0 ts = .ok s) ∧
      ∃ p, (v.unclosed ts).head? = some p ∧ p.opening = d := by
  have hflush : ∀ s, State.initial.steps v 0 ts = .ok s →
      (flush s.output s.stack = .error (.unclosedDelimiter d) ↔
        ∃ p, (v.unclosed ts).head? = some p ∧ p.opening = d) := by
    intro s hs
    obtain ⟨a, ha, hrep⟩ := Assembly.exists_represents_of_state hs
    rw [flush_eq_error_iff, hrep.pairs_stack, Assembly.unclosed_of_steps ha]
    simp only [ShuntFault.unclosedDelimiter.injEq, eq_comm]
  rw [run_eq_error_iff]
  constructor
  · rintro (hs | ⟨s, hs, hf⟩)
    · obtain ⟨earlier, t, later, s, -, -, ht⟩ := State.exists_of_steps_eq_error hs
      cases (State.names_of_step ht).offender
    · exact ⟨⟨s, hs⟩, (hflush s hs).1 hf⟩
  · rintro ⟨⟨s, hs⟩, hd⟩
    exact .inr ⟨s, hs, (hflush s hs).2 hd⟩

/-- A fault other than an open pair is found at the token that offends. Where no token offends, all
of them can be completed, and a pair is reported as open just if one is. It is the innermost one. -/
theorem shuntTokens_fails_at_offending_token (g : Grammar)
    (hg : ∀ p ∈ g.delimiters, ∀ q ∈ g.delimiters, p.opening ≠ q.closing) (ts : List Token) :
    (∀ e, g.shuntTokens ts = .error e → (∀ d, e.fault ≠ .unclosedDelimiter d) →
      ∃ position, g.Offends ts position ∧ e.fault.offender? = ts[position]? ∧
        ∀ n ∈ e.fault.position?, n = position) ∧
    (∀ sequence, g.shuntTokens ts = .ok sequence → g.Viable ts) ∧
    (∀ e d, g.shuntTokens ts = .error e → e.fault = .unclosedDelimiter d → g.Viable ts) ∧
    ∀ d, (∃ e, g.shuntTokens ts = .error e ∧ e.fault = .unclosedDelimiter d) ↔
      (∀ position, ¬g.Offends ts position) ∧
        ∃ p, (g.unclosed ts).head? = some p ∧ p.opening = d := by
  have hunclosed : ∀ d, (∃ e, g.shuntTokens ts = .error e ∧ e.fault = .unclosedDelimiter d) ↔
      g.Viable ts ∧ ∃ p, (g.unclosed ts).head? = some p ∧ p.opening = d := by
    intro d
    rw [viable_iff hg, ← run_eq_unclosedDelimiter_iff]
    simp only [Vocabulary.shuntTokens_eq_error_iff]
    constructor
    · rintro ⟨e, ⟨hrun, -⟩, hf⟩
      rwa [← hf]
    · exact fun hrun => ⟨⟨_, .unclosedDelimiter d⟩, ⟨hrun, rfl⟩, rfl⟩
  refine ⟨?_, ?_, ?_, ?_⟩
  · intro e he hd
    obtain ⟨hrun, -⟩ := Vocabulary.shuntTokens_eq_error_iff.1 he
    rcases run_eq_error_iff.1 hrun with hs | ⟨s, -, hf⟩
    · exact offends_of_steps_eq_error hg hs
    · obtain ⟨p, -, hp⟩ := flush_eq_error_iff.1 hf
      exact absurd hp (hd p.opening)
  · intro sequence h
    obtain ⟨s, hs, -⟩ := run_eq_ok_iff.1 (Vocabulary.shuntTokens_eq_ok_iff.1 h)
    exact (viable_iff hg).2 ⟨s, hs⟩
  · exact fun e d he hd => ((hunclosed d).1 ⟨e, he, hd⟩).1
  · intro d
    rw [hunclosed, viable_iff_not_offends]

/-- In `(a+[a)*a` the parenthesis that closes a bracket offends. What stands before it leaves the
bracket open. -/
theorem offends_of_mismatched_bracket :
    let brackets : DelimiterPair := ⟨.literal ['['], .literal [']']⟩
    let g : Grammar := ⟨⟨.arithmetic, [.parentheses, brackets]⟩, by decide, by decide⟩
    let a : Token := .literal ['a']
    let start : List Token :=
      [DelimiterPair.parentheses.opening, a, .literal ['+'], brackets.opening, a]
    let ts : List Token := start ++ [DelimiterPair.parentheses.closing, .literal ['*'], a]
    (∀ p ∈ g.delimiters, ∀ q ∈ g.delimiters, p.opening ≠ q.closing) ∧
      (∃ e, g.shuntTokens ts = .error e ∧ e.fault =
        .nonMatchingDelimiters (some brackets.opening) DelimiterPair.parentheses.closing) ∧
      g.Offends ts 5 ∧
      ∃ e, g.shuntTokens start = .error e ∧ e.fault = .unclosedDelimiter brackets.opening := by
  intro brackets g a start ts
  have hg : ∀ p ∈ g.delimiters, ∀ q ∈ g.delimiters, p.opening ≠ q.closing := by decide
  obtain ⟨hfault, -, -, -⟩ := shuntTokens_fails_at_offending_token g hg ts
  obtain ⟨-, -, -, hunclosed⟩ := shuntTokens_fails_at_offending_token g hg start
  have hts : g.shuntTokens ts = .error ⟨String.ofList (joinTokens ts),
      .nonMatchingDelimiters (some brackets.opening) DelimiterPair.parentheses.closing⟩ := by rfl
  obtain ⟨position, hoffends, hnamed, -⟩ := hfault _ hts (by simp)
  have hposition : ∀ i < ts.length,
      some DelimiterPair.parentheses.closing = ts[i]? → i = 5 := by decide
  obtain rfl := hposition position hoffends.1 hnamed
  have hstart : ∀ position, ¬g.Offends start position := viable_iff_not_offends.1 hoffends.2.1
  exact ⟨hg, ⟨_, hts, rfl⟩, hoffends,
    (hunclosed brackets.opening).2 ⟨hstart, brackets, rfl, rfl⟩⟩

end Grammar

end Fixity
