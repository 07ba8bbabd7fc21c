import Fixity.Grammar.Predefined
import Fixity.Proofs.Assembly.Completeness
import Fixity.Proofs.Simulation

/-! Parsing is assembling a bracketing. A run of the postfix machine that ends without an error
while an operand is missing leaves a sequence that is the postfix order of no tree. So among all
ways to read a sequence of tokens the parser finds the one in which no operator takes an operand
from another one. -/
namespace Fixity

open Shunting PostfixToken

variable {v : Vocabulary}

namespace Assembly

theorem Represents.flush_of_finish {a : Assembly} {s : State} {r : Bracketing} (h : Represents a s)
    (hf : a.finish = some r) : flush s.output s.stack = .ok r.output := by
  obtain ⟨r₀, ho, hcol⟩ := finish_eq_some_iff.1 hf
  cases h with
  | waiting => cases ho
  | complete =>
    cases ho
    rw [flush_collapse hcol]
    simp [flush]

/-- With an operand at hand, a run that ends has filled all frames. -/
theorem Represents.finish_of_flush {fs : List Frame} {r₀ : Bracketing} {s : State}
    {out : List PostfixToken} (h : Represents ⟨fs, some r₀⟩ s)
    (hf : flush s.output s.stack = .ok out) :
    ∃ r, finish ⟨fs, some r₀⟩ = some r ∧ out = r.output := by
  rcases hcol : collapse Frame.isOperator r₀ fs with ⟨r, fs'⟩
  cases h with
  | complete =>
    rw [flush_collapse hcol] at hf
    obtain rfl | ⟨p, rest, rfl⟩ := collapse_isOperator_eq hcol
    · simp only [List.flatMap_nil, List.append_nil, List.map_nil, flush] at hf
      cases hf
      exact ⟨r, finish_eq_some_iff.2 ⟨r₀, rfl, hcol⟩, rfl⟩
    · cases hf

/-- Each frame misses the one operand that its operator would leave. -/
theorem weight_frames {fs : List Frame} (hfs : FramesSound v fs) {ops : List PostfixToken}
    (h : fs.map Frame.entry = ops.map .operator) :
    weight (fs.flatMap Frame.output) + weight ops = 0 := by
  induction fs generalizing ops with
  | nil =>
    obtain rfl := List.map_eq_nil_iff.1 h.symm
    rfl
  | cons f fs ih =>
    obtain ⟨op, ops, rfl, he, h⟩ := List.map_eq_cons_iff.1 h.symm
    obtain ⟨hf, -, hfs⟩ := hfs
    have hw := ih hfs h.symm
    cases f with
    | before b =>
      cases he
      simp [Frame.output, hf.2, Arity.argCount]
      omega
    | binary b l =>
      cases he
      have hl : weight l.output = 1 := by
        simp [Bracketing.output, hf.2.1.proper.weight_postfixOrder]
      simp [Frame.output, hf.1.2, Arity.argCount, hl]
      omega
    | opened => cases he

theorem Represents.weight_of_flush {fs : List Frame} {s : State} {out : List PostfixToken}
    (h : Represents ⟨fs, none⟩ s) (hfs : FramesSound v fs)
    (hf : flush s.output s.stack = .ok out) : weight out = 0 := by
  cases h with
  | waiting =>
    obtain ⟨ops, hops, rfl⟩ := flush_eq_ok_iff.1 hf
    have hw := weight_frames hfs hops
    simp only [weight_append, weight_reverse]
    omega

end Assembly

namespace Vocabulary

open Assembly

variable {ts : List Token} {t : Tree} {r : Bracketing} {sequence : List PostfixToken}

theorem parseFrom_eq_ok_iff {input : String} :
    v.parseFrom input ts = .ok t ↔
      ∃ sequence, run v ts = .ok sequence ∧ Tree.ofPostfix sequence = .ok t := by
  simp only [parseFrom, shuntFrom, bind_eq_ok_iff, mapError_eq_ok_iff]

theorem run_of_read? (h : v.read? ts = some r) : run v ts = .ok r.tree.postfixOrder := by
  obtain ⟨a, ha, hf⟩ := Option.bind_eq_some_iff.1 h
  obtain ⟨s, hs, hrep⟩ := exists_represents_of_assembly ha
  exact run_eq_ok_iff.2 ⟨s, hs, hrep.flush_of_finish hf⟩

theorem exists_read?_of_run (h : run v ts = .ok sequence) (ht : Tree.ofPostfix sequence = .ok t) :
    ∃ r, v.read? ts = some r ∧ r.tree = t := by
  obtain ⟨s, hs, hf⟩ := run_eq_ok_iff.1 h
  obtain ⟨a, ha, hrep⟩ := exists_represents_of_state hs
  obtain ⟨hsound, -⟩ := sound_of_steps ha
  obtain ⟨fs, _ | r₀⟩ := a
  · have h₀ := hrep.weight_of_flush hsound.frames hf
    have h₁ := Tree.weight_of_ofPostfix ht
    rw [weight_reverse] at h₀
    omega
  · obtain ⟨r, hr, hout⟩ := hrep.finish_of_flush hf
    have hread : v.read? ts = some r := by rw [read?, ha, Option.bind_some, hr]
    obtain ⟨⟨hover, -⟩, -⟩ := reads_of_read? hread
    obtain rfl := List.reverse_inj.1 hout
    rw [hover.proper.ofPostfix_postfixOrder] at ht
    cases ht
    exact ⟨r, hread, rfl⟩

/-- A parse succeeds where a bracketing is found, with the tree of that bracketing. -/
theorem parseFrom_eq_ok_iff_read? {input : String} :
    v.parseFrom input ts = .ok t ↔ ∃ r, v.read? ts = some r ∧ r.tree = t := by
  rw [parseFrom_eq_ok_iff]
  constructor
  · rintro ⟨sequence, hs, ht⟩
    exact exists_read?_of_run hs ht
  · rintro ⟨r, hr, rfl⟩
    obtain ⟨⟨hover, -⟩, -⟩ := reads_of_read? hr
    exact ⟨_, run_of_read? hr, hover.proper.ofPostfix_postfixOrder⟩

end Vocabulary

namespace Grammar

/-- Parsing yields the tree of the bracketing without conflicts, of which there is at most one. -/
theorem parseTokens_iff_conflictFree_bracketing (g : Grammar) (ts : List Token) :
    (∀ t : Tree, g.parseTokens ts = .ok t ↔
      ∃ r : Bracketing, r.Reads g.toVocabulary ts ∧ r.ConflictFree ∧ r.tree = t) ∧
    ∀ r r' : Bracketing, r.Reads g.toVocabulary ts → r.ConflictFree →
      r'.Reads g.toVocabulary ts → r'.ConflictFree → r = r' := by
  constructor
  · intro t
    simp only [Vocabulary.parseTokens, Vocabulary.parseFrom_eq_ok_iff_read?, read?_eq_some_iff,
      and_assoc]
  · intro r r' hr hc hr' hc'
    have h := read?_eq_some_iff.2 ⟨hr, hc⟩
    rw [read?_eq_some_iff.2 ⟨hr', hc'⟩] at h
    exact (Option.some.inj h).symm

/-- In `a^-b^c` the sign waits for the power, and the first power waits for both, although it
applies before the sign. -/
theorem bracketing_of_power_of_negative_power :
    let a : Token := .literal ['a']
    let b : Token := .literal ['b']
    let c : Token := .literal ['c']
    let ts : List Token := [a, .literal ['^'], .literal ['-'], b, .literal ['^'], c]
    let r : Bracketing := .binary .exponentiation (.value a)
      (.before .negative (.binary .exponentiation (.value b) (.value c)))
    arithmetic.parseTokens ts = .ok r.tree ∧
      ∀ r' : Bracketing, r'.Reads arithmetic.toVocabulary ts → r'.ConflictFree → r' = r := by
  intro a b c ts r
  have hr : r.Reads arithmetic.toVocabulary ts := by decide
  have hc : r.ConflictFree := by decide
  obtain ⟨h, hu⟩ := parseTokens_iff_conflictFree_bracketing arithmetic ts
  exact ⟨(h r.tree).2 ⟨r, hr, hc, rfl⟩, fun r' hr' hc' => hu r' r hr' hc' hr hc⟩

end Grammar

end Fixity
