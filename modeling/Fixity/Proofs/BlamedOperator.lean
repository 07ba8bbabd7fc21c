import Fixity.Proofs.MissingOperand
import Fixity.Proofs.ViablePrefix

/-! Which operator is reported where the last token is one that lacks its operand. It is not that
token if binary operators wait further out: when the input ends, the operators that wait are written
from the inside to the outside, so the operands found go to the inner ones first, and the outermost
binary operator is the one left without. -/
namespace Fixity

open Shunting

namespace Assembly

variable {v : Vocabulary} {fs : List Frame} {r r' : Bracketing} {ts : List Token} {x : Token}

theorem isOperator_of_collapse (h : collapse Frame.isOperator r fs = (r', [])) :
    ∀ f ∈ fs, f.isOperator = true := by
  induction fs generalizing r with
  | nil => simp
  | cons f fs ih =>
    rw [collapse] at h
    split at h
    · rename_i hf
      exact List.forall_mem_cons.2 ⟨hf, ih h⟩
    · cases h

/-- The operators that wait are those on the right edge, once they have their operand. -/
theorem collapse_of_isOperator (h : ∀ f ∈ fs, f.isOperator = true) (r : Bracketing) :
    ∃ r', collapse Frame.isOperator r fs = (r', []) ∧
      r'.rightEdge = (openOperators fs).reverse ++ r.rightEdge := by
  induction fs generalizing r with
  | nil => exact ⟨r, rfl, rfl⟩
  | cons f fs ih =>
    obtain ⟨hf, hfs⟩ := List.forall_mem_cons.1 h
    obtain ⟨r', hcol, hedge⟩ := ih hfs (f.fill r)
    refine ⟨r', by rwa [collapse, if_pos hf], ?_⟩
    rw [hedge]
    cases f with
    | opened => cases hf
    | _ => simp [Frame.fill, Bracketing.rightEdge]

theorem step_value_iff (hx : v.IsValue x) {a b : Assembly} :
    Step v a x b ↔ ∃ fs, a = ⟨fs, none⟩ ∧ b = ⟨fs, some (.value x)⟩ := by
  constructor
  · intro h
    cases h with
    | opening fs ho => simp [Vocabulary.IsValue, Vocabulary.isDelimiter, ho] at hx
    | closing ho hc => simp [Vocabulary.IsValue, Vocabulary.isDelimiter, hc] at hx
    | before fs hop => exact absurd hx (Vocabulary.not_isValue_symbol hop)
    | after hop => exact absurd hx (Vocabulary.not_isValue_symbol hop)
    | binary hop => exact absurd hx (Vocabulary.not_isValue_symbol hop)
    | value fs => exact ⟨fs, rfl, rfl⟩
  · rintro ⟨fs, rfl, rfl⟩
    exact .value fs hx

/-- The symbol of the innermost operator that waits was read last. -/
theorem getLast?_of_steps (h : initial.steps v ts = some ⟨fs, none⟩)
    (hops : ∀ f ∈ fs, f.isOperator = true) :
    ts.getLast? = (openOperators fs).head?.map Operator.symbol := by
  obtain ⟨-, rfl⟩ := sound_of_steps h
  cases fs with
  | nil => rfl
  | cons f fs =>
    cases f with
    | opened => cases hops _ List.mem_cons_self
    | _ => simp [tokens, written, Frame.tokens]

end Assembly

open Assembly

variable {ts : List Token} {edge : List Operator}

/-- A parse misses an operand just if operators wait for it at the end of the tokens and no pair is
open, and then it reports one of these operators. -/
theorem Vocabulary.parseFrom_eq_missingOperand_iff {v : Vocabulary} {input text : String} :
    v.parseFrom input ts = .error (.tree (.missingOperand text)) ↔
      ∃ fs, initial.steps v ts = some ⟨fs, none⟩ ∧ (∀ f ∈ fs, f.isOperator = true) ∧
        ∃ op, Operator.blamed? (openOperators fs).reverse = some op ∧ op.symbol.text = text := by
  have hparse : v.parseFrom input ts = .error (.tree (.missingOperand text)) ↔
      ∃ sequence, run v ts = .ok sequence ∧
        Tree.ofPostfix sequence = .error (.missingOperand text) := by
    rw [parseFrom, shuntFrom]
    cases run v ts with
    | error fault => simp [bind, Except.bind]
    | ok sequence => simp [bind, Except.bind, mapError_eq_error_iff]
  rw [hparse]
  constructor
  · rintro ⟨sequence, hrun, htree⟩
    obtain ⟨s, hs, hf⟩ := run_eq_ok_iff.1 hrun
    obtain ⟨⟨fs, _ | r₀⟩, ha, hrep⟩ := exists_represents_of_state hs
    · have hops := hrep.flush_eq_ok_iff_isOperator.1 ⟨_, hf⟩
      have hfs : fs ≠ [] := by
        rintro rfl
        obtain ⟨-, rfl⟩ := sound_of_steps ha
        cases hrun
        cases htree
      obtain ⟨op, hop, hmissing⟩ :=
        hrep.missingOperand_of_flush (sound_of_steps ha).1.frames hfs hf
      rw [List.reverse_reverse, htree] at hmissing
      cases hmissing
      exact ⟨fs, ha, hops, op, hop, rfl⟩
    · obtain ⟨t, ht⟩ := hrep.exists_ofPostfix_of_flush (sound_of_steps ha).1 hf
      rw [List.reverse_reverse, htree] at ht
      cases ht
  · rintro ⟨fs, ha, hops, op, hop, rfl⟩
    obtain ⟨s, hs, hrep⟩ := exists_represents_of_assembly ha
    obtain ⟨out, hf⟩ := hrep.flush_eq_ok_iff_isOperator.2 hops
    have hfs : fs ≠ [] := by
      rintro rfl
      cases hop
    obtain ⟨op', hop', hmissing⟩ :=
      hrep.missingOperand_of_flush (sound_of_steps ha).1.frames hfs hf
    cases hop.symm.trans hop'
    exact ⟨out.reverse, run_eq_ok_iff.2 ⟨s, hs, by rwa [List.reverse_reverse]⟩, hmissing⟩

namespace Grammar

variable {g : Grammar}

/-- An operand is missing at the end of the tokens, and with a value in its place the operators on
the way to it from the root are those of the edge. -/
def AwaitsUnder (g : Grammar) (ts : List Token) (edge : List Operator) : Prop :=
  ∃ (x : Token) (r : Bracketing), g.IsValue x ∧ r.Reads g.toVocabulary (ts ++ [x]) ∧
    r.ConflictFree ∧ r.rightEdge = edge

theorem awaitsUnder_iff : g.AwaitsUnder ts edge ↔
    ∃ fs, initial.steps g.toVocabulary ts = some ⟨fs, none⟩ ∧
      (∀ f ∈ fs, f.isOperator = true) ∧ (openOperators fs).reverse = edge := by
  constructor
  · rintro ⟨x, r, hx, hr, hc, rfl⟩
    obtain ⟨b, hb, hfinish⟩ := Option.bind_eq_some_iff.1 (read?_eq_some_iff.2 ⟨hr, hc⟩)
    rw [steps_append] at hb
    obtain ⟨a, ha, hstep⟩ := Option.bind_eq_some_iff.1 hb
    obtain ⟨b', hb', ⟨⟩⟩ := Option.bind_eq_some_iff.1 hstep
    obtain ⟨fs, rfl, rfl⟩ := (step_value_iff hx).1 (step_eq_some_iff.1 hb')
    obtain ⟨r₀, ⟨⟩, hcol⟩ := finish_eq_some_iff.1 hfinish
    have hops := isOperator_of_collapse hcol
    obtain ⟨r', hcol', hedge⟩ := collapse_of_isOperator hops (.value x)
    cases hcol.symm.trans hcol'
    exact ⟨fs, ha, hops, by simp [hedge, Bracketing.rightEdge]⟩
  · rintro ⟨fs, ha, hops, rfl⟩
    obtain ⟨x, hx⟩ := g.exists_isValue
    obtain ⟨r, hcol, hedge⟩ := collapse_of_isOperator hops (.value x)
    have hread : g.read? (ts ++ [x]) = some r := by
      rw [Vocabulary.read?, steps_trans ha ((step_value_iff hx).2 ⟨fs, rfl, rfl⟩).steps,
        Option.bind_some]
      exact finish_eq_some_iff.2 ⟨.value x, rfl, hcol⟩
    obtain ⟨hr, hc⟩ := read?_eq_some_iff.1 hread
    exact ⟨x, r, hx, hr, hc, by simpa [Bracketing.rightEdge] using hedge⟩

theorem parse_eq_missingOperand_iff {input text : String} :
    g.parse input = .error (.tree (.missingOperand text)) ↔
      ∃ edge op, g.AwaitsUnder (g.tokenize input) edge ∧ Operator.blamed? edge = some op ∧
        op.symbol.text = text := by
  rw [Vocabulary.parse, Vocabulary.parseFrom_eq_missingOperand_iff]
  constructor
  · rintro ⟨fs, ha, hops, op, hop, rfl⟩
    exact ⟨_, op, awaitsUnder_iff.2 ⟨fs, ha, hops, rfl⟩, hop, rfl⟩
  · rintro ⟨edge, op, hedge, hop, rfl⟩
    obtain ⟨fs, ha, hops, rfl⟩ := awaitsUnder_iff.1 hedge
    exact ⟨fs, ha, hops, op, hop, rfl⟩

/-- The last token is the symbol of the operator that lacks its operand. -/
theorem AwaitsUnder.getLast?_eq (h : g.AwaitsUnder ts edge) :
    ts.getLast? = edge.getLast?.map Operator.symbol := by
  obtain ⟨fs, ha, hops, rfl⟩ := awaitsUnder_iff.1 h
  rw [getLast?_of_steps ha hops, List.getLast?_reverse]

/-- A parse that misses an operand at its end reports the first binary operator on the way to it
from the root, or else the last operator, which is the last token. So it is the last token that is
reported just if no binary operator with another symbol waits further out. -/
theorem missingOperand_blames_outermost_binary (g : Grammar) (input : String) :
    (∀ text, g.parse input = .error (.tree (.missingOperand text)) ↔
      ∃ edge op, g.AwaitsUnder (g.tokenize input) edge ∧ Operator.blamed? edge = some op ∧
        op.symbol.text = text) ∧
    ∀ edge, g.AwaitsUnder (g.tokenize input) edge →
      (g.tokenize input).getLast? = edge.getLast?.map Operator.symbol ∧
      ∀ last, (g.tokenize input).getLast? = some last →
        (g.parse input = .error (.tree (.missingOperand last.text)) ↔
          ∀ op, (edge.find? fun op => op.arity == .binary) = some op → op.symbol = last) := by
  refine ⟨fun text => parse_eq_missingOperand_iff, ?_⟩
  intro edge hedge
  refine ⟨hedge.getLast?_eq, ?_⟩
  intro last hlast
  rw [hedge.getLast?_eq] at hlast
  constructor
  · intro hparse op hop
    have hblamed : Operator.blamed? edge = some op := by rw [Operator.blamed?, hop, Option.some_or]
    have hreport := parse_eq_missingOperand_iff.2 ⟨edge, op, hedge, hblamed, rfl⟩
    have hsame := hparse.symm.trans hreport
    simp only [Except.error.injEq, ParseError.tree.injEq, TreeError.missingOperand.injEq] at hsame
    exact (Token.eq_of_text_eq hsame).symm
  · intro hfirst
    cases hop : edge.find? fun op => op.arity == .binary with
    | some op =>
      rw [← hfirst op hop]
      refine parse_eq_missingOperand_iff.2 ⟨edge, op, hedge, ?_, rfl⟩
      rw [Operator.blamed?, hop, Option.some_or]
    | none =>
      obtain ⟨op, hlastOp, rfl⟩ := Option.map_eq_some_iff.1 hlast
      refine parse_eq_missingOperand_iff.2 ⟨edge, op, hedge, ?_, rfl⟩
      rw [Operator.blamed?, hop, Option.none_or, hlastOp]

/-- After `a*b+` no operator waits but the sum, which is reported. -/
theorem missingOperand_blames_outermost_binary_of_sum :
    ∃ sum, arithmetic.AwaitsUnder (arithmetic.tokenize "a*b+") [sum] ∧
      (arithmetic.tokenize "a*b+").getLast? = some sum.symbol ∧
      arithmetic.parse "a*b+" = .error (.tree (.missingOperand "+")) := by
  have ha : arithmetic.AwaitsUnder (arithmetic.tokenize "a*b+") [Operator.add] := by
    refine ⟨.literal ['x'], .binary .add (.binary .multiply (.value (.literal ['a']))
      (.value (.literal ['b']))) (.value (.literal ['x'])), ?_⟩
    decide +kernel
  obtain ⟨-, hedge⟩ := missingOperand_blames_outermost_binary arithmetic "a*b+"
  obtain ⟨hlast, hiff⟩ := hedge _ ha
  refine ⟨_, ha, hlast, (hiff _ hlast).2 ?_⟩
  intro op hop
  cases hop
  rfl

/-- In `a+b*` the product lacks its operand, and the sum is reported. -/
theorem not_blames_last_token :
    ¬∀ (g : Grammar) (input text : String),
      g.parse input = .error (.tree (.missingOperand text)) →
        (g.tokenize input).getLast?.map Token.text = some text := by
  intro h
  have hsum : arithmetic.parse "a+b*" = .error (.tree (.missingOperand "+")) := by decide +kernel
  have hlast : (arithmetic.tokenize "a+b*").getLast?.map Token.text = some "*" := by decide +kernel
  have hblamed := h _ _ _ hsum
  rw [hlast] at hblamed
  exact absurd hblamed (by decide)

end Grammar

end Fixity
