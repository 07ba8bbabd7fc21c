import Fixity.Proofs.Parsing
import Fixity.Proofs.Transitions

/-! What can go wrong after the postfix machine is done. It does not look whether the last operand
is complete. If it is not, the operators that wait for it come last in the sequence, so the tree
builder reads them first, and then the operands that they have. Each of these completes what lacks
one operand, up to the next binary operator. So the tree builder gets to the start of the sequence,
with nothing left over, and then misses an operand of the outermost binary operator. -/
namespace Fixity

open Shunting PostfixToken

variable {v : Vocabulary}

/-- The operator that is reported to lack an operand, of those that wait for one, each within the
operand of the one before it: the first binary one, or the last one if all of them are unary. -/
def Operator.blamed? (edge : List Operator) : Option Operator :=
  (edge.find? fun op => op.arity == .binary).or edge.getLast?

theorem Operator.exists_blamed? {edge : List Operator} (h : edge ≠ []) :
    ∃ op, blamed? edge = some op := by
  apply Option.ne_none_iff_exists'.1
  simp [blamed?, h]

namespace Tree

theorem rebuild_operators (ops : List Operator) (us : List Unfinished)
    (earlier : List PostfixToken) :
    rebuild us ((ops.map .ofOperator).reverse ++ earlier) =
      rebuild (ops.map (fun op => ⟨.ofOperator op, []⟩) ++ us) earlier := by
  induction ops generalizing earlier with
  | nil => rfl
  | cons op ops ih =>
    have hcount : (PostfixToken.ofOperator op).argCount = 1 ∨
        (PostfixToken.ofOperator op).argCount = 2 := by
      rcases ha : op.arity with _ | _ <;> simp [ha, Arity.argCount]
    rw [List.map_cons, List.reverse_cons, List.append_assoc, ih, List.singleton_append,
      rebuild_operator hcount]
    rfl

/-- Operators that lack one operand each become one operand when they get it. -/
theorem exists_resume_append {us : List Unfinished}
    (h : ∀ u ∈ us, u.children.length + 1 = u.operator.argCount) (t : Tree) :
    ∃ t', ∀ us' earlier, resume t (us ++ us') earlier = resume t' us' earlier := by
  induction us generalizing t with
  | nil => exact ⟨t, fun _ _ => rfl⟩
  | cons u us ih =>
    obtain ⟨hu, hus⟩ := List.forall_mem_cons.1 h
    obtain ⟨t', ht'⟩ := ih hus (.node u.operator (t :: u.children))
    refine ⟨t', ?_⟩
    intro us' earlier
    rw [List.cons_append, resume_finished hu, ht']

end Tree

/-- The operator that waits in the frame. -/
def Frame.operator? : Frame → Option Operator
  | before op => some op
  | binary op _ => some op
  | opened _ => none

namespace Assembly

/-- The operators that wait for an operand, the innermost first. -/
def openOperators (fs : List Frame) : List Operator := fs.filterMap Frame.operator?

@[simp] theorem openOperators_nil : openOperators [] = [] := rfl

@[simp] theorem openOperators_before (op : Operator) (fs : List Frame) :
    openOperators (.before op :: fs) = op :: openOperators fs := rfl

@[simp] theorem openOperators_binary (op : Operator) (l : Bracketing) (fs : List Frame) :
    openOperators (.binary op l :: fs) = op :: openOperators fs := rfl

/-- The waiting operators once they have been read from the end, and none of their operands. -/
def unfilled (fs : List Frame) : List Unfinished :=
  (openOperators fs).map fun op => ⟨.ofOperator op, []⟩

/-- The operator reported when the operands of the frames have been read as well: the outermost
binary one of the frames, or else the innermost unfinished one. -/
def blamedOver (us : List Unfinished) (fs : List Frame) : Option PostfixToken :=
  (((openOperators fs).reverse.find? fun op => op.arity == .binary).map .ofOperator).or
    ((us ++ unfilled fs).head?.map Unfinished.operator)

theorem blamedOver_before {op : Operator} (h : op.arity ≠ .binary) (us : List Unfinished)
    (fs : List Frame) :
    blamedOver us (.before op :: fs) = blamedOver (us ++ [⟨.ofOperator op, []⟩]) fs := by
  simp [blamedOver, unfilled, List.find?_append, h]

theorem blamedOver_binary {op : Operator} (h : op.arity = .binary) (us us' : List Unfinished)
    (cs : List Tree) (l : Bracketing) (fs : List Frame) :
    blamedOver us (.binary op l :: fs) = blamedOver (⟨.ofOperator op, cs⟩ :: us') fs := by
  simp [blamedOver, unfilled, List.find?_append, h]

theorem blamedOver_nil (fs : List Frame) :
    blamedOver [] fs = (Operator.blamed? (openOperators fs).reverse).map .ofOperator := by
  rw [blamedOver, Operator.blamed?, List.getLast?_reverse, List.nil_append, unfilled,
    List.head?_map, Option.map_map, Option.map_or]
  rfl

/-- Each operand found completes the unfinished operators up to the next binary one, whose left
operand is then missing, if not found in a frame further out. -/
theorem rebuild_frames {fs : List Frame} (hfs : FramesSound v fs)
    (hops : ∀ f ∈ fs, f.isOperator = true) {us : List Unfinished}
    (hus : ∀ u ∈ us, u.children.length + 1 = u.operator.argCount) :
    Tree.rebuild (us ++ unfilled fs) (fs.flatMap Frame.output) =
      .error (.missingOperand (((blamedOver us fs).map text).getD "")) := by
  induction fs generalizing us with
  | nil => simp [blamedOver, unfilled, Tree.rebuild, Function.comp_def]
  | cons f fs ih =>
    obtain ⟨hf, hrest⟩ := List.forall_mem_cons.1 hops
    obtain ⟨hs, -, hfs⟩ := hfs
    cases f with
    | opened => cases hf
    | before op =>
      have hone : ∀ u ∈ us ++ [⟨.ofOperator op, []⟩],
          u.children.length + 1 = u.operator.argCount := by
        simpa [or_imp, forall_and, hs.2, Arity.argCount] using hus
      have hmissing := ih hfs hrest hone
      rw [List.append_assoc, List.singleton_append] at hmissing
      rw [blamedOver_before (by simp [hs.2])]
      exact hmissing
    | binary op l =>
      -- The operand before `op` goes through all of `us` and becomes the operand after `op`.
      obtain ⟨t, ht⟩ := Tree.exists_resume_append hus l.tree
      have hone : ∀ u ∈ [(⟨.ofOperator op, [t]⟩ : Unfinished)],
          u.children.length + 1 = u.operator.argCount := by
        simp [hs.1.2, Arity.argCount]
      rw [blamedOver_binary hs.1.2 us [] [t], ← ih hfs hrest hone, List.flatMap_cons, Frame.output,
        Bracketing.output, hs.2.1.proper.rebuild_reverse, ht]
      exact Tree.resume_waiting (by simp [hs.1.2, Arity.argCount]) _ _ _

theorem map_entry_of_isOperator {fs : List Frame} (h : ∀ f ∈ fs, f.isOperator = true) :
    fs.map Frame.entry = ((openOperators fs).map PostfixToken.ofOperator).map .operator := by
  induction fs with
  | nil => rfl
  | cons f fs ih =>
    obtain ⟨hf, hfs⟩ := List.forall_mem_cons.1 h
    rw [List.map_cons, ih hfs]
    cases f with
    | opened => cases hf
    | _ => rfl

theorem openOperators_of_map_entry {fs : List Frame} {ops : List PostfixToken}
    (h : fs.map Frame.entry = ops.map .operator) :
    (∀ f ∈ fs, f.isOperator = true) ∧ ops = (openOperators fs).map .ofOperator := by
  have hops : ∀ f ∈ fs, f.isOperator = true := by
    intro f hf
    obtain ⟨op, -, he⟩ := List.mem_map.1 (h ▸ List.mem_map_of_mem hf)
    cases f with
    | opened => cases he
    | _ => rfl
  refine ⟨hops, ?_⟩
  rw [map_entry_of_isOperator hops] at h
  exact (List.map_injective_iff.2 (fun _ _ => Entry.operator.inj) h).symm

/-- A run can end just if no pair is open. -/
theorem Represents.flush_eq_ok_iff_isOperator {fs : List Frame} {s : State}
    (h : Represents ⟨fs, none⟩ s) :
    (∃ out, flush s.output s.stack = .ok out) ↔ ∀ f ∈ fs, f.isOperator = true := by
  cases h with
  | waiting =>
    constructor
    · rintro ⟨out, hf⟩
      obtain ⟨ops, hops, -⟩ := flush_eq_ok_iff.1 hf
      exact (openOperators_of_map_entry hops).1
    · intro hops
      exact ⟨_, flush_eq_ok_iff.2 ⟨_, map_entry_of_isOperator hops, rfl⟩⟩

/-- A run that ends with an operand at hand leaves the postfix order of a tree. -/
theorem Represents.exists_ofPostfix_of_flush {fs : List Frame} {r : Bracketing} {s : State}
    {out : List PostfixToken} (h : Represents ⟨fs, some r⟩ s) (ha : Sound v ⟨fs, some r⟩)
    (hf : flush s.output s.stack = .ok out) : ∃ t, Tree.ofPostfix out.reverse = .ok t := by
  obtain ⟨r', hr, rfl⟩ := h.finish_of_flush hf
  refine ⟨r'.tree, ?_⟩
  rw [Bracketing.output, List.reverse_reverse]
  exact (ha.finish hr).1.proper.ofPostfix_postfixOrder

/-- A run that ends while an operand is missing leaves a sequence that misses an operand. -/
theorem Represents.missingOperand_of_flush {fs : List Frame} {s : State} {out : List PostfixToken}
    (h : Represents ⟨fs, none⟩ s) (hfs : FramesSound v fs) (hne : fs ≠ [])
    (hf : flush s.output s.stack = .ok out) :
    ∃ op, Operator.blamed? (openOperators fs).reverse = some op ∧
      Tree.ofPostfix out.reverse = .error (.missingOperand op.symbol.text) := by
  cases h with
  | waiting =>
    obtain ⟨ops, hops, rfl⟩ := flush_eq_ok_iff.1 hf
    obtain ⟨hall, rfl⟩ := openOperators_of_map_entry hops
    have hopen : openOperators fs ≠ [] := by
      intro hnil
      rw [hnil] at hops
      exact hne (List.map_eq_nil_iff.1 hops)
    obtain ⟨op, hop⟩ := Operator.exists_blamed? (List.reverse_ne_nil_iff.2 hopen)
    have hmissing := rebuild_frames hfs hall (List.forall_mem_nil _)
    rw [blamedOver_nil, hop, List.nil_append] at hmissing
    refine ⟨op, hop, ?_⟩
    rw [Tree.ofPostfix, if_neg (by simp [hopen]), List.reverse_reverse, Tree.rebuild_operators,
      List.append_nil]
    simpa [unfilled] using hmissing

end Assembly

namespace Vocabulary

open Assembly

variable {ts : List Token} {s : State} {sequence : List PostfixToken}

/-- The last of the tokens is the symbol of `op`, and it is read as `op` after those before it. -/
def LastReadAs (v : Vocabulary) (ts : List Token) (op : Operator) : Prop :=
  ∃ earlier s, ts = earlier ++ [op.symbol] ∧ op ∈ v.operators.operators ∧
    State.initial.steps v 0 earlier = .ok s ∧
    s.step v earlier.length op.symbol = .ok (s.push op)

/-- Where a run ends, an operand is missing just if the last token is an operator before it. -/
theorem expectsOperand_iff_lastReadAs (hs : State.initial.steps v 0 ts = .ok s)
    (hf : flush s.output s.stack = .ok sequence) (hne : ts ≠ []) :
    s.previous.expectsOperand = true ↔ ∃ op, v.LastReadAs ts op ∧ op.arity ≠ .unary .after := by
  constructor
  · intro he
    obtain ⟨earlier, t, rfl⟩ := List.eq_nil_or_concat ts |>.resolve_left hne
    rw [List.concat_eq_append, State.steps_append_singleton_eq_ok_iff] at hs
    obtain ⟨s₁, hs₁, ht⟩ := hs
    rw [Nat.zero_add] at ht
    cases State.transition_of_step ht with
    | opening => cases hf
    | closing => cases he
    | @operator op _ hop _ =>
      refine ⟨op, ⟨earlier, s₁, by simp, hop, hs₁, ht⟩, ?_⟩
      rintro ha
      simp [State.push, ha, Previous.expectsOperand] at he
    | operand => cases he
  · rintro ⟨op, ⟨earlier, s₁, rfl, -, hs₁, ht⟩, ha⟩
    rw [State.steps_append_singleton_eq_ok_iff] at hs
    obtain ⟨s₂, hs₂, ht'⟩ := hs
    cases hs₁.symm.trans hs₂
    rw [Nat.zero_add] at ht'
    cases ht.symm.trans ht'
    rcases hop : op.arity with _ | (_ | _)
    · simp [State.push, hop, Previous.expectsOperand]
    · simp [State.push, hop, Previous.expectsOperand]
    · exact absurd hop ha

/-- What the tree builder makes of a run that ends. -/
theorem ofPostfix_of_run (h : run v ts = .ok sequence) :
    (ts = [] ∧ Tree.ofPostfix sequence = .error .empty) ∨
    (ts ≠ [] ∧ (∃ op, v.LastReadAs ts op ∧ op.arity ≠ .unary .after) ∧
      ∃ op, Tree.ofPostfix sequence = .error (.missingOperand op)) ∨
    (ts ≠ [] ∧ (¬∃ op, v.LastReadAs ts op ∧ op.arity ≠ .unary .after) ∧
      ∃ t, Tree.ofPostfix sequence = .ok t) := by
  obtain ⟨s, hs, hf⟩ := run_eq_ok_iff.1 h
  by_cases hne : ts = []
  · subst hne
    cases hs
    simp only [State.initial, flush, Except.ok.injEq] at hf
    obtain rfl := List.reverse_eq_nil_iff.1 hf.symm
    exact .inl ⟨rfl, rfl⟩
  · right
    rw [← expectsOperand_iff_lastReadAs hs hf hne]
    obtain ⟨a, ha, hrep⟩ := exists_represents_of_state hs
    obtain ⟨hsound, htokens⟩ := sound_of_steps ha
    obtain ⟨fs, _ | r₀⟩ := a
    · have hfs : fs ≠ [] := by
        rintro rfl
        exact hne htokens.symm
      obtain ⟨op, -, hmissing⟩ := hrep.missingOperand_of_flush hsound.frames hfs hf
      rw [List.reverse_reverse] at hmissing
      cases hrep with
      | waiting _ he => exact .inl ⟨hne, he, op.symbol.text, hmissing⟩
    · have htree := hrep.exists_ofPostfix_of_flush hsound hf
      rw [List.reverse_reverse] at htree
      cases hrep with
      | complete he => exact .inr ⟨hne, by simp [he], htree⟩

end Vocabulary

namespace Grammar

/-- The sequence that the postfix machine writes is never one that the tree builder cannot take
apart. A parse fails in the tree builder just if nothing is written, or if the last token is an
operator that is followed by its operand. -/
theorem parse_fails_in_tree_iff (g : Grammar) (input : String) :
    (g.parse input = .error (.tree .empty) ↔ g.tokenize input = []) ∧
    ((∃ text, g.parse input = .error (.tree (.missingOperand text))) ↔
      g.tokenize input ≠ [] ∧ (∃ sequence, g.shunt input = .ok sequence) ∧
        ∃ op, g.LastReadAs (g.tokenize input) op ∧ op.arity ≠ .unary .after) ∧
    (∀ remaining, g.parse input ≠ .error (.tree (.unresolvedTokens remaining))) ∧
    (∀ argCount, g.parse input ≠ .error (.tree (.unsupportedArity argCount))) ∧
    (∀ text expected actual,
      g.parse input ≠ .error (.tree (.childCount text expected actual))) ∧
    ∀ source expected actual,
      g.parse input ≠ .error (.shunt ⟨source, .lengthMismatch expected actual⟩) := by
  rw [Vocabulary.parse, Vocabulary.parseFrom, Vocabulary.shunt, Vocabulary.shuntFrom]
  generalize g.tokenize input = ts
  cases hrun : run g.toVocabulary ts with
  | error fault =>
    have hne : ts ≠ [] := by
      rintro rfl
      cases hrun
    have hfault : ∀ expected actual, fault ≠ .lengthMismatch expected actual := by
      rintro expected actual rfl
      obtain ⟨t, position, hn⟩ | ⟨d, hd⟩ := names_or_unclosed_of_run hrun
      · cases hn.offender
      · cases hd
    simp [bind, Except.bind, hne, hfault]
  | ok sequence =>
    obtain ⟨rfl, htree⟩ | ⟨hne, hlast, text, htree⟩ | ⟨hne, hlast, t, htree⟩ :=
      Vocabulary.ofPostfix_of_run hrun
    · simp [bind, Except.bind, htree]
    · simp [bind, Except.bind, htree, hne, hlast]
    · simp [bind, Except.bind, htree, hne, hlast]

end Grammar

end Fixity
