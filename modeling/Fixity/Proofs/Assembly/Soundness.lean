import Fixity.Proofs.Assembly

/-! Every bracketing that an assembly yields explains the tokens that were read and is free of
conflicts. The invariant says of each operator on the stack that it goes before no operator on the
left edge of what is being read as its operand. -/
namespace Fixity

variable {v : Vocabulary}

namespace Frame

/-- The left edge of what the frame becomes once it is filled. -/
def leftEdge : Frame → List Operator
  | before op => [op]
  | binary op l => op :: l.leftEdge
  | opened _ => []

theorem leftEdge_fill {f : Frame} (h : f.isOperator = true) (r : Bracketing) :
    (f.fill r).leftEdge = f.leftEdge := by
  cases f with
  | opened => cases h
  | _ => rfl

/-- What has been read of the frame is over the vocabulary and free of conflicts. -/
def Sound (v : Vocabulary) : Frame → Prop
  | before op => op ∈ v.operators.operators ∧ op.arity = .unary .before
  | binary op l =>
    (op ∈ v.operators.operators ∧ op.arity = .binary) ∧ l.Over v ∧ l.ConflictFree ∧ l.YieldsTo op
  | opened p => v.opening? p.opening = some p

/-- No frame holds an operator that is written after its operand. -/
theorem Sound.appliesBefore_eq_false {f : Frame} (h : f.Sound v) {op : Operator}
    (hop : op.arity = .unary .before) : f.appliesBefore op = false := by
  cases f with
  | before b => exact Operator.appliesBefore_of_before (by simp [h.2]) hop
  | binary b l => exact Operator.appliesBefore_of_before (by simp [h.1.2]) hop
  | opened => rfl

end Frame

namespace Assembly

/-- The innermost frame goes before none of the given operators. -/
def Fits (edge : List Operator) : List Frame → Prop
  | [] => True
  | f :: _ => ∀ x ∈ edge, f.appliesBefore x = false

def FramesSound (v : Vocabulary) : List Frame → Prop
  | [] => True
  | f :: fs => f.Sound v ∧ Fits f.leftEdge fs ∧ FramesSound v fs

/-- A bracketing that can stand in the frames as it is. -/
structure OperandSound (v : Vocabulary) (fs : List Frame) (r : Bracketing) : Prop where
  isOver : r.Over v
  conflictFree : r.ConflictFree
  fits : Fits r.leftEdge fs

/-- The frames and the operand are sound. On the right edge of the operand nothing waits for an
operand, as all operators that do are in frames of their own. -/
structure Sound (v : Vocabulary) (a : Assembly) : Prop where
  frames : FramesSound v a.frames
  operand : ∀ r ∈ a.operand, OperandSound v a.frames r
  edge : ∀ r ∈ a.operand, ∀ x ∈ r.rightEdge, x.arity = .unary .after

theorem sound_initial : Sound v initial := ⟨trivial, by simp [initial], by simp [initial]⟩

theorem fits_nil (fs : List Frame) : Fits [] fs := by
  cases fs <;> simp [Fits]

theorem OperandSound.fill {f : Frame} {fs : List Frame} {r : Bracketing} (hf : f.isOperator = true)
    (hfs : FramesSound v (f :: fs)) (hr : OperandSound v (f :: fs) r) :
    OperandSound v fs (f.fill r) := by
  obtain ⟨hs, hfit, -⟩ := hfs
  have hedge : Fits (f.fill r).leftEdge fs := by
    rw [Frame.leftEdge_fill hf]
    exact hfit
  cases f with
  | before op => exact ⟨⟨hs, hr.isOver⟩, ⟨hr.conflictFree, hr.fits⟩, hedge⟩
  | binary op l =>
    obtain ⟨hop, hl, hcl, hy⟩ := hs
    exact ⟨⟨hop, hl, hr.isOver⟩, ⟨⟨hcl, hy⟩, hr.conflictFree, hr.fits⟩, hedge⟩
  | opened => cases hf

theorem OperandSound.collapse {p : Frame → Bool} (hp : ∀ f, p f = true → f.isOperator = true)
    {fs : List Frame} {r : Bracketing} (hfs : FramesSound v fs) (hr : OperandSound v fs r) :
    FramesSound v (collapse p r fs).2 ∧
      OperandSound v (Assembly.collapse p r fs).2 (Assembly.collapse p r fs).1 := by
  induction fs generalizing r with
  | nil => exact ⟨hfs, hr⟩
  | cons f fs ih =>
    rw [Assembly.collapse]
    split
    · rename_i h
      exact ih hfs.2.2 (hr.fill (hp f h) hfs)
    · exact ⟨hfs, hr⟩

theorem fits_collapse (op : Operator) (r : Bracketing) (fs : List Frame) :
    Fits [op] (collapse (Frame.appliesBefore op) r fs).2 := by
  induction fs generalizing r with
  | nil => trivial
  | cons f fs ih =>
    rw [collapse]
    split
    · exact ih _
    · rename_i h
      simpa [Fits] using h

/-- The operators that give way to `op` are just those that are taken off the frames for it. -/
theorem yieldsTo_collapse {op : Operator} {r : Bracketing} (hr : r.YieldsTo op) (fs : List Frame) :
    (collapse (Frame.appliesBefore op) r fs).1.YieldsTo op := by
  induction fs generalizing r with
  | nil => exact hr
  | cons f fs ih =>
    rw [collapse]
    split
    · rename_i h
      apply ih
      cases f with
      | before x => exact Bracketing.yieldsTo_before.2 ⟨h, hr⟩
      | binary x l => exact Bracketing.yieldsTo_binary.2 ⟨h, hr⟩
      | opened => cases h
    · exact hr

theorem fits_cons {x : Operator} {edge : List Operator} {fs : List Frame} (h : Fits [x] fs)
    (h' : Fits edge fs) : Fits (x :: edge) fs := by
  cases fs with
  | nil => trivial
  | cons f fs => exact List.forall_mem_cons.2 ⟨h x (List.mem_singleton_self x), h'⟩

/-- After `op` has taken what goes before it off the frames, it may take the operand. -/
theorem Sound.collapse_appliesBefore {fs fs' : List Frame} {r r' : Bracketing} {op : Operator}
    (ha : Sound v ⟨fs, some r⟩) (h : Assembly.collapse (Frame.appliesBefore op) r fs = (r', fs')) :
    FramesSound v fs' ∧ OperandSound v fs' r' ∧ r'.YieldsTo op ∧ Fits (op :: r'.leftEdge) fs' := by
  have hy : r.YieldsTo op := fun x hx => Operator.appliesBefore_of_after (ha.edge r rfl x hx) op
  have hcol := (ha.operand r rfl).collapse (p := Frame.appliesBefore op)
    (fun _ => Frame.isOperator_of_appliesBefore) ha.frames
  have hfit := fits_collapse op r fs
  have hy' := yieldsTo_collapse hy fs
  rw [h] at hcol hfit hy'
  exact ⟨hcol.1, hcol.2, hy', fits_cons hfit hcol.2.fits⟩

theorem Sound.step {a a' : Assembly} {t : Token} (ha : Sound v a) (h : Step v a t a') :
    Sound v a' := by
  cases h with
  | opening _ h => exact ⟨⟨h, fits_nil _, ha.frames⟩, by simp, by simp⟩
  | @closing fs fs' r r' p ho hc h =>
    have hcol := (ha.operand r rfl).collapse (p := Frame.isOperator) (fun _ h => h) ha.frames
    rw [h] at hcol
    obtain ⟨⟨hp, -, hfs'⟩, hr'⟩ := hcol
    refine ⟨hfs', ?_, by simp [Bracketing.rightEdge]⟩
    rintro _ ⟨⟩
    exact ⟨⟨⟨hp, ho⟩, hr'.isOver⟩, hr'.conflictFree, fits_nil _⟩
  | before fs hop hb hd =>
    refine ⟨⟨⟨hop, hb⟩, ?_, ha.frames⟩, by simp, by simp⟩
    cases fs with
    | nil => trivial
    | cons f fs => simp [Fits, Frame.leftEdge, ha.frames.1.appliesBefore_eq_false hb]
  | after hop hb hd h =>
    obtain ⟨hfs, hr, hy, hfit⟩ := ha.collapse_appliesBefore h
    refine ⟨hfs, ?_, ?_⟩
    · rintro _ ⟨⟩
      exact ⟨⟨⟨hop, hb⟩, hr.isOver⟩, ⟨hr.conflictFree, hy⟩, hfit⟩
    · rintro _ ⟨⟩
      simpa [Bracketing.rightEdge] using hb
  | binary hop hb hd h =>
    obtain ⟨hfs, hr, hy, hfit⟩ := ha.collapse_appliesBefore h
    exact ⟨⟨⟨⟨hop, hb⟩, hr.isOver, hr.conflictFree, hy⟩, hfit, hfs⟩, by simp, by simp⟩
  | value _ h =>
    refine ⟨ha.frames, ?_, by simp [Bracketing.rightEdge]⟩
    rintro _ ⟨⟩
    exact ⟨h, trivial, fits_nil _⟩

theorem Sound.finish {a : Assembly} {r : Bracketing} (ha : Sound v a) (h : a.finish = some r) :
    r.Over v ∧ r.tokens = a.tokens ∧ r.ConflictFree := by
  obtain ⟨fs, operand⟩ := a
  obtain ⟨r₀, rfl, hcol⟩ := finish_eq_some_iff.1 h
  have hs := (ha.operand r₀ rfl).collapse (p := Frame.isOperator) (fun _ h => h) ha.frames
  rw [hcol] at hs
  exact ⟨hs.2.isOver, tokens_collapse (fun _ h => h) hcol, hs.2.conflictFree⟩

theorem sound_of_steps {a : Assembly} {ts : List Token} (h : initial.steps v ts = some a) :
    Sound v a ∧ a.tokens = ts := by
  refine steps_induction (P := fun ts a => Sound v a ∧ a.tokens = ts) h ⟨sound_initial, rfl⟩ ?_
  rintro ts a t a' ⟨ha, hts⟩ hs
  exact ⟨ha.step hs, by rw [hs.tokens, hts]⟩

end Assembly

namespace Vocabulary

theorem reads_of_read? {ts : List Token} {r : Bracketing} (h : v.read? ts = some r) :
    r.Reads v ts ∧ r.ConflictFree := by
  obtain ⟨a, ha, hr⟩ := Option.bind_eq_some_iff.1 h
  obtain ⟨hs, rfl⟩ := Assembly.sound_of_steps ha
  obtain ⟨ho, ht, hc⟩ := hs.finish hr
  exact ⟨⟨ho, ht⟩, hc⟩

end Vocabulary

end Fixity
