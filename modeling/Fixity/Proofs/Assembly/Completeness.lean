import Fixity.Proofs.Assembly.Soundness

/-! Every bracketing without conflicts is the one that an assembly yields on its tokens. After them
the operators on its right edge still wait in frames, from which the bracketing is put together
again. -/
namespace Fixity

namespace Bracketing

/-- The frames that wait after the last token of the bracketing, innermost first. -/
def spine : Bracketing → List Frame
  | value _ => []
  | before op r => r.spine ++ [.before op]
  | after _ _ => []
  | binary op l r => r.spine ++ [.binary op l]
  | enclosed _ _ => []

/-- The operand that waits with them. -/
def tip : Bracketing → Bracketing
  | value t => value t
  | before _ r => r.tip
  | after op r => after op r
  | binary _ _ r => r.tip
  | enclosed p r => enclosed p r

theorem isOperator_of_mem_spine {r : Bracketing} : ∀ f ∈ r.spine, f.isOperator = true := by
  induction r with
  | before op r ih => simpa [spine, or_imp, forall_and, Frame.isOperator] using ih
  | binary op l r _ ih => simpa [spine, or_imp, forall_and, Frame.isOperator] using ih
  | _ => simp [spine]

theorem YieldsTo.appliesBefore_of_mem_spine {r : Bracketing} {op : Operator} (h : r.YieldsTo op) :
    ∀ f ∈ r.spine, f.appliesBefore op = true := by
  induction r with
  | before x r ih =>
    obtain ⟨hx, hr⟩ := yieldsTo_before.1 h
    simpa [spine, or_imp, forall_and, Frame.appliesBefore] using ⟨ih hr, hx⟩
  | binary x l r _ ih =>
    obtain ⟨hx, hr⟩ := yieldsTo_binary.1 h
    simpa [spine, or_imp, forall_and, Frame.appliesBefore] using ⟨ih hr, hx⟩
  | _ => simp [spine]

end Bracketing

namespace Assembly

/-- Filling the frames of the spine gives the bracketing back. -/
theorem collapse_spine {p : Frame → Bool} {r : Bracketing} (h : ∀ f ∈ r.spine, p f = true)
    (fs : List Frame) : collapse p r.tip (r.spine ++ fs) = collapse p r fs := by
  induction r generalizing fs with
  | before op r ih =>
    simp only [Bracketing.spine, List.forall_mem_append, List.forall_mem_singleton] at h
    rw [Bracketing.spine, Bracketing.tip, List.append_assoc, ih h.1, List.singleton_append,
      collapse, if_pos h.2]
    rfl
  | binary op l r _ ih =>
    simp only [Bracketing.spine, List.forall_mem_append, List.forall_mem_singleton] at h
    rw [Bracketing.spine, Bracketing.tip, List.append_assoc, ih h.1, List.singleton_append,
      collapse, if_pos h.2]
    rfl
  | _ => rfl

theorem collapse_of_fits {op : Operator} {fs : List Frame} (r : Bracketing) (h : Fits [op] fs) :
    collapse (Frame.appliesBefore op) r fs = (r, fs) := by
  cases fs with
  | nil => rfl
  | cons f fs => simp [collapse, h op (List.mem_singleton_self op)]

/-- What precedes an operator is taken off the frames down to those that resist it. -/
theorem collapse_spine_of_fits {r : Bracketing} {op : Operator} {fs : List Frame}
    (hy : r.YieldsTo op) (hf : Fits [op] fs) :
    collapse (Frame.appliesBefore op) r.tip (r.spine ++ fs) = (r, fs) := by
  rw [collapse_spine hy.appliesBefore_of_mem_spine, collapse_of_fits r hf]

theorem Fits.mono {edge edge' : List Operator} {fs : List Frame} (h : Fits edge fs)
    (hs : edge' ⊆ edge) : Fits edge' fs := by
  cases fs with
  | nil => trivial
  | cons f fs => exact fun x hx => h x (hs hx)

variable {g : Grammar}

/-- A bracketing without conflicts is assembled on top of any frames that resist its left edge. -/
theorem steps_tokens {r : Bracketing} (ho : r.Over g.toVocabulary) (hc : r.ConflictFree)
    (fs : List Frame) (hf : Fits r.leftEdge fs) :
    steps g.toVocabulary ⟨fs, none⟩ r.tokens = some ⟨r.spine ++ fs, some r.tip⟩ := by
  induction r generalizing fs with
  | value t => exact (Step.value fs ho).steps
  | before op r ih =>
    obtain ⟨⟨hop, ha⟩, ho⟩ := ho
    have h₁ := (Step.before fs hop ha (Grammar.isDelimiter_symbol hop)).steps
    have h₂ := ih ho hc.1 (.before op :: fs) hc.2
    simpa [Bracketing.tokens, Bracketing.spine, Bracketing.tip] using steps_trans h₁ h₂
  | after op r ih =>
    obtain ⟨⟨hop, ha⟩, ho⟩ := ho
    have h₁ := ih ho hc.1 fs (hf.mono (List.subset_cons_self _ _))
    have h₂ := (Step.after hop ha (Grammar.isDelimiter_symbol hop)
      (collapse_spine_of_fits hc.2 (hf.mono (by simp [Bracketing.leftEdge])))).steps
    exact steps_trans h₁ h₂
  | binary op l r ihl ihr =>
    obtain ⟨⟨hop, ha⟩, hol, hor⟩ := ho
    obtain ⟨⟨hcl, hy⟩, hcr, hres⟩ := hc
    have h₁ := ihl hol hcl fs (hf.mono (List.subset_cons_self _ _))
    have h₂ := (Step.binary hop ha (Grammar.isDelimiter_symbol hop)
      (collapse_spine_of_fits hy (hf.mono (by simp [Bracketing.leftEdge])))).steps
    have h₃ := ihr hor hcr (.binary op l :: fs) hres
    simpa [Bracketing.tokens, Bracketing.spine, Bracketing.tip] using
      steps_trans h₁ (steps_trans h₂ h₃)
  | enclosed p r ih =>
    obtain ⟨hp, ho⟩ := ho
    have h₁ := (Step.opening fs hp.1).steps
    have h₂ := ih ho hc (.opened p :: fs) (fun _ _ => rfl)
    have hcol : collapse Frame.isOperator r.tip (r.spine ++ .opened p :: fs) =
        (r, .opened p :: fs) := collapse_spine Bracketing.isOperator_of_mem_spine _
    have h₃ := (Step.closing hp.2 hp.isClosing hcol).steps
    exact steps_trans h₁ (steps_trans h₂ h₃)

end Assembly

namespace Grammar

variable {g : Grammar} {ts : List Token} {r : Bracketing}

theorem read?_tokens (ho : r.Over g.toVocabulary) (hc : r.ConflictFree) :
    g.read? r.tokens = some r := by
  have hs := Assembly.steps_tokens ho hc [] trivial
  have hcol : Assembly.collapse Frame.isOperator r.tip (r.spine ++ []) = (r, []) :=
    Assembly.collapse_spine Bracketing.isOperator_of_mem_spine _
  rw [Vocabulary.read?, Assembly.initial, hs, Option.bind_some, Assembly.finish_eq_some_iff]
  exact ⟨r.tip, rfl, hcol⟩

theorem read?_eq_some_iff : g.read? ts = some r ↔ r.Reads g.toVocabulary ts ∧ r.ConflictFree := by
  constructor
  · exact Vocabulary.reads_of_read?
  · rintro ⟨⟨ho, rfl⟩, hc⟩
    exact read?_tokens ho hc

end Grammar

end Fixity
