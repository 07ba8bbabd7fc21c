/-! Computations that can fail: taken apart at a result and at a failure, and compared with each
other. -/
namespace Fixity

variable {ε δ α β γ : Type}

theorem bind_eq_ok_iff {x : Except ε α} {f : α → Except ε β} {b : β} :
    (x >>= f) = .ok b ↔ ∃ a, x = .ok a ∧ f a = .ok b := by
  cases x with
  | error e =>
    constructor
    · rintro ⟨⟩
    · rintro ⟨_, ⟨⟩, _⟩
  | ok a =>
    constructor
    · exact fun h => ⟨a, rfl, h⟩
    · rintro ⟨_, ⟨⟩, h⟩
      exact h

theorem bind_eq_error_iff {x : Except ε α} {f : α → Except ε β} {e : ε} :
    (x >>= f) = .error e ↔ x = .error e ∨ ∃ a, x = .ok a ∧ f a = .error e := by
  cases x with
  | error e' =>
    constructor
    · rintro ⟨⟩
      exact .inl rfl
    · rintro (⟨⟨⟩⟩ | ⟨_, ⟨⟩, _⟩)
      rfl
  | ok a =>
    constructor
    · exact fun h => .inr ⟨a, rfl, h⟩
    · rintro (⟨⟨⟩⟩ | ⟨_, ⟨⟩, h⟩)
      exact h

theorem exists_eq_ok_iff {x : Except ε α} : (∃ a, x = .ok a) ↔ ∀ e, x ≠ .error e := by
  cases x with
  | error e => simp
  | ok a => simp

@[simp] theorem mapError_ok (f : ε → δ) (a : α) :
    (Except.ok a : Except ε α).mapError f = .ok a := rfl

@[simp] theorem mapError_error (f : ε → δ) (e : ε) :
    (Except.error e : Except ε α).mapError f = .error (f e) := rfl

theorem mapError_eq_ok_iff {x : Except ε α} {f : ε → δ} {a : α} :
    x.mapError f = .ok a ↔ x = .ok a := by
  cases x with
  | error e => constructor <;> rintro ⟨⟩
  | ok a => constructor <;> rintro ⟨⟩ <;> rfl

theorem mapError_eq_error_iff {x : Except ε α} {f : ε → δ} {d : δ} :
    x.mapError f = .error d ↔ ∃ e, x = .error e ∧ f e = d := by
  cases x with
  | error e => simp
  | ok a => simp

/-- Where `f` gives for each item just the result that `u` takes to what `v` makes of the item, a
list is computed to just the results that `u` takes to what `v` makes of the list. -/
theorem mapM_eq_ok_iff {f : α → Except ε β} {u : β → γ} {v : α → γ}
    (h : ∀ x y, f x = .ok y ↔ u y = v x) {xs : List α} {ys : List β} :
    xs.mapM f = .ok ys ↔ ys.map u = xs.map v := by
  induction xs generalizing ys with
  | nil =>
    rw [List.map_nil, List.map_eq_nil_iff]
    constructor <;> rintro ⟨⟩ <;> rfl
  | cons x xs ih =>
    rw [List.mapM_cons, List.map_cons]
    simp only [bind_eq_ok_iff, h, ih, List.map_eq_cons_iff]
    constructor
    · rintro ⟨y, hy, ys, hys, ⟨⟩⟩
      exact ⟨y, ys, rfl, hy, hys⟩
    · rintro ⟨y, ys, rfl, hy, hys⟩
      exact ⟨y, hy, ys, hys, rfl⟩

/-- `e` is a fault of an item, and no item before it has a fault. -/
inductive FirstFault (Fault : α → ε → Prop) : List α → ε → Prop where
  | here {x : α} {xs : List α} {e : ε} (h : Fault x e) : FirstFault Fault (x :: xs) e
  | later {x : α} {xs : List α} {e : ε} (hx : ∀ e', ¬Fault x e') (h : FirstFault Fault xs e) :
    FirstFault Fault (x :: xs) e

/-- No item has a fault. -/
def Faultless (Fault : α → ε → Prop) (xs : List α) : Prop := ∀ x ∈ xs, ∀ e, ¬Fault x e

section FirstFault

variable {Fault : γ → ε → Prop} {v : α → γ}

theorem faultless_cons_iff {x : γ} {xs : List γ} :
    Faultless Fault (x :: xs) ↔ (∀ e, ¬Fault x e) ∧ Faultless Fault xs := List.forall_mem_cons

theorem forall_not_firstFault_iff {xs : List γ} :
    (∀ e, ¬FirstFault Fault xs e) ↔ Faultless Fault xs := by
  induction xs with
  | nil =>
    constructor
    · rintro - x ⟨⟩
    · rintro - e ⟨⟩
  | cons x xs ih =>
    rw [faultless_cons_iff, ← ih]
    constructor
    · intro h
      have hx : ∀ e, ¬Fault x e := fun e he => h e (.here he)
      exact ⟨hx, fun e he => h e (.later hx he)⟩
    · rintro ⟨hx, hxs⟩ e (he | ⟨-, he⟩)
      · exact hx e he
      · exact hxs e he

/-- A list for which `f` fails is computed up to the first item for which it fails. -/
theorem mapM_eq_error_iff {f : α → Except ε β} (h : ∀ x e, f x = .error e ↔ Fault (v x) e)
    {xs : List α} {e : ε} : xs.mapM f = .error e ↔ FirstFault Fault (xs.map v) e := by
  induction xs with
  | nil => constructor <;> rintro ⟨⟩
  | cons x xs ih =>
    rw [List.mapM_cons, List.map_cons]
    simp only [bind_eq_error_iff, h, ih]
    constructor
    · rintro (hx | ⟨y, hy, hxs | ⟨_, _, ⟨⟩⟩⟩)
      · exact .here hx
      · refine .later (fun e' he' => ?_) hxs
        rw [(h x e').2 he'] at hy
        cases hy
    · rintro (hx | ⟨hx, hxs⟩)
      · exact .inl hx
      · obtain ⟨y, hy⟩ := exists_eq_ok_iff.2 fun e' he' => hx e' ((h x e').1 he')
        exact .inr ⟨y, hy, .inl hxs⟩

theorem exists_mapM_eq_ok_iff {f : α → Except ε β} (h : ∀ x e, f x = .error e ↔ Fault (v x) e)
    {xs : List α} : (∃ ys, xs.mapM f = .ok ys) ↔ Faultless Fault (xs.map v) := by
  rw [exists_eq_ok_iff, ← forall_not_firstFault_iff]
  exact forall_congr' fun _ => not_congr (mapM_eq_error_iff h)

theorem findSome?_eq_some_iff_firstFault {f : α → Option ε}
    (h : ∀ x e, f x = some e ↔ Fault (v x) e) {xs : List α} {e : ε} :
    xs.findSome? f = some e ↔ FirstFault Fault (xs.map v) e := by
  induction xs with
  | nil => constructor <;> rintro ⟨⟩
  | cons x xs ih =>
    rw [List.findSome?_cons, List.map_cons]
    cases hf : f x with
    | none =>
      have hx : ∀ e', ¬Fault (v x) e' := fun e' he' => by
        rw [(h x e').2 he'] at hf
        cases hf
      refine ih.trans ⟨.later hx, ?_⟩
      rintro (hhere | ⟨-, hlater⟩)
      · exact absurd hhere (hx e)
      · exact hlater
    | some e' =>
      have hx := (h x e').1 hf
      constructor
      · rintro ⟨⟩
        exact .here hx
      · rintro (hhere | ⟨hnone, -⟩)
        · exact hf.symm.trans ((h x e).2 hhere)
        · exact absurd hx (hnone e')

end FirstFault

/-- Two computations fail in the same way, or both give a result and the results are related. -/
inductive SameUpTo (R : α → β → Prop) : Except ε α → Except ε β → Prop where
  | ok {a : α} {b : β} (h : R a b) : SameUpTo R (.ok a) (.ok b)
  | error (e : ε) : SameUpTo R (.error e) (.error e)

theorem SameUpTo.imp {R S : α → β → Prop} {x : Except ε α} {y : Except ε β}
    (h : SameUpTo R x y) (hRS : ∀ a b, R a b → S a b) : SameUpTo S x y := by
  cases h with
  | ok hab => exact .ok (hRS _ _ hab)
  | error e => exact .error e

theorem SameUpTo.bind {R : α → β → Prop} {S : γ → δ → Prop} {x : Except ε α} {y : Except ε β}
    {f : α → Except ε γ} {g : β → Except ε δ} (h : SameUpTo R x y)
    (hfg : ∀ a b, R a b → SameUpTo S (f a) (g b)) : SameUpTo S (x >>= f) (y >>= g) := by
  cases h with
  | ok hab => exact hfg _ _ hab
  | error e => exact .error e

theorem SameUpTo.foldlM {R : α → β → Prop} {f : α → γ → Except ε α} {g : β → γ → Except ε β}
    (hstep : ∀ a b x, R a b → SameUpTo R (f a x) (g b x)) {a : α} {b : β} (h : R a b)
    (xs : List γ) : SameUpTo R (xs.foldlM f a) (xs.foldlM g b) := by
  induction xs generalizing a b with
  | nil => exact .ok h
  | cons x xs ih =>
    rw [List.foldlM_cons, List.foldlM_cons]
    exact (hstep a b x h).bind fun _ _ => ih

theorem SameUpTo.mapError {R : α → β → Prop} {x : Except ε α} {y : Except ε β} (f : ε → δ)
    (h : SameUpTo R x y) : SameUpTo R (x.mapError f) (y.mapError f) := by
  cases h with
  | ok hab => exact .ok hab
  | error e => exact .error (f e)

theorem sameUpTo_of_map_eq {f : α → γ} {g : β → γ} {x : Except ε α} {y : Except ε β}
    (h : x.map f = y.map g) : SameUpTo (fun a b => f a = g b) x y := by
  cases x with
  | error e =>
    cases y with
    | error e' =>
      cases h
      exact .error e
    | ok b => cases h
  | ok a =>
    cases y with
    | error e' => cases h
    | ok b => exact .ok (Except.ok.inj h)

end Fixity
