import Fixity.Proofs.PrintedTypes

/-! Unions stay merged. However type expressions are put together, read and taken apart, no union in
them is a member of another one or has one member only. A union without members can be put together,
but it cannot be read. -/
namespace Fixity

namespace TypeExpression

section

variable [WordClass] {s t x : TypeExpression} {ts ms : List TypeExpression}
  {P : List TypeExpression → Prop}

/-- What holds of names, of arrays of what it holds of, and of unions of such expressions, holds of
all expressions. -/
theorem induction {Q : TypeExpression → Prop} (name : ∀ n, Q (.name n))
    (array : ∀ t, Q t → Q (.array t)) (union : ∀ ts, (∀ t ∈ ts, Q t) → Q (.union ts)) :
    (t : TypeExpression) → Q t
  | .name n => name n
  | .array t => array t (induction name array union t)
  | .union ts => union ts fun t _ => induction name array union t

/-- The first expression stands in the second one, at any depth. -/
inductive Occurs : TypeExpression → TypeExpression → Prop where
  | here {t : TypeExpression} : Occurs t t
  | array {s t : TypeExpression} (h : Occurs s t) : Occurs s (.array t)
  | member {s t : TypeExpression} {ts : List TypeExpression} (ht : t ∈ ts) (h : Occurs s t) :
      Occurs s (.union ts)

/-- The members of each union in the expression are as `P` says. -/
def EachUnion (P : List TypeExpression → Prop) (t : TypeExpression) : Prop :=
  ∀ ms, Occurs (.union ms) t → P ms

theorem eachUnion_name (n : TypeName) : EachUnion P (.name n) := nofun

theorem eachUnion_array_iff : EachUnion P (.array t) ↔ EachUnion P t := by
  constructor
  · exact fun h ms hms => h ms (.array hms)
  · intro h ms hms
    cases hms with
    | array hms => exact h ms hms

theorem eachUnion_union_iff : EachUnion P (.union ts) ↔ P ts ∧ ∀ t ∈ ts, EachUnion P t := by
  constructor
  · exact fun h => ⟨h ts .here, fun t ht ms hms => h ms (.member ht hms)⟩
  · rintro ⟨hts, hmembers⟩ ms hms
    cases hms with
    | here => exact hts
    | member ht hms => exact hmembers _ ht ms hms

theorem EachUnion.of_mem_members (h : EachUnion P t) (hx : x ∈ t.members) : EachUnion P x := by
  cases t with
  | name n =>
    obtain rfl := List.mem_singleton.1 hx
    exact h
  | array t =>
    obtain rfl := List.mem_singleton.1 hx
    exact h
  | union ts => exact (eachUnion_union_iff.1 h).2 x hx

/-- The members of a union that is merged with all unions in it. -/
structure Merged (ms : List TypeExpression) : Prop where
  length_ne_one : ms.length ≠ 1
  isUnion : ∀ m ∈ ms, m.isUnion = false

theorem EachUnion.isUnion_of_mem_members (h : EachUnion Merged t) (hx : x ∈ t.members) :
    x.isUnion = false := by
  cases t with
  | name n =>
    obtain rfl := List.mem_singleton.1 hx
    rfl
  | array t =>
    obtain rfl := List.mem_singleton.1 hx
    rfl
  | union ts => exact (eachUnion_union_iff.1 h).1.isUnion x hx

theorem Merged.unionOf_eq (h : Merged ms) : unionOf ms = .union ms := by
  rw [unionOf, flatMap_members_eq_self h.isUnion]
  split
  · exact absurd rfl h.length_ne_one
  · rfl

theorem eachUnion_unionOf (h : ∀ t ∈ ts, EachUnion Merged t) : EachUnion Merged (unionOf ts) := by
  have hmem : ∀ x ∈ ts.flatMap members, EachUnion Merged x ∧ x.isUnion = false := by
    intro x hx
    obtain ⟨t, ht, hx⟩ := List.mem_flatMap.1 hx
    exact ⟨(h t ht).of_mem_members hx, (h t ht).isUnion_of_mem_members hx⟩
  rw [unionOf]
  split
  · rename_i only honly
    exact (hmem only (by simp [honly])).1
  · rename_i hmany
    rw [eachUnion_union_iff]
    refine ⟨⟨?_, fun x hx => (hmem x hx).2⟩, fun x hx => (hmem x hx).1⟩
    intro hone
    obtain ⟨only, honly⟩ := List.length_eq_one_iff.1 hone
    exact hmany only honly

/-- Flat expressions are those in which each union is merged and has members. -/
theorem flat_iff : t.Flat ↔ EachUnion (fun ms => Merged ms ∧ ms ≠ []) t := by
  induction t using TypeExpression.induction with
  | name n => exact iff_of_true (.name n) (eachUnion_name n)
  | array t ih =>
    rw [eachUnion_array_iff, ← ih]
    constructor
    · intro h
      cases h with
      | array h => exact h
    · exact .array
  | union ts ih =>
    rw [eachUnion_union_iff]
    constructor
    · intro h
      cases h with
      | union htwo hnot hts =>
        have hne : ts ≠ [] := by
          rintro rfl
          simp at htwo
        exact ⟨⟨⟨by omega, hnot⟩, hne⟩, fun t ht => (ih t ht).1 (hts t ht)⟩
    · rintro ⟨⟨hmerged, hne⟩, hts⟩
      have hpos := List.length_pos_iff.2 hne
      have hone := hmerged.length_ne_one
      exact .union (by omega) hmerged.isUnion fun t ht => (ih t ht).2 (hts t ht)

/-- The ways to read an expression. -/
inductive Read : TypeExpression → Prop where
  | parse {input : String} {t : TypeExpression} (h : TypeExpression.parse input = .ok t) : Read t
  | ofTree {a : Tree} {t : TypeExpression} (h : TypeExpression.ofTree a = .ok t) : Read t
  | ofDocument {r : Reading} {d : Document} {t : TypeExpression} (h : ofDocument? r d = some t) :
      Read t

/-- The ways to come by an expression without writing down a union as it is. -/
inductive Obtained : TypeExpression → Prop where
  | read {t : TypeExpression} (h : Read t) : Obtained t
  | name (n : TypeName) : Obtained (.name n)
  | array {t : TypeExpression} (h : Obtained t) : Obtained (.array t)
  | union {ts : List TypeExpression} (h : ∀ t ∈ ts, Obtained t) : Obtained (unionOf ts)
  | member {t x : TypeExpression} (h : Obtained t) (hx : x ∈ t.members) : Obtained x

theorem Read.flat (h : Read t) : t.Flat := by
  cases h with
  | parse h => exact flat_of_parse h
  | ofTree h => exact flat_of_ofTree h
  | ofDocument h =>
    obtain ⟨input, -, hinput⟩ := Option.bind_eq_some_iff.1 h
    cases hparse : TypeExpression.parse input with
    | error e =>
      rw [hparse] at hinput
      cases hinput
    | ok t' =>
      rw [hparse] at hinput
      cases hinput
      exact flat_of_parse hparse

/-- Just the flat expressions are read. -/
theorem read_iff : Read t ↔ EachUnion (fun ms => Merged ms ∧ ms ≠ []) t := by
  rw [← flat_iff]
  constructor
  · exact Read.flat
  · intro h
    have hparse := parse_text t
    rw [h.normalForm_eq_self] at hparse
    exact .parse hparse

theorem obtained_iff : Obtained t ↔ EachUnion Merged t := by
  constructor
  · intro h
    induction h with
    | read h => exact fun ms hms => (read_iff.1 h ms hms).1
    | name n => exact eachUnion_name n
    | array _ ih => exact eachUnion_array_iff.2 ih
    | union _ ih => exact eachUnion_unionOf ih
    | member _ hx ih => exact ih.of_mem_members hx
  · intro h
    induction t using TypeExpression.induction with
    | name n => exact .name n
    | array t ih => exact .array (ih (eachUnion_array_iff.1 h))
    | union ts ih =>
      obtain ⟨hmerged, hts⟩ := eachUnion_union_iff.1 h
      rw [← hmerged.unionOf_eq]
      exact .union fun t ht => ih t ht (hts t ht)

/-- The expressions that can be come by are those in which each union is merged, and those that can
be read have no union without members either. Among them, the union of some unions is the union of
all that these were made of. -/
theorem unions_stay_merged :
    (∀ t, Obtained t ↔ EachUnion Merged t) ∧
    (∀ t, Read t ↔ EachUnion (fun ms => Merged ms ∧ ms ≠ []) t) ∧
    ∀ tss : List (List TypeExpression), (∀ ts ∈ tss, ∀ t ∈ ts, Obtained t) →
      unionOf (tss.map unionOf) = unionOf tss.flatten := by
  refine ⟨fun _ => obtained_iff, fun _ => read_iff, ?_⟩
  intro tss h
  apply unionOf_map_unionOf
  intro ts hts t ht x hx
  exact (obtained_iff.1 (h ts hts t ht)).isUnion_of_mem_members hx

end

/-- A union of a union and an array, of nothing, and of a union without members. -/
theorem unions_stay_merged_of_names :
    let x : TypeExpression := .name (.literal ['X'])
    let y : TypeExpression := .name (.literal ['Y'])
    let tss : List (List TypeExpression) := [[unionOf [x, y], .array x], [], [unionOf []]]
    (∀ ts ∈ tss, ∀ t ∈ ts, Obtained t) ∧
      unionOf (tss.map unionOf) = unionOf tss.flatten ∧
      unionOf tss.flatten = .union [x, y, .array x] := by
  intro x y tss
  have hx : Obtained x := .name _
  have hxy : Obtained (unionOf [x, y]) := .union (by simp [hx, y, Obtained.name])
  have hnone : Obtained (unionOf []) := .union (by simp)
  have htss : ∀ ts ∈ tss, ∀ t ∈ ts, Obtained t := by
    simp [tss, hxy, hx.array, hnone]
  obtain ⟨-, -, hunion⟩ := unions_stay_merged
  exact ⟨htss, hunion tss htss, rfl⟩

end TypeExpression

end Fixity
