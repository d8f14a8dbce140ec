import ApiBinding.Proofs.Document.Addresses
import Mathlib.Logic.Relation

/-!
# The references of a description

A description has finitely many schemas and holds at most as many references.  What a
resolution goes through is bounded by these two numbers.

## Main definitions

* `Schema.Inside` — a schema that stands directly inside another one.
* `Schema.references`, `Document.references` — all references that are written down.
* `Schema.Enters` — how the first steps of a pointer enter a schema.

## Main results

* `Schema.Inside.size_lt`, `Schema.Inside.references_subset` — what is inside is smaller
  and holds no other references.
* `Schema.length_references_le` — there are at most as many references as schemas.
* `Schema.exists_enters` — steps that lead somewhere enter the schema and go on from there.
* `Document.addressed?_size_le`, `Document.addressed?_references` — both for what a
  pointer addresses.
-/

namespace ApiBinding

namespace Schema

/-- A schema that stands directly inside another one. -/
inductive Inside : Schema → Schema → Prop where
  | property {s : Schema} {p : String × Schema} (h : p ∈ s.properties) : Inside p.2 s
  | items {s t : Schema} (h : s.items = some t) : Inside t s
  | additional {s t : Schema} (h : s.additional = some (.schema t)) : Inside t s
  | allOf {s t : Schema} (h : t ∈ s.allOf) : Inside t s
  | oneOf {s t : Schema} (h : t ∈ s.oneOf) : Inside t s
  | anyOf {s t : Schema} (h : t ∈ s.anyOf) : Inside t s

/-! ### References -/

mutual

/-- All references of a schema. -/
def references : Schema → List String
  | ⟨_, reference, properties, _, items, _, _, allOf, oneOf, anyOf, _, additional, _, _, _, _, _⟩ =>
    reference.toList ++ referencesTable properties ++ referencesOption items
      ++ referencesList allOf ++ referencesList oneOf ++ referencesList anyOf
      ++ referencesAdditional additional

/-- All references of a table of schemas. -/
def referencesTable : List (String × Schema) → List String
  | [] => []
  | (_, s) :: rest => references s ++ referencesTable rest

/-- All references of a list of schemas. -/
def referencesList : List Schema → List String
  | [] => []
  | s :: rest => references s ++ referencesList rest

/-- All references of an optional schema. -/
def referencesOption : Option Schema → List String
  | none => []
  | some s => references s

/-- All references of an `additionalProperties` keyword. -/
def referencesAdditional : Option (Additional Schema) → List String
  | some (.schema s) => references s
  | some (.permitted _) => []
  | none => []

end

theorem references_eq (s : Schema) :
    s.references = s.reference.toList ++ referencesTable s.properties ++ referencesOption s.items
      ++ referencesList s.allOf ++ referencesList s.oneOf ++ referencesList s.anyOf
      ++ referencesAdditional s.additional := by
  cases s
  rfl

mutual

/-- **There are at most as many references as schemas.** -/
theorem length_references_le : ∀ s : Schema, s.references.length ≤ s.size
  | ⟨_, reference, properties, _, items, _, _, allOf, oneOf, anyOf, _, additional,
      _, _, _, _, _⟩ => by
    have hreference : reference.toList.length ≤ 1 := by cases reference <;> simp
    have hproperties := length_referencesTable_le properties
    have hitems := length_referencesOption_le items
    have hall := length_referencesList_le allOf
    have hone := length_referencesList_le oneOf
    have hany := length_referencesList_le anyOf
    have hadditional := length_referencesAdditional_le additional
    simp only [references, size, List.length_append]
    omega

theorem length_referencesTable_le :
    ∀ ps : List (String × Schema), (referencesTable ps).length ≤ sizeTable ps
  | [] => Nat.le_refl 0
  | (_, s) :: rest => by
    have hs := length_references_le s
    have hrest := length_referencesTable_le rest
    simp only [referencesTable, sizeTable, List.length_append]
    omega

theorem length_referencesList_le :
    ∀ ss : List Schema, (referencesList ss).length ≤ sizeList ss
  | [] => Nat.le_refl 0
  | s :: rest => by
    have hs := length_references_le s
    have hrest := length_referencesList_le rest
    simp only [referencesList, sizeList, List.length_append]
    omega

theorem length_referencesOption_le :
    ∀ o : Option Schema, (referencesOption o).length ≤ sizeOption o
  | none => Nat.le_refl 0
  | some s => length_references_le s

theorem length_referencesAdditional_le :
    ∀ a : Option (Additional Schema), (referencesAdditional a).length ≤ sizeAdditional a
  | none => Nat.le_refl 0
  | some (.permitted _) => Nat.le_refl 0
  | some (.schema s) => length_references_le s

end

/-! ### What is inside -/

theorem size_pos (s : Schema) : 0 < s.size := by
  rw [size_eq]
  omega

theorem size_le_sizeTable {ps : List (String × Schema)} {p : String × Schema} (h : p ∈ ps) :
    p.2.size ≤ sizeTable ps := by
  induction ps with
  | nil => simp at h
  | cons q rest ih =>
    rw [sizeTable]
    rcases List.mem_cons.1 h with rfl | h
    · omega
    · have := ih h
      omega

theorem size_le_sizeList {ss : List Schema} {s : Schema} (h : s ∈ ss) : s.size ≤ sizeList ss := by
  induction ss with
  | nil => simp at h
  | cons t rest ih =>
    rw [sizeList]
    rcases List.mem_cons.1 h with rfl | h
    · omega
    · have := ih h
      omega

theorem references_subset_table {ps : List (String × Schema)} {p : String × Schema} (h : p ∈ ps) :
    p.2.references ⊆ referencesTable ps := by
  induction ps with
  | nil => simp at h
  | cons q rest ih =>
    rw [referencesTable]
    rcases List.mem_cons.1 h with rfl | h
    · exact List.subset_append_left _ _
    · exact List.Subset.trans (ih h) (List.subset_append_right _ _)

theorem references_subset_list {ss : List Schema} {s : Schema} (h : s ∈ ss) :
    s.references ⊆ referencesList ss := by
  induction ss with
  | nil => simp at h
  | cons t rest ih =>
    rw [referencesList]
    rcases List.mem_cons.1 h with rfl | h
    · exact List.subset_append_left _ _
    · exact List.Subset.trans (ih h) (List.subset_append_right _ _)

/-- What is inside is smaller. -/
theorem Inside.size_lt {t s : Schema} (h : Inside t s) : t.size < s.size := by
  rw [size_eq s]
  cases h with
  | property h => have := size_le_sizeTable h; omega
  | items h => rw [h, sizeOption]; omega
  | additional h => rw [h, sizeAdditional]; omega
  | allOf h => have := size_le_sizeList h; omega
  | oneOf h => have := size_le_sizeList h; omega
  | anyOf h => have := size_le_sizeList h; omega

/-- What is inside holds no other references. -/
theorem Inside.references_subset {t s : Schema} (h : Inside t s) : t.references ⊆ s.references := by
  intro p hp
  rw [references_eq s]
  simp only [List.mem_append]
  cases h with
  | property h => have := references_subset_table h hp; tauto
  | items h => rw [h]; simp only [referencesOption]; tauto
  | additional h => rw [h]; simp only [referencesAdditional]; tauto
  | allOf h => have := references_subset_list h hp; tauto
  | oneOf h => have := references_subset_list h hp; tauto
  | anyOf h => have := references_subset_list h hp; tauto

theorem mem_references_of_reference {s : Schema} {p : String} (h : s.reference = some p) :
    p ∈ s.references := by
  rw [references_eq, h]
  simp

/-! ### Steps into a schema -/

/-- The first steps of a pointer lead to a schema directly inside, and some steps are left. -/
inductive Enters (s : Schema) : List String → Schema → List String → Prop where
  | property {t : Schema} {key : String} {rest : List String}
      (h : Table.get? s.properties key = some t) : Enters s ("properties" :: key :: rest) t rest
  | items {t : Schema} {rest : List String} (h : s.items = some t) :
      Enters s ("items" :: rest) t rest
  | additional {t : Schema} {rest : List String} (h : s.additional = some (.schema t)) :
      Enters s ("additionalProperties" :: rest) t rest
  | allOf {t : Schema} {step : String} {index : Nat} {rest : List String}
      (hi : listIndex? step = some index) (h : s.allOf[index]? = some t) :
      Enters s ("allOf" :: step :: rest) t rest
  | oneOf {t : Schema} {step : String} {index : Nat} {rest : List String}
      (hi : listIndex? step = some index) (h : s.oneOf[index]? = some t) :
      Enters s ("oneOf" :: step :: rest) t rest
  | anyOf {t : Schema} {step : String} {index : Nat} {rest : List String}
      (hi : listIndex? step = some index) (h : s.anyOf[index]? = some t) :
      Enters s ("anyOf" :: step :: rest) t rest

theorem Enters.inside {s t : Schema} {steps more : List String} (h : s.Enters steps t more) :
    Inside t s := by
  cases h with
  | property h => exact .property (Table.mem_of_get? h)
  | items h => exact .items h
  | additional h => exact .additional h
  | allOf hi h => exact .allOf (List.mem_of_getElem? h)
  | oneOf hi h => exact .oneOf (List.mem_of_getElem? h)
  | anyOf hi h => exact .anyOf (List.mem_of_getElem? h)

theorem Enters.length_lt {s t : Schema} {steps more : List String} (h : s.Enters steps t more) :
    more.length < steps.length := by
  cases h <;> simp only [List.length_cons] <;> omega

/-- **Steps that lead somewhere enter the schema** and go on from there. -/
theorem exists_enters {s t : Schema} {step : String} {rest : List String}
    (h : s.at? (step :: rest) = some t) :
    ∃ u more, s.Enters (step :: rest) u more ∧ u.at? more = some t := by
  rcases rest with _ | ⟨next, rest⟩
  · simp only [at?] at h
    split at h
    · subst step
      exact ⟨t, [], .items h, rfl⟩
    split at h
    · subst step
      split at h
      · exact ⟨t, [], .additional (Option.some.inj h ▸ ‹_›), rfl⟩
      · simp at h
    · simp at h
  · rw [at?] at h
    split at h
    · subst step
      obtain ⟨u, hu, h⟩ := Option.bind_eq_some_iff.1 h
      exact ⟨u, rest, .property hu, h⟩
    split at h
    · subst step
      obtain ⟨u, hu, h⟩ := Option.bind_eq_some_iff.1 h
      exact ⟨u, next :: rest, .items hu, h⟩
    split at h
    · subst step
      split at h
      · exact ⟨_, next :: rest, .additional ‹_›, h⟩
      · simp at h
    split at h
    · subst step
      obtain ⟨u, hu, h⟩ := Option.bind_eq_some_iff.1 h
      obtain ⟨index, hi, hu⟩ := Option.bind_eq_some_iff.1 hu
      exact ⟨u, rest, .allOf hi hu, h⟩
    split at h
    · subst step
      obtain ⟨u, hu, h⟩ := Option.bind_eq_some_iff.1 h
      obtain ⟨index, hi, hu⟩ := Option.bind_eq_some_iff.1 hu
      exact ⟨u, rest, .oneOf hi hu, h⟩
    split at h
    · subst step
      obtain ⟨u, hu, h⟩ := Option.bind_eq_some_iff.1 h
      obtain ⟨index, hi, hu⟩ := Option.bind_eq_some_iff.1 hu
      exact ⟨u, rest, .anyOf hi hu, h⟩
    · simp at h

/-- What steps lead to is the schema itself or lies inside it. -/
theorem at?_inside {s t : Schema} :
    ∀ {steps : List String}, s.at? steps = some t → Relation.ReflTransGen Inside t s
  | [], h => Option.some.inj h ▸ .refl
  | step :: rest, h => by
    obtain ⟨u, more, hu, ht⟩ := exists_enters h
    exact (at?_inside ht).tail hu.inside
termination_by steps => steps.length
decreasing_by exact hu.length_lt

theorem size_le_of_inside {s t : Schema} (h : Relation.ReflTransGen Inside t s) :
    t.size ≤ s.size := by
  induction h with
  | refl => exact Nat.le_refl _
  | tail _ hstep ih => exact Nat.le_trans ih (Nat.le_of_lt hstep.size_lt)

theorem references_subset_of_inside {s t : Schema} (h : Relation.ReflTransGen Inside t s) :
    t.references ⊆ s.references := by
  induction h with
  | refl => exact List.Subset.refl _
  | tail _ hstep ih => exact List.Subset.trans ih hstep.references_subset

end Schema

/-! ### Descriptions -/

namespace Document

/-- All references of the components. -/
def references (d : Document) : List String := Schema.referencesTable d.components.schemas

theorem length_references_le (d : Document) : d.references.length ≤ d.size :=
  Schema.length_referencesTable_le d.components.schemas

/-- What a pointer addresses lies in a component. -/
theorem addressed?_inside {d : Document} {pointer : String} {t : Schema}
    (h : d.addressed? pointer = some t) :
    ∃ c s, d.schema? c = some s ∧ Relation.ReflTransGen Schema.Inside t s := by
  obtain ⟨parts, -, h⟩ := Option.bind_eq_some_iff.1 h
  obtain ⟨s, hs, ht⟩ := Option.bind_eq_some_iff.1 h
  exact ⟨parts.1, s, hs, Schema.at?_inside ht⟩

/-- What a pointer addresses is no larger than all components together. -/
theorem addressed?_size_le {d : Document} {pointer : String} {t : Schema}
    (h : d.addressed? pointer = some t) : t.size ≤ d.size := by
  obtain ⟨c, s, hs, hin⟩ := addressed?_inside h
  exact Nat.le_trans (Schema.size_le_of_inside hin)
    (Schema.size_le_sizeTable (Table.mem_of_get? hs))

/-- What a pointer addresses holds no references that the components do not hold. -/
theorem addressed?_references {d : Document} {pointer : String} {t : Schema}
    (h : d.addressed? pointer = some t) : t.references ⊆ d.references := by
  obtain ⟨c, s, hs, hin⟩ := addressed?_inside h
  exact List.Subset.trans (Schema.references_subset_of_inside hin)
    (Schema.references_subset_table (Table.mem_of_get? hs))

end Document

end ApiBinding
