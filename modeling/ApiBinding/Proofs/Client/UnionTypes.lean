import ApiBinding.Proofs.Compilation.Canonical

/-!
# Unions of types

The union of types is made from their leaves: optional layers and unions are opened, from left to
right and at every depth, until only types are left that are neither.  What the union is depends on
nothing else than these leaves, in the order in which they first occur, and on whether an optional
layer was opened.  A union that was made before has the leaves of what it was made from, so it does
not matter how types are grouped.

## Main definitions

* `TypeRef.Flattens` — types are opened until only leaves are left.
* `TypeRef.UnionForm` — the form of a union with given leaves.
* `TypeRef.Constructed` — types that are put together by the constructors.

## Main results

* `TypeRef.flattens_iff` — every list of types is opened in one way.
* `TypeRef.constructed_iff_canonical` — the constructors make the canonical types, all of them.
* `TypeRef.unionForm_unionOf` — a union has the form of its leaves.
* `TypeRef.unionOf_laws` — **the form of unions, whatever the types; and grouping does not count.**
-/

namespace ApiBinding

namespace TypeRef

/-! ### Flattening -/

/-- Types are opened from left to right: an optional layer is taken off, the members of a union
take its place, and what is neither stays as a leaf.  The flag says whether an optional layer was
met. -/
inductive Flattens : List TypeRef → List TypeRef → Bool → Prop where
  | nil : Flattens [] [] false
  | optional {inner : TypeRef} {rest leaves : List TypeRef} {met : Bool}
      (h : Flattens (inner :: rest) leaves met) : Flattens (.optional inner :: rest) leaves true
  | union {members rest leaves : List TypeRef} {met : Bool}
      (h : Flattens (members ++ rest) leaves met) : Flattens (.union members :: rest) leaves met
  | leaf {t : TypeRef} {rest leaves : List TypeRef} {met : Bool} (ht : t.isLayer = false)
      (h : Flattens rest leaves met) : Flattens (t :: rest) (t :: leaves) met

theorem leavesOf_append (ts us : List TypeRef) :
    leavesOf (ts ++ us) = leavesOf ts ++ leavesOf us := by
  induction ts with
  | nil => rfl
  | cons t rest ih => rw [List.cons_append, leavesOf, leavesOf, ih, List.append_assoc]

theorem someMeetsOptional_append (ts us : List TypeRef) :
    someMeetsOptional (ts ++ us) = (someMeetsOptional ts || someMeetsOptional us) := by
  induction ts with
  | nil => rfl
  | cons t rest ih =>
    rw [List.cons_append, someMeetsOptional, someMeetsOptional, ih, Bool.or_assoc]

theorem meetsOptional_of_isLayer {t : TypeRef} (h : t.isLayer = false) :
    t.meetsOptional = false := by
  cases t with
  | optional inner => simp [isLayer] at h
  | union members => simp [isLayer] at h
  | _ => rfl

theorem someMeetsOptional_of_isLayer :
    ∀ {ts : List TypeRef}, (∀ t ∈ ts, t.isLayer = false) → someMeetsOptional ts = false
  | [], _ => rfl
  | t :: rest, h => by
    rw [someMeetsOptional, meetsOptional_of_isLayer (h t (.head _)),
      someMeetsOptional_of_isLayer fun u hu => h u (.tail _ hu)]
    rfl

/-- What types are opened to are their leaves. -/
theorem Flattens.eq {ts leaves : List TypeRef} {met : Bool} (h : Flattens ts leaves met) :
    leaves = leavesOf ts ∧ met = someMeetsOptional ts := by
  induction h with
  | nil => exact ⟨rfl, rfl⟩
  | optional _ ih => exact ⟨ih.1, by simp [someMeetsOptional, meetsOptional]⟩
  | union _ ih =>
    rw [leavesOf_append, someMeetsOptional_append] at ih
    exact ih
  | leaf ht _ ih =>
    rw [leavesOf, someMeetsOptional, leaves_of_isLayer ht, meetsOptional_of_isLayer ht]
    exact ⟨by rw [ih.1]; rfl, ih.2⟩

mutual

/-- A type in front of types that are opened is opened too. -/
theorem Flattens.cons : ∀ (t : TypeRef) {rest more : List TypeRef} {met : Bool},
    Flattens rest more met → Flattens (t :: rest) (leaves t ++ more) (meetsOptional t || met)
  | .any, _, _, _, h => .leaf rfl h
  | .scalar _, _, _, _, h => .leaf rfl h
  | .reference _, _, _, _, h => .leaf rfl h
  | .list _, _, _, _, h => .leaf rfl h
  | .dict _, _, _, _, h => .leaf rfl h
  | .optional inner, _, _, _, h => .optional (Flattens.cons inner h)
  | .union members, _, _, _, h => .union (Flattens.append members h)

theorem Flattens.append : ∀ (ts : List TypeRef) {rest more : List TypeRef} {met : Bool},
    Flattens rest more met →
      Flattens (ts ++ rest) (leavesOf ts ++ more) (someMeetsOptional ts || met)
  | [], _, _, _, h => h
  | t :: ts, _, _, _, h => by
    rw [leavesOf, someMeetsOptional, List.append_assoc, Bool.or_assoc]
    exact Flattens.cons t (Flattens.append ts h)

end

/-- **Every list of types is opened, in one way**: to its leaves. -/
theorem flattens_iff {ts leaves : List TypeRef} {met : Bool} :
    Flattens ts leaves met ↔ leaves = leavesOf ts ∧ met = someMeetsOptional ts := by
  constructor
  · exact Flattens.eq
  · rintro ⟨rfl, rfl⟩
    simpa using Flattens.append ts .nil

/-! ### The form of a union -/

/-- The types that a type chooses from, an optional layer around them left aside. -/
def choices (t : TypeRef) : List TypeRef :=
  match t.nonOptional with
  | .union members => members
  | u => [u]

/-- The form of the union of the leaves, which is optional or not: the choices are the distinct
leaves in order of first occurrence, or any value if there are no leaves. -/
structure UnionForm (leaves : List TypeRef) (met : Bool) (t : TypeRef) : Prop where
  /-- The type is optional iff an optional layer was met. -/
  optional : t.isOptional = met
  /-- Optional layers do not nest. -/
  single : ∀ inner, t = .optional inner → inner.isOptional = false
  /-- A union has at least two members, all of them different, none of them optional or a union. -/
  union : ∀ members, t.nonOptional = .union members →
    2 ≤ members.length ∧ members.Nodup ∧ ∀ member ∈ members, member.isLayer = false
  any : leaves = [] → t.nonOptional = .any
  choices : leaves ≠ [] → FirstOccurrences leaves t.choices

section Leaves

variable {kept : List TypeRef}

theorem isOptional_ofLeaves (h : ∀ t ∈ kept, t.isLayer = false) :
    (ofLeaves kept).isOptional = false := by
  match kept, h with
  | [], _ => rfl
  | [t], h =>
    have ht := h t (.head _)
    cases t with
    | optional inner => simp [isLayer] at ht
    | _ => rfl
  | _ :: _ :: _, _ => rfl

theorem leaves_ofLeaves (hne : kept ≠ []) (h : ∀ t ∈ kept, t.isLayer = false) :
    (ofLeaves kept).leaves = kept := by
  match kept, hne, h with
  | [t], _, h => exact leaves_of_isLayer (h t (.head _))
  | _ :: _ :: _, _, h => exact leavesOf_of_isLayer h

theorem meetsOptional_ofLeaves (h : ∀ t ∈ kept, t.isLayer = false) :
    (ofLeaves kept).meetsOptional = false := by
  match kept, h with
  | [], _ => rfl
  | [t], h => exact meetsOptional_of_isLayer (h t (.head _))
  | _ :: _ :: _, h => exact someMeetsOptional_of_isLayer h

/-- If a union is made of leaves, these are its members, and there are two of them at least. -/
theorem ofLeaves_eq_union {members : List TypeRef} (h : ∀ t ∈ kept, t.isLayer = false)
    (heq : ofLeaves kept = .union members) : members = kept ∧ 2 ≤ members.length := by
  match kept, h with
  | [], _ => simp [ofLeaves] at heq
  | [t], h =>
    have ht := h t (.head _)
    rw [ofLeaves] at heq
    simp [heq, isLayer] at ht
  | t :: t' :: rest, _ =>
    have hmembers : t :: t' :: rest = members := by simpa [ofLeaves] using heq
    rw [← hmembers, List.length_cons, List.length_cons]
    exact ⟨rfl, by omega⟩

theorem choices_of_ofLeaves {t : TypeRef} (hne : kept ≠ []) (h : ∀ t ∈ kept, t.isLayer = false)
    (heq : t.nonOptional = ofLeaves kept) : t.choices = kept := by
  unfold choices
  rw [heq]
  split
  · rename_i members hunion
    exact (ofLeaves_eq_union h hunion).1
  · rename_i hother
    match kept, hne with
    | [t], _ => rfl
    | t :: t' :: rest, _ => exact absurd rfl (hother _)

end Leaves

/-- The leaves that make up a union. -/
def keptLeaves (ts : List TypeRef) : List TypeRef := distinct (leavesOf ts)

theorem isLayer_keptLeaves (ts : List TypeRef) : ∀ t ∈ keptLeaves ts, t.isLayer = false :=
  fun t ht => isLayer_leavesOf ts t (mem_distinct.1 ht)

theorem keptLeaves_ne_nil {ts : List TypeRef} (h : leavesOf ts ≠ []) : keptLeaves ts ≠ [] := by
  obtain ⟨leaf, hleaf⟩ := List.exists_mem_of_ne_nil _ h
  exact List.ne_nil_of_mem (mem_distinct.2 hleaf)

/-- A union is made of its leaves, and optional iff an optional layer is met. -/
theorem unionOf_eq (ts : List TypeRef) : unionOf ts =
    if someMeetsOptional ts then .optional (ofLeaves (keptLeaves ts))
    else ofLeaves (keptLeaves ts) := by
  have hcore : (ofLeaves (keptLeaves ts)).optionalOf = .optional (ofLeaves (keptLeaves ts)) := by
    rw [optionalOf, isOptional_ofLeaves (isLayer_keptLeaves ts)]
    rfl
  rw [← hcore]
  rfl

/-- Nothing else counts for a union. -/
theorem unionOf_congr {ts us : List TypeRef} (hkept : keptLeaves ts = keptLeaves us)
    (hmet : someMeetsOptional ts = someMeetsOptional us) : unionOf ts = unionOf us := by
  rw [unionOf_eq, unionOf_eq, hkept, hmet]

theorem isOptional_unionOf (ts : List TypeRef) :
    (unionOf ts).isOptional = someMeetsOptional ts := by
  rw [unionOf_eq]
  cases someMeetsOptional ts
  · exact isOptional_ofLeaves (isLayer_keptLeaves ts)
  · rfl

theorem nonOptional_of_isOptional {t : TypeRef} (h : t.isOptional = false) :
    t.nonOptional = t := by
  cases t with
  | optional inner => simp [isOptional] at h
  | _ => rfl

theorem nonOptional_unionOf (ts : List TypeRef) :
    (unionOf ts).nonOptional = ofLeaves (keptLeaves ts) := by
  rw [unionOf_eq]
  cases someMeetsOptional ts
  · exact nonOptional_of_isOptional (isOptional_ofLeaves (isLayer_keptLeaves ts))
  · rfl

/-- **A union has the form of its leaves.** -/
theorem unionForm_unionOf (ts : List TypeRef) :
    UnionForm (leavesOf ts) (someMeetsOptional ts) (unionOf ts) where
  optional := isOptional_unionOf ts
  single := by
    intro inner hinner
    have hcore := nonOptional_unionOf ts
    rw [hinner, nonOptional] at hcore
    rw [hcore]
    exact isOptional_ofLeaves (isLayer_keptLeaves ts)
  union := by
    intro members hmembers
    rw [nonOptional_unionOf] at hmembers
    obtain ⟨rfl, hmany⟩ := ofLeaves_eq_union (isLayer_keptLeaves ts) hmembers
    exact ⟨hmany, nodup_distinct _, isLayer_keptLeaves ts⟩
  any := by
    intro hnone
    rw [nonOptional_unionOf, keptLeaves, hnone]
    rfl
  choices := by
    intro hsome
    rw [choices_of_ofLeaves (keptLeaves_ne_nil hsome) (isLayer_keptLeaves ts)
      (nonOptional_unionOf ts)]
    exact firstOccurrences_distinct _

/-! ### Types that are put together by the constructors -/

/-- Types that are put together by the constructors, which make unions and optional types from
any types. -/
inductive Constructed : TypeRef → Prop where
  | any : Constructed .any
  | scalar {kind : ScalarKind} : Constructed (.scalar kind)
  | reference {name : String} : Constructed (.reference name)
  | list {item : TypeRef} (h : Constructed item) : Constructed (.list item)
  | dict {value : TypeRef} (h : Constructed value) : Constructed (.dict value)
  | optional {t : TypeRef} (h : Constructed t) : Constructed t.optionalOf
  | union {ts : List TypeRef} (h : ∀ t ∈ ts, Constructed t) : Constructed (unionOf ts)

/-- **The constructors make the canonical types, all of them.** -/
theorem constructed_iff_canonical {t : TypeRef} : t.Constructed ↔ t.Canonical := by
  constructor
  · intro h
    induction h with
    | any => exact .any
    | scalar => exact .scalar
    | reference => exact .reference
    | list _ ih => exact .list ih
    | dict _ ih => exact .dict ih
    | optional _ ih => exact canonical_optionalOf ih
    | union _ ih => exact canonical_unionOf ih
  · intro h
    induction h with
    | any => exact .any
    | scalar => exact .scalar
    | reference => exact .reference
    | list _ ih => exact .list ih
    | dict _ ih => exact .dict ih
    | @optional inner _ hinner ih =>
      have hsame : inner.optionalOf = .optional inner := by simp [optionalOf, hinner]
      exact hsame ▸ .optional ih
    | @union members _ hmember hmany hdistinct ih =>
      have hsame : unionOf members = .union members := by
        have hkept : keptLeaves members = members := by
          rw [keptLeaves, leavesOf_of_isLayer hmember, distinct_of_nodup hdistinct]
        rw [unionOf_eq, hkept, someMeetsOptional_of_isLayer hmember]
        match members, hmany with
        | t :: t' :: rest, _ => rfl
      exact hsame ▸ .union ih

/-- A canonical type has a leaf. -/
theorem Canonical.leaves_ne_nil {t : TypeRef} (h : t.Canonical) : t.leaves ≠ [] := by
  induction h with
  | optional _ _ ih => exact ih
  | @union members _ hmember hmany _ _ =>
    rw [leaves, leavesOf_of_isLayer hmember]
    exact List.ne_nil_of_length_pos (by omega)
  | _ => simp [leaves]

/-! ### Grouping -/

/-- A union of types that have leaves has the same leaves, once each. -/
theorem leaves_unionOf {ts : List TypeRef} (h : leavesOf ts ≠ []) :
    (unionOf ts).leaves = distinct (leavesOf ts) := by
  have hcore := leaves_ofLeaves (keptLeaves_ne_nil h) (isLayer_keptLeaves ts)
  rw [unionOf_eq]
  cases someMeetsOptional ts
  · exact hcore
  · exact hcore

/-- A union is opened with an optional layer iff its members are. -/
theorem meetsOptional_unionOf (ts : List TypeRef) :
    (unionOf ts).meetsOptional = someMeetsOptional ts := by
  rw [unionOf_eq]
  cases someMeetsOptional ts
  · exact meetsOptional_ofLeaves (isLayer_keptLeaves ts)
  · rfl

/-- **Types may be grouped** if they have leaves. -/
theorem unionOf_group (pre post : List TypeRef) {xs : List TypeRef} (h : leavesOf xs ≠ []) :
    unionOf (pre ++ [unionOf xs] ++ post) = unionOf (pre ++ xs ++ post) := by
  have hleaves : leavesOf [unionOf xs] = distinct (leavesOf xs) := by
    rw [leavesOf, leavesOf, leaves_unionOf h, List.append_nil]
  have hmeets : someMeetsOptional [unionOf xs] = someMeetsOptional xs := by
    rw [someMeetsOptional, someMeetsOptional, meetsOptional_unionOf, Bool.or_false]
  have hkept : keptLeaves (pre ++ [unionOf xs] ++ post) = keptLeaves (pre ++ xs ++ post) := by
    simp only [keptLeaves, leavesOf_append, hleaves]
    exact distinct_nested _ _ _
  refine unionOf_congr hkept ?_
  simp only [someMeetsOptional_append, hmeets]

/-- **The form of unions**, whatever the types: every list of types has leaves, and its union has
the form of these leaves.  **And grouping does not count**: a union of constructed types, at least
one, contributes what its members contribute. -/
theorem unionOf_laws :
    (∀ ts, ∃ leaves met, Flattens ts leaves met) ∧
      (∀ ts leaves met, Flattens ts leaves met → UnionForm leaves met (unionOf ts)) ∧
      ∀ pre xs post, xs ≠ [] → (∀ t ∈ xs, Constructed t) →
        unionOf (pre ++ [unionOf xs] ++ post) = unionOf (pre ++ xs ++ post) := by
  refine ⟨fun ts => ⟨_, _, flattens_iff.2 ⟨rfl, rfl⟩⟩, ?_, ?_⟩
  · intro ts leaves met h
    obtain ⟨rfl, rfl⟩ := flattens_iff.1 h
    exact unionForm_unionOf ts
  · intro pre xs post hne h
    refine unionOf_group pre post ?_
    obtain ⟨t, rest, rfl⟩ := List.exists_cons_of_ne_nil hne
    have ht := (constructed_iff_canonical.1 (h t (.head _))).leaves_ne_nil
    rw [leavesOf]
    exact List.append_ne_nil_of_left_ne_nil ht _

/-- Pets that may be missing or cats, and pets. -/
def petChoices : List TypeRef :=
  [unionOf [optionalOf (.reference "Pet"), .reference "Cat"], .reference "Pet"]

/-- A union around nested optional layers and an empty union; and a group with an optional member
and a repetition, between types that are in the group too. -/
theorem unionOf_laws_pets :
    UnionForm [.reference "Pet", .list .any, .reference "Pet"] true
        (unionOf [.union [.optional (.optional (.reference "Pet")), .union []], .list .any,
          .reference "Pet"]) ∧
      petChoices ≠ [] ∧ (∀ t ∈ petChoices, Constructed t) ∧
      unionOf ([.reference "Cat"] ++ [unionOf petChoices] ++ [.reference "Dog"]) =
        unionOf ([.reference "Cat"] ++ petChoices ++ [.reference "Dog"]) := by
  have hflat : Flattens [.union [.optional (.optional (.reference "Pet")), .union []], .list .any,
      .reference "Pet"] [.reference "Pet", .list .any, .reference "Pet"] true :=
    .union (.optional (.optional (.leaf rfl (.union (.leaf rfl (.leaf rfl .nil))))))
  have hne : petChoices ≠ [] := by simp [petChoices]
  have hconstructed : ∀ t ∈ petChoices, Constructed t := by
    intro t ht
    rcases List.mem_pair.1 ht with rfl | rfl
    · refine .union fun u hu => ?_
      rcases List.mem_pair.1 hu with rfl | rfl
      · exact .optional .reference
      · exact .reference
    · exact .reference
  exact ⟨unionOf_laws.2.1 _ _ _ hflat, hne, hconstructed,
    unionOf_laws.2.2 _ _ _ hne hconstructed⟩

/-- An empty union, which no constructor makes, has no leaves: as a group it is any value, among
other types it is nothing. -/
example : unionOf [.reference "Pet", unionOf [.union []]] = .union [.reference "Pet", .any] ∧
    unionOf [.reference "Pet", .union []] = .reference "Pet" := by decide

end TypeRef

end ApiBinding
