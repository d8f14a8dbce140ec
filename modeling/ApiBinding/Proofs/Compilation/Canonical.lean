import ApiBinding.Proofs.Compilation.Closure
import ApiBinding.Proofs.Tables

/-!
# Canonical types

Equal types of values should be written in one way only: an optional type is not made optional a
second time, and a union has at least two members, all of them different, none of them optional
or a union.  Types are put together from the types of parts, which may be optional types or unions
at any depth, so that each of the constructors has to keep the form of what it is given.

## Main definitions

* `TypeRef.Canonical` — types of this form, at every depth.

## Main results

* `TypeRef.canonical_optionalOf`, `TypeRef.canonical_unionOf` — canonical types are put together
  to canonical ones.
* `TypeOf.canonical`, `BodyOf.canonical` — the types of nodes are canonical.
* `compile_canonical` — **all types of a client are canonical.**
-/

namespace ApiBinding

/-! ### The canonical form -/

namespace TypeRef

/-- Whether the outermost layer is optional or a union. -/
def isLayer : TypeRef → Bool
  | .optional _ => true
  | .union _ => true
  | _ => false

/-- The type is canonical at every depth. -/
inductive Canonical : TypeRef → Prop where
  | any : Canonical .any
  | scalar {kind : ScalarKind} : Canonical (.scalar kind)
  | reference {name : String} : Canonical (.reference name)
  | list {item : TypeRef} (h : Canonical item) : Canonical (.list item)
  | dict {value : TypeRef} (h : Canonical value) : Canonical (.dict value)
  | optional {inner : TypeRef} (h : Canonical inner) (hinner : inner.isOptional = false) :
      Canonical (.optional inner)
  | union {members : List TypeRef} (h : ∀ t ∈ members, Canonical t)
      (hmember : ∀ t ∈ members, t.isLayer = false) (hmany : 2 ≤ members.length)
      (hdistinct : members.Nodup) : Canonical (.union members)

/-! ### Leaves -/

mutual

/-- The leaves of a type are neither optional nor unions. -/
theorem isLayer_leaves : ∀ t : TypeRef, ∀ leaf ∈ leaves t, leaf.isLayer = false
  | .any, _, hleaf => List.mem_singleton.1 hleaf ▸ rfl
  | .scalar _, _, hleaf => List.mem_singleton.1 hleaf ▸ rfl
  | .reference _, _, hleaf => List.mem_singleton.1 hleaf ▸ rfl
  | .list _, _, hleaf => List.mem_singleton.1 hleaf ▸ rfl
  | .dict _, _, hleaf => List.mem_singleton.1 hleaf ▸ rfl
  | .optional inner, leaf, hleaf => isLayer_leaves inner leaf hleaf
  | .union members, leaf, hleaf => isLayer_leavesOf members leaf hleaf

theorem isLayer_leavesOf : ∀ ts : List TypeRef, ∀ leaf ∈ leavesOf ts, leaf.isLayer = false
  | [], leaf, hleaf => by simp [leavesOf] at hleaf
  | t :: rest, leaf, hleaf => by
    rw [leavesOf, List.mem_append] at hleaf
    rcases hleaf with hleaf | hleaf
    · exact isLayer_leaves t leaf hleaf
    · exact isLayer_leavesOf rest leaf hleaf

end

theorem leaves_of_isLayer {t : TypeRef} (h : t.isLayer = false) : leaves t = [t] := by
  cases t with
  | optional inner => simp [isLayer] at h
  | union members => simp [isLayer] at h
  | _ => rfl

theorem leavesOf_of_isLayer : ∀ {ts : List TypeRef}, (∀ t ∈ ts, t.isLayer = false) →
    leavesOf ts = ts
  | [], _ => rfl
  | t :: rest, h => by
    rw [leavesOf, leaves_of_isLayer (h t (.head _)),
      leavesOf_of_isLayer fun t ht => h t (.tail _ ht)]
    rfl

theorem reference_mem_leaves {name name' : String} :
    .reference name ∈ (TypeRef.reference name').leaves ↔ name = name' := by
  rw [leaves_of_isLayer rfl, List.mem_singleton, reference.injEq]

theorem leaves_optionalOf (t : TypeRef) : t.optionalOf.leaves = t.leaves := by
  unfold optionalOf
  split
  · rfl
  · rw [leaves]

theorem leaves_orNull (t : TypeRef) (nullable : Bool) : (t.orNull nullable).leaves = t.leaves := by
  cases nullable
  · rfl
  · exact leaves_optionalOf t

/-- **The leaves of a union are those of its members.**  Without members the union is any value. -/
theorem mem_leaves_unionOf {ts : List TypeRef} {leaf : TypeRef} (hany : leaf ≠ .any) :
    leaf ∈ (unionOf ts).leaves ↔ leaf ∈ leavesOf ts := by
  have hcore : (unionOf ts).leaves = (ofLeaves (distinct (leavesOf ts))).leaves := by
    unfold unionOf
    dsimp only
    split
    · exact leaves_optionalOf _
    · rfl
  have hlayer : ∀ t ∈ distinct (leavesOf ts), t.isLayer = false := fun t ht =>
    isLayer_leavesOf ts t (mem_distinct.1 ht)
  have hmem : leaf ∈ leavesOf ts ↔ leaf ∈ distinct (leavesOf ts) := mem_distinct.symm
  rw [hcore, hmem]
  generalize distinct (leavesOf ts) = kept at hlayer
  match kept, hlayer with
  | [], _ => simp [ofLeaves, leaves, hany]
  | [t], hlayer => rw [ofLeaves, leaves_of_isLayer (hlayer t (.head _))]
  | t :: t' :: rest, hlayer =>
    have hunion : ofLeaves (t :: t' :: rest) = .union (t :: t' :: rest) := rfl
    rw [hunion, leaves, leavesOf_of_isLayer hlayer]

/-! ### Canonical types are put together -/

theorem canonical_optionalOf {t : TypeRef} (h : t.Canonical) : t.optionalOf.Canonical := by
  unfold optionalOf
  split
  · exact h
  · rename_i hnot
    exact .optional h (by simpa using hnot)

theorem canonical_orNull {t : TypeRef} (h : t.Canonical) (nullable : Bool) :
    (t.orNull nullable).Canonical := by
  cases nullable
  · exact h
  · exact canonical_optionalOf h

mutual

/-- The leaves of a canonical type are canonical. -/
theorem canonical_leaves : ∀ t : TypeRef, t.Canonical → ∀ leaf ∈ leaves t, leaf.Canonical
  | .any, h, leaf, hleaf => List.mem_singleton.1 hleaf ▸ h
  | .scalar _, h, leaf, hleaf => List.mem_singleton.1 hleaf ▸ h
  | .reference _, h, leaf, hleaf => List.mem_singleton.1 hleaf ▸ h
  | .list _, h, leaf, hleaf => List.mem_singleton.1 hleaf ▸ h
  | .dict _, h, leaf, hleaf => List.mem_singleton.1 hleaf ▸ h
  | .optional inner, h, leaf, hleaf => by
    cases h with
    | optional h hinner => exact canonical_leaves inner h leaf hleaf
  | .union members, h, leaf, hleaf => by
    cases h with
    | union h hmember hmany hdistinct => exact canonical_leavesOf members h leaf hleaf

theorem canonical_leavesOf : ∀ ts : List TypeRef, (∀ t ∈ ts, t.Canonical) →
    ∀ leaf ∈ leavesOf ts, leaf.Canonical
  | [], _, leaf, hleaf => by simp [leavesOf] at hleaf
  | t :: rest, h, leaf, hleaf => by
    rw [leavesOf, List.mem_append] at hleaf
    rcases hleaf with hleaf | hleaf
    · exact canonical_leaves t (h t (.head _)) leaf hleaf
    · exact canonical_leavesOf rest (fun t ht => h t (.tail _ ht)) leaf hleaf

end

theorem canonical_ofLeaves {ts : List TypeRef} (h : ∀ t ∈ ts, t.Canonical)
    (hlayer : ∀ t ∈ ts, t.isLayer = false) (hdistinct : ts.Nodup) : (ofLeaves ts).Canonical := by
  match ts, h, hlayer, hdistinct with
  | [], _, _, _ => exact .any
  | [t], h, _, _ => exact h t (.head _)
  | t :: t' :: rest, h, hlayer, hdistinct =>
    have hmany : 2 ≤ (t :: t' :: rest).length := by
      rw [List.length_cons, List.length_cons]
      omega
    exact .union h hlayer hmany hdistinct

/-- **The union of canonical types is canonical.** -/
theorem canonical_unionOf {ts : List TypeRef} (h : ∀ t ∈ ts, t.Canonical) :
    (unionOf ts).Canonical := by
  have hcore : (ofLeaves (distinct (leavesOf ts))).Canonical := canonical_ofLeaves
    (fun t ht => canonical_leavesOf ts h t (mem_distinct.1 ht))
    (fun t ht => isLayer_leavesOf ts t (mem_distinct.1 ht)) (nodup_distinct _)
  unfold unionOf
  dsimp only
  split
  · exact canonical_optionalOf hcore
  · exact hcore

end TypeRef

/-! ### Types of nodes -/

section Nodes

variable {r : Registry}

mutual

/-- **The type of a node is canonical.** -/
theorem TypeOf.canonical : ∀ {n : Node} {t : TypeRef}, TypeOf r n t → t.Canonical
  | _, _, .component _ _ => TypeRef.canonical_orNull .reference _
  | _, _, .shape _ h => TypeRef.canonical_orNull h.canonical _

theorem ShapeTypeOf.canonical : ∀ {serial : Nat} {shape : Shape Node} {t : TypeRef},
    ShapeTypeOf r serial shape t → t.Canonical
  | _, _, _, .any => .any
  | _, _, _, .null => .optional .any rfl
  | _, _, _, .scalar => .scalar
  | _, _, _, .array h => .list h.canonical
  | _, _, _, .openDict => .dict .any
  | _, _, _, .dict h => .dict h.canonical
  | _, _, _, .model _ _ => .reference
  | _, _, _, .union h => TypeRef.canonical_unionOf h.canonical
  | _, _, _, .backRef _ => .reference

theorem TypesOf.canonical : ∀ {ns : List Node} {ts : List TypeRef}, TypesOf r ns ts →
    ∀ t ∈ ts, t.Canonical
  | _, _, .nil => List.forall_mem_nil _
  | _, _, .cons h hs => List.forall_mem_cons.2 ⟨h.canonical, hs.canonical⟩

end

/-- The types in the body of a model are canonical. -/
theorem BodyOf.canonical {n : Node} {body : ModelBody} (h : BodyOf r n body) :
    ∀ t ∈ body.types, t.Canonical := by
  intro t ht
  cases h with
  | object hshape hne hfields hadditional =>
    rw [ModelBody.types, List.mem_append] at ht
    rcases ht with ht | ht
    · obtain ⟨f, hf, rfl⟩ := List.mem_map.1 ht
      obtain ⟨property, -, hproperty⟩ := forall₂_exists hfields.flip hf
      exact hproperty.type.canonical
    · cases hadditional with
      | none => simp at ht
      | some hadditional =>
        rw [Option.toList_some, List.mem_singleton] at ht
        exact ht ▸ hadditional.canonical
  | enumeration hshape h => simp [ModelBody.types] at ht
  | union hshape hown h => exact h.canonical t (TypeRef.mem_tagVariants_type ht)
  | otherName hshape h =>
    rw [ModelBody.types, List.mem_singleton] at ht
    exact ht ▸ h.canonical

end Nodes

/-! ### Compilations -/

/-- **All types of a client are canonical**: those of fields and of other keys, of variants, of
models that are other names, of parameters, and of bodies. -/
theorem compile_canonical {config : Config} {d : Document} {c : Compilation}
    (h : compile config d = .ok c) : ∀ t ∈ c.interface.types, t.Canonical := by
  obtain ⟨w, hfinal⟩ := compile_final h
  intro t ht
  rcases List.mem_append.1 ht with ht | ht
  · obtain ⟨m, hm, ht⟩ := List.mem_flatMap.1 ht
    obtain ⟨n, -, hbody⟩ := hfinal.body hm
    exact hbody.canonical t ht
  · obtain ⟨e, he, ht⟩ := List.mem_flatMap.1 ht
    rcases hfinal.endpoints e he t ht with rfl | ⟨n, -, htype⟩
    · exact .scalar
    · exact htype.canonical

/-- A count, which may be missing, or another measure, which may be missing too, or a list. -/
def measureSchema : Schema where
  anyOf := [{ declaredType := some (.multiple ["integer", "null"]) },
    { oneOf := [{ declaredType := some (.single "integer") },
      { reference := some "#/components/schemas/Measure" },
      { declaredType := some (.single "null") }] },
    { items := some { reference := some "#/components/schemas/Measure" } }]

/-- Two measures, the second of which may be missing. -/
def measurePair : Schema where
  properties := [("first", { reference := some "#/components/schemas/Measure" }),
    ("second", { nullable := some true, anyOf := [measureSchema, measureSchema] })]

/-- Measures, and an operation that is sent two of them. -/
def measures : Document where
  components.schemas := [("Measure", measureSchema)]
  paths := [("/measures", { post := some { requestBody := some { content :=
    [("application/json", { schema := some measurePair })] } } })]

/-- Unions inside unions, with `null` and repetitions in several places. -/
theorem compile_canonical_measures : ∃ c, compile {} measures = .ok c ∧
    ∀ t ∈ c.interface.types, t.Canonical := by
  obtain ⟨c, hc⟩ := compile_eq_ok {} measures (by decide +kernel)
  exact ⟨c, hc, compile_canonical hc⟩

end ApiBinding
