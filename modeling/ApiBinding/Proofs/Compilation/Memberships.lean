import ApiBinding.Proofs.Compilation.Closure

/-!
# Unions and their members

A union has a discriminator and a tag for each of its variants, or neither.  A finished model
lists the tagged unions it is a variant of, which is the same relation read the other way: nothing
is listed that no union says, and nothing is left out.

## Main definitions

* `Model.variants`, `Interface.unionVariants` — the variants of a model and of all models.
* `Membership.MadeBy` — the membership that a variant makes for the model it refers to.

## Main results

* `BodyOf.tagged` — a union has a discriminator and tags, or neither.
* `Registry.finish_variantOf` — the memberships of a finished model are those that the variants of
  the finished models make for it.
* `compile_memberships` — **what models are variants of is the inverse of what unions consist of.**
-/

namespace ApiBinding

/-! ### Tags of variants -/

/-- The variants of a union; other models have none. -/
def Model.variants (m : Model) : List UnionVariant :=
  match m.body with
  | .union variants _ => variants
  | _ => []

/-- A union has a discriminator and its variants have tags, or there is neither. -/
def ModelBody.Tagged (body : ModelBody) : Prop :=
  ∀ variants discriminator, body = .union variants discriminator →
    discriminator.isSome ∧ (∀ v ∈ variants, v.tag.isSome) ∨
      discriminator = none ∧ ∀ v ∈ variants, v.tag = none

theorem TypesOf.length_eq {r : Registry} {ns : List Node} {ts : List TypeRef}
    (h : TypesOf r ns ts) : ts.length = ns.length := by
  induction ns generalizing ts with
  | nil =>
    cases h
    rfl
  | cons n rest ih =>
    cases h with
    | cons h hs => rw [List.length_cons, List.length_cons, ih hs]

/-- The variant at an index has the tag at the index. -/
theorem Typing.mem_tagVariants {ts : List TypeRef} {tags : List String} {v : UnionVariant}
    (h : v ∈ tagVariants ts tags) : ∃ i, i < ts.length ∧ v.tag = tags[i]? := by
  obtain ⟨⟨t, i⟩, hmem, rfl⟩ := List.mem_map.1 h
  have hi := (List.mem_zipIdx hmem).2.1
  rw [Nat.zero_add] at hi
  exact ⟨i, hi, rfl⟩

/-- **A union has a discriminator and tags, or neither**, since a tagged node has one tag for each
variant. -/
theorem BodyOf.tagged {K : String → Prop} {r : Registry} {n : Node} {body : ModelBody}
    (h : BodyOf r n body) (hn : n.Proper K) : body.Tagged := by
  rintro variants discriminator rfl
  cases h with
  | @union nodes tagging ts hshape hown h =>
    have hproper := hn.shape
    rw [hshape] at hproper
    cases tagging with
    | untagged =>
      refine .inr ⟨rfl, fun v hv => ?_⟩
      obtain ⟨i, -, htag⟩ := Typing.mem_tagVariants hv
      exact htag
    | tagged property tags =>
      refine .inl ⟨rfl, fun v hv => ?_⟩
      obtain ⟨i, hi, htag⟩ := Typing.mem_tagVariants hv
      have hlt : i < tags.length := by
        rw [hproper.length_tags, ← h.length_eq]
        exact hi
      have hsome : v.tag = some tags[i] := htag.trans (List.getElem?_eq_getElem hlt)
      rw [hsome]
      rfl

/-! ### Memberships -/

/-- The variants of all unions, each with its union, in the order of models and variants. -/
def Interface.unionVariants (i : Interface) : List (Model × UnionVariant) :=
  i.models.flatMap fun u => u.variants.map fun v => (u, v)

/-- The variant of the union makes the model of the given name a member: it refers to that model,
or to that model or `null`, and has the tag. -/
structure Membership.MadeBy (e : Membership) (member : String) (u : Model) (v : UnionVariant) :
    Prop where
  union : u.name = e.union
  body : ∃ variants, u.body = .union variants (some e.property) ∧ v ∈ variants
  tag : v.tag = some e.tag
  type : v.type.nonOptional = .reference member

namespace Model

/-- The membership that a variant makes for the model of a name, if it refers to that model. -/
def membershipFor? (member : String) (place : Model × UnionVariant) : Option Membership :=
  match place.1.body with
  | .union _ (some property) =>
    ((membershipOf place.1.name property place.2).filter fun e => e.1 == member).map Prod.snd
  | _ => none

theorem membershipOf_eq_some {union property member : String} {v : UnionVariant}
    {e : Membership} : membershipOf union property v = some (member, e) ↔
      v.type.nonOptional = .reference member ∧ v.tag = some e.tag ∧ union = e.union ∧
        property = e.property := by
  unfold membershipOf
  split
  · rename_i member' tag htype htag
    rw [htype, htag]
    simp only [Option.some.injEq, Prod.mk.injEq, TypeRef.reference.injEq]
    constructor
    · rintro ⟨rfl, rfl⟩
      exact ⟨rfl, rfl, rfl, rfl⟩
    · rintro ⟨rfl, rfl, rfl, rfl⟩
      exact ⟨rfl, rfl⟩
  · rename_i hnot
    simp only [reduceCtorEq, false_iff]
    rintro ⟨htype, htag, -, -⟩
    exact hnot _ _ htype htag

/-- A variant makes the membership that is found for it, and no other. -/
theorem membershipFor?_eq_some {member : String} {u : Model} {v : UnionVariant} {e : Membership}
    (hv : v ∈ u.variants) : membershipFor? member (u, v) = some e ↔ e.MadeBy member u v := by
  unfold membershipFor?
  unfold variants at hv
  constructor
  · intro h
    split at h
    · rename_i found property hbody
      rw [hbody] at hv
      obtain ⟨⟨member', e'⟩, hmade, rfl⟩ := Option.map_eq_some_iff.1 h
      obtain ⟨hmade, hname⟩ := Option.filter_eq_some_iff.1 hmade
      obtain ⟨htype, htag, hunion, rfl⟩ := membershipOf_eq_some.1 hmade
      rw [beq_iff_eq] at hname
      exact ⟨hunion, ⟨found, hbody, hv⟩, htag, hname ▸ htype⟩
    · simp at h
  · rintro ⟨hunion, ⟨found, hbody, hmem⟩, htag, htype⟩
    have hmade : membershipOf u.name e.property v = some (member, e) :=
      membershipOf_eq_some.2 ⟨htype, htag, hunion, rfl⟩
    simp [hbody, hmade]

/-- The memberships that the variants of a model make for the model of a name. -/
theorem memberships_for (member : String) (u : Model) :
    (u.memberships.filter fun e => e.1 == member).map Prod.snd =
      (u.variants.map fun v => (u, v)).filterMap (membershipFor? member) := by
  rw [List.filterMap_map]
  unfold memberships variants
  cases hbody : u.body with
  | union variants discriminator =>
    cases discriminator with
    | none => simp [membershipFor?, hbody]
    | some property =>
      rw [List.filter_filterMap, List.map_filterMap]
      refine List.filterMap_congr fun v _ => ?_
      simp only [Function.comp, membershipFor?, hbody]
  | _ => rfl

end Model

/-- **The memberships of a finished model** are those that the variants of the finished models make
for it, in order and without repetition. -/
theorem Registry.finish_variantOf {r : Registry} {i : Interface} (hi : i.models = r.finish)
    {m : Model} (hm : m ∈ i.models) :
    m.variantOf = distinct (i.unionVariants.filterMap (Model.membershipFor? m.name)) := by
  -- A finished model makes the memberships that the model of its slot makes.
  have hsame : (r.slots.map Slot.toModel).flatMap Model.memberships =
      i.models.flatMap Model.memberships := by
    simp only [hi, finish, List.flatMap_map]
    rfl
  rw [hi] at hm
  obtain ⟨m₁, hm₁, rfl⟩ := List.mem_map.1 hm
  have hfor : ∀ u ∈ i.models, (u.memberships.filter fun e => e.1 == m₁.name).map Prod.snd =
      (u.variants.map fun v => (u, v)).filterMap (Model.membershipFor? m₁.name) :=
    fun u _ => Model.memberships_for m₁.name u
  unfold Model.withMemberships Interface.unionVariants
  dsimp only
  rw [hsame, List.filter_flatMap, List.map_flatMap, List.filterMap_flatMap,
    List.flatMap_congr hfor]

theorem Interface.mem_unionVariants {i : Interface} {place : Model × UnionVariant} :
    place ∈ i.unionVariants ↔ place.1 ∈ i.models ∧ place.2 ∈ place.1.variants := by
  obtain ⟨u, v⟩ := place
  simp only [unionVariants, List.mem_flatMap, List.mem_map, Prod.mk.injEq]
  constructor
  · rintro ⟨u', hu, v', hv, rfl, rfl⟩
    exact ⟨hu, hv⟩
  · rintro ⟨hu, hv⟩
    exact ⟨u, hu, v, hv, rfl, rfl⟩

/-- What a model is a variant of: the memberships that the unions make for it, each of them once,
in the order in which the unions make them first. -/
structure Interface.Inverse (i : Interface) (m : Model) : Prop where
  nodup : m.variantOf.Nodup
  mem : ∀ e, e ∈ m.variantOf ↔ ∃ u ∈ i.models, ∃ v, e.MadeBy m.name u v
  order : m.variantOf.Pairwise fun e e' => ∃ before u v after,
    i.unionVariants = before ++ (u, v) :: after ∧ e.MadeBy m.name u v ∧
      ∀ place ∈ before ++ [(u, v)], ¬ e'.MadeBy m.name place.1 place.2

/-- **The memberships of finished models are the inverse of what their unions consist of.** -/
theorem Registry.finish_inverse {r : Registry} {i : Interface} (hi : i.models = r.finish)
    {m : Model} (hm : m ∈ i.models) : i.Inverse m := by
  have hvariantOf := finish_variantOf hi hm
  have hmade : ∀ place ∈ i.unionVariants, ∀ e, Model.membershipFor? m.name place = some e ↔
      e.MadeBy m.name place.1 place.2 := fun place hplace e =>
    Model.membershipFor?_eq_some (Interface.mem_unionVariants.1 hplace).2
  refine ⟨hvariantOf ▸ nodup_distinct _, fun e => ?_, ?_⟩
  · rw [hvariantOf, mem_distinct, List.mem_filterMap]
    constructor
    · rintro ⟨place, hplace, he⟩
      exact ⟨place.1, (Interface.mem_unionVariants.1 hplace).1, place.2,
        (hmade place hplace e).1 he⟩
    · rintro ⟨u, hu, v, hv⟩
      obtain ⟨variants, hbody, hmem⟩ := hv.body
      have hplace : (u, v) ∈ i.unionVariants :=
        Interface.mem_unionVariants.2 ⟨hu, by simpa [Model.variants, hbody] using hmem⟩
      exact ⟨(u, v), hplace, (hmade _ hplace e).2 hv⟩
  · rw [hvariantOf]
    refine (pairwise_distinct _).imp fun {e e'} ⟨found, more, hfound, hnot⟩ => ?_
    -- The first membership of its kind is made at a place, and the other one not up to there.
    obtain ⟨first, rest, hplaces, hfirst, hrest⟩ := List.filterMap_eq_append_iff.1 hfound
    obtain ⟨skipped, ⟨u, v⟩, after, hrest, hskipped, he, -⟩ := List.filterMap_eq_cons_iff.1 hrest
    have hsplit : i.unionVariants = (first ++ skipped) ++ (u, v) :: after := by
      rw [hplaces, hrest, List.append_assoc]
    have hin : ∀ place ∈ (first ++ skipped) ++ [(u, v)], place ∈ i.unionVariants := by
      intro place hplace
      rw [hsplit, List.append_cons]
      exact List.mem_append_left _ hplace
    refine ⟨first ++ skipped, u, v, after, hsplit, (hmade _ (hin _ (by simp)) e).1 he,
      fun place hplace hmember => hnot ?_⟩
    have he' := (hmade place (hin place hplace) e').2 hmember
    have hup : (first ++ skipped ++ [(u, v)]).filterMap (Model.membershipFor? m.name) =
        found ++ [e] := by
      rw [List.filterMap_append, List.filterMap_append, hfirst,
        List.filterMap_eq_nil_iff.2 hskipped, List.append_nil, List.filterMap_cons_some he,
        List.filterMap_nil]
    rw [← hup]
    exact List.mem_filterMap.2 ⟨place, hplace, he'⟩

/-! ### Compilations -/

/-- **What models are variants of is the inverse of what unions consist of.**  Every union has a
discriminator and a tag for each variant, or neither; and every model lists the places that it has
in tagged unions, as often as once, in the order of models and variants. -/
theorem compile_memberships {config : Config} {d : Document} {c : Compilation}
    (h : compile config d = .ok c) :
    (∀ m ∈ c.interface.models, m.body.Tagged) ∧
      ∀ m ∈ c.interface.models, c.interface.Inverse m := by
  obtain ⟨w, hfinal⟩ := compile_final h
  refine ⟨fun m hm => ?_, fun m hm => Registry.finish_inverse hfinal.models hm⟩
  obtain ⟨n, hn, hbody⟩ := hfinal.body hm
  exact hbody.tagged hn.modelled.proper

/-- An animal of a kind. -/
def animalSchema (kind : String) (nullable : Option Bool) : Schema where
  nullable := nullable
  properties := [("kind", { enumeration := some [.string kind] })]

/-- A union of animals, which their kind tells apart. -/
def animalUnion (members : List Schema) (mapping : List (String × String)) : Schema where
  oneOf := members
  discriminator := some { propertyName := "kind", mapping := mapping }

/-- Animals; cats may be missing. -/
def animals : Document where
  components.schemas := [("Cat", animalSchema "cat" (some true)), ("Dog", animalSchema "dog" none),
    ("Pet", animalUnion [{ reference := some "#/components/schemas/Cat" },
      { declaredType := some (.single "null") }, { reference := some "#/components/schemas/Dog" },
      { reference := some "#/components/schemas/Cat" }] []),
    ("Home", { properties := [("guard",
      animalUnion [{ reference := some "#/components/schemas/Dog" },
        { reference := some "#/components/schemas/Cat" }] [("tom", "Cat")])] })]

/-- Cats are twice a variant of pets, which is listed once, and a variant of guards, whose union
has no component; the variants that refer to them are optional. -/
theorem compile_memberships_animals : ∃ c, compile {} animals = .ok c ∧
    (∀ m ∈ c.interface.models, m.body.Tagged) ∧
      ∀ m ∈ c.interface.models, c.interface.Inverse m := by
  obtain ⟨c, hc⟩ := compile_eq_ok {} animals (by decide +kernel)
  exact ⟨c, hc, compile_memberships hc⟩

end ApiBinding
