import ApiBinding.Proofs.Composition.Outlines

/-!
# What unions are classified to

A variant that is `null` makes a union nullable and counts for nothing else, so it does not matter
where such variants stand and how many there are; the others keep their order.  A `oneOf` with a
discriminator needs a tag for each of the others, and the first one without a tag is reported, under
its place among the others.

The tag of a variant is said here by rules, from the mapping and from the two ways in which a
variant declares the property of the discriminator: by its node, or, if that only refers back to a
component, by the unresolved schema.

## Main definitions

* `Names` — the component that a target of the mapping names.
* `Variant.DeclaresValue`, `Variant.DeclaresFreely` — how a variant declares a property.
* `Variant.HasTag` — the tag of a variant.
* `properVariants` — the variants that are not `null`.

## Main results

* `tagOf?_eq_some_iff` — the tag that is made is the tag that a variant has.
* `classify_spec` — **what unions are classified to.**
-/

namespace ApiBinding

/-! ### The tag of a variant -/

/-- The target of a mapped value names a component: it is a pointer to the component, or it is no
pointer to a component at all and is the name itself. -/
inductive Names (target component : String) : Prop where
  | pointer (h : Pointer.componentName? target = some component)
  | bare (hno : Pointer.componentName? target = none) (h : target = component)

namespace Variant

/-- The variant declares the property with exactly one value. -/
inductive DeclaresValue (v : Variant) (property : String) (value : Json) : Prop where
  | finished {declared : Node} (hfinished : v.node.shape.backRef? = none)
      (h : Table.get? v.node.shape.properties property = some declared)
      (hvalue : declared.shape = .enumeration [value]) : DeclaresValue v property value
  | unfinished {component : String} (hback : v.node.shape = .backRef component)
      (h : v.declared = some (.literal value)) : DeclaresValue v property value

/-- The variant declares the property, and not with exactly one value. -/
inductive DeclaresFreely (v : Variant) (property : String) : Prop where
  | finished {declared : Node} (hfinished : v.node.shape.backRef? = none)
      (h : Table.get? v.node.shape.properties property = some declared)
      (hvalue : ∀ value, declared.shape ≠ .enumeration [value]) : DeclaresFreely v property
  | unfinished {component : String} (hback : v.node.shape = .backRef component)
      (h : v.declared = some .free) : DeclaresFreely v property

/-- No mapped value stands for the component of the variant, if it has one. -/
def Unmapped (D : Discriminator) (v : Variant) : Prop :=
  ∀ component, v.component = some component → ∀ e ∈ D.mapping, ¬ Names e.2 component

/-- The tag of a variant. -/
inductive HasTag (D : Discriminator) (v : Variant) : String → Prop where
  /-- The first key of the mapping whose target names the component. -/
  | mapped {component key target : String} {before after : List (String × String)}
      (hc : v.component = some component) (hmapping : D.mapping = before ++ (key, target) :: after)
      (hfirst : ∀ e ∈ before, ¬ Names e.2 component) (h : Names target component) : HasTag D v key
  /-- A text stands for itself. -/
  | text {text : String} (hno : v.Unmapped D) (h : v.DeclaresValue D.propertyName (.string text)) :
      HasTag D v text
  /-- Another value stands for the way it is written. -/
  | value {value : Json} (hno : v.Unmapped D) (h : v.DeclaresValue D.propertyName value)
      (hvalue : ∀ text, value ≠ .string text) : HasTag D v value.render
  /-- The name of the component. -/
  | named {component : String} (hno : v.Unmapped D) (hc : v.component = some component)
      (h : v.DeclaresFreely D.propertyName) : HasTag D v component

end Variant

theorem Shape.singleLiteral?_eq_some_iff {ν : Type} {shape : Shape ν} {value : Json} :
    shape.singleLiteral? = some value ↔ shape = .enumeration [value] := by
  unfold singleLiteral?
  split <;> simp_all

theorem Shape.backRef?_eq_some {ν : Type} {shape : Shape ν} {c : String} :
    shape.backRef? = some c ↔ shape = .backRef c := by
  cases shape <;> simp [backRef?]

section Declared

variable {v : Variant} {property : String}

/-- A variant declares a property by its node or, if that only refers back, by its schema. -/
theorem Variant.declaredTag_eq_iff {declared : DeclaredTag} (h : declared ≠ .undeclared) :
    v.declaredTag property = declared ↔
      (∃ component, v.node.shape = .backRef component ∧ v.declared = some declared) ∨
      v.node.shape.backRef? = none ∧ ∃ n, Table.get? v.node.shape.properties property = some n ∧
        DeclaredTag.ofLiteral? n.shape.singleLiteral? = declared := by
  cases hback : v.node.shape.backRef? with
  | some component =>
    have hshape := Shape.backRef?_eq_some.1 hback
    rw [show v.declaredTag property = v.declared.getD .undeclared by rw [declaredTag, hshape]]
    cases hdeclared : v.declared <;> simp [hshape, h.symm]
  | none =>
    have hshape : ∀ component, v.node.shape ≠ .backRef component := fun component hshape => by
      simp [hshape, Shape.backRef?] at hback
    rw [v.declaredTag_eq hback]
    cases hget : Table.get? v.node.shape.properties property <;> simp [hshape, h.symm]

theorem Variant.declaredTag_eq_literal_iff {value : Json} :
    v.declaredTag property = .literal value ↔ v.DeclaresValue property value := by
  have hliteral : ∀ n : Node, DeclaredTag.ofLiteral? n.shape.singleLiteral? = .literal value ↔
      n.shape = .enumeration [value] := fun n => by
    rw [← Shape.singleLiteral?_eq_some_iff]
    cases n.shape.singleLiteral? <;> simp [DeclaredTag.ofLiteral?]
  rw [declaredTag_eq_iff (by simp)]
  constructor
  · rintro (⟨component, hback, h⟩ | ⟨hfinished, n, hget, hn⟩)
    · exact .unfinished hback h
    · exact .finished hfinished hget ((hliteral n).1 hn)
  · rintro (⟨hfinished, hget, hvalue⟩ | ⟨hback, h⟩)
    · exact .inr ⟨hfinished, _, hget, (hliteral _).2 hvalue⟩
    · exact .inl ⟨_, hback, h⟩

theorem Variant.declaredTag_eq_free_iff :
    v.declaredTag property = .free ↔ v.DeclaresFreely property := by
  have hfree : ∀ n : Node, DeclaredTag.ofLiteral? n.shape.singleLiteral? = .free ↔
      ∀ value, n.shape ≠ .enumeration [value] := fun n => by
    simp only [ne_eq, ← Shape.singleLiteral?_eq_some_iff]
    cases n.shape.singleLiteral? <;> simp [DeclaredTag.ofLiteral?]
  rw [declaredTag_eq_iff (by simp)]
  constructor
  · rintro (⟨component, hback, h⟩ | ⟨hfinished, n, hget, hn⟩)
    · exact .unfinished hback h
    · exact .finished hfinished hget ((hfree n).1 hn)
  · rintro (⟨hfinished, hget, hvalue⟩ | ⟨hback, h⟩)
    · exact .inr ⟨hfinished, _, hget, (hfree _).2 hvalue⟩
    · exact .inl ⟨_, hback, h⟩

end Declared

/-! ### The tag that is made -/

theorem mappingTarget_eq_iff {target component : String} :
    mappingTarget target = component ↔ Names target component := by
  unfold mappingTarget
  cases hname : Pointer.componentName? target with
  | some name =>
    constructor
    · rintro rfl
      exact .pointer hname
    · rintro (h | ⟨hno, -⟩)
      · simpa [hname] using h
      · simp [hname] at hno
  | none =>
    constructor
    · rintro rfl
      exact .bare hname rfl
    · rintro (h | ⟨-, rfl⟩)
      · simp [hname] at h
      · rfl

theorem mappedTag?_eq_some_iff {D : Discriminator} {component key : String} :
    mappedTag? D component = some key ↔
      ∃ before target after, D.mapping = before ++ (key, target) :: after ∧
        (∀ e ∈ before, ¬ Names e.2 component) ∧ Names target component := by
  rw [mappedTag?, Option.map_eq_some_iff]
  constructor
  · rintro ⟨e, he, rfl⟩
    obtain ⟨htarget, before, after, hmapping, hfirst⟩ := List.find?_eq_some_iff_append.1 he
    refine ⟨before, e.2, after, hmapping, fun other ho h => ?_,
      mappingTarget_eq_iff.1 (by simpa using htarget)⟩
    simpa [mappingTarget_eq_iff.2 h] using hfirst other ho
  · rintro ⟨before, target, after, hmapping, hfirst, h⟩
    refine ⟨(key, target), List.find?_eq_some_iff_append.2
      ⟨by simpa using mappingTarget_eq_iff.2 h, before, after, hmapping, fun e he => ?_⟩, rfl⟩
    simpa using fun heq => hfirst e he (mappingTarget_eq_iff.1 heq)

theorem mappedTag?_eq_none_iff {D : Discriminator} {component : String} :
    mappedTag? D component = none ↔ ∀ e ∈ D.mapping, ¬ Names e.2 component := by
  rw [mappedTag?, Option.map_eq_none_iff, List.find?_eq_none]
  simp only [beq_iff_eq, mappingTarget_eq_iff]

theorem Variant.unmapped_iff {D : Discriminator} {v : Variant} :
    v.Unmapped D ↔ v.component.bind (mappedTag? D) = none := by
  simp only [Unmapped, Option.bind_eq_none_iff, mappedTag?_eq_none_iff]

/-- **The tag that is made** is the tag that a variant has. -/
theorem tagOf?_eq_some_iff {D : Discriminator} {v : Variant} {tag : String} :
    tagOf? D v = some tag ↔ v.HasTag D tag := by
  rw [tagOf?, Option.or_eq_some_iff, ← Variant.unmapped_iff, Option.bind_eq_some_iff]
  constructor
  · rintro (⟨component, hc, h⟩ | ⟨hno, h⟩)
    · obtain ⟨before, target, after, hmapping, hfirst, h⟩ := mappedTag?_eq_some_iff.1 h
      exact .mapped hc hmapping hfirst h
    · cases hdeclared : v.declaredTag D.propertyName with
      | undeclared => simp [hdeclared, declaredTag?] at h
      | free =>
        cases hc : v.component with
        | none => simp [hdeclared, hc, declaredTag?] at h
        | some component =>
          simp only [hdeclared, hc, declaredTag?, Option.some.injEq] at h
          exact h ▸ .named hno hc (Variant.declaredTag_eq_free_iff.1 hdeclared)
      | literal value =>
        have hvalue := Variant.declaredTag_eq_literal_iff.1 hdeclared
        simp only [hdeclared, declaredTag?, Option.some.injEq] at h
        subst h
        -- A text is written as it is; everything else, as a document would have it.
        by_cases htext : ∃ text, value = .string text
        · obtain ⟨text, rfl⟩ := htext
          exact .text hno hvalue
        · have hother : value.label = value.render := by
            cases value <;> simp_all [Json.label]
          exact hother ▸ .value hno hvalue fun text heq => htext ⟨text, heq⟩
  · rintro (⟨hc, hmapping, hfirst, h⟩ | ⟨hno, h⟩ | ⟨hno, h, hvalue⟩ | ⟨hno, hc, h⟩)
    · exact .inl ⟨_, hc, mappedTag?_eq_some_iff.2 ⟨_, _, _, hmapping, hfirst, h⟩⟩
    · refine .inr ⟨hno, ?_⟩
      rw [Variant.declaredTag_eq_literal_iff.2 h]
      rfl
    · refine .inr ⟨hno, ?_⟩
      rw [Variant.declaredTag_eq_literal_iff.2 h, declaredTag?, Json.label]
      exact hvalue
    · refine .inr ⟨hno, ?_⟩
      rw [Variant.declaredTag_eq_free_iff.2 h, hc]
      rfl

theorem Variant.untagged_iff {D : Discriminator} {v : Variant} :
    tagOf? D v = none ↔ ∀ tag, ¬ v.HasTag D tag := by
  rw [Option.eq_none_iff_forall_ne_some]
  simp only [ne_eq, tagOf?_eq_some_iff]

section Results

variable {ε α β : Type} {x : Except ε α} {f : α → β}

theorem exists_map_eq_ok_iff : (∃ b, x.map f = .ok b) ↔ ∃ a, x = .ok a := by
  cases x <;> simp [Except.map]

theorem map_eq_error_iff {e : ε} : x.map f = .error e ↔ x = .error e := by
  cases x <;> simp [Except.map]

end Results

/-- **Tags are missing** from the first variant that has none. -/
theorem tagsOf_eq_error_iff {D : Discriminator} {location : String} {cause : CompileError} :
    ∀ {variants : List Variant} {index : Nat},
      tagsOf D location index variants = .error cause ↔
        ∃ before v after, variants = before ++ v :: after ∧
          (∀ u ∈ before, ∃ tag, u.HasTag D tag) ∧ (∀ tag, ¬ v.HasTag D tag) ∧
          cause = .missingDiscriminator location
            (v.component.getD ("#" ++ toString (index + before.length))) D.propertyName
  | [], index => by simp [tagsOf]
  | v :: rest, index => by
    rw [tagsOf]
    cases htag : tagOf? D v with
    | none =>
      simp only [Except.error.injEq]
      constructor
      · rintro rfl
        exact ⟨[], v, rest, rfl, by simp, Variant.untagged_iff.1 htag, rfl⟩
      · rintro ⟨before, u, after, hvariants, hbefore, hu, rfl⟩
        cases before with
        | nil =>
          obtain ⟨rfl, rfl⟩ := List.cons.inj hvariants
          rfl
        | cons first before =>
          obtain ⟨rfl, -⟩ := List.cons.inj hvariants
          obtain ⟨tag, hfirst⟩ := hbefore v (.head _)
          exact absurd hfirst (Variant.untagged_iff.1 htag tag)
    | some tag =>
      have hv := tagOf?_eq_some_iff.1 htag
      rw [map_eq_error_iff, tagsOf_eq_error_iff]
      constructor
      · rintro ⟨before, u, after, rfl, hbefore, hu, rfl⟩
        refine ⟨v :: before, u, after, rfl, ?_, hu, ?_⟩
        · simpa using ⟨⟨tag, hv⟩, hbefore⟩
        · rw [List.length_cons, Nat.add_right_comm, Nat.add_assoc]
      · rintro ⟨before, u, after, hvariants, hbefore, hu, rfl⟩
        cases before with
        | nil =>
          obtain ⟨rfl, -⟩ := List.cons.inj hvariants
          exact absurd hv (hu tag)
        | cons first before =>
          obtain ⟨rfl, rfl⟩ := List.cons.inj hvariants
          refine ⟨before, u, after, rfl, fun w hw => hbefore w (.tail _ hw), hu, ?_⟩
          rw [List.length_cons, Nat.add_right_comm, Nat.add_assoc]

/-- All tags are there if every variant has one. -/
theorem tagsOf_isOk_iff {D : Discriminator} {location : String} {variants : List Variant}
    {index : Nat} : (∃ tags, tagsOf D location index variants = .ok tags) ↔
      ∀ v ∈ variants, ∃ tag, v.HasTag D tag := by
  constructor
  · rintro ⟨tags, h⟩ v hv
    obtain ⟨tag, -, htag⟩ := forall₂_exists (forall₂_of_tagsOf h) hv
    exact ⟨tag, tagOf?_eq_some_iff.1 htag⟩
  · intro h
    cases htags : tagsOf D location index variants with
    | ok tags => exact ⟨tags, rfl⟩
    | error cause =>
      obtain ⟨before, v, after, rfl, -, hv, -⟩ := tagsOf_eq_error_iff.1 htags
      obtain ⟨tag, htag⟩ := h v (by simp)
      exact absurd htag (hv tag)

/-! ### Unions -/

/-- The variants that are not `null`. -/
def properVariants (variants : List Variant) : List Variant :=
  variants.filter fun v => !v.node.shape.isNull

/-- What a union is classified to, but for whether it admits `null`. -/
def classifiedShape (result : Body × List Diagnostic) : Shape Node × List Diagnostic :=
  (result.1.shape, result.2)

theorem classify_eq (keyword : UnionKeyword) (variants : List Variant)
    (discriminator : Option Discriminator) (location : String) :
    classify keyword variants discriminator location =
      (taggingOf keyword (properVariants variants) discriminator location).map fun found =>
        (⟨.union ((properVariants variants).map Variant.node) found.1,
          variants.any fun v => v.node.shape.isNull⟩, found.2) := rfl

/-- Variants that are `null` only count for whether the union admits `null`. -/
theorem classifiedShape_classify (keyword : UnionKeyword) (variants : List Variant)
    (discriminator : Option Discriminator) (location : String) :
    (classify keyword variants discriminator location).map classifiedShape =
      (taggingOf keyword (properVariants variants) discriminator location).map fun found =>
        (.union ((properVariants variants).map Variant.node) found.1, found.2) := by
  rw [classify_eq]
  cases taggingOf keyword (properVariants variants) discriminator location <;> rfl

theorem any_isNull_iff {variants : List Variant} :
    (variants.any fun v => v.node.shape.isNull) ↔ ∃ v ∈ variants, v.node.shape = .null := by
  have hnull : ∀ shape : Shape Node, shape.isNull = true ↔ shape = .null := by
    intro shape
    cases shape <;> simp [Shape.isNull]
  simp only [List.any_eq_true, hnull]

/-- A `oneOf` with a discriminator is classified where its tags are found. -/
theorem classify_oneOf (variants : List Variant) (D : Discriminator) (location : String) :
    classify .oneOf variants (some D) location =
      (tagsOf D location 0 (properVariants variants)).map fun tags =>
        (⟨.union ((properVariants variants).map Variant.node) (.tagged D.propertyName tags),
          variants.any fun v => v.node.shape.isNull⟩, []) := by
  rw [classify_eq, taggingOf]
  cases tagsOf D location 0 (properVariants variants) <;> rfl

/-- **What unions are classified to.**  Variants that are `null` can be put in and taken out
anywhere; all they change is whether the union admits `null`, and it does if there is one.  With a
discriminator a `oneOf` needs a tag for every other variant and has the tags in their order; if a
tag is missing, the first such variant is reported. -/
theorem classify_spec (keyword : UnionKeyword) (variants : List Variant)
    (discriminator : Option Discriminator) (location : String) :
    (∀ others, properVariants others = properVariants variants →
      (classify keyword others discriminator location).map classifiedShape =
        (classify keyword variants discriminator location).map classifiedShape) ∧
    (∀ body findings, classify keyword variants discriminator location = .ok (body, findings) →
      (body.nullable ↔ ∃ v ∈ variants, v.node.shape = .null)) ∧
    ∀ D, keyword = .oneOf → discriminator = some D →
      ((∃ result, classify keyword variants discriminator location = .ok result) ↔
        ∀ v ∈ properVariants variants, ∃ tag, v.HasTag D tag) ∧
      (∀ body findings, classify keyword variants discriminator location = .ok (body, findings) →
        findings = [] ∧ ∃ tags,
          body.shape = .union ((properVariants variants).map Variant.node)
            (.tagged D.propertyName tags) ∧
          List.Forall₂ (fun v tag => v.HasTag D tag) (properVariants variants) tags) ∧
      ∀ cause, classify keyword variants discriminator location = .error cause ↔
        ∃ before v after, properVariants variants = before ++ v :: after ∧
          (∀ u ∈ before, ∃ tag, u.HasTag D tag) ∧ (∀ tag, ¬ v.HasTag D tag) ∧
          cause = .missingDiscriminator location
            (v.component.getD ("#" ++ toString before.length)) D.propertyName := by
  refine ⟨fun others hothers => ?_, fun body findings h => ?_, fun D hkeyword hD => ?_⟩
  · rw [classifiedShape_classify, classifiedShape_classify, hothers]
  · rw [classify_nullable h, any_isNull_iff]
  · subst hkeyword hD
    rw [classify_oneOf]
    refine ⟨?_, fun body findings h => ?_, fun cause => ?_⟩
    · rw [exists_map_eq_ok_iff, tagsOf_isOk_iff]
    · cases htags : tagsOf D location 0 (properVariants variants) with
      | error cause => simp [htags, Except.map] at h
      | ok tags =>
        simp only [htags, Except.map, Except.ok.injEq, Prod.mk.injEq] at h
        obtain ⟨rfl, rfl⟩ := h
        exact ⟨rfl, tags, rfl,
          (forall₂_of_tagsOf htags).imp fun _ _ htag => tagOf?_eq_some_iff.1 htag⟩
    · rw [map_eq_error_iff, tagsOf_eq_error_iff]
      simp only [Nat.zero_add]

/-- A union of `null`, a component that is mapped, objects with one literal each, and a component
that is still open. -/
def petVariants : List Variant :=
  [ ⟨⟨0, .null, false, none, none, none⟩, none, none⟩,
    ⟨⟨1, .object [] [] none, false, some "Cat", none, none⟩, some "Cat", none⟩,
    ⟨⟨2, .object [("kind", ⟨3, .enumeration [.string "dog"], false, none, none, none⟩)] [] none,
      false, none, none, none⟩, none, none⟩,
    ⟨⟨4, .object [("kind", ⟨5, .enumeration [.bool true], false, none, none, none⟩)] [] none,
      false, none, none, none⟩, none, none⟩,
    ⟨⟨6, .backRef "Bird", false, none, none, none⟩, some "Bird", some .free⟩ ]

/-- The discriminator of `petVariants`. -/
def petKind : Discriminator := ⟨"kind", [("kitty", "#/components/schemas/Cat")]⟩

/-- Without the mapping the cat has no tag, and neither has the union. -/
theorem classify_spec_pets :
    (classify .oneOf petVariants.tail (some petKind) "#/pet").map classifiedShape =
      (classify .oneOf petVariants (some petKind) "#/pet").map classifiedShape ∧
    (∃ body, classify .oneOf petVariants (some petKind) "#/pet" = .ok (body, []) ∧
      body.nullable ∧
      body.shape = .union (petVariants.tail.map Variant.node)
        (.tagged "kind" ["kitty", "dog", "true", "Bird"])) ∧
    (∀ v ∈ properVariants petVariants, ∃ tag, v.HasTag petKind tag) ∧
    ∃ before v after, properVariants petVariants = before ++ v :: after ∧
      (∀ tag, ¬ v.HasTag ⟨"kind", []⟩ tag) ∧
      v.component.getD ("#" ++ toString before.length) = "Cat" := by
  obtain ⟨hnull, hflag, htagged⟩ := classify_spec .oneOf petVariants (some petKind) "#/pet"
  obtain ⟨hok, -, -⟩ := htagged petKind rfl rfl
  have hmade : classify .oneOf petVariants (some petKind) "#/pet" =
      .ok (⟨.union (petVariants.tail.map Variant.node)
        (.tagged "kind" ["kitty", "dog", "true", "Bird"]), true⟩, []) := by
    rw [classify_oneOf]
    rfl
  have hmissing : classify .oneOf petVariants (some ⟨"kind", []⟩) "#/pet" =
      .error (.missingDiscriminator "#/pet" "Cat" "kind") := by
    rw [classify_oneOf]
    rfl
  obtain ⟨-, -, hfirst⟩ :=
    (classify_spec .oneOf petVariants (some ⟨"kind", []⟩) "#/pet").2.2 _ rfl rfl
  obtain ⟨before, v, after, hvariants, -, hv, hlabel⟩ := (hfirst _).1 hmissing
  rw [CompileError.missingDiscriminator.injEq] at hlabel
  exact ⟨hnull petVariants.tail rfl,
    ⟨_, hmade, (hflag _ _ hmade).2 ⟨petVariants.head (by decide), by simp [petVariants], rfl⟩, rfl⟩,
    hok.1 ⟨_, hmade⟩, before, v, after, hvariants, hv, hlabel.2.1.symm⟩

end ApiBinding
