import ApiBinding.Proofs.Composition.Declarations
import ApiBinding.Proofs.Resolver.BackReferences

/-!
# What fragments contribute

A fragment that refers to a component contributes all that the node of the component declares,
whether that node is kept, not made yet, or being made.  So does a fragment that only wraps such a
reference, at any depth, where every composition is expanded.  Elsewhere the innermost wrapper
stands for a plain reference, and a plain reference to an open component is answered by a back
reference, which declares nothing.

What a node declares is compared with what its schema gathers: its own declarations and those of its
fragments, read off the description alone.

## Main definitions

* `Node.Declares`, `Schema.Gathers` — what a node declares, and what is gathered from a schema and
  its fragments.
* `Schema.Wraps`, `Schema.Hides` — wrappers of a reference, and wrappers that stand for a plain one.
* `Document.Contributes` — what is known of the node of a fragment.

## Main results

* `mergeFragments_declares` — merged fragments declare what one of them declares.
* `gatheringClaims_sound` — the node of a component declares what its schema gathers.
* `composition_contributes` — **what the fragments of a composition contribute.**
-/

namespace ApiBinding

/-! ### What nodes declare -/

/-- What an object may declare. -/
inductive Declaration where
  | property (key : String)
  /-- The name is required. -/
  | required (name : String)

/-- The node is an object that declares this. -/
def Node.Declares (n : Node) : Declaration → Prop
  | .property key => key ∈ ObjectParts.declaredKeys n
  | .required name => name ∈ ObjectParts.requiredNames n

/-- The schema declares this itself. -/
def Schema.DeclaresItself (s : Schema) : Declaration → Prop
  | .property key => key ∈ Table.keys s.properties
  | .required name => name ∈ s.required

section Nodes

variable {n : Node} {nodes : List Node} {location : String} {e : Declaration}

theorem Node.Declares.isObject (h : n.Declares e) : n.shape.isObject := by
  cases e with
  | property key =>
    by_contra hno
    simp [Declares, ObjectParts.declaredKeys, Shape.properties_of_not_isObject hno] at h
  | required name =>
    unfold Declares ObjectParts.requiredNames at h
    cases hshape : n.shape <;> simp_all [Shape.isObject]

/-- What a node declares shows in its shape. -/
theorem Node.declares_congr {m : Node} (h : n.shape = m.shape) : n.Declares e ↔ m.Declares e := by
  cases e <;> simp [Declares, ObjectParts.declaredKeys, ObjectParts.requiredNames, h]

theorem mergeObjects_declares (hn : n.shape = (mergeObjects nodes location).1.shape) :
    n.Declares e ↔ ∃ m ∈ nodes, m.Declares e := by
  have hshape : n.shape =
      (ObjectParts.addFragments location 0 {} nodes).1.toBody.shape := hn
  cases e with
  | property key =>
    have hkeys : ObjectParts.declaredKeys n =
        Table.keys (ObjectParts.addFragments location 0 {} nodes).1.properties := by
      rw [ObjectParts.declaredKeys, hshape]
      rfl
    simp [Node.Declares, hkeys, ObjectParts.keys_addFragments, mem_extendNew]
  | required name =>
    have hrequired : ObjectParts.requiredNames n =
        (ObjectParts.addFragments location 0 {} nodes).1.required := by
      rw [ObjectParts.requiredNames, hshape]
      rfl
    simp [Node.Declares, hrequired, ObjectParts.required_addFragments, mem_extendNew]

/-- **Merged fragments declare what one of them declares.** -/
theorem mergeFragments_declares (hn : n.shape = (mergeFragments nodes location).1.shape) :
    n.Declares e ↔ ∃ m ∈ nodes, m.Declares e := by
  unfold mergeFragments at hn
  split at hn
  · exact mergeObjects_declares hn
  · -- Without an object among them no fragment declares anything.
    rename_i hany
    have hnone : ∀ m ∈ nodes, ¬ m.Declares e := fun m hm h =>
      hany (List.any_eq_true.2 ⟨m, hm, h.isObject⟩)
    have hnothing : ¬ ∃ m ∈ nodes, m.Declares e := fun ⟨m, hm, h⟩ => hnone m hm h
    split at hn
    · refine iff_of_false (fun h => ?_) hnothing
      have hobject := h.isObject
      simp [hn, Shape.isObject] at hobject
    · rename_i only honly
      have hmem : only ∈ nodes := List.mem_of_mem_filter (honly ▸ List.mem_singleton_self only)
      exact iff_of_false (fun h => hnone only hmem ((Node.declares_congr hn).1 h)) hnothing
    · exact mergeObjects_declares hn

/-- Merged fragments are a back reference only if one of them is. -/
theorem mergeFragments_backRef? {c : String}
    (h : (mergeFragments nodes location).1.shape.backRef? = some c) :
    ∃ m ∈ nodes, m.shape.backRef? = some c := by
  unfold mergeFragments at h
  split at h
  · simp [mergeObjects, ObjectParts.toBody, Shape.backRef?] at h
  · split at h
    · simp [Shape.backRef?] at h
    · rename_i only honly
      exact ⟨only, List.mem_of_mem_filter (honly ▸ List.mem_singleton_self only), h⟩
    · simp [mergeObjects, ObjectParts.toBody, Shape.backRef?] at h

/-- An object declares what its schema declares. -/
theorem ObjectFrom.declares {Q : Request → Node → Prop} {s : Schema} (h : ObjectFrom Q s n.shape) :
    n.Declares e ↔ s.DeclaresItself e := by
  obtain ⟨properties, additional, hshape, hproperties, -⟩ := h
  cases e with
  | property key =>
    have hkeys : Table.keys properties = Table.keys s.properties :=
      Table.keys_eq_of_forall₂ hproperties fun _ _ h => h.1
    simp [Node.Declares, Schema.DeclaresItself, ObjectParts.declaredKeys, hshape,
      Shape.properties, hkeys]
  | required name =>
    simp [Node.Declares, Schema.DeclaresItself, ObjectParts.requiredNames, hshape, mem_distinct]

end Nodes

/-! ### What is gathered from schemas -/

namespace Schema

/-- What is gathered from a schema and its fragments at any depth; `own` says what each of them
brings. -/
inductive Gathers {α : Type} (d : Document) (own : Schema → α → Prop) : Schema → α → Prop where
  | object {s : Schema} {a : α} (hs : s.PlainObject) (ha : own s a) : Gathers d own s a
  | own {s : Schema} {a : α} (hr : s.reference = none) (hall : s.allOf ≠ []) (ha : own s a) :
      Gathers d own s a
  | reference {s f t : Schema} {p c : String} {a : α} (hr : s.reference = none) (hf : f ∈ s.allOf)
      (hp : f.reference = some p) (hc : Pointer.Whole p c) (ht : d.schema? c = some t)
      (h : Gathers d own t a) : Gathers d own s a
  | inline {s f : Schema} {a : α} (hr : s.reference = none) (hf : f ∈ s.allOf)
      (hp : f.reference = none) (h : Gathers d own f a) : Gathers d own s a

/-- The schema wraps a reference, at any depth: each composition has one fragment, and that of the
`inner` one is the reference. -/
inductive Wraps : Schema → String → Schema → Prop where
  | reference {s f : Schema} {p : String} (hr : s.reference = none) (hall : s.allOf = [f])
      (hp : f.reference = some p) : Wraps s p s
  | inline {s f inner : Schema} {p : String} (hr : s.reference = none) (hall : s.allOf = [f])
      (hf : f.reference = none) (h : Wraps f p inner) : Wraps s p inner

/-- The schema is a wrapper that stands for a plain reference, or has such a fragment at any
depth. -/
inductive Hides : Schema → String → Prop where
  | wrapper {s : Schema} {p : String} (hr : s.reference = none)
      (h : Follow.wrapped? s none false = some p) : Hides s p
  | inline {s f : Schema} {p : String} (hr : s.reference = none) (hf : f ∈ s.allOf)
      (h : Hides f p) : Hides s p

/-- No fragment in the schema, at any depth, refers to a part of a component. -/
def ComposesWhole (s : Schema) : Prop :=
  ∀ t, Relation.ReflTransGen Inside t s → ∀ f ∈ t.allOf, ∀ p c tokens, f.reference = some p →
    Pointer.tokens? p = some (c, tokens) → tokens = []

variable {s f : Schema}

theorem ComposesWhole.fragment (h : s.ComposesWhole) (hf : f ∈ s.allOf) : f.ComposesWhole :=
  fun t ht => h t (ht.tail (.allOf hf))

end Schema

/-- No fragment in a component refers to a part of a component. -/
def Document.ComposesWhole (d : Document) : Prop :=
  ∀ c s, d.schema? c = some s → s.ComposesWhole

/-- In a description whose references are whole components, so are its fragments. -/
theorem Document.composesWhole_of_references {d : Document}
    (h : ∀ p ∈ d.references, ∃ c, Pointer.Whole p c) : d.ComposesWhole := by
  intro c s hs t ht f hf p c' tokens hp htokens
  have hmem : p ∈ t.references :=
    (Schema.Inside.allOf hf).references_subset (Schema.mem_references_of_reference hp)
  obtain ⟨c'', hwhole⟩ := h p (Schema.references_subset_table (Table.mem_of_get? hs)
    (Schema.references_subset_of_inside ht hmem))
  rw [Pointer.Whole, htokens, Option.some.injEq, Prod.mk.injEq] at hwhole
  exact hwhole.2

/-- The pointer of a fragment that addresses a schema is that of a component. -/
theorem Schema.ComposesWhole.whole {d : Document} {s f : Schema} {p : String}
    (h : s.ComposesWhole) (hf : f ∈ s.allOf) (hp : f.reference = some p)
    (haddressed : (d.addressed? p).isSome) : ∃ c, Pointer.Whole p c := by
  obtain ⟨t, ht⟩ := Option.isSome_iff_exists.1 haddressed
  obtain ⟨⟨c, tokens⟩, htokens, -⟩ := Option.bind_eq_some_iff.1 ht
  obtain rfl : tokens = [] := h s .refl f hf p c tokens hp htokens
  exact ⟨c, htokens⟩

/-! ### The resolver gathers what is there -/

/-- The node declares what is gathered from the schema.  If fragments are whole components, it
declares nothing else, and it is no back reference. -/
structure Gathered (d : Document) (s : Schema) (n : Node) : Prop where
  all : ∀ e, s.Gathers d Schema.DeclaresItself e → n.Declares e
  only : d.ComposesWhole → s.ComposesWhole → ∀ e, n.Declares e →
    s.Gathers d Schema.DeclaresItself e
  finished : d.ComposesWhole → s.ComposesWhole → n.shape.backRef? = none

/-- The node has all that is gathered from the component. -/
def Document.Provides (d : Document) (c : String) (n : Node) : Prop :=
  ∃ t, d.schema? c = some t ∧ ∀ e, t.Gathers d Schema.DeclaresItself e → n.Declares e

/-- The innermost wrapper of a reference is resolved as a composition, or the plain reference that
it stands for leads to the component itself. -/
def Schema.Expands (inner : Schema) (opened : String → Prop) (spine : Bool) (p : String) : Prop :=
  spine ∨ inner.properties ≠ [] ∨ ¬ opened p ∧ ¬ inner.isNullable

/-- A wrapper of a reference provides the component, if it is expanded. -/
def Unwraps (d : Document) (opened : String → Prop) (spine : Bool) (s : Schema) (n : Node) : Prop :=
  ∀ p c inner, s.Wraps p inner → inner.Expands opened spine p → Pointer.Whole p c → d.Provides c n

/-- A composition is a back reference only if it hides a reference to an open component. -/
def HidesOpen (d : Document) (opened : String → Prop) (spine : Bool) (s : Schema) (n : Node) :
    Prop :=
  d.ComposesWhole → s.ComposesWhole → s.reference = none → ∀ c, n.shape.backRef? = some c →
    spine = false ∧ ∃ p, s.Hides p ∧ Pointer.Whole p c ∧ opened p

/-- A wrapper that stands for a plain reference to an open component refers back to it. -/
def RefersBackOpen (opened : String → Prop) (spine : Bool) (s : Schema) (n : Node) : Prop :=
  ∀ p c, s.reference = none → Follow.wrapped? s none spine = some p → Pointer.Whole p c → opened p →
    ∃ target : Node, target.RefersBack c ∧ RefersTo target s none n

/-- What is claimed of the node of a schema. -/
structure Gathering (d : Document) (opened : String → Prop) (s : Schema) (name : Option String)
    (spine : Bool) (n : Node) : Prop where
  gathered : spine → s.Own name true → Gathered d s n
  unwraps : Unwraps d opened spine s n
  hidesOpen : name = none → HidesOpen d opened spine s n
  refersBack : name = none → RefersBackOpen opened spine s n

/-- What is claimed of the declarations of nodes. -/
def gatheringClaims (d : Document) : Claims where
  component c n := ∃ t, d.schema? c = some t ∧ Gathered d t n
  schema := Gathering d

section Built

variable {d : Document} {opened : String → Prop} {s f : Schema} {location : String}
  {name : Option String} {spine : Bool} {n m : Node} {e : Declaration}

theorem Schema.DeclaresItself.addsFragment (h : s.DeclaresItself e) : s.addsFragment := by
  unfold Schema.addsFragment
  cases e with
  | property key =>
    cases hproperties : s.properties <;> simp_all [DeclaresItself]
  | required name =>
    cases hrequired : s.required <;> simp_all [DeclaresItself]

/-- What is no composition declares its own properties, if it is an object. -/
theorem Built.uncomposed {Q : Request → Node → Prop} (h : Built d Q s location name spine n)
    (hown : s.Own name spine) (hform : s.form name spine ≠ .composition) :
    n.shape.backRef? = none ∧ ∀ e, n.Declares e ↔ s.PlainObject ∧ s.DeclaresItself e := by
  by_cases hobject : s.PlainObject
  · rw [Built, hobject.form_eq] at h
    obtain ⟨shape, hshape, hn⟩ := h
    have hobjectFrom := hshape.object hobject
    rw [← show n.shape = shape from hn.shape] at hobjectFrom
    refine ⟨?_, fun e => hobjectFrom.declares.trans (iff_and_self.2 fun _ => hobject)⟩
    obtain ⟨properties, additional, hshape, -⟩ := hobjectFrom
    rw [hshape]
    rfl
  · have hpropertyless : s.Propertyless name spine := by
      unfold Schema.Propertyless
      split
      · exact hown.reference _ ‹_›
      · exact absurd ‹_› (hown.wrapper _)
      · exact absurd ‹_› hform
      · trivial
      · trivial
      · exact hobject
    obtain ⟨hback, hnone⟩ := h.propertyless hpropertyless
    exact ⟨hback, fun e => iff_of_false (fun he => hnone he.isObject) fun he => hobject he.1⟩

/-- The fragment that a composition adds declares what the composition itself declares. -/
theorem OwnFrom.declares {Q : Request → Node → Prop} {own : List Node} (h : OwnFrom Q s own) :
    (∃ m ∈ own, m.Declares e) ↔ s.DeclaresItself e := by
  unfold OwnFrom at h
  split at h
  · obtain ⟨m, rfl, hobject, -⟩ := h
    simpa using hobject.declares
  · rename_i hadds
    subst h
    simpa using fun he : s.DeclaresItself e => hadds he.addsFragment

theorem OwnFrom.isObject {Q : Request → Node → Prop} {own : List Node} (h : OwnFrom Q s own)
    (hm : m ∈ own) : m.shape.isObject := by
  unfold OwnFrom at h
  split at h
  · obtain ⟨m', rfl, ⟨properties, additional, hshape, -⟩, -⟩ := h
    obtain rfl := List.mem_singleton.1 hm
    rw [hshape]
    rfl
  · simp [h] at hm

theorem Shape.backRef?_of_isObject {shape : Shape Node} (h : shape.isObject) :
    shape.backRef? = none := by
  cases shape <;> simp_all [isObject, backRef?]

/-- The node of a fragment that refers to a component. -/
theorem FragmentFrom.gathered (h : FragmentFrom ((gatheringClaims d).Answer d opened) spine f m)
    {p : String} (hp : f.reference = some p) :
    (d.addressed? p).isSome ∧
      ∀ c, Pointer.Whole p c → ∃ t, d.schema? c = some t ∧ Gathered d t m := by
  simp only [FragmentFrom, hp] at h
  obtain ⟨l, hm⟩ := h
  exact hm

/-- The node of a fragment that is no reference. -/
theorem FragmentFrom.inlined (h : FragmentFrom ((gatheringClaims d).Answer d opened) spine f m)
    (hp : f.reference = none) : Gathering d opened f none spine m := by
  simp only [FragmentFrom, hp] at h
  obtain ⟨l, hm⟩ := h
  exact hm

theorem exists_fragment {Q : Request → Node → Prop} {fs : List Schema} {nodes : List Node}
    (h : List.Forall₂ (FragmentFrom Q spine) fs nodes) (hm : m ∈ nodes) :
    ∃ f ∈ fs, FragmentFrom Q spine f m :=
  forall₂_exists h.flip hm

/-- A schema without a reference has a node of its own where every composition is expanded. -/
theorem Schema.own_of_spine (hr : s.reference = none) (name : Option String) : s.Own name true := by
  refine ⟨fun p hform => ?_, fun p hform => ?_⟩
  · cases formed_of_eq hform with
    | reference h => simp [hr] at h
  · cases formed_of_eq hform with
    | wrapper _ hw => exact absurd (wrapped?_eq_some hw).2.2.2 (by simp)

/-- Where every composition is expanded, the node of a fragment is that of a schema from which the
composition gathers. -/
theorem FragmentFrom.expanded (h : FragmentFrom ((gatheringClaims d).Answer d opened) true f m)
    (hd : d.ComposesWhole) (hs : s.ComposesWhole) (hr : s.reference = none) (hf : f ∈ s.allOf) :
    ∃ t, Gathered d t m ∧ t.ComposesWhole ∧ ∀ e, t.Gathers d Schema.DeclaresItself e →
      s.Gathers d Schema.DeclaresItself e := by
  cases hp : f.reference with
  | none =>
    exact ⟨f, (h.inlined hp).gathered rfl (Schema.own_of_spine hp none), hs.fragment hf,
      fun e he => .inline hr hf hp he⟩
  | some p =>
    obtain ⟨haddressed, hm⟩ := h.gathered hp
    obtain ⟨c, hc⟩ := hs.whole hf hp haddressed
    obtain ⟨t, ht, hgathered⟩ := hm c hc
    exact ⟨t, hgathered, hd c t ht, fun e he => .reference hr hf hp hc ht he⟩

/-- **The node of a schema declares what is gathered from the schema.** -/
theorem Built.gathered (h : Built d ((gatheringClaims d).Answer d opened) s location name true n)
    (hown : s.Own name true) : Gathered d s n := by
  by_cases hform : s.form name true = .composition
  · obtain ⟨hr, hall⟩ := Schema.form_composition hform
    rw [Built, hform] at h
    obtain ⟨fragments, own, hfragments, hownFrom, hn⟩ := h
    have hdeclares := fun e => mergeFragments_declares (e := e) hn.shape
    refine ⟨fun e he => (hdeclares e).2 ?_, fun hd hs e he => ?_, fun hd hs => ?_⟩
    · cases he with
      | object hobject => simp [hobject.form_eq] at hform
      | own _ _ he =>
        obtain ⟨m, hm, he⟩ := hownFrom.declares.2 he
        exact ⟨m, List.mem_append_right _ hm, he⟩
      | reference _ hf hp hc ht he =>
        obtain ⟨m, hm, hfrom⟩ := forall₂_exists hfragments hf
        obtain ⟨t', ht', hgathered⟩ := (hfrom.gathered hp).2 _ hc
        rw [ht, Option.some.injEq] at ht'
        exact ⟨m, List.mem_append_left _ hm, hgathered.all e (ht' ▸ he)⟩
      | inline _ hf hp he =>
        obtain ⟨m, hm, hfrom⟩ := forall₂_exists hfragments hf
        exact ⟨m, List.mem_append_left _ hm,
          ((hfrom.inlined hp).gathered rfl (Schema.own_of_spine hp none)).all e he⟩
    · obtain ⟨m, hm, he⟩ := (hdeclares e).1 he
      rcases List.mem_append.1 hm with hm | hm
      · obtain ⟨f, hf, hfrom⟩ := exists_fragment hfragments hm
        obtain ⟨t, hgathered, ht, hgathers⟩ := hfrom.expanded hd hs hr hf
        exact hgathers e (hgathered.only hd ht e he)
      · exact .own hr hall (hownFrom.declares.1 ⟨m, hm, he⟩)
    · rw [hn.shape]
      refine mergeFragments_finished location fun m hm => ?_
      rcases List.mem_append.1 hm with hm | hm
      · obtain ⟨f, hf, hfrom⟩ := exists_fragment hfragments hm
        obtain ⟨t, hgathered, ht, -⟩ := hfrom.expanded hd hs hr hf
        exact hgathered.finished hd ht
      · exact Shape.backRef?_of_isObject (hownFrom.isObject hm)
  · obtain ⟨hback, hdeclares⟩ := h.uncomposed hown hform
    refine ⟨fun e he => (hdeclares e).2 ?_, fun _ _ e he => ?_, fun _ _ => hback⟩
    · have hnone : s.reference = none → s.allOf ≠ [] → False := fun hr hall =>
        hform (Schema.form_of_spine hr hall)
      cases he with
      | object hobject he => exact ⟨hobject, he⟩
      | own hr hall => exact (hnone hr hall).elim
      | reference hr hf => exact (hnone hr (List.ne_nil_of_mem hf)).elim
      | inline hr hf => exact (hnone hr (List.ne_nil_of_mem hf)).elim
    · obtain ⟨hobject, he⟩ := (hdeclares e).1 he
      exact .object hobject he

/-- A composition provides what one of its fragments provides. -/
theorem Document.Provides.of_fragment {c : String} {fragments own : List Node}
    (h : d.Provides c m) (hm : m ∈ fragments)
    (hn : n.shape = (mergeFragments (fragments ++ own) location).1.shape) : d.Provides c n := by
  obtain ⟨t, ht, hall⟩ := h
  exact ⟨t, ht, fun e he =>
    (mergeFragments_declares hn).2 ⟨m, List.mem_append_left _ hm, hall e he⟩⟩

/-- **A wrapper provides the component that it wraps**, if it is expanded. -/
theorem Built.unwraps (h : Built d ((gatheringClaims d).Answer d opened) s location name spine n) :
    Unwraps d opened spine s n := by
  intro p c inner hwraps hexpands hp
  unfold Built at h
  cases hwraps with
  | @reference _ f _ hr hall hf =>
    have hformed := s.formed name spine
    generalize s.form name spine = form at h hformed
    cases hformed with
    | wrapper _ hw =>
      obtain ⟨⟨only, hall', honly⟩, hproperties, -, hspine⟩ := Schema.wrapped?_eq_some hw
      obtain rfl : f = only := by simpa [hall] using hall'
      obtain rfl : p = _ := Option.some.inj (hf.symm.trans honly)
      obtain ⟨hopen, hnull⟩ := (hexpands.resolve_left (by simp [hspine])).resolve_left (by simpa)
      obtain ⟨target, ⟨l, -, htarget⟩, hn⟩ := h
      rw [RefersTo, Schema.passes, if_pos (by simp [hnull])] at hn
      obtain ⟨t, ht, hgathered⟩ := ((htarget c hp).resolve_right fun hback => hopen hback.2).1
      exact ⟨t, ht, hn ▸ hgathered.all⟩
    | composition _ _ _ =>
      obtain ⟨fragments, own, hfragments, -, hn⟩ := h
      obtain ⟨m, hm, hfrom⟩ := forall₂_exists hfragments (hall ▸ List.mem_singleton_self f)
      obtain ⟨t, ht, hgathered⟩ := (hfrom.gathered hf).2 c hp
      exact Document.Provides.of_fragment ⟨t, ht, hgathered.all⟩ hm hn.shape
    | reference h' => simp [hr] at h'
    | _ => simp_all
  | @inline _ f _ _ hr hall hf hwraps =>
    have hformed := s.formed name spine
    generalize s.form name spine = form at h hformed
    cases hformed with
    | wrapper _ hw =>
      obtain ⟨⟨only, hall', honly⟩, -⟩ := Schema.wrapped?_eq_some hw
      obtain rfl : f = only := by simpa [hall] using hall'
      simp [hf] at honly
    | composition _ _ _ =>
      obtain ⟨fragments, own, hfragments, -, hn⟩ := h
      obtain ⟨m, hm, hfrom⟩ := forall₂_exists hfragments (hall ▸ List.mem_singleton_self f)
      exact ((hfrom.inlined hf).unwraps p c inner hwraps hexpands hp).of_fragment hm hn.shape
    | reference h' => simp [hr] at h'
    | _ => simp_all

/-- **A composition is a back reference only if it hides a reference to an open component.** -/
theorem Built.hidesOpen
    (h : Built d ((gatheringClaims d).Answer d opened) s location none spine n) :
    HidesOpen d opened spine s n := by
  intro hd hs hr c hback
  cases hform : s.form none spine with
  | reference p =>
    cases Schema.formed_of_eq hform with
    | reference h' => simp [hr] at h'
  | wrapper p =>
    rw [Built, hform] at h
    obtain ⟨target, ⟨l, haddressed, htarget⟩, hn⟩ := h
    cases Schema.formed_of_eq hform with
    | wrapper _ hw =>
      obtain ⟨⟨only, hall, honly⟩, -, -, rfl⟩ := Schema.wrapped?_eq_some hw
      obtain ⟨c', hc⟩ := hs.whole (hall ▸ List.mem_singleton_self only) honly haddressed
      unfold RefersTo at hn
      split at hn
      · subst hn
        rcases htarget c' hc with ⟨⟨t, ht, hgathered⟩, -⟩ | ⟨hrefers, hopen⟩
        · simp [hgathered.finished hd (hd c' t ht)] at hback
        · obtain rfl : c' = c := by simpa [hrefers.shape, Shape.backRef?] using hback
          exact ⟨rfl, p, .wrapper hr hw, hc, hopen⟩
      · simp [hn.shape, Shape.backRef?] at hback
  | composition =>
    rw [Built, hform] at h
    obtain ⟨fragments, own, hfragments, hownFrom, hn⟩ := h
    rw [hn.shape] at hback
    obtain ⟨m, hm, hback⟩ := mergeFragments_backRef? hback
    rcases List.mem_append.1 hm with hm | hm
    · obtain ⟨f, hf, hfrom⟩ := exists_fragment hfragments hm
      cases hp : f.reference with
      | none =>
        obtain ⟨hspine, p, hhides, hopen⟩ :=
          (hfrom.inlined hp).hidesOpen rfl hd (hs.fragment hf) hp c hback
        exact ⟨hspine, p, .inline hr hf hhides, hopen⟩
      | some p =>
        obtain ⟨haddressed, hm⟩ := hfrom.gathered hp
        obtain ⟨c', hc⟩ := hs.whole hf hp haddressed
        obtain ⟨t, ht, hgathered⟩ := hm c' hc
        simp [hgathered.finished hd (hd c' t ht)] at hback
    · simp [Shape.backRef?_of_isObject (hownFrom.isObject hm)] at hback
  | _ =>
    have hown : s.Own none spine := ⟨by simp [hform], by simp [hform]⟩
    simp [(h.uncomposed hown (by simp [hform])).1] at hback

/-- **A wrapper that stands for a plain reference to an open component refers back to it.** -/
theorem Built.refersBack
    (h : Built d ((gatheringClaims d).Answer d opened) s location none spine n) :
    RefersBackOpen opened spine s n := by
  intro p c hr hw hp hopen
  have hall : s.allOf ≠ [] := by
    obtain ⟨⟨only, hall, -⟩, -⟩ := Schema.wrapped?_eq_some hw
    simp [hall]
  have hform : s.form none spine = .wrapper p := by
    simp [Schema.form, hr, hall, hw]
  rw [Built, hform] at h
  obtain ⟨target, ⟨l, -, htarget⟩, hn⟩ := h
  exact ⟨target, ((htarget c hp).resolve_left fun h => h.2 hopen).1, hn⟩

end Built

/-- **The node of a component declares what is gathered from its schema.** -/
theorem gatheringClaims_sound (d : Document) : (gatheringClaims d).Sound d where
  component opened p c s n _ hs _ hn := ⟨s, hs, hn.gathered rfl (s.own_component c true)⟩
  schema opened s location name spine n _ h := by
    refine ⟨fun hspine hown => ?_, h.unwraps, fun hname => ?_, fun hname => ?_⟩
    · subst hspine
      exact h.gathered hown
    · subst hname
      exact h.hidesOpen
    · subst hname
      exact h.refersBack

/-! ### Compositions -/

/-- What is known of the node of a fragment of a composition, given the open pointers. -/
structure Document.Contributes (d : Document) (opened : String → Prop) (s : Schema) (spine : Bool)
    (f : Schema) (m : Node) : Prop where
  /-- A reference provides the component, whether it is open or not. -/
  reference : ∀ p c, f.reference = some p → Pointer.Whole p c → d.Provides c m
  wrapper : Unwraps d opened spine f m
  /-- A wrapper that is not expanded is lost if the component is open. -/
  lost : RefersBackOpen opened spine f m
  /-- Nothing else is a back reference. -/
  backRef : d.ComposesWhole → s.ComposesWhole → ∀ c, m.shape.backRef? = some c →
    f.reference = none ∧ spine = false ∧ ∃ p, f.Hides p ∧ Pointer.Whole p c ∧ opened p

section Compositions

variable {d : Document} {query : Query} {s₀ u v : Session} {s f : Schema} {location : String}
  {name : Option String} {spine : Bool} {depth : Nat} {n m : Node} {opened : String → Prop}

theorem FragmentFrom.contributes
    (h : FragmentFrom ((gatheringClaims d).Answer d opened) spine f m) (hf : f ∈ s.allOf) :
    d.Contributes opened s spine f m := by
  cases hp : f.reference with
  | none =>
    have hinline := h.inlined hp
    refine ⟨fun p c hr => by simp [hp] at hr, hinline.unwraps, hinline.refersBack rfl,
      fun hd hs c hback => ⟨hp, hinline.hidesOpen rfl hd (hs.fragment hf) hp c hback⟩⟩
  | some p =>
    obtain ⟨haddressed, hm⟩ := h.gathered hp
    refine ⟨fun q c hq hc => ?_, fun q c inner hwraps => ?_, fun q c hr => by simp [hp] at hr,
      fun hd hs c hback => ?_⟩
    · obtain rfl : p = q := Option.some.inj (hp.symm.trans hq)
      obtain ⟨t, ht, hgathered⟩ := hm c hc
      exact ⟨t, ht, hgathered.all⟩
    · cases hwraps <;> simp_all
    · obtain ⟨c', hc⟩ := hs.whole hf hp haddressed
      obtain ⟨t, ht, hgathered⟩ := hm c' hc
      simp [hgathered.finished hd (hd c' t ht)] at hback

/-- What a node of a component declares is provided wherever the component is. -/
theorem Document.Provides.declares {c : String} {e : Declaration} (h : d.Provides c m)
    (hd : d.ComposesWhole) (hn : d.Answers (.component c) n) (he : n.Declares e) :
    m.Declares e := by
  obtain ⟨t, ht, hall⟩ := h
  obtain ⟨t', ht', hgathered⟩ := (gatheringClaims_sound d).answers (fun _ => id) hn
  rw [ht, Option.some.injEq] at ht'
  subst ht'
  exact hall e (hgathered.only hd (hd c t ht) e he)

/-- **What the fragments of a composition contribute**, at every moment of a run.

The node is merged from the nodes of the fragments.  A fragment that refers to a component provides
it, whether the node of the component is kept, not made yet, or being made; so does a wrapper,
unless it stands for a plain reference to an open component or adds `null` to it.  Only what stands
for a plain reference to an open component is a back reference.  What is provided is what any node
of the component declares. -/
theorem composition_contributes (hs : d.Used s₀)
    (hmoment : d.Moment (Document.stepBound (query.size d)) query.request s₀
      (.schema s location name spine) u)
    (hform : s.form name spine = .composition)
    (hn : d.follow depth (.schema s location name spine) u = .ok n v) :
    (∃ fragments own, List.Forall₂ (d.Contributes (openIn u.stack) s spine) s.allOf fragments ∧
      (∀ m ∈ own, m.shape.isObject) ∧
      n.shape = (mergeFragments (fragments ++ own) location).1.shape) ∧
    (d.ComposesWhole → ∀ f ∈ s.allOf, ∀ p c target,
      (f.reference = some p ∨
        ∃ inner, f.Wraps p inner ∧ inner.Expands (openIn u.stack) spine p) →
      Pointer.Whole p c → d.Answers (.component c) target →
      ∀ e, target.Declares e → n.Declares e) := by
  have hready := (gatheringClaims_sound d).ready (fun _ => id) hs hmoment
  have hbuilt := (gatheringClaims_sound d).built hready hn
  rw [Built, hform] at hbuilt
  obtain ⟨fragments, own, hfragments, hown, hn⟩ := hbuilt
  refine ⟨⟨fragments, own, ?_, fun m hm => hown.isObject hm, hn.shape⟩,
    fun hd f hf p c target hexpands hp htarget e he => ?_⟩
  · have hmem := (List.forall₂_and_left (p := (· ∈ s.allOf)) s.allOf fragments).2
      ⟨fun _ hf => hf, hfragments⟩
    exact hmem.imp fun f m h => h.2.contributes h.1
  · obtain ⟨m, hm, hfrom⟩ := forall₂_exists hfragments hf
    have hprovides : d.Provides c m := by
      rcases hexpands with hr | ⟨inner, hwraps, hexpands⟩
      · exact (hfrom.contributes hf).reference p c hr hp
      · exact (hfrom.contributes hf).wrapper p c inner hwraps hexpands hp
    exact (hprovides.of_fragment hm hn.shape).declares hd htarget he

end Compositions

/-- A shop has a book. -/
def shop : Schema where
  properties := [("book", { reference := some "#/components/schemas/Book" })]

/-- A book has an author. -/
def book : Schema where
  properties := [("author", { reference := some "#/components/schemas/Author" })]

/-- A work is a book, wrapped once more, and a shop. -/
def work : Schema where
  allOf :=
    [{ allOf := [{ reference := some "#/components/schemas/Book" }] },
     { reference := some "#/components/schemas/Shop" }]

/-- An author has a work. -/
def author : Schema where
  properties := [("work", work)]

/-- Shops, books and authors. -/
def bookTrade : Document where
  components.schemas := [("Shop", shop), ("Book", book), ("Author", author)]

/-- The session in which an author, a book and a shop are open. -/
def tradeOpen : Session where
  stack :=
    [⟨"#/components/schemas/Author", false, false⟩, ⟨"#/components/schemas/Book", false, false⟩,
      ⟨"#/components/schemas/Shop", false, false⟩]

/-- From a shop, a book leads to an author and to the work, while all three are open. -/
theorem bookTrade_moment (depth : Nat) :
    bookTrade.Moment (depth + 8) (Query.component "Shop").request {}
      (.schema work "#/components/schemas/Author/properties/work" none false) tradeOpen := by
  have hshop : Pointer.Whole "#/components/schemas/Shop" "Shop" := by decide +kernel
  have hbook : Pointer.Whole "#/components/schemas/Book" "Book" := by decide +kernel
  have hauthor : Pointer.Whole "#/components/schemas/Author" "Author" := by decide +kernel
  have hrequest : (Query.component "Shop").request =
      .reference "#/components/schemas/Shop" "#/components/schemas/Shop" false := by
    have hpointer : Pointer.component "Shop" = "#/components/schemas/Shop" := by decide +kernel
    rw [Query.request, hpointer]
  rw [hrequest]
  refine .inside (makes_component hshop rfl rfl Bool.false_ne_true) ?_
  refine .inside (makes_property "book" rfl rfl Bool.false_ne_true rfl) ?_
  refine .inside (makes_reference rfl) ?_
  refine .inside (makes_component hbook rfl rfl (by decide +kernel)) ?_
  refine .inside (makes_property "author" rfl rfl Bool.false_ne_true rfl) ?_
  refine .inside (makes_reference rfl) ?_
  refine .inside (makes_component hauthor rfl rfl (by decide +kernel)) ?_
  exact .inside (makes_property "work" rfl rfl Bool.false_ne_true rfl) .start

/-- The work is resolved there to an object whose only property is that of a shop. -/
theorem bookTrade_work : ∃ n v, bookTrade.follow 12
    (.schema work "#/components/schemas/Author/properties/work" none false) tradeOpen = .ok n v ∧
      ObjectParts.declaredKeys n = ["book"] := by
  have hrun : yields (bookTrade.follow 12
      (.schema work "#/components/schemas/Author/properties/work" none false)) tradeOpen
      (fun n => ObjectParts.declaredKeys n == ["book"]) = true := by
    decide +kernel
  obtain ⟨n, v, hn, hkeys⟩ := exists_of_yields hrun
  exact ⟨n, v, hn, eq_of_beq hkeys⟩

/-- The nodes of a shop and of a book. -/
theorem bookTrade_answers : (∃ n, bookTrade.Answers (.component "Shop") n ∧
      n.Declares (.property "book")) ∧
    ∃ n, bookTrade.Answers (.component "Book") n ∧ n.Declares (.property "author") := by
  have hanswer : ∀ {c key : String},
      yields ((Query.component c).work bookTrade) {}
        (fun n => (ObjectParts.declaredKeys n).contains key) = true →
      ∃ n, bookTrade.Answers (.component c) n ∧ n.Declares (.property key) := by
    intro c key hrun
    obtain ⟨n, v, hn, hkey⟩ := exists_of_yields hrun
    exact ⟨n, ⟨{}, v, .start, hn⟩, List.contains_iff_mem.1 hkey⟩
  exact ⟨hanswer (by decide +kernel), hanswer (by decide +kernel)⟩

theorem bookTrade_depth :
    Document.stepBound ((Query.component "Shop").size bookTrade) = 538 + 8 := by
  decide +kernel

/-- The work has the book of a shop, although the shop is open. -/
theorem composition_contributes_bookTrade : bookTrade.ComposesWhole ∧
    (∃ target, bookTrade.Answers (.component "Shop") target ∧
      target.Declares (.property "book")) ∧
    ∃ n v, bookTrade.follow 12
      (.schema work "#/components/schemas/Author/properties/work" none false) tradeOpen = .ok n v ∧
      n.Declares (.property "book") := by
  have hwhole : bookTrade.ComposesWhole :=
    Document.composesWhole_of_references fun p hp => by
      have hreferences : bookTrade.references =
          ["#/components/schemas/Book", "#/components/schemas/Author", "#/components/schemas/Book",
            "#/components/schemas/Shop"] := rfl
      simp only [hreferences, List.mem_cons, List.not_mem_nil, or_false] at hp
      rcases hp with rfl | rfl | rfl | rfl
      · exact ⟨"Book", by decide +kernel⟩
      · exact ⟨"Author", by decide +kernel⟩
      · exact ⟨"Book", by decide +kernel⟩
      · exact ⟨"Shop", by decide +kernel⟩
  have hmoment := bookTrade_moment 538
  rw [← bookTrade_depth] at hmoment
  obtain ⟨n, v, hn, -⟩ := bookTrade_work
  obtain ⟨⟨target, htarget, hbook⟩, -⟩ := bookTrade_answers
  obtain ⟨-, hcontributes⟩ := composition_contributes .start hmoment rfl hn
  exact ⟨hwhole, ⟨target, htarget, hbook⟩, n, v, hn,
    hcontributes hwhole _ (.tail _ (.head _)) "#/components/schemas/Shop" "Shop" target (.inl rfl)
      (by decide +kernel) htarget _ hbook⟩

/-- **A wrapper of a reference to an open component loses what the component declares.** -/
theorem bookTrade_loses : ¬ ∀ (d : Document) (query : Query) (s₀ u v : Session) (s : Schema)
    (location : String) (name : Option String) (spine : Bool) (depth : Nat) (n : Node),
    d.Used s₀ →
    d.Moment (Document.stepBound (query.size d)) query.request s₀
      (.schema s location name spine) u →
    s.form name spine = .composition →
    d.follow depth (.schema s location name spine) u = .ok n v →
    ∀ f ∈ s.allOf, ∀ p c target, (f.reference = some p ∨ ∃ inner, f.Wraps p inner) →
      Pointer.Whole p c → d.Answers (.component c) target →
      ∀ e, target.Declares e → n.Declares e := by
  intro hcontributes
  have hmoment := bookTrade_moment 538
  rw [← bookTrade_depth] at hmoment
  obtain ⟨n, v, hn, hkeys⟩ := bookTrade_work
  obtain ⟨-, target, htarget, hauthor⟩ := bookTrade_answers
  have hauthor' : n.Declares (.property "author") :=
    hcontributes bookTrade _ {} _ v work _ none false 12 n .start hmoment rfl hn _ (.head _)
      "#/components/schemas/Book" "Book" target (.inr ⟨_, .reference rfl rfl rfl⟩)
      (by decide +kernel) htarget _ hauthor
  simp [Node.Declares, hkeys] at hauthor'

end ApiBinding
