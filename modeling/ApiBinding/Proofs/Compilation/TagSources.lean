import ApiBinding.Proofs.Compilation.Closure
import ApiBinding.Proofs.Compilation.Memberships

/-!
# Where tags come from, and when they clash

The tag of a variant is a key of the mapping, a literal, or the name of a component, and each
variant is looked at by itself.  A key stands for one component, and so does a name.  So two
variants of different types have the same tag only where tags of different origin meet, or where
the literals of two variants have the same text: a literal and a key, a literal and a name, a key
and the name of a component that is not mapped.  All of these do happen, and nothing is found about
them.

## Main definitions

* `TagSource` — what a tag is inferred from, with the priorities in `TagSource.Of`.
* `TagSource.Clashes` — sources that make the same tag although they are not for one component.
* `Inference.By` — how the tag of a variant is inferred from what its member is resolved to.
* `Document.Infers` — how the tags of a union come about, member by member.

## Main results

* `TagSource.Of.meet` — sources that make the same tag are for one component, or they clash.
* `Inference.By.tag_eq_iff` — variants of different types have one tag where their sources clash.
* `compile_inferred` — **the tags of a union tell its variants apart unless their sources clash.**
* `tags_indistinct` — **they do not always**: a number and its text are the same tag.
-/

namespace ApiBinding

/-! ### Sources -/

/-- What the tag of a variant is inferred from. -/
inductive TagSource where
  /-- A key of the mapping, for a component. -/
  | mapped (component key : String)
  | literal (value : Json)
  /-- The name of a component. -/
  | named (component : String)

namespace TagSource

/-- The tag that a source makes. -/
def tag : TagSource → String
  | .mapped _ key => key
  | .literal value => value.label
  | .named component => component

/-- The source for a variant, given its component and how it declares the property of the
discriminator: a key comes before a literal, and a literal before a name. -/
inductive Of (D : Discriminator) (component : Option String) (declared : DeclaredTag) :
    TagSource → Prop where
  | mapped {c key : String} (hc : component = some c) (h : mappedTag? D c = some key) :
      Of D component declared (.mapped c key)
  | literal {value : Json} (hno : component.bind (mappedTag? D) = none)
      (h : declared = .literal value) : Of D component declared (.literal value)
  | named {c : String} (hc : component = some c) (hno : mappedTag? D c = none)
      (h : declared = .free) : Of D component declared (.named c)

/-- The sources make the same tag, but not as sources for one component. -/
def Clashes : TagSource → TagSource → Prop
  | .literal value, b => value.label = b.tag
  | a, .literal value => a.tag = value.label
  | .mapped c key, .named c' => c ≠ c' ∧ key = c'
  | .named c, .mapped c' key => c ≠ c' ∧ c = key
  | _, _ => False

/-- What clashes is the same tag. -/
theorem Clashes.tag_eq {a b : TagSource} (h : a.Clashes b) : a.tag = b.tag := by
  cases a with
  | literal value => exact h
  | mapped c key =>
    cases b with
    | mapped c' key' => exact h.elim
    | literal value => exact h
    | named c' => exact h.2
  | named c =>
    cases b with
    | mapped c' key => exact h.2
    | literal value => exact h
    | named c' => exact h.elim

variable {D : Discriminator} {component component' : Option String}
  {declared declared' : DeclaredTag}

/-- **The tag of a variant is made by its source.** -/
theorem exists_of_tagFor {tag : String} (h : tagFor D component declared = some tag) :
    ∃ source : TagSource, source.Of D component declared ∧ source.tag = tag := by
  rcases Option.or_eq_some_iff.1 h with h | ⟨hno, h⟩
  · obtain ⟨c, hc, hkey⟩ := Option.bind_eq_some_iff.1 h
    exact ⟨.mapped c tag, .mapped hc hkey, rfl⟩
  · cases declared with
    | undeclared => simp [declaredTag?] at h
    | literal value =>
      rw [declaredTag?, Option.some.injEq] at h
      exact ⟨.literal value, .literal hno rfl, h⟩
    | free =>
      cases component with
      | none => simp [declaredTag?] at h
      | some c =>
        rw [declaredTag?, Option.some.injEq] at h
        exact ⟨.named c, .named rfl hno rfl, h⟩

/-- A key stands for one component. -/
theorem mapped_unique (hkeys : (Table.keys D.mapping).Nodup) {c c' key : String}
    (h : mappedTag? D c = some key) (h' : mappedTag? D c' = some key) : c = c' := by
  have hentry : ∀ {c : String}, mappedTag? D c = some key →
      ∃ target, Table.get? D.mapping key = some target ∧ mappingTarget target = c := by
    intro c h
    obtain ⟨e, he, rfl⟩ := Option.map_eq_some_iff.1 h
    refine ⟨e.2, (Table.get?_eq_some_iff hkeys).2 (List.mem_of_find?_eq_some he), ?_⟩
    simpa using List.find?_some he
  obtain ⟨target, htarget, rfl⟩ := hentry h
  obtain ⟨target', htarget', rfl⟩ := hentry h'
  rw [htarget, Option.some.injEq] at htarget'
  rw [htarget']

/-- **Sources that make the same tag** are for one component, or they clash. -/
theorem Of.meet (hkeys : (Table.keys D.mapping).Nodup) {a b : TagSource}
    (ha : a.Of D component declared) (hb : b.Of D component' declared') (h : a.tag = b.tag) :
    (∃ c, component = some c ∧ component' = some c) ∨ a.Clashes b := by
  cases ha with
  | literal => exact .inr h
  | @mapped c key hc hkey =>
    cases hb with
    | literal => exact .inr h
    | @mapped c' key' hc' hkey' =>
      obtain rfl : key = key' := h
      exact .inl ⟨c, hc, mapped_unique hkeys hkey hkey' ▸ hc'⟩
    | @named c' hc' hno' =>
      by_cases heq : c = c'
      · exact .inl ⟨c, hc, heq ▸ hc'⟩
      · exact .inr ⟨heq, h⟩
  | @named c hc hno =>
    cases hb with
    | literal => exact .inr h
    | @mapped c' key' hc' hkey' =>
      by_cases heq : c = c'
      · exact .inl ⟨c, hc, heq ▸ hc'⟩
      · exact .inr ⟨heq, h⟩
    | @named c' hc' =>
      obtain rfl : c = c' := h
      exact .inl ⟨c, hc, hc'⟩

end TagSource

/-! ### Tagged nodes -/

/-- The schemas of a description: those of the components, those that valid operations use, and
those inside. -/
inductive Document.Occurs (config : Config) (d : Document) : Schema → Prop where
  | component {c : String} {s : Schema} (h : d.schema? c = some s) : Occurs config d s
  | used {s : Schema} (h : d.Uses config s) : Occurs config d s
  | inside {s t : Schema} (h : Occurs config d s) (ht : Schema.Inside t s) : Occurs config d t

/-- The variant is made from the member of a union: its node is the answer for the member at a
moment of a run, and stands for the component that the member refers to. -/
structure Variant.OfMember (d : Document) (s m : Schema) (v : Variant) : Prop extends
    VariantFrom d d.Arises s m v where
  stands : ∀ c, v.component = some c → v.node.StandsFor c

/-- The variants are made from the members of the schema, without those that are `null`, and their
tags are inferred. -/
structure Schema.Tags (d : Document) (s : Schema) (property : String) (nodes : List Node)
    (tags : List String) (D : Discriminator) (members : List Schema) (variants : List Variant) :
    Prop where
  discriminator : s.discriminator = some D
  propertyName : D.propertyName = property
  sublist : members.Sublist s.oneOf
  made : List.Forall₂ (Variant.OfMember d s) members variants
  resolved : variants.map Variant.node = nodes
  inferred : List.Forall₂ (fun v tag => tagOf? D v = some tag) variants tags

/-- The tagged unions of a description make the tags of nodes. -/
def taggedUnions (config : Config) (d : Document) : Traits where
  schema := d.Occurs config
  shape shape := ∀ nodes property tags, shape = .union nodes (.tagged property tags) →
    ∃ s D members variants, d.Occurs config s ∧ s.Tags d property nodes tags D members variants
  default _ := True

/-- Lists that are related element by element: what is left of the second has its partners in what
is left of the first. -/
theorem forall₂_sublist {α β : Type} {R : α → β → Prop} {as : List α} {bs bs' : List β}
    (h : List.Forall₂ R as bs) (hbs : bs'.Sublist bs) :
    ∃ as', as'.Sublist as ∧ List.Forall₂ R as' bs' := by
  induction h generalizing bs' with
  | nil =>
    obtain rfl := List.sublist_nil.1 hbs
    exact ⟨[], .slnil, .nil⟩
  | @cons a b as bs hab _ ih =>
    cases hbs with
    | cons _ hbs =>
      obtain ⟨as', has, hrest⟩ := ih hbs
      exact ⟨as', has.cons a, hrest⟩
    | cons_cons _ hbs =>
      obtain ⟨as', has, hrest⟩ := ih hbs
      exact ⟨a :: as', has.cons_cons a, .cons hab hrest⟩

/-- Only a `oneOf` with a discriminator is tagged. -/
theorem classify_eq_tagged {keyword : UnionKeyword} {variants : List Variant}
    {discriminator : Option Discriminator} {location : String} {body : Body}
    {findings : List Diagnostic} {nodes : List Node} {property : String} {tags : List String}
    (h : classify keyword variants discriminator location = .ok (body, findings))
    (hbody : body.shape = .union nodes (.tagged property tags)) :
    keyword = .oneOf ∧ ∃ D, discriminator = some D ∧ D.propertyName = property ∧
      ((variants.filter fun v => !v.node.shape.isNull).map Variant.node) = nodes ∧
      List.Forall₂ (fun v tag => tagOf? D v = some tag)
        (variants.filter fun v => !v.node.shape.isNull) tags := by
  have huntagged : ∀ {found : List Node}, body.shape ≠ .union found .untagged := by
    intro found heq
    simp [hbody] at heq
  cases discriminator with
  | none =>
    simp only [classify, taggingOf, Except.map, Except.ok.injEq, Prod.mk.injEq] at h
    exact absurd (congrArg Body.shape h.1).symm huntagged
  | some D =>
    cases keyword with
    | anyOf =>
      simp only [classify, taggingOf, Except.map, Except.ok.injEq, Prod.mk.injEq] at h
      exact absurd (congrArg Body.shape h.1).symm huntagged
    | oneOf =>
      obtain ⟨found, hfound, hshape⟩ := classify_tagged h
      rw [hbody, Shape.union.injEq, Tagging.tagged.injEq] at hshape
      obtain ⟨rfl, rfl, rfl⟩ := hshape
      exact ⟨rfl, D, rfl, rfl, rfl, hfound⟩

/-- **The tags of nodes are those of tagged unions in the description.** -/
theorem taggedUnions_sound (config : Config) (d : Document) : (taggedUnions config d).Sound d where
  inside hs ht := .inside hs ht
  component hs := .component hs
  noDefault := trivial
  default _ := trivial
  plain hplain nodes property tags hshape := absurd hshape (hplain.tags nodes property tags)
  literals := by
    intro s name spine values _ _ nodes property tags hshape
    -- Literals are no union.
    unfold Follow.literals at hshape
    dsimp only at hshape
    split at hshape <;> exact absurd hshape (by simp)
  union := by
    intro s name spine keyword members variants location body findings hs hform hvariants hclassify
      nodes property tags hshape
    obtain ⟨rfl, D, hD, hproperty, hnodes, htags⟩ := classify_eq_tagged hclassify hshape
    have honeOf : members = s.oneOf := by
      cases Schema.formed_of_eq hform with
      | oneOf => rfl
    obtain ⟨kept, hkept, hmade⟩ := forall₂_sublist hvariants
      (List.filter_sublist (p := fun v => !v.node.shape.isNull))
    refine ⟨s, D, kept, _, hs, hD, hproperty, honeOf ▸ hkept, hmade.imp fun m v hv => ?_, hnodes,
      htags⟩
    obtain ⟨l, ⟨-, -, hstands⟩, -⟩ := hv.node
    exact ⟨hv.mono fun _ _ => And.right, fun c hc => hstands c rfl (hv.component ▸ hc)⟩

/-! ### Types of variants -/

section Types

variable {r : Registry} {n : Node} {t : TypeRef} {c : String}

theorem TypeRef.nonOptional_orNull (name : String) (nullable : Bool) :
    ((TypeRef.reference name).orNull nullable).nonOptional = .reference name := by
  cases nullable <;> rfl

/-- The type of a node that denotes a component is the model of the component, or optional. -/
theorem TypeOf.of_denotes (h : TypeOf r n t) (hn : n.Denotes c) :
    ∃ name nullable, r.HasModel c name ∧ t = (TypeRef.reference name).orNull nullable := by
  cases h with
  | @component _ c' name hname hmodel =>
    rcases hn with hc | hback
    · rw [hname, Option.some.injEq] at hc
      exact ⟨name, _, hc ▸ hmodel, rfl⟩
    · simp [hback.name] at hname
  | @shape _ t hname hshape =>
    rcases hn with hc | hback
    · simp [hname] at hc
    · rw [hback.shape] at hshape
      cases hshape with
      | model hgets => simp [Shape.getsModel] at hgets
      | backRef hmodel => exact ⟨_, _, hmodel, rfl⟩

/-- A union with one member that is a model, optional or not. -/
theorem TypeRef.unionOf_orNull (name : String) (nullable : Bool) :
    unionOf [(TypeRef.reference name).orNull nullable] =
      (TypeRef.reference name).orNull nullable := by
  cases nullable <;> rfl

/-- **The type of a node that stands for a component** is the model of the component, or
optional. -/
theorem TypeOf.of_standsFor (h : TypeOf r n t) (hn : n.StandsFor c) :
    ∃ name, r.HasModel c name ∧ t.nonOptional = .reference name := by
  cases hn with
  | denotes hn =>
    obtain ⟨name, nullable, hmodel, rfl⟩ := h.of_denotes hn
    exact ⟨name, hmodel, TypeRef.nonOptional_orNull name nullable⟩
  | wraps hname hshape hm =>
    cases h with
    | component hc => simp [hname] at hc
    | shape _ h =>
      rw [hshape] at h
      cases h with
      | model hgets => simp [Shape.getsModel] at hgets
      | union hts =>
        cases hts with
        | cons ht hrest =>
          cases hrest
          obtain ⟨name, nullable, hmodel, rfl⟩ := ht.of_denotes hm
          refine ⟨name, hmodel, ?_⟩
          rw [TypeRef.unionOf_orNull]
          cases n.nullable
          · exact TypeRef.nonOptional_orNull name nullable
          · cases nullable <;> rfl

end Types

/-! ### Unions of a client -/

/-- The property that tells the variants of a tagged union apart; other models have none. -/
def Model.discriminator? (m : Model) : Option String :=
  match m.body with
  | .union _ discriminator => discriminator
  | _ => none

theorem Model.body_of_discriminator? {m : Model} {property : String}
    (h : m.discriminator? = some property) : m.body = .union m.variants (some property) := by
  unfold discriminator? at h
  unfold variants
  cases hbody : m.body <;> simp_all

/-- A variant of a union model, with the member that it is made from, the resolved member, and what
its tag is inferred from. -/
structure Inference where
  member : Schema
  resolved : Variant
  source : TagSource
  variant : UnionVariant

/-- The tag is inferred as the discriminator says, from what the member is resolved to. -/
structure Inference.By (d : Document) (r : Registry) (s : Schema) (D : Discriminator)
    (e : Inference) : Prop where
  resolved : VariantFrom d d.Arises s e.member e.resolved
  stands : ∀ c, e.resolved.component = some c → e.resolved.node.StandsFor c
  source : e.source.Of D e.resolved.component (e.resolved.declaredTag D.propertyName)
  type : TypeOf r e.resolved.node e.variant.type
  tag : e.variant.tag = some e.source.tag

/-- How the tags of the model of a node come about: a schema of the description has the
discriminator, the variants of the node are what its members are resolved to, but for those that are
`null`, and variants of different types have the same tag exactly where their sources clash.  As
everywhere in a description, the keys of the mapping are distinct. -/
structure Document.Infers (config : Config) (d : Document) (r : Registry) (property : String)
    (variants : List UnionVariant) (n : Node) (s : Schema) (D : Discriminator)
    (inferred : List Inference) : Prop where
  occurs : d.Occurs config s
  discriminator : s.discriminator = some D
  propertyName : D.propertyName = property
  members : (inferred.map Inference.member).Sublist s.oneOf
  node : ∃ tags, n.shape =
    .union (inferred.map fun e => e.resolved.node) (.tagged property tags)
  all : inferred.map Inference.variant = variants
  tags : ∀ e ∈ inferred, e.By d r s D
  distinct : (Table.keys D.mapping).Nodup → ∀ e ∈ inferred, ∀ f ∈ inferred,
    e.variant.type.nonOptional ≠ f.variant.type.nonOptional →
      (e.variant.tag = f.variant.tag ↔ e.source.Clashes f.source)

section Infers

variable {r : Registry}

/-- The types of the variants of a tagged union, and their tags. -/
theorem forall₂_tagVariants {variants : List Variant} {ts : List TypeRef} {tags : List String}
    {D : Discriminator} (hts : TypesOf r (variants.map Variant.node) ts)
    (htags : List.Forall₂ (fun v tag => tagOf? D v = some tag) variants tags) :
    List.Forall₂ (fun v (u : UnionVariant) => TypeOf r v.node u.type ∧ ∃ tag, u.tag = some tag ∧
      tagOf? D v = some tag) variants (Typing.tagVariants ts tags) := by
  -- A type, a tag and a variant stand at each index, wherever the indices begin.
  have hfrom : ∀ (before : List String) (ts : List TypeRef),
      TypesOf r (variants.map Variant.node) ts →
      List.Forall₂ (fun v (u : UnionVariant) => TypeOf r v.node u.type ∧ ∃ tag,
        u.tag = some tag ∧ tagOf? D v = some tag) variants
        ((ts.zipIdx before.length).map fun p => ⟨p.1, (before ++ tags)[p.2]?⟩) := by
    clear hts
    induction htags with
    | nil =>
      intro before ts hts
      cases hts
      exact .nil
    | @cons v tag _ tags hv _ ih =>
      intro before ts hts
      cases hts with
      | @cons _ t _ rest ht hrest =>
        have hmore := ih (before ++ [tag]) rest hrest
        rw [List.length_append, List.append_assoc] at hmore
        refine .cons ⟨ht, tag, ?_, hv⟩ hmore
        simp
  exact hfrom [] ts hts

/-- Members, resolved members and variants, put side by side. -/
theorem exists_inferences {d : Document} {s : Schema} {D : Discriminator} {members : List Schema}
    {variants : List Variant} {us : List UnionVariant}
    (hmade : List.Forall₂ (Variant.OfMember d s) members variants)
    (hus : List.Forall₂ (fun v u => TypeOf r v.node u.type ∧ ∃ tag, u.tag = some tag ∧
      tagOf? D v = some tag) variants us) :
    ∃ inferred : List Inference, inferred.map Inference.member = members ∧
      (inferred.map fun e => e.resolved.node) = variants.map Variant.node ∧
      inferred.map Inference.variant = us ∧ ∀ e ∈ inferred, e.By d r s D := by
  induction hmade generalizing us with
  | nil =>
    cases hus
    exact ⟨[], rfl, rfl, rfl, by simp⟩
  | @cons m v _ _ hv _ ih =>
    cases hus with
    | @cons _ u _ _ hu hrest =>
      obtain ⟨inferred, hmembers, hnodes, hvariants, hall⟩ := ih hrest
      obtain ⟨htype, tag, htag, hof⟩ := hu
      obtain ⟨source, hsource, rfl⟩ := TagSource.exists_of_tagFor ((tagOf?_eq D v).symm.trans hof)
      refine ⟨⟨m, v, source, u⟩ :: inferred, by rw [List.map_cons, hmembers],
        by rw [List.map_cons, List.map_cons, hnodes], by rw [List.map_cons, hvariants], ?_⟩
      exact List.forall_mem_cons.2
        ⟨⟨hv.toVariantFrom, hv.stands, hsource, htype, htag⟩, hall⟩

/-- Variants that stand for one component have one type, optional or not. -/
theorem Inference.By.nonOptional_eq {d : Document} {s : Schema} {D : Discriminator}
    {e f : Inference} {c : String} (he : e.By d r s D) (hf : f.By d r s D)
    (hec : e.resolved.component = some c) (hfc : f.resolved.component = some c) :
    e.variant.type.nonOptional = f.variant.type.nonOptional := by
  obtain ⟨name, hmodel, htype⟩ := he.type.of_standsFor (he.stands c hec)
  obtain ⟨name', hmodel', htype'⟩ := hf.type.of_standsFor (hf.stands c hfc)
  have hname : some name = some name' :=
    hmodel.componentModel?.symm.trans hmodel'.componentModel?
  rw [htype, htype', Option.some.inj hname]

/-- **Variants of different types have one tag exactly where their sources clash.** -/
theorem Inference.By.tag_eq_iff {d : Document} {s : Schema} {D : Discriminator} {e f : Inference}
    (he : e.By d r s D) (hf : f.By d r s D) (hkeys : (Table.keys D.mapping).Nodup)
    (htypes : e.variant.type.nonOptional ≠ f.variant.type.nonOptional) :
    e.variant.tag = f.variant.tag ↔ e.source.Clashes f.source := by
  rw [he.tag, hf.tag, Option.some.injEq]
  refine ⟨fun h => ?_, TagSource.Clashes.tag_eq⟩
  refine (TagSource.Of.meet hkeys he.source hf.source h).resolve_left ?_
  rintro ⟨c, hec, hfc⟩
  exact htypes (he.nonOptional_eq hf hec hfc)

/-- **The tags of a union model are inferred** from what the members of a schema are resolved to. -/
theorem BodyOf.infers {config : Config} {d : Document} {n : Node} {variants : List UnionVariant}
    {property : String} (h : BodyOf r n (.union variants (some property)))
    (hn : n.Has (taggedUnions config d)) :
    ∃ s D inferred, d.Infers config r property variants n s D inferred := by
  generalize hbody : ModelBody.union variants (some property) = body at h
  cases h with
  | object | enumeration | otherName => cases hbody
  | @union nodes tagging ts hshape hown hts =>
    cases tagging with
    | untagged => simp [Typing.taggingParts] at hbody
    | tagged property' tags =>
      simp only [Typing.taggingParts, ModelBody.union.injEq, Option.some.injEq] at hbody
      obtain ⟨rfl, rfl⟩ := hbody
      obtain ⟨s, D, members, resolved, hoccurs, htags⟩ := hn.shape.self nodes property tags hshape
      obtain ⟨inferred, hmembers, hnodes, hvariants, hall⟩ := exists_inferences htags.made
        (forall₂_tagVariants (htags.resolved ▸ hts) htags.inferred)
      exact ⟨s, D, inferred,
        { occurs := hoccurs
          discriminator := htags.discriminator
          propertyName := htags.propertyName
          members := hmembers ▸ htags.sublist
          node := ⟨tags, by rw [hshape, hnodes, htags.resolved]⟩
          all := hvariants
          tags := hall
          distinct := fun hkeys e he f hf => (hall e he).tag_eq_iff (hall f hf) hkeys }⟩

end Infers

/-- **The tags of a union tell its variants apart unless their sources clash.**  Every tagged union
of a client is the model of a node whose variants are what the members of a schema are resolved to.
The tag of a variant is inferred from a key of the mapping, a literal or the name of a component, in
this order; and variants of different types, optional or not, have one tag exactly where the text of
a literal is the tag of the other variant, or a key is the name of another component that is not
mapped. -/
theorem compile_inferred {config : Config} {d : Document} {c : Compilation}
    (h : compile config d = .ok c) :
    ∃ r : Registry, c.interface.MadeOf config d r ∧
      ∀ u ∈ c.interface.models, ∀ property, u.discriminator? = some property →
        ∃ n s D inferred, d.Suits config u.sourceName n ∧ BodyOf r n u.body ∧
          d.Infers config r property u.variants n s D inferred := by
  obtain ⟨w, hfinal⟩ := compile_final h
  refine ⟨w.registry, hfinal.madeOf, fun u hu property hproperty => ?_⟩
  obtain ⟨n, hn, hof⟩ := hfinal.body hu
  have htagged := Model.body_of_discriminator? hproperty
  obtain ⟨s, D, inferred, hinfers⟩ := BodyOf.infers (htagged ▸ hof)
    (hn.modelled.has (taggedUnions_sound config d) fun s hs => .used hs)
  exact ⟨n, s, D, inferred, hn, hof, hinfers⟩

/-- Kinds with one value each: a number and its text.  Their values are told apart, but their tags
are not. -/
def numerals : Document where
  components.schemas := [
    ("Numbered", { properties := [("kind", { enumeration := some [.number (.integer 1)] })] }),
    ("Lettered", { properties := [("kind", { enumeration := some [.string "1"] })] }),
    ("Record", animalUnion [{ reference := some "#/components/schemas/Numbered" },
      { reference := some "#/components/schemas/Lettered" }] [])]

/-- The variants of a record are different models with the same tag. -/
theorem numerals_record {c : Compilation} (hc : compile {} numerals = .ok c) :
    ∃ u ∈ c.interface.models, u.discriminator? = some "kind" ∧
      u.variants = [⟨.reference "Numbered", some "1"⟩, ⟨.reference "Lettered", some "1"⟩] := by
  have hunion : (compile {} numerals).toOption.bind (fun c => c.interface.models[2]?.map fun u =>
      (u.discriminator?, u.variants)) = some (some "kind",
        [⟨.reference "Numbered", some "1"⟩, ⟨.reference "Lettered", some "1"⟩]) := by
    decide +kernel
  rw [hc, Except.toOption, Option.bind_some] at hunion
  obtain ⟨u, hu, hviews⟩ := Option.map_eq_some_iff.1 hunion
  obtain ⟨hproperty, hvariants⟩ := Prod.mk.inj hviews
  exact ⟨u, List.mem_of_getElem? hu, hproperty, hvariants⟩

/-- The tags of a record clash, since its literals have the same text. -/
theorem compile_inferred_numerals : ∃ c, compile {} numerals = .ok c ∧
    ∃ (r : Registry) (u : Model), c.interface.MadeOf {} numerals r ∧ u ∈ c.interface.models ∧
      u.discriminator? = some "kind" ∧
      u.variants = [⟨.reference "Numbered", some "1"⟩, ⟨.reference "Lettered", some "1"⟩] ∧
      ∃ n s D inferred, numerals.Suits {} u.sourceName n ∧ BodyOf r n u.body ∧
        numerals.Infers {} r "kind" u.variants n s D inferred := by
  obtain ⟨c, hc⟩ := compile_eq_ok {} numerals (by decide +kernel)
  obtain ⟨u, hu, hproperty, hvariants⟩ := numerals_record hc
  obtain ⟨r, hmade, h⟩ := compile_inferred hc
  exact ⟨c, hc, r, u, hmade, hu, hproperty, hvariants, h u hu "kind" hproperty⟩

/-- **Tags do not always tell variants of different types apart.** -/
theorem tags_indistinct : ¬ ∀ (config : Config) (d : Document) (c : Compilation),
    compile config d = .ok c → ∀ u ∈ c.interface.models, u.discriminator?.isSome →
      u.variants.Pairwise fun v w => v.type ≠ w.type → v.tag ≠ w.tag := by
  intro hdistinct
  obtain ⟨c, hc⟩ := compile_eq_ok {} numerals (by decide +kernel)
  obtain ⟨u, hu, hproperty, hvariants⟩ := numerals_record hc
  have hpairs := hdistinct {} numerals c hc u hu (by simp [hproperty])
  simp [hvariants] at hpairs

end ApiBinding
