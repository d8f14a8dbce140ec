import ApiBinding.Proofs.Compilation.Canonical
import ApiBinding.Proofs.Compilation.Discovery
import ApiBinding.Proofs.Compilation.Nullability
import ApiBinding.Proofs.Composition.Restatement

/-!
# Rings of other names

A model that is another name for a type says nothing of its own.  If that type is another such
model, or such a model or `null`, or a choice between it and others, and so on until the first model
comes round again, then none of these models says what values it has.

A component that refers to itself makes such a ring, since the reference is answered by a back
reference and not by a fault, and so do components that refer to each other.  Otherwise there are no
rings: whatever else is met on the way from a component to its type has a body.

## Main definitions

* `Model.Restates`, `Interface.Circular` — models that are other names for models, and clients with
  a ring of them.
* `Document.Unwrapped` — no fragment of a composition only wraps a reference.

## Main results

* `TypeOf.offered`, `TypeOf.offers` — the models that the type of a node may stand for are those of
  the components that the node offers, or models of nodes.
* `compile_circular` — **a client has a ring of other names where components restate each other in
  a ring.**
* `selfReference_circular` — a component that refers to itself is compiled, and its model is another
  name for itself.
-/

namespace ApiBinding

/-! ### Rings -/

/-- The model is another name for a type, and the model of the given name stands in that type as it
is, or in optional types and unions only. -/
def Model.Restates (m : Model) (name : String) : Prop :=
  ∃ t, m.body = .alias t ∧ .reference name ∈ t.leaves

/-- The first model restates the second one. -/
structure Interface.Restates (i : Interface) (m m' : Model) : Prop where
  left : m ∈ i.models
  right : m' ∈ i.models
  restates : m.Restates m'.name

/-- From some model, other names lead back to the model. -/
def Interface.Circular (i : Interface) : Prop := ∃ m, Relation.TransGen i.Restates m m

/-! ### The models that types stand for -/

section Types

variable {r : Registry} {name c : String}

/-- The model is that of a component with the property, or that of a node. -/
def Registry.Models (r : Registry) (P : String → Prop) (name : String) : Prop :=
  (∃ c, P c ∧ r.HasModel c name) ∨ ∃ serial, r.HasInline serial name

mutual

/-- **A model that the type of a node stands for** is that of a component that the node offers, or
that of a node. -/
theorem TypeOf.offered : ∀ {n : Node} {t : TypeRef}, TypeOf r n t →
    .reference name ∈ t.leaves → r.Models n.Offers name
  | n, _, .component (c := c) hn h, hleaf => by
    rw [TypeRef.leaves_orNull, TypeRef.reference_mem_leaves] at hleaf
    exact .inl ⟨c, .component hn, hleaf ▸ h⟩
  | n, _, .shape hn h, hleaf => by
    rw [TypeRef.leaves_orNull] at hleaf
    exact (h.restated hleaf).imp_left fun ⟨c, hc, hmodel⟩ => ⟨c, .shape hn hc, hmodel⟩

theorem ShapeTypeOf.restated : ∀ {serial : Nat} {shape : Shape Node} {t : TypeRef},
    ShapeTypeOf r serial shape t → .reference name ∈ t.leaves →
      r.Models (shape.Restates false) name
  | _, _, _, .any, hleaf => by simp [TypeRef.leaves] at hleaf
  | _, _, _, .null, hleaf => by simp [TypeRef.leaves] at hleaf
  | _, _, _, .scalar, hleaf => by simp [TypeRef.leaves] at hleaf
  | _, _, _, .array h, hleaf => by simp [TypeRef.leaves] at hleaf
  | _, _, _, .openDict, hleaf => by simp [TypeRef.leaves] at hleaf
  | _, _, _, .dict h, hleaf => by simp [TypeRef.leaves] at hleaf
  | serial, _, _, .model _ h, hleaf => by
    rw [TypeRef.reference_mem_leaves] at hleaf
    exact .inr ⟨serial, hleaf ▸ h⟩
  | _, _, _, .union h, hleaf => by
    rw [TypeRef.mem_leaves_unionOf (by simp)] at hleaf
    obtain ⟨v, hv, hmodels⟩ := h.offered hleaf
    exact hmodels.imp_left fun ⟨c, hc, hmodel⟩ => ⟨c, .union hv nofun hc, hmodel⟩
  | _, _, _, .backRef (c := c) h, hleaf => by
    rw [TypeRef.reference_mem_leaves] at hleaf
    exact .inl ⟨c, .backRef, hleaf ▸ h⟩

theorem TypesOf.offered : ∀ {ns : List Node} {ts : List TypeRef}, TypesOf r ns ts →
    .reference name ∈ TypeRef.leavesOf ts → ∃ n ∈ ns, r.Models n.Offers name
  | _, _, .nil, hleaf => by simp [TypeRef.leavesOf] at hleaf
  | n :: _, _, .cons h hs, hleaf => by
    rw [TypeRef.leavesOf, List.mem_append] at hleaf
    rcases hleaf with hleaf | hleaf
    · exact ⟨n, .head _, h.offered hleaf⟩
    · obtain ⟨m, hm, hmodels⟩ := hs.offered hleaf
      exact ⟨m, .tail _ hm, hmodels⟩

end

mutual

/-- **The type of a node stands for the models of the components that the node offers.** -/
theorem TypeOf.offers : ∀ {n : Node} {t : TypeRef}, TypeOf r n t → n.Offers c →
    ∃ name, r.HasModel c name ∧ .reference name ∈ t.leaves
  | _, _, .component hn h, hc => by
    rw [Node.offers_of_name hn] at hc
    subst hc
    exact ⟨_, h, by rw [TypeRef.leaves_orNull, TypeRef.reference_mem_leaves]⟩
  | _, _, .shape hn h, hc => by
    rw [Node.offers_of_unnamed hn] at hc
    obtain ⟨name, hmodel, hleaf⟩ := h.restates hc
    exact ⟨name, hmodel, by rwa [TypeRef.leaves_orNull]⟩

theorem ShapeTypeOf.restates : ∀ {serial : Nat} {shape : Shape Node} {t : TypeRef},
    ShapeTypeOf r serial shape t → shape.Restates false c →
      ∃ name, r.HasModel c name ∧ .reference name ∈ t.leaves
  | _, _, _, .any, hc => nomatch hc
  | _, _, _, .null, hc => nomatch hc
  | _, _, _, .scalar, hc => nomatch hc
  | _, _, _, .array h, hc => nomatch hc
  | _, _, _, .openDict, hc => nomatch hc
  | _, _, _, .dict h, hc => nomatch hc
  | _, _, _, .model hshape h, hc => by
    -- What restates a component gets no model where it is used.
    cases hc <;> simp [Shape.getsModel] at hshape
  | _, _, _, .union h, hc => by
    cases hc with
    | union hv _ hc =>
      obtain ⟨name, hmodel, hleaf⟩ := h.offers hv hc
      exact ⟨name, hmodel, (TypeRef.mem_leaves_unionOf (by simp)).2 hleaf⟩
  | _, _, _, .backRef h, hc => by
    rw [Shape.restates_backRef] at hc
    subst hc
    exact ⟨_, h, TypeRef.reference_mem_leaves.2 rfl⟩

theorem TypesOf.offers : ∀ {ns : List Node} {ts : List TypeRef}, TypesOf r ns ts →
    ∀ {n : Node}, n ∈ ns → n.Offers c →
      ∃ name, r.HasModel c name ∧ .reference name ∈ TypeRef.leavesOf ts
  | _, _, .nil, _, hn, _ => by simp at hn
  | _, _, .cons h hs, n, hn, hc => by
    rw [TypeRef.leavesOf]
    rcases List.mem_cons.1 hn with heq | hn
    · obtain ⟨name, hmodel, hleaf⟩ := h.offers (heq ▸ hc)
      exact ⟨name, hmodel, List.mem_append_left _ hleaf⟩
    · obtain ⟨name, hmodel, hleaf⟩ := hs.offers hn hc
      exact ⟨name, hmodel, List.mem_append_right _ hleaf⟩

end

/-- A shape that restates a component alone makes another name. -/
theorem Shape.restates_true_iff {shape : Shape Node} :
    shape.Restates true c ↔ shape.isAlias ∧ shape.Restates false c := by
  constructor
  · intro h
    cases h with
    | backRef => exact ⟨rfl, .backRef⟩
    | union hv halone h => exact ⟨by simp [isAlias, halone rfl], .union hv nofun h⟩
  · rintro ⟨halias, h⟩
    cases h with
    | backRef => exact .backRef
    | union hv _ h => exact .union hv (fun _ => by simpa [isAlias] using halias) h

end Types

/-- The model of a node is another name if the shape of the node makes one. -/
theorem BodyOf.exists_alias {r : Registry} {n : Node} {body : ModelBody} (h : BodyOf r n body)
    (halias : n.shape.isAlias) :
    ∃ t, body = .alias t ∧ ShapeTypeOf r n.serial n.shape t := by
  cases h with
  | object hshape hne => simp [hshape, Shape.isAlias, hne] at halias
  | enumeration hshape => simp [hshape, Shape.isAlias] at halias
  | union hshape hown => simp [hown] at halias
  | otherName _ h => exact ⟨_, rfl, h⟩

/-! ### The models of a client -/

namespace Compilation.Final

variable {config : Config} {d : Document} {c : Compilation} {w : Workspace} {m m' : Model}
  {a b : String}

theorem eq_of_name (h : c.Final config d w) (hm : m ∈ c.interface.models)
    (hm' : m' ∈ c.interface.models) (hname : m.name = m'.name) : m = m' := by
  have hwell := ((compileAll_names config d {} Registry.wellNamed_empty).of_ok h.run).1
  have hnames : (c.interface.models.map Model.name).Nodup := by
    rw [h.models, Registry.finish_names]
    exact hwell.names.nodup
  exact List.inj_on_of_nodup_map hnames hm hm' hname

theorem modelOf (h : c.Final config d w) {name : String} (hmodel : w.registry.HasModel a name) :
    ∃ m, ModelOf c.interface.models a m ∧ m.name = name := by
  obtain ⟨i, slot, hi, hs, rfl⟩ := hmodel
  obtain ⟨m, hm, hname, -⟩ := h.closing.keyed.modelOf hi hs
  exact ⟨m, h.models ▸ hm, hname⟩

/-- The model of a node is for no component. -/
theorem sourceName_of_inline (h : c.Final config d w) (hm : m ∈ c.interface.models)
    {serial : Nat} (hinline : w.registry.HasInline serial m.name) : m.sourceName = none := by
  obtain ⟨i, slot, hi, hs, hname⟩ := hinline
  have hdiscovers := (compileAll_discovers config d).of_ok h.run
  obtain ⟨slot', hs', hsource⟩ := hdiscovers.inlines.slot serial i hi
  rw [hs, Option.some.injEq] at hs'
  subst hs'
  obtain ⟨m₁, hm₁, hname₁, hsource₁, -⟩ := Registry.exists_finish (List.mem_of_getElem? hs)
  rw [← h.eq_of_name (h.models ▸ hm₁) hm (hname₁.trans hname), hsource₁]
  exact hsource

/-! ### From components to models -/

/-- **The model of a component restates the model of what the component restates.** -/
theorem restates (h : c.Final config d w) (hm : ModelOf c.interface.models a m)
    (hab : d.Restates a b) :
    ∃ m', ModelOf c.interface.models b m' ∧ c.interface.Restates m m' := by
  obtain ⟨s, hs, hab⟩ := hab
  obtain ⟨n, hsuits, hbody⟩ := h.body hm.mem
  have hclaims := (restatingClaims_sound (legible_empty d)).answers (fun _ => id)
    (hsuits.answers a hm.sourceName)
  obtain ⟨halias, hshape⟩ := Shape.restates_true_iff.1 ((hclaims s hs).restates true b hab)
  obtain ⟨t, hbody, htype⟩ := hbody.exists_alias halias
  obtain ⟨name, hmodel, hleaf⟩ := htype.restates hshape
  obtain ⟨m', hm', rfl⟩ := h.modelOf hmodel
  exact ⟨m', hm', hm.mem, hm'.mem, t, hbody, hleaf⟩

theorem restates_chain (h : c.Final config d w) (hm : ModelOf c.interface.models a m)
    (hab : Relation.TransGen d.Restates a b) :
    ∃ m', ModelOf c.interface.models b m' ∧ Relation.TransGen c.interface.Restates m m' := by
  induction hab with
  | single hstep => exact (h.restates hm hstep).imp fun _ => .imp_right .single
  | tail _ hstep ih =>
    obtain ⟨m₁, hm₁, hchain⟩ := ih
    obtain ⟨m₂, hm₂, hlast⟩ := h.restates hm₁ hstep
    exact ⟨m₂, hm₂, hchain.tail hlast⟩

/-- Components that restate each other in a ring have models that do. -/
theorem circular (h : c.Final config d w) (hring : Relation.TransGen d.Restates a a) :
    c.interface.Circular := by
  have hmem : a ∈ d.componentNames := by
    obtain ⟨_, ⟨s, hs, -⟩, -⟩ := Relation.TransGen.head'_iff.1 hring
    exact Document.mem_componentNames hs
  obtain ⟨name, hmodel⟩ := h.closing.named a hmem
  obtain ⟨m, hm, -⟩ := h.modelOf hmodel
  obtain ⟨m', hm', hchain⟩ := h.restates_chain hm hring
  rw [hm.unique m' hm'.mem hm'.sourceName] at hchain
  exact ⟨m, hchain⟩

/-! ### From models to components -/

/-- **A model that restates the model of a component is that of a component that restates it.** -/
theorem restates_only (h : c.Final config d w) (hV : Legible d (d.Visits config))
    (hstep : c.interface.Restates m m') (hb : m'.sourceName = some b) :
    ∃ a, m.sourceName = some a ∧ d.Restates a b := by
  obtain ⟨hm, hm', t, hbody, hleaf⟩ := hstep
  obtain ⟨a, ha, hsource⟩ := h.component_of_alias hm hbody
  obtain ⟨s, hs⟩ : ∃ s, d.schema? a = some s := Table.exists_get? ha
  obtain ⟨n, hsuits, hof⟩ := h.body hm
  rw [hbody] at hof
  cases hof with
  | otherName halias htype =>
    rcases htype.restated hleaf with ⟨b', hshape, hmodel⟩ | ⟨serial, hinline⟩
    · -- The model that stands in the type is the one of the component that the node restates.
      obtain ⟨m₁, hm₁, hname⟩ := h.modelOf hmodel
      rw [h.eq_of_name hm₁.mem hm' hname] at hm₁
      obtain rfl : b' = b := Option.some.inj (hm₁.sourceName.symm.trans hb)
      have hclaims := (restatingClaims_sound hV).answers (fun _ => id) (hsuits.answers a hsource)
      have hrestates := (hclaims s hs).only (.component hs .here) (s.own_component a true) true b'
        (Shape.restates_true_iff.2 ⟨halias, hshape⟩)
      exact ⟨a, hsource, s, hs, hrestates⟩
    · -- The model of a node is for no component.
      rw [h.sourceName_of_inline hm' hinline] at hb
      simp at hb

theorem restates_chain_only (h : c.Final config d w) (hV : Legible d (d.Visits config))
    (hchain : Relation.TransGen c.interface.Restates m m') (hb : m'.sourceName = some b) :
    ∃ a, m.sourceName = some a ∧ Relation.TransGen d.Restates a b := by
  induction hchain using Relation.TransGen.head_induction_on with
  | single hstep =>
    obtain ⟨a, ha, hab⟩ := h.restates_only hV hstep hb
    exact ⟨a, ha, .single hab⟩
  | head hstep _ ih =>
    obtain ⟨a₁, ha₁, hchain⟩ := ih
    obtain ⟨a, ha, hfirst⟩ := h.restates_only hV hstep ha₁
    exact ⟨a, ha, .head hfirst hchain⟩

end Compilation.Final

/-! ### Rings of components -/

/-- No fragment of a composition only wraps a reference.  Of such a fragment it depends on the order
of resolution what it is: the node of the component, or a back reference to it. -/
def Document.Unwrapped (config : Config) (d : Document) : Prop :=
  ∀ s name spine, d.Visits config s name spine → s.form name spine = .composition →
    ∀ f ∈ s.allOf, f.reference = none → f.Own none spine

/-- What the schemas of a description that compiles restate can be read off. -/
theorem legible_of_compile {config : Config} {d : Document} {c : Compilation}
    (hc : compile config d = .ok c) (hw : d.WholeReferences config) (hu : d.Unwrapped config) :
    Legible d (d.Visits config) :=
  ⟨(compile_sound hc).realm hw, fun _ _ _ => exists_leafOf hc hw, hu⟩

/-- **A client has a ring of other names where components restate each other in a ring.**

If what components restate leads from some component back to it, then their models are other names
for each other.  There is no other way to such a ring, if all pointers address whole components and
no fragment of a composition only wraps a reference: without a ring of components, every model that
is another name leads to one that has a body, or to a type that is no model. -/
theorem compile_circular {config : Config} {d : Document} {c : Compilation}
    (h : compile config d = .ok c) :
    ((∃ a, Relation.TransGen d.Restates a a) → c.interface.Circular) ∧
      (d.WholeReferences config → d.Unwrapped config → c.interface.Circular →
        ∃ a, Relation.TransGen d.Restates a a) := by
  obtain ⟨w, hfinal⟩ := compile_final h
  refine ⟨fun ⟨_, hring⟩ => hfinal.circular hring, fun hw hu ⟨m, hring⟩ => ?_⟩
  obtain ⟨_, ⟨hm, -, t, hbody, -⟩, -⟩ := Relation.TransGen.head'_iff.1 hring
  obtain ⟨b, -, hb⟩ := hfinal.component_of_alias hm hbody
  obtain ⟨a, ha, hchain⟩ := hfinal.restates_chain_only (legible_of_compile h hw hu) hring hb
  obtain rfl : a = b := Option.some.inj (ha.symm.trans hb)
  exact ⟨a, hchain⟩

/-- The content of a box: a wrapped box, or nothing. -/
def boxContent : Schema where
  anyOf := [{ reference := some "#/components/schemas/Wrapped" },
    { declaredType := some (.single "null") }]

/-- A box with something around it, that adds nothing. -/
def wrappedBox : Schema where
  allOf := [{ reference := some "#/components/schemas/Box" }]

/-- Boxes that are nothing but their content, which is nothing but boxes. -/
def boxes : Document where
  components.schemas := [("Box", { reference := some "#/components/schemas/Content" }),
    ("Content", boxContent), ("Wrapped", wrappedBox)]

/-- What is in a box is a box or nothing, and a box is what is in it. -/
theorem boxes_ring : Relation.TransGen boxes.Restates "Content" "Content" := by
  have hbox : Pointer.Whole "#/components/schemas/Box" "Box" := by decide +kernel
  have hcontent : Pointer.Whole "#/components/schemas/Content" "Content" := by decide +kernel
  have hwrapped : Pointer.Whole "#/components/schemas/Wrapped" "Wrapped" := by decide +kernel
  -- A wrapped box is no leaf, since a box is none.
  have hfragment : LeavesOf boxes true wrappedBox.allOf [none] :=
    .reference rfl hbox rfl (.named rfl) .nil
  have hleaf : LeafOf boxes wrappedBox (some "Wrapped") true none :=
    .composition rfl (by decide) hfragment
  have hmember :
      LeafOf boxes { reference := some "#/components/schemas/Wrapped" } none false none :=
    .reference rfl hwrapped rfl hleaf
  have hnull : LeafOf boxes { declaredType := some (.single "null") } none false
      (some ⟨.null, false⟩) := .plain rfl
  have hfirst : boxes.Restates "Content" "Wrapped" := by
    have hform : boxContent.form (some "Content") true =
        .union .anyOf ([] ++ { reference := some "#/components/schemas/Wrapped" } ::
          [{ declaredType := some (.single "null") }]) := rfl
    refine ⟨boxContent, rfl, .union hform (.inl rfl) hmember (by decide) (fun _ m hm => ?_)
      (.refers (.inl rfl) hwrapped)⟩
    rw [List.nil_append, List.mem_singleton] at hm
    exact ⟨_, hm ▸ hnull, rfl⟩
  have hsecond : boxes.Restates "Wrapped" "Content" := by
    have hfragments : wrappedBox.allOf =
        [] ++ { reference := some "#/components/schemas/Box" } :: [] := rfl
    exact ⟨wrappedBox, rfl, .composition rfl (by decide) hfragments ⟨[], .nil, by simp⟩
      (.reference rfl hbox rfl (.reference rfl hcontent))⟩
  exact .head hfirst (.single hsecond)

/-- The only fragment in boxes is a reference, and nothing else is a composition. -/
theorem boxes_unwrapped : boxes.Unwrapped {} := by
  intro s name spine hs hform f hf hr
  obtain ⟨component, body, hbody, hin⟩ := hs.inside rfl
  have hmem := Table.mem_of_get? hbody
  simp only [boxes, List.mem_cons, Prod.mk.injEq, List.not_mem_nil, or_false] at hmem
  rcases hin.cases_tail with rfl | ⟨u, hu, hstep⟩
  · rcases hmem with ⟨-, rfl⟩ | ⟨-, rfl⟩ | ⟨-, rfl⟩
    · simp at hf
    · simp [boxContent] at hf
    · rw [wrappedBox, List.mem_singleton] at hf
      simp [hf] at hr
  · -- Parts of components are references and type names, and have no parts of their own.
    have hinner : ∃ p names, u = { reference := p, declaredType := names } := by
      rcases hmem with ⟨-, rfl⟩ | ⟨-, rfl⟩ | ⟨-, rfl⟩
      · cases hstep <;> simp_all
      · cases hstep <;> simp_all [boxContent]
        rename_i hmember
        rcases hmember with rfl | rfl
        · exact ⟨_, none, rfl⟩
        · exact ⟨none, _, rfl⟩
      · cases hstep <;> simp_all [wrappedBox]
    obtain ⟨p, names, rfl⟩ := hinner
    rcases hu.cases_tail with rfl | ⟨v, -, hv⟩
    · simp at hf
    · cases hv <;> simp_all

/-- The models of boxes are other names for each other. -/
theorem compile_circular_boxes : boxes.WholeReferences {} ∧ boxes.Unwrapped {} ∧
    ∃ c, compile {} boxes = .ok c ∧ c.interface.Circular ∧
      ∃ a, Relation.TransGen boxes.Restates a a := by
  have hw : boxes.WholeReferences {} :=
    Document.wholeReferences_of_references rfl (by decide +kernel)
  obtain ⟨c, hc⟩ := compile_eq_ok {} boxes (by decide +kernel)
  obtain ⟨hcircular, hring⟩ := compile_circular hc
  have hc' := hcircular ⟨"Content", boxes_ring⟩
  exact ⟨hw, boxes_unwrapped, c, hc, hc', hring hw boxes_unwrapped hc'⟩

/-- A component that only refers to itself. -/
def selfReference : Document where
  components.schemas := [("A", { reference := some "#/components/schemas/A" })]

/-- **A component that refers to itself is compiled**, and its model is another name for itself. -/
theorem selfReference_circular : ∃ c, compile {} selfReference = .ok c ∧
    c.interface.models.map (fun m => (m.name, m.body.types)) = [("A", [.reference "A"])] ∧
    c.interface.Circular := by
  have hwhole : Pointer.Whole "#/components/schemas/A" "A" := by decide +kernel
  have hring : selfReference.Restates "A" "A" := ⟨_, rfl, .reference rfl hwhole⟩
  have hmodels : (compile {} selfReference).toOption.map
      (fun c => c.interface.models.map fun m => (m.name, m.body.types)) =
        some [("A", [.reference "A"])] := by
    decide +kernel
  obtain ⟨c, hc⟩ := compile_eq_ok {} selfReference (by decide +kernel)
  obtain ⟨w, hfinal⟩ := compile_final hc
  rw [hc] at hmodels
  exact ⟨c, hc, Option.some.inj hmodels, hfinal.circular (.single hring)⟩

end ApiBinding
