import ApiBinding.Proofs.Compilation.Slots
import ApiBinding.Proofs.Resolver.Requests

/-!
# The types of nodes

If every component that a node refers to has a model, the type of the node refers to the models
of these components, and nothing in it stands for a model that is missing.  `TypeOf` says so
without a word about missing models: it has no rule for them.

## Main definitions

* `TypeOf`, `ShapeTypeOf`, `BodyOf` — the types of nodes and the bodies of models, in a registry
  that has models for all components.
* `Node.Hereditary` — kinds of nodes that pass on to the parts of a node.
* `Typing.Adds`, `Typing.Yields` — work that lets the registry evolve, and has a result that stands.

## Main results

* `TypeOf.references`, `BodyOf.references` — these types refer to models only.
* `Typing.nodeType_yields`, `Typing.modelBody_yields` — **the types and bodies that are made are
  these types and bodies.**
-/

namespace ApiBinding

/-! ### Types that refer to models -/

namespace TypeRef

/-- The type, optional if `null` is admitted. -/
def orNull (t : TypeRef) (nullable : Bool) : TypeRef := if nullable then t.optionalOf else t

theorem references_optionalOf (t : TypeRef) : t.optionalOf.references = t.references := by
  unfold optionalOf
  split <;> simp [references]

theorem references_orNull (t : TypeRef) (nullable : Bool) :
    (t.orNull nullable).references = t.references := by
  cases nullable
  · rfl
  · exact references_optionalOf t

theorem mem_referencesOf {name : String} {ts : List TypeRef} :
    name ∈ referencesOf ts ↔ ∃ t ∈ ts, name ∈ t.references := by
  induction ts with
  | nil => simp [referencesOf]
  | cons t rest ih => simp [referencesOf, ih]

mutual

/-- What the leaves of a type refer to, the type refers to. -/
theorem references_leaves {name : String} :
    ∀ t : TypeRef, name ∈ referencesOf (leaves t) → name ∈ t.references
  | .any => by simp [leaves, referencesOf]
  | .scalar _ => by simp [leaves, referencesOf, references]
  | .reference _ => by simp [leaves, referencesOf]
  | .list _ => by simp [leaves, referencesOf]
  | .dict _ => by simp [leaves, referencesOf]
  | .optional inner => by
    simp only [leaves, references]
    exact references_leaves inner
  | .union members => by
    simp only [leaves, references]
    exact references_leavesOf members

theorem references_leavesOf {name : String} :
    ∀ ts : List TypeRef, name ∈ referencesOf (leavesOf ts) → name ∈ referencesOf ts
  | [] => by simp [leavesOf]
  | t :: rest => by
    intro h
    obtain ⟨leaf, hleaf, hname⟩ := mem_referencesOf.1 h
    rw [leavesOf, List.mem_append] at hleaf
    rw [referencesOf, List.mem_append]
    rcases hleaf with hleaf | hleaf
    · exact .inl (references_leaves t (mem_referencesOf.2 ⟨leaf, hleaf, hname⟩))
    · exact .inr (references_leavesOf rest (mem_referencesOf.2 ⟨leaf, hleaf, hname⟩))

end

theorem references_ofLeaves {name : String} (ts : List TypeRef)
    (h : name ∈ (ofLeaves ts).references) : name ∈ referencesOf ts := by
  match ts, h with
  | [], h => simp [ofLeaves, references] at h
  | [t], h => simpa [ofLeaves, referencesOf] using h
  | _ :: _ :: _, h => exact h

/-- A union refers to what its members refer to. -/
theorem references_unionOf {name : String} {ts : List TypeRef}
    (h : name ∈ (unionOf ts).references) : name ∈ referencesOf ts := by
  have hcore : name ∈ (ofLeaves (distinct (leavesOf ts))).references := by
    unfold unionOf at h
    dsimp only at h
    split at h
    · rwa [references_optionalOf] at h
    · exact h
  obtain ⟨leaf, hleaf, hname⟩ := mem_referencesOf.1 (references_ofLeaves _ hcore)
  exact references_leavesOf ts (mem_referencesOf.2 ⟨leaf, mem_distinct.1 hleaf, hname⟩)

end TypeRef

/-! ### Types of nodes -/

mutual

/-- The type of a node: the model of its component, or the type of its shape. -/
inductive TypeOf (r : Registry) : Node → TypeRef → Prop where
  | component {n : Node} {c name : String} (hn : n.name = some c) (h : r.HasModel c name) :
      TypeOf r n (.orNull (.reference name) n.nullable)
  | shape {n : Node} {t : TypeRef} (hn : n.name = none)
      (h : ShapeTypeOf r n.serial n.shape t) : TypeOf r n (t.orNull n.nullable)

/-- The type of the shape of a node with a serial number. -/
inductive ShapeTypeOf (r : Registry) : Nat → Shape Node → TypeRef → Prop where
  | any {serial : Nat} : ShapeTypeOf r serial .any .any
  | null {serial : Nat} : ShapeTypeOf r serial .null (.optional .any)
  | scalar {serial : Nat} {kind : ScalarKind} {format : Option String} :
      ShapeTypeOf r serial (.scalar kind format) (.scalar (kind.withFormat format))
  | array {serial : Nat} {items : Node} {t : TypeRef} (h : TypeOf r items t) :
      ShapeTypeOf r serial (.array items) (.list t)
  | openDict {serial : Nat} {required : List String} :
      ShapeTypeOf r serial (.object [] required none) (.dict .any)
  | dict {serial : Nat} {required : List String} {n : Node} {t : TypeRef} (h : TypeOf r n t) :
      ShapeTypeOf r serial (.object [] required (some n)) (.dict t)
  /-- The node has a model of its own. -/
  | model {serial : Nat} {shape : Shape Node} {name : String} (hshape : shape.getsModel)
      (h : r.HasInline serial name) : ShapeTypeOf r serial shape (.reference name)
  | union {serial : Nat} {variants : List Node} {ts : List TypeRef} (h : TypesOf r variants ts) :
      ShapeTypeOf r serial (.union variants .untagged) (.unionOf ts)
  | backRef {serial : Nat} {c name : String} (h : r.HasModel c name) :
      ShapeTypeOf r serial (.backRef c) (.reference name)

/-- The types of nodes, one after the other. -/
inductive TypesOf (r : Registry) : List Node → List TypeRef → Prop where
  | nil : TypesOf r [] []
  | cons {n : Node} {t : TypeRef} {ns : List Node} {ts : List TypeRef} (h : TypeOf r n t)
      (hs : TypesOf r ns ts) : TypesOf r (n :: ns) (t :: ts)

end

section References

variable {r : Registry}

mutual

/-- **The type of a node refers to models only.** -/
theorem TypeOf.references : ∀ {n : Node} {t : TypeRef}, TypeOf r n t →
    ∀ name ∈ t.references, name ∈ r.slots.map Slot.name
  | _, _, .component _ h, name, hname => by
    rw [TypeRef.references_orNull, TypeRef.references, List.mem_singleton] at hname
    exact hname ▸ h.mem
  | _, _, .shape _ h, name, hname => by
    rw [TypeRef.references_orNull] at hname
    exact h.references name hname

theorem ShapeTypeOf.references : ∀ {serial : Nat} {shape : Shape Node} {t : TypeRef},
    ShapeTypeOf r serial shape t → ∀ name ∈ t.references, name ∈ r.slots.map Slot.name
  | _, _, _, .any, name, hname => by simp [TypeRef.references] at hname
  | _, _, _, .null, name, hname => by simp [TypeRef.references] at hname
  | _, _, _, .scalar, name, hname => by simp [TypeRef.references] at hname
  | _, _, _, .array h, name, hname => h.references name hname
  | _, _, _, .openDict, name, hname => by simp [TypeRef.references] at hname
  | _, _, _, .dict h, name, hname => h.references name hname
  | _, _, _, .model _ h, name, hname => by
    rw [TypeRef.references, List.mem_singleton] at hname
    exact hname ▸ h.mem
  | _, _, _, .union h, name, hname => h.references name (TypeRef.references_unionOf hname)
  | _, _, _, .backRef h, name, hname => by
    rw [TypeRef.references, List.mem_singleton] at hname
    exact hname ▸ h.mem

theorem TypesOf.references : ∀ {ns : List Node} {ts : List TypeRef}, TypesOf r ns ts →
    ∀ name ∈ TypeRef.referencesOf ts, name ∈ r.slots.map Slot.name
  | _, _, .nil, name, hname => by simp [TypeRef.referencesOf] at hname
  | _, _, .cons h hs, name, hname => by
    rw [TypeRef.referencesOf, List.mem_append] at hname
    rcases hname with hname | hname
    · exact h.references name hname
    · exact hs.references name hname

end

end References

/-! ### Bodies of models -/

/-- The types that the body of a model is made of. -/
def ModelBody.types : ModelBody → List TypeRef
  | .object fields additional => fields.map Field.type ++ additional.toList
  | .enumeration _ => []
  | .union variants _ => variants.map UnionVariant.type
  | .alias target => [target]

/-- Whether the model of a shape is another name for a type. -/
def Shape.isAlias : Shape Node → Bool
  | .object properties _ _ => properties.isEmpty
  | .enumeration _ => false
  | .union variants tagging => tagging = .untagged ∧ variants.length ≤ 1
  | _ => true

/-- A node that gets a model of its own where it is used has a body of its own. -/
theorem Shape.isAlias_of_getsModel {shape : Shape Node} (h : shape.getsModel) :
    shape.isAlias = false := by
  cases shape with
  | object properties required additional => simpa [getsModel, isAlias] using h
  | enumeration values => rfl
  | union variants tagging => cases tagging <;> simp_all [getsModel, isAlias]
  | _ => simp [getsModel] at h

/-- The field of a property. -/
structure FieldOf (r : Registry) (required : List String) (property : String × Node) (f : Field) :
    Prop where
  wireName : f.wireName = property.1
  type : TypeOf r property.2 f.type
  required : f.required = required.contains property.1
  default : f.default = property.2.default

/-- The body of the model of a node. -/
inductive BodyOf (r : Registry) (n : Node) : ModelBody → Prop where
  | object {properties : List (String × Node)} {required : List String} {additional : Option Node}
      {fields : List Field} {t : Option TypeRef}
      (hshape : n.shape = .object properties required additional)
      (hne : properties.isEmpty = false)
      (hfields : List.Forall₂ (FieldOf r required) properties fields)
      (hadditional : Option.Rel (TypeOf r) additional t) : BodyOf r n (.object fields t)
  | enumeration {values : List Json} {members : List EnumMember}
      (hshape : n.shape = .enumeration values) (h : members.map EnumMember.value = values) :
      BodyOf r n (.enumeration members)
  | union {variants : List Node} {tagging : Tagging} {ts : List TypeRef}
      (hshape : n.shape = .union variants tagging) (hown : n.shape.isAlias = false)
      (h : TypesOf r variants ts) :
      BodyOf r n (.union (Typing.tagVariants ts (Typing.taggingParts tagging).2)
        (Typing.taggingParts tagging).1)
  | otherName {t : TypeRef} (hshape : n.shape.isAlias) (h : ShapeTypeOf r n.serial n.shape t) :
      BodyOf r n (.alias t)

theorem TypeRef.mem_tagVariants_type {ts : List TypeRef} {tags : List String} {t : TypeRef} :
    t ∈ (Typing.tagVariants ts tags).map UnionVariant.type → t ∈ ts := by
  simp only [Typing.tagVariants, List.map_map, List.mem_map, Function.comp]
  rintro ⟨⟨t', i⟩, hmem, rfl⟩
  exact (List.mem_zipIdx hmem).2.2 ▸ List.getElem_mem _

/-- **The body of a model refers to models only.** -/
theorem BodyOf.references {r : Registry} {n : Node} {body : ModelBody} (h : BodyOf r n body) :
    ∀ t ∈ body.types, ∀ name ∈ t.references, name ∈ r.slots.map Slot.name := by
  intro t ht name hname
  cases h with
  | object hshape hne hfields hadditional =>
    rw [ModelBody.types, List.mem_append] at ht
    rcases ht with ht | ht
    · obtain ⟨f, hf, rfl⟩ := List.mem_map.1 ht
      obtain ⟨property, -, hproperty⟩ := forall₂_exists hfields.flip hf
      exact hproperty.type.references name hname
    · cases hadditional with
      | none => simp at ht
      | some hadditional =>
        rw [Option.toList_some, List.mem_singleton] at ht
        exact hadditional.references name (ht ▸ hname)
  | enumeration hshape h => simp [ModelBody.types] at ht
  | union hshape hown h =>
    exact h.references name
      (TypeRef.mem_referencesOf.2 ⟨t, TypeRef.mem_tagVariants_type ht, hname⟩)
  | otherName hshape h =>
    rw [ModelBody.types, List.mem_singleton] at ht
    exact h.references name (ht ▸ hname)

/-! ### Work that makes types -/

/-- What a node of the kind is made of is of the kind, too. -/
structure Node.Hereditary (G : Node → Prop) : Prop where
  object : ∀ {n : Node} {properties : List (String × Node)} {required : List String}
    {additional : Option Node}, G n → n.shape = .object properties required additional →
      (∀ e ∈ properties, G e.2) ∧ ∀ m, additional = some m → G m
  array : ∀ {n items : Node}, G n → n.shape = .array items → G items
  union : ∀ {n : Node} {variants : List Node} {tagging : Tagging}, G n →
    n.shape = .union variants tagging → ∀ m ∈ variants, G m

theorem Node.hereditary_true : Node.Hereditary fun _ => True :=
  ⟨fun _ _ => ⟨fun _ _ => trivial, fun _ _ => trivial⟩, fun _ _ => trivial, fun _ _ _ _ => trivial⟩

/-- It holds, and goes on to hold whatever is added to the registry. -/
def Registry.Stands (r : Registry) (P : Registry → Prop) : Prop := ∀ r', r.Extends r' → P r'

theorem Registry.Stands.extends {r r' : Registry} {P : Registry → Prop} (h : r.Stands P)
    (hr : r.Extends r') : r'.Stands P := fun r'' hr' => h r'' (hr.trans hr')

namespace Typing

variable {α β : Type} {naming : NamingConfig} {G : Node → Prop}

/-- Whatever the state, the work lets the registry evolve. -/
def Adds (naming : NamingConfig) (G : Node → Prop) (work : Typing α) : Prop :=
  ∀ w : Workbench, w.registry.Evolves naming G (work w).2.registry

theorem adds_pure {a : α} : Adds naming G (pure a) := fun w => .refl w.registry

theorem Adds.bind {work : Typing α} {f : α → Typing β} (h : Adds naming G work)
    (hf : ∀ a, Adds naming G (f a)) : Adds naming G (work >>= f) :=
  fun w => (h w).trans (hf _ _)

theorem adds_report {findings : List Diagnostic} : Adds naming G (report findings) :=
  fun w => .refl w.registry

theorem adds_allocate {scope : NameScope} {raw location : String} :
    Adds naming G (allocate naming scope raw location) :=
  adds_report.bind fun _ => adds_pure

/-- The work lets the registry evolve; if the components that nodes refer to have models, what is
said of the result stands. -/
structure Yields (naming : NamingConfig) (G : Node → Prop) (work : Typing α)
    (Q : Registry → α → Prop) : Prop where
  adds : Adds naming G work
  result : ∀ w : Workbench, w.registry.Ready G →
    (work w).2.registry.Stands fun r => Q r (work w).1

theorem Adds.yields {work : Typing α} (h : Adds naming G work) :
    Yields naming G work fun _ _ => True :=
  ⟨h, fun _ _ _ _ => trivial⟩

theorem yields_pure {a : α} {Q : Registry → α → Prop} (h : ∀ r, Q r a) :
    Yields naming G (pure a) Q :=
  ⟨adds_pure, fun _ _ r _ => h r⟩

/-- What follows may rely on what is said of the result. -/
theorem Yields.bind {work : Typing α} {f : α → Typing β} {P : Registry → α → Prop}
    {Q : Registry → β → Prop} (h : Yields naming G work P)
    (hf : ∀ a, Yields naming G (f a) fun r b => P r a → Q r b) :
    Yields naming G (work >>= f) Q := by
  refine ⟨h.adds.bind fun a => (hf a).adds, fun w hw r hr => ?_⟩
  have hevolves := (hf (work w).1).adds (work w).2
  exact (hf (work w).1).result (work w).2 ((h.adds w).ready hw) r hr
    (h.result w hw r (hevolves.extends.trans hr))

/-- The result is put into a larger one. -/
theorem Yields.into {work : Typing α} {f : α → β} {P : Registry → α → Prop}
    {Q : Registry → β → Prop} (h : Yields naming G work P) (hf : ∀ r a, P r a → Q r (f a)) :
    Yields naming G (work >>= fun a => pure (f a)) Q :=
  ⟨h.adds.bind fun _ => adds_pure, fun w hw r hr => hf r _ (h.result w hw r hr)⟩

/-- The same where a condition on the registry holds. -/
structure YieldsWhere (naming : NamingConfig) (G : Node → Prop) (C : Registry → Prop)
    (work : Typing α) (Q : Registry → α → Prop) : Prop where
  adds : ∀ w : Workbench, C w.registry → w.registry.Evolves naming G (work w).2.registry
  result : ∀ w : Workbench, C w.registry → w.registry.Ready G →
    (work w).2.registry.Stands fun r => Q r (work w).1

theorem Yields.yieldsWhere {C : Registry → Prop} {work : Typing α} {Q : Registry → α → Prop}
    (h : Yields naming G work Q) : YieldsWhere naming G C work Q :=
  ⟨fun w _ => h.adds w, fun w _ => h.result w⟩

theorem YieldsWhere.yields {C : Registry → Prop} {work : Typing α} {Q : Registry → α → Prop}
    (h : YieldsWhere naming G C work Q) (hC : ∀ r, C r) : Yields naming G work Q :=
  ⟨fun w => h.adds w (hC _), fun w => h.result w (hC _)⟩

/-- A component that a node refers to has a model, so the work goes on with its name. -/
theorem yields_componentModel? {n : Node} {c : String} {rest : Option String → Typing β}
    {Q : Registry → β → Prop} (hn : G n) (hc : n.name = some c ∨ n.shape = .backRef c)
    (hnone : ∀ w : Workbench, w.registry.componentModel? c = none →
      w.registry.Evolves naming G (rest none w).2.registry)
    (hrest : ∀ name, Yields naming G (rest (some name)) fun r b => r.HasModel c name → Q r b) :
    Yields naming G (componentModel? c >>= rest) Q := by
  refine ⟨fun w => ?_, fun w hw r hr => ?_⟩
  · change w.registry.Evolves naming G (rest (w.registry.componentModel? c) w).2.registry
    cases hmodel : w.registry.componentModel? c with
    | none => exact hnone w hmodel
    | some name => exact (hrest name).adds w
  obtain ⟨name, hname⟩ := hw.models n hn c hc
  have hgo : (componentModel? c >>= rest) w = rest (some name) w := by
    rw [← hname.componentModel?]
    rfl
  rw [hgo] at hr ⊢
  exact (hrest name).result w hw r hr (((hrest name).adds w).extends.trans hr |>.hasModel hname)

/-! ### Models of nodes that are no components -/

section Inline

variable {serial : Nat} {w : Workbench} (naming : NamingConfig) (description : Option String)
  (hint location : String) (body : String → Typing ModelBody)

/-- A node that has a model is referred to by its name, and nothing is done. -/
theorem inlineModel_old {index : Nat} (h : Table.get? w.registry.inlined serial = some index) :
    inlineModel naming serial description hint location body w =
      (.reference (w.registry.nameAt index), w) := by
  have hold : w.registry.reserveInline naming serial hint location =
      (⟨index, w.registry.nameAt index, false⟩, w.registry, []) := by
    simp [Registry.reserveInline, h]
  unfold inlineModel
  simp only [bind, StateT.bind, reserveInline]
  rw [hold]
  show (TypeRef.reference (w.registry.nameAt index),
    ({ w with diagnostics := w.diagnostics ++ [] } : Workbench)) = _
  rw [List.append_nil]

/-- A node that has none gets a slot, which is filled once its body is made. -/
theorem inlineModel_new (h : Table.get? w.registry.inlined serial = none) :
    ∃ (name : String) (w' : Workbench),
      name = (w.registry.reserveInline naming serial hint location).1.name ∧
      w'.registry = (w.registry.reserveInline naming serial hint location).2.1 ∧
      (inlineModel naming serial description hint location body w).1 = .reference name ∧
      (inlineModel naming serial description hint location body w).2.registry =
        (body name w').2.registry.fill w.registry.size description (body name w').1 := by
  have hnew : (w.registry.reserveInline naming serial hint location).1 =
      ⟨w.registry.size, (w.registry.reserveInline naming serial hint location).1.name, true⟩ := by
    simp [Registry.reserveInline, h]
  refine ⟨_, (reserveInline naming serial hint location w).2, rfl, rfl, ?_⟩
  unfold inlineModel
  simp only [bind, StateT.bind, reserveInline]
  rw [hnew]
  exact ⟨rfl, rfl⟩

end Inline

theorem evolves_inlineModel {n : Node} {hint location : String} {w : Workbench} (hn : G n)
    (hown : w.registry.Separates n)
    (h : ∀ name, Adds naming G (modelBody naming n name location)) :
    w.registry.Evolves naming G (inlineModel naming n.serial n.description hint location
      (fun name => modelBody naming n name location) w).2.registry := by
  cases hindex : Table.get? w.registry.inlined n.serial with
  | some index =>
    rw [inlineModel_old naming _ _ _ _ hindex]
    exact .refl _
  | none =>
    obtain ⟨name, w', hname, hw', -, hregistry⟩ := inlineModel_new naming n.description
      hint location (fun name => modelBody naming n name location) hindex
    rw [hregistry]
    exact .inline hn hown hindex hname hw' (h name w')

/-- A node that is to have a model of its own has it afterwards. -/
theorem yields_inlineModel {n : Node} {hint location : String} (hn : G n)
    (h : ∀ name, Adds naming G (modelBody naming n name location)) :
    YieldsWhere naming G (·.Separates n) (inlineModel naming n.serial n.description hint location
      fun name => modelBody naming n name location) fun r t =>
        ∃ name, t = .reference name ∧ r.HasInline n.serial name := by
  refine ⟨fun w hown => evolves_inlineModel hn hown h, fun w _ hw r hr => ?_⟩
  cases hindex : Table.get? w.registry.inlined n.serial with
  | some index =>
    rw [inlineModel_old naming n.description hint location _ hindex] at hr ⊢
    obtain ⟨slot, hslot⟩ := hw.inlined n.serial index hindex
    refine ⟨_, rfl, hr.hasInline ⟨index, slot, hindex, hslot, ?_⟩⟩
    simp [Registry.nameAt, hslot]
  | none =>
    obtain ⟨name, w', hname, hw', htype, hregistry⟩ := inlineModel_new naming n.description
      hint location (fun name => modelBody naming n name location) hindex
    rw [hregistry] at hr
    refine ⟨name, htype, hr.hasInline (Registry.extends_fill.hasInline ?_)⟩
    refine (h name w').extends.hasInline ?_
    rw [hw', hname]
    exact Registry.hasInline_reserveInline hindex

/-! ### Bodies from their parts -/

section Parts

variable {n : Node} {modelName location : String}

theorem modelBody_of_isAlias (h : n.shape.isAlias) :
    modelBody naming n modelName location = aliasBody naming n modelName location := by
  unfold modelBody
  cases hshape : n.shape with
  | object properties required additional =>
    rw [hshape] at h
    exact if_pos h
  | enumeration values => simp [hshape, Shape.isAlias] at h
  | union variants tagging => exact if_pos (by simpa [hshape, Shape.isAlias] using h)
  | _ => rfl

theorem yields_record {properties : List (String × Node)} {required : List String}
    {additional : Option Node} (hshape : n.shape = .object properties required additional)
    (hne : properties.isEmpty = false)
    (hfields : ∀ scope, Yields naming G (fields naming properties required scope modelName location)
      fun r fs => List.Forall₂ (FieldOf r required) properties fs)
    (hadditional : Yields naming G (additionalType naming additional modelName location)
      fun r t => Option.Rel (TypeOf r) additional t) :
    Yields naming G (modelBody naming n modelName location) fun r body => BodyOf r n body := by
  unfold modelBody
  simp only [hshape, hne, Bool.false_eq_true, if_false]
  exact (hfields _).bind fun fs => hadditional.into fun r t ht hfs => .object hshape hne hfs ht

theorem adds_enumMembers {location : String} :
    ∀ (values : List Json) (index : Nat) (scope : NameScope),
      Adds naming G (enumMembers naming location index scope values)
  | [], _, _ => adds_pure
  | _ :: rest, _, _ =>
    adds_allocate.bind fun _ => (adds_enumMembers rest _ _).bind fun _ => adds_pure

/-- The members of an enumeration have its values. -/
theorem yields_enumMembers {location : String} :
    ∀ (values : List Json) (index : Nat) (scope : NameScope),
      Yields naming G (enumMembers naming location index scope values) fun _ members =>
        members.map EnumMember.value = values
  | [], _, _ => yields_pure fun _ => rfl
  | value :: rest, index, scope => by
    refine adds_allocate.yields.bind fun named =>
      (yields_enumMembers rest (index + 1) named.2).into fun _ members h _ => ?_
    rw [List.map_cons, h]

theorem yields_enumeration {values : List Json} (hshape : n.shape = .enumeration values) :
    Yields naming G (modelBody naming n modelName location) fun r body => BodyOf r n body := by
  unfold modelBody
  rw [hshape]
  exact (yields_enumMembers values 0 _).into fun r members h => .enumeration hshape h

theorem yields_unionBody {variants : List Node} {tagging : Tagging}
    (hshape : n.shape = .union variants tagging) (hown : n.shape.isAlias = false)
    (h : Yields naming G (memberTypes naming 0 variants modelName location) fun r ts =>
      TypesOf r variants ts) :
    Yields naming G (modelBody naming n modelName location) fun r body => BodyOf r n body := by
  have hkeeps : ¬ (tagging = .untagged ∧ variants.length ≤ 1) := by
    simpa [hshape, Shape.isAlias] using hown
  unfold modelBody
  simp only [hshape, hkeeps, if_false]
  exact h.into fun r ts hts => .union hshape hown hts

theorem yields_alias (h : n.shape.isAlias)
    (ht : Yields naming G (shapeType naming n.serial n.description n.shape modelName location)
      fun r t => ShapeTypeOf r n.serial n.shape t) :
    Yields naming G (modelBody naming n modelName location) fun r body => BodyOf r n body := by
  rw [modelBody_of_isAlias h]
  exact ht.into fun r t htype => .otherName h htype

/-- A shape that gets a model gets the body that the model of a component would have. -/
theorem shapeType_getsModel {hint : String} (h : n.shape.getsModel) :
    shapeType naming n.serial n.description n.shape hint location =
      inlineModel naming n.serial n.description hint location fun name =>
        modelBody naming n name location := by
  unfold modelBody
  cases hshape : n.shape with
  | object properties required additional =>
    have hne : properties.isEmpty = false := by simpa [hshape, Shape.getsModel] using h
    unfold shapeType
    simp only [hne, Bool.false_eq_true, if_false]
  | enumeration values => unfold shapeType; rfl
  | union variants tagging =>
    cases tagging with
    | untagged => simp [hshape, Shape.getsModel] at h
    | tagged property tags =>
      unfold shapeType
      simp only [reduceCtorEq, false_and, if_false]
      rfl
  | _ => simp [hshape, Shape.getsModel] at h

theorem yields_getsModel {hint : String} (h : n.shape.getsModel) (hn : G n)
    (hbody : ∀ name, Adds naming G (modelBody naming n name location)) :
    YieldsWhere naming G (fun r => n.shape.getsModel → r.Separates n)
      (shapeType naming n.serial n.description n.shape hint location) fun r t =>
        ShapeTypeOf r n.serial n.shape t := by
  rw [shapeType_getsModel h]
  refine ⟨fun w hw => (yields_inlineModel hn hbody).adds w (hw h), fun w hw hready r hr => ?_⟩
  obtain ⟨name, heq, hname⟩ := (yields_inlineModel hn hbody).result w (hw h) hready r hr
  exact heq ▸ .model h hname

end Parts

/-! ### Types of nodes and bodies of models -/

mutual

/-- **The type that is made of a node is its type.** -/
theorem nodeType_yields (naming : NamingConfig) (hG : Node.Hereditary G) :
    ∀ n : Node, G n → ∀ hint location : String,
      Yields naming G (nodeType naming n hint location) fun r t => TypeOf r n t
  | ⟨serial, shape, nullable, name, description, default⟩, hn, hint, location => by
    have hshape := shapeType_yields naming hG shape
      ⟨serial, shape, nullable, name, description, default⟩ hn rfl hint location
    unfold nodeType
    cases name with
    | none =>
      change Yields naming G (shapeType naming serial description shape hint location >>= fun t =>
        pure (t.orNull nullable)) _
      exact (hshape.yields fun r hmodel => ⟨hmodel, by simp⟩).into fun r t ht => .shape rfl ht
    | some c =>
      refine yields_componentModel? hn (.inl rfl) (fun w hnone => ?_) fun model => ?_
      · -- Without a model of the component the node is like one that is no component.
        refine .trans (hshape.adds w fun hmodel => ⟨hmodel, fun c' hc' => ?_⟩) (.refl _)
        exact Option.some.inj hc' ▸ hnone
      · exact yields_pure fun r hmodel => .component rfl hmodel

theorem shapeType_yields (naming : NamingConfig) (hG : Node.Hereditary G) :
    ∀ (shape : Shape Node) (n : Node), G n → n.shape = shape → ∀ hint location : String,
      YieldsWhere naming G (fun r => shape.getsModel → r.Separates n)
        (shapeType naming n.serial n.description shape hint location) fun r t =>
          ShapeTypeOf r n.serial shape t
  | .any, _, _, _, _, _ => (yields_pure fun _ => .any).yieldsWhere
  | .null, _, _, _, _, _ => (yields_pure fun _ => .null).yieldsWhere
  | .scalar _ _, _, _, _, _, _ => (yields_pure fun _ => .scalar).yieldsWhere
  | .array items, n, hn, hshape, hint, location =>
    Yields.yieldsWhere <|
      (nodeType_yields naming hG items (hG.array hn hshape) _ _).into fun _ _ ht => .array ht
  | .object properties required additional, n, hn, hshape, hint, location => by
    obtain ⟨hproperties, hadditional⟩ := hG.object hn hshape
    have hmore := additionalType_yields naming hG additional hadditional
    -- Without properties an object is a dictionary; otherwise it gets a model.
    cases hempty : properties.isEmpty with
    | true =>
      unfold shapeType
      rw [if_pos hempty]
      rw [List.isEmpty_iff] at hempty
      subst hempty
      refine Yields.yieldsWhere ((hmore hint location).into fun r t ht => ?_)
      cases ht with
      | none => exact .openDict
      | some ht => exact .dict ht
    | false =>
      rw [← hshape]
      refine yields_getsModel (by simp [hshape, Shape.getsModel, hempty]) hn fun name => ?_
      exact (yields_record hshape hempty
        (fun scope => fields_yields naming hG properties hproperties required scope name location)
        (hmore name location)).adds
  | .enumeration values, n, hn, hshape, hint, location => by
    rw [← hshape]
    exact yields_getsModel (by rw [hshape]; rfl) hn fun _ => (yields_enumeration hshape).adds
  | .union variants (.tagged property tags), n, hn, hshape, hint, location => by
    rw [← hshape]
    exact yields_getsModel (by rw [hshape]; rfl) hn fun name =>
      (yields_unionBody hshape (by rw [hshape]; rfl)
        (memberTypes_yields naming hG variants (hG.union hn hshape) 0 name location)).adds
  | .union variants .untagged, n, hn, hshape, hint, location =>
    Yields.yieldsWhere <|
      (memberTypes_yields naming hG variants (hG.union hn hshape) 0 hint location).into
        fun _ _ hts => .union hts
  | .backRef c, n, hn, hshape, hint, location =>
    Yields.yieldsWhere <|
      yields_componentModel? hn (.inr hshape) (fun w _ => adds_pure w) fun _ =>
        yields_pure fun _ hmodel => .backRef hmodel

theorem additionalType_yields (naming : NamingConfig) (hG : Node.Hereditary G) :
    ∀ additional : Option Node, (∀ n, additional = some n → G n) → ∀ hint location : String,
      Yields naming G (additionalType naming additional hint location) fun r t =>
        Option.Rel (TypeOf r) additional t
  | none, _, _, _ => yields_pure fun _ => .none
  | some n, h, _, _ => (nodeType_yields naming hG n (h n rfl) _ _).into fun _ _ ht => .some ht

theorem fields_yields (naming : NamingConfig) (hG : Node.Hereditary G) :
    ∀ properties : List (String × Node), (∀ e ∈ properties, G e.2) →
      ∀ (required : List String) (scope : NameScope) (modelName location : String),
        Yields naming G (fields naming properties required scope modelName location) fun r fs =>
          List.Forall₂ (FieldOf r required) properties fs
  | [], _, _, _, _, _ => yields_pure fun _ => .nil
  | (wireName, n) :: rest, h, required, scope, modelName, location => by
    have hrest := fields_yields naming hG rest (fun e he => h e (.tail _ he)) required
    unfold fields
    exact adds_allocate.yields.bind fun named =>
      (nodeType_yields naming hG n (h _ (.head _)) _ _).bind fun t =>
        (hrest named.2 modelName location).into fun r fs hfs ht _ => .cons ⟨rfl, ht, rfl, rfl⟩ hfs

theorem memberTypes_yields (naming : NamingConfig) (hG : Node.Hereditary G) :
    ∀ nodes : List Node, (∀ n ∈ nodes, G n) → ∀ (index : Nat) (hint location : String),
      Yields naming G (memberTypes naming index nodes hint location) fun r ts =>
        TypesOf r nodes ts
  | [], _, _, _, _ => yields_pure fun _ => .nil
  | n :: rest, h, index, hint, location => by
    have hrest := memberTypes_yields naming hG rest (fun m hm => h m (.tail _ hm))
    unfold memberTypes
    exact (nodeType_yields naming hG n (h n (.head _)) _ _).bind fun t =>
      (hrest (index + 1) hint location).into fun r ts hts ht => .cons ht hts

end

/-- **The body that is made of a node is its body.** -/
theorem modelBody_yields (naming : NamingConfig) (hG : Node.Hereditary G) {n : Node} (hn : G n)
    (modelName location : String) :
    Yields naming G (modelBody naming n modelName location) fun r body => BodyOf r n body := by
  cases halias : n.shape.isAlias with
  | true =>
    have hshape := shapeType_yields naming hG n.shape n hn rfl modelName location
    refine yields_alias halias (hshape.yields fun r hmodel => ?_)
    simp [Shape.isAlias_of_getsModel hmodel] at halias
  | false =>
    cases hshape : n.shape with
    | object properties required additional =>
      obtain ⟨hproperties, hadditional⟩ := hG.object hn hshape
      exact yields_record hshape (by simpa [hshape, Shape.isAlias] using halias)
        (fun scope => fields_yields naming hG properties hproperties required scope _ _)
        (additionalType_yields naming hG additional hadditional _ _)
    | enumeration values => exact yields_enumeration hshape
    | union variants tagging =>
      exact yields_unionBody hshape halias
        (memberTypes_yields naming hG variants (hG.union hn hshape) 0 _ _)
    | _ => simp [hshape, Shape.isAlias] at halias

end Typing

end ApiBinding
