import ApiBinding.Proofs.Compilation.Models
import ApiBinding.Proofs.Compilation.Types

/-!
# Types that are made again

The models of nodes that are no components are found by their nodes.  So when the type of a node has
been made once, it can be made again at any other place, under any other name: all models that it
refers to are there, the same type comes out, and nothing is added.  Other types may be made in
between, but no component may get a name, since a node that belongs to a component without a name is
treated like one that belongs to none.

## Main definitions

* `Registry.Slotted` — every slot that is looked up is there.
* `Registry.Agrees` — the same models are found.
* `Workbench.Made`, `Workbench.Mapped` — the workbenches that there are, and those that making types
  leads to.
* `Typing.Again` — work that comes out the same wherever and whenever it is done again.

## Main results

* `Typing.nodeType_again` — what has been made once comes out the same.
* `Typing.nodeType_repeats` — **making the type of a node again changes nothing.**
-/

namespace ApiBinding

namespace Registry

/-- Every slot that is looked up, for a component or for a node, is there. -/
structure Slotted (r : Registry) : Prop where
  components : ∀ c i, Table.get? r.components c = some i → i < r.size
  inlined : ∀ serial i, Table.get? r.inlined serial = some i → i < r.size

/-- The same models are found: the components with models are the same, and so are the names of
their models; a node that has a model keeps it. -/
structure Agrees (r r' : Registry) : Prop where
  models : ∀ c, r'.componentModel? c = r.componentModel? c
  inlined : ∀ serial i, Table.get? r.inlined serial = some i →
    Table.get? r'.inlined serial = some i ∧ r'.nameAt i = r.nameAt i

theorem Agrees.refl (r : Registry) : r.Agrees r := ⟨fun _ => rfl, fun _ _ h => ⟨h, rfl⟩⟩

theorem Agrees.trans {r r' r'' : Registry} (h : r.Agrees r') (h' : r'.Agrees r'') :
    r.Agrees r'' where
  models c := (h'.models c).trans (h.models c)
  inlined serial i hi := by
    obtain ⟨hi', hname⟩ := h.inlined serial i hi
    obtain ⟨hi'', hname'⟩ := h'.inlined serial i hi'
    exact ⟨hi'', hname'.trans hname⟩

variable {naming : NamingConfig} {G : Node → Prop} {r r' : Registry}

theorem slotted_empty : Slotted {} := ⟨by simp, by simp⟩

/-! ### Slots are there -/

theorem size_fill (r : Registry) (index : Nat) (docstring : Option String) (body : ModelBody) :
    (r.fill index docstring body).size = r.size := by
  simp [fill, size]

theorem Slotted.fill (h : r.Slotted) {index : Nat} {docstring : Option String} {body : ModelBody} :
    (r.fill index docstring body).Slotted := by
  refine ⟨fun c i hi => ?_, fun serial i hi => ?_⟩
  · rw [size_fill]
    exact h.components c i hi
  · rw [size_fill]
    exact h.inlined serial i hi

theorem Slotted.fillComponent (h : r.Slotted) {c : String} {docstring : Option String}
    {body : ModelBody} : (r.fillComponent c docstring body).Slotted := by
  unfold Registry.fillComponent
  split
  · exact h.fill
  · exact h

theorem size_addSlot (r : Registry) (scope : NameScope) (slot : Slot) :
    (r.addSlot scope slot).size = r.size + 1 := by
  simp [addSlot, size]

theorem Slotted.reserveInline (h : r.Slotted) {serial : Nat} {hint location : String}
    (hnew : Table.get? r.inlined serial = none) :
    (r.reserveInline naming serial hint location).2.1.Slotted := by
  obtain ⟨name, scope, findings, -, hreserved⟩ := reserveInline_new naming hint location hnew
  rw [hreserved]
  refine ⟨fun c i hi => ?_, fun serial' i hi => ?_⟩
  · have hold := h.components c i hi
    show i < (r.addSlot scope { name := name, sourceName := none }).size
    rw [size_addSlot]
    omega
  · show i < (r.addSlot scope { name := name, sourceName := none }).size
    rw [size_addSlot]
    rw [Table.get?_insert] at hi
    split at hi
    · rw [Option.some.injEq] at hi
      omega
    · have hold := h.inlined serial' i hi
      omega

theorem Slotted.reserveComponent (h : r.Slotted) (c : String) :
    (r.reserveComponent naming c).2.1.Slotted := by
  unfold Registry.reserveComponent
  split
  · exact h
  · obtain ⟨name, scope, findings⟩ := allocateName naming r.scope c (Pointer.component c)
    refine ⟨fun c' i hi => ?_, fun serial i hi => ?_⟩
    · show i < (r.addSlot scope { name := name, sourceName := some c }).size
      rw [size_addSlot]
      rw [Table.get?_insert] at hi
      split at hi
      · rw [Option.some.injEq] at hi
        omega
      · have hold := h.components c' i hi
        omega
    · have hold := h.inlined serial i hi
      show i < (r.addSlot scope { name := name, sourceName := some c }).size
      rw [size_addSlot]
      omega

/-- Slots stay where they are while a registry evolves. -/
theorem Evolves.slotted (h : r.Evolves naming G r') (hr : r.Slotted) : r'.Slotted := by
  induction h with
  | refl r => exact hr
  | trans _ _ ih ih' => exact ih' (ih hr)
  | inline hn hown hnew hname hw h ih => exact (ih (hw ▸ hr.reserveInline hnew)).fill

/-! ### Models are found again -/

theorem Extends.nameAt (h : r.Extends r') {i : Nat} (hi : i < r.size) :
    r'.nameAt i = r.nameAt i := by
  have hslot : r.slots[i]? = some r.slots[i] := List.getElem?_eq_getElem hi
  obtain ⟨slot', hs', hname, -⟩ := h.keeps i _ hslot
  simp [Registry.nameAt, hslot, hs', hname]

/-- The same models are found when slots are added for nodes only. -/
theorem Extends.agrees (h : r.Extends r') (hcomponents : r'.components = r.components)
    (hr : r.Slotted) : r.Agrees r' := by
  refine ⟨fun c => ?_, fun serial i hi =>
    ⟨h.inlined serial i hi, h.nameAt (hr.inlined serial i hi)⟩⟩
  unfold componentModel?
  rw [hcomponents]
  cases hi : Table.get? r.components c with
  | none => rfl
  | some i => exact congrArg some (h.nameAt (hr.components c i hi))

theorem Evolves.agrees (h : r.Evolves naming G r') (hr : r.Slotted) : r.Agrees r' :=
  h.extends.agrees h.grows.components hr

theorem agrees_fillComponent (hr : r.Slotted) {c : String} {docstring : Option String}
    {body : ModelBody} : r.Agrees (r.fillComponent c docstring body) := by
  unfold Registry.fillComponent
  split
  · exact extends_fill.agrees rfl hr
  · exact .refl r

end Registry

namespace Typing

variable {α β : Type} {naming : NamingConfig} {w : Workbench} {r r' : Registry}

/-! ### Work that is done again -/

/-- Wherever the work is done again, under whatever names, while the same models are found: it comes
out the same, and changes nothing. -/
def Again (work : NamingConfig → String → String → Typing α) (r : Registry) (a : α) : Prop :=
  ∀ (naming : NamingConfig) (hint location : String) (w : Workbench), r.Agrees w.registry →
    work naming hint location w = (a, w)

/-- What comes out is put into something larger. -/
theorem Again.into {work : NamingConfig → String → String → Typing α} {a : α}
    (h : Again work r a) (hints locations : String → String) (f : α → β) :
    Again (fun naming hint location => work naming (hints hint) (locations location) >>= fun a =>
      pure (f a)) r (f a) := by
  intro naming hint location w hw
  show (work naming (hints hint) (locations location) >>= fun a => pure (f a)) w = (f a, w)
  simp only [bind, StateT.bind, h naming (hints hint) (locations location) w hw]
  rfl

theorem again_pure (a : α) : Again (fun _ _ _ => pure a) r a := fun _ _ _ _ _ => rfl

/-! ### Models of nodes -/

/-- The node has a model of the name that its type refers to, when the model has been made. -/
theorem inlineModel_found (serial : Nat) (description : Option String) (hint location : String)
    {body : String → Typing ModelBody} {G : Node → Prop} (hw : w.registry.Slotted)
    (hbody : ∀ name, Adds naming G (body name)) :
    ∃ name, (inlineModel naming serial description hint location body w).1 = .reference name ∧
      (inlineModel naming serial description hint location body w).2.registry.HasInline serial
        name := by
  cases hindex : Table.get? w.registry.inlined serial with
  | some index =>
    rw [inlineModel_old _ _ _ _ _ hindex]
    have hlt := hw.inlined serial index hindex
    exact ⟨_, rfl, index, w.registry.slots[index], hindex, List.getElem?_eq_getElem hlt, by
      simp [Registry.nameAt, List.getElem?_eq_getElem hlt]⟩
  | none =>
    obtain ⟨name, w', hname, hw', htype, hregistry⟩ := inlineModel_new naming description hint
      location body hindex
    refine ⟨name, htype, ?_⟩
    rw [hregistry]
    refine Registry.extends_fill.hasInline ((hbody name w').extends.hasInline ?_)
    rw [hw', hname]
    exact Registry.hasInline_reserveInline hindex

/-- What has a model of its own is found again. -/
theorem again_model {serial : Nat} {shape : Shape Node} {description : Option String}
    (h : shape.getsModel) (hint location : String) (hw : w.registry.Slotted) :
    Again (fun naming hint location => shapeType naming serial description shape hint location)
      (shapeType naming serial description shape hint location w).2.registry
      (shapeType naming serial description shape hint location w).1 := by
  have heq : ∀ naming hint location, shapeType naming serial description shape hint location =
      inlineModel naming serial description hint location fun name =>
        modelBody naming ⟨serial, shape, false, none, description, none⟩ name location :=
    fun _ _ _ => shapeType_getsModel (n := ⟨serial, shape, false, none, description, none⟩) h
  simp only [heq]
  obtain ⟨name, htype, i, slot, hi, hslot, hname⟩ :=
    inlineModel_found serial description hint location hw fun name =>
      (modelBody_yields naming Node.hereditary_true
        (n := ⟨serial, shape, false, none, description, none⟩) trivial name location).adds
  intro naming' hint' location' w' hagrees
  obtain ⟨hi', hname'⟩ := hagrees.inlined serial i hi
  show inlineModel naming' serial description hint' location' _ w' = _
  rw [htype, inlineModel_old _ _ _ _ _ hi', hname']
  simp [Registry.nameAt, hslot, hname]

/-! ### Types of nodes -/

/-- A node of a component with a model has that model as its type. -/
theorem nodeType_named {n : Node} {model : String}
    (h : n.name.bind w.registry.componentModel? = some model) (hint location : String) :
    nodeType naming n hint location w = ((TypeRef.reference model).orNull n.nullable, w) := by
  obtain ⟨serial, shape, nullable, name, description, default⟩ := n
  obtain ⟨c, rfl, hmodel⟩ := Option.bind_eq_some_iff.1 h
  have hrun : componentModel? c w = (some model, w) := congrArg (·, w) hmodel
  simp [nodeType, bind, StateT.bind, pure_apply, hrun, TypeRef.orNull]

/-- Every other node has the type of its shape. -/
theorem nodeType_unnamed {n : Node} (h : n.name.bind w.registry.componentModel? = none)
    (hint location : String) :
    nodeType naming n hint location w =
      ((shapeType naming n.serial n.description n.shape hint location w).1.orNull n.nullable,
        (shapeType naming n.serial n.description n.shape hint location w).2) := by
  obtain ⟨serial, shape, nullable, name, description, default⟩ := n
  cases name with
  | none =>
    simp only [nodeType, bind, StateT.bind, pure_apply, TypeRef.orNull]
    rfl
  | some c =>
    have hrun : componentModel? c w = (none, w) := congrArg (·, w) h
    simp only [nodeType, bind, StateT.bind, hrun, pure_apply, TypeRef.orNull]
    rfl

mutual

/-- **What has been made once comes out the same.** -/
theorem nodeType_again : ∀ (n : Node) (naming : NamingConfig) (hint location : String)
    (w : Workbench), w.registry.Slotted →
      Again (fun naming hint location => nodeType naming n hint location)
        (nodeType naming n hint location w).2.registry (nodeType naming n hint location w).1
  | ⟨serial, shape, nullable, name, description, default⟩, naming, hint, location, w, hw => by
    have hadds := (nodeType_yields naming Node.hereditary_true
      ⟨serial, shape, nullable, name, description, default⟩ trivial hint location).adds w
    have hagrees := hadds.agrees hw
    cases hmodel : name.bind w.registry.componentModel? with
    | some model =>
      intro naming' hint' location' w' hw'
      rw [nodeType_named hmodel]
      refine nodeType_named ?_ hint' location'
      obtain ⟨c, rfl, hc⟩ := Option.bind_eq_some_iff.1 hmodel
      exact ((hagrees.trans hw').models c).trans hc
    | none =>
      have hshape := shapeType_again shape serial description naming hint location w hw
      intro naming' hint' location' w' hw'
      rw [nodeType_unnamed hmodel] at hagrees hw' ⊢
      have hnone : name.bind w'.registry.componentModel? = none := by
        rw [← hmodel]
        exact congrArg name.bind (funext (hagrees.trans hw').models)
      show nodeType naming' _ hint' location' w' = _
      rw [nodeType_unnamed hnone]
      rw [show shapeType naming' serial description shape hint' location' w' = _ from
        hshape naming' hint' location' w' hw']

theorem shapeType_again : ∀ (shape : Shape Node) (serial : Nat) (description : Option String)
    (naming : NamingConfig) (hint location : String) (w : Workbench), w.registry.Slotted →
      Again (fun naming hint location => shapeType naming serial description shape hint location)
        (shapeType naming serial description shape hint location w).2.registry
        (shapeType naming serial description shape hint location w).1
  | .any, _, _, _, _, _, _, _ => again_pure _
  | .null, _, _, _, _, _, _, _ => again_pure _
  | .scalar _ _, _, _, _, _, _, _, _ => again_pure _
  | .array items, serial, description, naming, hint, location, w, hw =>
    (nodeType_again items naming _ _ w hw).into (· ++ "Item") (· ++ "/items") TypeRef.list
  | .object properties required additional, serial, description, naming, hint, location, w, hw => by
    -- Without properties an object is a dictionary; otherwise it gets a model.
    cases hempty : properties.isEmpty with
    | true =>
      simp only [shapeType, hempty, if_true]
      exact (additionalType_again additional naming hint location w hw).into id id
        fun t => TypeRef.dict (t.getD .any)
    | false => exact again_model (by simp [Shape.getsModel, hempty]) hint location hw
  | .enumeration values, serial, description, naming, hint, location, w, hw =>
    again_model rfl hint location hw
  | .union variants (.tagged property tags), serial, description, naming, hint, location, w, hw =>
    again_model rfl hint location hw
  | .union variants .untagged, serial, description, naming, hint, location, w, hw =>
    (memberTypes_again variants 0 0 naming hint location w hw).into id id TypeRef.unionOf
  | .backRef c, serial, description, naming, hint, location, w, hw => by
    intro naming' hint' location' w' hagrees
    have hc : w'.registry.componentModel? c = w.registry.componentModel? c := hagrees.models c
    show (((w'.registry.componentModel? c).map TypeRef.reference).getD .any, w') = _
    rw [hc]
    rfl

theorem additionalType_again : ∀ (additional : Option Node) (naming : NamingConfig)
    (hint location : String) (w : Workbench), w.registry.Slotted →
      Again (fun naming hint location => additionalType naming additional hint location)
        (additionalType naming additional hint location w).2.registry
        (additionalType naming additional hint location w).1
  | none, _, _, _, _, _ => again_pure _
  | some n, naming, _, _, w, hw =>
    (nodeType_again n naming _ _ w hw).into (· ++ "Value") (· ++ "/additionalProperties") some

theorem memberTypes_again : ∀ (nodes : List Node) (index index' : Nat) (naming : NamingConfig)
    (hint location : String) (w : Workbench), w.registry.Slotted →
      Again (fun naming hint location => memberTypes naming index' nodes hint location)
        (memberTypes naming index nodes hint location w).2.registry
        (memberTypes naming index nodes hint location w).1
  | [], _, _, _, _, _, _, _ => again_pure _
  | n :: rest, index, index', naming, hint, location, w, hw => by
    -- What the rest adds keeps the models that the first member refers to.
    have hadds := (nodeType_yields naming Node.hereditary_true n trivial (optionHint hint index)
      location).adds w
    have hrest := memberTypes_yields naming Node.hereditary_true rest (fun _ _ => trivial)
      (index + 1) hint location
    have hslotted := hadds.slotted hw
    intro naming' hint' location' w' hagrees
    have hfirst := nodeType_again n naming (optionHint hint index) location w hw naming'
      (optionHint hint' index') location' w' ((hrest.adds _).agrees hslotted |>.trans hagrees)
    have hmore := memberTypes_again rest (index + 1) (index' + 1) naming hint location _ hslotted
      naming' hint' location' w' hagrees
    show memberTypes naming' index' (n :: rest) hint' location' w' = _
    simp only [memberTypes, bind, StateT.bind, hfirst, hmore]
    rfl

end

end Typing

/-! ### Workbenches -/

namespace Workbench

open Typing

/-- What may be done on a workbench without giving a name to a component: types and the bodies of
models are made, slots are reserved for nodes and filled, findings are reported. -/
inductive Mapped : Workbench → Workbench → Prop where
  | refl (w : Workbench) : Mapped w w
  | nodeType {w w' : Workbench} (h : Mapped w w') (naming : NamingConfig) (n : Node)
      (hint location : String) : Mapped w (nodeType naming n hint location w').2
  | fillComponent {w w' : Workbench} (h : Mapped w w') (naming : NamingConfig) (c : String)
      (n : Node) (location : String) : Mapped w (fillComponent naming c n location w').2
  | reserveInline {w w' : Workbench} (h : Mapped w w') (naming : NamingConfig) (serial : Nat)
      (hint location : String) : Mapped w (reserveInline naming serial hint location w').2
  | fill {w w' : Workbench} (h : Mapped w w') (index : Nat) (docstring : Option String)
      (body : ModelBody) : Mapped w (modifyRegistry (·.fill index docstring body) w').2
  | report {w w' : Workbench} (h : Mapped w w') (findings : List Diagnostic) :
      Mapped w (report findings w').2

/-- The workbenches that there are: from the empty one, components are given names, and everything
else is done in between. -/
inductive Made : Workbench → Prop where
  | empty : Made {}
  | reserveComponent {w : Workbench} (h : Made w) (naming : NamingConfig) (c : String) :
      Made (reserveComponent naming c w).2
  | mapped {w w' : Workbench} (h : Made w) (h' : w.Mapped w') : Made w'

variable {naming : NamingConfig} {w w' : Workbench}

/-- Reserving a slot for a node keeps the slots, and the models that are found. -/
theorem reserveInline_agrees (hw : w.registry.Slotted) (serial : Nat) (hint location : String) :
    (Typing.reserveInline naming serial hint location w).2.registry.Slotted ∧
      w.registry.Agrees (Typing.reserveInline naming serial hint location w).2.registry := by
  show (w.registry.reserveInline naming serial hint location).2.1.Slotted ∧
    w.registry.Agrees (w.registry.reserveInline naming serial hint location).2.1
  cases hold : Table.get? w.registry.inlined serial with
  | some index =>
    have hsame : (w.registry.reserveInline naming serial hint location).2.1 = w.registry := by
      simp [Registry.reserveInline, hold]
    rw [hsame]
    exact ⟨hw, .refl _⟩
  | none =>
    refine ⟨hw.reserveInline hold, (Registry.extends_reserveInline naming _ _ hold).agrees ?_ hw⟩
    simp [Registry.reserveInline, hold, Registry.addSlot]

/-- Filling the model of a component keeps the slots, and the models that are found. -/
theorem fillComponent_agrees (hw : w.registry.Slotted) (c : String) (n : Node)
    (location : String) :
    (Typing.fillComponent naming c n location w).2.registry.Slotted ∧
      w.registry.Agrees (Typing.fillComponent naming c n location w).2.registry := by
  cases hname : w.registry.componentModel? c with
  | none =>
    rw [Typing.fillComponent_unnamed hname]
    exact ⟨hw, .refl _⟩
  | some name =>
    rw [Typing.fillComponent_registry hname]
    have hevolves := (Typing.modelBody_yields naming Node.hereditary_true (n := n) trivial name
      location).adds w
    have hslotted := hevolves.slotted hw
    exact ⟨hslotted.fillComponent,
      (hevolves.agrees hw).trans (Registry.agrees_fillComponent hslotted)⟩

/-- Whatever is done without giving a name to a component: the slots stay, and the same models are
found. -/
theorem Mapped.agrees (h : w.Mapped w') (hw : w.registry.Slotted) :
    w'.registry.Slotted ∧ w.registry.Agrees w'.registry := by
  induction h with
  | refl => exact ⟨hw, .refl _⟩
  | @nodeType w' h naming n hint location ih =>
    obtain ⟨hslotted, hagrees⟩ := ih
    have hevolves := (nodeType_yields naming Node.hereditary_true n trivial hint location).adds w'
    exact ⟨hevolves.slotted hslotted, hagrees.trans (hevolves.agrees hslotted)⟩
  | fillComponent h naming c n location ih =>
    obtain ⟨hslotted, hagrees⟩ := ih
    exact (fillComponent_agrees hslotted c n location).imp_right hagrees.trans
  | reserveInline h naming serial hint location ih =>
    obtain ⟨hslotted, hagrees⟩ := ih
    exact (reserveInline_agrees hslotted serial hint location).imp_right hagrees.trans
  | fill h index docstring body ih =>
    obtain ⟨hslotted, hagrees⟩ := ih
    exact ⟨hslotted.fill, hagrees.trans (Registry.extends_fill.agrees rfl hslotted)⟩
  | report h findings ih => exact ih

/-- On every workbench, the slots that are looked up are there. -/
theorem Made.slotted (h : w.Made) : w.registry.Slotted := by
  induction h with
  | empty => exact Registry.slotted_empty
  | reserveComponent h naming c ih => exact ih.reserveComponent c
  | mapped h h' ih => exact (h'.agrees ih).1

end Workbench

/-- **Making the type of a node again changes nothing**: when no component has got a name since, the
type is the same wherever it is made, and the workbench stays as it is. -/
theorem Typing.nodeType_repeats {w w' : Workbench} (hw : w.Made) (naming naming' : NamingConfig)
    (n : Node) (hint hint' location location' : String)
    (hlater : (nodeType naming n hint location w).2.Mapped w') :
    nodeType naming' n hint' location' w' = ((nodeType naming n hint location w).1, w') := by
  have hevolves := (nodeType_yields naming Node.hereditary_true n trivial hint location).adds w
  have hagrees := (hlater.agrees (hevolves.slotted hw.slotted)).2
  exact nodeType_again n naming hint location w hw.slotted naming' hint' location' w' hagrees

/-! ### A repeated list -/

/-- The colors that a crayon may have. -/
def crayonColor : Node :=
  { serial := 2, shape := .enumeration [.string "red", .string "blue"] }

/-- A list of crayons; a crayon has a color, or lies in a box of crayons. -/
def crayons : Node :=
  { serial := 0
    shape := .array
      { serial := 1
        shape := .object [("color", crayonColor), ("box", { serial := 3, shape := .backRef "Box" })]
          ["color"] none } }

/-- Where crayons and colors are used, one after the other. -/
def crayonTable : Workbench :=
  (Typing.nodeType {} crayonColor "Paint" "#/paths/~1paint" (Typing.nodeType {} crayons "Crayon"
    "#/paths/~1crayons" (Typing.reserveComponent {} "Box" {}).2).2).2

theorem Typing.nodeType_repeats_crayons :
    nodeType {} crayons "Pencil" "#/paths/~1pencils" crayonTable =
      (.list (.reference "CrayonItem"), crayonTable) := by
  have hmade : Workbench.Made (reserveComponent {} "Box" {}).2 := .reserveComponent .empty {} "Box"
  have hlater : (nodeType {} crayons "Crayon" "#/paths/~1crayons"
      (reserveComponent {} "Box" {}).2).2.Mapped crayonTable :=
    .nodeType (.refl _) {} crayonColor "Paint" "#/paths/~1paint"
  have htype : (nodeType {} crayons "Crayon" "#/paths/~1crayons"
      (reserveComponent {} "Box" {}).2).1 = .list (.reference "CrayonItem") := by
    decide +kernel
  rw [nodeType_repeats hmade {} {} crayons "Crayon" "Pencil" "#/paths/~1crayons"
    "#/paths/~1pencils" hlater, htype]

end ApiBinding
