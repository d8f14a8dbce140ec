import ApiBinding.Proofs.Composition.Nodes
import ApiBinding.Typing

/-!
# Slots

On the way to a type, models are made for schemas inside other schemas.  Each of them gets a slot
of its own, which is reserved before the body is made and filled after it, so that the slots of
the schemas inside are reserved and filled in between.  A slot that belongs to a component is left
as it is, and no component gets a second one.

## Main definitions

* `Registry.Grows` — slots are added, none of them for a component.
* `Registry.Extends` — every slot keeps its name, and is found as it was.
* `Registry.Evolves` — slots are reserved, their bodies are made, and they are filled.
* `Registry.Ready` — components have models.

## Main results

* `Registry.Evolves.grows`, `Registry.Evolves.extends` — a registry that evolves grows, and
  extends what it was.
-/

namespace ApiBinding

namespace Registry

/-! ### Slots that are added -/

section Added

variable {r r' : Registry} {slot s : Slot} {i : Nat}

/-- The slots that were there stay when one is added. -/
theorem getElem?_of_added (hadded : r'.slots = r.slots ++ [slot])
    (h : r.slots[i]? = some s) : r'.slots[i]? = some s := by
  have hlt : i < r.slots.length := (List.getElem?_eq_some_iff.1 h).1
  rw [hadded, List.getElem?_append_left hlt, h]

/-- A slot that is added is the last one. -/
theorem getElem?_size_of_added (hadded : r'.slots = r.slots ++ [slot]) :
    r'.slots[r.size]? = some slot := by
  rw [hadded, size, List.getElem?_concat_length]

/-- Every slot was there, or it is the one that was added. -/
theorem added_or_old (hadded : r'.slots = r.slots ++ [slot])
    (h : r'.slots[i]? = some s) : r.slots[i]? = some s ∨ i = r.size ∧ s = slot := by
  rw [hadded] at h
  rcases Nat.lt_or_ge i r.slots.length with hlt | hge
  · rw [List.getElem?_append_left hlt] at h
    exact .inl h
  · rw [List.getElem?_append_right hge, List.getElem?_singleton] at h
    split at h
    · rename_i hzero
      rw [Option.some.injEq] at h
      exact .inr ⟨by rw [size]; omega, h.symm⟩
    · simp at h

end Added

/-! ### Growth -/

/-- The components have the slots they had, and those slots are as they were; new slots are
not for components. -/
structure Grows (r r' : Registry) : Prop where
  components : r'.components = r.components
  keeps : ∀ (i : Nat) (slot : Slot), r.slots[i]? = some slot → ∃ slot' : Slot,
    r'.slots[i]? = some slot' ∧ slot'.sourceName = slot.sourceName ∧
      (slot.sourceName.isSome → slot' = slot)
  fresh : ∀ (i : Nat) (slot : Slot), r.slots[i]? = none → r'.slots[i]? = some slot →
    slot.sourceName = none

theorem Grows.refl (r : Registry) : r.Grows r :=
  ⟨rfl, fun _ slot h => ⟨slot, h, rfl, fun _ => rfl⟩, fun _ _ h h' => by simp [h] at h'⟩

theorem Grows.trans {r r' r'' : Registry} (h : r.Grows r') (h' : r'.Grows r'') : r.Grows r'' := by
  refine ⟨h'.components.trans h.components, fun i slot hs => ?_, fun i slot hn hs => ?_⟩
  · obtain ⟨slot', hs', hname, hkeep⟩ := h.keeps i slot hs
    obtain ⟨slot'', hs'', hname', hkeep'⟩ := h'.keeps i slot' hs'
    refine ⟨slot'', hs'', hname'.trans hname, fun hsome => ?_⟩
    rw [hkeep' (by rwa [hname]), hkeep hsome]
  · cases hm : r'.slots[i]? with
    | none => exact h'.fresh i slot hm hs
    | some slot' =>
      obtain ⟨slot'', hs'', hname, -⟩ := h'.keeps i slot' hm
      rw [hs, Option.some.injEq] at hs''
      rw [hs'', hname]
      exact h.fresh i slot' hn hm

/-- A slot that is not for a component is added. -/
theorem grows_addSlot {r : Registry} {scope : NameScope} {slot : Slot} {inlined : Table Nat Nat}
    (h : slot.sourceName = none) :
    r.Grows { r.addSlot scope slot with inlined := inlined } := by
  refine ⟨rfl, fun i s hs => ⟨s, getElem?_of_added rfl hs, rfl, fun _ => rfl⟩,
    fun i s hn hs => ?_⟩
  rcases added_or_old rfl hs with hold | ⟨-, heq⟩
  · simp [hn] at hold
  · rw [heq, h]

/-- A slot that is not for a component is filled. -/
theorem grows_fill {r : Registry} {index : Nat} {docstring : Option String} {body : ModelBody}
    (h : ∀ slot, r.slots[index]? = some slot → slot.sourceName = none) :
    r.Grows (r.fill index docstring body) := by
  refine ⟨rfl, fun i slot hs => ?_, fun i slot hn hs => ?_⟩
  · by_cases hi : index = i
    · subst hi
      refine ⟨{ slot with docstring := docstring, body := some body }, by simp [fill, hs], rfl, ?_⟩
      rw [h slot hs]
      simp
    · exact ⟨slot, by simp [fill, hi, hs], rfl, fun _ => rfl⟩
  · simp [fill, List.getElem?_modify, hn] at hs

/-- The slot that is reserved for a node that has none. -/
theorem reserveInline_new {r : Registry} {serial : Nat} (naming : NamingConfig)
    (hint location : String) (h : Table.get? r.inlined serial = none) :
    ∃ name scope findings, allocateName naming r.scope hint location = (name, scope, findings) ∧
      r.reserveInline naming serial hint location = (⟨r.size, name, true⟩,
        { r.addSlot scope { name := name, sourceName := none } with
          inlined := Table.insert r.inlined serial r.size }, findings) := by
  refine ⟨(allocateName naming r.scope hint location).1,
    (allocateName naming r.scope hint location).2.1,
    (allocateName naming r.scope hint location).2.2, rfl, ?_⟩
  unfold reserveInline
  rw [h]

end Registry

/-! ### Registries that evolve -/

/-- Whether a shape gets a model of its own where it is used. -/
def Shape.getsModel : Shape Node → Bool
  | .object properties _ _ => !properties.isEmpty
  | .enumeration _ => true
  | .union _ (.tagged _ _) => true
  | _ => false

/-- The node gets a model of its own where it is used: its shape does, and the node is not that of
a component with a model. -/
structure Registry.Separates (r : Registry) (n : Node) : Prop where
  shape : n.shape.getsModel
  component : ∀ c, n.name = some c → r.componentModel? c = none

/-- What making types does to a registry: slots are reserved for nodes that have none, their
bodies are made, and then they are filled.  The nodes are of a kind, and get models of their own
where they are used. -/
inductive Registry.Evolves (naming : NamingConfig) (G : Node → Prop) :
    Registry → Registry → Prop where
  | refl (r : Registry) : Evolves naming G r r
  | trans {r r' r'' : Registry} (h : Evolves naming G r r') (h' : Evolves naming G r' r'') :
      Evolves naming G r r''
  | inline {r : Registry} {w : Workbench} {n : Node} {hint location : String} {name : String}
      {docstring : Option String} (hn : G n) (hown : r.Separates n)
      (hnew : Table.get? r.inlined n.serial = none)
      (hname : name = (r.reserveInline naming n.serial hint location).1.name)
      (hw : w.registry = (r.reserveInline naming n.serial hint location).2.1)
      (h : Evolves naming G w.registry (Typing.modelBody naming n name location w).2.registry) :
      Evolves naming G r ((Typing.modelBody naming n name location w).2.registry.fill r.size
        docstring (Typing.modelBody naming n name location w).1)

/-- **A registry that evolves grows.** -/
theorem Registry.Evolves.grows {naming : NamingConfig} {G : Node → Prop} {r r' : Registry}
    (h : r.Evolves naming G r') : r.Grows r' := by
  induction h with
  | refl r => exact .refl r
  | trans _ _ ih ih' => exact ih.trans ih'
  | @inline r w n hint location name docstring hn hown hnew hname hw h ih =>
    obtain ⟨name, scope, findings, -, hreserved⟩ :=
      reserveInline_new naming hint location hnew
    rw [hreserved] at hw
    have hadded : r.Grows w.registry := by
      rw [hw]
      exact grows_addSlot rfl
    refine (hadded.trans ih).trans (grows_fill fun slot hs => ?_)
    -- The slot is the one that was reserved, which is for no component.
    refine (hadded.trans ih).fresh r.size slot ?_ hs
    exact List.getElem?_eq_none (Nat.le_refl _)

/-- Less is asked of the nodes. -/
theorem Registry.Evolves.mono {naming : NamingConfig} {G G' : Node → Prop} {r r' : Registry}
    (h : r.Evolves naming G r') (hG : ∀ n, G n → G' n) : r.Evolves naming G' r' := by
  induction h with
  | refl r => exact .refl r
  | trans _ _ ih ih' => exact ih.trans ih'
  | inline hn hown hnew hname hw _ ih => exact .inline (hG _ hn) hown hnew hname hw ih

/-! ### What an evolving registry keeps -/

namespace Registry

variable {naming : NamingConfig} {G : Node → Prop} {r r' r'' : Registry}

/-- Every slot keeps its name and what it is for, and is found where it was found. -/
structure Extends (r r' : Registry) : Prop where
  components : ∀ c i, Table.get? r.components c = some i → Table.get? r'.components c = some i
  inlined : ∀ serial i, Table.get? r.inlined serial = some i →
    Table.get? r'.inlined serial = some i
  keeps : ∀ (i : Nat) (slot : Slot), r.slots[i]? = some slot → ∃ slot' : Slot,
    r'.slots[i]? = some slot' ∧ slot'.name = slot.name ∧ slot'.sourceName = slot.sourceName

theorem Extends.refl (r : Registry) : r.Extends r :=
  ⟨fun _ _ h => h, fun _ _ h => h, fun _ slot h => ⟨slot, h, rfl, rfl⟩⟩

theorem Extends.trans (h : r.Extends r') (h' : r'.Extends r'') : r.Extends r'' := by
  refine ⟨fun c i hi => h'.components c i (h.components c i hi),
    fun serial i hi => h'.inlined serial i (h.inlined serial i hi), fun i slot hs => ?_⟩
  obtain ⟨slot', hs', hname, hsource⟩ := h.keeps i slot hs
  obtain ⟨slot'', hs'', hname', hsource'⟩ := h'.keeps i slot' hs'
  exact ⟨slot'', hs'', hname'.trans hname, hsource'.trans hsource⟩

theorem extends_reserveInline {serial : Nat} (naming : NamingConfig) (hint location : String)
    (hnew : Table.get? r.inlined serial = none) :
    r.Extends (r.reserveInline naming serial hint location).2.1 := by
  obtain ⟨name, scope, findings, -, hreserved⟩ :=
    reserveInline_new naming hint location hnew
  rw [hreserved]
  refine ⟨fun _ _ h => h, fun serial' i hi => ?_, fun i slot hs =>
    ⟨slot, getElem?_of_added rfl hs, rfl, rfl⟩⟩
  dsimp only
  rw [Table.get?_insert]
  split
  · rename_i heq
    rw [← heq, hnew] at hi
    simp at hi
  · exact hi

theorem getElem?_fill {index : Nat} {docstring : Option String} {body : ModelBody} {i : Nat}
    {slot : Slot} (h : r.slots[i]? = some slot) :
    (r.fill index docstring body).slots[i]? = some (if index = i then
      { slot with docstring := docstring, body := some body } else slot) := by
  simp only [fill, List.getElem?_modify, h]
  split <;> rfl

theorem getElem?_of_fill {index : Nat} {docstring : Option String} {body : ModelBody} {i : Nat}
    {slot' : Slot} (h : (r.fill index docstring body).slots[i]? = some slot') :
    ∃ slot, r.slots[i]? = some slot ∧ slot' = if index = i then
      { slot with docstring := docstring, body := some body } else slot := by
  simp only [fill, List.getElem?_modify] at h
  obtain ⟨slot, hs, heq⟩ := Option.map_eq_some_iff.1 h
  refine ⟨slot, hs, heq.symm.trans ?_⟩
  split <;> rfl

theorem extends_fill {index : Nat} {docstring : Option String} {body : ModelBody} :
    r.Extends (r.fill index docstring body) := by
  refine ⟨fun _ _ h => h, fun _ _ h => h, fun i slot hs => ⟨_, getElem?_fill hs, ?_, ?_⟩⟩
  · split <;> rfl
  · split <;> rfl

/-- **A registry that evolves extends what it was.** -/
theorem Evolves.extends (h : r.Evolves naming G r') : r.Extends r' := by
  induction h with
  | refl r => exact .refl r
  | trans _ _ ih ih' => exact ih.trans ih'
  | inline hn hown hnew hname hw h ih =>
    rw [hw] at ih
    exact ((extends_reserveInline naming _ _ hnew).trans ih).trans extends_fill

/-! ### Models that are found -/

/-- The component has a model of the name. -/
def HasModel (r : Registry) (c name : String) : Prop :=
  ∃ (i : Nat) (slot : Slot), Table.get? r.components c = some i ∧ r.slots[i]? = some slot ∧
    slot.name = name

/-- The node of the serial number has a model of the name. -/
def HasInline (r : Registry) (serial : Nat) (name : String) : Prop :=
  ∃ (i : Nat) (slot : Slot), Table.get? r.inlined serial = some i ∧ r.slots[i]? = some slot ∧
    slot.name = name

/-- All components that nodes of a kind refer to have models, and every slot that is looked up is
there. -/
structure Ready (G : Node → Prop) (r : Registry) : Prop where
  models : ∀ n, G n → ∀ c, n.name = some c ∨ n.shape = .backRef c → ∃ name, r.HasModel c name
  inlined : ∀ serial i, Table.get? r.inlined serial = some i → ∃ slot, r.slots[i]? = some slot

theorem Extends.hasModel (h : r.Extends r') {c name : String} (hc : r.HasModel c name) :
    r'.HasModel c name := by
  obtain ⟨i, slot, hi, hs, rfl⟩ := hc
  obtain ⟨slot', hs', hname, -⟩ := h.keeps i slot hs
  exact ⟨i, slot', h.components c i hi, hs', hname⟩

theorem Extends.hasInline (h : r.Extends r') {serial : Nat} {name : String}
    (hc : r.HasInline serial name) : r'.HasInline serial name := by
  obtain ⟨i, slot, hi, hs, rfl⟩ := hc
  obtain ⟨slot', hs', hname, -⟩ := h.keeps i slot hs
  exact ⟨i, slot', h.inlined serial i hi, hs', hname⟩

theorem HasModel.componentModel? {c name : String} (h : r.HasModel c name) :
    r.componentModel? c = some name := by
  obtain ⟨i, slot, hi, hs, rfl⟩ := h
  simp [Registry.componentModel?, nameAt, hi, hs]

theorem HasModel.mem {c name : String} (h : r.HasModel c name) : name ∈ r.slots.map Slot.name := by
  obtain ⟨i, slot, -, hs, rfl⟩ := h
  exact List.mem_map_of_mem (List.mem_of_getElem? hs)

theorem HasInline.mem {serial : Nat} {name : String} (h : r.HasInline serial name) :
    name ∈ r.slots.map Slot.name := by
  obtain ⟨i, slot, -, hs, rfl⟩ := h
  exact List.mem_map_of_mem (List.mem_of_getElem? hs)

/-- The slot that is reserved for a node has the name that is said. -/
theorem hasInline_reserveInline {serial : Nat} {hint location : String}
    (hnew : Table.get? r.inlined serial = none) :
    (r.reserveInline naming serial hint location).2.1.HasInline serial
      (r.reserveInline naming serial hint location).1.name := by
  obtain ⟨name, scope, findings, -, hreserved⟩ :=
    reserveInline_new naming hint location hnew
  rw [hreserved]
  exact ⟨r.size, _, by simp [Table.get?_insert], getElem?_size_of_added rfl, rfl⟩

/-- A slot that is reserved is there. -/
theorem Ready.reserveInline (h : r.Ready G) {serial : Nat} {hint location : String}
    (hnew : Table.get? r.inlined serial = none) :
    (r.reserveInline naming serial hint location).2.1.Ready G := by
  have hextends := extends_reserveInline naming hint location hnew
  obtain ⟨name, scope, findings, -, hreserved⟩ :=
    reserveInline_new naming hint location hnew
  refine ⟨fun n hn c hc => (h.models n hn c hc).imp fun _ => hextends.hasModel,
    fun serial' i hi => ?_⟩
  rw [hreserved] at hi ⊢
  rw [Table.get?_insert] at hi
  split at hi
  · rw [Option.some.injEq] at hi
    subst hi
    exact ⟨_, getElem?_size_of_added rfl⟩
  · obtain ⟨slot, hs⟩ := h.inlined serial' i hi
    exact ⟨slot, getElem?_of_added rfl hs⟩

theorem Ready.fill (h : r.Ready G) {index : Nat} {docstring : Option String} {body : ModelBody} :
    (r.fill index docstring body).Ready G := by
  refine ⟨fun n hn c hc => (h.models n hn c hc).imp fun _ => extends_fill.hasModel,
    fun serial i hi => ?_⟩
  obtain ⟨slot, hs⟩ := h.inlined serial i hi
  exact ⟨_, getElem?_fill hs⟩

/-- **A registry that is ready stays so.** -/
theorem Evolves.ready (h : r.Evolves naming G r') (hr : r.Ready G) : r'.Ready G := by
  induction h with
  | refl r => exact hr
  | trans _ _ ih ih' => exact ih' (ih hr)
  | inline hn hown hnew hname hw h ih =>
    rw [hw] at ih
    exact (ih (hr.reserveInline hnew)).fill

end Registry

end ApiBinding
