import ApiBinding.Proofs.Compilation.Closure
import ApiBinding.Proofs.Resolver.Ledgers

/-!
# Slots of nodes

A slot that is no component's is that of a node, which is found by the serial number of the node.
No two nodes have a slot in common, and none has a second slot: a node that is met again is referred
to by the name of its slot.

## Main definitions

* `Registry.Attributed` — the slots that are no components' are those of nodes of a kind.

## Main results

* `Registry.Evolves.attributed` — **a registry that evolves attributes the slots that it adds.**
* `TypeOf.attributed` — the type of a node with a slot refers to the slot.
-/

namespace ApiBinding

namespace Registry

variable {naming : NamingConfig} {G G' : Node → Prop} {opened : Nat → Prop} {r r' : Registry}

/-- The slot is that of a node of the kind, which is no component's, and it has the body of the
node. -/
def Serves (G : Node → Prop) (r : Registry) (serial : Nat) (slot : Slot) : Prop :=
  ∃ n body, G n ∧ n.Inline ∧ n.serial = serial ∧ slot.body = some body ∧
    r.Stands fun r => BodyOf r n body

/-- The slots that are no components' are found by serial numbers, one number for each; they are
those of nodes of the kind, unless they are open. -/
structure Attributed (G : Node → Prop) (opened : Nat → Prop) (r : Registry) : Prop where
  serial : ∀ (i : Nat) (slot : Slot), r.slots[i]? = some slot → slot.sourceName = none →
    ∃ serial, Table.get? r.inlined serial = some i
  slot : ∀ serial i, Table.get? r.inlined serial = some i → ∃ slot : Slot,
    r.slots[i]? = some slot ∧ slot.sourceName = none ∧ (opened i ∨ r.Serves G serial slot)
  inj : ∀ serial serial' i, Table.get? r.inlined serial = some i →
    Table.get? r.inlined serial' = some i → serial = serial'

theorem Serves.extends {serial : Nat} {slot : Slot} (h : r.Serves G serial slot)
    (hr : r.Extends r') : r'.Serves G serial slot := by
  obtain ⟨n, body, hn, hinline, hserial, hbody, hstands⟩ := h
  exact ⟨n, body, hn, hinline, hserial, hbody, hstands.extends hr⟩

theorem Attributed.mono (h : r.Attributed G opened) (hG : ∀ n, G n → G' n) :
    r.Attributed G' opened where
  serial := h.serial
  slot serial i hi := by
    obtain ⟨slot, hs, hsource, hslot⟩ := h.slot serial i hi
    refine ⟨slot, hs, hsource, hslot.imp_right ?_⟩
    rintro ⟨n, body, hn, hrest⟩
    exact ⟨n, body, hG n hn, hrest⟩
  inj := h.inj

/-- A slot that is reserved is open. -/
theorem Attributed.reserveInline {serial : Nat} {hint location : String}
    (h : r.Attributed G opened) (hnew : Table.get? r.inlined serial = none) :
    (r.reserveInline naming serial hint location).2.1.Attributed G
      fun i => opened i ∨ i = r.size := by
  have hextends := extends_reserveInline naming hint location hnew
  obtain ⟨name, scope, findings, -, hreserved⟩ :=
    reserveInline_new naming hint location hnew
  rw [hreserved] at hextends ⊢
  -- The slots that were there stand before the new one.
  have hold : ∀ serial' i, Table.get? r.inlined serial' = some i → i ≠ r.size := by
    rintro serial' i hi rfl
    obtain ⟨slot, hs, -⟩ := h.slot serial' _ hi
    exact Nat.lt_irrefl _ (List.getElem?_eq_some_iff.1 hs).1
  refine ⟨fun i slot hs hsource => ?_, fun serial' i hi => ?_, fun serial₁ serial₂ i h₁ h₂ => ?_⟩
  · rcases added_or_old rfl hs with hs | ⟨hi, rfl⟩
    · obtain ⟨serial', hi⟩ := h.serial i slot hs hsource
      exact ⟨serial', hextends.inlined serial' i hi⟩
    · exact ⟨serial, by simp [Table.get?_insert, hi]⟩
  · rw [Table.get?_insert] at hi
    split at hi
    · rw [Option.some.injEq] at hi
      exact ⟨_, hi ▸ getElem?_size_of_added rfl, rfl, .inl (.inr hi.symm)⟩
    · obtain ⟨slot, hs, hsource, hslot⟩ := h.slot serial' i hi
      exact ⟨slot, getElem?_of_added rfl hs, hsource,
        hslot.imp .inl fun hslot => hslot.extends hextends⟩
  · rw [Table.get?_insert] at h₁ h₂
    split at h₁ <;> split at h₂
    · simp_all
    · rw [Option.some.injEq] at h₁
      exact absurd h₁.symm (hold serial₂ i h₂)
    · rw [Option.some.injEq] at h₂
      exact absurd h₂.symm (hold serial₁ i h₁)
    · exact h.inj serial₁ serial₂ i h₁ h₂

/-- Filling a slot changes what is in it. -/
theorem Attributed.fill_of_slot {opened' : Nat → Prop} {index : Nat} {docstring : Option String}
    {body : ModelBody} (h : r.Attributed G opened)
    (hslot : ∀ (serial i : Nat) (slot : Slot), Table.get? r.inlined serial = some i →
      slot.sourceName = none → (opened i ∨ r.Serves G serial slot) → opened' i ∨
        (r.fill index docstring body).Serves G serial (if index = i then
          { slot with docstring := docstring, body := some body } else slot)) :
    (r.fill index docstring body).Attributed G opened' where
  serial i slot' hs hsource := by
    obtain ⟨slot, hold, rfl⟩ := getElem?_of_fill hs
    refine h.serial i slot hold ?_
    rw [← hsource]
    split <;> rfl
  slot serial i hi := by
    obtain ⟨slot, hs, hsource, hheld⟩ := h.slot serial i hi
    refine ⟨_, getElem?_fill hs, ?_, hslot serial i slot hi hsource hheld⟩
    rw [← hsource]
    split <;> rfl
  inj := h.inj

/-- A slot that is filled is that of the node. -/
theorem Attributed.fill {index : Nat} {docstring : Option String} {body : ModelBody} {n : Node}
    (h : r.Attributed G fun i => opened i ∨ i = index) (hn : G n) (hinline : n.Inline)
    (hindex : Table.get? r.inlined n.serial = some index)
    (hbody : r.Stands fun r => BodyOf r n body) :
    (r.fill index docstring body).Attributed G opened := by
  refine h.fill_of_slot fun serial i slot hi _ hheld => ?_
  by_cases heq : index = i
  · subst heq
    rw [if_pos rfl]
    exact .inr ⟨n, body, hn, hinline, h.inj _ _ _ hindex hi, rfl, hbody.extends extends_fill⟩
  · rw [if_neg heq]
    exact hheld.imp (fun ho => ho.resolve_right fun hi => heq hi.symm) fun hslot =>
      hslot.extends extends_fill

/-- The slot of a component is filled, which is that of no node. -/
theorem Attributed.fillComponent {index : Nat} {docstring : Option String} {body : ModelBody}
    {c : String} (h : r.Attributed G opened) (hkeyed : r.Keyed)
    (hindex : Table.get? r.components c = some index) :
    (r.fill index docstring body).Attributed G opened := by
  obtain ⟨component, hcomponent, hsome⟩ := hkeyed.slot c index hindex
  refine h.fill_of_slot fun serial i slot hi _ hheld => ?_
  have hne : index ≠ i := by
    rintro rfl
    obtain ⟨slot', hs', hnone, -⟩ := h.slot serial index hi
    rw [hcomponent, Option.some.injEq] at hs'
    exact absurd (hsome.symm.trans (hs' ▸ hnone)) (by simp)
  rw [if_neg hne]
  exact hheld.imp_right fun hslot => hslot.extends extends_fill

/-- **A registry that evolves attributes the slots that it adds.** -/
theorem Evolves.attributed (hG : Node.Hereditary G) (h : r.Evolves naming G r') (hr : r.Ready G)
    (hf : r.Attributed G opened) : r'.Attributed G opened := by
  induction h generalizing opened with
  | refl r => exact hf
  | trans h h' ih ih' => exact ih' (h.ready hr) (ih hr hf)
  | @inline r w n hint location name docstring hn hown hnew hname hw h ih =>
    have hready : w.registry.Ready G := hw ▸ hr.reserveInline hnew
    have hinside := ih hready (hw ▸ hf.reserveInline hnew)
    -- A node of a component with a model does not get another one.
    have hunnamed : n.name = none := by
      by_contra hsome
      obtain ⟨c, hc⟩ := Option.ne_none_iff_exists'.1 hsome
      obtain ⟨model, hmodel⟩ := hr.models n hn c (.inl hc)
      exact absurd (hmodel.componentModel?.symm.trans (hown.component c hc)) (by simp)
    have hreserved : Table.get? w.registry.inlined n.serial = some r.size := by
      obtain ⟨reserved, scope, findings, -, heq⟩ := reserveInline_new naming hint location hnew
      rw [hw, heq]
      simp [Table.get?_insert]
    exact hinside.fill hn ⟨hunnamed, hown.shape⟩ (h.extends.inlined _ _ hreserved)
      ((Typing.modelBody_yields naming hG hn name location).result w hready)

end Registry

/-- **The type of a node with a slot refers to the slot**, whatever the type is part of. -/
theorem TypeOf.attributed {r : Registry} {n : Node} {t : TypeRef} (h : TypeOf r n t)
    (hn : n.Inline) : ∃ i slot, Table.get? r.inlined n.serial = some i ∧ r.slots[i]? = some slot ∧
      t = (TypeRef.reference slot.name).orNull n.nullable := by
  cases h with
  | component hname => exact absurd (hn.name.symm.trans hname) (by simp)
  | shape _ h =>
    have hshape := hn.shape
    generalize n.shape = shape, n.serial = serial at h hshape
    cases h with
    | model _ h =>
      obtain ⟨i, slot, hi, hs, rfl⟩ := h
      exact ⟨i, slot, hi, hs, rfl⟩
    | _ => simp [Shape.getsModel] at hshape

end ApiBinding
