import ApiBinding.Proofs.Compilation.Slots

/-!
# The models of components

A component has one slot, which is reserved before any body is made.  The body of its model
is made once the node of the component is known, and it is final: the slots of components
change in no other way.

## Main definitions

* `Registry.Keyed` — the slots of components are those that are registered for them.
* `Registry.Bodied` — a component has a model with a body of some kind.
* `MadeFrom` — a body that is made from a node of some kind.
* `ModelOf` — the one model of a component among finished models.

## Main results

* `Registry.Grows.bodied` — a body that was made stays.
* `Registry.Bodied.model` — the finished model has the body that was made.
-/

namespace ApiBinding

namespace Registry

/-- The slots of components are those that are registered for them. -/
structure Keyed (r : Registry) : Prop where
  slot : ∀ c i, Table.get? r.components c = some i →
    ∃ slot : Slot, r.slots[i]? = some slot ∧ slot.sourceName = some c
  component : ∀ (i : Nat) (slot : Slot) (c : String), r.slots[i]? = some slot →
    slot.sourceName = some c → Table.get? r.components c = some i

/-- The component has a name. -/
def Named (r : Registry) (c : String) : Prop := (Table.get? r.components c).isSome

/-- The component has a model with a body of the given kind. -/
def Bodied (r : Registry) (c : String) (B : ModelBody → Prop) : Prop :=
  ∃ (i : Nat) (slot : Slot) (body : ModelBody), Table.get? r.components c = some i ∧
    r.slots[i]? = some slot ∧ slot.body = some body ∧ B body

variable {r r' : Registry} {c : String} {B : ModelBody → Prop}

theorem keyed_empty : Keyed {} := ⟨by simp, by simp⟩

/-! ### Growth -/

theorem Grows.keyed (h : r.Grows r') (hr : r.Keyed) : r'.Keyed := by
  refine ⟨fun c i hi => ?_, fun i slot' c hs hc => ?_⟩
  · rw [h.components] at hi
    obtain ⟨slot, hs, hc⟩ := hr.slot c i hi
    obtain ⟨slot', hs', hname, -⟩ := h.keeps i slot hs
    exact ⟨slot', hs', hname.trans hc⟩
  · rw [h.components]
    cases hm : r.slots[i]? with
    | none =>
      rw [h.fresh i slot' hm hs] at hc
      simp at hc
    | some slot =>
      obtain ⟨slot'', hs'', hname, -⟩ := h.keeps i slot hm
      rw [hs, Option.some.injEq] at hs''
      exact hr.component i slot c hm (by rw [← hname, ← hs'', hc])

theorem Grows.named (h : r.Grows r') (hr : r.Named c) : r'.Named c := by
  unfold Named
  rw [h.components]
  exact hr

/-- **A body that was made stays.** -/
theorem Grows.bodied (h : r.Grows r') (hkeyed : r.Keyed) (hr : r.Bodied c B) :
    r'.Bodied c B := by
  obtain ⟨i, slot, body, hi, hs, hbody, hB⟩ := hr
  obtain ⟨slot₁, hs₁, hc⟩ := hkeyed.slot c i hi
  rw [hs, Option.some.injEq] at hs₁
  obtain ⟨slot', hs', -, hkeep⟩ := h.keeps i slot hs
  have heq : slot' = slot := hkeep (by rw [hs₁, hc]; rfl)
  exact ⟨i, slot', body, by rw [h.components, hi], hs', by rw [heq, hbody], hB⟩

/-! ### Names -/

theorem named_of_componentModel? {name : String} (h : r.componentModel? c = some name) :
    r.Named c := by
  unfold componentModel? at h
  unfold Named
  cases hc : Table.get? r.components c with
  | none => simp [hc] at h
  | some i => rfl

/-- Reserving a name keeps the slots in order and leaves the component with a name. -/
theorem reserveComponent_keyed (naming : NamingConfig) (hr : r.Keyed) (c : String) :
    (r.reserveComponent naming c).2.1.Keyed ∧ (r.reserveComponent naming c).2.1.Named c ∧
      ∀ c', r.Named c' → (r.reserveComponent naming c).2.1.Named c' := by
  unfold reserveComponent
  cases hm : r.componentModel? c with
  | some name => exact ⟨hr, named_of_componentModel? hm, fun _ h => h⟩
  | none =>
    have hnone : Table.get? r.components c = none := by
      simpa [componentModel?] using hm
    refine ⟨⟨fun c' i hi => ?_, fun i slot c' hs hc => ?_⟩, ?_, fun c' h => ?_⟩
    · -- The new slot is the last one; the others stand where they stood.
      simp only [addSlot, Table.get?_insert, size] at hi ⊢
      split at hi
      · rename_i hcc
        rw [Option.some.injEq] at hi
        subst hcc hi
        exact ⟨_, List.getElem?_concat_length, rfl⟩
      · obtain ⟨slot, hs, hname⟩ := hr.slot c' i hi
        have hlt : i < r.slots.length := (List.getElem?_eq_some_iff.1 hs).1
        exact ⟨slot, by rw [List.getElem?_append_left hlt, hs], hname⟩
    · simp only [addSlot, Table.get?_insert, size] at hs ⊢
      by_cases hlt : i < r.slots.length
      · rw [List.getElem?_append_left hlt] at hs
        have hi := hr.component i slot c' hs hc
        split
        · -- The component had no slot before.
          rename_i hcc
          rw [← hcc, hnone] at hi
          simp at hi
        · exact hi
      · rw [List.getElem?_append_right (Nat.le_of_not_lt hlt)] at hs
        have hi : i = r.slots.length := by
          have := (List.getElem?_eq_some_iff.1 hs).1
          simp only [List.length_singleton] at this
          omega
        subst hi
        rw [Nat.sub_self, List.getElem?_cons_zero, Option.some.injEq] at hs
        rw [← hs] at hc
        simp only [Option.some.injEq] at hc
        simp [hc]
    · simp [Named, Table.get?_insert]
    · unfold Named at h ⊢
      simp only [Table.get?_insert]
      split
      · rfl
      · exact h

/-! ### Bodies -/

/-- Filling the slot of a component keeps the slots in order; the component has the body, and
the bodies of the others stay. -/
theorem fillComponent_keyed (hr : r.Keyed) (hnamed : r.Named c) (docstring : Option String)
    (body : ModelBody) :
    (r.fillComponent c docstring body).Keyed ∧
      (r.fillComponent c docstring body).components = r.components ∧
      (B body → (r.fillComponent c docstring body).Bodied c B) ∧
      ∀ c' B', c' ≠ c → r.Bodied c' B' → (r.fillComponent c docstring body).Bodied c' B' := by
  obtain ⟨index, hindex⟩ := Option.isSome_iff_exists.1 hnamed
  have hfill : r.fillComponent c docstring body = r.fill index docstring body := by
    simp [fillComponent, hindex]
  obtain ⟨slot, hslot, hname⟩ := hr.slot c index hindex
  rw [hfill]
  refine ⟨⟨fun c' i hi => ?_, fun i s c' hs hc => ?_⟩, rfl, fun hB => ?_, ?_⟩
  · obtain ⟨s, hs, hc⟩ := hr.slot c' i hi
    by_cases hii : index = i
    · subst hii
      exact ⟨{ s with docstring := docstring, body := some body }, by simp [fill, hs], hc⟩
    · exact ⟨s, by simp [fill, hii, hs], hc⟩
  · simp only [fill, List.getElem?_modify] at hs
    obtain ⟨s', hs', heq⟩ := Option.map_eq_some_iff.1 hs
    refine hr.component i s' c' hs' ?_
    rw [← hc, ← heq]
    split <;> rfl
  · exact ⟨index, { slot with docstring := docstring, body := some body }, body, hindex,
      by simp [fill, hslot], rfl, hB⟩
  · rintro c' B' hne ⟨i, s, b, hi, hs, hb, hB⟩
    -- Two components do not share a slot.
    have hii : index ≠ i := by
      rintro rfl
      obtain ⟨s', hs', hc'⟩ := hr.slot c' index hi
      rw [hslot, Option.some.injEq] at hs'
      rw [← hs', hname, Option.some.injEq] at hc'
      exact hne hc'.symm
    exact ⟨i, s, b, hi, by simp [fill, hii, hs], hb, hB⟩

end Registry

theorem Typing.pure_apply {α : Type} (a : α) (w : Workbench) : (pure a : Typing α) w = (a, w) := rfl

/-- What filling the model of a component does to the registry: the body is made, and then its
slot is filled. -/
theorem Typing.fillComponent_registry {naming : NamingConfig} {c name location : String}
    {n : Node} {w : Workbench} (h : w.registry.componentModel? c = some name) :
    (fillComponent naming c n location w).2.registry =
      (modelBody naming n name location w).2.registry.fillComponent c n.description
        (modelBody naming n name location w).1 := by
  unfold fillComponent
  have hfound : ∀ rest : Option String → Typing Unit,
      (componentModel? c >>= rest) w = rest (some name) w := fun rest => by
    rw [← h]
    rfl
  rw [hfound]
  rfl

/-- The model of a component without a name is not filled. -/
theorem Typing.fillComponent_unnamed {naming : NamingConfig} {c location : String} {n : Node}
    {w : Workbench} (h : w.registry.componentModel? c = none) :
    fillComponent naming c n location w = ((), w) := by
  unfold fillComponent
  have hfound : ∀ rest : Option String → Typing Unit,
      (componentModel? c >>= rest) w = rest none w := fun rest => by
    rw [← h]
    rfl
  rw [hfound]
  rfl

/-- The body is made from a node with the property. -/
def MadeFrom (naming : NamingConfig) (P : Node → Prop) (body : ModelBody) : Prop :=
  ∃ (n : Node) (name location : String) (w : Workbench),
    P n ∧ (Typing.modelBody naming n name location w).1 = body

/-- The model is the one of the component. -/
structure ModelOf (models : List Model) (c : String) (m : Model) : Prop where
  mem : m ∈ models
  sourceName : m.sourceName = some c
  unique : ∀ m' ∈ models, m'.sourceName = some c → m' = m

/-- Every slot becomes a finished model. -/
theorem Registry.exists_finish {r : Registry} {slot : Slot} (h : slot ∈ r.slots) :
    ∃ m ∈ r.finish, m.name = slot.name ∧ m.sourceName = slot.sourceName ∧
      m.body = slot.body.getD (.alias .any) :=
  ⟨_, List.mem_map_of_mem (List.mem_map_of_mem h), rfl, rfl, rfl⟩

/-- The slot of a component becomes the model of the component. -/
theorem Registry.Keyed.modelOf {r : Registry} {c : String} {i : Nat} {slot : Slot}
    (hkeyed : r.Keyed) (hi : Table.get? r.components c = some i) (hs : r.slots[i]? = some slot) :
    ∃ m, ModelOf r.finish c m ∧ m.name = slot.name ∧ m.body = slot.body.getD (.alias .any) := by
  obtain ⟨slot', hs', hname⟩ := hkeyed.slot c i hi
  rw [hs, Option.some.injEq] at hs'
  subst hs'
  -- Every model for the component comes from the one slot that is registered for it.
  refine ⟨_, ⟨List.mem_map_of_mem (List.mem_map_of_mem (List.mem_of_getElem? hs)), hname,
    fun m' hm' hc => ?_⟩, rfl, rfl⟩
  obtain ⟨m₁, hm₁, rfl⟩ := List.mem_map.1 hm'
  obtain ⟨s₁, hs₁, rfl⟩ := List.mem_map.1 hm₁
  obtain ⟨j, hj⟩ := List.mem_iff_getElem?.1 hs₁
  have hji := hkeyed.component j s₁ c hj hc
  rw [hi, Option.some.injEq] at hji
  rw [← hji, hs, Option.some.injEq] at hj
  rw [hj]

/-- **The finished model has the body that was made.** -/
theorem Registry.Bodied.model {r : Registry} {c : String} {B : ModelBody → Prop}
    (hkeyed : r.Keyed) (h : r.Bodied c B) : ∃ m, ModelOf r.finish c m ∧ B m.body := by
  obtain ⟨i, slot, body, hi, hs, hbody, hB⟩ := h
  obtain ⟨m, hm, -, heq⟩ := hkeyed.modelOf hi hs
  rw [hbody, Option.getD_some] at heq
  exact ⟨m, hm, heq ▸ hB⟩

/-- The finished models have the names of the slots. -/
theorem Registry.finish_names (r : Registry) :
    r.finish.map Model.name = r.slots.map Slot.name := by
  simp only [finish, List.map_map]
  rfl

/-- Every finished model is made of a slot. -/
theorem Registry.mem_finish {r : Registry} {m : Model} (h : m ∈ r.finish) :
    ∃ slot ∈ r.slots, m.sourceName = slot.sourceName ∧
      m.body = slot.body.getD (.alias .any) := by
  obtain ⟨m₁, hm₁, rfl⟩ := List.mem_map.1 h
  obtain ⟨slot, hslot, rfl⟩ := List.mem_map.1 hm₁
  exact ⟨slot, hslot, rfl, rfl⟩

end ApiBinding
