import ApiBinding.Proofs.Compilation.Closure
import ApiBinding.Proofs.Compilation.Names

/-!
# Models in order of discovery

The slots of the components come first, in document order, since all of them are reserved before
the first body is made.  Slots for other schemas are appended while bodies are made, which may be
in the middle of making the body of another slot, so that at most moments some slots are reserved
and not yet filled.  At the end none is left.

## Main definitions

* `Registry.Lists` — the slots of some components come first, followed by slots that are not for
  components.
* `Registry.Inlines` — slots that are not for components are those of nodes, whose models are no
  other names.

## Main results

* `Registry.Grows.lists`, `Registry.Evolves.inlines` — registries that evolve keep to this.
* `compileAll_discovers` — what the registry at the end of a compilation lists.
* `compile_discovery` — **models come in order of discovery, and each of them was made.**
-/

namespace ApiBinding

namespace Registry

variable {naming : NamingConfig} {r r' : Registry} {done : List String} {c : String}

/-! ### The order of slots -/

/-- The components have the first slots, in this order, and no other slot is for a component. -/
def Lists (done : List String) (r : Registry) : Prop :=
  ∃ k, r.slots.map Slot.sourceName = done.map some ++ List.replicate k none

/-- **Slots that are added come last**, and none of them is for a component. -/
theorem Grows.lists (h : r.Grows r') (hr : r.Lists done) : r'.Lists done := by
  obtain ⟨k, hk⟩ := hr
  have hlength : r.slots.length ≤ r'.slots.length := by
    by_contra hlt
    obtain ⟨slot', hs', -⟩ := h.keeps r'.slots.length _
      (List.getElem?_eq_getElem (Nat.lt_of_not_le hlt))
    simp at hs'
  have hmore : r'.slots.map Slot.sourceName =
      r.slots.map Slot.sourceName ++ List.replicate (r'.slots.length - r.slots.length) none := by
    refine List.ext_getElem? fun i => ?_
    rw [List.getElem?_map]
    cases hi : r.slots[i]? with
    | some slot =>
      obtain ⟨slot', hs', hsource, -⟩ := h.keeps i slot hi
      have hlt : i < (r.slots.map Slot.sourceName).length := by
        rw [List.length_map]
        exact (List.getElem?_eq_some_iff.1 hi).1
      rw [hs', List.getElem?_append_left hlt, List.getElem?_map, hi, Option.map_some,
        Option.map_some, hsource]
    | none =>
      have hge : r.slots.length ≤ i := List.getElem?_eq_none_iff.1 hi
      rw [List.getElem?_append_right (by rwa [List.length_map]), List.length_map,
        List.getElem?_replicate]
      cases hi' : r'.slots[i]? with
      | some slot' =>
        have hlt : i < r'.slots.length := (List.getElem?_eq_some_iff.1 hi').1
        rw [if_pos (by omega), Option.map_some, h.fresh i slot' hi hi']
      | none =>
        have hge' : r'.slots.length ≤ i := List.getElem?_eq_none_iff.1 hi'
        rw [if_neg (by omega), Option.map_none]
  exact ⟨k + (r'.slots.length - r.slots.length), by
    rw [hmore, hk, List.append_assoc, List.replicate_append_replicate]⟩

theorem sourceNames_fill {index : Nat} {docstring : Option String} {body : ModelBody} :
    (r.fill index docstring body).slots.map Slot.sourceName = r.slots.map Slot.sourceName := by
  refine List.ext_getElem? fun i => ?_
  simp only [fill, List.getElem?_map, List.getElem?_modify]
  cases r.slots[i]? with
  | none => rfl
  | some slot => by_cases hi : index = i <;> simp [hi]

theorem Lists.fill {index : Nat} {docstring : Option String} {body : ModelBody}
    (h : r.Lists done) : (r.fill index docstring body).Lists done := by
  obtain ⟨k, hk⟩ := h
  exact ⟨k, sourceNames_fill.trans hk⟩

theorem Lists.fillComponent {docstring : Option String} {body : ModelBody}
    (h : r.Lists done) : (r.fillComponent c docstring body).Lists done := by
  unfold Registry.fillComponent
  split
  · exact h.fill
  · exact h

/-! ### Slots that are not for components -/

/-- A slot that is found for a node is not for a component; the model in such a slot is no other
name for a type. -/
structure Inlines (r : Registry) : Prop where
  slot : ∀ serial i, Table.get? r.inlined serial = some i →
    ∃ slot, r.slots[i]? = some slot ∧ slot.sourceName = none
  body : ∀ (i : Nat) (slot : Slot), r.slots[i]? = some slot → slot.sourceName = none →
    ∀ t, slot.body ≠ some (.alias t)

/-- A slot that is reserved for a node has no body yet. -/
theorem Inlines.reserveInline {serial : Nat} {hint location : String} (h : r.Inlines)
    (hnew : Table.get? r.inlined serial = none) :
    (r.reserveInline naming serial hint location).2.1.Inlines := by
  obtain ⟨name, scope, findings, -, hreserved⟩ := reserveInline_new naming hint location hnew
  rw [hreserved]
  refine ⟨fun serial' i hi => ?_, fun i slot hs hsource t => ?_⟩
  · rw [Table.get?_insert] at hi
    split at hi
    · rw [Option.some.injEq] at hi
      subst hi
      exact ⟨_, getElem?_size_of_added rfl, rfl⟩
    · obtain ⟨slot, hs, hsource⟩ := h.slot serial' i hi
      exact ⟨slot, getElem?_of_added rfl hs, hsource⟩
  · rcases added_or_old rfl hs with hold | ⟨-, rfl⟩
    · exact h.body i slot hold hsource t
    · simp

theorem Inlines.fill {index : Nat} {docstring : Option String} {body : ModelBody}
    (h : r.Inlines)
    (hbody : ∀ slot, r.slots[index]? = some slot → slot.sourceName = none →
      ∀ t, body ≠ .alias t) : (r.fill index docstring body).Inlines := by
  refine ⟨fun serial i hi => ?_, fun i slot hs hsource t => ?_⟩
  · obtain ⟨slot, hs, hsource⟩ := h.slot serial i hi
    refine ⟨_, getElem?_fill hs, ?_⟩
    split <;> exact hsource
  · obtain ⟨old, hold, rfl⟩ := getElem?_of_fill hs
    split at hsource
    · rename_i hi
      subst hi
      rw [if_pos rfl, ne_eq, Option.some.injEq]
      exact hbody old hold hsource t
    · rename_i hi
      rw [if_neg hi]
      exact h.body i old hold hsource t

end Registry

/-- The body of a node with a body of its own is no other name for a type. -/
theorem Typing.modelBody_ne_alias (naming : NamingConfig) {n : Node} (h : n.shape.isAlias = false)
    (modelName location : String) :
    Returns (modelBody naming n modelName location) fun body => ∀ t, body ≠ .alias t := by
  unfold modelBody
  cases hshape : n.shape with
  | object properties required additional =>
    have hne : properties.isEmpty = false := by simpa [hshape, Shape.isAlias] using h
    simp only [hne, Bool.false_eq_true, if_false]
    exact (returns_any _).bind fun _ _ => (returns_any _).bind fun _ _ =>
      returns_pure fun _ => by simp
  | enumeration values => exact (returns_any _).bind fun _ _ => returns_pure fun _ => by simp
  | union variants tagging =>
    have hkeeps : ¬ (tagging = .untagged ∧ variants.length ≤ 1) := by
      simpa [hshape, Shape.isAlias] using h
    simp only [hkeeps, if_false]
    exact (returns_any _).bind fun _ _ => returns_pure fun _ => by simp
  | _ => simp [hshape, Shape.isAlias] at h

namespace Registry

/-- **Only slots for components get other names as models.** -/
theorem Evolves.inlines {naming : NamingConfig} {G : Node → Prop} {r r' : Registry}
    (h : r.Evolves naming G r') (hr : r.Inlines) : r'.Inlines := by
  induction h with
  | refl r => exact hr
  | trans _ _ ih ih' => exact ih' (ih hr)
  | @inline r w n hint location name docstring hn hown hnew hname hw h ih =>
    have hreserved : w.registry.Inlines := hw ▸ hr.reserveInline hnew
    have hbody := Shape.isAlias_of_getsModel hown.shape
    exact (ih hreserved).fill fun _ _ _ => Typing.modelBody_ne_alias naming hbody name location w

/-! ### Runs -/

/-- The slots of components are registered, they come first in this order, and the others are for
nodes. -/
structure Discovers (done : List String) (r : Registry) : Prop where
  keyed : r.Keyed
  lists : r.Lists done
  inlines : r.Inlines

variable {naming : NamingConfig} {r r' : Registry} {done : List String} {c : String}

theorem Evolves.discovers {G : Node → Prop} (h : r.Evolves naming G r') (hr : r.Discovers done) :
    r'.Discovers done :=
  ⟨h.grows.keyed hr.keyed, h.grows.lists hr.lists, h.inlines hr.inlines⟩

/-- The components that are listed have slots. -/
theorem Discovers.named (h : r.Discovers done) (hc : c ∈ done) : r.Named c := by
  obtain ⟨k, hk⟩ := h.lists
  have hmem : some c ∈ r.slots.map Slot.sourceName := by
    rw [hk]
    exact List.mem_append_left _ (List.mem_map_of_mem hc)
  obtain ⟨slot, hslot, hsource⟩ := List.mem_map.1 hmem
  obtain ⟨i, hi⟩ := List.mem_iff_getElem?.1 hslot
  rw [Named, h.keyed.component i slot c hi hsource]
  rfl

/-- The slot of a component may be filled with any body. -/
theorem Discovers.fillComponent (h : r.Discovers done) (hc : c ∈ done)
    (docstring : Option String) (body : ModelBody) :
    (r.fillComponent c docstring body).Discovers done := by
  have hnamed := h.named hc
  refine ⟨(fillComponent_keyed (B := fun _ => True) h.keyed hnamed docstring body).1,
    h.lists.fillComponent, ?_⟩
  obtain ⟨index, hindex⟩ := Option.isSome_iff_exists.1 hnamed
  obtain ⟨slot, hslot, hsource⟩ := h.keyed.slot c index hindex
  have hfill : r.fillComponent c docstring body = r.fill index docstring body := by
    simp [Registry.fillComponent, hindex]
  rw [hfill]
  refine h.inlines.fill fun slot' hslot' hnone => ?_
  rw [hslot, Option.some.injEq] at hslot'
  rw [← hslot', hsource] at hnone
  simp at hnone

end Registry

open Build

section Runs

variable {d : Document} {naming : NamingConfig}

/-- The slots of the components that are done, and no other slot. -/
structure Listed (done : List String) (r : Registry) : Prop where
  keyed : r.Keyed
  slots : r.slots.map Slot.sourceName = done.map some
  inlined : r.inlined = []

/-- A component that is not listed gets the next slot. -/
theorem Listed.reserveComponent {r : Registry} {done : List String} (h : Listed done r)
    (c : String) : Listed (addNew done c) (r.reserveComponent naming c).2.1 := by
  have hkeyed := (Registry.reserveComponent_keyed naming h.keyed c).1
  unfold Registry.reserveComponent at hkeyed ⊢
  unfold addNew
  by_cases hc : c ∈ done
  · have hmem : some c ∈ r.slots.map Slot.sourceName := by
      rw [h.slots]
      exact List.mem_map_of_mem hc
    obtain ⟨slot, hslot, hsource⟩ := List.mem_map.1 hmem
    obtain ⟨i, hi⟩ := List.mem_iff_getElem?.1 hslot
    have hsome := h.keyed.component i slot c hi hsource
    simpa only [Registry.componentModel?, hsome, Option.map_some, if_pos hc] using h
  · have hnone : Table.get? r.components c = none := by
      cases hi : Table.get? r.components c with
      | none => rfl
      | some i =>
        obtain ⟨slot, hslot, hsource⟩ := h.keyed.slot c i hi
        have hmem : some c ∈ r.slots.map Slot.sourceName :=
          hsource ▸ List.mem_map_of_mem (List.mem_of_getElem? hslot)
        rw [h.slots] at hmem
        exact absurd (by simpa using hmem) hc
    simp only [Registry.componentModel?, hnone, Option.map_none, if_neg hc] at hkeyed ⊢
    refine ⟨hkeyed, ?_, h.inlined⟩
    simp [Registry.addSlot, h.slots]

theorem reserveNames_listed :
    ∀ (cs done : List String) (w : Workspace), Listed done w.registry →
      Ends (reserveNames naming cs) w (fun _ w' => Listed (extendNew done cs) w'.registry)
        fun _ _ => True
  | [], _, _, hw => hw
  | c :: rest, done, w, hw => by
    unfold reserveNames
    rw [ends_bind, ends_typing]
    exact reserveNames_listed rest (addNew done c) _ (hw.reserveComponent c)

/-- Before a body is made, the slots are those of the components. -/
theorem Listed.discovers {r : Registry} {done : List String} (h : Listed done r) :
    r.Discovers done := by
  refine ⟨h.keyed, ⟨0, by rw [h.slots]; simp⟩, fun serial i hi => ?_, fun i slot hs hsource => ?_⟩
  · simp [h.inlined] at hi
  · have hmem : none ∈ r.slots.map Slot.sourceName :=
      hsource ▸ List.mem_map_of_mem (List.mem_of_getElem? hs)
    rw [h.slots] at hmem
    simp at hmem

theorem buildBodies_discovers {named : List String} :
    ∀ cs : List String, (∀ c ∈ cs, c ∈ named) →
      Advances (fun w => w.registry.Discovers named) (fun _ => True) (buildBodies d naming cs)
        fun _ => True
  | [], _ => advances_pure trivial
  | c :: rest, hcs => by
    have hfill : ∀ n location, Advances (fun w => w.registry.Discovers named) (fun _ => True)
        (typing (Typing.fillComponent naming c n location)) fun _ => True := by
      intro n location w hw
      obtain ⟨index, hindex⟩ := Option.isSome_iff_exists.1 (hw.named (hcs c (.head _)))
      have hmodel : w.registry.componentModel? c = some (w.registry.nameAt index) := by
        simp [Registry.componentModel?, hindex]
      have hevolves := (Typing.modelBody_yields naming Node.hereditary_true (n := n) trivial
        (w.registry.nameAt index) location).adds ⟨w.registry, w.session.diagnostics⟩
      rw [ends_typing, Typing.fillComponent_registry hmodel]
      exact ⟨(hevolves.discovers hw).fillComponent (hcs c (.head _)) _ _, trivial⟩
    unfold buildBodies
    exact (advances_resolving _).bind fun n _ => (hfill n _).bind fun _ _ =>
      buildBodies_discovers rest fun c hc => hcs c (.tail _ hc)

end Runs

/-! ### Compilations -/

/-- **What the registry at the end of a compilation lists**: the components, in document order,
and after them the slots of nodes. -/
theorem compileAll_discovers (config : Config) (d : Document) :
    Ends (compileAll config d) {} (fun _ w => w.registry.Discovers (distinct d.componentNames))
      fun _ _ => True := by
  have hstart : Listed [] ({} : Workspace).registry := ⟨Registry.keyed_empty, rfl, rfl⟩
  have hstable : Stable config.naming
      (fun w => w.registry.Discovers (distinct d.componentNames)) fun _ => True :=
    stable_of_evolves Registry.Evolves.discovers
  unfold compileAll buildModels extractEndpoints
  rw [ends_bind, ends_bind]
  refine (reserveNames_listed d.componentNames [] {} hstart).mono_ok fun _ w hw => ?_
  refine (buildBodies_discovers d.componentNames (fun _ hc => mem_distinct.2 hc) w
    hw.discovers).mono_ok fun _ w' ⟨hw', _⟩ => ?_
  exact (tableEndpoints_advances (R := fun _ => True) hstable d.paths _
    (fun _ _ _ _ _ => trivial) (fun _ _ _ => advances_resolving _) w' hw').mono_ok
      fun _ _ ⟨hw'', _⟩ => hw''

/-- Only models of components are other names for types. -/
theorem Compilation.Final.component_of_alias {config : Config} {d : Document} {c : Compilation}
    {w : Workspace} (h : c.Final config d w) {m : Model} (hm : m ∈ c.interface.models) {t : TypeRef}
    (hbody : m.body = .alias t) :
    ∃ component ∈ d.componentNames, m.sourceName = some component := by
  have hdiscovers := (compileAll_discovers config d).of_ok h.run
  rw [h.models] at hm
  obtain ⟨slot, hslot, hsource, hslotbody⟩ := Registry.mem_finish hm
  obtain ⟨i, hi⟩ := List.mem_iff_getElem?.1 hslot
  obtain ⟨body, n, hsome, -⟩ := h.closing.body hslot
  rw [hslotbody, hsome, Option.getD_some] at hbody
  cases hcomponent : slot.sourceName with
  | none =>
    exact absurd (hsome.trans (hbody ▸ rfl)) (hdiscovers.inlines.body i slot hi hcomponent t)
  | some component =>
    obtain ⟨k, hk⟩ := hdiscovers.lists
    have hmem : some component ∈ w.registry.slots.map Slot.sourceName :=
      hcomponent ▸ List.mem_map_of_mem hslot
    rw [hk] at hmem
    exact ⟨component, by simpa [mem_distinct] using hmem, hsource.trans hcomponent⟩

/-- **Models come in order of discovery, and each of them was made.**  The first models are those
of the components, in document order; no later model is for a component.  At the end of the
compilation every slot has a body, which is that of the finished model, so that no model stands in
for a missing one; in particular, no later model is another name for a type. -/
theorem compile_discovery {config : Config} {d : Document} {c : Compilation}
    (hn : d.componentNames.Nodup) (h : compile config d = .ok c) :
    (∃ k, c.interface.models.map Model.sourceName =
        d.componentNames.map some ++ List.replicate k none) ∧
      (∃ w, compileAll config d {} = .ok c.interface.endpoints w ∧
        c.interface.models = w.registry.finish ∧
        w.registry.slots.map Slot.body = c.interface.models.map fun m => some m.body) ∧
      ∀ m ∈ c.interface.models, m.sourceName = none → ∀ t, m.body ≠ .alias t := by
  obtain ⟨w, hfinal⟩ := compile_final h
  have hdiscovers := (compileAll_discovers config d).of_ok hfinal.run
  rw [distinct_of_nodup hn] at hdiscovers
  have hsources : c.interface.models.map Model.sourceName =
      w.registry.slots.map Slot.sourceName := by
    rw [hfinal.models, Registry.finish, List.map_map, List.map_map]
    rfl
  refine ⟨?_, ⟨w, hfinal.run, hfinal.models, ?_⟩, fun m hm hsource t heq => ?_⟩
  · rw [hsources]
    exact hdiscovers.lists
  · rw [hfinal.models, Registry.finish, List.map_map, List.map_map]
    refine List.map_congr_left fun slot hslot => ?_
    obtain ⟨body, n, hbody, -⟩ := hfinal.closing.body hslot
    simp [Slot.toModel, Model.withMemberships, hbody]
  · obtain ⟨component, -, hcomponent⟩ := hfinal.component_of_alias hm heq
    simp [hsource] at hcomponent

/-- A shelf, with the books on it and another shelf below. -/
def shelfSchema : Schema where
  properties := [("books", { items := some { properties :=
      [("cover", { enumeration := some [.string "hard", .string "soft"] })] } }),
    ("below", { reference := some "#/components/schemas/Shelf" })]

/-- Anything, shelves, and an operation that answers with an error. -/
def shelves : Document where
  components.schemas := [("Note", {}), ("Shelf", shelfSchema)]
  paths := [("/shelves", { get := some { responses := [("404", { content :=
    [("application/json", { schema := some { properties :=
      [("reason", { declaredType := some (.single "string") })] } })] })] } })]

/-- The model of the cover is made in the middle of that of the book, and that one in the middle of
the shelf.  A note is another name for any value, as the schema says. -/
theorem compile_discovery_shelves : shelves.componentNames.Nodup ∧
    ∃ c, compile {} shelves = .ok c ∧
      (∃ k, c.interface.models.map Model.sourceName =
        shelves.componentNames.map some ++ List.replicate k none) ∧
      (∃ w, compileAll {} shelves {} = .ok c.interface.endpoints w ∧
        c.interface.models = w.registry.finish ∧
        w.registry.slots.map Slot.body = c.interface.models.map fun m => some m.body) ∧
      ∀ m ∈ c.interface.models, m.sourceName = none → ∀ t, m.body ≠ .alias t := by
  have hn : shelves.componentNames.Nodup := by decide
  obtain ⟨c, hc⟩ := compile_eq_ok {} shelves (by decide +kernel)
  exact ⟨hn, c, hc, compile_discovery hn hc⟩

end ApiBinding
