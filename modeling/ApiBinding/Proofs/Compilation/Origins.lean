import ApiBinding.Proofs.Compilation.Recording

/-!
# The origins of models

A model that is no component's is made for a schema that stands somewhere in the description, and
every type that stands for the node of that schema refers to the model by its name.  Two such models
are made for two occurrences of schemas, unless an occurrence is resolved more than once: a
component is expanded again where it leads to a composition of itself, a part of a component is
expanded on its own if the node of the component does not lead to it, and a parameter that is shared
by the operations of a path belongs to each of them.

## Main definitions

* `Document.Places` — where the schema stands that is resolved from an entry.
* `Document.Repeats` — the occurrences that are resolved more than once.
* `Document.Synthesizes` — the model is made for an occurrence.

## Main results

* `repeats_of_occurs` — two sites with one occurrence are sites of an occurrence that repeats.
* `compile_origins` — **models have origins of their own.**
-/

namespace ApiBinding

/-! ### Occurrences that repeat -/

/-- The occurrences that are resolved more than once. -/
inductive Document.Repeats (config : Config) (d : Document) : Occurrence → Prop where
  /-- The component leads to a composition of itself, for which it is expanded again. -/
  | inherited {c : String} {steps : List Step} (h : d.Inherited (Pointer.component c)) :
      Repeats config d ⟨.component c, steps⟩
  /-- A pointer leads to a part of the component that is not found in the node of the component. -/
  | part {p c token : String} {tokens : List String} {s : Schema} {before steps : List Step}
      (hp : d.Asks config p) (htokens : Pointer.tokens? p = some (c, token :: tokens))
      (hpart : d.Detached p c (token :: tokens)) (hs : d.schema? c = some s)
      (h : s.Addresses (token :: tokens) before) :
      Repeats config d ⟨.component c, before ++ steps⟩
  /-- A pointer to the component is spelled in another way. -/
  | spelled {p c : String} {steps : List Step} (hp : d.Asks config p) (hc : Pointer.Whole p c)
      (hne : p ≠ Pointer.component c) : Repeats config d ⟨.component c, steps⟩
  /-- A schema on the way lists a type name twice. -/
  | listed {root : Root} {before steps : List Step} {s : Schema} (hs : d.Stands ⟨root, before⟩ s)
      (h : ¬ s.typeNames.Nodup) : Repeats config d ⟨root, before ++ steps⟩
  /-- The parameter is shared by two operations that do not declare it again. -/
  | shared {i : Nat} {path : String} {item : PathItem} {method method' : HttpMethod}
      {op op' : Operation} {key : String × String} {steps : List Step}
      (hitem : d.paths[i]? = some (path, item)) (hne : method ≠ method')
      (hop : item.operation? method = some op) (hop' : item.operation? method' = some op')
      (hkey : key ∉ op.parameters.map Parameter.key)
      (hkey' : key ∉ op'.parameters.map Parameter.key) : Repeats config d ⟨.shared i key, steps⟩

/-! ### The places of entries -/

/-- Where the schema stands that is resolved from an entry. -/
inductive Document.Places (config : Config) (d : Document) : Entry → Occurrence → Prop where
  | pointer {p c : String} {tokens : List String} {s : Schema} {steps : List Step}
      (htokens : Pointer.tokens? p = some (c, tokens)) (hs : d.schema? c = some s)
      (h : s.Addresses tokens steps) (ht : s.descend? steps = d.addressed? p) :
      Places config d (.pointer p) ⟨.component c, steps⟩
  | own {i : Nat} {path : String} {item : PathItem} {method : HttpMethod} {op : Operation}
      {key : String × String} (hitem : d.paths[i]? = some (path, item))
      (hop : item.operation? method = some op) (hkey : key ∈ op.parameters.map Parameter.key) :
      Places config d (.parameter i method key) ⟨.parameter i method key, []⟩
  | shared {i : Nat} {path : String} {item : PathItem} {method : HttpMethod} {op : Operation}
      {key : String × String} (hitem : d.paths[i]? = some (path, item))
      (hop : item.operation? method = some op) (hkey : key ∉ op.parameters.map Parameter.key) :
      Places config d (.parameter i method key) ⟨.shared i key, []⟩
  | request {i : Nat} {path : String} {item : PathItem} {method : HttpMethod} {op : Operation}
      {body : RequestBody} {media : String} {s : Schema} (hitem : d.paths[i]? = some (path, item))
      (hop : item.operation? method = some op) (hbody : op.requestBody = some body)
      (hm : selectMedia config.media.preferred body.content = some (media, s)) :
      Places config d (.request i method) ⟨.request i method media, []⟩
  | response {i index : Nat} {path key : String} {item : PathItem} {method : HttpMethod}
      {op : Operation} {response : Response} {media : String} {s : Schema}
      (hitem : d.paths[i]? = some (path, item)) (hop : item.operation? method = some op)
      (hresponse : op.responses[index]? = some (key, response))
      (hm : selectMedia config.media.preferred response.content = some (media, s)) :
      Places config d (.response i method index) ⟨.response i method index media, []⟩

section Places

variable {config : Config} {d : Document} {e : Entry} {root : Schema} {o : Occurrence}

/-- What is resolved from an entry stands somewhere. -/
theorem Document.Begins.places (h : d.Begins config e root) : ∃ o, d.Places config e o := by
  cases h with
  | @pointer p s hs hp hpart =>
    obtain ⟨⟨c, tokens⟩, htokens, haddressed⟩ := Option.bind_eq_some_iff.1 hs
    obtain ⟨body, hbody, hat⟩ := Option.bind_eq_some_iff.1 haddressed
    obtain ⟨steps, haddresses, hsteps⟩ := Schema.exists_addresses hat
    exact ⟨_, .pointer htokens hbody haddresses (hsteps.trans hs.symm)⟩
  | @parameter i path item template method op signature p s hitem hop htemplate hsignature hp hs =>
    by_cases hkey : p.key ∈ op.parameters.map Parameter.key
    · exact ⟨_, .own hitem hop hkey⟩
    · exact ⟨_, .shared hitem hop hkey⟩
  | request hitem hop hbody hm => exact ⟨_, .request hitem hop hbody hm⟩
  | response hitem hop hresponse hm => exact ⟨_, .response hitem hop hresponse hm⟩

/-- The schema of a parameter is declared by the operation, or by the path item under a key that the
operation does not declare. -/
theorem Document.Begins.declared {i : Nat} {path : String} {item : PathItem} {method : HttpMethod}
    {op : Operation} {key : String × String} (h : d.Begins config (.parameter i method key) root)
    (hitem : d.paths[i]? = some (path, item)) (hop : item.operation? method = some op) :
    ∃ p : Parameter, p.key = key ∧ p.schema = some root ∧
      (p ∈ op.parameters ∨ p ∈ item.parameters ∧ p.key ∉ op.parameters.map Parameter.key) := by
  cases h with
  | parameter hitem' hop' htemplate hsignature hp hs =>
    obtain ⟨rfl, rfl⟩ := Prod.mk.inj (Option.some.inj (hitem.symm.trans hitem'))
    obtain rfl := Option.some.inj (hop.symm.trans hop')
    have hvalid := (signatureOf_isOk_iff htemplate _ _).1 ⟨_, hsignature⟩
    have heffective := (signatureOf_arranged htemplate hsignature).perm.mem_iff.1 hp
    exact ⟨_, rfl, hs, (mem_effectiveParameters hvalid.own).1 heffective⟩

/-- The schema that is resolved from an entry stands at the place of the entry. -/
theorem Document.Places.stands (h : d.Places config e o) (hroot : d.Begins config e root) :
    d.Stands o root := by
  cases h with
  | pointer htokens hs h ht =>
    cases hroot with
    | pointer hroot => exact ⟨_, .component hs, ht.trans hroot⟩
  | own hitem hop hkey =>
    obtain ⟨p, rfl, hs, hdeclared⟩ := hroot.declared hitem hop
    have hmem := hdeclared.resolve_right fun hshared => hshared.2 hkey
    exact ⟨root, .parameter hitem hop hmem hs, rfl⟩
  | shared hitem hop hkey =>
    obtain ⟨p, rfl, hs, hdeclared⟩ := hroot.declared hitem hop
    have hmem := hdeclared.resolve_left fun hown => hkey (List.mem_map_of_mem hown)
    exact ⟨root, .shared hitem hmem.1 hs, rfl⟩
  | request hitem hop hbody hm =>
    cases hroot with
    | request hitem' hop' hbody' hm' =>
      obtain ⟨rfl, rfl⟩ := Prod.mk.inj (Option.some.inj (hitem.symm.trans hitem'))
      obtain rfl := Option.some.inj (hop.symm.trans hop')
      obtain rfl := Option.some.inj (hbody.symm.trans hbody')
      obtain ⟨rfl, rfl⟩ := Prod.mk.inj (Option.some.inj (hm.symm.trans hm'))
      obtain ⟨m, hmem, hs⟩ := mem_of_selectMedia hm
      exact ⟨_, .request hitem hop hbody hmem hs, rfl⟩
  | response hitem hop hresponse hm =>
    cases hroot with
    | response hitem' hop' hresponse' hm' =>
      obtain ⟨rfl, rfl⟩ := Prod.mk.inj (Option.some.inj (hitem.symm.trans hitem'))
      obtain rfl := Option.some.inj (hop.symm.trans hop')
      obtain ⟨rfl, rfl⟩ := Prod.mk.inj (Option.some.inj (hresponse.symm.trans hresponse'))
      obtain ⟨rfl, rfl⟩ := Prod.mk.inj (Option.some.inj (hm.symm.trans hm'))
      obtain ⟨m, hmem, hs⟩ := mem_of_selectMedia hm
      exact ⟨_, .response hitem hop hresponse hmem hs, rfl⟩

/-- A pointer that something is resolved from is asked for. -/
theorem Document.Begins.asks {p : String} (h : d.Begins config (.pointer p) root) :
    d.Asks config p := by
  cases h with
  | pointer hroot hp hpart => exact hp

/-- What is resolved from a pointer to a part of a component repeats. -/
theorem repeats_of_part {p c token : String} {tokens : List String} {s : Schema}
    {before : List Step} (steps : List Step) (hroot : d.Begins config (.pointer p) root)
    (htokens : Pointer.tokens? p = some (c, token :: tokens)) (hs : d.schema? c = some s)
    (h : s.Addresses (token :: tokens) before) :
    d.Repeats config ⟨.component c, before ++ steps⟩ := by
  cases hroot with
  | pointer hroot hp hpart => exact .part hp htokens (hpart c token tokens htokens) hs h

/-- Pointers into one component are the same, if what stands there is not resolved repeatedly. -/
theorem repeats_of_pointers {p p' c : String} {tokens tokens' : List String} {s s' root' : Schema}
    {before before' : List Step} (hroot : d.Begins config (.pointer p) root)
    (hroot' : d.Begins config (.pointer p') root') (htokens : Pointer.tokens? p = some (c, tokens))
    (htokens' : Pointer.tokens? p' = some (c, tokens')) (hs : d.schema? c = some s)
    (hs' : d.schema? c = some s') (h : s.Addresses tokens before)
    (h' : s'.Addresses tokens' before') :
    (p = p' ∧ before = before') ∨ (∀ steps, d.Repeats config ⟨.component c, before ++ steps⟩) ∨
      ∀ steps, d.Repeats config ⟨.component c, before' ++ steps⟩ := by
  rcases tokens with _ | ⟨token, tokens⟩
  · rcases tokens' with _ | ⟨token', tokens'⟩
    · -- Two pointers to the component are the same, or one is not spelled as usual.
      obtain rfl := h.eq_nil
      obtain rfl := h'.eq_nil
      by_cases hp : p = Pointer.component c
      · by_cases hp' : p' = Pointer.component c
        · exact .inl ⟨hp.trans hp'.symm, rfl⟩
        · exact .inr (.inr fun steps => .spelled hroot'.asks htokens' hp')
      · exact .inr (.inl fun steps => .spelled hroot.asks htokens hp)
    · exact .inr (.inr fun steps => repeats_of_part steps hroot' htokens' hs' h')
  · exact .inr (.inl fun steps => repeats_of_part steps hroot htokens hs h)

/-- Entries whose schemas stand inside the same root are the same, if what stands there is not
resolved repeatedly. -/
theorem Document.Places.repeats {e' : Entry} {root' : Schema} {o' : Occurrence}
    (h : d.Places config e o) (h' : d.Places config e' o') (hroot : d.Begins config e root)
    (hroot' : d.Begins config e' root') (hroots : o.root = o'.root) :
    (e = e' ∧ o = o') ∨ (∀ steps, d.Repeats config ⟨o.root, o.steps ++ steps⟩) ∨
      ∀ steps, d.Repeats config ⟨o'.root, o'.steps ++ steps⟩ := by
  cases h with
  | pointer htokens hs haddresses ht =>
    cases h' with
    | pointer htokens' hs' haddresses' ht' =>
      obtain rfl := Root.component.inj hroots
      refine (repeats_of_pointers hroot hroot' htokens htokens' hs hs' haddresses
        haddresses').imp_left ?_
      rintro ⟨rfl, rfl⟩
      exact ⟨rfl, rfl⟩
    | _ => simp at hroots
  | own hitem hop hkey =>
    cases h' with
    | own hitem' hop' hkey' =>
      obtain ⟨rfl, rfl, rfl⟩ := Root.parameter.inj hroots
      exact .inl ⟨rfl, rfl⟩
    | _ => simp at hroots
  | @shared i path item method op key hitem hop hkey =>
    cases h' with
    | @shared i' path' item' method' op' key' hitem' hop' hkey' =>
      obtain ⟨rfl, rfl⟩ := Root.shared.inj hroots
      obtain ⟨rfl, rfl⟩ := Prod.mk.inj (Option.some.inj (hitem.symm.trans hitem'))
      by_cases hmethod : method = method'
      · exact .inl ⟨by rw [hmethod], rfl⟩
      · exact .inr (.inl fun steps => .shared hitem hmethod hop hop' hkey hkey')
    | _ => simp at hroots
  | request hitem hop hbody hm =>
    cases h' with
    | request hitem' hop' hbody' hm' =>
      obtain ⟨rfl, rfl, rfl⟩ := Root.request.inj hroots
      exact .inl ⟨rfl, rfl⟩
    | _ => simp at hroots
  | response hitem hop hresponse hm =>
    cases h' with
    | response hitem' hop' hresponse' hm' =>
      obtain ⟨rfl, rfl, rfl, rfl⟩ := Root.response.inj hroots
      exact .inl ⟨rfl, rfl⟩
    | _ => simp at hroots

end Places

/-! ### The occurrences of sites -/

/-- The occurrence of the schema at a site. -/
def Document.OccursAt (config : Config) (d : Document) (σ : Site) (o : Occurrence) : Prop :=
  ∃ place, d.Places config σ.entry place ∧ o = ⟨place.root, place.steps ++ σ.steps⟩

section Occurs

variable {config : Config} {d : Document} {σ σ' : Site} {n n' : Node} {o : Occurrence}

theorem Document.MadeAt.occurs (h : d.MadeAt config σ n) : ∃ o, d.OccursAt config σ o := by
  obtain ⟨root, s, hroot, -, -⟩ := h.made
  obtain ⟨place, hplace⟩ := hroot.places
  exact ⟨_, place, hplace, rfl⟩

/-- The body of a component is resolved as such. -/
theorem Document.OccursAt.isBody (h : d.OccursAt config σ o) (ho : o.IsBody) : σ.IsBody := by
  obtain ⟨place, hplace, rfl⟩ := h
  obtain ⟨c, hc⟩ := ho
  rw [Occurrence.mk.injEq, List.append_eq_nil_iff] at hc
  obtain ⟨hroot, hplace', hsteps⟩ := hc
  generalize he : σ.entry = e at hplace
  cases hplace with
  | @pointer p c' tokens s steps htokens hs h ht =>
    refine ⟨hsteps, p, c', he, ?_⟩
    cases tokens with
    | nil => exact htokens
    | cons token tokens => exact absurd hplace' (h.steps_ne_nil (by simp))
  | _ => simp at hroot

/-- The schema that stands at the occurrence makes the node. -/
theorem Document.MadeAt.stands (h : d.MadeAt config σ n) (ho : d.OccursAt config σ o) :
    ∃ s, d.Stands o s ∧ s.Makes d o.IsBody n := by
  obtain ⟨root, s, hroot, hs, hmakes⟩ := h.made
  refine ⟨s, ?_, ?_⟩
  · obtain ⟨place, hplace, rfl⟩ := ho
    obtain ⟨outer, houter, hdescend⟩ := hplace.stands hroot
    exact ⟨outer, houter, (Schema.descend?_append σ.steps hdescend).trans hs⟩
  · cases hmakes with
    | whole hbody hown h => exact .whole (fun ho' => hbody (ho.isBody ho')) hown h
    | listed hform hobject hseveral h => exact .listed hform hobject hseveral h

/-- **A site that may be visited again is that of an occurrence that repeats.** -/
theorem Document.Redone.repeats (h : d.Redone config σ) (hn : d.MadeAt config σ n)
    (ho : d.OccursAt config σ o) : d.Repeats config o := by
  obtain ⟨root, s, hroot, -, -⟩ := hn.made
  obtain ⟨place, hplace, rfl⟩ := ho
  cases h with
  | part h =>
    cases hplace with
    | pointer htokens hs haddresses ht =>
      obtain ⟨rfl, rfl⟩ := Prod.mk.inj (Option.some.inj (h.symm.trans htokens))
      exact repeats_of_part _ hroot h hs haddresses
  | @inherited p steps h =>
    cases hplace with
    | @pointer _ c tokens s before htokens hs haddresses ht =>
      cases tokens with
      | nil =>
        obtain rfl := haddresses.eq_nil
        by_cases hp : p = Pointer.component c
        · exact .inherited (hp ▸ h)
        · exact .spelled hroot.asks htokens hp
      | cons token tokens => exact repeats_of_part _ hroot htokens hs haddresses
  | listed hbegins hs hlisted =>
    obtain ⟨outer, houter, hdescend⟩ := hplace.stands hbegins
    rw [← List.append_assoc]
    exact .listed ⟨outer, houter, (Schema.descend?_append _ hdescend).trans hs⟩ hlisted

/-- **Two sites with one occurrence are sites of an occurrence that repeats.** -/
theorem repeats_of_occurs (hn : d.MadeAt config σ n) (hn' : d.MadeAt config σ' n')
    (ho : d.OccursAt config σ o) (ho' : d.OccursAt config σ' o) : σ = σ' ∨ d.Repeats config o := by
  obtain ⟨root, s, hroot, -, -⟩ := hn.made
  obtain ⟨root', s', hroot', -, -⟩ := hn'.made
  obtain ⟨place, hplace, rfl⟩ := ho
  obtain ⟨place', hplace', hplaces⟩ := ho'
  rw [Occurrence.mk.injEq] at hplaces
  obtain ⟨hroots, hsteps⟩ := hplaces
  rcases hplace.repeats hplace' hroot hroot' hroots with ⟨hentry, rfl⟩ | hrepeats | hrepeats
  · exact .inl (congrArg₂ Site.mk hentry (List.append_cancel_left hsteps))
  · exact .inr (hrepeats σ.steps)
  · exact .inr (hroots ▸ hsteps ▸ hrepeats σ'.steps)

end Occurs

/-! ### Models and their origins -/

/-- A finished model is that of the slot at its position. -/
theorem Registry.slot_of_finish {r : Registry} {i : Nat} {m : Model} (h : r.finish[i]? = some m) :
    ∃ slot, r.slots[i]? = some slot ∧ m.sourceName = slot.sourceName ∧
      m.body = slot.body.getD (.alias .any) := by
  unfold Registry.finish at h
  rw [List.getElem?_map, Option.map_eq_some_iff] at h
  obtain ⟨m₁, h, rfl⟩ := h
  rw [List.getElem?_map, Option.map_eq_some_iff] at h
  obtain ⟨slot, hs, rfl⟩ := h
  exact ⟨slot, hs, rfl, rfl⟩

/-- The slot at a position becomes the finished model there. -/
theorem Registry.finish_of_slot {r : Registry} {i : Nat} {slot : Slot}
    (h : r.slots[i]? = some slot) : ∃ m, r.finish[i]? = some m ∧ m.name = slot.name ∧
      m.sourceName = slot.sourceName ∧ m.body = slot.body.getD (.alias .any) := by
  let all := (r.slots.map Slot.toModel).flatMap Model.memberships
  refine ⟨slot.toModel.withMemberships all, ?_, rfl, rfl, rfl⟩
  unfold Registry.finish
  rw [List.getElem?_map, List.getElem?_map, h]
  rfl

/-- The model is synthesized from the schema at the occurrence: it has the body of a node of the
compilation with the serial number, which the schema makes. -/
structure Document.Synthesizes (config : Config) (d : Document) (r : Registry) (o : Occurrence)
    (serial : Nat) (m : Model) : Prop where
  sourceName : m.sourceName = none
  made : ∃ s n, d.Stands o s ∧ s.Makes d o.IsBody n ∧ d.Modelled config n ∧ n.Inline ∧
    n.serial = serial ∧ BodyOf r n m.body

/-- Every model that is no component's is synthesized from the schema at its origin, and types that
stand for the node refer to the model by its name. -/
structure Interface.Originates (config : Config) (d : Document) (r : Registry) (i : Interface)
    (origin : Nat → Occurrence) : Prop where
  synthesized : ∀ k m, i.models[k]? = some m → m.sourceName = none →
    ∃ serial, d.Synthesizes config r (origin k) serial m
  referred : ∀ n t, n.Inline → TypeOf r n t → ∃ k m, i.models[k]? = some m ∧
    d.Synthesizes config r (origin k) n.serial m ∧
    t = (TypeRef.reference m.name).orNull n.nullable

/-- The slot is that of a node that is recorded at the site. -/
structure Registry.Sources (config : Config) (d : Document) (r : Registry) (L : Ledger) (i : Nat)
    (σ : Site) (n : Node) : Prop where
  recorded : (σ, n) ∈ L
  modelled : d.Modelled config n
  inline : n.Inline
  index : Table.get? r.inlined n.serial = some i
  slot : ∃ slot body, r.slots[i]? = some slot ∧ slot.sourceName = none ∧ slot.body = some body ∧
    BodyOf r n body

section Sources

variable {config : Config} {d : Document} {pending : List String} {w : Workspace} {L : Ledger}
  {i j serial : Nat} {σ σ' : Site} {n n' : Node} {o : Occurrence}

/-- Every slot that is found by a serial number is that of a node that is recorded. -/
theorem Recording.sources (h : Recording config d pending w L)
    (hi : Table.get? w.registry.inlined serial = some i) :
    ∃ σ n, w.registry.Sources config d L i σ n ∧ n.serial = serial := by
  obtain ⟨slot, hs, hsource, hslot⟩ := h.attributed.slot serial i hi
  obtain ⟨n, body, ⟨hmodelled, hrecorded⟩, hinline, rfl, hbody, hstands⟩ :=
    hslot.resolve_left id
  obtain ⟨σ, hσ⟩ := hrecorded n .refl hinline
  exact ⟨σ, n, ⟨hσ, hmodelled, hinline, hi, slot, body, hs, hsource, hbody,
    hstands _ (.refl _)⟩, rfl⟩

/-- The model at the position of the slot is synthesized from the schema at the occurrence. -/
theorem Registry.Sources.synthesizes {r : Registry} (h : r.Sources config d L i σ n)
    (hn : d.MadeAt config σ n) (ho : d.OccursAt config σ o) {m : Model}
    (hm : r.finish[i]? = some m) :
    d.Synthesizes config r o n.serial m := by
  obtain ⟨slot, body, hs, hsource, hbody, hof⟩ := h.slot
  obtain ⟨slot', hs', hsource', hbody'⟩ := Registry.slot_of_finish hm
  obtain rfl := Option.some.inj (hs.symm.trans hs')
  rw [hbody, Option.getD_some] at hbody'
  obtain ⟨s, hstands, hmakes⟩ := hn.stands ho
  exact ⟨hsource'.trans hsource, s, n, hstands, hmakes, h.modelled, h.inline, rfl, hbody' ▸ hof⟩

/-- Slots of nodes that are recorded at sites with one occurrence are the same, unless the
occurrence repeats. -/
theorem Recording.apart (h : Recording config d pending w L)
    (hi : w.registry.Sources config d L i σ n) (hj : w.registry.Sources config d L j σ' n')
    (ho : d.OccursAt config σ o) (ho' : d.OccursAt config σ' o) : i = j ∨ d.Repeats config o := by
  have hmade := h.tracks.made _ hi.recorded
  rcases repeats_of_occurs hmade (h.tracks.made _ hj.recorded) ho ho' with rfl | hrepeats
  · rcases h.tracks.once _ hi.recorded _ hj.recorded rfl with hnodes | hredone
    · -- One node has one slot.
      dsimp only at hnodes
      have hindex := hi.index
      rw [hnodes, hj.index, Option.some.injEq] at hindex
      exact .inl hindex.symm
    · exact .inr (hredone.repeats hmade ho)
  · exact .inr hrepeats

/-- The origins are occurrences of sites where the nodes of the slots are recorded. -/
def Registry.Located (config : Config) (d : Document) (r : Registry) (L : Ledger)
    (origin : Nat → Occurrence) : Prop :=
  ∀ serial i, Table.get? r.inlined serial = some i →
    ∃ σ n, r.Sources config d L i σ n ∧ d.OccursAt config σ (origin i)

/-- Every slot that is no component's has an origin. -/
theorem Recording.exists_located (h : Recording config d pending w L) :
    ∃ origin, w.registry.Located config d L origin := by
  have horigin : ∀ i, ∃ o, ∀ serial, Table.get? w.registry.inlined serial = some i →
      ∃ σ n, w.registry.Sources config d L i σ n ∧ d.OccursAt config σ o := by
    intro i
    by_cases hi : ∃ serial, Table.get? w.registry.inlined serial = some i
    · obtain ⟨serial, hserial⟩ := hi
      obtain ⟨σ, n, hsource, -⟩ := h.sources hserial
      obtain ⟨o, ho⟩ := (h.tracks.made _ hsource.recorded).occurs
      exact ⟨o, fun _ _ => ⟨σ, n, hsource, ho⟩⟩
    · exact ⟨⟨.component "", []⟩, fun serial hserial => absurd ⟨serial, hserial⟩ hi⟩
  choose origin horigin using horigin
  exact ⟨origin, fun serial i => horigin i serial⟩

/-- The node of a model that is no component's is recorded at a site of its origin. -/
theorem Recording.located (h : Recording config d pending w L) {origin : Nat → Occurrence}
    (horigin : w.registry.Located config d L origin) {m : Model}
    (hm : w.registry.finish[i]? = some m) (hsource : m.sourceName = none) :
    ∃ σ n, w.registry.Sources config d L i σ n ∧ d.OccursAt config σ (origin i) := by
  obtain ⟨slot, hs, hslot, -⟩ := Registry.slot_of_finish hm
  obtain ⟨serial, hserial⟩ := h.attributed.serial i slot hs (hslot ▸ hsource)
  exact horigin serial i hserial

/-- A type that stands for a node refers to the model that is synthesized from its origin. -/
theorem Recording.refers (h : Recording config d pending w L) {origin : Nat → Occurrence}
    (horigin : w.registry.Located config d L origin) (hn : n.Inline) {t : TypeRef}
    (ht : TypeOf w.registry n t) : ∃ i m, w.registry.finish[i]? = some m ∧
      d.Synthesizes config w.registry (origin i) n.serial m ∧
      t = (TypeRef.reference m.name).orNull n.nullable := by
  obtain ⟨i, slot, hi, hs, rfl⟩ := ht.attributed hn
  obtain ⟨σ, n', hn', ho⟩ := horigin n.serial i hi
  obtain ⟨m, hm, hname, -, -⟩ := Registry.finish_of_slot hs
  refine ⟨i, m, hm, ?_, by rw [hname]⟩
  -- The slot has one serial number.
  rw [h.attributed.inj _ _ _ hi hn'.index]
  exact hn'.synthesizes (h.tracks.made _ hn'.recorded) ho hm

end Sources

/-- **Models have origins of their own.**  Every model that is no component's is synthesized from a
schema that stands somewhere in the description, types refer to it by its name wherever its node
is used, and two models are synthesized from one occurrence only if the occurrence repeats. -/
theorem compile_origins {config : Config} {d : Document} {c : Compilation}
    (h : compile config d = .ok c) : ∃ (r : Registry) (origin : Nat → Occurrence),
      c.interface.MadeOf config d r ∧ c.interface.Originates config d r origin ∧
      ∀ i j m m', c.interface.models[i]? = some m → c.interface.models[j]? = some m' →
        m.sourceName = none → m'.sourceName = none → origin i = origin j →
        i = j ∨ d.Repeats config (origin i) := by
  obtain ⟨w, hfinal⟩ := compile_final h
  obtain ⟨L, hw⟩ := (compileAll_recording config d).of_ok hfinal.run
  obtain ⟨origin, horigin⟩ := hw.exists_located
  refine ⟨w.registry, origin, hfinal.madeOf, ⟨fun i m hm hsource => ?_, fun n t hn ht => ?_⟩,
    fun i j m m' hm hm' hsource hsource' heq => ?_⟩
  · rw [hfinal.models] at hm
    obtain ⟨σ, n, hn, ho⟩ := hw.located horigin hm hsource
    exact ⟨_, hn.synthesizes (hw.tracks.made _ hn.recorded) ho hm⟩
  · rw [hfinal.models]
    exact hw.refers horigin hn ht
  · rw [hfinal.models] at hm hm'
    obtain ⟨σ, n, hn, ho⟩ := hw.located horigin hm hsource
    obtain ⟨σ', n', hn', ho'⟩ := hw.located horigin hm' hsource'
    exact hw.apart hn hn' ho (heq ▸ ho')

/-- A component with an enumeration, and a property beside it for the part with the enumeration. -/
def borrowed : Document where
  components.schemas := [
    ("A", { properties := [
      ("k", { enumeration := some [.string "a", .string "b"] }),
      ("z", { reference := some "#/components/schemas/A/properties/k" })] })]

/-- The models of a description that borrows from itself have origins. -/
theorem compile_origins_borrowed : ∃ c, compile {} borrowed = .ok c ∧
    ∃ (r : Registry) (origin : Nat → Occurrence),
      c.interface.MadeOf {} borrowed r ∧ c.interface.Originates {} borrowed r origin ∧
      ∀ i j m m', c.interface.models[i]? = some m → c.interface.models[j]? = some m' →
        m.sourceName = none → m'.sourceName = none → origin i = origin j →
        i = j ∨ borrowed.Repeats {} (origin i) := by
  obtain ⟨c, hc⟩ := compile_eq_ok {} borrowed (by decide +kernel)
  exact ⟨c, hc, compile_origins hc⟩

/-- The body of a component, its enumeration and the reference to it are all that stands in the
description. -/
theorem borrowed_stands {o : Occurrence} {s : Schema} (h : borrowed.Stands o s) :
    o.IsBody ∨ o = ⟨.component "A", [.property 0]⟩ ∨ s.reference.isSome := by
  obtain ⟨root, steps⟩ := o
  obtain ⟨outer, hroot, hsteps⟩ := h
  cases hroot with
  | component hc =>
    obtain ⟨rfl, rfl⟩ : _ = "A" ∧ outer = _ := by
      simpa [borrowed, Document.schema?, Table.get?_cons, Table.get?_nil, eq_comm] using hc
    match steps, hsteps with
    | [], _ => exact .inl ⟨"A", rfl⟩
    | [.property 0], _ => exact .inr (.inl rfl)
    | [.property 1], hsteps =>
      obtain rfl := Option.some.inj hsteps
      exact .inr (.inr rfl)
    | .property 0 :: step :: _, hsteps | .property 1 :: step :: _, hsteps =>
      cases step <;> simp [Schema.descend?, Schema.child?] at hsteps
  | _ => simp_all [borrowed]

/-- A model of values is synthesized from the enumeration. -/
theorem borrowed_origin {r : Registry} {o : Occurrence} {serial : Nat} {m : Model}
    {members : List EnumMember} (h : borrowed.Synthesizes {} r o serial m)
    (hm : m.body = .enumeration members) : o = ⟨.component "A", [.property 0]⟩ := by
  obtain ⟨s, n, hstands, hmakes, -, -, -, hof⟩ := h.made
  rw [hm] at hof
  cases hof with
  | enumeration hshape =>
    cases hmakes with
    | @whole location spine hbody hown hbuilt =>
      -- The node of a reference is none of its own.
      rcases borrowed_stands hstands with ho | ho | hs
      · exact absurd ho hbody
      · exact ho
      · obtain ⟨p, hp⟩ := Option.isSome_iff_exists.1 hs
        have hname := hown.reference p (by simp [Schema.form, hp])
        simp at hname
    | listed hform hobject hseveral hobjectFrom =>
      obtain ⟨properties, additional, hobject', -⟩ := hobjectFrom
      simp [hobject'] at hshape

/-- **Two models are synthesized from one enumeration**, where a reference to a part of a component
stands inside the component. -/
theorem origins_shared : ¬ ∀ (config : Config) (d : Document) (c : Compilation),
    compile config d = .ok c → ∃ (r : Registry) (origin : Nat → Occurrence),
      c.interface.MadeOf config d r ∧ c.interface.Originates config d r origin ∧
      ∀ i j m m', c.interface.models[i]? = some m → c.interface.models[j]? = some m' →
        m.sourceName = none → m'.sourceName = none → origin i = origin j → i = j := by
  intro hapart
  obtain ⟨c, hc⟩ := compile_eq_ok {} borrowed (by decide +kernel)
  obtain ⟨r, origin, -, horiginates, hapart⟩ := hapart {} borrowed c hc
  have hmodels : (compile {} borrowed).toOption.map (fun c => c.interface.models.map fun m =>
      (m.sourceName, m.body matches .enumeration _)) =
        some [(some "A", false), (none, true), (none, true)] := by
    decide +kernel
  rw [hc, Except.toOption, Option.map_some, Option.some.injEq] at hmodels
  -- Both models of values are synthesized from the one enumeration.
  have horigin : ∀ i, (c.interface.models.map fun m =>
      (m.sourceName, m.body matches .enumeration _))[i]? = some (none, true) →
      ∃ m, c.interface.models[i]? = some m ∧ m.sourceName = none ∧
        origin i = ⟨.component "A", [.property 0]⟩ := by
    intro i hi
    rw [List.getElem?_map] at hi
    obtain ⟨m, hm, hview⟩ := Option.map_eq_some_iff.1 hi
    obtain ⟨hsource, hbody⟩ := Prod.mk.inj hview
    obtain ⟨serial, hmade⟩ := horiginates.synthesized i m hm hsource
    refine ⟨m, hm, hsource, ?_⟩
    split at hbody
    · rename_i members hmembers
      exact borrowed_origin hmade hmembers
    · simp at hbody
  obtain ⟨m, hm, hsource, hone⟩ := horigin 1 (by rw [hmodels]; rfl)
  obtain ⟨m', hm', hsource', htwo⟩ := horigin 2 (by rw [hmodels]; rfl)
  exact absurd (hapart 1 2 m m' hm hm' hsource hsource' (hone.trans htwo.symm)) (by decide)

end ApiBinding
