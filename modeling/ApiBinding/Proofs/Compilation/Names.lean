import ApiBinding.Proofs.Compilation.Runs
import ApiBinding.Proofs.Naming.Scopes

/-!
# The names of a client

The models of a client share one scope, whether they are made for components or on the way to a
type; so do its operations.  Every operation has a scope for its parameters, and every model one
for its fields or members.  Names of one scope are distinct identifiers.

## Main definitions

* `ModelBody.names` — the names of the fields or members of a model.
* `Registry.WellNamed` — models have distinct names, and so have the parts of each.
* `Typing.Returns` — what is said of a result whatever the state.

## Main results

* `Typing.modelBody_names` — fields and members have distinct names.
* `Registry.Evolves.wellNamed` — **making models on the way keeps names distinct.**
* `compile_names` — **all names of a client are identifiers, distinct where they must be.**
-/

namespace ApiBinding

/-- The names of the fields of a record or of the members of an enumeration. -/
def ModelBody.names : ModelBody → List String
  | .object fields _ => fields.map Field.name
  | .enumeration members => members.map EnumMember.name
  | _ => []

/-! ### Fields and members -/

namespace Typing

variable {α β : Type} {naming : NamingConfig}

/-- Whatever the state, the result is as said. -/
def Returns (work : Typing α) (Q : α → Prop) : Prop := ∀ w, Q (work w).1

theorem returns_pure {a : α} {Q : α → Prop} (h : Q a) : Returns (pure a) Q := fun _ => h

theorem returns_any (work : Typing α) : Returns work fun _ => True := fun _ => trivial

theorem Returns.bind {work : Typing α} {f : α → Typing β} {P : α → Prop} {Q : β → Prop}
    (h : Returns work P) (hf : ∀ a, P a → Returns (f a) Q) : Returns (work >>= f) Q :=
  fun w => hf _ (h w) (work w).2

/-- **A name that is handed out is a free identifier**, and taken from then on. -/
theorem returns_allocate (scope : NameScope) (raw location : String) :
    Returns (allocate naming scope raw location) fun named =>
      named.1 ∉ scope.taken ∧ isIdentifier named.1 ∧ named.2 = scope.take named.1 :=
  fun _ => allocateName_fresh naming scope raw location

/-- The members of an enumeration have names that are handed out one after the other. -/
theorem enumMembers_hands {location : String} :
    ∀ (values : List Json) (index : Nat) (scope : NameScope),
      Returns (enumMembers naming location index scope values) fun members =>
        scope.Hands (members.map EnumMember.name)
  | [], _, _ => returns_pure .nil
  | value :: rest, index, scope => by
    unfold enumMembers
    refine (returns_allocate scope _ _).bind fun named ⟨hfree, hname, hscope⟩ => ?_
    refine (enumMembers_hands rest (index + 1) named.2).bind fun members hmembers => ?_
    rw [hscope] at hmembers
    exact returns_pure (.cons hfree hname hmembers)

/-- The fields of a record have names that are handed out one after the other. -/
theorem fields_hands {modelName location : String} (required : List String) :
    ∀ (properties : List (String × Node)) (scope : NameScope),
      Returns (fields naming properties required scope modelName location) fun found =>
        scope.Hands (found.map Field.name)
  | [], scope => by
    unfold fields
    exact returns_pure .nil
  | (wireName, node) :: rest, scope => by
    unfold fields
    refine (returns_allocate scope _ _).bind fun named ⟨hfree, hname, hscope⟩ => ?_
    refine (returns_any _).bind fun type _ => ?_
    refine (fields_hands required rest named.2).bind fun found hfound => ?_
    rw [hscope] at hfound
    exact returns_pure (.cons hfree hname hfound)

/-- **The fields of a record have distinct names, and so have the members of an enumeration.** -/
theorem modelBody_names (n : Node) (modelName location : String) :
    Returns (modelBody naming n modelName location) fun body =>
      DistinctIdentifiers body.names := by
  have hnone : DistinctIdentifiers [] := ⟨.nil, by simp⟩
  have halias : Returns (aliasBody naming n modelName location) fun body =>
      DistinctIdentifiers body.names :=
    (returns_any _).bind fun _ _ => returns_pure hnone
  unfold modelBody
  split
  · split
    · exact halias
    · exact (fields_hands _ _ _).bind fun found hfound =>
        (returns_any _).bind fun _ _ => returns_pure hfound.distinct
  · exact (enumMembers_hands _ 0 _).bind fun members hmembers => returns_pure hmembers.distinct
  · split
    · exact halias
    · exact (returns_any _).bind fun _ _ => returns_pure hnone
  · exact halias

end Typing

/-! ### Models -/

namespace Registry

variable {naming : NamingConfig} {G : Node → Prop} {r r' : Registry}

/-- The models have distinct names, which are taken; the fields or members of each of them have
distinct names. -/
structure WellNamed (r : Registry) : Prop where
  names : DistinctIdentifiers (r.slots.map Slot.name)
  taken : ∀ slot ∈ r.slots, slot.name ∈ r.scope.taken
  bodies : ∀ slot ∈ r.slots, ∀ body, slot.body = some body → DistinctIdentifiers body.names

theorem wellNamed_empty : WellNamed {} := ⟨⟨.nil, by simp⟩, by simp, by simp⟩

/-- A slot with a free name is added. -/
theorem WellNamed.added {slot : Slot} (h : r.WellNamed) (hslots : r'.slots = r.slots ++ [slot])
    (hscope : r'.scope = r.scope.take slot.name) (hfree : slot.name ∉ r.scope.taken)
    (hname : isIdentifier slot.name) (hbody : slot.body = none) : r'.WellNamed := by
  refine ⟨⟨?_, ?_⟩, ?_, ?_⟩
  · rw [hslots, List.map_append]
    refine List.nodup_append.2 ⟨h.names.nodup, List.nodup_singleton _, ?_⟩
    rintro name hmem _ hlast rfl
    obtain ⟨s, hs, rfl⟩ := List.mem_map.1 hmem
    rw [List.map_singleton, List.mem_singleton] at hlast
    exact hfree (hlast ▸ h.taken s hs)
  · rw [hslots, List.map_append]
    intro name hmem
    rcases List.mem_append.1 hmem with hmem | hmem
    · exact h.names.identifier name hmem
    · rw [List.map_singleton, List.mem_singleton] at hmem
      exact hmem ▸ hname
  · rw [hslots, hscope]
    intro s hs
    rcases List.mem_append.1 hs with hs | hs
    · exact .tail _ (h.taken s hs)
    · rw [List.mem_singleton.1 hs]
      exact .head _
  · rw [hslots]
    intro s hs body hsome
    rcases List.mem_append.1 hs with hs | hs
    · exact h.bodies s hs body hsome
    · rw [List.mem_singleton.1 hs, hbody] at hsome
      simp at hsome

/-- Filling a slot changes no name. -/
theorem fill_names (r : Registry) (index : Nat) (docstring : Option String) (body : ModelBody) :
    (r.fill index docstring body).slots.map Slot.name = r.slots.map Slot.name := by
  refine List.ext_getElem? fun i => ?_
  rw [List.getElem?_map, List.getElem?_map]
  cases hs : r.slots[i]? with
  | none => simp [fill, List.getElem?_modify, hs]
  | some slot =>
    rw [getElem?_fill hs]
    by_cases hi : index = i <;> simp [hi]

theorem WellNamed.fill (h : r.WellNamed) {index : Nat} {docstring : Option String}
    {body : ModelBody} (hbody : DistinctIdentifiers body.names) :
    (r.fill index docstring body).WellNamed := by
  refine ⟨r.fill_names index docstring body ▸ h.names, fun slot' hslot => ?_, fun slot' hslot => ?_⟩
  · obtain ⟨i, hi⟩ := List.mem_iff_getElem?.1 hslot
    obtain ⟨slot, hs, heq⟩ := getElem?_of_fill hi
    have hname : slot'.name = slot.name := by
      rw [heq]
      split <;> rfl
    rw [hname]
    exact h.taken slot (List.mem_of_getElem? hs)
  · obtain ⟨i, hi⟩ := List.mem_iff_getElem?.1 hslot
    obtain ⟨slot, hs, heq⟩ := getElem?_of_fill hi
    intro other hother
    split at heq
    · rw [heq, Option.some.injEq] at hother
      exact hother ▸ hbody
    · rw [heq] at hother
      exact h.bodies slot (List.mem_of_getElem? hs) other hother

/-- A slot that is reserved for a node has a free name. -/
theorem WellNamed.reserveInline (h : r.WellNamed) {serial : Nat} {hint location : String}
    (hnew : Table.get? r.inlined serial = none) :
    (r.reserveInline naming serial hint location).2.1.WellNamed := by
  obtain ⟨name, scope, findings, hallocate, hreserved⟩ :=
    reserveInline_new naming hint location hnew
  obtain ⟨hfree, hname, hscope⟩ := allocateName_fresh naming r.scope hint location
  rw [hallocate] at hfree hname hscope
  rw [hreserved]
  exact h.added rfl hscope hfree hname rfl

/-- **Making models on the way keeps names distinct.** -/
theorem Evolves.wellNamed (h : r.Evolves naming G r') (hr : r.WellNamed) : r'.WellNamed := by
  induction h with
  | refl r => exact hr
  | trans h h' ih ih' => exact ih' (ih hr)
  | @inline r w n hint location name docstring hn hown hnew hname hw h ih =>
    exact (ih (hw ▸ hr.reserveInline hnew)).fill (Typing.modelBody_names n name location w)

/-- A component that gets a model gets one with a free name. -/
theorem WellNamed.reserveComponent (h : r.WellNamed) (c : String) :
    (r.reserveComponent naming c).2.1.WellNamed := by
  unfold Registry.reserveComponent
  split
  · exact h
  · obtain ⟨hfree, hname, hscope⟩ := allocateName_fresh naming r.scope c (Pointer.component c)
    exact h.added rfl hscope hfree hname rfl

theorem WellNamed.fillComponent (h : r.WellNamed) {c : String} {docstring : Option String}
    {body : ModelBody} (hbody : DistinctIdentifiers body.names) :
    (r.fillComponent c docstring body).WellNamed := by
  unfold Registry.fillComponent
  split
  · exact h.fill hbody
  · exact h

end Registry

/-! ### Workspaces -/

open Build

section Workspaces

variable {config : Config} {d : Document} {naming : NamingConfig} {α : Type}

/-- The models of the workspace have distinct names. -/
def Workspace.WellNamed (w : Workspace) : Prop := w.registry.WellNamed

/-- The work keeps the names of models distinct, and its result is as said. -/
abbrev KeepsNames (work : Build α) (Q : α → Prop) : Prop :=
  Advances Workspace.WellNamed (fun _ => True) work Q

theorem keepsNames_resolving (work : Resolution α) : KeepsNames (resolving work) fun _ => True :=
  advances_resolving work

theorem keepsNames_typing {work : Typing α} {Q : α → Prop}
    (hadds : Typing.Adds naming (fun _ => True) work) (h : Typing.Returns work Q) :
    KeepsNames (Build.typing work) Q := by
  intro w hw
  rw [ends_typing]
  exact ⟨(hadds ⟨w.registry, w.session.diagnostics⟩).wellNamed hw, h _⟩

theorem keepsNames_report {findings : List Diagnostic} :
    KeepsNames (Build.report findings) fun _ => True :=
  fun _ hw => ⟨hw, trivial⟩

/-- Making types and reporting findings keeps names distinct. -/
theorem stable_wellNamed : Stable naming Workspace.WellNamed fun _ => True :=
  stable_of_evolves Registry.Evolves.wellNamed

theorem resolves_any (s : Schema) :
    Resolves d Workspace.WellNamed (fun _ => True) (fun _ => True) s :=
  fun _ => keepsNames_resolving _

/-- Making the body of a component keeps names distinct. -/
theorem Typing.fillComponent_wellNamed {c location : String} {n : Node} {w : Workbench}
    (h : w.registry.WellNamed) :
    (fillComponent naming c n location w).2.registry.WellNamed := by
  cases hmodel : w.registry.componentModel? c with
  | none =>
    rw [fillComponent_unnamed hmodel]
    exact h
  | some name =>
    rw [fillComponent_registry hmodel]
    have hevolves := (modelBody_yields naming Node.hereditary_true (n := n) trivial name
      location).adds w
    exact (hevolves.wellNamed h).fillComponent (modelBody_names n name location w)

theorem keepsNames_buildBodies :
    ∀ cs : List String, KeepsNames (buildBodies d naming cs) fun _ => True
  | [] => advances_pure trivial
  | c :: rest => by
    have hfill : ∀ n location,
        KeepsNames (Build.typing (Typing.fillComponent naming c n location)) fun _ => True := by
      intro n location w hw
      rw [ends_typing]
      exact ⟨Typing.fillComponent_wellNamed hw, trivial⟩
    unfold buildBodies
    exact (keepsNames_resolving _).bind fun n _ => (hfill n _).bind fun _ _ =>
      keepsNames_buildBodies rest

/-! ### Operations -/

/-- The parameters of an operation have names that are handed out one after the other. -/
theorem EndpointContext.parameters_hands (ctx : EndpointContext) :
    ∀ (ps : List Parameter) (scope : NameScope),
      KeepsNames (ctx.parameters scope ps) fun found =>
        scope.Hands (found.map EndpointParameter.name)
  | [], _ => advances_pure .nil
  | p :: rest, scope => by
    unfold EndpointContext.parameters
    refine (parameterType_advances (R := fun _ => True) ctx stable_wellNamed
      fun s _ => resolves_any s).bind fun type _ => ?_
    refine (keepsNames_typing Typing.adds_allocate
      (Typing.returns_allocate scope _ _)).bind fun named ⟨hfree, hname, hscope⟩ => ?_
    refine (parameters_hands ctx rest named.2).bind fun found hfound => ?_
    rw [hscope] at hfound
    exact advances_pure (.cons hfree hname hfound)

/-- The parameters of an operation have distinct names. -/
def Endpoint.WellNamed (e : Endpoint) : Prop :=
  DistinctIdentifiers (e.parameters.map EndpointParameter.name)

theorem buildEndpoint_names {callables : NameScope} {path : String} {method : HttpMethod}
    {op : Operation} {signature : Signature} {location : String} :
    KeepsNames (buildEndpoint d config callables path method op signature location) fun made =>
      made.1.name ∉ callables.taken ∧ isIdentifier made.1.name ∧
        made.2 = callables.take made.1.name ∧ made.1.WellNamed := by
  unfold buildEndpoint
  have hresolves := fun s => resolves_any (d := d) s
  refine keepsNames_report.bind fun _ _ => ?_
  refine (keepsNames_typing Typing.adds_allocate
    (Typing.returns_allocate callables _ _)).bind fun named ⟨hfree, hname, hscope⟩ => ?_
  let ctx : EndpointContext := ⟨d, config, location, camelHint named.1⟩
  refine (ctx.parameters_hands signature.ordered _).bind fun parameters hparameters => ?_
  refine (EndpointContext.requestBody_advances (R := fun _ => True) ctx stable_wellNamed op
    fun _ _ _ s _ => hresolves s).bind fun _ _ => ?_
  refine (EndpointContext.responses_advances (R := fun _ => True) ctx stable_wellNamed op.responses
    [] fun _ _ _ _ _ _ s _ => hresolves s).bind fun _ _ => ?_
  exact advances_pure ⟨hfree, hname, hscope, hparameters.distinct⟩

theorem pathEndpoints_names {path : String} {item : PathItem} {template : PathTemplate} :
    ∀ (operations : List (HttpMethod × Operation)) (callables : NameScope),
      KeepsNames (pathEndpoints d config path item template callables operations) fun made =>
        callables.Hands (made.1.map Endpoint.name) ∧
          made.2 = callables.takeAll (made.1.map Endpoint.name) ∧ ∀ e ∈ made.1, e.WellNamed
  | [], _ => advances_pure ⟨.nil, rfl, by simp⟩
  | (method, op) :: rest, callables => by
    unfold pathEndpoints
    split
    · exact keepsNames_report.bind fun _ _ => pathEndpoints_names rest callables
    · refine buildEndpoint_names.bind fun made ⟨hfree, hname, hscope, hparameters⟩ => ?_
      refine (pathEndpoints_names rest made.2).bind fun more ⟨hhands, htaken, hmore⟩ => ?_
      rw [hscope] at hhands htaken
      exact advances_pure ⟨.cons hfree hname hhands, htaken,
        List.forall_mem_cons.2 ⟨hparameters, hmore⟩⟩

/-- **Operations have names that are handed out one after the other.** -/
theorem tableEndpoints_names :
    ∀ (paths : List (String × PathItem)) (callables : NameScope),
      KeepsNames (tableEndpoints d config callables paths) fun made =>
        callables.Hands (made.map Endpoint.name) ∧ ∀ e ∈ made, e.WellNamed
  | [], _ => advances_pure ⟨.nil, by simp⟩
  | (path, item) :: rest, callables => by
    unfold tableEndpoints
    have htemplate : KeepsNames (Build.ofExcept (PathTemplate.ofPath path)) fun _ => True :=
      keepsNames_resolving _
    refine htemplate.bind fun template _ => ?_
    refine (pathEndpoints_names _ callables).bind fun made ⟨hhands, htaken, hmade⟩ => ?_
    refine (tableEndpoints_names rest made.2).bind fun more ⟨hhands', hmore⟩ => ?_
    rw [htaken] at hhands'
    refine advances_pure ⟨?_, fun e he => ?_⟩
    · rw [List.map_append]
      exact hhands.append hhands'
    · rcases List.mem_append.1 he with he | he
      · exact hmade e he
      · exact hmore e he

end Workspaces

/-! ### Clients -/

/-- The names of models differ from each other, and so do those of operations, of the parameters of
each operation, and of the fields or members of each model; all of them are identifiers. -/
structure Interface.WellNamed (i : Interface) : Prop where
  models : DistinctIdentifiers i.modelNames
  endpoints : DistinctIdentifiers (i.endpoints.map Endpoint.name)
  parameters : ∀ e ∈ i.endpoints, DistinctIdentifiers (e.parameters.map EndpointParameter.name)
  fields : ∀ m ∈ i.models, ∀ fields additional, m.body = .object fields additional →
    DistinctIdentifiers (fields.map Field.name)
  members : ∀ m ∈ i.models, ∀ members, m.body = .enumeration members →
    DistinctIdentifiers (members.map EnumMember.name)

/-- The names of a workspace at the end. -/
theorem compileAll_names (config : Config) (d : Document) :
    KeepsNames (compileAll config d) fun endpoints =>
      DistinctIdentifiers (endpoints.map Endpoint.name) ∧ ∀ e ∈ endpoints, e.WellNamed := by
  have hreserve : KeepsNames (reserveNames config.naming d.componentNames) fun _ => True :=
    fun w hw => (reserveNames_invariant (I := Workspace.WellNamed) config.naming d.componentNames
      (fun c _ w _ hw => hw.reserveComponent c) w hw).mono_ok fun _ _ hw' => ⟨hw', trivial⟩
  unfold compileAll buildModels extractEndpoints
  refine (hreserve.bind fun _ _ => keepsNames_buildBodies d.componentNames).bind fun _ _ => ?_
  exact (tableEndpoints_names d.paths _).mono fun endpoints h => ⟨h.1.distinct, h.2⟩

/-- **All names of a client are identifiers, distinct where they must be**, whatever the raw names
and whatever words are reserved. -/
theorem compile_names {config : Config} {d : Document} {c : Compilation}
    (h : compile config d = .ok c) : c.interface.WellNamed := by
  unfold compile at h
  split at h
  · rename_i endpoints w hrun
    obtain ⟨hmodels, hendpoints, hparameters⟩ :=
      (compileAll_names config d {} Registry.wellNamed_empty).of_ok hrun
    rw [Except.ok.injEq] at h
    subst h
    have hbodies : ∀ m ∈ w.registry.finish, DistinctIdentifiers m.body.names := by
      intro m hm
      obtain ⟨slot, hslot, -, hbody⟩ := Registry.mem_finish hm
      rw [hbody]
      -- A slot that was never filled makes a model without names.
      cases hsome : slot.body with
      | none => exact ⟨.nil, by simp [ModelBody.names]⟩
      | some body => exact hmodels.bodies slot hslot body hsome
    refine ⟨?_, hendpoints, hparameters, fun m hm fields additional hbody => ?_,
      fun m hm members hbody => ?_⟩
    · unfold Interface.modelNames
      rw [Registry.finish_names]
      exact hmodels.names
    · have := hbodies m hm
      rwa [hbody] at this
    · have := hbodies m hm
      rwa [hbody] at this
  · simp at h

/-- A text. -/
def textSchema : Schema where
  declaredType := some (.single "string")

/-- Names that are reserved, begin with a digit, or have no ASCII letter. -/
def oddSizes : Schema where
  properties := [("type", textSchema), ("Type", textSchema), ("1st", textSchema),
    ("日本", textSchema)]

/-- Names of models and of parameters that are the same once foreign characters are gone. -/
def oddNames : Document where
  components.schemas := [("Größe", oddSizes),
    ("GR E", { enumeration := some [.string "a b", .string "A-B"] })]
  paths := [("/größen", { get := some { parameters :=
    [{ name := "q", location := "query" }, { name := "Q", location := "query" }] } })]

/-- The two models get different names, and so do all their parts. -/
theorem compile_names_odd : ∃ c, compile {} oddNames = .ok c ∧
    c.interface.modelNames = ["GrE", "GrE2"] ∧
    c.interface.models.map (fun m => m.body.names) =
      [["type_", "type__2", "_1st", "unnamed"], ["AB", "AB2"]] ∧
    c.interface.WellNamed := by
  obtain ⟨c, hc⟩ := compile_eq_ok {} oddNames (by decide +kernel)
  have hnames : (compile {} oddNames).toOption.map (fun c =>
      (c.interface.modelNames, c.interface.models.map fun m => m.body.names)) =
      some (["GrE", "GrE2"], [["type_", "type__2", "_1st", "unnamed"], ["AB", "AB2"]]) := by
    decide +kernel
  rw [hc] at hnames
  simp only [Except.toOption, Option.map_some, Option.some.injEq, Prod.mk.injEq] at hnames
  exact ⟨c, hc, hnames.1, hnames.2, compile_names hc⟩

end ApiBinding
