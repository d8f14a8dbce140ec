import ApiBinding.Proofs.Compilation.Runs
import ApiBinding.Proofs.Resolver.Naming
import ApiBinding.Proofs.Resolver.Parts

/-!
# Clients refer to their own models

All model names are reserved before the first type is made, and resolved nodes refer only to
components of the description.  So every component that is looked up on the way to a type has a
model, and what a type refers to is a model of the client, whenever its body is made.

## Main definitions

* `Document.Modelled` — the nodes that types and models are made of.
* `Registry.Filled` — slots have the bodies of nodes.
* `Build.Gives` — work whose result stands in whatever the registry becomes.

## Main results

* `Registry.Evolves.filled` — a registry that evolves fills the slots that it adds.
* `compile_closed` — **a client refers to its own models only**, and all its types are the types
  of nodes whose components have models.
-/

namespace ApiBinding

/-! ### The nodes of a compilation -/

/-- The nodes that types and models are made of: those of the components, those of the schemas
that valid operations use, and their parts. -/
inductive Document.Modelled (config : Config) (d : Document) : Node → Prop where
  | component {c : String} {n : Node} (hc : c ∈ d.componentNames)
      (h : d.Answers (.component c) n) : Modelled config d n
  | schema {s : Schema} {location : String} {n : Node} (hs : d.Uses config s)
      (h : d.Answers (.schema s location) n) : Modelled config d n
  | property {n : Node} {properties : List (String × Node)} {required : List String}
      {additional : Option Node} {e : String × Node} (h : Modelled config d n)
      (hshape : n.shape = .object properties required additional) (he : e ∈ properties) :
      Modelled config d e.2
  | additional {n m : Node} {properties : List (String × Node)} {required : List String}
      (h : Modelled config d n) (hshape : n.shape = .object properties required (some m)) :
      Modelled config d m
  | items {n m : Node} (h : Modelled config d n) (hshape : n.shape = .array m) : Modelled config d m
  | variant {n m : Node} {variants : List Node} {tagging : Tagging} (h : Modelled config d n)
      (hshape : n.shape = .union variants tagging) (hm : m ∈ variants) : Modelled config d m

section Modelled

variable {config : Config} {d : Document}

theorem Document.Modelled.hereditary : Node.Hereditary (d.Modelled config) where
  object hn hshape := ⟨fun _ he => hn.property hshape he, fun _ hm => hn.additional (hm ▸ hshape)⟩
  array hn hshape := hn.items hshape
  union hn hshape _ hm := hn.variant hshape hm

/-- The nodes of a compilation are proper, since they are parts of answers. -/
theorem Document.Modelled.proper {n : Node} (h : d.Modelled config n) :
    n.Proper (· ∈ d.componentNames) := by
  induction h with
  | component hc h => exact h.proper
  | schema hs h => exact h.proper
  | property h hshape he ih => exact (hshape ▸ ih.shape).of_object.1 _ he
  | additional h hshape ih => exact (hshape ▸ ih.shape).of_object.2 _ rfl
  | items h hshape ih => exact (hshape ▸ ih.shape).of_array
  | variant h hshape hm ih => exact (hshape ▸ ih.shape).of_union _ hm

/-- What schemas say carries over to the nodes of a compilation, since they are parts of answers. -/
theorem Document.Modelled.has {T : Traits} (hT : T.Sound d)
    (huses : ∀ s, d.Uses config s → T.schema s) {n : Node} (h : d.Modelled config n) : n.Has T := by
  induction h with
  | component hc h => exact (hT.answers h).1
  | schema hs h => exact (hT.answers h).1 (huses _ hs)
  | property h hshape he ih =>
    exact (hshape ▸ ih.shape).parts _ (Shape.mem_parts_object.2 (.inl ⟨_, he, rfl⟩))
  | additional h hshape ih =>
    exact (hshape ▸ ih.shape).parts _ (Shape.mem_parts_object.2 (.inr rfl))
  | items h hshape ih => exact (hshape ▸ ih.shape).parts _ (List.mem_singleton_self _)
  | variant h hshape hm ih => exact (hshape ▸ ih.shape).parts _ hm

/-- **The nodes of a compilation refer only to components of the description.** -/
theorem Document.Modelled.only {n : Node} (h : d.Modelled config n) :
    n.Only (· ∈ d.componentNames) := h.proper.only

/-- The node suits a slot: it is one of the compilation, and the component's own if the slot is
for a component. -/
structure Document.Suits (config : Config) (d : Document) (source : Option String) (n : Node) :
    Prop where
  modelled : d.Modelled config n
  answers : ∀ c, source = some c → d.Answers (.component c) n

end Modelled

/-! ### Slots with bodies -/

namespace Registry

variable {naming : NamingConfig} {G : Node → Prop} {M : Option String → Node → Prop}
  {opened : Nat → Prop} {r r' : Registry}

/-- The slot has the body of a node that suits it. -/
def Holds (M : Option String → Node → Prop) (r : Registry) (slot : Slot) : Prop :=
  ∃ body n, slot.body = some body ∧ M slot.sourceName n ∧ r.Stands fun r => BodyOf r n body

/-- Every slot has the body of a node that suits it, except those that are open. -/
def Filled (M : Option String → Node → Prop) (opened : Nat → Prop) (r : Registry) : Prop :=
  ∀ i slot, r.slots[i]? = some slot → slot.body = none ∧ opened i ∨ r.Holds M slot

theorem Holds.extends {slot : Slot} (h : r.Holds M slot) (hr : r.Extends r') : r'.Holds M slot := by
  obtain ⟨body, n, hbody, hn, hstands⟩ := h
  exact ⟨body, n, hbody, hn, hstands.extends hr⟩

theorem Filled.weaken {opened' : Nat → Prop} (h : r.Filled M opened)
    (hopened : ∀ i, opened i → opened' i) : r.Filled M opened' :=
  fun i slot hs => (h i slot hs).imp_left fun ⟨hbody, hi⟩ => ⟨hbody, hopened i hi⟩

/-- A slot that is reserved is open. -/
theorem Filled.reserveInline {serial : Nat} {hint location : String} (h : r.Filled M opened)
    (hnew : Table.get? r.inlined serial = none) :
    (r.reserveInline naming serial hint location).2.1.Filled M fun i => opened i ∨ i = r.size := by
  have hextends := extends_reserveInline naming hint location hnew
  obtain ⟨name, scope, findings, -, hreserved⟩ :=
    reserveInline_new naming hint location hnew
  rw [hreserved] at hextends ⊢
  intro i slot hs
  rcases added_or_old rfl hs with hold | ⟨hi, rfl⟩
  · exact (h i slot hold).imp (fun ⟨hbody, hi⟩ => ⟨hbody, .inl hi⟩) fun hslot =>
      hslot.extends hextends
  · exact .inl ⟨rfl, .inr hi⟩

/-- A slot that is filled is no longer open. -/
theorem Filled.fill {index : Nat} {docstring : Option String} {body : ModelBody} {n : Node}
    (h : r.Filled M fun i => opened i ∨ i = index)
    (hn : ∀ slot, r.slots[index]? = some slot → M slot.sourceName n)
    (hbody : r.Stands fun r => BodyOf r n body) :
    (r.fill index docstring body).Filled M opened := by
  intro i slot' hs
  obtain ⟨slot, hold, rfl⟩ := getElem?_of_fill hs
  split
  · rename_i hi
    subst hi
    exact .inr ⟨body, n, rfl, hn slot hold, hbody.extends extends_fill⟩
  · rename_i hi
    refine (h i slot hold).imp (fun ⟨hempty, ho⟩ => ⟨hempty, ho.resolve_right ?_⟩) fun hslot =>
      hslot.extends extends_fill
    exact fun heq => hi heq.symm

/-- **A registry that evolves fills the slots that it adds.** -/
theorem Evolves.filled (hG : Node.Hereditary G) (hM : ∀ n, G n → M none n)
    (h : r.Evolves naming G r') (hr : r.Ready G) (hf : r.Filled M opened) :
    r'.Filled M opened := by
  induction h generalizing opened with
  | refl r => exact hf
  | trans h h' ih ih' => exact ih' (h.ready hr) (ih hr hf)
  | @inline r w n hint location name docstring hn hown hnew hname hw h ih =>
    have hready : w.registry.Ready G := hw ▸ hr.reserveInline hnew
    -- The reserved slot stays open until the body is made.
    have hinside := ih hready (hw ▸ hf.reserveInline hnew)
    refine hinside.fill (fun slot hs => ?_)
      ((Typing.modelBody_yields naming hG hn name location).result w hready)
    obtain ⟨reserved, scope, findings, -, hreserved⟩ :=
      reserveInline_new naming hint location hnew
    rw [hreserved] at hw
    have hslot : w.registry.slots[r.size]? = some ⟨reserved, none, none, none⟩ := by
      rw [hw]
      exact getElem?_size_of_added rfl
    obtain ⟨slot', hs', -, hsource⟩ := h.extends.keeps _ _ hslot
    rw [hs, Option.some.injEq] at hs'
    rw [hs', hsource]
    exact hM n hn

end Registry

open Build

/-! ### Workspaces -/

/-- What holds while bodies are made: the components have models, and every slot has a body but
those of pending components. -/
structure Closing (config : Config) (d : Document) (pending : List String) (w : Workspace) :
    Prop where
  used : d.Used w.session
  keyed : w.registry.Keyed
  named : ∀ c ∈ d.componentNames, ∃ name, w.registry.HasModel c name
  inlined : ∀ serial i, Table.get? w.registry.inlined serial = some i →
    ∃ slot, w.registry.slots[i]? = some slot
  filled : w.registry.Filled (d.Suits config) fun i =>
    ∃ c ∈ pending, Table.get? w.registry.components c = some i

section Closing

variable {config : Config} {d : Document} {naming : NamingConfig} {pending : List String}
  {w : Workspace}

/-- All components that nodes of the compilation refer to have models. -/
theorem Closing.ready (h : Closing config d pending w) :
    w.registry.Ready (d.Modelled config) where
  models n hn c hc := by
    refine h.named c ?_
    rcases hc with hc | hc
    · exact hn.proper.named hc
    · have hshape := hn.proper.shape
      rw [hc] at hshape
      cases hshape with
      | backRef h => exact h
  inlined := h.inlined

/-- Making types does no harm. -/
theorem Closing.evolves (h : Closing config d pending w) {r : Registry}
    (hr : w.registry.Evolves naming (d.Modelled config) r) (findings : List Diagnostic) :
    Closing config d pending
      { session := { w.session with diagnostics := findings }, registry := r } where
  used := h.used.noted findings
  keyed := hr.grows.keyed h.keyed
  named c hc := (h.named c hc).imp fun _ => hr.extends.hasModel
  inlined := (hr.ready h.ready).inlined
  filled := by
    have hfilled := hr.filled (M := d.Suits config) Document.Modelled.hereditary
      (fun n hn => ⟨hn, nofun⟩) h.ready h.filled
    refine hfilled.weaken ?_
    rintro i ⟨c, hc, hi⟩
    exact ⟨c, hc, by rw [hr.grows.components, hi]⟩

/-- A component whose slot is filled is no longer pending. -/
theorem Closing.fill {c : String} {n : Node} {docstring : Option String} {body : ModelBody}
    (h : Closing config d (c :: pending) w) (hc : c ∈ d.componentNames)
    (hn : d.Suits config (some c) n) (hbody : w.registry.Stands fun r => BodyOf r n body) :
    Closing config d pending
      { w with registry := w.registry.fillComponent c docstring body } := by
  obtain ⟨index, hindex⟩ : ∃ index, Table.get? w.registry.components c = some index := by
    obtain ⟨name, index, slot, hindex, -⟩ := h.named c hc
    exact ⟨index, hindex⟩
  have hkeyed := (Registry.fillComponent_keyed (B := fun _ => True) h.keyed
    (by rw [Registry.Named, hindex]; rfl) docstring body).1
  have hfill : w.registry.fillComponent c docstring body =
      w.registry.fill index docstring body := by
    simp [Registry.fillComponent, hindex]
  rw [hfill] at hkeyed ⊢
  have hextends : w.registry.Extends (w.registry.fill index docstring body) :=
    Registry.extends_fill
  refine ⟨h.used, hkeyed, fun c' hc' => (h.named c' hc').imp fun _ => hextends.hasModel,
    (h.ready.fill).inlined, ?_⟩
  -- A pending slot is still pending, or it is the one that is filled.
  refine Registry.Filled.fill (h.filled.weaken ?_) (fun slot hs => ?_) hbody
  · rintro i ⟨c', hc', hi⟩
    rcases List.mem_cons.1 hc' with rfl | hc'
    · rw [hindex, Option.some.injEq] at hi
      exact .inr hi.symm
    · exact .inl ⟨c', hc', hi⟩
  · obtain ⟨slot', hs', hsource⟩ := h.keyed.slot c index hindex
    rw [hs, Option.some.injEq] at hs'
    rw [hs', hsource]
    exact hn

/-- A component whose body is made is no longer pending. -/
theorem Closing.fillComponent {c : String} {n : Node} (naming : NamingConfig) (location : String)
    (h : Closing config d (c :: pending) w) (hc : c ∈ d.componentNames)
    (hn : d.Answers (.component c) n) :
    Ends (typing (Typing.fillComponent naming c n location)) w
      (fun _ w' => Closing config d pending w') fun _ _ => True := by
  obtain ⟨name, hmodel⟩ := h.named c hc
  have hmodelled : d.Modelled config n := .component hc hn
  have hsuits : d.Suits config (some c) n := ⟨hmodelled, fun c' hc' => Option.some.inj hc' ▸ hn⟩
  rw [ends_typing]
  generalize hbench : (⟨w.registry, w.session.diagnostics⟩ : Workbench) = bench
  have hregistry : bench.registry = w.registry := by rw [← hbench]
  have hyields :=
    Typing.modelBody_yields naming Document.Modelled.hereditary hmodelled name location
  have hevolves := hyields.adds bench
  have hstands := hyields.result bench (by rw [hregistry]; exact h.ready)
  rw [hregistry] at hevolves
  rw [Typing.fillComponent_registry (by rw [hregistry]; exact hmodel.componentModel?)]
  -- First the body is made, which does no harm; then the slot is filled.
  exact (h.evolves hevolves _).fill hc hsuits hstands

end Closing

/-! ### Results that stand -/

namespace Build

variable {α β : Type} {I : Workspace → Prop} {P Q : Registry → α → Prop}

/-- The work leads from workspaces with `I` to such workspaces and extends the registry; what is
said of its result stands. -/
def Gives (I : Workspace → Prop) (work : Build α) (Q : Registry → α → Prop) : Prop :=
  ∀ w, I w → Ends work w (fun a w' => I w' ∧ w.registry.Extends w'.registry ∧
    w'.registry.Stands fun r => Q r a) fun _ _ => True

theorem gives_pure {a : α} (h : ∀ r, Q r a) : Gives I (pure a) Q :=
  fun w hw => ⟨hw, .refl w.registry, fun r _ => h r⟩

/-- What follows may rely on what is said of the result. -/
theorem Gives.bind {work : Build α} {f : α → Build β} {Q : Registry → β → Prop}
    (h : Gives I work P) (hf : ∀ r a, P r a → Gives I (f a) fun r b => P r a → Q r b) :
    Gives I (work >>= f) Q := by
  intro w hw
  rw [ends_bind]
  refine (h w hw).mono_ok fun a w' ⟨hw', hextends, ha⟩ => ?_
  refine (hf _ a (ha _ (.refl _)) w' hw').mono_ok fun b w'' ⟨hw'', hextends', hb⟩ => ?_
  exact ⟨hw'', hextends.trans hextends', fun r hr => hb r hr (ha r (hextends'.trans hr))⟩

theorem Gives.mono {work : Build α} (h : Gives I work P) (hpq : ∀ r a, P r a → Q r a) :
    Gives I work Q := fun w hw =>
  (h w hw).mono_ok fun a _ ⟨hw', hextends, ha⟩ => ⟨hw', hextends, fun r hr => hpq r a (ha r hr)⟩

/-- The result is put into a larger one. -/
theorem Gives.into {work : Build α} {f : α → β} {Q : Registry → β → Prop} (h : Gives I work P)
    (hf : ∀ r a, P r a → Q r (f a)) : Gives I (work >>= fun a => pure (f a)) Q :=
  h.bind fun _ a _ => gives_pure fun r ha => hf r a ha

end Build

/-! ### The types of endpoints -/

/-- The types that an endpoint is made of: of its parameters, its request body, and the bodies of
its responses. -/
def Endpoint.types (e : Endpoint) : List TypeRef :=
  e.parameters.map EndpointParameter.type ++ e.requestBody.toList ++ e.responses.filterMap Prod.snd

/-- The type stands for a node of the compilation, or it is the type of a parameter without a
schema. -/
def Document.Types (config : Config) (d : Document) (r : Registry) (t : TypeRef) : Prop :=
  t = .scalar .string ∨ ∃ n, d.Modelled config n ∧ TypeOf r n t

section Endpoints

variable {config : Config} {d : Document}

theorem gives_report {findings : List Diagnostic} :
    Gives (Closing config d []) (Build.report findings) fun _ _ => True := fun _ hw =>
  ⟨⟨hw.used.noted _, hw.keyed, hw.named, hw.inlined, hw.filled⟩, .refl _, fun _ _ => trivial⟩

theorem gives_typing {α : Type} {naming : NamingConfig} {work : Typing α}
    {Q : Registry → α → Prop} (h : Typing.Yields naming (d.Modelled config) work Q) :
    Gives (Closing config d []) (Build.typing work) Q := by
  intro w hw
  rw [ends_typing]
  have hevolves := h.adds ⟨w.registry, w.session.diagnostics⟩
  exact ⟨hw.evolves hevolves _, hevolves.extends, h.result _ hw.ready⟩

/-- The type of a schema is the type of the node that answers for it. -/
theorem gives_schemaType {naming : NamingConfig} {s : Schema} {hint location : String}
    (hs : d.Uses config s) :
    Gives (Closing config d []) (schemaType d naming s hint location) fun r t =>
      ∃ n, d.Answers (.schema s location) n ∧ TypeOf r n t := by
  have hnode : Gives (Closing config d []) (resolving (d.resolveSchema s location)) fun _ n =>
      d.Answers (.schema s location) n ∧ d.Modelled config n := by
    intro w hw
    rw [ends_resolving]
    unfold Ends
    split
    · rename_i n t hn
      have hused : d.Used t := hw.used.run (.schema s location) hn
      exact ⟨⟨hused, hw.keyed, hw.named, hw.inlined, hw.filled⟩, .refl _,
        fun _ _ => ⟨⟨_, _, hw.used, hn⟩, .schema hs ⟨_, _, hw.used, hn⟩⟩⟩
    · trivial
  refine hnode.bind fun _ n ⟨_, hn⟩ => (gives_typing
    (Typing.nodeType_yields naming Document.Modelled.hereditary n hn hint location)).mono ?_
  exact fun r t ht ⟨hanswers, _⟩ => ⟨n, hanswers, ht⟩

namespace EndpointContext

variable (config) (ctx : EndpointContext)

theorem gives_parameterType {p : Parameter} {place : String}
    (hp : ∀ s, p.schema = some s → ctx.document.Uses config s) :
    Gives (Closing config ctx.document []) (ctx.parameterType p place)
      (ctx.document.Types config) := by
  unfold parameterType
  cases hs : p.schema with
  | none => exact gives_pure fun _ => .inl rfl
  | some s =>
    exact (gives_schemaType (hp s hs)).mono fun r t ⟨n, hanswers, ht⟩ =>
      .inr ⟨n, .schema (hp s hs) hanswers, ht⟩

theorem gives_parameters :
    ∀ (ps : List Parameter) (scope : NameScope),
      (∀ p ∈ ps, ∀ s, p.schema = some s → ctx.document.Uses config s) →
      Gives (Closing config ctx.document []) (ctx.parameters scope ps) fun r found =>
        ∀ p ∈ found, ctx.document.Types config r p.type
  | [], _, _ => gives_pure fun _ => by simp
  | p :: rest, scope, h => by
    unfold parameters
    have hrest := fun scope => gives_parameters rest scope fun q hq => h q (.tail _ hq)
    refine (gives_parameterType config ctx (h p (.head _))).bind fun _ t _ =>
      (gives_typing Typing.adds_allocate.yields).bind fun _ named _ =>
        (hrest named.2).into fun r found hfound _ ht q hq => ?_
    rcases List.mem_cons.1 hq with rfl | hq
    · exact ht
    · exact hfound q hq

/-- The type of a body: that of the node that answers for the schema of the media type that is
picked, or none if no media type has a schema. -/
def BodyTypeOf (r : Registry) (content : Table String MediaType) (location : String)
    (type : Option TypeRef) : Prop :=
  match selectMedia ctx.config.media.preferred content with
  | none => type = none
  | some (media, s) => ∃ n t, type = some t ∧ ctx.document.Answers
      (.schema s (location ++ "/content/" ++ Pointer.escape media ++ "/schema")) n ∧ TypeOf r n t

theorem gives_bodyType {content : Table String MediaType} {hint location : String}
    (h : ∀ media s, selectMedia ctx.config.media.preferred content = some (media, s) →
      ctx.document.Uses config s) :
    Gives (Closing config ctx.document []) (ctx.bodyType content hint location) fun r t =>
      ctx.BodyTypeOf r content location t := by
  unfold bodyType BodyTypeOf
  cases hm : selectMedia ctx.config.media.preferred content with
  | none => exact gives_pure fun _ => rfl
  | some selected =>
    exact (gives_schemaType (h selected.1 selected.2 hm)).into fun r t ⟨n, hanswers, ht⟩ =>
      ⟨n, t, rfl, hanswers, ht⟩

/-- The type of a body is one of the compilation. -/
theorem BodyTypeOf.types {ctx : EndpointContext} {r : Registry} {content : Table String MediaType}
    {location : String} {type : Option TypeRef} (ht : ctx.BodyTypeOf r content location type)
    (h : ∀ media s, selectMedia ctx.config.media.preferred content = some (media, s) →
      ctx.document.Uses config s) :
    ∀ t, type = some t → ctx.document.Types config r t := by
  intro t heq
  subst heq
  unfold BodyTypeOf at ht
  split at ht
  · simp at ht
  · rename_i media s hm
    obtain ⟨n, t', heq, hanswers, ht⟩ := ht
    rw [Option.some.injEq] at heq
    exact .inr ⟨n, .schema (h media s hm) hanswers, heq ▸ ht⟩

theorem gives_requestBody (op : Operation)
    (h : ∀ body, op.requestBody = some body → ∀ media s,
      selectMedia ctx.config.media.preferred body.content = some (media, s) →
      ctx.document.Uses config s) :
    Gives (Closing config ctx.document []) (ctx.requestBody op) fun r found =>
      ∀ type, found.1 = some type → ctx.document.Types config r type := by
  unfold requestBody
  cases hb : op.requestBody with
  | none => exact gives_pure fun _ => by simp
  | some body =>
    exact (gives_bodyType config ctx (h body hb)).into fun r t ht => ht.types config (h body hb)

theorem gives_responses :
    ∀ (rs : List (String × Response)) (found : Table StatusKey (Option TypeRef)),
      (∀ key response, (key, response) ∈ rs → ∀ status, StatusKey.ofText? key = some status →
        ∀ media s, selectMedia ctx.config.media.preferred response.content = some (media, s) →
        ctx.document.Uses config s) →
      Gives (Closing config ctx.document []) (ctx.responses found rs) fun r answers =>
        (∀ e ∈ found, ∀ type, e.2 = some type → ctx.document.Types config r type) →
        ∀ e ∈ answers, ∀ type, e.2 = some type → ctx.document.Types config r type
  | [], found, _ => gives_pure fun _ h => h
  | (key, response) :: rest, found, h => by
    have hrest := fun found => gives_responses rest found fun k r hmem => h k r (.tail _ hmem)
    unfold responses
    cases hk : StatusKey.ofText? key with
    | none =>
      exact gives_report.bind fun _ _ _ => (hrest found).mono fun _ _ hanswers _ => hanswers
    | some status =>
      have huses := h key response (.head _) status hk
      refine (gives_bodyType config ctx huses).bind fun _ t _ =>
        (hrest (Table.insert found status t)).mono fun r answers hanswers ht hfound => ?_
      refine hanswers fun e he type heq => ?_
      rcases Table.mem_insert he with rfl | he
      · exact ht.types config huses type heq
      · exact hfound e he type heq

end EndpointContext

/-- All types of the endpoint are of the compilation. -/
def Endpoint.Typed (config : Config) (d : Document) (r : Registry) (e : Endpoint) : Prop :=
  ∀ t ∈ e.types, d.Types config r t

theorem gives_buildEndpoint {callables : NameScope} {path : String} {method : HttpMethod}
    {op : Operation} {signature : Signature} {location : String}
    (h : ∀ s, op.Uses config signature s → d.Uses config s) :
    Gives (Closing config d [])
      (buildEndpoint d config callables path method op signature location) fun r found =>
        found.1.Typed config d r := by
  unfold buildEndpoint
  refine gives_report.bind fun _ _ _ => (gives_typing Typing.adds_allocate.yields).bind
    fun _ named _ => ?_
  let ctx : EndpointContext := ⟨d, config, location, camelHint named.1⟩
  have hparameters := EndpointContext.gives_parameters config ctx signature.ordered
    { case := .snake } fun p hp s hs => h s (.parameter hp hs)
  have hrequest := EndpointContext.gives_requestBody config ctx op
    fun body hb media s hm => h s (.request hb hm)
  have hresponses := EndpointContext.gives_responses config ctx op.responses []
    fun key response hr status hk media s hm => h s (.response hr hk hm)
  refine hparameters.bind fun _ parameters _ => hrequest.bind fun _ request _ =>
    hresponses.into fun r answers hanswers hrequest hparameters _ _ t ht => ?_
  simp only [Endpoint.types, List.mem_append, List.mem_map, Option.mem_toList,
    List.mem_filterMap] at ht
  rcases ht with (⟨p, hp, rfl⟩ | hbody) | ⟨e, he, hbody⟩
  · exact hparameters p hp
  · exact hrequest t hbody
  · exact hanswers (by simp) e he t hbody

theorem gives_pathEndpoints (path : String) {item : PathItem} {template : PathTemplate} :
    ∀ (operations : List (HttpMethod × Operation)) (callables : NameScope),
      (∀ s, item.Uses config template operations s → d.Uses config s) →
      Gives (Closing config d [])
        (pathEndpoints d config path item template callables operations) fun r found =>
          ∀ e ∈ found.1, e.Typed config d r
  | [], _, _ => gives_pure fun _ => by simp
  | (method, op) :: rest, callables, h => by
    have hrest := fun callables => gives_pathEndpoints path rest callables
      fun s ⟨m, o, sig, hmem, hs⟩ => h s ⟨m, o, sig, .tail _ hmem, hs⟩
    unfold pathEndpoints
    cases hsig : signatureOf template item op with
    | error fault =>
      exact gives_report.bind fun _ _ _ => (hrest callables).mono fun _ _ hfound _ => hfound
    | ok signature =>
      have huses : ∀ s, op.Uses config signature s → d.Uses config s :=
        fun s hs => h s ⟨method, op, signature, .head _, hsig, hs⟩
      refine (gives_buildEndpoint huses).bind fun _ made _ => (hrest made.2).into
        fun r found hfound hmade e he => ?_
      rcases List.mem_cons.1 he with rfl | he
      · exact hmade
      · exact hfound e he

theorem gives_tableEndpoints :
    ∀ (paths : List (String × PathItem)) (callables : NameScope),
      (∀ s, pathsUse config paths s → d.Uses config s) →
      Gives (Closing config d []) (tableEndpoints d config callables paths) fun r found =>
        ∀ e ∈ found, e.Typed config d r
  | [], _, _ => gives_pure fun _ => by simp
  | (path, item) :: rest, callables, h => by
    have hrest := fun callables => gives_tableEndpoints rest callables
      fun s ⟨p, i, t, hmem, hs⟩ => h s ⟨p, i, t, .tail _ hmem, hs⟩
    have htemplate : Gives (Closing config d []) (Build.ofExcept (PathTemplate.ofPath path))
        fun _ t => PathTemplate.ofPath path = .ok t := fun w hw => by
      unfold Build.ofExcept
      rw [ends_resolving, Resolution.ends_ofExcept]
      exact ⟨fun t ht => ⟨hw, .refl _, fun _ _ => ht⟩, fun _ _ => trivial⟩
    unfold tableEndpoints
    refine htemplate.bind fun _ template ht => ?_
    have hitem := gives_pathEndpoints (d := d) path item.operations callables
      fun s hs => h s ⟨path, item, template, .head _, ht, hs⟩
    refine hitem.bind fun _ made _ => (hrest made.2).into fun r found hfound hmade _ e he => ?_
    rcases List.mem_append.1 he with he | he
    · exact hmade e he
    · exact hfound e he

end Endpoints

/-! ### Compilations -/

section Components

variable {config : Config} {d : Document} {naming : NamingConfig}

/-- Before bodies are made, every slot is an empty one for a component. -/
structure Reserved (d : Document) (w : Workspace) : Prop where
  used : d.Used w.session
  inlined : w.registry.inlined = []
  slots : ∀ slot ∈ w.registry.slots, slot.body = none ∧ ∃ c ∈ d.componentNames,
    slot.sourceName = some c

theorem Reserved.reserveComponent {w : Workspace} (h : Reserved d w) {c : String}
    (hc : c ∈ d.componentNames) (findings : List Diagnostic) :
    Reserved d { session := { w.session with diagnostics := findings }
                 registry := (w.registry.reserveComponent naming c).2.1 } := by
  refine ⟨h.used.noted findings, ?_, ?_⟩
  · unfold Registry.reserveComponent
    split <;> exact h.inlined
  · unfold Registry.reserveComponent
    split
    · exact h.slots
    · intro slot hslot
      rcases List.mem_append.1 hslot with hslot | hslot
      · exact h.slots slot hslot
      · rw [List.mem_singleton] at hslot
        exact hslot ▸ ⟨rfl, c, hc, rfl⟩

/-- Once all names are reserved, all bodies are pending. -/
theorem Reserved.closing {w : Workspace} (config : Config) (h : Reserved d w)
    (hkeyed : w.registry.Keyed) (hnamed : ∀ c ∈ d.componentNames, w.registry.Named c) :
    Closing config d d.componentNames w where
  used := h.used
  keyed := hkeyed
  named c hc := by
    obtain ⟨i, hi⟩ := Option.isSome_iff_exists.1 (hnamed c hc)
    obtain ⟨slot, hs, -⟩ := hkeyed.slot c i hi
    exact ⟨slot.name, i, slot, hi, hs, rfl⟩
  inlined serial i hi := by simp [h.inlined] at hi
  filled i slot hs := by
    obtain ⟨hbody, c, hc, hsource⟩ := h.slots slot (List.mem_of_getElem? hs)
    exact .inl ⟨hbody, c, hc, hkeyed.component i slot c hs hsource⟩

theorem buildBodies_closing (naming : NamingConfig) :
    ∀ (cs : List String) (w : Workspace), (∀ c ∈ cs, c ∈ d.componentNames) →
      Closing config d cs w →
      Ends (buildBodies d naming cs) w (fun _ w' => Closing config d [] w') fun _ _ => True
  | [], _, _, hw => hw
  | c :: rest, w, hcs, hw => by
    unfold buildBodies
    rw [ends_bind, ends_resolving]
    unfold Ends
    split
    · rename_i n t hn
      have hanswers : d.Answers (.component c) n := ⟨_, _, hw.used, hn⟩
      have hresolved : Closing config d (c :: rest) { w with session := t } :=
        ⟨hw.used.run (.component c) hn, hw.keyed, hw.named, hw.inlined, hw.filled⟩
      have hfilled := hresolved.fillComponent naming (Pointer.component c) (hcs c (.head _))
        hanswers
      change Ends _ _ _ _
      rw [ends_bind]
      exact hfilled.mono_ok fun _ w' hw' =>
        buildBodies_closing naming rest w' (fun c hc => hcs c (.tail _ hc)) hw'
    · trivial

end Components

/-- All types of a client. -/
def Interface.types (i : Interface) : List TypeRef :=
  i.models.flatMap (fun m => m.body.types) ++ i.endpoints.flatMap Endpoint.types

/-- Once the models of the components are made, nothing is pending. -/
theorem buildModels_closing (config : Config) (d : Document) :
    Ends (buildModels d config.naming) {} (fun _ w => Closing config d [] w) fun _ _ => True := by
  have hstart : Reserved d {} := ⟨.start, rfl, by simp⟩
  have hempty : Progress config.naming (fun _ => True) (fun _ _ => True) [] [] {} :=
    ⟨trivial, Registry.keyed_empty, by simp, by simp⟩
  unfold buildModels
  rw [ends_bind]
  have hnames := (reserveNames_invariant config.naming d.componentNames
    (fun c hc w findings hw => hw.reserveComponent hc findings) {} hstart).and
    (reserveNames_ends (E := fun _ => True) (fun _ _ _ _ => trivial) d.componentNames [] {} hempty)
  refine hnames.mono (fun _ w ⟨hreserved, hprogress⟩ => ?_) fun _ _ _ => trivial
  have hclosing := hreserved.closing config hprogress.keyed fun c hc =>
    hprogress.named c (by rw [List.append_nil]; exact hc)
  exact buildBodies_closing config.naming d.componentNames w (fun _ hc => hc) hclosing

/-- The types of a client before they are written down: its registry at the end. -/
theorem compileAll_closing (config : Config) (d : Document) :
    Ends (compileAll config d) {} (fun endpoints w => Closing config d [] w ∧
      ∀ e ∈ endpoints, e.Typed config d w.registry) fun _ _ => True := by
  unfold compileAll extractEndpoints
  rw [ends_bind]
  refine (buildModels_closing config d).mono_ok fun _ w hw => ?_
  exact (gives_tableEndpoints d.paths _ (fun _ hs => hs) w hw).mono_ok
    fun endpoints w' ⟨hw', _, hendpoints⟩ => ⟨hw', hendpoints _ (.refl _)⟩

/-- Nothing is pending at the end, so every slot has the body of a node that suits it. -/
theorem Closing.body {config : Config} {d : Document} {w : Workspace}
    (h : Closing config d [] w) {slot : Slot} (hslot : slot ∈ w.registry.slots) :
    ∃ body n, slot.body = some body ∧ d.Suits config slot.sourceName n ∧
      BodyOf w.registry n body := by
  obtain ⟨i, hi⟩ := List.mem_iff_getElem?.1 hslot
  rcases h.filled i slot hi with ⟨-, _, hpending, -⟩ | ⟨body, n, hbody, hn, hstands⟩
  · simp at hpending
  · exact ⟨body, n, hbody, hn, hstands _ (.refl _)⟩

/-- The workspace at the end of a compilation that succeeds: its registry has the models of the
client, and nothing in it is pending. -/
structure Compilation.Final (config : Config) (d : Document) (c : Compilation) (w : Workspace) :
    Prop where
  run : compileAll config d {} = .ok c.interface.endpoints w
  models : c.interface.models = w.registry.finish
  closing : Closing config d [] w
  endpoints : ∀ e ∈ c.interface.endpoints, e.Typed config d w.registry

theorem compile_final {config : Config} {d : Document} {c : Compilation}
    (h : compile config d = .ok c) : ∃ w, c.Final config d w := by
  unfold compile at h
  split at h
  · rename_i endpoints w hrun
    rw [Except.ok.injEq] at h
    subst h
    obtain ⟨hclosing, hendpoints⟩ := (compileAll_closing config d).of_ok hrun
    exact ⟨w, hrun, rfl, hclosing, hendpoints⟩
  · simp at h

/-- Every model of the client has the body of a node that suits it. -/
theorem Compilation.Final.body {config : Config} {d : Document} {c : Compilation} {w : Workspace}
    (h : c.Final config d w) {m : Model} (hm : m ∈ c.interface.models) :
    ∃ n, d.Suits config m.sourceName n ∧ BodyOf w.registry n m.body := by
  rw [h.models] at hm
  obtain ⟨slot, hslot, hsource, hbody⟩ := Registry.mem_finish hm
  obtain ⟨body, n, hsome, hn, hof⟩ := h.closing.body hslot
  rw [hsource, hbody, hsome]
  exact ⟨n, hn, hof⟩

/-- The models are those of a registry in which nothing is missing: it has a model for every
component that a node of the compilation refers to, the body of every model is that of a node, and
every type of an endpoint is that of a node or of a parameter without a schema. -/
structure Interface.MadeOf (config : Config) (d : Document) (r : Registry) (i : Interface) :
    Prop where
  models : i.models = r.finish
  component : ∀ n, d.Modelled config n → ∀ c ∈ n.components, ∃ name ∈ i.modelNames,
    r.componentModel? c = some name
  body : ∀ m ∈ i.models, ∃ n, d.Suits config m.sourceName n ∧ BodyOf r n m.body
  endpoint : ∀ e ∈ i.endpoints, ∀ t ∈ e.types,
    t = .scalar .string ∨ ∃ n, d.Modelled config n ∧ TypeOf r n t

/-- The registry at the end of a compilation makes its models. -/
theorem Compilation.Final.madeOf {config : Config} {d : Document} {c : Compilation} {w : Workspace}
    (h : c.Final config d w) : c.interface.MadeOf config d w.registry where
  models := h.models
  component n hn component hc := by
    obtain ⟨name, hname⟩ := h.closing.named component (hn.only component hc)
    refine ⟨name, ?_, hname.componentModel?⟩
    rw [Interface.modelNames, h.models, Registry.finish_names]
    exact hname.mem
  body _ hm := h.body hm
  endpoint := h.endpoints

/-- **A client refers to its own models only.**  Every type in it is the type of a node, as it is
when every component that the node refers to has a model: no reference is lost on the way. -/
theorem compile_closed {config : Config} {d : Document} {c : Compilation}
    (h : compile config d = .ok c) :
    (∀ t ∈ c.interface.types, ∀ name ∈ t.references, name ∈ c.interface.modelNames) ∧
      ∃ r : Registry, c.interface.MadeOf config d r := by
  obtain ⟨w, hfinal⟩ := compile_final h
  refine ⟨fun t ht name hname => ?_, _, hfinal.madeOf⟩
  rw [Interface.modelNames, hfinal.models, Registry.finish_names]
  rcases List.mem_append.1 ht with ht | ht
  · obtain ⟨m, hm, ht⟩ := List.mem_flatMap.1 ht
    obtain ⟨n, -, hbody⟩ := hfinal.body hm
    exact hbody.references t ht name hname
  · obtain ⟨e, he, ht⟩ := List.mem_flatMap.1 ht
    rcases hfinal.endpoints e he t ht with rfl | ⟨n, -, htype⟩
    · simp [TypeRef.references] at hname
    · exact htype.references name hname

/-- A link of a chain: it leads to the next link and carries a mark of its own. -/
def chainLink : Schema where
  declaredType := some (.single "object")
  properties := [("next", { reference := some "#/components/schemas/Link" }),
    ("mark", { properties := [("text", { declaredType := some (.single "string") })] })]

/-- All links of a chain. -/
def chainLinks : Schema where
  items := some { reference := some "#/components/schemas/Link" }

/-- Chains, and an operation that answers with the links of one. -/
def chain : Document where
  components.schemas := [("Link", chainLink)]
  paths := [("/links", { get := some { responses := [("200",
    { content := [("application/json", { schema := some chainLinks })] })] } })]

/-- A link refers to the model of links while it is being made, and the mark has a model of its
own. -/
theorem compile_closed_chain : ∃ c, compile {} chain = .ok c ∧
    (∀ t ∈ c.interface.types, ∀ name ∈ t.references, name ∈ c.interface.modelNames) ∧
      ∃ r : Registry, c.interface.MadeOf {} chain r := by
  obtain ⟨c, hc⟩ := compile_eq_ok {} chain (by decide +kernel)
  exact ⟨c, hc, compile_closed hc⟩

end ApiBinding
