import ApiBinding.Compile
import ApiBinding.Proofs.Compilation.Models
import ApiBinding.Proofs.Compilation.Types
import ApiBinding.Proofs.Resolver.Components
import ApiBinding.Proofs.Resolver.Reordering
import ApiBinding.Proofs.Resolver.Termination

/-!
# Compilations

A compilation resolves every component in document order, and then the schemas that valid
operations use.  All of these resolutions work on one session, so what every resolution
keeps holds throughout, and what each of them says of its answer holds at the end.  The
model of a component gets its body once, from the node of the component; nothing that
follows changes it.

## Main definitions

* `Document.Uses` — the schemas outside the components that are resolved.
* `Build.Advances` — work that leads from workspaces with an invariant to such workspaces.

## Main results

* `compile_ends` — how a compilation ends, from how its resolutions end.
* `compile_claims` — sound claims hold of the nodes from which models are made.
-/

namespace ApiBinding

/-! ### The schemas of operations -/

/-- The schemas that are resolved for a valid operation. -/
inductive Operation.Uses (config : Config) (signature : Signature) (op : Operation) :
    Schema → Prop where
  | parameter {p : Parameter} {s : Schema} (hp : p ∈ signature.ordered)
      (hs : p.schema = some s) : Uses config signature op s
  | request {body : RequestBody} {media : String} {s : Schema}
      (hb : op.requestBody = some body)
      (hm : selectMedia config.media.preferred body.content = some (media, s)) :
      Uses config signature op s
  | response {key media : String} {response : Response} {status : StatusKey} {s : Schema}
      (hr : (key, response) ∈ op.responses) (hk : StatusKey.ofText? key = some status)
      (hm : selectMedia config.media.preferred response.content = some (media, s)) :
      Uses config signature op s

/-- The schemas that are resolved for the valid operations of a path. -/
def PathItem.Uses (config : Config) (template : PathTemplate) (item : PathItem)
    (operations : List (HttpMethod × Operation)) (s : Schema) : Prop :=
  ∃ method op signature, (method, op) ∈ operations ∧
    signatureOf template item op = .ok signature ∧ op.Uses config signature s

/-- The schemas that are resolved for the entries of a path table. -/
def pathsUse (config : Config) (paths : List (String × PathItem)) (s : Schema) : Prop :=
  ∃ path item template, (path, item) ∈ paths ∧ PathTemplate.ofPath path = .ok template ∧
    item.Uses config template item.operations s

/-- The schemas outside the components that are resolved. -/
def Document.Uses (config : Config) (d : Document) (s : Schema) : Prop :=
  pathsUse config d.paths s

/-- A path without a template is malformed. -/
theorem PathTemplate.ofPath_error {path : String} {cause : CompileError}
    (h : ofPath path = .error cause) : ∃ fault, cause = .malformedPath path fault := by
  unfold ofPath at h
  split at h
  · split at h
    · simp at h
    · exact ⟨_, by simpa using h.symm⟩
  · exact ⟨_, by simpa using h.symm⟩

/-! ### Parts of a compilation -/

namespace Build

variable {α β : Type} {w : Workspace} {ok : α → Workspace → Prop}
  {err : Interruption → Workspace → Prop}

theorem ends_resolving {work : Resolution α} :
    Ends (resolving work) w ok err ↔
      Ends work w.session (fun a s => ok a { w with session := s })
        fun e s => err e { w with session := s } := by
  simp only [Ends, resolving]
  cases work w.session <;> rfl

theorem ends_typing {work : Typing α} :
    Ends (typing work) w ok err ↔
      ok (work ⟨w.registry, w.session.diagnostics⟩).1
        { session := { w.session with
            diagnostics := (work ⟨w.registry, w.session.diagnostics⟩).2.diagnostics }
          registry := (work ⟨w.registry, w.session.diagnostics⟩).2.registry } := Iff.rfl

/-- The work leads from a workspace with `I` to one with `I`; its result meets `Q`, its
interruption meets `E`. -/
def Advances (I : Workspace → Prop) (E : Interruption → Prop) (work : Build α)
    (Q : α → Prop) : Prop :=
  ∀ w, I w → Ends work w (fun a w' => I w' ∧ Q a) fun e _ => E e

variable {I : Workspace → Prop} {E : Interruption → Prop}

theorem advances_pure {a : α} {Q : α → Prop} (h : Q a) : Advances I E (pure a) Q :=
  fun _ hw => ⟨hw, h⟩

theorem Advances.bind {work : Build α} {f : α → Build β} {Q : α → Prop} {R : β → Prop}
    (h : Advances I E work Q) (hf : ∀ a, Q a → Advances I E (f a) R) :
    Advances I E (work >>= f) R := by
  intro w hw
  rw [ends_bind]
  exact (h w hw).mono_ok fun a w' ⟨hw', ha⟩ => hf a ha w' hw'

theorem Advances.mono {work : Build α} {Q R : α → Prop} (h : Advances I E work Q)
    (hqr : ∀ a, Q a → R a) : Advances I E work R := fun w hw =>
  (h w hw).mono_ok fun a _ ⟨hw', ha⟩ => ⟨hw', hqr a ha⟩

end Build

open Build

/-! ### Endpoints -/

section Endpoints

variable {config : Config} {d : Document} {I : Workspace → Prop} {E : Interruption → Prop}
  {R : Schema → Prop}

/-- What making endpoints relies on: types may be made, and findings be reported, without
loss of `I`. -/
structure Stable (naming : NamingConfig) (I : Workspace → Prop) (E : Interruption → Prop) :
    Prop where
  typing : ∀ {α : Type} {work : Typing α}, Typing.Adds naming (fun _ => True) work →
    Advances I E (Build.typing work) fun _ => True
  report : ∀ {findings : List Diagnostic}, Advances I E (Build.report findings) fun _ => True

/-- Resolving schemas leaves the registry alone. -/
theorem advances_resolving {α : Type} {J : Registry → Prop} (work : Resolution α) :
    Advances (fun w => J w.registry) (fun _ => True) (resolving work) fun _ => True := by
  intro w hw
  rw [ends_resolving]
  unfold Ends
  split
  · exact ⟨hw, trivial⟩
  · trivial

/-- What holds of a registry however it evolves is kept. -/
theorem stable_of_evolves {naming : NamingConfig} {J : Registry → Prop}
    (h : ∀ {r r' : Registry}, r.Evolves naming (fun _ => True) r' → J r → J r') :
    Stable naming (fun w => J w.registry) fun _ => True where
  typing hadds w hw := by
    rw [ends_typing]
    exact ⟨h (hadds ⟨w.registry, w.session.diagnostics⟩) hw, trivial⟩
  report _ hw := ⟨hw, trivial⟩

/-- Schemas that are resolved with a result have the property. -/
def Resolves (d : Document) (I : Workspace → Prop) (E : Interruption → Prop)
    (R : Schema → Prop) (s : Schema) : Prop :=
  ∀ location, Advances I E (resolving (d.resolveSchema s location)) fun _ => R s

theorem schemaType_advances {naming : NamingConfig} (hI : Stable naming I E) {s : Schema}
    {hint location : String} (hs : Resolves d I E R s) :
    Advances I E (schemaType d naming s hint location) fun _ => R s :=
  (hs location).bind fun _ hr =>
    (hI.typing (Typing.nodeType_yields _ Node.hereditary_true _ trivial _ _).adds).mono
      fun _ _ => hr

namespace EndpointContext

variable (ctx : EndpointContext)

theorem parameterType_advances (hI : Stable ctx.config.naming I E) {p : Parameter} {place : String}
    (hp : ∀ s, p.schema = some s → Resolves ctx.document I E R s) :
    Advances I E (ctx.parameterType p place) fun _ => ∀ s, p.schema = some s → R s := by
  unfold parameterType
  cases hs : p.schema with
  | none => exact advances_pure (by simp)
  | some s =>
    exact (schemaType_advances hI (hp s hs)).mono fun _ hr t ht => Option.some.inj ht ▸ hr

theorem parameters_advances (hI : Stable ctx.config.naming I E) :
    ∀ (ps : List Parameter) (scope : NameScope),
      (∀ p ∈ ps, ∀ s, p.schema = some s → Resolves ctx.document I E R s) →
      Advances I E (ctx.parameters scope ps) fun _ => ∀ p ∈ ps, ∀ s, p.schema = some s → R s
  | [], _, _ => advances_pure (by simp)
  | p :: rest, _, h => by
    refine (parameterType_advances ctx hI (h p (.head _))).bind fun _ hp => ?_
    refine (hI.typing Typing.adds_allocate).bind fun _ _ => ?_
    refine (parameters_advances hI rest _ fun q hq => h q (.tail _ hq)).bind fun _ hrest => ?_
    exact advances_pure fun q hq => by
      rcases List.mem_cons.1 hq with rfl | hq
      · exact hp
      · exact hrest q hq

theorem bodyType_advances (hI : Stable ctx.config.naming I E) {content : Table String MediaType}
    {hint location : String}
    (h : ∀ media s, selectMedia ctx.config.media.preferred content = some (media, s) →
      Resolves ctx.document I E R s) :
    Advances I E (ctx.bodyType content hint location) fun _ =>
      ∀ media s, selectMedia ctx.config.media.preferred content = some (media, s) → R s := by
  unfold bodyType
  cases hm : selectMedia ctx.config.media.preferred content with
  | none => exact advances_pure (by simp)
  | some selected =>
    obtain ⟨media, s⟩ := selected
    refine (schemaType_advances hI (h media s hm)).bind fun _ hr => advances_pure ?_
    intro media' t ht
    simp only [Option.some.injEq, Prod.mk.injEq] at ht
    exact ht.2 ▸ hr

theorem requestBody_advances (hI : Stable ctx.config.naming I E) (op : Operation)
    (h : ∀ body, op.requestBody = some body → ∀ media s,
      selectMedia ctx.config.media.preferred body.content = some (media, s) →
      Resolves ctx.document I E R s) :
    Advances I E (ctx.requestBody op) fun _ => ∀ body, op.requestBody = some body →
      ∀ media s, selectMedia ctx.config.media.preferred body.content = some (media, s) → R s := by
  unfold requestBody
  cases hb : op.requestBody with
  | none => exact advances_pure (by simp)
  | some body =>
    exact (bodyType_advances ctx hI (h body hb)).bind fun _ hr =>
      advances_pure fun b hb' => Option.some.inj hb' ▸ hr

theorem responses_advances (hI : Stable ctx.config.naming I E) :
    ∀ (rs : List (String × Response)) (found : Table StatusKey (Option TypeRef)),
      (∀ key response, (key, response) ∈ rs → ∀ status, StatusKey.ofText? key = some status →
        ∀ media s, selectMedia ctx.config.media.preferred response.content = some (media, s) →
        Resolves ctx.document I E R s) →
      Advances I E (ctx.responses found rs) fun _ =>
        ∀ key response, (key, response) ∈ rs → ∀ status, StatusKey.ofText? key = some status →
          ∀ media s, selectMedia ctx.config.media.preferred response.content = some (media, s) →
          R s
  | [], _, _ => advances_pure (by simp)
  | (key, response) :: rest, found, h => by
    have hrest : ∀ found, Advances I E (ctx.responses found rest) _ := fun found =>
      responses_advances hI rest found fun k r hmem => h k r (.tail _ hmem)
    unfold responses
    cases hk : StatusKey.ofText? key with
    | none =>
      -- A response without a status is left out, so nothing is asked about it.
      refine hI.report.bind fun _ _ => (hrest found).mono fun _ hr k r hmem status hstatus => ?_
      rcases List.mem_cons.1 hmem with heq | hmem
      · simp only [Prod.mk.injEq] at heq
        rw [heq.1, hk] at hstatus
        simp at hstatus
      · exact hr k r hmem status hstatus
    | some status =>
      refine (bodyType_advances ctx hI (h key response (.head _) status hk)).bind fun _ hbody =>
        (hrest _).mono fun _ hr k r hmem status' hstatus => ?_
      rcases List.mem_cons.1 hmem with heq | hmem
      · simp only [Prod.mk.injEq] at heq
        rw [heq.2]
        exact hbody
      · exact hr k r hmem status' hstatus

end EndpointContext

theorem buildEndpoint_advances (hI : Stable config.naming I E) {callables : NameScope}
    {path : String} {method : HttpMethod} {op : Operation} {signature : Signature}
    {location : String} (h : ∀ s, op.Uses config signature s → Resolves d I E R s) :
    Advances I E (buildEndpoint d config callables path method op signature location) fun _ =>
      ∀ s, op.Uses config signature s → R s := by
  unfold buildEndpoint
  have hname : ∀ raw, Advances I E
      (typing (Typing.allocate config.naming callables raw location)) fun _ => True :=
    fun raw => hI.typing Typing.adds_allocate
  refine hI.report.bind fun _ _ => (hname _).bind fun named _ => ?_
  let ctx : EndpointContext := ⟨d, config, location, camelHint named.1⟩
  have hparameters := EndpointContext.parameters_advances (R := R) ctx hI signature.ordered
    { case := .snake } fun p hp s hs => h s (.parameter hp hs)
  have hrequest := EndpointContext.requestBody_advances (R := R) ctx hI op
    fun body hb media s hm => h s (.request hb hm)
  have hresponses := EndpointContext.responses_advances (R := R) ctx hI op.responses []
    fun key response hr status hk media s hm => h s (.response hr hk hm)
  refine hparameters.bind fun _ hparameters => ?_
  refine hrequest.bind fun _ hrequest => ?_
  refine hresponses.bind fun _ hresponses => advances_pure fun s hs => ?_
  cases hs with
  | parameter hp hs => exact hparameters _ hp s hs
  | request hb hm => exact hrequest _ hb _ s hm
  | response hr hk hm => exact hresponses _ _ hr _ hk _ s hm

theorem pathEndpoints_advances (hI : Stable config.naming I E) {path : String} {item : PathItem}
    {template : PathTemplate} :
    ∀ (operations : List (HttpMethod × Operation)) (callables : NameScope),
      (∀ s, item.Uses config template operations s → Resolves d I E R s) →
      Advances I E (pathEndpoints d config path item template callables operations) fun _ =>
        ∀ s, item.Uses config template operations s → R s
  | [], _, _ => advances_pure fun s ⟨_, _, _, hmem, _⟩ => by simp at hmem
  | (method, op) :: rest, callables, h => by
    have hrest : ∀ callables,
        Advances I E (pathEndpoints d config path item template callables rest) _ :=
      fun callables =>
      pathEndpoints_advances hI rest callables fun s ⟨m, o, sig, hmem, hs⟩ =>
        h s ⟨m, o, sig, .tail _ hmem, hs⟩
    unfold pathEndpoints
    cases hsig : signatureOf template item op with
    | error fault =>
      -- An operation without a signature uses no schema.
      refine hI.report.bind fun _ _ => (hrest callables).mono fun _ hr s hs => ?_
      obtain ⟨m, o, sig, hmem, hok, huses⟩ := hs
      rcases List.mem_cons.1 hmem with heq | hmem
      · simp only [Prod.mk.injEq] at heq
        rw [heq.2, hsig] at hok
        simp at hok
      · exact hr s ⟨m, o, sig, hmem, hok, huses⟩
    | ok signature =>
      refine (buildEndpoint_advances (R := R) hI
        fun s hs => h s ⟨method, op, signature, .head _, hsig, hs⟩).bind fun _ hop =>
          (hrest _).bind fun _ hr => advances_pure fun s hs => ?_
      obtain ⟨m, o, sig, hmem, hok, huses⟩ := hs
      rcases List.mem_cons.1 hmem with heq | hmem
      · simp only [Prod.mk.injEq] at heq
        rw [heq.2, hsig, Except.ok.injEq] at hok
        exact hop s (by rw [hok, ← heq.2]; exact huses)
      · exact hr s ⟨m, o, sig, hmem, hok, huses⟩

/-- **Endpoints are made from the schemas that are used**, if every path has a template. -/
theorem tableEndpoints_advances (hI : Stable config.naming I E) :
    ∀ (paths : List (String × PathItem)) (callables : NameScope),
      (∀ path item, (path, item) ∈ paths → ∀ cause, PathTemplate.ofPath path = .error cause →
        E (.rejected cause)) →
      (∀ s, pathsUse config paths s → Resolves d I E R s) →
      Advances I E (tableEndpoints d config callables paths) fun _ =>
        (∀ path item, (path, item) ∈ paths → ∃ template, PathTemplate.ofPath path = .ok template) ∧
          ∀ s, pathsUse config paths s → R s
  | [], _, _, _ => advances_pure ⟨by simp, fun s ⟨_, _, _, hmem, _⟩ => by simp at hmem⟩
  | (path, item) :: rest, callables, hpath, h => by
    have hrest : ∀ callables, Advances I E (tableEndpoints d config callables rest) _ :=
      fun callables => tableEndpoints_advances hI rest callables
        (fun p i hmem => hpath p i (.tail _ hmem)) fun s ⟨p, i, t, hmem, hs⟩ =>
          h s ⟨p, i, t, .tail _ hmem, hs⟩
    have htemplate : Advances I E (Build.ofExcept (PathTemplate.ofPath path)) fun t =>
        PathTemplate.ofPath path = .ok t := fun w hw => by
      unfold Build.ofExcept
      rw [ends_resolving, Resolution.ends_ofExcept]
      exact ⟨fun t ht => ⟨hw, ht⟩, fun cause hc => hpath path item (.head _) cause hc⟩
    refine htemplate.bind fun template htemplate => ?_
    refine (pathEndpoints_advances (R := R) hI _ _ fun s hs =>
      h s ⟨path, item, template, .head _, htemplate, hs⟩).bind fun _ hitem => ?_
    refine (hrest _).bind fun _ hr => advances_pure ⟨fun p i hmem => ?_, fun s hs => ?_⟩
    · rcases List.mem_cons.1 hmem with heq | hmem
      · simp only [Prod.mk.injEq] at heq
        exact ⟨template, by rw [heq.1, htemplate]⟩
      · exact hr.1 p i hmem
    · obtain ⟨p, i, t, hmem, ht, huses⟩ := hs
      rcases List.mem_cons.1 hmem with heq | hmem
      · simp only [Prod.mk.injEq] at heq
        rw [heq.1, htemplate, Except.ok.injEq] at ht
        exact hitem s (by rw [ht, ← heq.2]; exact huses)
      · exact hr.2 s ⟨p, i, t, hmem, ht, huses⟩

end Endpoints

/-! ### Components -/

section Components

variable {d : Document} {naming : NamingConfig} {J : Session → Prop} {E : Interruption → Prop}
  {P : String → Node → Prop}

/-- What reserving the name of a component keeps, reserving all names keeps. -/
theorem reserveNames_invariant (naming : NamingConfig) {I : Workspace → Prop} :
    ∀ cs : List String, (∀ c ∈ cs, ∀ w findings, I w →
        I { session := { w.session with diagnostics := findings }
            registry := (w.registry.reserveComponent naming c).2.1 }) →
      ∀ w, I w → Ends (reserveNames naming cs) w (fun _ w' => I w') fun _ _ => True
  | [], _, _, hw => hw
  | c :: rest, h, w, hw => by
    unfold reserveNames
    rw [ends_bind, ends_typing]
    exact reserveNames_invariant naming rest (fun c hc => h c (.tail _ hc)) _ (h c (.head _) w _ hw)

/-- The session is as promised, every component has one slot, the given components have a name,
and those of another list have a body. -/
structure Progress (naming : NamingConfig) (J : Session → Prop) (P : String → Node → Prop)
    (named bodied : List String) (w : Workspace) : Prop where
  session : J w.session
  keyed : w.registry.Keyed
  named : ∀ c ∈ named, w.registry.Named c
  bodied : ∀ c ∈ bodied, w.registry.Bodied c (MadeFrom naming (P c))

theorem reserveNames_ends (hJ : ∀ s t, s.Alike t → J s → J t) :
    ∀ (cs named : List String) (w : Workspace), Progress naming J P named [] w →
      Ends (reserveNames naming cs) w (fun _ w' => Progress naming J P (cs ++ named) [] w')
        fun e _ => E e
  | [], named, w, h => h
  | c :: rest, named, w, h => by
    unfold reserveNames
    rw [ends_bind, ends_typing]
    obtain ⟨hkeyed, hc, hothers⟩ := Registry.reserveComponent_keyed naming h.keyed c
    refine Ends.mono_ok (reserveNames_ends hJ rest (c :: named) _ ?_) fun _ w' h' =>
      ⟨h'.session, h'.keyed, fun c' hc' => h'.named c' ?_, by simp⟩
    · refine ⟨hJ w.session _ ⟨rfl, rfl⟩ h.session, hkeyed, fun c' hc' => ?_, by simp⟩
      rcases List.mem_cons.1 hc' with rfl | hc'
      · exact hc
      · exact hothers c' (h.named c' hc')
    · simp only [List.mem_append, List.mem_cons] at hc' ⊢
      tauto

/-- The model of a component gets its body from the node of the component. -/
theorem buildBody_ends (hJ : ∀ s t, s.Alike t → J s → J t) {named bodied : List String}
    {c : String} {w : Workspace} {n : Node} {location : String} (hc : c ∈ named) (hn : P c n)
    (h : Progress naming J P named bodied w) :
    Ends (typing (Typing.fillComponent naming c n location)) w
      (fun _ w' => Progress naming J P named (c :: bodied) w') fun e _ => E e := by
  obtain ⟨index, hindex⟩ := Option.isSome_iff_exists.1 (h.named c hc)
  obtain ⟨name, hmodel⟩ : ∃ name, w.registry.componentModel? c = some name :=
    ⟨w.registry.nameAt index, by simp [Registry.componentModel?, hindex]⟩
  rw [ends_typing]
  generalize hbench : (⟨w.registry, w.session.diagnostics⟩ : Workbench) = bench
  have hregistry : bench.registry = w.registry := by rw [← hbench]
  rw [← hregistry] at hmodel
  -- Making the body lets the registry grow; then the slot is filled.
  have hgrows := ((Typing.modelBody_yields naming Node.hereditary_true (n := n) trivial name
    location).adds bench).grows
  have hbody : MadeFrom naming (P c)
      (Typing.modelBody naming n name location bench).1 :=
    ⟨n, _, _, _, hn, rfl⟩
  rw [hregistry] at hgrows
  obtain ⟨hkeyed, hsame, hfilled, hothers⟩ := Registry.fillComponent_keyed
    (B := MadeFrom naming (P c)) (hgrows.keyed h.keyed) (hgrows.named (h.named c hc))
    n.description (Typing.modelBody naming n name location bench).1
  rw [← Typing.fillComponent_registry hmodel] at hkeyed hsame hfilled hothers
  refine ⟨hJ w.session _ ⟨rfl, rfl⟩ h.session, hkeyed, fun c' hc' => ?_, fun c' hc' => ?_⟩
  · have hnamed := hgrows.named (h.named c' hc')
    unfold Registry.Named at hnamed ⊢
    rwa [hsame]
  · by_cases hcc : c' = c
    · rw [hcc]
      exact hfilled hbody
    · exact hothers c' _ hcc
        (hgrows.bodied h.keyed (h.bodied c' ((List.mem_cons.1 hc').resolve_left hcc)))

/-- **Every component gets a model** with a body from its node, if its node is found.  What is
promised of the session may depend on the components that are done, the last one first. -/
theorem buildBodies_ends {J : List String → Session → Prop}
    (hJ : ∀ done s t, s.Alike t → J done s → J done t) {named : List String}
    (hcomponent : ∀ done c rest, named = done.reverse ++ c :: rest → ∀ s, J done s →
      Ends (d.resolveComponent c) s (fun n t => J (c :: done) t ∧ P c n) fun e _ => E e) :
    ∀ (cs bodied : List String) (w : Workspace), named = bodied.reverse ++ cs →
      Progress naming (J bodied) P named bodied w →
      Ends (buildBodies d naming cs) w
        (fun _ w' => Progress naming (J (cs.reverse ++ bodied)) P named (cs ++ bodied) w')
        fun e _ => E e
  | [], bodied, w, _, h => h
  | c :: rest, bodied, w, hsplit, h => by
    unfold buildBodies
    rw [ends_bind, ends_resolving]
    have hc : c ∈ named := by simp [hsplit]
    refine (hcomponent bodied c rest hsplit w.session h.session).mono_ok fun n t ⟨ht, hn⟩ => ?_
    rw [ends_bind]
    have hstart : Progress naming (J (c :: bodied)) P named bodied { w with session := t } :=
      ⟨ht, h.keyed, h.named, h.bodied⟩
    refine (buildBody_ends (hJ _) hc hn hstart).mono_ok fun _ w' hw' => ?_
    refine (buildBodies_ends hJ hcomponent rest (c :: bodied) w'
      (by simp [hsplit]) hw').mono_ok fun _ w'' h' =>
        ⟨?_, h'.keyed, h'.named, fun c' hc' => h'.bodied c' ?_⟩
    · rw [List.reverse_cons, List.append_assoc]
      exact h'.session
    · simp only [List.mem_append, List.mem_cons] at hc' ⊢
      tauto

end Components

/-! ### Compilations -/

/-- What every compilation ends with. -/
structure Compiled (config : Config) (d : Document) (P : String → Node → Prop)
    (R : Schema → Prop) (c : Compilation) : Prop where
  /-- Every component has a model, whose body is made from its node. -/
  model : ∀ component ∈ d.componentNames, ∃ m, ModelOf c.interface.models component m ∧
    MadeFrom config.naming (P component) m.body
  /-- Every path has a template. -/
  template : ∀ path item, (path, item) ∈ d.paths →
    ∃ template, PathTemplate.ofPath path = .ok template
  /-- The schemas that are used have been resolved. -/
  uses : ∀ s, d.Uses config s → R s

/-- **How a compilation ends**, from how its resolutions end.  Each of them starts from a session
with `J`, given the components that are done, and leads to one with `J`. -/
theorem compile_ends (config : Config) (d : Document) {J : List String → Session → Prop}
    {E : Interruption → Prop} {P : String → Node → Prop} {R : Schema → Prop}
    (hJ : ∀ done s t, s.Alike t → J done s → J done t) (hempty : J [] {})
    (hcomponent : ∀ done c rest, d.componentNames = done.reverse ++ c :: rest → ∀ s, J done s →
      Ends (d.resolveComponent c) s (fun n t => J (c :: done) t ∧ P c n) fun e _ => E e)
    (hschema : ∀ t, d.Uses config t → ∀ location s, J d.componentNames.reverse s →
      Ends (d.resolveSchema t location) s (fun _ u => J d.componentNames.reverse u ∧ R t)
        fun e _ => E e)
    (hpath : ∀ path item, (path, item) ∈ d.paths → ∀ cause,
      PathTemplate.ofPath path = .error cause → E (.rejected cause)) :
    match compile config d with
    | .ok c => Compiled config d P R c
    | .error e => E e := by
  have hstart : Progress config.naming (J []) P [] [] {} :=
    ⟨hempty, Registry.keyed_empty, by simp, by simp⟩
  -- Once all bodies are made, endpoints only let the registry grow.
  have hstable : Stable config.naming (Progress config.naming (J d.componentNames.reverse) P
      d.componentNames d.componentNames) E := by
    refine ⟨fun {α work} hwork w hw => ?_, fun {findings} w hw => ?_⟩
    · have hgrows := (hwork ⟨w.registry, w.session.diagnostics⟩).grows
      rw [ends_typing]
      exact ⟨⟨hJ _ w.session _ ⟨rfl, rfl⟩ hw.session, hgrows.keyed hw.keyed,
        fun c hc => hgrows.named (hw.named c hc),
        fun c hc => hgrows.bodied hw.keyed (hw.bodied c hc)⟩, trivial⟩
    · exact ⟨⟨hJ _ w.session _ ⟨rfl, rfl⟩ hw.session, hw.keyed, hw.named, hw.bodied⟩, trivial⟩
  have hrun : Ends (compileAll config d) {} (fun _ w =>
      Progress config.naming (J d.componentNames.reverse) P d.componentNames d.componentNames w ∧
        (∀ path item, (path, item) ∈ d.paths →
          ∃ template, PathTemplate.ofPath path = .ok template) ∧
        ∀ s, d.Uses config s → R s) fun e _ => E e := by
    unfold compileAll buildModels extractEndpoints
    rw [ends_bind, ends_bind]
    -- First all names, then all bodies, then the endpoints.
    refine (reserveNames_ends (hJ []) d.componentNames [] {} hstart).mono_ok fun _ w hw => ?_
    rw [List.append_nil] at hw
    refine (buildBodies_ends hJ hcomponent d.componentNames [] w rfl
      hw).mono_ok fun _ w' hw' => ?_
    rw [List.append_nil, List.append_nil] at hw'
    refine tableEndpoints_advances hstable d.paths _ hpath (fun s hs location w hw => ?_) w' hw'
    rw [ends_resolving]
    exact (hschema s hs location w.session hw.session).mono_ok fun _ t ⟨ht, hr⟩ =>
      ⟨⟨ht, hw.keyed, hw.named, hw.bodied⟩, hr⟩
  unfold compile
  cases hc : compileAll config d {} with
  | error e w => exact hrun.of_error hc
  | ok endpoints w =>
    obtain ⟨hprogress, htemplate, huses⟩ := hrun.of_ok hc
    exact ⟨fun component hmem => (hprogress.bodied component hmem).model hprogress.keyed,
      htemplate, huses⟩

/-- What sound claims say of a compilation: they hold of the nodes from which models are made,
and no compilation is exhausted. -/
def Claims.Compile (K : Claims) (config : Config) (d : Document) : Prop :=
  match compile config d with
  | .ok c => Compiled config d K.component (fun s => ∃ n, K.schema (openIn []) s none false n) c
  | .error e => e ≠ .exhausted

/-- Sound claims hold of the compilation of every description with the same resolutions. -/
theorem Claims.Sound.compile_of_eq (config : Config) {d d' : Document} {K : Claims}
    (hK : K.Sound d) (hbase : ∀ q, ¬ K.base q)
    (hcomponents : ∀ c, d'.resolveComponent c = d.resolveComponent c)
    (hschemas : ∀ t location, d'.resolveSchema t location = d.resolveSchema t location) :
    K.Compile config d' := by
  refine compile_ends config d' (J := fun _ s => K.Kept s ∧ s.stack = [])
    (fun _ s t hst ⟨hs, hstack⟩ => ⟨hs.alike hst, hst.stack.trans hstack⟩)
    ⟨fun _ _ _ _ h => by simp at h, rfl⟩ (fun _ c _ _ s ⟨hs, hstack⟩ => ?_)
    (fun t _ location s ⟨hs, hstack⟩ => ?_) fun path item _ cause _ => nofun
  · rw [hcomponents]
    exact ((hK.resolveComponent hbase c hs hstack).and
      (d.resolve_ends (Pointer.component c) s)).mono
      (fun n t ⟨⟨ht, hn⟩, hlater⟩ => ⟨⟨ht, hlater.stack.trans hstack⟩, hn⟩) fun _ _ he => he.2
  · rw [hschemas]
    exact ((hK.resolveSchema hbase t location hs hstack).and
      (d.resolveSchema_ends t location s)).mono
      (fun n u ⟨⟨hu, hn⟩, hlater⟩ => ⟨⟨hu, hlater.stack.trans hstack⟩, n, hn⟩) fun _ _ he => he.2

/-- **Sound claims hold of compilations.** -/
theorem compile_claims (config : Config) {d : Document} {K : Claims} (hK : K.Sound d)
    (hbase : ∀ q, ¬ K.base q) : K.Compile config d :=
  hK.compile_of_eq config hbase (fun _ => rfl) fun _ _ => rfl

/-- **They hold in every order of the components.** -/
theorem Document.Reorders.compile_claims (config : Config) {d d' : Document} (hd : d'.Reorders d)
    {K : Claims} (hK : K.Sound d) (hbase : ∀ q, ¬ K.base q) : K.Compile config d' :=
  hK.compile_of_eq config hbase hd.agrees.resolveComponent_eq hd.agrees.resolveSchema_eq

/-- Whether a compilation has a result can be computed. -/
theorem compile_eq_ok (config : Config) (d : Document) (h : (compile config d).isOk) :
    ∃ c, compile config d = .ok c := by
  cases hc : compile config d with
  | ok c => exact ⟨c, rfl⟩
  | error e =>
    rw [hc] at h
    exact absurd h (by simp [Except.isOk, Except.toBool])

/-- Whether a compilation ends with a given interruption can be computed. -/
instance (config : Config) (d : Document) (e : Interruption) :
    Decidable (compile config d = .error e) :=
  match hc : compile config d with
  | .error e' => decidable_of_iff (e' = e) (by simp)
  | .ok _ => isFalse (by simp)

end ApiBinding
