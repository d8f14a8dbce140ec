import ApiBinding.Proofs.Compilation.Attribution
import ApiBinding.Proofs.Compilation.Operations
import ApiBinding.Proofs.Compilation.Writing
import ApiBinding.Proofs.Resolver.Recording

/-!
# What compiling records

A compilation resolves the components and then, operation by operation, the schemas of parameters,
bodies and responses.  Each of these schemas is resolved from an entry of its own, so the work of a
whole compilation is confined as that of a single run is.  Types and models are made from nodes that
are recorded.

## Main definitions

* `Recording` — what a workspace and a ledger have in common.
* `Employed` — the schemas of operations, with their entries.

## Main results

* `compileAll_recording` — **the nodes of a compilation are recorded.**
-/

namespace ApiBinding

open Build

/-! ### Workspaces -/

/-- The nodes that are recorded among those of the compilation. -/
def Document.Noted (config : Config) (d : Document) (L : Ledger) (n : Node) : Prop :=
  d.Modelled config n ∧ n.Recorded L

/-- The session is as the ledger says, and the slots that are no components' are those of nodes
that are recorded. -/
structure Recording (config : Config) (d : Document) (pending : List String) (w : Workspace)
    (L : Ledger) : Prop where
  closing : Closing config d pending w
  tracks : Tracks config d [] w.session L
  attributed : w.registry.Attributed (d.Noted config L) fun _ => False

section Recording

variable {config : Config} {d : Document} {pending : List String} {w : Workspace} {L : Ledger}

theorem Document.Noted.hereditary : Node.Hereditary (d.Noted config L) where
  object hn hshape := by
    have hparts := hn.2.parts
    rw [hshape] at hparts
    refine ⟨fun e he => ⟨hn.1.property hshape he, hparts _ ?_⟩,
      fun m hm => ⟨hn.1.additional (hm ▸ hshape), hparts _ (Shape.mem_parts_object.2 (.inr hm))⟩⟩
    exact Shape.mem_parts_object.2 (.inl ⟨e, he, rfl⟩)
  array hn hshape := ⟨hn.1.items hshape, hn.2.parts _ (by simp [hshape, Shape.parts])⟩
  union hn hshape m hm := ⟨hn.1.variant hshape hm, hn.2.parts _ (by simpa [hshape, Shape.parts])⟩

theorem Recording.ready (h : Recording config d pending w L) :
    w.registry.Ready (d.Noted config L) :=
  ⟨fun n hn => h.closing.ready.models n hn.1, h.closing.inlined⟩

/-- Types are made of nodes that are recorded. -/
theorem Recording.evolves (h : Recording config d pending w L) {naming : NamingConfig}
    {r : Registry} (hr : w.registry.Evolves naming (d.Noted config L) r)
    (findings : List Diagnostic) :
    Recording config d pending
      { session := { w.session with diagnostics := findings }, registry := r } L where
  closing := h.closing.evolves (hr.mono fun _ hn => hn.1) findings
  tracks := h.tracks.alike ⟨rfl, rfl⟩
  attributed := hr.attributed Document.Noted.hereditary h.ready h.attributed

/-- **A query is answered** from a region where nothing is recorded yet. -/
theorem Recording.resolve (h : Recording config d pending w L) (query : Query) {R : Site → Prop}
    (hled : Led config d [] query.request) (hlocated : Located config d [] R query.request)
    (hvacant : L.Vacant config d R) :
    Ends (query.work d) w.session (fun n s => ∃ L',
      Recording config d pending { w with session := s } L' ∧ L.Grows config d [] R L' ∧
        n.Recorded L' ∧ d.Answers query n) fun _ _ => True := by
  have hrun := Logging.run (Document.stepBound (query.size d)) [] R query.request hled hlocated
    w.session L h.tracks (by simp) hvacant
  unfold Ends at hrun ⊢
  rw [← query.work_eq_guarded h.closing.used] at hrun
  split
  · rename_i n s hn
    rw [hn] at hrun
    obtain ⟨L', htracks, hgrows, hrecorded⟩ := hrun
    have hclosing : Closing config d pending { w with session := s } :=
      { h.closing with used := h.closing.used.run query hn }
    refine ⟨L', ⟨hclosing, htracks, h.attributed.mono fun m hm => ⟨hm.1, ?_⟩⟩, hgrows,
      hrecorded n (by simp), _, _, h.closing.used, hn⟩
    exact hm.2.mono hgrows.keeps
  · trivial

/-- Where nothing is open, a request is led to if what it names is asked for. -/
theorem led_nil {r : Request} (h : ∀ p composed, r.Names p composed → d.Asks config p) :
    Led config d [] r where
  asked := h
  parts q hq := by simp [openIn] at hq
  reaching q hq := by simp [openIn] at hq
  composed q hq := by simp [openIn] at hq

/-! ### Components -/

/-- The body of a component's model is made from nodes that are recorded. -/
theorem Recording.fillComponent {c : String} {n : Node} (naming : NamingConfig) (location : String)
    (h : Recording config d (c :: pending) w L) (hc : c ∈ d.componentNames)
    (hn : d.Answers (.component c) n) (hrecorded : n.Recorded L) :
    Ends (typing (Typing.fillComponent naming c n location)) w
      (fun _ w' => Recording config d pending w' L) fun _ _ => True := by
  have hnoted : d.Noted config L n := ⟨.component hc hn, hrecorded⟩
  suffices hrest : Ends (typing (Typing.fillComponent naming c n location)) w (fun _ w' =>
      Tracks config d [] w'.session L ∧
        w'.registry.Attributed (d.Noted config L) fun _ => False) fun _ _ => True by
    exact ((h.closing.fillComponent naming location hc hn).and hrest).mono
      (fun _ _ hend => ⟨hend.1, hend.2.1, hend.2.2⟩) fun _ _ _ => trivial
  obtain ⟨name, hmodel⟩ := h.closing.named c hc
  have hcomponent := hmodel.componentModel?
  obtain ⟨index, slot, hindex, -, -⟩ := hmodel
  rw [ends_typing]
  generalize hbench : (⟨w.registry, w.session.diagnostics⟩ : Workbench) = bench
  have hregistry : bench.registry = w.registry := by rw [← hbench]
  have hevolves := (Typing.modelBody_yields naming Document.Noted.hereditary hnoted name
    location).adds bench
  rw [hregistry] at hevolves
  rw [Typing.fillComponent_registry (by rw [hregistry]; exact hcomponent)]
  have hfound := hevolves.grows.components ▸ hindex
  rw [Registry.fillComponent, hfound]
  refine ⟨h.tracks.alike ⟨rfl, rfl⟩, ?_⟩
  exact (hevolves.attributed Document.Noted.hereditary h.ready h.attributed).fillComponent
    (hevolves.grows.keyed h.closing.keyed) hfound

/-- The components are resolved one after the other. -/
theorem buildBodies_recording (naming : NamingConfig) :
    ∀ (cs : List String) (w : Workspace) (L : Ledger), (∀ c ∈ cs, c ∈ d.componentNames) →
      Recording config d cs w L →
      Ends (buildBodies d naming cs) w (fun _ w' => ∃ L', Recording config d [] w' L' ∧
        L.Grows config d [] (fun _ => False) L') fun _ _ => True
  | [], _, L, _, hw => ⟨L, hw, .refl L⟩
  | c :: rest, w, L, hcs, hw => by
    unfold buildBodies
    rw [ends_bind, ends_resolving]
    have hc := hcs c (.head _)
    have hled : Led config d [] (Query.component c).request := by
      refine led_nil fun p composed hp => ?_
      obtain ⟨rfl, -⟩ := hp
      exact .component hc
    refine (hw.resolve (.component c) hled .reference fun _ _ hσ => hσ.elim).mono_ok
      fun n t hresolved => ?_
    obtain ⟨L₁, hrecording, hgrows, hn, hanswers⟩ := hresolved
    rw [ends_bind]
    refine (hrecording.fillComponent naming _ hc hanswers hn).mono_ok fun _ w' hw' => ?_
    refine (buildBodies_recording naming rest w' L₁ (fun c hc => hcs c (.tail _ hc)) hw').mono_ok
      fun _ w'' hrest => ?_
    obtain ⟨L₂, hw'', hgrows'⟩ := hrest
    exact ⟨L₂, hw'', hgrows.trans hgrows'⟩

end Recording

/-! ### Operations -/

/-- The operation of an entry, by the position of its path and its method. -/
def Entry.operation? : Entry → Option (Nat × HttpMethod)
  | .pointer _ => none
  | .parameter path method _ => some (path, method)
  | .request path method => some (path, method)
  | .response path method _ => some (path, method)

/-- A valid operation of the description. -/
structure Document.Declares (d : Document) (i : Nat) (path : String) (item : PathItem)
    (template : PathTemplate) (method : HttpMethod) (op : Operation) (signature : Signature) :
    Prop where
  hitem : d.paths[i]? = some (path, item)
  htemplate : PathTemplate.ofPath path = .ok template
  hop : (method, op) ∈ item.operations
  hsignature : signatureOf template item op = .ok signature

/-- The schema of a valid operation, with its entry. -/
structure Employed (config : Config) (d : Document) (e : Entry) (s : Schema) : Prop where
  operation : e.operation?.isSome
  begins : d.Begins config e s
  uses : d.Uses config s

section Operations

variable {config : Config} {d : Document} {i : Nat} {path : String}
  {item : PathItem} {template : PathTemplate} {method : HttpMethod} {op : Operation}
  {signature : Signature} {s : Schema}

namespace Document.Declares

theorem uses (h : d.Declares i path item template method op signature)
    (hs : op.Uses config signature s) : d.Uses config s :=
  ⟨path, item, template, List.mem_of_getElem? h.hitem, h.htemplate, method, op, signature,
    h.hop, h.hsignature, hs⟩

theorem parameter (h : d.Declares i path item template method op signature) {p : Parameter}
    (hp : p ∈ signature.ordered) (hs : p.schema = some s) :
    Employed config d (.parameter i method p.key) s :=
  ⟨rfl, .parameter h.hitem (PathItem.operation?_of_mem h.hop) h.htemplate h.hsignature hp hs,
    h.uses (.parameter hp hs)⟩

theorem request (h : d.Declares i path item template method op signature) {body : RequestBody}
    {media : String} (hbody : op.requestBody = some body)
    (hm : selectMedia config.media.preferred body.content = some (media, s)) :
    Employed config d (.request i method) s :=
  ⟨rfl, .request h.hitem (PathItem.operation?_of_mem h.hop) hbody hm,
    h.uses (.request hbody hm)⟩

theorem response (h : d.Declares i path item template method op signature) {index : Nat}
    {key media : String} {response : Response} {status : StatusKey}
    (hresponse : op.responses[index]? = some (key, response))
    (hstatus : StatusKey.ofText? key = some status)
    (hm : selectMedia config.media.preferred response.content = some (media, s)) :
    Employed config d (.response i method index) s :=
  ⟨rfl, .response h.hitem (PathItem.operation?_of_mem h.hop) hresponse hm,
    h.uses (.response (List.mem_of_getElem? hresponse) hstatus hm)⟩

/-- The parameters of an operation are told apart by their keys. -/
theorem nodup (h : d.Declares i path item template method op signature) :
    (signature.ordered.map Parameter.key).Nodup := by
  have hvalid := (signatureOf_isOk_iff h.htemplate item op).1 ⟨signature, h.hsignature⟩
  exact ((signatureOf_arranged h.htemplate h.hsignature).perm.map _).nodup_iff.2
    (effectiveParameters_nodup hvalid.shared hvalid.own)

end Document.Declares

/-! ### Schemas of operations -/

theorem Entry.open_of_operation? {e : Entry} (h : e.operation?.isSome) (stack : List Frame) :
    e.Open stack := by
  cases e with
  | pointer p => simp [operation?] at h
  | _ => trivial

/-- Regions of entries of operations. -/
theorem splits_entries {R R₁ R₂ : Site → Prop} (h₁ : ∀ σ, R₁ σ → R σ) (h₂ : ∀ σ, R₂ σ → R σ)
    (hoperation : ∀ σ, R₂ σ → σ.entry.operation?.isSome) (h : ∀ σ, R₁ σ → ¬ R₂ σ) :
    Splits config d [] R R₁ R₂ where
  left := h₁
  right := h₂
  opened σ hσ := Entry.open_of_operation? (hoperation σ hσ) []
  apart σ hσ hσ' := absurd hσ' (h σ hσ)

namespace Build

variable {α β : Type} {R : Site → Prop}

/-- Types that are made of no node in particular. -/
theorem logs_adds {work : Typing α} (h : ∀ G, Typing.Adds config.naming G work) :
    Logs config d (Recording config d []) [] [] R (typing work) fun _ => [] :=
  fun w L hw _ _ => ends_typing.2
    ⟨L, hw.evolves (h _ ⟨w.registry, w.session.diagnostics⟩) _, .refl L, by simp⟩

theorem logs_report {findings : List Diagnostic} :
    Logs config d (Recording config d []) [] [] R (report findings) fun _ => [] :=
  fun w L hw _ _ =>
    have hsame : w.registry.Evolves config.naming (d.Noted config L) w.registry := .refl w.registry
    ⟨L, hw.evolves hsame _, .refl L, by simp⟩

/-- Work that goes on if there is a value. -/
theorem logs_ofExcept_bind {x : Except CompileError α} {f : α → Build β} {nodes : β → List Node}
    (h : ∀ a, x = .ok a → Logs config d (Recording config d []) [] [] R (f a) nodes) :
    Logs config d (Recording config d []) [] [] R (ofExcept x >>= f) nodes := by
  cases x with
  | error cause => exact fun _ _ _ _ _ => trivial
  | ok a => exact fun w => h a rfl w

/-- **The schema of an operation is resolved from its entry.** -/
theorem logs_schemaType {e : Entry} {hint location : String} (hs : Employed config d e s) :
    Logs config d (Recording config d []) [] [] (fun σ => σ.entry = e)
      (schemaType d config.naming s hint location) fun _ => [] := by
  intro w L hw _ hvacant
  have hled : Led config d [] (Query.schema s location).request :=
    led_nil fun p composed hp => .used hs.uses hp
  have hlocated : Located config d [] (Site.Under e [] fun _ => True)
      (Query.schema s location).request := by
    refine .schema (Entry.open_of_operation? hs.operation []) hs.begins rfl ?_
    rintro ⟨-, p, c, rfl, -⟩
    exact absurd hs.operation (by simp [Entry.operation?])
  unfold schemaType
  rw [ends_bind, ends_resolving]
  refine (hw.resolve (.schema s location) hled hlocated
    (hvacant.mono fun σ hσ => hσ.1)).mono_ok fun n t hend => ?_
  obtain ⟨L', hw', hgrows, hrecorded, hanswers⟩ := hend
  have hnoted : d.Noted config L' n := ⟨.schema hs.uses hanswers, hrecorded⟩
  have hyields := Typing.nodeType_yields config.naming Document.Noted.hereditary n hnoted hint
    location
  exact ends_typing.2 ⟨L', hw'.evolves (hyields.adds ⟨w.registry, t.diagnostics⟩) _,
    hgrows.mono fun σ hσ => hσ.1, by simp⟩

end Build

namespace EndpointContext

variable (ctx : EndpointContext)

theorem logs_parameters (i : Nat) (method : HttpMethod) :
    ∀ (ps : List Parameter) (scope : NameScope), (ps.map Parameter.key).Nodup →
      (∀ p ∈ ps, ∀ s, p.schema = some s →
        Employed ctx.config ctx.document (.parameter i method p.key) s) →
      Logs ctx.config ctx.document (Recording ctx.config ctx.document []) [] []
        (fun σ => ∃ p ∈ ps, σ.entry = .parameter i method p.key) (ctx.parameters scope ps)
        fun _ => []
  | [], _, _, _ => logs_pure (by simp)
  | p :: rest, scope, hkeys, h => by
    rw [List.map_cons, List.nodup_cons] at hkeys
    unfold parameters
    have hfirst : ∀ place, Logs ctx.config ctx.document (Recording ctx.config ctx.document []) []
        [] (fun σ => σ.entry = .parameter i method p.key) (ctx.parameterType p place)
        fun _ => [] := by
      intro place
      unfold parameterType
      cases hs : p.schema with
      | none => exact logs_pure (by simp)
      | some s => exact logs_schemaType (h p (.head _) s hs)
    have hrest := fun scope => logs_parameters i method rest scope hkeys.2
      fun q hq => h q (.tail _ hq)
    have hsplit : Splits ctx.config ctx.document []
        (fun σ => ∃ q ∈ p :: rest, σ.entry = .parameter i method q.key)
        (fun σ => σ.entry = .parameter i method p.key)
        fun σ => ∃ q ∈ rest, σ.entry = .parameter i method q.key := by
      refine splits_entries (fun σ hσ => ⟨p, .head _, hσ⟩) ?_ ?_ ?_
      · rintro σ ⟨q, hq, hσ⟩
        exact ⟨q, .tail _ hq, hσ⟩
      · rintro σ ⟨q, -, hσ⟩
        rw [hσ]
        rfl
      · rintro σ hσ ⟨q, hq, hσ'⟩
        rw [hσ, Entry.parameter.injEq] at hσ'
        exact hkeys.1 (hσ'.2.2 ▸ List.mem_map_of_mem hq)
    refine (hfirst _).bind hsplit fun _ => ?_
    refine (logs_adds fun _ => Typing.adds_allocate).bind (splits_right ?_) fun named =>
      (hrest named.2).into fun _ => List.nil_subset _
    exact hsplit.opened

theorem logs_bodyType {e : Entry} {content : Table String MediaType} {hint location : String}
    (h : ∀ media s, selectMedia ctx.config.media.preferred content = some (media, s) →
      Employed ctx.config ctx.document e s) :
    Logs ctx.config ctx.document (Recording ctx.config ctx.document []) [] []
      (fun σ => σ.entry = e) (ctx.bodyType content hint location) fun _ => [] := by
  unfold bodyType
  cases hm : selectMedia ctx.config.media.preferred content with
  | none => exact logs_pure (by simp)
  | some selected =>
    exact (logs_schemaType (h selected.1 selected.2 hm)).into fun _ => List.nil_subset _

theorem logs_requestBody {e : Entry} (op : Operation)
    (h : ∀ body, op.requestBody = some body → ∀ media s,
      selectMedia ctx.config.media.preferred body.content = some (media, s) →
      Employed ctx.config ctx.document e s) :
    Logs ctx.config ctx.document (Recording ctx.config ctx.document []) [] []
      (fun σ => σ.entry = e) (ctx.requestBody op) fun _ => [] := by
  unfold requestBody
  cases hb : op.requestBody with
  | none => exact logs_pure (by simp)
  | some body => exact (logs_bodyType ctx (h body hb)).into fun _ => List.nil_subset _

/-- The responses are resolved one after the other, each from its own entry. -/
theorem logs_responses (i : Nat) (method : HttpMethod) :
    ∀ (rs : List (String × Response)) (k : Nat) (found : Table StatusKey (Option TypeRef)),
      (∀ j key response, rs[j]? = some (key, response) → ∀ status,
        StatusKey.ofText? key = some status → ∀ media s,
        selectMedia ctx.config.media.preferred response.content = some (media, s) →
        Employed ctx.config ctx.document (.response i method (k + j)) s) →
      Logs ctx.config ctx.document (Recording ctx.config ctx.document []) [] []
        (fun σ => ∃ j, k ≤ j ∧ σ.entry = .response i method j) (ctx.responses found rs) fun _ => []
  | [], _, _, _ => logs_pure (by simp)
  | (key, response) :: rest, k, found, h => by
    have hrest := fun found => logs_responses i method rest (k + 1) found
      fun j key' response' hj status hstatus media s hm => by
        rw [Nat.add_right_comm]
        exact h (j + 1) key' response' hj status hstatus media s hm
    have hsplit : Splits ctx.config ctx.document []
        (fun σ => ∃ j, k ≤ j ∧ σ.entry = .response i method j)
        (fun σ => σ.entry = .response i method k)
        fun σ => ∃ j, k + 1 ≤ j ∧ σ.entry = .response i method j := by
      refine splits_entries (fun σ hσ => ⟨k, Nat.le_refl k, hσ⟩) ?_ ?_ ?_
      · rintro σ ⟨j, hj, hσ⟩
        exact ⟨j, by omega, hσ⟩
      · rintro σ ⟨j, -, hσ⟩
        rw [hσ]
        rfl
      · rintro σ hσ ⟨j, hj, hσ'⟩
        rw [hσ, Entry.response.injEq] at hσ'
        omega
    unfold responses
    cases hkey : StatusKey.ofText? key with
    | none =>
      refine Logs.bind (splits_right ?_) Build.logs_report fun _ => (hrest found).mono
        (List.subset_append_right _ _) hsplit.right fun _ => List.Subset.refl _
      rintro σ ⟨j, -, hσ⟩
      rw [hσ]
      trivial
    | some status =>
      exact (logs_bodyType ctx fun media s hm => h 0 key response rfl status hkey media s hm).bind
        hsplit fun type => hrest _

end EndpointContext

/-! ### Endpoints -/

/-- The sites of an operation. -/
def Site.Of (i : Nat) (method : HttpMethod) (σ : Site) : Prop :=
  σ.entry.operation? = some (i, method)

/-- The parameters, the request body and the responses of an operation are resolved from entries
of their own. -/
theorem logs_buildEndpoint (h : d.Declares i path item template method op signature)
    (callables : NameScope) (location : String) :
    Logs config d (Recording config d []) [] [] (Site.Of i method)
      (buildEndpoint d config callables path method op signature location) fun _ => [] := by
  unfold buildEndpoint
  refine Build.logs_report.bind (splits_right ?_) fun _ => ?_
  · exact fun σ hσ => Entry.open_of_operation? (by rw [hσ]; rfl) []
  refine (Build.logs_adds fun _ => Typing.adds_allocate).bind (splits_right ?_) fun named => ?_
  · exact fun σ hσ => Entry.open_of_operation? (by rw [hσ]; rfl) []
  let ctx : EndpointContext := ⟨d, config, location, camelHint named.1⟩
  have hparameters := ctx.logs_parameters i method signature.ordered
    { case := .snake } h.nodup fun p hp s hs => h.parameter hp hs
  have hrequest := ctx.logs_requestBody (e := .request i method) op
    fun body hbody media s hm => h.request hbody hm
  have hresponses := ctx.logs_responses i method op.responses 0 []
    fun j key response hj status hstatus media s hm => by
      rw [Nat.zero_add]
      exact h.response hj hstatus hm
  have hbodies : Splits config d [] (fun σ => σ.entry = .request i method ∨
        ∃ j, 0 ≤ j ∧ σ.entry = .response i method j) (fun σ => σ.entry = .request i method)
      fun σ => ∃ j, 0 ≤ j ∧ σ.entry = .response i method j := by
    refine splits_entries (fun _ hσ => .inl hσ) (fun _ hσ => .inr hσ) ?_ ?_
    · rintro σ ⟨j, -, hσ⟩
      rw [hσ]
      rfl
    · rintro σ hσ ⟨j, -, hσ'⟩
      simp [hσ] at hσ'
  have hall : Splits config d [] (Site.Of i method)
      (fun σ => ∃ p ∈ signature.ordered, σ.entry = .parameter i method p.key)
      (fun σ => σ.entry = .request i method ∨ ∃ j, 0 ≤ j ∧ σ.entry = .response i method j) := by
    refine splits_entries ?_ ?_ ?_ ?_
    · rintro σ ⟨p, -, hσ⟩
      rw [Site.Of, hσ]
      rfl
    · rintro σ (hσ | ⟨j, -, hσ⟩) <;> rw [Site.Of, hσ] <;> rfl
    · rintro σ (hσ | ⟨j, -, hσ⟩) <;> rw [hσ] <;> rfl
    · rintro σ ⟨p, -, hσ⟩ (hσ' | ⟨j, -, hσ'⟩) <;> simp [hσ] at hσ'
  exact hparameters.bind hall fun _ => hrequest.bind hbodies fun _ => hresponses.into
    fun _ => List.nil_subset _

/-- The operations of a path are told apart by their methods. -/
theorem logs_pathEndpoints (hitem : d.paths[i]? = some (path, item))
    (htemplate : PathTemplate.ofPath path = .ok template) :
    ∀ (operations : List (HttpMethod × Operation)) (callables : NameScope),
      (∀ e ∈ operations, e ∈ item.operations) → (operations.map Prod.fst).Nodup →
      Logs config d (Recording config d []) [] [] (fun σ => ∃ e ∈ operations, σ.Of i e.1)
        (pathEndpoints d config path item template callables operations) fun _ => []
  | [], _, _, _ => logs_pure (by simp)
  | (method, op) :: rest, callables, h, hmethods => by
    rw [List.map_cons, List.nodup_cons] at hmethods
    have hrest := fun callables => logs_pathEndpoints hitem htemplate rest callables
      (fun e he => h e (.tail _ he)) hmethods.2
    have hsplit : Splits config d [] (fun σ => ∃ e ∈ (method, op) :: rest, σ.Of i e.1)
        (Site.Of i method) fun σ => ∃ e ∈ rest, σ.Of i e.1 := by
      refine splits_entries (fun σ hσ => ⟨_, .head _, hσ⟩) ?_ ?_ ?_
      · rintro σ ⟨e, he, hσ⟩
        exact ⟨e, .tail _ he, hσ⟩
      · rintro σ ⟨e, -, hσ⟩
        rw [hσ]
        rfl
      · rintro σ hσ ⟨e, he, hσ'⟩
        rw [Site.Of, hσ, Option.some.injEq, Prod.mk.injEq] at hσ'
        have hmem : e.1 ∈ rest.map Prod.fst := List.mem_map_of_mem he
        exact hmethods.1 (hσ'.2 ▸ hmem)
    unfold pathEndpoints
    cases hsignature : signatureOf template item op with
    | error fault =>
      refine Build.logs_report.bind (splits_right ?_) fun _ => (hrest callables).mono
        (List.subset_append_right _ _) hsplit.right fun _ => List.Subset.refl _
      rintro σ ⟨e, -, hσ⟩
      exact Entry.open_of_operation? (by rw [hσ]; rfl) []
    | ok signature =>
      have hdeclares : d.Declares i path item template method op signature :=
        ⟨hitem, htemplate, h _ (.head _), hsignature⟩
      exact (logs_buildEndpoint hdeclares callables _).bind hsplit fun made =>
        (hrest made.2).into fun _ => List.nil_subset _

/-- The paths are told apart by their positions. -/
theorem logs_tableEndpoints :
    ∀ (paths : List (String × PathItem)) (k : Nat) (callables : NameScope),
      (∀ j, paths[j]? = d.paths[k + j]?) →
      Logs config d (Recording config d []) [] [] (fun σ => ∃ j m, k ≤ j ∧ σ.Of j m)
        (tableEndpoints d config callables paths) fun _ => []
  | [], _, _, _ => logs_pure (by simp)
  | (path, item) :: rest, k, callables, h => by
    have hrest := fun callables => logs_tableEndpoints rest (k + 1) callables fun j => by
      rw [Nat.add_right_comm]
      exact h (j + 1)
    have hsplit : Splits config d [] (fun σ => ∃ j m, k ≤ j ∧ σ.Of j m)
        (fun σ => ∃ e ∈ item.operations, σ.Of k e.1) fun σ => ∃ j m, k + 1 ≤ j ∧ σ.Of j m := by
      refine splits_entries ?_ ?_ ?_ ?_
      · rintro σ ⟨e, -, hσ⟩
        exact ⟨k, e.1, Nat.le_refl k, hσ⟩
      · rintro σ ⟨j, m, hj, hσ⟩
        exact ⟨j, m, by omega, hσ⟩
      · rintro σ ⟨j, m, -, hσ⟩
        rw [hσ]
        rfl
      · rintro σ ⟨e, -, hσ⟩ ⟨j, m, hj, hσ'⟩
        rw [Site.Of, hσ, Option.some.injEq, Prod.mk.injEq] at hσ'
        omega
    unfold tableEndpoints
    refine Build.logs_ofExcept_bind fun template htemplate => ?_
    have hpath : Logs config d (Recording config d []) [] [] _
        (pathEndpoints d config path item template callables item.operations) fun _ => [] :=
      logs_pathEndpoints (h 0).symm htemplate item.operations callables (fun _ he => he)
        item.nodup_operations
    exact hpath.bind hsplit fun made => (hrest made.2).into fun _ => List.nil_subset _

end Operations

/-! ### Compilations -/

/-- Before bodies are made, nothing is recorded. -/
theorem Reserved.recording {config : Config} {d : Document} {pending : List String} {w : Workspace}
    (h : Reserved d w) (hclosing : Closing config d pending w) (hcache : w.session.cache = [])
    (hstack : w.session.stack = []) : Recording config d pending w [] where
  closing := hclosing
  tracks :=
    { kept := fun p c n _ hn => by simp [hcache] at hn
      recorded := fun p n hn => by simp [hcache] at hn
      made := by simp
      once := by simp
      stack := hstack
      entered := by simp }
  attributed :=
    { serial := fun i slot hs hsource => by
        obtain ⟨-, c, -, hc⟩ := h.slots slot (List.mem_of_getElem? hs)
        exact absurd (hsource.symm.trans hc) (by simp)
      slot := fun serial i hi => by simp [h.inlined] at hi
      inj := fun serial serial' i hi => by simp [h.inlined] at hi }

/-- **The nodes of a compilation are recorded**: every model that is no component's is that of a
node in the ledger. -/
theorem compileAll_recording (config : Config) (d : Document) :
    Ends (compileAll config d) {} (fun _ w => ∃ L, Recording config d [] w L) fun _ _ => True := by
  have hstart : Reserved d {} := ⟨.start, rfl, by simp⟩
  have hempty : Progress config.naming (fun _ => True) (fun _ _ => True) [] [] {} :=
    ⟨trivial, Registry.keyed_empty, by simp, by simp⟩
  unfold compileAll buildModels extractEndpoints
  rw [ends_bind, ends_bind]
  have hnames := ((reserveNames_invariant config.naming d.componentNames
    (fun c hc w findings hw => hw.reserveComponent hc findings) {} hstart).and
    (reserveNames_ends (E := fun _ => True) (fun _ _ _ _ => trivial) d.componentNames [] {}
      hempty)).and (reserveNames_invariant config.naming
    (I := fun w => w.session.cache = [] ∧ w.session.stack = []) d.componentNames
    (fun _ _ _ _ hw => hw) {} ⟨rfl, rfl⟩)
  refine hnames.mono (fun _ w hend => ?_) fun _ _ _ => trivial
  obtain ⟨⟨hreserved, hprogress⟩, hcache, hstack⟩ := hend
  have hclosing := hreserved.closing config hprogress.keyed fun c hc =>
    hprogress.named c (by rw [List.append_nil]; exact hc)
  refine (buildBodies_recording config.naming d.componentNames w [] (fun _ hc => hc)
    (hreserved.recording hclosing hcache hstack)).mono_ok fun _ w' hend => ?_
  obtain ⟨L, hw', hgrows⟩ := hend
  have hpaths : Logs config d (Recording config d []) [] [] _
      (tableEndpoints d config { case := .snake } d.paths) fun _ => [] :=
    logs_tableEndpoints d.paths 0 _ fun j => by rw [Nat.zero_add]
  refine (hpaths w' L hw' (by simp) fun x hx hσ => ?_).mono_ok fun _ w'' hend => ?_
  · -- What the components recorded belongs to pointers.
    obtain ⟨j, m, -, hσ⟩ := hσ
    rcases hgrows.new x hx with hold | hnone | hclosed | hredone
    · simp at hold
    · exact hnone.elim
    · exact absurd (Entry.open_of_operation? (by rw [hσ]; rfl) []) hclosed
    · exact hredone
  · obtain ⟨L', hw'', -⟩ := hend
    exact ⟨L', hw''⟩

end ApiBinding
