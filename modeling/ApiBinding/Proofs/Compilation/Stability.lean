import ApiBinding.Proofs.Compilation.Reporting
import ApiBinding.Proofs.Compilation.Runs

/-!
# Changes of the path table

A client changes little when its description does.  An operation that is left out might as well
not be there: without it everything is as before, except that it is not reported.  And what is
appended to the path table comes afterwards: names that are given, models that are made and
findings that are reported stay.

## Main definitions

* `PathItem.without` — a path without its operation for a method.
* `Workspace.Precedes`, `Prolongs` — what stays when the path table gets longer.
* `Model.Stays` — a model that may only become a variant of further unions.

## Main results

* `compile_without` — the client without an operation that is left out.
* `compile_append` — the client after paths are appended.
-/

namespace ApiBinding

/-! ### What the path table does not decide

Operations are compiled with the components at hand; the path table as a whole is not looked at. -/

section Agrees

variable {d d' : Document}

namespace EndpointContext

variable (h : d'.Agrees d) (config : Config) (location hint : String)

include h

theorem parameterType_eq (p : Parameter) (place : String) :
    parameterType ⟨d', config, location, hint⟩ p place =
      parameterType ⟨d, config, location, hint⟩ p place := by
  unfold parameterType type schemaType
  simp only [h.resolveSchema_eq]

theorem parameters_eq :
    ∀ (ps : List Parameter) (scope : NameScope),
      parameters ⟨d', config, location, hint⟩ scope ps =
        parameters ⟨d, config, location, hint⟩ scope ps
  | [], _ => rfl
  | p :: rest, scope => by
    unfold parameters
    simp only [parameterType_eq h, parameters_eq rest]

theorem bodyType_eq (content : Table String MediaType) (name place : String) :
    bodyType ⟨d', config, location, hint⟩ content name place =
      bodyType ⟨d, config, location, hint⟩ content name place := by
  unfold bodyType type schemaType
  simp only [h.resolveSchema_eq]

theorem requestBody_eq (op : Operation) :
    requestBody ⟨d', config, location, hint⟩ op = requestBody ⟨d, config, location, hint⟩ op := by
  unfold requestBody
  simp only [bodyType_eq h]

theorem responses_eq :
    ∀ (rs : List (String × Response)) (found : Table StatusKey (Option TypeRef)),
      responses ⟨d', config, location, hint⟩ found rs =
        responses ⟨d, config, location, hint⟩ found rs
  | [], _ => rfl
  | (key, response) :: rest, found => by
    unfold responses
    simp only [bodyType_eq h, responses_eq rest]

end EndpointContext

namespace Document.Agrees

variable (h : d'.Agrees d) (config : Config)

include h

theorem buildEndpoint_eq (callables : NameScope) (path : String) (method : HttpMethod)
    (op : Operation) (signature : Signature) (location : String) :
    buildEndpoint d' config callables path method op signature location =
      buildEndpoint d config callables path method op signature location := by
  unfold buildEndpoint
  simp only [EndpointContext.parameters_eq h, EndpointContext.requestBody_eq h,
    EndpointContext.responses_eq h]

theorem pathEndpoints_eq (path : String) (item : PathItem) (template : PathTemplate) :
    ∀ (operations : List (HttpMethod × Operation)) (callables : NameScope),
      pathEndpoints d' config path item template callables operations =
        pathEndpoints d config path item template callables operations
  | [], _ => rfl
  | (method, op) :: rest, callables => by
    unfold pathEndpoints
    simp only [h.buildEndpoint_eq, pathEndpoints_eq path item template rest]

/-- **A path table is walked alike** if the components are the same. -/
theorem tableEndpoints_eq :
    ∀ (paths : List (String × PathItem)) (callables : NameScope),
      tableEndpoints d' config callables paths = tableEndpoints d config callables paths
  | [], _ => rfl
  | (path, item) :: rest, callables => by
    unfold tableEndpoints
    simp only [h.pathEndpoints_eq, tableEndpoints_eq rest]

theorem buildBodies_eq (naming : NamingConfig) :
    ∀ cs : List String, buildBodies d' naming cs = buildBodies d naming cs
  | [] => rfl
  | c :: rest => by
    unfold buildBodies
    simp only [h.resolveComponent_eq, buildBodies_eq naming rest]

end Document.Agrees

end Agrees

/-- The models of the components do not depend on the path table. -/
theorem buildModels_eq {d d' : Document} (h : d'.components = d.components)
    (naming : NamingConfig) : buildModels d' naming = buildModels d naming := by
  unfold buildModels Document.componentNames
  rw [h, (Document.agrees_of_components h).buildBodies_eq]

/-! ### Operations that are taken out -/

/-- The path without its operation for a method. -/
def PathItem.without (item : PathItem) : HttpMethod → PathItem
  | .get => { item with get := none }
  | .put => { item with put := none }
  | .post => { item with post := none }
  | .delete => { item with delete := none }
  | .options => { item with options := none }
  | .head => { item with head := none }
  | .patch => { item with patch := none }
  | .trace => { item with trace := none }

/-- The description without the operation of a path for a method; the entry of the path, whose item
is given, is kept. -/
def Document.without (d : Document) (path : String) (item : PathItem) (method : HttpMethod) :
    Document :=
  { d with paths := Table.insert d.paths path (item.without method) }

namespace PathItem

theorem without_parameters (item : PathItem) (method : HttpMethod) :
    (item.without method).parameters = item.parameters := by
  cases method <;> rfl

theorem without_operation? (item : PathItem) (method m : HttpMethod) :
    (item.without method).operation? m = if m = method then none else item.operation? m := by
  cases method <;> cases m <;> rfl

/-- The operations of a path stand around the one that is taken out. -/
theorem operations_without {item : PathItem} {method : HttpMethod} {op : Operation}
    (h : item.operation? method = some op) :
    ∃ before after, item.operations = before ++ (method, op) :: after ∧
      (item.without method).operations = before ++ after := by
  have hnodup : HttpMethod.all.Nodup := by decide
  have hmem : method ∈ HttpMethod.all := by cases method <;> decide
  obtain ⟨earlier, later, hall⟩ := List.append_of_mem hmem
  rw [hall] at hnodup
  have hothers : ∀ m ∈ earlier ++ later, m ≠ method := by
    intro m hm hmethod
    rw [hmethod] at hm
    exact (List.nodup_middle.1 hnodup).notMem hm
  -- Each method stands once in the order, so the rest of the order does not see the change.
  have hsame : ∀ ms : List HttpMethod, (∀ m ∈ ms, m ≠ method) →
      (ms.filterMap fun m => ((item.without method).operation? m).map fun op => (m, op)) =
        ms.filterMap fun m => (item.operation? m).map fun op => (m, op) := by
    intro ms hms
    refine List.filterMap_congr fun m hm => ?_
    rw [without_operation?, if_neg (hms m hm)]
  refine ⟨earlier.filterMap fun m => (item.operation? m).map fun op => (m, op),
    later.filterMap fun m => (item.operation? m).map fun op => (m, op), ?_, ?_⟩
  · rw [operations, hall, List.filterMap_append, List.filterMap_cons, h]
    rfl
  · rw [operations, hall, List.filterMap_append, List.filterMap_cons, without_operation?,
      if_pos rfl, hsame earlier fun m hm => hothers m (List.mem_append_left _ hm),
      hsame later fun m hm => hothers m (List.mem_append_right _ hm)]
    rfl

end PathItem

section Without

variable {config : Config} {d : Document} {path : String} {item : PathItem}
  {method : HttpMethod} {op : Operation} {template : PathTemplate} {fault : OperationFault}

/-- Of the path itself, only its parameters count for its operations. -/
theorem pathEndpoints_congr {item' : PathItem} (h : item'.parameters = item.parameters) :
    ∀ (operations : List (HttpMethod × Operation)) (callables : NameScope),
      pathEndpoints d config path item' template callables operations =
        pathEndpoints d config path item template callables operations
  | [], _ => rfl
  | (method, op) :: rest, callables => by
    have hsignature : signatureOf template item' op = signatureOf template item op := by
      unfold signatureOf
      rw [h]
    unfold pathEndpoints
    simp only [hsignature, pathEndpoints_congr h rest]

/-- Work before which a finding is reported, and the same work alone. -/
theorem Build.omits_report {α : Type} {P : Diagnostic → Prop} {work : Build α} (f : Diagnostic)
    (h : Reports P work) : Omits f (Build.report [f] >>= fun _ => work) work := by
  intro w
  have hreport : (Build.report [f] >>= fun _ => work) w = work (noting (findings w ++ [f]) w) := rfl
  unfold Ends
  rw [hreport]
  obtain ⟨more, -, hwork⟩ := h w
  cases hw : work w with
  | error e t =>
    rw [hwork, hw, renoted]
    exact ⟨findings t, by rw [Noting.noting_noting, Noting.noting_findings]⟩
  | ok a t =>
    have hfindings : findings t = findings w ++ more := by
      have hself := hwork (findings w)
      rw [Noting.noting_findings, hw, renoted, EStateM.Result.ok.injEq] at hself
      rw [hself.2, Noting.findings_noting]
    rw [hwork, hw, renoted]
    refine ⟨[], more, ?_, ?_⟩
    · rw [Noting.findings_noting, List.append_nil, List.append_assoc, List.singleton_append]
    · rw [Noting.noting_noting, List.append_nil, ← hfindings, Noting.noting_findings]

/-- **Without an operation that is left out, a path is walked as before**, but for one finding. -/
theorem pathEndpoints_omits (hfault : signatureOf template item op = .error fault)
    (after : List (HttpMethod × Operation)) :
    ∀ (before : List (HttpMethod × Operation)) (callables : NameScope),
      Omits (skippedOperation path method (Pointer.operation path method.key) fault)
        (pathEndpoints d config path item template callables (before ++ (method, op) :: after))
        (pathEndpoints d config path item template callables (before ++ after))
  | [], callables => by
    rw [List.nil_append, List.nil_append, pathEndpoints, hfault]
    exact Build.omits_report _ (pathEndpoints_reports d config path item template after callables)
  | (m, o) :: before, callables => by
    rw [List.cons_append, List.cons_append, pathEndpoints, pathEndpoints]
    cases signatureOf template item o with
    | error fault' =>
      exact Omits.after (Build.reports_report (P := fun _ => True) fun _ _ => trivial) fun _ =>
        pathEndpoints_omits hfault after before callables
    | ok signature =>
      refine Omits.after (buildEndpoint_reports d config _ _ _ _ _ _) fun made => ?_
      exact (pathEndpoints_omits hfault after before made.2).before (P := fun _ => True)
        fun _ => reports_pure _

/-- **Without an operation that is left out, a path table is walked as before**, but for one
finding. -/
theorem tableEndpoints_omits (htemplate : PathTemplate.ofPath path = .ok template)
    (hop : item.operation? method = some op)
    (hfault : signatureOf template item op = .error fault) (after : List (String × PathItem)) :
    ∀ (before : List (String × PathItem)) (callables : NameScope),
      Omits (skippedOperation path method (Pointer.operation path method.key) fault)
        (tableEndpoints d config callables (before ++ (path, item) :: after))
        (tableEndpoints d config callables (before ++ (path, item.without method) :: after))
  | [], callables => by
    obtain ⟨earlier, later, hoperations, hwithout⟩ := PathItem.operations_without hop
    have hpath : ∀ rest : PathTemplate → Build (List Endpoint),
        (Build.ofExcept (.ok template) >>= rest) = rest template := fun _ => rfl
    rw [List.nil_append, List.nil_append, tableEndpoints, tableEndpoints, htemplate, hpath, hpath,
      pathEndpoints_congr (item.without_parameters method), hoperations, hwithout]
    refine (pathEndpoints_omits hfault later earlier callables).before (P := fun _ => True)
      fun made => ?_
    exact (tableEndpoints_reports d config after made.2).bind fun _ => reports_pure _
  | (path', item') :: before, callables => by
    rw [List.cons_append, List.cons_append, tableEndpoints, tableEndpoints]
    refine Omits.after (ofPath_reports (P := fun _ => True) path') fun template' => ?_
    refine Omits.after (pathEndpoints_reports d config path' item' template' _ _) fun made => ?_
    exact (tableEndpoints_omits htemplate hop hfault after before made.2).before
      (P := fun _ => True) fun _ => reports_pure _

/-- **Without an operation that is left out, everything is compiled as before**, but for one
finding. -/
theorem compileAll_omits (hpath : Table.get? d.paths path = some item)
    (hop : item.operation? method = some op) (htemplate : PathTemplate.ofPath path = .ok template)
    (hfault : signatureOf template item op = .error fault) :
    Omits (skippedOperation path method (Pointer.operation path method.key) fault)
      (compileAll config d) (compileAll config (d.without path item method)) := by
  obtain ⟨before, after, hpaths, hinsert⟩ := Table.insert_of_get? hpath
  have hcomponents : (d.without path item method).components = d.components := rfl
  have hwithout : (d.without path item method).paths =
      before ++ (path, item.without method) :: after := hinsert _
  unfold compileAll extractEndpoints
  rw [buildModels_eq hcomponents, (Document.agrees_of_components hcomponents).tableEndpoints_eq,
    hpaths, hwithout]
  exact Omits.after (buildModels_reports d config.naming) fun _ =>
    tableEndpoints_omits htemplate hop hfault after before _

/-- The second compilation ends like the first one, but for one finding. -/
inductive Compilation.Omits (f : Diagnostic) :
    Except Interruption Compilation → Except Interruption Compilation → Prop where
  | ok {interface : Interface} {before after : List Diagnostic} :
      Omits f (.ok ⟨interface, before ++ f :: after⟩) (.ok ⟨interface, before ++ after⟩)
  | error {e : Interruption} : Omits f (.error e) (.error e)

/-- **An operation that is left out leaves nothing behind but its finding.**  Without it, the
compilation fails for the same cause, or there is the same client; and the workspace is the same,
with its session, its names and its models, but for that finding. -/
theorem compile_without (config : Config) {d : Document}
    (hpath : Table.get? d.paths path = some item) (hop : item.operation? method = some op)
    (htemplate : PathTemplate.ofPath path = .ok template)
    (hfault : signatureOf template item op = .error fault) :
    Compilation.Omits (skippedOperation path method (Pointer.operation path method.key) fault)
        (compile config d) (compile config (d.without path item method)) ∧
      Omits (skippedOperation path method (Pointer.operation path method.key) fault)
        (compileAll config d) (compileAll config (d.without path item method)) := by
  have hall : Omits _ (compileAll config d) (compileAll config (d.without path item method)) :=
    compileAll_omits hpath hop htemplate hfault
  refine ⟨?_, hall⟩
  unfold compile
  have hrun := hall {}
  unfold Ends at hrun
  cases hc : compileAll config d {} with
  | error e w =>
    rw [hc] at hrun
    obtain ⟨ds, hc'⟩ := hrun
    rw [hc']
    exact .error
  | ok endpoints w =>
    rw [hc] at hrun
    obtain ⟨before, after, hfindings, hc'⟩ := hrun
    have hdiagnostics : w.session.diagnostics = before ++
        skippedOperation path method (Pointer.operation path method.key) fault :: after := hfindings
    rw [hc']
    simp only [hdiagnostics]
    exact .ok

end Without

/-- A record with a name. -/
def namedRecord : Schema where
  properties := [("id", { declaredType := some (.single "string") })]

/-- An operation whose parameter in the path is optional. -/
def optionalUser : Operation where
  operationId := some "user"
  parameters := [{ name := "id", location := "path" }]

/-- A path with the operation, and with one of the same name that answers with a record. -/
def crowdedItem : PathItem where
  get := some optionalUser
  post := some
    { operationId := some "user"
      parameters := [{ name := "id", location := "path", required := true }]
      responses :=
        [("200", { content := [("application/json", { schema := some namedRecord })] })] }

/-- The path, and no components. -/
def crowdedDocument : Document where
  paths := [("/users/\x7bid\x7d", crowdedItem)]

/-- The name that both operations have is free for the one that is valid. -/
theorem compile_without_namesake : ∃ c c', compile {} crowdedDocument = .ok c ∧
    compile {} (crowdedDocument.without "/users/\x7bid\x7d" crowdedItem .get) = .ok c' ∧
    c.interface.endpoints.map Endpoint.name = ["user"] ∧ c'.interface = c.interface ∧
    c.diagnostics.length = 1 ∧ c'.diagnostics = [] := by
  obtain ⟨c, hc⟩ := compile_eq_ok {} crowdedDocument (by decide +kernel)
  have htemplate : PathTemplate.ofPath "/users/\x7bid\x7d" = .ok ⟨["id"], none⟩ := by decide +kernel
  have hfault : signatureOf ⟨["id"], none⟩ crowdedItem optionalUser =
      .error (.optionalPathParameter "id") := by rfl
  have hpath : Table.get? crowdedDocument.paths "/users/\x7bid\x7d" = some crowdedItem := rfl
  have hop : crowdedItem.operation? .get = some optionalUser := rfl
  obtain ⟨homits, -⟩ := compile_without {} hpath hop htemplate hfault
  have hcomputed : (compile {} crowdedDocument).toOption.map (fun c =>
      (c.interface.endpoints.map Endpoint.name, c.diagnostics.length)) = some (["user"], 1) := by
    decide +kernel
  rw [hc] at homits hcomputed
  simp only [Except.toOption, Option.map_some, Option.some.injEq, Prod.mk.injEq] at hcomputed
  generalize compile {} (crowdedDocument.without "/users/\x7bid\x7d" crowdedItem .get) = result
    at homits ⊢
  cases homits with
  | ok =>
    rename_i before after
    have hlength := hcomputed.2
    rw [List.length_append, List.length_cons] at hlength
    refine ⟨_, _, hc, rfl, hcomputed.1, rfl, hcomputed.2, ?_⟩
    exact List.eq_nil_of_length_eq_zero (by rw [List.length_append]; omega)

/-! ### Paths that are appended -/

/-- What there was of models and findings stays where it is. -/
structure Workspace.Precedes (w w' : Workspace) : Prop where
  findings : findings w <+: findings w'
  slots : w.registry.slots <+: w'.registry.slots

/-- A registry that evolves gets new slots; the slots it had are as they were. -/
theorem Registry.Evolves.prefix_slots {naming : NamingConfig} {G : Node → Prop} {r r' : Registry}
    (h : r.Evolves naming G r') : r.slots <+: r'.slots := by
  induction h with
  | refl r => exact List.prefix_rfl
  | trans _ _ ih ih' => exact ih.trans ih'
  | @inline r w n hint location name docstring hn hown hnew hname hw h ih =>
    obtain ⟨name, scope, findings, -, hreserved⟩ := reserveInline_new naming hint location hnew
    rw [hreserved] at hw
    have hadded : r.slots <+: w.registry.slots := by
      rw [hw]
      exact List.prefix_append _ _
    refine List.prefix_iff_getElem?.2 fun i hi => ?_
    have hold := List.prefix_iff_getElem?.1 (hadded.trans ih) i hi
    -- The slot that is filled comes after those that were there.
    have hlater : r.size ≠ i := Nat.ne_of_gt hi
    rw [getElem?_fill hold, if_neg hlater]

section Append

variable {α β : Type} {config : Config} {d : Document}

/-- Whenever the second work has a result, the first one has the beginning of it, and it stops at a
workspace with the beginning of what there is in the end. -/
def Prolongs (R : α → β → Prop) (x : Build α) (y : Build β) : Prop :=
  ∀ w, Ends y w (fun b w' => ∃ a w₁, x w = .ok a w₁ ∧ R a b ∧ w₁.Precedes w') fun _ _ => True

theorem Prolongs.after {γ : Type} {R : α → β → Prop} {work : Build γ} {x : γ → Build α}
    {y : γ → Build β} (h : ∀ c, Prolongs R (x c) (y c)) : Prolongs R (work >>= x) (work >>= y) := by
  intro w
  rw [ends_bind]
  unfold Ends
  cases hw : work w with
  | error e t => trivial
  | ok c t =>
    rw [bind_of_ok hw]
    exact h c t

theorem Prolongs.map {α' β' : Type} {R : α → β → Prop} {R' : α' → β' → Prop} {x : Build α}
    {y : Build β} {f : α → α'} {g : β → β'} (h : Prolongs R x y)
    (hfg : ∀ a b, R a b → R' (f a) (g b)) :
    Prolongs R' (x >>= fun a => pure (f a)) (y >>= fun b => pure (g b)) := by
  intro w
  rw [ends_bind]
  refine (h w).mono_ok fun b w' ⟨a, w₁, hx, hab, hprecedes⟩ => ?_
  exact ⟨f a, w₁, by rw [bind_of_ok hx]; rfl, hfg a b hab, hprecedes⟩

/-- Walking a path table adds models and findings to those there are. -/
theorem tableEndpoints_precedes (paths : List (String × PathItem)) (callables : NameScope)
    (w : Workspace) :
    Ends (tableEndpoints d config callables paths) w (fun _ w' => w.Precedes w')
      fun _ _ => True := by
  -- Resolutions do not touch the registry, and making types only adds to it.
  let I : Workspace → Prop := fun w' => w.registry.slots <+: w'.registry.slots
  have hstable : Stable config.naming I fun _ => True :=
    ⟨fun hwork w' hw' =>
      ⟨hw'.trans (hwork ⟨w'.registry, w'.session.diagnostics⟩).prefix_slots, trivial⟩,
      fun w' hw' => ⟨hw', trivial⟩⟩
  have hresolves : ∀ s, Resolves d I (fun _ => True) (fun _ => True) s := by
    intro s location w' hw'
    rw [Build.ends_resolving]
    unfold Ends
    split
    · exact ⟨hw', trivial⟩
    · trivial
  have hslots := tableEndpoints_advances hstable paths callables (fun _ _ _ _ _ => trivial)
    (fun s _ => hresolves s) w List.prefix_rfl
  unfold Ends at hslots ⊢
  cases hw : tableEndpoints d config callables paths w with
  | error e t => trivial
  | ok a t =>
    rw [hw] at hslots
    obtain ⟨more, -, hfindings, -⟩ := (tableEndpoints_reports d config paths callables).of_ok hw
    exact ⟨⟨more, hfindings.symm⟩, hslots.1⟩

/-- **A longer path table is walked as the shorter one**, and then on. -/
theorem tableEndpoints_prolongs (more : List (String × PathItem)) :
    ∀ (paths : List (String × PathItem)) (callables : NameScope),
      Prolongs (· <+: ·) (tableEndpoints d config callables paths)
        (tableEndpoints d config callables (paths ++ more))
  | [], callables => fun w => (tableEndpoints_precedes more callables w).mono_ok
      fun b _ hprecedes => ⟨[], w, rfl, List.nil_prefix, hprecedes⟩
  | (path, item) :: rest, callables => by
    rw [List.cons_append, tableEndpoints, tableEndpoints]
    refine Prolongs.after fun template => Prolongs.after fun made => ?_
    exact (tableEndpoints_prolongs more rest made.2).map fun a b hab =>
      List.prefix_append_right_inj made.1 |>.2 hab

/-- The description with a longer path table. -/
def Document.append (d : Document) (more : List (String × PathItem)) : Document :=
  { d with paths := d.paths ++ more }

theorem compileAll_prolongs (config : Config) (d : Document) (more : List (String × PathItem)) :
    Prolongs (· <+: ·) (compileAll config d) (compileAll config (d.append more)) := by
  have hcomponents : (d.append more).components = d.components := rfl
  unfold compileAll extractEndpoints
  rw [buildModels_eq hcomponents, (Document.agrees_of_components hcomponents).tableEndpoints_eq]
  exact Prolongs.after fun _ => tableEndpoints_prolongs more d.paths _

/-! ### Models that stay -/

/-- The model is as it was, but that it may be a variant of further unions. -/
structure Model.Stays (m m' : Model) : Prop where
  name : m'.name = m.name
  sourceName : m'.sourceName = m.sourceName
  docstring : m'.docstring = m.docstring
  body : m'.body = m.body
  variantOf : m.variantOf <+: m'.variantOf

/-- **Models stay** when slots are added. -/
theorem Registry.finish_stays {r r' : Registry} (h : r.slots <+: r'.slots) :
    ∃ old new, r'.finish = old ++ new ∧ List.Forall₂ Model.Stays r.finish old := by
  obtain ⟨more, hmore⟩ := h
  let models := r.slots.map Slot.toModel
  let added := more.map Slot.toModel
  let all := (models ++ added).flatMap Model.memberships
  -- The memberships by the old unions come first, so they are the first ones of each model.
  have hall : models.flatMap Model.memberships <+: all := by
    unfold all
    rw [List.flatMap_append]
    exact List.prefix_append _ _
  refine ⟨models.map (Model.withMemberships all), added.map (Model.withMemberships all), ?_, ?_⟩
  · unfold Registry.finish
    rw [← hmore, List.map_append, List.map_append]
  · unfold Registry.finish
    rw [List.forall₂_map_left_iff, List.forall₂_map_right_iff]
    refine List.forall₂_same.2 fun m _ => ⟨rfl, rfl, rfl, rfl, ?_⟩
    exact prefix_distinct ((hall.filter _).map Prod.snd)

/-- **A client only grows when paths are appended**: it was there before, and its operations, its
findings and its models are the first ones of the new client. -/
theorem compile_append {config : Config} {d : Document} {more : List (String × PathItem)}
    {c' : Compilation} (h : compile config (d.append more) = .ok c') :
    ∃ c, compile config d = .ok c ∧
      c.interface.endpoints <+: c'.interface.endpoints ∧
      c.diagnostics <+: c'.diagnostics ∧
      ∃ old new, c'.interface.models = old ++ new ∧
        List.Forall₂ Model.Stays c.interface.models old := by
  unfold compile at h
  split at h
  · rename_i endpoints' w' hrun
    obtain ⟨endpoints, w, hw, hendpoints, hprecedes⟩ :=
      (compileAll_prolongs config d more {}).of_ok hrun
    rw [Except.ok.injEq] at h
    subst h
    refine ⟨⟨⟨w.registry.finish, endpoints⟩, w.session.diagnostics⟩, ?_, hendpoints,
      hprecedes.findings, Registry.finish_stays hprecedes.slots⟩
    unfold compile
    rw [hw]
  · simp at h

end Append

/-- A path with an operation that answers with a schema. -/
def answering (s : Schema) : PathItem where
  get := some
    { responses := [("200", { content := [("application/json", { schema := some s })] })] }

/-- A reference to the component. -/
def catReference : Schema where
  reference := some "#/components/schemas/Cat"

/-- A component and an operation that answers with it. -/
def catsDocument : Document where
  paths := [("/cats", answering catReference)]
  components.schemas :=
    [("Cat", { properties := [("kind", { enumeration := some [.string "cat"] })] })]

/-- A path with an operation that answers with a tagged union of one component. -/
def petsPath : String × PathItem :=
  ("/pets", answering { oneOf := [catReference], discriminator := some ⟨"kind", []⟩ })

/-- The component becomes a variant, and stays what it is otherwise. -/
theorem compile_append_pets : ∃ c c', compile {} catsDocument = .ok c ∧
    compile {} (catsDocument.append [petsPath]) = .ok c' ∧
    c.interface.endpoints <+: c'.interface.endpoints ∧
    c.interface.models.map (fun m => (m.name, m.variantOf.length)) =
      [("Cat", 0), ("CatKind", 0)] ∧
    c'.interface.models.map (fun m => (m.name, m.variantOf.length)) =
      [("Cat", 1), ("CatKind", 0), ("GetPetsResponse200", 0)] := by
  obtain ⟨c', hc'⟩ := compile_eq_ok {} (catsDocument.append [petsPath]) (by decide +kernel)
  obtain ⟨c, hc, hendpoints, -⟩ := compile_append hc'
  have hbefore : (compile {} catsDocument).toOption.map (fun c =>
      c.interface.models.map fun m => (m.name, m.variantOf.length)) =
      some [("Cat", 0), ("CatKind", 0)] := by decide +kernel
  have hafterwards : (compile {} (catsDocument.append [petsPath])).toOption.map (fun c =>
      c.interface.models.map fun m => (m.name, m.variantOf.length)) =
      some [("Cat", 1), ("CatKind", 0), ("GetPetsResponse200", 0)] := by decide +kernel
  rw [hc] at hbefore
  rw [hc'] at hafterwards
  simp only [Except.toOption, Option.map_some, Option.some.injEq] at hbefore hafterwards
  exact ⟨c, c', hc, hc', hendpoints, hbefore, hafterwards⟩

end ApiBinding
