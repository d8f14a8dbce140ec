import ApiBinding.Proofs.Compilation.Reporting
import ApiBinding.Proofs.Compilation.Runs
import ApiBinding.Proofs.Endpoint.Signatures
import Mathlib.Data.List.Forall2

/-!
# Operations and endpoints

Every operation that is declared is accounted for: a valid one becomes an endpoint, and an invalid
one is reported as left out.  Both happen in the order in which the operations are declared.  An
endpoint has the parameters that apply to its operation, in call order.

## Main definitions

* `DeclaredOperation`, `Document.declaredOperations` — the operations of a description, in order.
* `DeclaredOperation.Skipped` — the finding about an operation that is left out.
* `Endpoint.Implements` — the endpoint of an operation.

## Main results

* `compile_operations` — which operations become endpoints, and which are left out.
* `compile_parameters` — the parameters of the endpoints.
-/

namespace ApiBinding

/-! ### Declared operations -/

/-- An operation as it is declared. -/
structure DeclaredOperation where
  path : String
  item : PathItem
  method : HttpMethod
  op : Operation

/-- The operations of a path, in the order of their methods. -/
def PathItem.declaredOperations (path : String) (item : PathItem) : List DeclaredOperation :=
  [.get, .put, .post, .delete, .options, .head, .patch, .trace].filterMap fun method =>
    (item.operation? method).map fun op => ⟨path, item, method, op⟩

/-- The operations of a description, in the order of the path table. -/
def Document.declaredOperations (d : Document) : List DeclaredOperation :=
  d.paths.flatMap fun e => e.2.declaredOperations e.1

theorem PathItem.declaredOperations_eq (path : String) (item : PathItem) :
    item.declaredOperations path = item.operations.map fun e => ⟨path, item, e.1, e.2⟩ := by
  unfold PathItem.operations
  rw [List.map_filterMap]
  refine List.filterMap_congr fun method _ => ?_
  cases item.operation? method <;> rfl

/-- The methods of the operations of a path are distinct. -/
theorem PathItem.nodup_operations (item : PathItem) : (item.operations.map Prod.fst).Nodup := by
  have hall : HttpMethod.all.Nodup := by decide
  have hmethods : ∀ methods : List HttpMethod, ((methods.filterMap fun m =>
      (item.operation? m).map fun op => (m, op)).map Prod.fst).Sublist methods := by
    intro methods
    induction methods with
    | nil => exact .slnil
    | cons m rest ih =>
      rw [List.filterMap_cons]
      cases item.operation? m with
      | none => exact ih.cons m
      | some op => exact ih.cons_cons m
  exact hall.sublist (hmethods HttpMethod.all)

namespace DeclaredOperation

/-- What is asked of the operation. -/
def Valid (o : DeclaredOperation) : Prop := o.op.Valid o.path o.item

instance (o : DeclaredOperation) : Decidable o.Valid :=
  inferInstanceAs (Decidable (o.op.Valid o.path o.item))

/-- The parameters that apply to the operation. -/
def parameters (o : DeclaredOperation) : List Parameter :=
  effectiveParameters o.item.parameters o.op.parameters

/-- The finding says that the operation is left out, and for which fault. -/
def Skipped (o : DeclaredOperation) (f : Diagnostic) : Prop :=
  ∃ template fault, PathTemplate.ofPath o.path = .ok template ∧
    signatureOf template o.item o.op = .error fault ∧
    f = skippedOperation o.path o.method (Pointer.operation o.path o.method.key) fault

end DeclaredOperation

/-- The parameter of an endpoint for a declared parameter. -/
structure Parameter.Implemented (p : Parameter) (e : EndpointParameter) : Prop where
  wireName : e.wireName = p.name
  place : e.place = p.place
  required : e.required = p.required
  default : e.default = p.default.or (p.schema.bind Schema.default)
  description : e.description = p.description
  deprecated : e.deprecated = p.deprecated

/-- The endpoint of an operation. -/
structure Endpoint.Implements (e : Endpoint) (o : DeclaredOperation) : Prop where
  path : e.path = o.path
  method : e.method = o.method
  operationId : e.operationId = o.op.operationId
  parameters : ∃ ordered, Arranged o.path o.parameters ordered ∧
    List.Forall₂ Parameter.Implemented ordered e.parameters

/-! ### Work with findings -/

namespace Build

variable {α β : Type} {Q : α → Prop}

/-- Whatever the workspace, the result, if there is one, is as said. -/
def Returns (work : Build α) (Q : α → Prop) : Prop :=
  Advances (fun _ => True) (fun _ => True) work Q

theorem returns_any (work : Build α) : Returns work fun _ => True := by
  intro w _
  unfold Ends
  split
  · exact ⟨trivial, trivial⟩
  · trivial

theorem returns_pure {a : α} (h : Q a) : Returns (pure a) Q := advances_pure h

theorem Returns.bind {work : Build α} {f : α → Build β} {R : β → Prop} (h : Returns work Q)
    (hf : ∀ a, Q a → Returns (f a) R) : Returns (work >>= f) R :=
  Advances.bind h hf

/-- Whatever the workspace, the result and the findings that are added are as said. -/
def Walks (work : Build α) (Q : α → List Diagnostic → Prop) : Prop :=
  ∀ w, Ends work w (fun a w' => ∃ more, findings w' = findings w ++ more ∧ Q a more) fun _ _ => True

theorem walks_pure {a : α} {Q : α → List Diagnostic → Prop} (h : Q a []) : Walks (pure a) Q :=
  fun _ => ⟨[], (List.append_nil _).symm, h⟩

theorem Walks.bind {work : Build α} {f : α → Build β} {Q : α → List Diagnostic → Prop}
    {R : β → List Diagnostic → Prop} (h : Walks work Q)
    (hf : ∀ a ms, Q a ms → Walks (f a) fun b ns => R b (ms ++ ns)) : Walks (work >>= f) R := by
  intro w
  rw [ends_bind]
  refine (h w).mono_ok fun a w' ⟨ms, hms, ha⟩ => ?_
  refine (hf a ms ha w').mono_ok fun b w'' ⟨ns, hns, hb⟩ => ⟨ms ++ ns, ?_, hb⟩
  rw [hns, hms, List.append_assoc]

/-- What is known of the result and of the findings. -/
theorem Returns.walks {work : Build α} {P : Diagnostic → Prop} (h : Returns work Q)
    (hreports : Reports P work) : Walks work fun a more => Q a ∧ ∀ f ∈ more, P f := by
  intro w
  unfold Ends
  cases hw : work w with
  | error e t => trivial
  | ok a t =>
    obtain ⟨more, hmore, hfindings, -⟩ := hreports.of_ok hw
    exact ⟨more, hfindings, ((h w trivial).of_ok hw).2, hmore⟩

end Build

open Build

section Endpoints

variable {config : Config} {d : Document}

/-! ### Endpoints -/

/-- The parameters of an endpoint are those of the signature, one for one. -/
theorem EndpointContext.parameters_implemented (ctx : EndpointContext) :
    ∀ (ps : List Parameter) (scope : NameScope),
      Returns (ctx.parameters scope ps) fun es => List.Forall₂ Parameter.Implemented ps es
  | [], _ => returns_pure .nil
  | p :: rest, scope => by
    refine (returns_any _).bind fun type _ => (returns_any _).bind fun named _ => ?_
    refine (parameters_implemented ctx rest named.2).bind fun es hes => ?_
    exact returns_pure (.cons ⟨rfl, rfl, rfl, rfl, rfl, rfl⟩ hes)

/-- **A valid operation becomes its endpoint.** -/
theorem buildEndpoint_implements {o : DeclaredOperation} {template : PathTemplate}
    {signature : Signature} (htemplate : PathTemplate.ofPath o.path = .ok template)
    (hsignature : signatureOf template o.item o.op = .ok signature) (callables : NameScope)
    (location : String) :
    Returns (buildEndpoint d config callables o.path o.method o.op signature location) fun made =>
      made.1.Implements o := by
  have harranged := signatureOf_arranged htemplate hsignature
  unfold buildEndpoint
  refine (returns_any _).bind fun _ _ => (returns_any _).bind fun named _ => ?_
  let ctx : EndpointContext := ⟨d, config, location, camelHint named.1⟩
  refine (ctx.parameters_implemented signature.ordered _).bind fun parameters hparameters => ?_
  refine (returns_any _).bind fun body _ => (returns_any _).bind fun responses _ => ?_
  exact returns_pure ⟨rfl, rfl, rfl, signature.ordered, harranged, hparameters⟩

/-! ### The walk over the path table -/

/-- The findings that are errors. -/
def errorsOf (fs : List Diagnostic) : List Diagnostic := fs.filter fun f => f.severity = .error

theorem errorsOf_warnings {fs : List Diagnostic} (h : ∀ f ∈ fs, f.IsWarning) :
    errorsOf fs = [] := by
  refine List.filter_eq_nil_iff.2 fun f hf => ?_
  have hseverity : f.severity = .warning := h f hf
  simp [hseverity]

/-- The operations are accounted for: the valid ones by endpoints, and the others by findings, one
for one. -/
structure Accounted (os : List DeclaredOperation) (endpoints : List Endpoint)
    (fs : List Diagnostic) : Prop where
  valid : List.Forall₂ (fun o e => e.Implements o) (os.filter fun o => o.Valid) endpoints
  invalid : List.Forall₂ DeclaredOperation.Skipped (os.filter fun o => ¬ o.Valid) (errorsOf fs)

theorem Accounted.append {os os' : List DeclaredOperation} {es es' : List Endpoint}
    {fs fs' : List Diagnostic} (h : Accounted os es fs) (h' : Accounted os' es' fs') :
    Accounted (os ++ os') (es ++ es') (fs ++ fs') := by
  refine ⟨?_, ?_⟩
  · rw [List.filter_append]
    exact List.rel_append h.valid h'.valid
  · rw [List.filter_append, errorsOf, List.filter_append]
    exact List.rel_append h.invalid h'.invalid

theorem accounted_valid {o : DeclaredOperation} {e : Endpoint} {fs : List Diagnostic}
    (ho : o.Valid) (he : e.Implements o) (hfs : ∀ f ∈ fs, f.IsWarning) :
    Accounted [o] [e] fs := by
  refine ⟨?_, ?_⟩
  · rw [List.filter_cons_of_pos (by simpa using ho)]
    exact .cons he .nil
  · rw [List.filter_cons_of_neg (by simpa using ho), errorsOf_warnings hfs]
    exact .nil

theorem accounted_invalid {o : DeclaredOperation} {f : Diagnostic} (ho : ¬ o.Valid)
    (hf : o.Skipped f) : Accounted [o] [] [f] := by
  refine ⟨?_, ?_⟩
  · rw [List.filter_cons_of_neg (by simpa using ho)]
    exact .nil
  · have herror : errorsOf [f] = [f] := by
      obtain ⟨template, fault, -, -, rfl⟩ := hf
      rfl
    rw [List.filter_cons_of_pos (by simpa using ho), herror]
    exact .cons hf .nil

/-- The operations of a path are accounted for. -/
theorem pathEndpoints_accounted {path : String} {template : PathTemplate}
    (htemplate : PathTemplate.ofPath path = .ok template) (item : PathItem) :
    ∀ (operations : List (HttpMethod × Operation)) (callables : NameScope),
      Walks (pathEndpoints d config path item template callables operations) fun made more =>
        Accounted (operations.map fun e => ⟨path, item, e.1, e.2⟩) made.1 more
  | [], _ => walks_pure ⟨.nil, .nil⟩
  | (method, op) :: rest, callables => by
    let o : DeclaredOperation := ⟨path, item, method, op⟩
    have hrest := fun callables => pathEndpoints_accounted htemplate item rest callables
    have hvalid : (∃ s, signatureOf template item op = .ok s) ↔ o.Valid :=
      signatureOf_isOk_iff htemplate item op
    unfold pathEndpoints
    -- There is a signature if and only if the operation is valid.
    cases hsignature : signatureOf template item op with
    | error fault =>
      have hnot : ¬ o.Valid := fun h => by
        obtain ⟨s, hs⟩ := hvalid.2 h
        rw [hsignature] at hs
        simp at hs
      have hskipped : o.Skipped
          (skippedOperation path method (Pointer.operation path method.key) fault) :=
        ⟨template, fault, htemplate, hsignature, rfl⟩
      have hreport : Walks (Build.report
          [skippedOperation path method (Pointer.operation path method.key) fault])
          fun _ more => more = [skippedOperation path method (Pointer.operation path method.key)
            fault] :=
        fun w => ⟨_, rfl, rfl⟩
      refine hreport.bind fun _ more hmore => ?_
      subst hmore
      intro w
      refine (hrest callables w).mono_ok ?_
      rintro made w' ⟨more, hmore, hmade⟩
      exact ⟨more, hmore, (accounted_invalid hnot hskipped).append hmade⟩
    | ok signature =>
      have hreturns : Returns (buildEndpoint d config callables path method op signature
          (Pointer.operation path method.key)) fun made => made.1.Implements o :=
        buildEndpoint_implements (o := o) htemplate hsignature callables _
      have hendpoint := hreturns.walks (buildEndpoint_reports d config _ _ _ _ _ _)
      refine hendpoint.bind ?_
      rintro made fs ⟨hmade, hfs⟩
      refine (hrest made.2).bind fun more gs hmore => walks_pure ?_
      rw [List.append_nil]
      exact (accounted_valid (hvalid.1 ⟨signature, hsignature⟩) hmade hfs).append hmore

/-- **The operations of a path table are accounted for.** -/
theorem tableEndpoints_accounted :
    ∀ (paths : List (String × PathItem)) (callables : NameScope),
      Walks (tableEndpoints d config callables paths) fun made more =>
        Accounted (paths.flatMap fun e => e.2.declaredOperations e.1) made more
  | [], _ => walks_pure ⟨.nil, .nil⟩
  | (path, item) :: rest, callables => by
    have htemplate : Walks (Build.ofExcept (PathTemplate.ofPath path)) fun template more =>
        PathTemplate.ofPath path = .ok template ∧ more = [] := by
      intro w
      unfold Build.ofExcept
      rw [ends_resolving, Resolution.ends_ofExcept]
      exact ⟨fun t ht => ⟨[], (List.append_nil _).symm, ht, rfl⟩, fun _ _ => trivial⟩
    unfold tableEndpoints
    refine htemplate.bind fun template ms ⟨hpath, hms⟩ => ?_
    subst hms
    rw [List.flatMap_cons, PathItem.declaredOperations_eq]
    refine (pathEndpoints_accounted hpath item item.operations callables).bind
      fun made fs hmade => ?_
    refine (tableEndpoints_accounted rest made.2).bind fun more gs hmore => walks_pure ?_
    rw [List.append_nil]
    exact hmade.append hmore

end Endpoints

/-! ### Clients -/

/-- The operations of a description are accounted for by its client. -/
theorem compile_accounted {config : Config} {d : Document} {c : Compilation}
    (h : compile config d = .ok c) :
    Accounted d.declaredOperations c.interface.endpoints c.diagnostics := by
  have hmodels : Walks (buildModels d config.naming) fun _ more => ∀ f ∈ more, f.IsWarning :=
    fun w => ((returns_any _).walks (buildModels_reports d config.naming).warns w).mono_ok
      fun _ _ ⟨more, hmore, _, hwarnings⟩ => ⟨more, hmore, hwarnings⟩
  have hrun : Walks (compileAll config d) fun endpoints more =>
      Accounted d.declaredOperations endpoints more := by
    refine hmodels.bind fun _ fs hfs w => ?_
    refine (tableEndpoints_accounted d.paths _ w).mono_ok
      fun endpoints w' ⟨more, hmore, haccounted⟩ => ⟨more, hmore, haccounted.valid, ?_⟩
    rw [errorsOf, List.filter_append]
    exact (congrArg (· ++ errorsOf more) (errorsOf_warnings hfs)).symm ▸ haccounted.invalid
  unfold compile at h
  split at h
  · rename_i endpoints w hw
    rw [Except.ok.injEq] at h
    obtain ⟨more, hmore, haccounted⟩ := (hrun {}).of_ok hw
    subst h
    have hfindings : w.session.diagnostics = more := hmore
    rw [hfindings]
    exact haccounted
  · simp at h

/-- **Every operation is accounted for, in the order of declaration**: the valid ones become
endpoints, and for each of the others there is one error. -/
theorem compile_operations {config : Config} {d : Document} {c : Compilation}
    (h : compile config d = .ok c) :
    c.interface.endpoints.map (fun e => (e.path, e.method)) =
        (d.declaredOperations.filter fun o => o.Valid).map (fun o => (o.path, o.method)) ∧
      List.Forall₂ DeclaredOperation.Skipped (d.declaredOperations.filter fun o => ¬ o.Valid)
        (c.diagnostics.filter fun f => f.severity = .error) := by
  obtain ⟨hvalid, hinvalid⟩ := compile_accounted h
  refine ⟨?_, hinvalid⟩
  exact (map_eq_of_forall₂ hvalid fun o e he => by rw [he.path, he.method]).symm

/-- A path with a parameter of its own, and operations that are valid, that declare it as optional,
and that declare a parameter twice. -/
def mixedItem : PathItem where
  parameters := [{ name := "trace", location := "header" },
    { name := "id", location := "path", required := true }]
  get := some { parameters := [{ name := "sort", location := "query" },
    { name := "trace", location := "header", required := true },
    { name := "shard", location := "path", required := true }] }
  put := some { parameters := [{ name := "id", location := "path" },
    { name := "shard", location := "path", required := true }] }
  post := some { parameters := [{ name := "shard", location := "path", required := true },
    { name := "tag", location := "query" }, { name := "tag", location := "query" }] }

/-- A path with the item, and one with a name in braces that is empty. -/
def mixedOperations : Document where
  paths :=
    [("/shards/\x7bshard\x7d/users/\x7bid\x7d/\x7bshard\x7d", mixedItem),
     ("/void/\x7b\x7d", { get := some {} })]

/-- One of the operations becomes an endpoint, and three are left out. -/
theorem compile_operations_mixed : ∃ c, compile {} mixedOperations = .ok c ∧
    c.interface.endpoints.map (fun e => (e.path, e.method)) =
      [("/shards/\x7bshard\x7d/users/\x7bid\x7d/\x7bshard\x7d", .get)] ∧
    (c.diagnostics.filter fun f => f.severity = .error).length = 3 := by
  obtain ⟨c, hc⟩ := compile_eq_ok {} mixedOperations (by decide +kernel)
  obtain ⟨hendpoints, herrors⟩ := compile_operations hc
  have hvalid : (mixedOperations.declaredOperations.filter fun o => o.Valid).map
      (fun o => (o.path, o.method)) =
        [("/shards/\x7bshard\x7d/users/\x7bid\x7d/\x7bshard\x7d", .get)] := by
    decide +kernel
  have hinvalid : (mixedOperations.declaredOperations.filter fun o => ¬ o.Valid).length = 3 := by
    decide +kernel
  exact ⟨c, hc, hendpoints.trans hvalid, herrors.length_eq.symm.trans hinvalid⟩

/-! ### Parameters -/

/-- The endpoint takes the parameters that apply to the operation, in call order. -/
structure Endpoint.Takes (e : Endpoint) (o : DeclaredOperation) : Prop where
  path : e.path = o.path
  method : e.method = o.method
  /-- In the path, there is one parameter for each placeholder, in the order of the template. -/
  placeholders : (e.parametersIn .path).map EndpointParameter.wireName =
    distinct (PathTemplate.namesOf o.path)
  required : ∀ p ∈ e.parametersIn .path, p.required = true
  /-- The required ones of the other parameters come next, and then the optional ones, both as they
  are declared. -/
  blocks : ∃ required optional : List EndpointParameter,
    e.parameters = e.parametersIn .path ++ required ++ optional ∧
      List.Forall₂ Parameter.Implemented
        (o.parameters.filter fun p => p.location ≠ "path" ∧ p.required = true) required ∧
      List.Forall₂ Parameter.Implemented
        (o.parameters.filter fun p => p.location ≠ "path" ∧ p.required = false) optional
  /-- They are the parameters that apply, in another order. -/
  perm : ∃ ordered, ordered.Perm o.parameters ∧
    List.Forall₂ Parameter.Implemented ordered e.parameters
  /-- A name and location apply once, if they are declared on the path or by the operation. -/
  once : (o.parameters.map Parameter.key).Nodup
  declared : ∀ k, k ∈ o.parameters.map Parameter.key ↔
    k ∈ o.item.parameters.map Parameter.key ∨ k ∈ o.op.parameters.map Parameter.key
  /-- A declaration of the operation applies before one of the path. -/
  wins : ∀ p, p ∈ o.parameters ↔ p ∈ o.op.parameters ∨
    p ∈ o.item.parameters ∧ p.key ∉ o.op.parameters.map Parameter.key

/-- A parameter is sent in the path iff it is declared there. -/
theorem Parameter.Implemented.place_eq_path_iff {p : Parameter} {e : EndpointParameter}
    (h : p.Implemented e) : e.place = .path ↔ p.location = "path" := by
  have hplace := p.inPath_eq
  unfold Parameter.inPath at hplace
  rw [h.place]
  by_cases hlocation : p.location = "path"
  · simpa [hlocation] using hplace
  · simpa [hlocation] using hplace

theorem forall₂_append_left {α β : Type} {R : α → β → Prop} {xs ys : List α} {zs : List β}
    (h : List.Forall₂ R (xs ++ ys) zs) :
    ∃ us vs, zs = us ++ vs ∧ List.Forall₂ R xs us ∧ List.Forall₂ R ys vs :=
  ⟨zs.take xs.length, zs.drop xs.length, (List.take_append_drop _ zs).symm,
    (List.forall₂_take_append zs xs ys h.flip).flip,
    (List.forall₂_drop_append zs xs ys h.flip).flip⟩

/-- **The endpoint of a valid operation takes its parameters.** -/
theorem Endpoint.Implements.takes {e : Endpoint} {o : DeclaredOperation} (h : e.Implements o)
    (ho : o.Valid) : e.Takes o := by
  obtain ⟨ordered, harranged, hparameters⟩ := h.parameters
  obtain ⟨inPath, hordered, hnames, hinPath⟩ := harranged.blocks
  have hsplit := hparameters
  rw [hordered] at hsplit
  obtain ⟨front, optional, hfront, hleft, hoptional⟩ := forall₂_append_left hsplit
  obtain ⟨first, required, hfirst, hpath, hrequired⟩ := forall₂_append_left hleft
  have hall : e.parameters = first ++ required ++ optional := by rw [hfront, hfirst]
  -- The first block is sent in the path, and nothing of the others is.
  have hfirstPath : ∀ p ∈ first, p.place = .path := by
    intro p hp
    obtain ⟨q, hq, hqp⟩ := forall₂_exists hpath.flip hp
    exact hqp.place_eq_path_iff.2 (hinPath q hq).1
  have hothers : ∀ {qs : List Parameter} {ps : List EndpointParameter},
      List.Forall₂ Parameter.Implemented qs ps → (∀ q ∈ qs, q.location ≠ "path") →
      ps.filter (fun p => p.place == .path) = [] := by
    intro qs ps hqs hne
    refine List.filter_eq_nil_iff.2 fun p hp => ?_
    obtain ⟨q, hq, hqp⟩ := forall₂_exists hqs.flip hp
    simpa using fun hplace => hne q hq (hqp.place_eq_path_iff.1 hplace)
  -- So looking for the parameters in the path finds the first block, in its order.
  have hpathParameters : e.parametersIn .path = first := by
    unfold Endpoint.parametersIn
    rw [hall, List.filter_append, List.filter_append,
      hothers hrequired fun q hq => (of_decide_eq_true (List.mem_filter.1 hq).2).1,
      hothers hoptional fun q hq => (of_decide_eq_true (List.mem_filter.1 hq).2).1,
      List.append_nil, List.append_nil]
    exact List.filter_eq_self.2 fun p hp => by simp [hfirstPath p hp]
  refine ⟨h.path, h.method, ?_, fun p hp => ?_, ⟨required, optional, ?_, hrequired, hoptional⟩,
    ⟨ordered, harranged.perm, hparameters⟩, effectiveParameters_nodup ho.shared ho.own,
    fun k => mem_effectiveParameters_keys, fun p => mem_effectiveParameters ho.own⟩
  · rw [hpathParameters, ← hnames]
    exact (map_eq_of_forall₂ hpath fun _ _ hp => hp.wireName.symm).symm
  · rw [hpathParameters] at hp
    obtain ⟨q, hq, hqp⟩ := forall₂_exists hpath.flip hp
    rw [hqp.required]
    exact (hinPath q hq).2
  · rw [hpathParameters, hall]

/-- **Every endpoint takes the parameters of its operation**: those in the path as the template
names them, and then the required and the optional ones as they are declared. -/
theorem compile_parameters {config : Config} {d : Document} {c : Compilation}
    (h : compile config d = .ok c) :
    List.Forall₂ (fun o e => e.Takes o) (d.declaredOperations.filter fun o => o.Valid)
      c.interface.endpoints := by
  have hvalid := (compile_accounted h).valid
  have hall : ∀ o ∈ d.declaredOperations.filter fun o => o.Valid, o.Valid := by
    intro o ho
    simpa using (List.mem_filter.1 ho).2
  generalize d.declaredOperations.filter (fun o => o.Valid) = valid at hvalid hall ⊢
  generalize c.interface.endpoints = endpoints at hvalid ⊢
  induction hvalid with
  | nil => exact .nil
  | cons he _ ih =>
    exact .cons (he.takes (hall _ (.head _))) (ih fun o ho => hall o (.tail _ ho))

/-- The operation that is valid takes two parameters in the path, one that is required and one that
is optional; its own header replaces that of the path. -/
theorem compile_parameters_mixed : ∃ c e, compile {} mixedOperations = .ok c ∧
    c.interface.endpoints = [e] ∧
    (e.parametersIn .path).map EndpointParameter.wireName = ["shard", "id"] ∧
    e.parameters.map EndpointParameter.wireName = ["shard", "id", "trace", "sort"] := by
  obtain ⟨c, hc⟩ := compile_eq_ok {} mixedOperations (by decide +kernel)
  have htakes := compile_parameters hc
  have hone : (mixedOperations.declaredOperations.filter fun o => o.Valid).length = 1 := by
    decide +kernel
  have hparts : ∀ o ∈ mixedOperations.declaredOperations.filter fun o => o.Valid,
      distinct (PathTemplate.namesOf o.path) = ["shard", "id"] ∧
      (o.parameters.filter fun p => p.location ≠ "path" ∧ p.required = true).map Parameter.name =
        ["trace"] ∧
      (o.parameters.filter fun p => p.location ≠ "path" ∧ p.required = false).map Parameter.name =
        ["sort"] := by decide +kernel
  obtain ⟨o, ho⟩ := List.length_eq_one_iff.1 hone
  rw [ho] at htakes hparts
  obtain ⟨hnames, hrequired, hoptional⟩ := hparts o (.head _)
  obtain ⟨e, rest, he, hrest, hendpoints⟩ := List.forall₂_cons_left_iff.1 htakes
  rw [List.forall₂_nil_left_iff.1 hrest] at hendpoints
  obtain ⟨required, optional, hblocks, hrequired', hoptional'⟩ := he.blocks
  have hpath := he.placeholders.trans hnames
  refine ⟨c, e, hc, hendpoints, hpath, ?_⟩
  rw [hblocks, List.map_append, List.map_append, hpath,
    ← map_eq_of_forall₂ hrequired' fun _ _ hp => hp.wireName.symm,
    ← map_eq_of_forall₂ hoptional' fun _ _ hp => hp.wireName.symm, hrequired, hoptional]
  rfl

end ApiBinding
