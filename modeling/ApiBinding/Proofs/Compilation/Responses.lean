import ApiBinding.Proofs.Compilation.Closure
import ApiBinding.Proofs.Compilation.Operations
import ApiBinding.Proofs.Document.Addresses

/-!
# The responses of endpoints

An operation declares its responses under keys.  A key that means no status is reported, and its
response is left out.  Two keys may mean the same status, since the case of an `X` does not count;
the table of an endpoint has one entry for each status, so of the responses that are declared for a
status the last one stays.

## Main definitions

* `Build.Records` — work whose result and findings are as said, in whatever the registry becomes.
* `Tabled` — the endpoints and findings of operations, one after the other.
* `EndpointContext.Answers` — the entry that a declared response makes.
* `Endpoint.Responds` — an endpoint has the entries of the responses that its operation declares.

## Main results

* `tableEndpoints_records` — the walk over a path table, from what is known of each endpoint.
* `EndpointContext.records_responses` — what is made of declared responses.
* `compile_responses` — **the responses of all endpoints, and the findings about responses.**
-/

namespace ApiBinding

open Build

/-! ### Results and findings -/

namespace Build

variable {α β : Type} {I : Workspace → Prop} {P Q : Registry → α → List Diagnostic → Prop}

/-- The work leads from workspaces with `I` to such workspaces, extends the registry and adds
findings; what is said of its result and of these findings stands. -/
def Records (I : Workspace → Prop) (work : Build α) (Q : Registry → α → List Diagnostic → Prop) :
    Prop :=
  ∀ w, I w → Ends work w (fun a w' => I w' ∧ w.registry.Extends w'.registry ∧
    ∃ more, findings w' = findings w ++ more ∧ w'.registry.Stands fun r => Q r a more)
    fun _ _ => True

theorem records_pure {a : α} (h : ∀ r, Q r a []) : Records I (pure a) Q := fun w hw =>
  ⟨hw, .refl w.registry, [], (List.append_nil _).symm, fun r _ => h r⟩

/-- What follows may rely on what is said of the result. -/
theorem Records.bind {work : Build α} {f : α → Build β}
    {R : Registry → β → List Diagnostic → Prop} (h : Records I work P)
    (hf : ∀ r a ms, P r a ms → Records I (f a) fun r b ns => P r a ms → R r b (ms ++ ns)) :
    Records I (work >>= f) R := by
  intro w hw
  rw [ends_bind]
  refine (h w hw).mono_ok fun a w' ⟨hw', hextends, ms, hms, ha⟩ => ?_
  have hrest := hf _ a ms (ha _ (.refl _)) w' hw'
  refine hrest.mono_ok fun b w'' ⟨hw'', hextends', ns, hns, hb⟩ => ?_
  refine ⟨hw'', hextends.trans hextends', ms ++ ns, ?_, fun r hr => ?_⟩
  · rw [hns, hms, List.append_assoc]
  · exact hb r hr (ha r (hextends'.trans hr))

theorem Records.mono {work : Build α} (h : Records I work P)
    (hpq : ∀ r a more, P r a more → Q r a more) : Records I work Q := fun w hw =>
  (h w hw).mono_ok fun a _ ⟨hw', hextends, more, hmore, ha⟩ =>
    ⟨hw', hextends, more, hmore, fun r hr => hpq r a more (ha r hr)⟩

/-- What is known of the result and of the findings is known of both. -/
theorem Gives.records {work : Build α} {R : Registry → α → Prop} {K : Diagnostic → Prop}
    (h : Gives I work R) (hreports : Reports K work) :
    Records I work fun r a more => R r a ∧ ∀ f ∈ more, K f := by
  intro w hw
  unfold Ends
  cases hrun : work w with
  | error e w' => trivial
  | ok a w' =>
    obtain ⟨more, hmore, hfindings, -⟩ := hreports.of_ok hrun
    obtain ⟨hw', hextends, ha⟩ := (h w hw).of_ok hrun
    exact ⟨hw', hextends, more, hfindings, fun r hr => ⟨ha r hr, hmore⟩⟩

/-- The result comes from a run of the work, and the registry goes on from the end of this run. -/
theorem Gives.run {work : Build α} {R : Registry → α → Prop} (h : Gives I work R) :
    Gives I work fun r a =>
      R r a ∧ ∃ w w', I w ∧ work w = .ok a w' ∧ w'.registry.Extends r := by
  intro w hw
  unfold Ends
  cases hrun : work w with
  | error e w' => trivial
  | ok a w' =>
    obtain ⟨hw', hextends, ha⟩ := (h w hw).of_ok hrun
    exact ⟨hw', hextends, fun r hr => ⟨ha r hr, w, w', hw, hrun, hr⟩⟩

end Build

/-! ### The walk over the path table -/

/-- The endpoints and the findings of operations, one after the other.  A valid operation has an
endpoint, which is as said together with the findings about it; any other one has a finding that it
is left out. -/
inductive Tabled (R : DeclaredOperation → Endpoint → List Diagnostic → Prop) :
    List DeclaredOperation → List Endpoint → List Diagnostic → Prop where
  | nil : Tabled R [] [] []
  | skipped {o : DeclaredOperation} {f : Diagnostic} {os : List DeclaredOperation}
      {es : List Endpoint} {fs : List Diagnostic} (ho : ¬ o.Valid) (hf : o.Skipped f)
      (h : Tabled R os es fs) : Tabled R (o :: os) es (f :: fs)
  | made {o : DeclaredOperation} {e : Endpoint} {more : List Diagnostic}
      {os : List DeclaredOperation} {es : List Endpoint} {fs : List Diagnostic} (ho : o.Valid)
      (he : R o e more) (h : Tabled R os es fs) : Tabled R (o :: os) (e :: es) (more ++ fs)

namespace Tabled

variable {R : DeclaredOperation → Endpoint → List Diagnostic → Prop}
  {os os' : List DeclaredOperation} {es es' : List Endpoint} {fs fs' : List Diagnostic}

theorem append (h : Tabled R os es fs) (h' : Tabled R os' es' fs') :
    Tabled R (os ++ os') (es ++ es') (fs ++ fs') := by
  induction h with
  | nil => exact h'
  | skipped ho hf _ ih => exact .skipped ho hf ih
  | made ho he _ ih =>
    rw [List.append_assoc]
    exact .made ho he ih

/-- The endpoints are those of the valid operations. -/
theorem valid {S : DeclaredOperation → Endpoint → Prop} (h : Tabled R os es fs)
    (hS : ∀ o e more, R o e more → S o e) :
    List.Forall₂ S (os.filter fun o => o.Valid) es := by
  induction h with
  | nil => exact .nil
  | skipped ho _ _ ih =>
    rw [List.filter_cons_of_neg (by simpa using ho)]
    exact ih
  | made ho he _ ih =>
    rw [List.filter_cons_of_pos (by simpa using ho)]
    exact .cons (hS _ _ _ he) ih

/-- Findings that are not about operations that are left out are those about the others. -/
theorem filter {p : Diagnostic → Bool} {g : DeclaredOperation → List Diagnostic}
    (h : Tabled R os es fs) (hskipped : ∀ o f, DeclaredOperation.Skipped o f → p f = false)
    (hR : ∀ o e more, R o e more → more.filter p = g o) :
    fs.filter p = (os.filter fun o => o.Valid).flatMap g := by
  induction h with
  | nil => rfl
  | skipped ho hf _ ih =>
    rw [List.filter_cons_of_neg (by simp [hskipped _ _ hf]),
      List.filter_cons_of_neg (by simpa using ho), ih]
  | made ho he _ ih =>
    rw [List.filter_append, List.filter_cons_of_pos (by simpa using ho), List.flatMap_cons,
      hR _ _ _ he, ih]

end Tabled

section Walk

variable {config : Config} {d : Document}
  {R : Registry → DeclaredOperation → Endpoint → List Diagnostic → Prop}

/-- The place of an operation in the description. -/
def DeclaredOperation.location (o : DeclaredOperation) : String :=
  Pointer.operation o.path o.method.key

/-- What is known of the endpoint of an operation, and of the findings about it, if the operation
has a signature. -/
def DeclaredOperation.Builds (config : Config) (d : Document)
    (R : Registry → DeclaredOperation → Endpoint → List Diagnostic → Prop) (o : DeclaredOperation) :
    Prop :=
  ∀ (template : PathTemplate) (signature : Signature) (callables : NameScope),
    PathTemplate.ofPath o.path = .ok template →
    signatureOf template o.item o.op = .ok signature →
    Records (Closing config d [])
      (buildEndpoint d config callables o.path o.method o.op signature o.location)
      fun r made more => R r o made.1 more

theorem records_report (fs : List Diagnostic) :
    Records (Closing config d []) (Build.report fs) fun _ _ more => more = fs := by
  intro w hw
  obtain ⟨hw', hextends, -⟩ := @gives_report config d fs w hw
  exact ⟨hw', hextends, fs, rfl, fun _ _ => rfl⟩

/-- The operations of a path, one after the other. -/
theorem pathEndpoints_records {path : String} {template : PathTemplate}
    (htemplate : PathTemplate.ofPath path = .ok template) (item : PathItem) :
    ∀ (operations : List (HttpMethod × Operation)) (callables : NameScope),
      (∀ e ∈ operations, DeclaredOperation.Builds config d R ⟨path, item, e.1, e.2⟩) →
      Records (Closing config d [])
        (pathEndpoints d config path item template callables operations) fun r made more =>
          Tabled (R r) (operations.map fun e => ⟨path, item, e.1, e.2⟩) made.1 more
  | [], _, _ => records_pure fun _ => .nil
  | (method, op) :: rest, callables, h => by
    let o : DeclaredOperation := ⟨path, item, method, op⟩
    have hrest := fun callables => pathEndpoints_records htemplate item rest callables
      fun e he => h e (.tail _ he)
    have hvalid : (∃ s, signatureOf template item op = .ok s) ↔ o.Valid :=
      signatureOf_isOk_iff htemplate item op
    unfold pathEndpoints
    -- There is a signature if and only if the operation is valid.
    cases hsignature : signatureOf template item op with
    | error fault =>
      have hnot : ¬ o.Valid := fun ho => by
        obtain ⟨s, hs⟩ := hvalid.2 ho
        rw [hsignature] at hs
        simp at hs
      refine (records_report _).bind fun _ _ ms hms => (hrest callables).mono
        fun r made more hmade _ => ?_
      subst hms
      exact .skipped hnot ⟨template, fault, htemplate, hsignature, rfl⟩ hmade
    | ok signature =>
      have hbuild := h (method, op) (.head _) template signature callables htemplate hsignature
      refine hbuild.bind fun _ made ms _ => (hrest made.2).bind fun _ more ns _ =>
        records_pure fun r hmore hmade => ?_
      rw [List.append_nil]
      exact .made (hvalid.1 ⟨signature, hsignature⟩) hmade hmore

/-- **The operations of a path table**, one after the other: what is known of each endpoint and of
the findings about it is known of all of them. -/
theorem tableEndpoints_records :
    ∀ (paths : List (String × PathItem)) (callables : NameScope),
      (∀ o ∈ paths.flatMap fun e => e.2.declaredOperations e.1, o.Builds config d R) →
      Records (Closing config d []) (tableEndpoints d config callables paths) fun r made more =>
        Tabled (R r) (paths.flatMap fun e => e.2.declaredOperations e.1) made more
  | [], _, _ => records_pure fun _ => .nil
  | (path, item) :: rest, callables, h => by
    rw [List.flatMap_cons, PathItem.declaredOperations_eq] at h ⊢
    have htemplate : Records (Closing config d []) (Build.ofExcept (PathTemplate.ofPath path))
        fun _ template more => PathTemplate.ofPath path = .ok template ∧ more = [] := by
      intro w hw
      unfold Build.ofExcept
      rw [ends_resolving, Resolution.ends_ofExcept]
      exact ⟨fun t ht => ⟨hw, .refl _, [], (List.append_nil _).symm, fun _ _ => ⟨ht, rfl⟩⟩,
        fun _ _ => trivial⟩
    unfold tableEndpoints
    refine htemplate.bind fun _ template ms htemplate => ?_
    obtain ⟨hpath, rfl⟩ := htemplate
    have hitem := pathEndpoints_records (R := R) hpath item item.operations callables fun e he =>
      h _ (List.mem_append_left _ (List.mem_map_of_mem he))
    have hrest := fun callables => tableEndpoints_records rest callables fun o ho =>
      h o (List.mem_append_right _ ho)
    refine hitem.bind fun _ made ms _ => (hrest made.2).bind fun _ more ns _ =>
      records_pure fun r hmore hmade _ => ?_
    rw [List.append_nil, List.nil_append]
    exact hmade.append hmore

end Walk

/-! ### Places of responses -/

/-- The place of the response under a key. -/
def responsePlace (location key : String) : String :=
  location ++ "/responses/" ++ Pointer.escape key

/-- **The place of a response tells its operation and its key.** -/
theorem responsePlace_inj {o o' : DeclaredOperation} {key key' : String}
    (h : responsePlace o.location key = responsePlace o'.location key') :
    (o.path, o.method) = (o'.path, o'.method) ∧ key = key' := by
  have hmethod : ∀ m : HttpMethod, '/' ∉ m.key.toList := by
    intro m
    cases m <;> decide
  have hkey : ∀ m m' : HttpMethod, m.key = m'.key → m = m' := by
    intro m m'
    cases m <;> cases m' <;> decide
  have hchars := congrArg String.toList h
  simp only [responsePlace, DeclaredOperation.location, Pointer.operation, String.toList_append,
    List.append_assoc] at hchars
  -- The parts stand between slashes, and none of them has a slash of its own.
  have hpath := List.append_cancel_left hchars
  simp only [Pointer.escape, String.toList_ofList] at hpath
  obtain ⟨hpath, hrest⟩ := Pointer.append_slash_inj (Pointer.slash_notMem_escapeChars _)
    (Pointer.slash_notMem_escapeChars _) hpath
  obtain ⟨hm, hresponses⟩ := Pointer.append_slash_inj (hmethod _) (hmethod _) hrest
  have hescaped := List.append_cancel_left hresponses
  refine ⟨Prod.ext_iff.2 ⟨?_, hkey _ _ (String.toList_inj.1 hm)⟩, ?_⟩
  · exact Pointer.escape_injective (congrArg String.ofList hpath)
  · exact Pointer.escape_injective (congrArg String.ofList hescaped)

/-- The operations of a description are told apart by their paths and methods. -/
theorem nodup_declaredOperations : ∀ paths : Table String PathItem, (Table.keys paths).Nodup →
    ((paths.flatMap fun e => e.2.declaredOperations e.1).map fun o => (o.path, o.method)).Nodup
  | [], _ => .nil
  | (path, item) :: rest, h => by
    rw [Table.keys_cons, List.nodup_cons] at h
    rw [List.flatMap_cons, List.map_append, List.nodup_append]
    have hfirst : (item.declaredOperations path).map (fun o => (o.path, o.method)) =
        (item.operations.map Prod.fst).map fun method => (path, method) := by
      rw [PathItem.declaredOperations_eq, List.map_map, List.map_map]
      rfl
    refine ⟨?_, nodup_declaredOperations rest h.2, ?_⟩
    · rw [hfirst]
      exact item.nodup_operations.map fun _ _ heq => (Prod.mk.inj heq).2
    · rintro k hk _ hk' rfl
      rw [hfirst] at hk
      obtain ⟨method, -, rfl⟩ := List.mem_map.1 hk
      -- The path of the first operations is not that of any other one.
      obtain ⟨o, ho, heq⟩ := List.mem_map.1 hk'
      obtain ⟨e, he, ho⟩ := List.mem_flatMap.1 ho
      rw [PathItem.declaredOperations_eq] at ho
      obtain ⟨operation, -, rfl⟩ := List.mem_map.1 ho
      have hpath : e.1 = path := congrArg Prod.fst heq
      have hmem : e.1 ∈ Table.keys rest := Table.mem_keys he
      exact h.1 (hpath ▸ hmem)

/-! ### Findings about responses -/

/-- The finding about a response whose key means no status. -/
def ignoredResponse (location key : String) : Diagnostic :=
  .warning .invalidResponseStatus (responsePlace location key)
    (StatusKey.invalidMessage key ++ "; response ignored")

/-- The findings about the responses that are declared at a place. -/
def ignoredResponses (location : String) (rs : List (String × Response)) : List Diagnostic :=
  (rs.filter fun p => (StatusKey.ofText? p.1).isNone).map fun p => ignoredResponse location p.1

/-- The findings that are about responses. -/
def responseFindings (fs : List Diagnostic) : List Diagnostic :=
  fs.filter fun f => f.code = .invalidResponseStatus

theorem responseFindings_remarks {fs : List Diagnostic} (h : ∀ f ∈ fs, f.IsRemark) :
    responseFindings fs = [] :=
  List.filter_eq_nil_iff.2 fun f hf => by simpa using (h f hf).2

/-- Work that reports remarks only has no findings about responses. -/
theorem Build.Gives.quiet {α : Type} {I : Workspace → Prop} {work : Build α}
    {R : Registry → α → Prop} (h : Gives I work R)
    (hreports : Reports Diagnostic.IsRemark work) :
    Records I work fun r a more => R r a ∧ responseFindings more = [] :=
  (h.records hreports).mono fun _ _ _ ⟨ha, hmore⟩ => ⟨ha, responseFindings_remarks hmore⟩

theorem responseFindings_append (fs gs : List Diagnostic) :
    responseFindings (fs ++ gs) = responseFindings fs ++ responseFindings gs :=
  List.filter_append fs gs

/-! ### The entries of responses -/

/-- No media type is picked if and only if none has a schema. -/
theorem selectMedia_eq_none_iff {preferred : List String} {content : Table String MediaType} :
    selectMedia preferred content = none ↔ ∀ e ∈ content, e.2.schema = none := by
  unfold selectMedia
  rw [Option.or_eq_none_iff, List.findSome?_eq_none_iff, List.findSome?_eq_none_iff]
  constructor
  · rintro ⟨-, h⟩ e he
    simpa using h e he
  · intro h
    refine ⟨fun media _ => ?_, fun e he => by simp [h e he]⟩
    cases hm : Table.get? content media with
    | none => rfl
    | some m =>
      have hnone : m.schema = none := h _ (Table.mem_of_get? hm)
      simp [hnone]

/-- The statuses that the keys of the responses mean. -/
def statusesOf (rs : List (String × Response)) : List StatusKey :=
  rs.filterMap fun p => StatusKey.ofText? p.1

/-- The responses whose keys mean a status. -/
def responsesWithStatus (rs : List (String × Response)) : List (String × Response) :=
  rs.filter fun p => (StatusKey.ofText? p.1).isSome

namespace EndpointContext

variable (ctx : EndpointContext)

/-- The entry that a declared response makes: it stands under the status that the key means, and
holds the type that is made for the body in the course of the compilation. -/
structure Answers (r : Registry) (declared : String × Response)
    (entry : StatusKey × Option TypeRef) : Prop where
  status : StatusKey.ofText? declared.1 = some entry.1
  /-- The type is made on a workspace of the compilation, and its models are still there at the
  end. -/
  made : ∃ w w', Closing ctx.config ctx.document [] w ∧
    ctx.bodyType declared.2.content ("Response" ++ camelHint declared.1)
      (responsePlace ctx.location declared.1) w = .ok entry.2 w' ∧ w'.registry.Extends r
  type : ctx.BodyTypeOf r declared.2.content (responsePlace ctx.location declared.1) entry.2
  none_iff : entry.2 = none ↔ ∀ e ∈ declared.2.content, e.2.schema = none

/-- There is a type if and only if there is a schema. -/
theorem BodyTypeOf.eq_none_iff {ctx : EndpointContext} {content : Table String MediaType}
    {location : String} {type : Option TypeRef} (h : ctx.BodyTypeOf r content location type) :
    type = none ↔ ∀ e ∈ content, e.2.schema = none := by
  rw [← @selectMedia_eq_none_iff ctx.config.media.preferred content]
  unfold BodyTypeOf at h
  split at h
  · rename_i hm
    exact ⟨fun _ => hm, fun _ => h⟩
  · rename_i media s hm
    obtain ⟨n, t, rfl, -, -⟩ := h
    simp [hm]

/-- **What is made of declared responses**: those under keys that mean a status are entered one
after the other, and the others are reported. -/
theorem records_responses :
    ∀ (rs : List (String × Response)) (found : Table StatusKey (Option TypeRef)),
      (∀ key response, (key, response) ∈ rs → ∀ status, StatusKey.ofText? key = some status →
        ∀ media s, selectMedia ctx.config.media.preferred response.content = some (media, s) →
        ctx.document.Uses ctx.config s) →
      Records (Closing ctx.config ctx.document []) (ctx.responses found rs) fun r table more =>
        (∃ entries, List.Forall₂ (ctx.Answers r) (responsesWithStatus rs) entries ∧
          table = entries.foldl (fun t e => Table.insert t e.1 e.2) found) ∧
        responseFindings more = ignoredResponses ctx.location rs
  | [], found, _ => records_pure fun _ => ⟨⟨[], .nil, rfl⟩, rfl⟩
  | (key, response) :: rest, found, h => by
    have hrest := fun found => records_responses rest found fun k r hmem => h k r (.tail _ hmem)
    unfold responses
    cases hkey : StatusKey.ofText? key with
    | none =>
      refine (records_report _).bind fun _ _ ms hms => (hrest found).mono ?_
      intro r table more hfound _
      obtain ⟨⟨entries, hentries, htable⟩, hmore⟩ := hfound
      refine ⟨⟨entries, ?_, htable⟩, ?_⟩
      · rw [responsesWithStatus, List.filter_cons_of_neg (by simp [hkey])]
        exact hentries
      · subst hms
        rw [responseFindings_append, hmore, ignoredResponses, ignoredResponses,
          List.filter_cons_of_pos (by simp [hkey])]
        rfl
    | some status =>
      have hbody : Gives (Closing ctx.config ctx.document []) (ctx.bodyType response.content
          ("Response" ++ camelHint key) (responsePlace ctx.location key)) _ :=
        gives_bodyType ctx.config ctx (h key response (.head _) status hkey)
      refine (hbody.run.quiet (ctx.bodyType_reports _ _ _)).bind fun _ type ms _ =>
        (hrest (Table.insert found status type)).mono ?_
      intro r table more hfound hbody
      obtain ⟨⟨entries, hentries, htable⟩, hmore⟩ := hfound
      obtain ⟨⟨htype, hmade⟩, hms⟩ := hbody
      refine ⟨⟨(status, type) :: entries, ?_, htable⟩, ?_⟩
      · rw [responsesWithStatus, List.filter_cons_of_pos (by simp [hkey])]
        exact .cons ⟨hkey, hmade, htype, htype.eq_none_iff⟩ hentries
      · rw [responseFindings_append, hms, List.nil_append, hmore, ignoredResponses,
          ignoredResponses, List.filter_cons_of_neg (by simp [hkey])]

end EndpointContext

section Entries

variable {ctx : EndpointContext} {r : Registry} {rs : List (String × Response)}
  {entries : List (StatusKey × Option TypeRef)}

/-- The entries stand under the statuses that the keys of the responses mean. -/
theorem keys_of_answers (h : List.Forall₂ (ctx.Answers r) (responsesWithStatus rs) entries) :
    Table.keys entries = statusesOf rs := by
  have hkeys : statusesOf (responsesWithStatus rs) = Table.keys entries := by
    generalize responsesWithStatus rs = ps at h
    induction h with
    | nil => rfl
    | cons hanswers _ ih =>
      rw [Table.keys_cons, ← ih]
      exact List.filterMap_cons_some hanswers.status
  rw [← hkeys, statusesOf, responsesWithStatus, List.filterMap_filter]
  refine List.filterMap_congr fun p _ => ?_
  cases hp : StatusKey.ofText? p.1 <;> simp

/-- **The last response that is declared for a status stays.** -/
theorem latest?_of_answers {before after : List (String × Response)} {p : String × Response}
    {status : StatusKey}
    (h : List.Forall₂ (ctx.Answers r) (responsesWithStatus (before ++ p :: after)) entries)
    (hp : StatusKey.ofText? p.1 = some status) (hafter : status ∉ statusesOf after) :
    ∃ type, Table.latest? entries status = some type ∧ ctx.Answers r p (status, type) := by
  rw [responsesWithStatus, List.filter_append, List.filter_cons_of_pos (by simp [hp])] at h
  obtain ⟨first, others, rfl, -, hothers⟩ := forall₂_append_left h
  obtain ⟨entry, more, hentry, hmore, rfl⟩ := List.forall₂_cons_left_iff.1 hothers
  have hstatus : entry.1 = status := Option.some.inj (hentry.status.symm.trans hp)
  have hnone : Table.latest? more status = none := by
    refine Table.get?_eq_none fun hmem => hafter ?_
    rw [← keys_of_answers hmore]
    simpa [Table.keys] using hmem
  refine ⟨entry.2, ?_, hstatus ▸ hentry⟩
  rw [← List.singleton_append (l := more), Table.latest?_append, Table.latest?_append, hnone,
    Option.none_or]
  have hself : Table.latest? [entry] status = some entry.2 := if_pos hstatus
  rw [hself, Option.some_or]

end Entries

/-! ### Endpoints -/

/-- What the parts of the endpoint have in common. -/
def DeclaredOperation.context (config : Config) (d : Document) (o : DeclaredOperation)
    (e : Endpoint) : EndpointContext :=
  { document := d, config, location := o.location, hint := camelHint e.name }

/-- The endpoint has the responses that its operation declares. -/
structure Endpoint.Responds (config : Config) (d : Document) (r : Registry) (e : Endpoint)
    (o : DeclaredOperation) : Prop where
  path : e.path = o.path
  method : e.method = o.method
  /-- There is one entry for each status that a key means, where it is first meant. -/
  statuses : Table.keys e.responses = distinct (statusesOf o.op.responses)
  /-- The entry of a status is that of the last response that is declared for it. -/
  last : ∀ before p after status, o.op.responses = before ++ p :: after →
    StatusKey.ofText? p.1 = some status → status ∉ statusesOf after →
    ∃ type, Table.get? e.responses status = some type ∧
      (o.context config d e).Answers r p (status, type)
  /-- If all keys mean different statuses, the entries are those of the responses, one for one. -/
  each : (statusesOf o.op.responses).Nodup →
    List.Forall₂ ((o.context config d e).Answers r) (responsesWithStatus o.op.responses) e.responses

/-- The entries of the declared responses, entered one after the other, make up the table. -/
theorem Endpoint.responds_of_answers {config : Config} {d : Document} {r : Registry} {e : Endpoint}
    {o : DeclaredOperation} {entries : List (StatusKey × Option TypeRef)} (hpath : e.path = o.path)
    (hmethod : e.method = o.method)
    (h : List.Forall₂ ((o.context config d e).Answers r) (responsesWithStatus o.op.responses)
      entries)
    (htable : e.responses = Table.ofEntries entries) : e.Responds config d r o := by
  refine ⟨hpath, hmethod, ?_, fun before p after status hrs hp hafter => ?_, fun hnodup => ?_⟩
  · rw [htable, Table.keys_ofEntries, keys_of_answers h]
  · rw [htable, Table.get?_ofEntries]
    rw [hrs] at h
    exact latest?_of_answers h hp hafter
  · rw [htable, Table.ofEntries_eq (by rwa [keys_of_answers h])]
    exact h

section Endpoints

variable {config : Config} {d : Document}

/-- A schema that a declared operation with a signature uses is one that the description uses. -/
theorem DeclaredOperation.uses {o : DeclaredOperation} {template : PathTemplate}
    {signature : Signature} (ho : o ∈ d.declaredOperations)
    (htemplate : PathTemplate.ofPath o.path = .ok template)
    (hsignature : signatureOf template o.item o.op = .ok signature) {s : Schema}
    (hs : o.op.Uses config signature s) : d.Uses config s := by
  obtain ⟨e, he, ho⟩ := List.mem_flatMap.1 ho
  rw [PathItem.declaredOperations_eq] at ho
  obtain ⟨operation, hoperation, rfl⟩ := List.mem_map.1 ho
  exact ⟨e.1, e.2, template, he, htemplate, operation.1, operation.2, signature, hoperation,
    hsignature, hs⟩

/-- **The endpoint of an operation has its responses**, and the findings about it are about those
that are left out. -/
theorem DeclaredOperation.builds_responses {o : DeclaredOperation} (ho : o ∈ d.declaredOperations) :
    o.Builds config d fun r o e more => e.Responds config d r o ∧
      responseFindings more = ignoredResponses o.location o.op.responses := by
  intro template signature callables htemplate hsignature
  have huses : ∀ s, o.op.Uses config signature s → d.Uses config s :=
    fun s hs => DeclaredOperation.uses ho htemplate hsignature hs
  unfold buildEndpoint
  have hreclassified : ∀ f ∈ signature.reclassified.map (unsupportedLocation o.location),
      f.IsRemark := by
    intro f hf
    obtain ⟨p, -, rfl⟩ := List.mem_map.1 hf
    exact Diagnostic.isRemark_warning (by decide)
  have hname : ∀ raw, Records (Closing config d [])
      (typing (Typing.allocate config.naming callables raw o.location)) fun _ _ more =>
        True ∧ responseFindings more = [] := fun raw =>
    (gives_typing Typing.adds_allocate.yields).quiet
      (reports_typing (Typing.warns_allocate _ _ _ _))
  refine (records_report _).bind fun _ _ ms hms => (hname _).bind fun _ named _ _ => ?_
  let ctx : EndpointContext := ⟨d, config, o.location, camelHint named.1⟩
  have hparameters := (EndpointContext.gives_parameters config ctx signature.ordered
    { case := .snake } fun p hp s hs => huses s (.parameter hp hs)).quiet
    (ctx.parameters_reports _ _)
  have hrequest := (EndpointContext.gives_requestBody config ctx o.op
    fun body hb media s hm => huses s (.request hb hm)).quiet (ctx.requestBody_reports _)
  have hresponses := ctx.records_responses o.op.responses []
    fun key response hr status hk media s hm => huses s (.response hr hk hm)
  refine hparameters.bind fun _ parameters _ _ => hrequest.bind fun _ request _ _ =>
    hresponses.bind fun _ table _ _ => records_pure fun r htable hrequest hparameters hnamed _ => ?_
  obtain ⟨⟨entries, hentries, htable⟩, hmore⟩ := htable
  refine ⟨Endpoint.responds_of_answers rfl rfl hentries htable, ?_⟩
  subst hms
  simp only [responseFindings_append, responseFindings_remarks hreclassified, hnamed.2,
    hparameters.2, hrequest.2, hmore, List.nil_append]
  exact List.append_nil _

end Endpoints

/-! ### Clients -/

/-- The findings about the responses of the operation. -/
def DeclaredOperation.ignored (o : DeclaredOperation) : List Diagnostic :=
  ignoredResponses o.location o.op.responses

/-- **Every response without a status is reported once**: no other finding is at its place. -/
theorem count_ignored {os : List DeclaredOperation}
    (hos : (os.map fun o => (o.path, o.method)).Nodup)
    (hkeys : ∀ o ∈ os, (Table.keys o.op.responses).Nodup) {o : DeclaredOperation} (ho : o ∈ os)
    {key : String} (hkey : key ∈ Table.keys o.op.responses) (hnone : StatusKey.ofText? key = none) :
    ((os.flatMap DeclaredOperation.ignored).map Diagnostic.location).count
      (responsePlace o.location key) = 1 := by
  have hplaces : (os.flatMap DeclaredOperation.ignored).map Diagnostic.location =
      os.flatMap fun o => ((Table.keys o.op.responses).filter fun key =>
        (StatusKey.ofText? key).isNone).map (responsePlace o.location) := by
    rw [List.map_flatMap]
    refine congrArg (os.flatMap ·) (funext fun o => ?_)
    rw [DeclaredOperation.ignored, ignoredResponses, Table.keys, List.filter_map, List.map_map,
      List.map_map]
    rfl
  rw [hplaces]
  refine List.count_eq_one_of_mem (List.nodup_flatMap.2 ⟨fun o ho => ?_, ?_⟩) ?_
  · exact ((hkeys o ho).filter _).map fun _ _ heq => (responsePlace_inj heq).2
  · refine (List.pairwise_map.1 hos).imp fun hne place hplace hplace' => ?_
    obtain ⟨key, -, rfl⟩ := List.mem_map.1 hplace
    obtain ⟨key', -, heq⟩ := List.mem_map.1 hplace'
    exact hne (responsePlace_inj heq.symm).1
  · have hmem : key ∈ (Table.keys o.op.responses).filter fun key =>
        (StatusKey.ofText? key).isNone := List.mem_filter.2 ⟨hkey, by simp [hnone]⟩
    exact List.mem_flatMap.2 ⟨o, ho, List.mem_map_of_mem hmem⟩

/-- What is known of the endpoint of each operation, and of the findings about it, is known of all
operations of a compilation; what is found before is about components. -/
theorem compile_builds {config : Config} {d : Document} {c : Compilation} {w : Workspace}
    {R : Registry → DeclaredOperation → Endpoint → List Diagnostic → Prop} (h : c.Final config d w)
    (hc : compile config d = .ok c) (hbuilds : ∀ o ∈ d.declaredOperations, o.Builds config d R) :
    ∃ before after, c.diagnostics = before ++ after ∧ (∀ f ∈ before, f.IsRemark) ∧
      Tabled (R w.registry) d.declaredOperations c.interface.endpoints after := by
  have hmodels : Ends (buildModels d config.naming) {}
      (fun _ w => Closing config d [] w ∧ ∀ f ∈ findings w, f.IsRemark) fun _ _ => True := by
    unfold Ends
    cases hrun : buildModels d config.naming {} with
    | error e w => trivial
    | ok _ w =>
      obtain ⟨more, hmore, hfindings, -⟩ := (buildModels_reports d config.naming).of_ok hrun
      refine ⟨(buildModels_closing config d).of_ok hrun, ?_⟩
      rw [hfindings]
      exact hmore
  have hrun : Ends (compileAll config d) {} (fun es w => ∃ before after,
      findings w = before ++ after ∧ (∀ f ∈ before, f.IsRemark) ∧
        Tabled (R w.registry) d.declaredOperations es after) fun _ _ => True := by
    unfold compileAll extractEndpoints
    rw [ends_bind]
    refine hmodels.mono_ok fun _ w ⟨hw, hbefore⟩ => ?_
    have htable : Records (Closing config d [])
        (tableEndpoints d config { case := .snake } d.paths) _ :=
      tableEndpoints_records d.paths _ hbuilds
    refine (htable w hw).mono_ok fun es w' ⟨_, _, after, hafter, hes⟩ => ?_
    exact ⟨findings w, after, hafter, hbefore, hes _ (.refl _)⟩
  unfold compile at hc
  rw [h.run] at hc
  have hdiagnostics : c.diagnostics = findings w := by
    rw [← Except.ok.inj hc]
    rfl
  obtain ⟨before, after, hfindings, hbefore, htabled⟩ := hrun.of_ok h.run
  exact ⟨before, after, hdiagnostics.trans hfindings, hbefore, htabled⟩

/-- The operations of a compilation, with their endpoints and the findings about their responses. -/
theorem compile_tabled {config : Config} {d : Document} {c : Compilation} {w : Workspace}
    (h : c.Final config d w) (hc : compile config d = .ok c) :
    ∃ before after, c.diagnostics = before ++ after ∧ responseFindings before = [] ∧
      Tabled (fun o e more => e.Responds config d w.registry o ∧ responseFindings more = o.ignored)
        d.declaredOperations c.interface.endpoints after := by
  obtain ⟨before, after, hfindings, hbefore, htabled⟩ :=
    compile_builds h hc fun o ho => DeclaredOperation.builds_responses ho
  exact ⟨before, after, hfindings, responseFindings_remarks hbefore, htabled⟩

/-- **The responses of all endpoints, and the findings about responses.**  The endpoint of a valid
operation has one entry for each status that is declared, which is that of the last response that
is declared for it; so no response is lost if all keys of the operation mean different statuses.
Those under keys that mean no status are reported in order, and once each. -/
theorem compile_responses {config : Config} {d : Document} {c : Compilation}
    (h : compile config d = .ok c) :
    (∃ w, c.Final config d w ∧ List.Forall₂ (fun o e => e.Responds config d w.registry o)
      (d.declaredOperations.filter fun o => o.Valid) c.interface.endpoints) ∧
    responseFindings c.diagnostics =
      (d.declaredOperations.filter fun o => o.Valid).flatMap DeclaredOperation.ignored ∧
    ((Table.keys d.paths).Nodup →
      (∀ o ∈ d.declaredOperations, (Table.keys o.op.responses).Nodup) →
      ∀ o ∈ d.declaredOperations, o.Valid → ∀ key ∈ Table.keys o.op.responses,
        StatusKey.ofText? key = none →
        ((responseFindings c.diagnostics).map Diagnostic.location).count
          (responsePlace o.location key) = 1) := by
  obtain ⟨w, hw⟩ := compile_final h
  obtain ⟨before, after, hfindings, hbefore, htabled⟩ := compile_tabled hw h
  have hignored : responseFindings c.diagnostics =
      (d.declaredOperations.filter fun o => o.Valid).flatMap DeclaredOperation.ignored := by
    rw [hfindings, responseFindings_append, hbefore, List.nil_append]
    refine htabled.filter (fun o f hf => ?_) fun _ _ _ hmade => hmade.2
    obtain ⟨template, fault, -, -, rfl⟩ := hf
    rfl
  refine ⟨⟨w, hw, htabled.valid fun _ _ _ hmade => hmade.1⟩, hignored,
    fun hpaths hkeys o ho hvalid key hkey hnone => ?_⟩
  rw [hignored]
  have hsublist : ((d.declaredOperations.filter fun o => o.Valid).map fun o =>
      (o.path, o.method)).Sublist (d.declaredOperations.map fun o => (o.path, o.method)) :=
    List.filter_sublist.map _
  refine count_ignored ((nodup_declaredOperations d.paths hpaths).sublist hsublist)
    (fun o ho => hkeys o (List.mem_of_mem_filter ho)) (List.mem_filter.2 ⟨ho, ?_⟩) hkey hnone
  simpa using hvalid

/-! ### A status that is declared twice -/

/-- A response with a text. -/
def textResponse : Response where
  content := [("application/json", { schema := some { declaredType := some (.single "string") } })]

/-- A response with a number. -/
def countResponse : Response where
  content := [("application/json", { schema := some { declaredType := some (.single "integer") } })]

/-- An operation with responses for two spellings of a class of statuses, under a word, and for a
status without a body. -/
def brewing : Operation where
  responses := [("2xx", textResponse), ("teapot", {}), ("404", {}), ("2XX", countResponse)]

/-- A description with this operation. -/
def teaShop : Document where
  paths := [("/tea", { get := some brewing })]

/-- The operation as it is declared. -/
def teaShopBrewing : DeclaredOperation := ⟨"/tea", { get := some brewing }, .get, brewing⟩

theorem teaShop_operations :
    (teaShop.declaredOperations.filter fun o => o.Valid) = [teaShopBrewing] := by
  have hvalid : teaShopBrewing.Valid := by decide +kernel
  show [teaShopBrewing].filter (fun o => o.Valid) = [teaShopBrewing]
  simp [hvalid]

/-- There is one entry for the class, which is that of the second spelling, and one for the status;
the word is reported. -/
theorem compile_responses_teaShop : ∃ c e r, compile {} teaShop = .ok c ∧
    c.interface.endpoints = [e] ∧ Table.keys e.responses = [.range 2, .code 404] ∧
    (∃ type, Table.get? e.responses (.range 2) = some type ∧
      (teaShopBrewing.context {} teaShop e).Answers r ("2XX", countResponse) (.range 2, type)) ∧
    (responseFindings c.diagnostics).map Diagnostic.location =
      ["#/paths/~1tea/get/responses/teapot"] := by
  obtain ⟨c, hc⟩ := compile_eq_ok {} teaShop (by decide +kernel)
  obtain ⟨⟨w, -, hendpoints⟩, hignored, -⟩ := compile_responses hc
  rw [teaShop_operations] at hendpoints hignored
  obtain ⟨e, rest, he, hrest, hone⟩ := List.forall₂_cons_left_iff.1 hendpoints
  rw [List.forall₂_nil_left_iff.1 hrest] at hone
  refine ⟨c, e, w.registry, hc, hone, he.statuses.trans (by decide +kernel), ?_, ?_⟩
  · exact he.last [("2xx", textResponse), ("teapot", {}), ("404", {})] ("2XX", countResponse) []
      (.range 2) rfl (by decide +kernel) (by simp [statusesOf])
  · rw [hignored]
    decide +kernel

/-- The type that is made for a response with a text is that of texts. -/
theorem type_of_textResponse {d : Document} {r : Registry} {location hint place : String}
    {type : Option TypeRef}
    (h : EndpointContext.BodyTypeOf ⟨d, {}, location, hint⟩ r textResponse.content place type) :
    type = some (.scalar .string) := by
  obtain ⟨n, t, rfl, ⟨s, s', -, hn⟩, ht⟩ := h
  -- The node is made on the spot, whatever the session.
  have hnode : n = ⟨s.issued, .scalar .string none, false, none, none, none⟩ :=
    (EStateM.Result.ok.inj hn).1.symm
  subst hnode
  cases ht with
  | component hname _ => simp at hname
  | shape _ hshape =>
    cases hshape with
    | scalar => rfl
    | model hmodel _ => simp [Shape.getsModel] at hmodel

/-- **Two responses that are declared for one status**: the one with the text is gone, and nothing
is reported about it. -/
theorem responses_replace : ∃ c e, compile {} teaShop = .ok c ∧ c.interface.endpoints = [e] ∧
    teaShopBrewing.Valid ∧ ("2xx", textResponse) ∈ brewing.responses ∧
    StatusKey.ofText? "2xx" = some (.range 2) ∧
    (∀ r type, Table.get? e.responses (.range 2) = some type →
      ¬ (teaShopBrewing.context {} teaShop e).Answers r ("2xx", textResponse) (.range 2, type)) ∧
    responsePlace teaShopBrewing.location "2xx" ∉ c.diagnostics.map Diagnostic.location := by
  obtain ⟨c, hc⟩ := compile_eq_ok {} teaShop (by decide +kernel)
  have hresponses : (compile {} teaShop).toOption.map
      (fun c => c.interface.endpoints.map Endpoint.responses) =
        some [[(.range 2, some (.scalar .integer)), (.code 404, none)]] := by
    decide +kernel
  have hplaces : (compile {} teaShop).toOption.map
      (fun c => c.diagnostics.map Diagnostic.location) =
        some ["#/paths/~1tea/get/responses/teapot"] := by
    decide +kernel
  rw [hc] at hresponses hplaces
  have hfound : c.diagnostics.map Diagnostic.location = ["#/paths/~1tea/get/responses/teapot"] :=
    Option.some.inj hplaces
  obtain ⟨e, he, htable⟩ := List.map_eq_singleton_iff.1 (Option.some.inj hresponses)
  refine ⟨c, e, hc, he, by decide +kernel, .head _, by decide +kernel, fun r type htype hmade => ?_,
    by rw [hfound]; decide +kernel⟩
  have htext : type = some (.scalar .string) := type_of_textResponse hmade.type
  rw [htable, htext] at htype
  simp at htype

end ApiBinding
