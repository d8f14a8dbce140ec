import ApiBinding.Compile
import ApiBinding.Proofs.Resolver.Reporting

/-!
# What a compilation reports

Types and models, like resolutions, give rise to warnings only.  The one finding that is an error
is the one about an operation that is left out; it is reported where the operation would have
been, and neither the endpoints around it nor their models depend on it.

## Main definitions

* `Typing.Warns` — work on types that adds warnings and depends on no findings.

## Main results

* `buildEndpoint_reports` — a valid operation gives rise to warnings only.
* `tableEndpoints_reports` — a path table is walked alike from any findings.
-/

namespace ApiBinding

/-! ### Types and models -/

namespace Typing

variable {α β : Type}

/-- The work adds warnings.  Nothing else that it does depends on the findings there are. -/
def Warns (work : Typing α) : Prop :=
  ∀ r, ∃ a r' more, (∀ f ∈ more, Diagnostic.IsRemark f) ∧
    ∀ ds, work ⟨r, ds⟩ = (a, ⟨r', ds ++ more⟩)

theorem warns_pure (a : α) : Warns (pure a) := fun r =>
  ⟨a, r, [], by simp, fun ds => by rw [List.append_nil]; rfl⟩

theorem Warns.bind {work : Typing α} {f : α → Typing β} (h : Warns work) (hf : ∀ a, Warns (f a)) :
    Warns (work >>= f) := by
  intro r
  obtain ⟨a, r', more, hmore, hwork⟩ := h r
  obtain ⟨b, r'', rest, hrest, hfa⟩ := hf a r'
  refine ⟨b, r'', more ++ rest, fun d hd => (List.mem_append.1 hd).elim (hmore d) (hrest d),
    fun ds => ?_⟩
  have hrun : (work >>= f) ⟨r, ds⟩ = f (work ⟨r, ds⟩).1 (work ⟨r, ds⟩).2 := rfl
  rw [hrun, hwork, hfa, List.append_assoc]

theorem warns_componentModel? (component : String) : Warns (componentModel? component) := fun r =>
  ⟨r.componentModel? component, r, [], by simp, fun ds => by rw [List.append_nil]; rfl⟩

theorem warns_modifyRegistry (change : Registry → Registry) : Warns (modifyRegistry change) :=
  fun r => ⟨(), change r, [], by simp, fun ds => by rw [List.append_nil]; rfl⟩

/-- A name that needed a number is worth a warning. -/
theorem allocateName_warns (naming : NamingConfig) (scope : NameScope) (raw location : String) :
    ∀ f ∈ (allocateName naming scope raw location).2.2, f.IsRemark := by
  intro f hf
  simp only [allocateName] at hf
  split at hf
  · rw [List.mem_singleton.1 hf]
    exact Diagnostic.isRemark_warning (by decide)
  · simp at hf

theorem warns_allocate (naming : NamingConfig) (scope : NameScope) (raw location : String) :
    Warns (allocate naming scope raw location) := fun r =>
  ⟨_, r, _, allocateName_warns naming scope raw location, fun _ => rfl⟩

theorem warns_reserveInline (naming : NamingConfig) (serial : Nat) (hint location : String) :
    Warns (reserveInline naming serial hint location) := by
  intro r
  refine ⟨(r.reserveInline naming serial hint location).1,
    (r.reserveInline naming serial hint location).2.1,
    (r.reserveInline naming serial hint location).2.2, ?_, fun _ => rfl⟩
  unfold Registry.reserveInline
  split
  · simp
  · exact allocateName_warns _ _ _ _

theorem warns_reserveComponent (naming : NamingConfig) (component : String) :
    Warns (reserveComponent naming component) := by
  intro r
  refine ⟨(r.reserveComponent naming component).1, (r.reserveComponent naming component).2.1,
    (r.reserveComponent naming component).2.2, ?_, fun _ => rfl⟩
  unfold Registry.reserveComponent
  split
  · simp
  · exact allocateName_warns _ _ _ _

theorem warns_inlineModel (naming : NamingConfig) (serial : Nat) (description : Option String)
    (hint location : String) {body : String → Typing ModelBody} (h : ∀ name, Warns (body name)) :
    Warns (inlineModel naming serial description hint location body) := by
  refine (warns_reserveInline naming serial hint location).bind fun reservation => ?_
  split
  · exact (h _).bind fun _ => (warns_modifyRegistry _).bind fun _ => warns_pure _
  · exact warns_pure _

theorem warns_enumMembers (naming : NamingConfig) (location : String) :
    ∀ (values : List Json) (index : Nat) (scope : NameScope),
      Warns (enumMembers naming location index scope values)
  | [], _, _ => warns_pure _
  | _ :: rest, _, _ =>
    (warns_allocate _ _ _ _).bind fun _ =>
      (warns_enumMembers naming location rest _ _).bind fun _ => warns_pure _

theorem warns_enumBody (naming : NamingConfig) (values : List Json) (location : String) :
    Warns (enumBody naming values location) :=
  (warns_enumMembers naming location values _ _).bind fun _ => warns_pure _

mutual

theorem nodeType_warns (naming : NamingConfig) :
    ∀ (n : Node) (hint location : String), Warns (nodeType naming n hint location)
  | ⟨serial, shape, nullable, name, description, default⟩, hint, location => by
    have hshape := shapeType_warns naming serial description shape hint location
    have htype : Warns (shapeType naming serial description shape hint location >>= fun t =>
        pure (if nullable then t.optionalOf else t)) := hshape.bind fun _ => warns_pure _
    unfold nodeType
    cases name with
    | none => exact htype
    | some component =>
      refine (warns_componentModel? component).bind fun model => ?_
      cases model with
      | none => exact htype
      | some model => exact warns_pure (if nullable then (TypeRef.reference model).optionalOf
          else .reference model)

theorem shapeType_warns (naming : NamingConfig) (serial : Nat) (description : Option String) :
    ∀ (shape : Shape Node) (hint location : String),
      Warns (shapeType naming serial description shape hint location)
  | .any, _, _ => warns_pure _
  | .null, _, _ => warns_pure _
  | .scalar _ _, _, _ => warns_pure _
  | .array items, _, _ => (nodeType_warns naming items _ _).bind fun _ => warns_pure _
  | .object properties required additional, hint, location => by
    have hadditional := additionalType_warns naming additional
    unfold shapeType
    split
    · exact (hadditional _ _).bind fun _ => warns_pure _
    · exact warns_inlineModel _ _ _ _ _ fun name =>
        (fields_warns naming properties required _ name location).bind fun _ =>
          (hadditional name location).bind fun _ => warns_pure _
  | .enumeration values, _, location =>
    warns_inlineModel _ _ _ _ _ fun _ => warns_enumBody naming values location
  | .union variants (.tagged _ _), _, location => by
    unfold shapeType
    exact warns_inlineModel _ _ _ _ _ fun name =>
      (memberTypes_warns naming variants 0 name location).bind fun _ => warns_pure _
  | .union variants .untagged, hint, location =>
    (memberTypes_warns naming variants 0 hint location).bind fun _ => warns_pure _
  | .backRef component, _, _ => (warns_componentModel? component).bind fun _ => warns_pure _

theorem additionalType_warns (naming : NamingConfig) :
    ∀ (additional : Option Node) (hint location : String),
      Warns (additionalType naming additional hint location)
  | none, _, _ => warns_pure _
  | some n, _, _ => (nodeType_warns naming n _ _).bind fun _ => warns_pure _

theorem fields_warns (naming : NamingConfig) :
    ∀ (properties : List (String × Node)) (required : List String) (scope : NameScope)
      (modelName location : String),
      Warns (fields naming properties required scope modelName location)
  | [], _, _, _, _ => warns_pure _
  | (_, n) :: rest, required, _, modelName, location => by
    unfold fields
    exact (warns_allocate _ _ _ _).bind fun _ => (nodeType_warns naming n _ _).bind fun _ =>
      (fields_warns naming rest required _ modelName location).bind fun _ => warns_pure _

theorem memberTypes_warns (naming : NamingConfig) :
    ∀ (nodes : List Node) (index : Nat) (hint location : String),
      Warns (memberTypes naming index nodes hint location)
  | [], _, _, _ => warns_pure _
  | n :: rest, _, hint, location => by
    unfold memberTypes
    exact (nodeType_warns naming n _ _).bind fun _ =>
      (memberTypes_warns naming rest _ hint location).bind fun _ => warns_pure _

end

theorem modelBody_warns (naming : NamingConfig) (n : Node) (modelName location : String) :
    Warns (modelBody naming n modelName location) := by
  have halias : Warns (aliasBody naming n modelName location) :=
    (shapeType_warns naming _ _ _ _ _).bind fun _ => warns_pure _
  unfold modelBody
  split
  · split
    · exact halias
    · exact (fields_warns naming _ _ _ _ _).bind fun _ =>
        (additionalType_warns naming _ _ _).bind fun _ => warns_pure _
  · exact warns_enumBody naming _ _
  · split
    · exact halias
    · exact (memberTypes_warns naming _ _ _ _).bind fun _ => warns_pure _
  · exact halias

theorem fillComponent_warns (naming : NamingConfig) (component : String) (n : Node)
    (location : String) : Warns (fillComponent naming component n location) := by
  refine (warns_componentModel? component).bind fun model => ?_
  cases model with
  | none => exact warns_pure _
  | some modelName =>
    exact (modelBody_warns naming n modelName location).bind fun _ => warns_modifyRegistry _

end Typing

/-! ### Parts of a compilation -/

instance : Noting Workspace where
  findings w := w.session.diagnostics
  noting ds w := { w with session := { w.session with diagnostics := ds } }
  findings_noting _ _ := rfl
  noting_findings _ := rfl
  noting_noting _ _ _ := rfl

namespace Build

variable {α : Type} {P : Diagnostic → Prop}

theorem reports_resolving {work : Resolution α} (h : Reports P work) :
    Reports P (resolving work) := by
  intro w
  obtain ⟨more, hmore, hwork⟩ := h w.session
  refine ⟨more, hmore, fun ds => ?_⟩
  have hnoting : (noting ds w).session = noting ds w.session := rfl
  simp only [resolving, hnoting, hwork]
  cases work w.session <;> rfl

theorem reports_typing {work : Typing α} (h : Typing.Warns work) :
    Reports Diagnostic.IsRemark (typing work) := by
  intro w
  obtain ⟨a, r', more, hmore, hwork⟩ := h w.registry
  refine ⟨more, hmore, fun ds => ?_⟩
  have hrun : ∀ ds, typing work (noting ds w) =
      .ok a { session := { w.session with diagnostics := ds ++ more }, registry := r' } := by
    intro ds
    have htyping : typing work (noting ds w) = .ok (work ⟨w.registry, ds⟩).1
        { session := { w.session with diagnostics := (work ⟨w.registry, ds⟩).2.diagnostics }
          registry := (work ⟨w.registry, ds⟩).2.registry } := rfl
    rw [htyping, hwork]
  have hself := hrun (findings w)
  rw [Noting.noting_findings] at hself
  rw [hrun, hself]
  rfl

theorem reports_report {fs : List Diagnostic} (h : ∀ f ∈ fs, P f) : Reports P (Build.report fs) :=
  reports_resolving (Resolution.reports_report h)

end Build

open Build

section Endpoints

variable (d : Document) (config : Config)

/-- Types that are made of schemas give rise to warnings only. -/
theorem schemaType_reports (naming : NamingConfig) (s : Schema) (hint location : String) :
    Reports Diagnostic.IsRemark (schemaType d naming s hint location) :=
  (reports_resolving (d.follow_reports _ _)).bind fun _ =>
    reports_typing (Typing.nodeType_warns naming _ _ _)

theorem buildModels_reports (naming : NamingConfig) :
    Reports Diagnostic.IsRemark (buildModels d naming) := by
  have hreserve : ∀ cs : List String, Reports Diagnostic.IsRemark (reserveNames naming cs) := by
    intro cs
    induction cs with
    | nil => exact reports_pure _
    | cons c rest ih =>
      exact (reports_typing (Typing.warns_reserveComponent naming c)).bind fun _ => ih
  have hbodies : ∀ cs : List String, Reports Diagnostic.IsRemark (buildBodies d naming cs) := by
    intro cs
    induction cs with
    | nil => exact reports_pure _
    | cons c rest ih =>
      exact (reports_resolving (d.follow_reports _ _)).bind fun n =>
        (reports_typing (Typing.fillComponent_warns naming c n _)).bind fun _ => ih
  exact (hreserve _).bind fun _ => hbodies _

namespace EndpointContext

variable (ctx : EndpointContext)

theorem parameters_reports :
    ∀ (ps : List Parameter) (scope : NameScope),
      Reports Diagnostic.IsRemark (ctx.parameters scope ps)
  | [], _ => reports_pure _
  | p :: rest, scope => by
    have htype : ∀ place, Reports Diagnostic.IsRemark (ctx.parameterType p place) := by
      intro place
      unfold parameterType
      split
      · exact schemaType_reports _ _ _ _ _
      · exact reports_pure _
    exact (htype _).bind fun _ =>
      (reports_typing (Typing.warns_allocate _ scope p.name _)).bind fun _ =>
        (parameters_reports rest _).bind fun _ => reports_pure _

theorem bodyType_reports (content : Table String MediaType) (hint location : String) :
    Reports Diagnostic.IsRemark (ctx.bodyType content hint location) := by
  unfold bodyType
  split
  · exact reports_pure _
  · exact (schemaType_reports _ _ _ _ _).bind fun _ => reports_pure _

theorem requestBody_reports (op : Operation) :
    Reports Diagnostic.IsRemark (ctx.requestBody op) := by
  unfold requestBody
  split
  · exact reports_pure _
  · exact (bodyType_reports ctx _ _ _).bind fun _ => reports_pure _

theorem responses_reports :
    ∀ (rs : List (String × Response)) (found : Table StatusKey (Option TypeRef)),
      Reports Diagnostic.IsWarning (ctx.responses found rs)
  | [], _ => reports_pure _
  | (key, response) :: rest, found => by
    unfold responses
    split
    · refine (reports_report fun f hf => ?_).bind fun _ => responses_reports rest found
      rw [List.mem_singleton.1 hf]
      rfl
    · exact (bodyType_reports ctx _ _ _).warns.bind fun _ => responses_reports rest _

end EndpointContext

/-- **A valid operation gives rise to warnings only.** -/
theorem buildEndpoint_reports (callables : NameScope) (path : String) (method : HttpMethod)
    (op : Operation) (signature : Signature) (location : String) :
    Reports Diagnostic.IsWarning
      (buildEndpoint d config callables path method op signature location) := by
  refine (reports_report fun f hf => ?_).bind fun _ =>
    (reports_typing (Typing.warns_allocate _ _ _ _)).warns.bind fun _ =>
      (EndpointContext.parameters_reports _ _ _).warns.bind fun _ =>
        (EndpointContext.requestBody_reports _ _).warns.bind fun _ =>
          (EndpointContext.responses_reports _ _ _).bind fun _ => reports_pure _
  obtain ⟨p, -, rfl⟩ := List.mem_map.1 hf
  rfl

/-- A path is walked alike from any findings. -/
theorem pathEndpoints_reports (path : String) (item : PathItem) (template : PathTemplate) :
    ∀ (operations : List (HttpMethod × Operation)) (callables : NameScope),
      Reports (fun _ => True) (pathEndpoints d config path item template callables operations)
  | [], _ => reports_pure _
  | (method, op) :: rest, callables => by
    unfold pathEndpoints
    cases signatureOf template item op with
    | error fault =>
      exact (reports_report fun _ _ => trivial).bind fun _ =>
        pathEndpoints_reports path item template rest callables
    | ok signature =>
      exact ((buildEndpoint_reports d config _ _ _ _ _ _).mono fun _ _ => trivial).bind fun _ =>
        (pathEndpoints_reports path item template rest _).bind fun _ => reports_pure _

theorem ofPath_reports {P : Diagnostic → Prop} (path : String) :
    Reports P (Build.ofExcept (PathTemplate.ofPath path)) :=
  reports_resolving (Resolution.reports_ofExcept _)

/-- **A path table is walked alike from any findings.** -/
theorem tableEndpoints_reports :
    ∀ (paths : List (String × PathItem)) (callables : NameScope),
      Reports (fun _ => True) (tableEndpoints d config callables paths)
  | [], _ => reports_pure _
  | (path, item) :: rest, _ =>
    (ofPath_reports path).bind fun template =>
      (pathEndpoints_reports d config path item template _ _).bind fun _ =>
        (tableEndpoints_reports rest _).bind fun _ => reports_pure _

end Endpoints

end ApiBinding
