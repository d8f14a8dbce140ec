import ApiBinding.Proofs.Compilation.Operations
import ApiBinding.Proofs.Resolver.Spelling

/-!
# Clients and the spelling of nullability

The flag and the type list are two spellings of one thing.  A description that is respelled, in
whichever of its schemas, has the client of the description, with the same names and findings, or
it is rejected for the same cause.

Two compilations are followed side by side.  Which parameters apply to an operation, in which order
they stand, and which media type is picked does not depend on schemas; and whenever a schema is
resolved, the other compilation resolves its respelling, from the same session.

## Main definitions

* `SameEnd` — the same error, or related values.
* `Signature.Respells` — the same signature, with its schemas respelled.

## Main results

* `Document.Respells.buildEndpoint_eq` — one endpoint is built alike.
* `compile_respelled` — **a description and its respelling have the same client.**
-/

namespace ApiBinding

/-! ### Signatures -/

/-- The same error, or related values. -/
inductive SameEnd {ε α β : Type} (R : α → β → Prop) : Except ε α → Except ε β → Prop
  | error (e : ε) : SameEnd R (.error e) (.error e)
  | ok {a : α} {b : β} (h : R a b) : SameEnd R (.ok a) (.ok b)

theorem SameEnd.map {ε α β γ δ : Type} {R : α → β → Prop} {S : γ → δ → Prop} {x : Except ε α}
    {y : Except ε β} (h : SameEnd R x y) {f : α → γ} {g : β → δ}
    (hfg : ∀ a b, R a b → S (f a) (g b)) : SameEnd S (x.map f) (y.map g) := by
  cases h with
  | error e => exact .error e
  | ok hab => exact .ok (hfg _ _ hab)

/-- The same signature, with its schemas respelled. -/
structure Signature.Respells (signature' signature : Signature) : Prop where
  ordered : List.Forall₂ Parameter.Respells signature'.ordered signature.ordered
  reclassified : List.Forall₂ Parameter.Respells signature'.reclassified signature.reclassified

section Parameters

variable {ps qs : List Parameter} (h : List.Forall₂ Parameter.Respells ps qs)

theorem Parameter.Respells.key_eq {p q : Parameter} (h : p.Respells q) : p.key = q.key := by
  rw [h.kept]
  rfl

theorem Parameter.Respells.declaredPlace?_eq {p q : Parameter} (h : p.Respells q) :
    p.declaredPlace? = q.declaredPlace? := by
  rw [h.kept]
  rfl

theorem Parameter.Respells.inPath_eq {p q : Parameter} (h : p.Respells q) :
    p.inPath = q.inPath := by
  rw [h.kept]
  rfl

theorem Parameter.Respells.pathFault?_eq {p q : Parameter} (h : p.Respells q)
    (template : PathTemplate) : pathFault? template p = pathFault? template q := by
  rw [h.kept]
  rfl

include h

theorem firstRepeated_rel (seen : List (String × String)) :
    Option.Rel Parameter.Respells (firstRepeated seen ps) (firstRepeated seen qs) := by
  induction h generalizing seen with
  | nil => exact .none
  | cons head _ ih =>
    rw [firstRepeated, firstRepeated, head.key_eq]
    split
    · exact .some head
    · exact ih _

theorem repetitionFault?_eq (scope : String) :
    repetitionFault? scope ps = repetitionFault? scope qs := by
  have hrel := firstRepeated_rel h []
  unfold repetitionFault?
  generalize firstRepeated [] ps = o, firstRepeated [] qs = u at hrel
  cases hrel with
  | none => rfl
  | @some p q hpq =>
    have hname : p.name = q.name := by rw [hpq.kept]
    simp only [Option.map_some, hname]

theorem filter_rel {keep : Parameter → Bool} (hkeep : ∀ p q, p.Respells q → keep p = keep q) :
    List.Forall₂ Parameter.Respells (ps.filter keep) (qs.filter keep) :=
  List.rel_filter (fun p q hpq => by simp only [hkeep p q hpq]) h

theorem find?_rel {keep : Parameter → Bool} (hkeep : ∀ p q, p.Respells q → keep p = keep q) :
    Option.Rel Parameter.Respells (ps.find? keep) (qs.find? keep) := by
  rw [← List.head?_filter, ← List.head?_filter]
  have hkept := filter_rel h hkeep
  generalize ps.filter keep = kept', qs.filter keep = kept at hkept
  cases hkept with
  | nil => exact .none
  | cons head _ => exact .some head

theorem findSome?_pathFault (template : PathTemplate) :
    ps.findSome? (pathFault? template) = qs.findSome? (pathFault? template) := by
  induction h with
  | nil => rfl
  | cons head _ ih => rw [List.findSome?_cons, List.findSome?_cons, head.pathFault?_eq, ih]

/-- The same parameters are bound to placeholders. -/
theorem bindPlaceholders_rel (names : List String) :
    SameEnd (List.Forall₂ Parameter.Respells) (bindPlaceholders ps names)
      (bindPlaceholders qs names) := by
  induction names with
  | nil => exact .ok .nil
  | cons name rest ih =>
    have hfound : Option.Rel Parameter.Respells (ps.find? fun p => p.inPath && p.name == name)
        (qs.find? fun p => p.inPath && p.name == name) := by
      refine find?_rel h fun p q hpq => ?_
      have hname : p.name = q.name := by rw [hpq.kept]
      rw [hpq.inPath_eq, hname]
    rw [bindPlaceholders, bindPlaceholders]
    generalize (ps.find? fun p => p.inPath && p.name == name) = o,
      (qs.find? fun p => p.inPath && p.name == name) = u at hfound
    cases hfound with
    | none => exact .error _
    | some hpq => exact ih.map fun _ _ hrest => .cons hpq hrest

theorem orderParameters_rel (template : PathTemplate) :
    SameEnd Signature.Respells (orderParameters template ps) (orderParameters template qs) := by
  have hothers : List.Forall₂ Parameter.Respells (ps.filter fun p => !p.inPath)
      (qs.filter fun p => !p.inPath) :=
    filter_rel h fun p q hpq => by rw [hpq.inPath_eq]
  have hrequired : ∀ p q : Parameter, p.Respells q → p.required = q.required :=
    fun p q hpq => by rw [hpq.kept]
  unfold orderParameters
  rw [findSome?_pathFault h]
  split
  · exact .error _
  · refine (bindPlaceholders_rel h template.placeholders).map fun bound' bound hbound => ?_
    constructor
    · refine List.rel_append (List.rel_append hbound (filter_rel hothers hrequired)) ?_
      exact filter_rel hothers fun p q hpq => by rw [hrequired p q hpq]
    · exact filter_rel h fun p q hpq => by rw [hpq.declaredPlace?_eq]

end Parameters

/-- The parameters that apply are respelled. -/
theorem mergeParameters_rel {shared' shared own' own : List Parameter}
    (hshared : List.Forall₂ Parameter.Respells shared' shared)
    (hown : List.Forall₂ Parameter.Respells own' own) :
    List.Forall₂ Parameter.Respells (mergeParameters shared' own')
      (mergeParameters shared own) := by
  have hentries : ∀ {ps qs : List Parameter}, List.Forall₂ Parameter.Respells ps qs →
      Table.Rel Parameter.Respells (ps.map fun p => (p.key, p)) (qs.map fun p => (p.key, p)) := by
    intro ps qs h
    induction h with
    | nil => exact .nil
    | cons head _ ih =>
      rw [List.map_cons, List.map_cons, head.key_eq]
      exact .cons head ih
  exact (hentries (List.rel_append hshared hown)).ofEntries.values

/-- **A respelled operation has a respelled signature**, or it is invalid for the same reason. -/
theorem signatureOf_rel (template : PathTemplate) {item' item : PathItem} {op' op : Operation}
    (hitem : item'.Respells item) (hop : op'.Respells op) :
    SameEnd Signature.Respells (signatureOf template item' op') (signatureOf template item op) := by
  unfold signatureOf
  rw [repetitionFault?_eq hitem.parameters, repetitionFault?_eq hop.parameters]
  split
  · exact .error _
  · split
    · exact .error _
    · exact orderParameters_rel (mergeParameters_rel hitem.parameters hop.parameters) template

/-- The same operations are declared. -/
theorem PathItem.Respells.operations_rel {item' item : PathItem} (h : item'.Respells item) :
    List.Forall₂ (fun e f => e.1 = f.1 ∧ e.2.Respells f.2) item'.operations item.operations := by
  have hsame : List.Forall₂ Eq HttpMethod.all HttpMethod.all := List.forall₂_refl _
  refine List.rel_filterMap ?_ hsame
  rintro method _ rfl
  have hoperation := h.operations method
  dsimp only
  generalize item'.operation? method = o, item.operation? method = u at hoperation
  cases hoperation with
  | none => exact .none
  | some hop => exact .some ⟨rfl, hop⟩

/-! ### Bodies -/

/-- The same media type with its schema respelled. -/
def MediaRel (e f : String × Schema) : Prop := e.1 = f.1 ∧ e.2.Respells f.2

/-- The same media type is picked. -/
theorem selectMedia_rel {content' content : Table String MediaType} (preferred : List String)
    (h : Table.Rel MediaType.Respells content' content) :
    Option.Rel MediaRel (selectMedia preferred content') (selectMedia preferred content) := by
  have hschema : ∀ {m' m : MediaType} (media : String), m'.Respells m →
      Option.Rel MediaRel (m'.schema.map fun s => (media, s))
        (m.schema.map fun s => (media, s)) := by
    intro m' m media hm
    unfold MediaType.Respells at hm
    generalize m'.schema = o, m.schema = u at hm
    cases hm with
    | none => exact .none
    | some hs => exact .some ⟨rfl, hs⟩
  have hsame : List.Forall₂ Eq preferred preferred := List.forall₂_refl _
  unfold selectMedia
  refine rel_or (rel_findSome? hsame ?_) (rel_findSome? h.forall₂ ?_)
  · rintro media _ rfl
    have hmedia := h.get? media
    generalize Table.get? content' media = o, Table.get? content media = u at hmedia
    cases hmedia with
    | none => exact .none
    | @some m' m hm =>
      have hentry := hschema media hm
      rw [Option.map_eq_bind, Option.map_eq_bind] at hentry
      exact hentry
  · rintro ⟨media, m'⟩ ⟨_, m⟩ ⟨rfl, hm⟩
    exact hschema media hm

section Context

variable {d' d : Document} (hd : d'.Respells d) (config : Config) (location hint : String)

namespace EndpointContext

include hd

theorem type_eq {s t : Schema} (h : s.Respells t) (name place : String) :
    type ⟨d', config, location, hint⟩ s name place =
      type ⟨d, config, location, hint⟩ t name place := by
  unfold type schemaType
  simp only [hd.resolveSchema_eq h]

theorem parameterType_rel {p q : Parameter} (h : p.Respells q) (place : String) :
    parameterType ⟨d', config, location, hint⟩ p place =
      parameterType ⟨d, config, location, hint⟩ q place := by
  have hname : p.name = q.name := by rw [h.kept]
  have hschema := h.schema
  unfold parameterType
  rw [hname]
  generalize p.schema = o, q.schema = u at hschema
  cases hschema with
  | none => rfl
  | some hs => exact type_eq hd config location hint hs _ place

theorem parameters_rel {ps qs : List Parameter} (h : List.Forall₂ Parameter.Respells ps qs) :
    ∀ scope : NameScope, parameters ⟨d', config, location, hint⟩ scope ps =
      parameters ⟨d, config, location, hint⟩ scope qs := by
  induction h with
  | nil => exact fun _ => rfl
  | @cons p q _ _ hpq _ ih =>
    intro scope
    have htype := parameterType_rel hd config location hint hpq
    obtain ⟨kept, hschema⟩ := hpq
    generalize p.schema = schema at kept hschema
    subst kept
    have hdefault : schema.bind Schema.default = q.schema.bind Schema.default := by
      generalize q.schema = u at hschema
      cases hschema with
      | none => rfl
      | some hs => rw [Option.bind_some, Option.bind_some, hs.kept]
    unfold parameters
    simp only [htype, hdefault, ih]
    rfl

theorem bodyType_rel {content' content : Table String MediaType}
    (h : Table.Rel MediaType.Respells content' content) (name place : String) :
    bodyType ⟨d', config, location, hint⟩ content' name place =
      bodyType ⟨d, config, location, hint⟩ content name place := by
  have hmedia := selectMedia_rel config.media.preferred h
  unfold bodyType
  dsimp only
  generalize selectMedia config.media.preferred content' = o,
    selectMedia config.media.preferred content = u at hmedia
  cases hmedia with
  | none => rfl
  | @some e f hs =>
    obtain ⟨media, s⟩ := e
    obtain ⟨_, t⟩ := f
    obtain ⟨rfl, hs⟩ := hs
    simp only [type_eq hd config location hint hs]

theorem requestBody_rel {op' op : Operation} (h : op'.Respells op) :
    requestBody ⟨d', config, location, hint⟩ op' = requestBody ⟨d, config, location, hint⟩ op := by
  have hbody := h.requestBody
  unfold requestBody
  generalize op'.requestBody = o, op.requestBody = u at hbody
  cases hbody with
  | none => rfl
  | @some body' body hb =>
    have hrequired : body'.required = body.required := by rw [hb.kept]
    simp only [bodyType_rel hd config location hint hb.content, hrequired]

theorem responses_rel {rs' rs : Table String Response} (h : Table.Rel Response.Respells rs' rs) :
    ∀ found : Table StatusKey (Option TypeRef),
      responses ⟨d', config, location, hint⟩ found rs' =
        responses ⟨d, config, location, hint⟩ found rs := by
  induction h with
  | nil => exact fun _ => rfl
  | cons head _ ih =>
    intro found
    unfold responses
    simp only [bodyType_rel hd config location hint head.content, ih]

end EndpointContext

end Context

/-! ### Clients -/

namespace Document.Respells

variable {d' d : Document} (h : d'.Respells d) (config : Config)

include h

/-- **The endpoint of a respelled operation** is built alike. -/
theorem buildEndpoint_eq {op' op : Operation} (hop : op'.Respells op)
    {signature' signature : Signature} (hsignature : signature'.Respells signature)
    (callables : NameScope) (path : String) (method : HttpMethod) (location : String) :
    buildEndpoint d' config callables path method op' signature' location =
      buildEndpoint d config callables path method op signature location := by
  have hreclassified : signature'.reclassified.map (unsupportedLocation location) =
      signature.reclassified.map (unsupportedLocation location) := by
    refine map_eq_of_forall₂ hsignature.reclassified fun p q hpq => ?_
    rw [hpq.kept]
    rfl
  have hid : op'.operationId = op.operationId := by rw [hop.kept]
  have hdeprecated : op'.deprecated = op.deprecated := by rw [hop.kept]
  have hsummary : op'.summary = op.summary := by rw [hop.kept]
  have hdescription : op'.description = op.description := by rw [hop.kept]
  unfold buildEndpoint
  simp only [hreclassified, hid, hdeprecated, hsummary, hdescription,
    EndpointContext.parameters_rel h _ _ _ hsignature.ordered,
    EndpointContext.requestBody_rel h _ _ _ hop,
    EndpointContext.responses_rel h _ _ _ hop.responses]

theorem pathEndpoints_rel (path : String) {item' item : PathItem} (hitem : item'.Respells item)
    (template : PathTemplate) {operations' operations : List (HttpMethod × Operation)}
    (hoperations : List.Forall₂ (fun e f => e.1 = f.1 ∧ e.2.Respells f.2) operations' operations) :
    ∀ callables : NameScope,
      pathEndpoints d' config path item' template callables operations' =
        pathEndpoints d config path item template callables operations := by
  induction hoperations with
  | nil => exact fun _ => rfl
  | @cons e f _ _ head _ ih =>
    intro callables
    obtain ⟨method, op'⟩ := e
    obtain ⟨_, op⟩ := f
    obtain ⟨rfl, hop⟩ := head
    have hsignature := signatureOf_rel template hitem hop
    unfold pathEndpoints
    dsimp only
    generalize signatureOf template item' op' = x, signatureOf template item op = y at hsignature
    cases hsignature with
    | error fault => simp only [ih]
    | ok hsignature => simp only [h.buildEndpoint_eq config hop hsignature, ih]

theorem tableEndpoints_rel {paths' paths : Table String PathItem}
    (hpaths : Table.Rel PathItem.Respells paths' paths) :
    ∀ callables : NameScope,
      tableEndpoints d' config callables paths' = tableEndpoints d config callables paths := by
  induction hpaths with
  | nil => exact fun _ => rfl
  | cons head _ ih =>
    intro callables
    unfold tableEndpoints
    simp only [h.pathEndpoints_rel config _ head _ head.operations_rel, ih]

theorem buildModels_eq (naming : NamingConfig) : buildModels d' naming = buildModels d naming := by
  have hbodies : ∀ cs : List String, buildBodies d' naming cs = buildBodies d naming cs := by
    intro cs
    induction cs with
    | nil => rfl
    | cons c rest ih =>
      unfold buildBodies
      simp only [h.resolveComponent_eq, ih]
  unfold buildModels
  rw [h.componentNames_eq, hbodies]

end Document.Respells

/-- **A description and its respelling have the same client**: the same models, endpoints, names
and findings, or neither has one, for the same cause.

The respelling may concern any of the schemas of the description, in components and parameters, in
bodies and responses, and at any depth: properties, items, fragments, members of unions and schemas
of other keys, in cycles and beside references. -/
theorem compile_respelled {d' d : Document} (h : d'.Respells d) (config : Config) :
    compile config d' = compile config d := by
  have hall : compileAll config d' = compileAll config d := by
    unfold compileAll extractEndpoints
    rw [h.buildModels_eq]
    simp only [h.tableEndpoints_rel config h.paths]
  unfold compile
  rw [hall]

/-! ### A guest book -/

/-- The description of a guest book, in which the schemas of one type that admit `null` are spelled
one way or the other: a component and a property of it, what stands in a list, a member of a union,
a fragment beside a reference, a parameter and a response. -/
def guestBook (spell other : String → Schema → Schema) : Document where
  components.schemas :=
    [("Visit", spell "object"
        { properties := [("note", other "string" {}),
            ("tags", { declaredType := some (.single "array"), items := some (spell "string" {}) }),
            ("guest", { reference := some "#/components/schemas/Guest" })] }),
      ("Guest",
        { oneOf := [other "integer" {}, { reference := some "#/components/schemas/Host" }] }),
      ("Host",
        { allOf := [{ reference := some "#/components/schemas/Visit" },
            spell "object" { properties := [("since", spell "string" {})] }] })]
  paths :=
    [("/visits",
      { get := some
          { parameters := [{ name := "limit", location := "query",
                             schema := some (spell "integer" {}) }]
            responses := [("200", { content := [("application/json",
              { schema := some (other "object"
                  { reference := some "#/components/schemas/Visit" }) })] })] } })]

/-- A schema with other keywords `type` and `nullable`. -/
def Schema.spelled (type : TypeNames) (nullable : Option Bool) (s : Schema) : Schema :=
  { s with declaredType := some type, nullable := nullable }

/-- One type and `null`, by the flag. -/
def flagged (type : String) : Schema → Schema := Schema.spelled (.single type) (some true)

/-- One type and `null`, in a list that ends with `null`. -/
def nullLast (type : String) : Schema → Schema := Schema.spelled (.multiple [type, "null"]) none

/-- One type and `null`, in a list that begins with `null`. -/
def nullFirst (type : String) : Schema → Schema := Schema.spelled (.multiple ["null", type]) none

theorem Schema.Respells.spelled {s t : Schema} (h : s.Respells t) {type type' : TypeNames}
    {nullable nullable' : Option Bool}
    (hspelling : NullSpelling (some type) nullable (some type') nullable') :
    (s.spelled type' nullable').Respells (t.spelled type nullable) := by
  cases h with
  | mk _ properties items allOf oneOf anyOf additional =>
    exact .mk (t := t.spelled type nullable) hspelling properties items allOf oneOf anyOf additional

theorem guestBook_respells :
    (guestBook nullLast nullFirst).Respells (guestBook flagged flagged) := by
  have hlast : ∀ {type : String} {s t : Schema}, s.Respells t →
      (nullLast type s).Respells (flagged type t) := fun h => h.spelled (.nullLast rfl)
  have hfirst : ∀ {type : String} {s t : Schema}, s.Respells t →
      (nullFirst type s).Respells (flagged type t) := fun h => h.spelled (.nullFirst rfl)
  constructor
  · refine .cons (hlast (.of_parts rfl ?_ .none .nil .nil .nil .none)) (.cons ?_ (.cons ?_ .nil))
    · exact .cons (hfirst (.refl _)) (.cons
        (.of_parts rfl .nil (.some (hlast (.refl _))) .nil .nil .nil .none) (.cons (.refl _) .nil))
    · exact .of_parts rfl .nil .none .nil (.cons (hfirst (.refl _)) (.cons (.refl _) .nil)) .nil
        .none
    · refine .of_parts rfl .nil .none (.cons (.refl _) (.cons (hlast ?_) .nil)) .nil .nil .none
      exact .of_parts rfl (.cons (hlast (.refl _)) .nil) .none .nil .nil .nil .none
  · refine .cons ⟨fun method => ?_, .nil⟩ .nil
    cases method with
    | get =>
      have hmedia : MediaType.Respells
          { schema := some (nullFirst "object"
            { reference := some "#/components/schemas/Visit" }) }
          { schema := some (flagged "object"
            { reference := some "#/components/schemas/Visit" }) } :=
        .some (hfirst (.refl _))
      exact .some ⟨rfl, .cons ⟨rfl, .some (hlast (.refl _))⟩ .nil, .none,
        .cons ⟨rfl, .cons hmedia .nil⟩ .nil⟩
    | _ => exact .none

theorem compile_respelled_guestBook :
    (guestBook nullLast nullFirst).Respells (guestBook flagged flagged) ∧
      compile {} (guestBook nullLast nullFirst) = compile {} (guestBook flagged flagged) ∧
      (compile {} (guestBook flagged flagged)).isOk :=
  ⟨guestBook_respells, compile_respelled guestBook_respells {}, by decide +kernel⟩

end ApiBinding
