import ApiBinding.Proofs.Client.RoundTrip
import ApiBinding.Proofs.Document.Schemas

/-!
# Descriptions that are written and read back

A description is read back as it was if its written form tells all that it says: the keys of its
tables are distinct, and no default and no constant is `null`.  Whatever a description is read from,
it is regular in this way, be a part of it written as an object or as an array, with a `null` for a
missing field, or with fields that nobody declared.  So a description that was read and written once
is read and written again as it is, with all its keys in the same order.

## Main definitions

* `Parameter.Regular`, `Operation.Regular`, `Document.Regular` — the written form tells all that is
  said.
* `Document.rewrite?` — a value that is read as a description and written again.

## Main results

* `Document.ofTree?_toJson` — **a regular description is read back as it was.**
* `Document.regular_of_ofTree?` — **a description that was read is regular.**
* `description_reads_back` — **a description that was read is read back from what is written.**
-/

namespace ApiBinding

/-! ### Regular descriptions -/

/-- The written form tells all that the media type says. -/
def MediaType.Regular (m : MediaType) : Prop := ∀ s, m.schema = some s → s.Regular

/-- The written form tells all that the contents of a body say. -/
structure RegularContent (content : Table String MediaType) : Prop where
  keys : (Table.keys content).Nodup
  media : ∀ e ∈ content, e.2.Regular

/-- The written form tells all that the parameter says. -/
structure Parameter.Regular (p : Parameter) : Prop where
  default : Json.Definite p.default
  schema : ∀ s, p.schema = some s → s.Regular

/-- The written form tells all that the operation says. -/
structure Operation.Regular (op : Operation) : Prop where
  parameters : ∀ p ∈ op.parameters, p.Regular
  request : ∀ body, op.requestBody = some body → RegularContent body.content
  keys : (Table.keys op.responses).Nodup
  responses : ∀ r ∈ op.responses, RegularContent r.2.content

/-- The written form tells all that the operations of a path say. -/
structure PathItem.Regular (item : PathItem) : Prop where
  parameters : ∀ p ∈ item.parameters, p.Regular
  operations : ∀ method op, item.operation? method = some op → op.Regular

/-- The written form tells all that the description says. -/
structure Document.Regular (d : Document) : Prop where
  components : d.componentNames.Nodup
  schemas : ∀ e ∈ d.components.schemas, e.2.Regular
  keys : (Table.keys d.paths).Nodup
  paths : ∀ e ∈ d.paths, e.2.Regular

/-! ### What is read back -/

/-- A part or `null` is read back. -/
theorem Tree.nullable?_getD {α : Type} {write : α → Json} {read : Tree → Option α} {o : Option α}
    (h : ∀ a, o = some a → write a ≠ .null ∧ read (ofJson (write a)) = some a) :
    (ofJson ((o.map write).getD .null)).nullable? read = some o := by
  cases o with
  | none => rfl
  | some a => exact nullable?_ofJson (h a rfl).1 (h a rfl).2

theorem MediaType.ofTree?_toJson {m : MediaType} (h : m.Regular) :
    MediaType.ofTree? (Tree.ofJson m.toJson) = some m := by
  refine Record.read_object rfl (by decide) fun r hr => ?_
  have hschema : r.fieldOr? "schema" none (Tree.nullable? Schema.ofTree?) = some m.schema :=
    hr.fieldOr? rfl (Tree.nullable?_getD fun s hs =>
      ⟨s.toJson_ne_null, Schema.ofTree?_toJson (h s hs)⟩)
  simp [hschema]

/-- Contents are read back. -/
theorem RegularContent.table?_toJson {content : Table String MediaType}
    (h : RegularContent content) :
    (Tree.ofJson (.object (Table.mapValues MediaType.toJson content))).table? MediaType.ofTree? =
      some content :=
  Tree.table?_ofJson h.keys fun e he => MediaType.ofTree?_toJson (h.media e he)

theorem RequestBody.ofTree?_toJson {body : RequestBody} (h : RegularContent body.content) :
    RequestBody.ofTree? (Tree.ofJson body.toJson) = some body := by
  refine Record.read_object rfl (by decide) fun r hr => ?_
  have hrequired : r.fieldOr? "required" false Tree.bool? = some body.required :=
    hr.fieldOr? rfl rfl
  have hdescription : r.fieldOr? "description" none (Tree.nullable? Tree.string?) =
      some body.description := hr.fieldOr? rfl (Tree.nullable?_ofString? _)
  have hcontent : r.fieldOr? "content" [] (Tree.table? MediaType.ofTree?) = some body.content :=
    hr.fieldOr? rfl h.table?_toJson
  simp [hrequired, hdescription, hcontent]

theorem Response.ofTree?_toJson {response : Response} (h : RegularContent response.content) :
    Response.ofTree? (Tree.ofJson response.toJson) = some response := by
  refine Record.read_object rfl (by decide) fun r hr => ?_
  have hdescription : r.fieldOr? "description" none (Tree.nullable? Tree.string?) =
      some response.description := hr.fieldOr? rfl (Tree.nullable?_ofString? _)
  have hcontent : r.fieldOr? "content" [] (Tree.table? MediaType.ofTree?) =
      some response.content := hr.fieldOr? rfl h.table?_toJson
  simp [hdescription, hcontent]

/-- A parameter is read back if it is regular. -/
theorem Parameter.ofTree?_toJson {p : Parameter} (h : p.Regular) :
    Parameter.ofTree? (Tree.ofJson p.toJson) = some p := by
  refine Record.read_record rfl (by decide) fun r hr => ?_
  have hname : r.field? "name" Tree.string? = some p.name := hr.field? rfl rfl
  have hlocation : r.field? "in" Tree.string? = some p.location := hr.field? rfl rfl
  have hrequired : r.fieldOr? "required" false Tree.bool? = some p.required := hr.fieldOr? rfl rfl
  have hschema : r.fieldOr? "schema" none (Tree.nullable? Schema.ofTree?) = some p.schema :=
    hr.optional rfl fun s hs => ⟨s.toJson_ne_null, Schema.ofTree?_toJson (h.schema s hs)⟩
  have hdefault : r.fieldOr? "default" none (Tree.nullable? Tree.toJson?) = some p.default :=
    hr.definite rfl h.default
  have hdescription : r.fieldOr? "description" none (Tree.nullable? Tree.string?) =
      some p.description := hr.optional rfl string_ne_null
  have hdeprecated : r.fieldOr? "deprecated" false Tree.bool? = some p.deprecated :=
    hr.fieldOr? rfl rfl
  simp [hname, hlocation, hrequired, hschema, hdefault, hdescription, hdeprecated]

/-- **An operation is read back** if it is regular. -/
theorem Operation.ofTree?_toJson {op : Operation} (h : op.Regular) :
    Operation.ofTree? (Tree.ofJson op.toJson) = some op := by
  refine Record.read_object rfl (by decide) fun r hr => ?_
  have hid : r.fieldOr? "operationId" none (Tree.nullable? Tree.string?) = some op.operationId :=
    hr.fieldOr? rfl (Tree.nullable?_ofString? _)
  have hsummary : r.fieldOr? "summary" none (Tree.nullable? Tree.string?) = some op.summary :=
    hr.fieldOr? rfl (Tree.nullable?_ofString? _)
  have hdescription : r.fieldOr? "description" none (Tree.nullable? Tree.string?) =
      some op.description := hr.fieldOr? rfl (Tree.nullable?_ofString? _)
  have hdeprecated : r.fieldOr? "deprecated" false Tree.bool? = some op.deprecated :=
    hr.fieldOr? rfl rfl
  have hparameters : r.fieldOr? "parameters" [] (Tree.list? Parameter.ofTree?) =
      some op.parameters :=
    hr.fieldOr? rfl (Tree.list?_ofJson fun p hp => Parameter.ofTree?_toJson (h.parameters p hp))
  have hrequest : r.fieldOr? "requestBody" none (Tree.nullable? RequestBody.ofTree?) =
      some op.requestBody :=
    hr.fieldOr? rfl (Tree.nullable?_getD fun body hbody =>
      ⟨by simp [RequestBody.toJson], RequestBody.ofTree?_toJson (h.request body hbody)⟩)
  have hresponses : r.fieldOr? "responses" [] (Tree.table? Response.ofTree?) = some op.responses :=
    hr.fieldOr? rfl (Tree.table?_ofJson h.keys fun e he =>
      Response.ofTree?_toJson (h.responses e he))
  simp [hid, hsummary, hdescription, hdeprecated, hparameters, hrequest, hresponses]

/-- **The operations of a path are read back** if they are regular. -/
theorem PathItem.ofTree?_toJson {item : PathItem} (h : item.Regular) :
    PathItem.ofTree? (Tree.ofJson item.toJson) = some item := by
  refine Record.read_record rfl (by decide) fun r hr => ?_
  have hoperation : ∀ m : HttpMethod,
      r.fieldOr? m.key none (Tree.nullable? Operation.ofTree?) = some (item.operation? m) := by
    intro m
    refine hr.optional
      (?_ : Table.get? _ m.key = some ((item.operation? m).map Operation.toJson)) fun op hop => ?_
    · cases m <;> rfl
    · exact ⟨by simp [Operation.toJson], Operation.ofTree?_toJson (h.operations m op hop)⟩
  have hparameters : r.fieldOr? "parameters" [] (Tree.list? Parameter.ofTree?) =
      some item.parameters :=
    hr.nonempty rfl fun p hp => Parameter.ofTree?_toJson (h.parameters p hp)
  simp [hoperation, hparameters, PathItem.operation?]

/-- **A regular description is read back as it was.** -/
theorem Document.ofTree?_toJson {d : Document} (h : d.Regular) :
    Document.ofTree? (Tree.ofJson d.toJson) = some d := by
  have hcomponents : Components.ofTree? (Tree.ofJson d.components.toJson) = some d.components := by
    rw [Components.toJson, Schema.tableJson_eq]
    refine Record.read_object rfl (by decide) fun r hr => ?_
    have hschemas : r.fieldOr? "schemas" [] (Tree.table? Schema.ofTree?) =
        some d.components.schemas :=
      hr.fieldOr? rfl (Tree.table?_ofJson h.components fun e he =>
        Schema.ofTree?_toJson (h.schemas e he))
    simp [hschemas]
  refine Record.read_object rfl (by decide) fun r hr => ?_
  have hpaths : r.fieldOr? "paths" [] (Tree.table? PathItem.ofTree?) = some d.paths :=
    hr.fieldOr? rfl (Tree.table?_ofJson h.keys fun e he =>
      PathItem.ofTree?_toJson (h.paths e he))
  have hrest : r.fieldOr? "components" {} Components.ofTree? = some d.components :=
    hr.fieldOr? rfl hcomponents
  simp [hpaths, hrest]

/-! ### Keys that are written -/

/-- An object with distinct keys whose values have distinct keys. -/
theorem Json.wellKeyed_object {entries : List (String × Json)}
    (hkeys : (Table.keys entries).Nodup) (h : ∀ e ∈ entries, e.2.WellKeyed) :
    (Json.object entries).WellKeyed :=
  ⟨hkeys, wellKeyedEntries_iff.2 h⟩

theorem Json.wellKeyed_ofString? (o : Option String) : (ofString? o).WellKeyed := by
  cases o <;> trivial

/-- A part that may be missing is written with distinct keys, as `null` if it is missing. -/
theorem Json.wellKeyed_getD {α : Type} {write : α → Json} {o : Option α}
    (h : ∀ a, o = some a → (write a).WellKeyed) : ((o.map write).getD .null).WellKeyed := by
  cases o with
  | none => trivial
  | some a => exact h a rfl

theorem MediaType.wellKeyed_toJson {m : MediaType} (h : m.Regular) : m.toJson.WellKeyed := by
  refine Json.wellKeyed_object (show ["schema"].Nodup by decide) ?_
  simp only [List.forall_mem_singleton]
  exact Json.wellKeyed_getD fun s hs => Schema.wellKeyed_toJson (h s hs)

theorem RegularContent.wellKeyed {content : Table String MediaType} (h : RegularContent content) :
    (Json.object (Table.mapValues MediaType.toJson content)).WellKeyed :=
  Json.wellKeyed_mapValues h.keys fun e he => MediaType.wellKeyed_toJson (h.media e he)

theorem RequestBody.wellKeyed_toJson {body : RequestBody} (h : RegularContent body.content) :
    body.toJson.WellKeyed := by
  refine Json.wellKeyed_object (show ["required", "description", "content"].Nodup by decide) ?_
  simp only [List.forall_mem_cons, List.not_mem_nil, false_imp_iff, implies_true, and_true]
  exact ⟨trivial, Json.wellKeyed_ofString? _, h.wellKeyed⟩

theorem Response.wellKeyed_toJson {response : Response} (h : RegularContent response.content) :
    response.toJson.WellKeyed := by
  refine Json.wellKeyed_object (show ["description", "content"].Nodup by decide) ?_
  simp only [List.forall_mem_cons, List.not_mem_nil, false_imp_iff, implies_true, and_true]
  exact ⟨Json.wellKeyed_ofString? _, h.wellKeyed⟩

theorem Parameter.wellKeyed_toJson {p : Parameter} (h : p.Regular) : p.toJson.WellKeyed := by
  refine Json.wellKeyed_record (show Parameter.fieldNames.Nodup by decide) ?_
  simp only [List.forall_mem_cons, List.not_mem_nil, false_imp_iff, implies_true, and_true,
    Option.some.injEq, forall_eq']
  exact ⟨trivial, trivial, trivial,
    Json.wellKeyed_map fun s hs => Schema.wellKeyed_toJson (h.schema s hs),
    fun v hv => (h.default v hv).2, Json.wellKeyed_map fun _ _ => trivial, trivial⟩

theorem Operation.wellKeyed_toJson {op : Operation} (h : op.Regular) : op.toJson.WellKeyed := by
  have hparameters : (Json.array (op.parameters.map Parameter.toJson)).WellKeyed := by
    refine Json.wellKeyedItems_iff.2 (List.forall_mem_map.2 fun p hp => ?_)
    exact Parameter.wellKeyed_toJson (h.parameters p hp)
  have hrequest : ((op.requestBody.map RequestBody.toJson).getD .null).WellKeyed :=
    Json.wellKeyed_getD fun body hbody => RequestBody.wellKeyed_toJson (h.request body hbody)
  have hresponses : (Json.object (Table.mapValues Response.toJson op.responses)).WellKeyed :=
    Json.wellKeyed_mapValues h.keys fun e he => Response.wellKeyed_toJson (h.responses e he)
  refine Json.wellKeyed_object (show Operation.fieldNames.Nodup by decide) ?_
  simp only [List.forall_mem_cons, List.not_mem_nil, false_imp_iff, implies_true, and_true]
  exact ⟨Json.wellKeyed_ofString? _, Json.wellKeyed_ofString? _, Json.wellKeyed_ofString? _,
    trivial, hparameters, hrequest, hresponses⟩

theorem PathItem.wellKeyed_toJson {item : PathItem} (h : item.Regular) :
    item.toJson.WellKeyed := by
  refine Json.wellKeyed_record (show PathItem.fieldNames.Nodup by decide) fun f hf => ?_
  rcases List.mem_append.1 hf with hf | hf
  · obtain ⟨m, -, rfl⟩ := List.mem_map.1 hf
    exact Json.wellKeyed_map fun op hop => Operation.wellKeyed_toJson (h.operations m op hop)
  · obtain rfl := List.mem_singleton.1 hf
    exact Json.wellKeyed_ofNonempty fun p hp => Parameter.wellKeyed_toJson (h.parameters p hp)

/-- **A regular description is written with distinct keys**: it is a value, and no key is lost when
it is read. -/
theorem Document.wellKeyed_toJson {d : Document} (h : d.Regular) : d.toJson.WellKeyed := by
  have hschemas : (Json.object (Schema.tableJson d.components.schemas)).WellKeyed := by
    rw [Schema.tableJson_eq]
    exact Json.wellKeyed_mapValues h.components fun e he => Schema.wellKeyed_toJson (h.schemas e he)
  have hcomponents : d.components.toJson.WellKeyed :=
    Json.wellKeyed_object (show ["schemas"].Nodup by decide) (List.forall_mem_singleton.2 hschemas)
  have hpaths : (Json.object (Table.mapValues PathItem.toJson d.paths)).WellKeyed :=
    Json.wellKeyed_mapValues h.keys fun e he => PathItem.wellKeyed_toJson (h.paths e he)
  refine Json.wellKeyed_object (show ["paths", "components"].Nodup by decide) ?_
  simp only [List.forall_mem_cons, List.not_mem_nil, false_imp_iff, implies_true, and_true]
  exact ⟨hpaths, hcomponents⟩

/-! ### What was read -/

section Read

variable {t : Tree}

theorem MediaType.regular_of_ofTree? {m : MediaType} (h : MediaType.ofTree? t = some m) :
    m.Regular := by
  simp only [MediaType.ofTree?, Option.bind_eq_bind, Option.bind_eq_some_iff, Option.pure_def,
    Option.some.injEq] at h
  obtain ⟨r, -, schema, hschema, rfl⟩ := h
  intro s hs
  obtain rfl : schema = some s := hs
  obtain ⟨t', ht'⟩ := Record.reads_of_optional hschema
  exact Schema.regular_of_ofTree? ht'

/-- Contents that were read are regular. -/
theorem regularContent_of_tableOr {r : Record Tree} {name : String}
    {content : Table String MediaType}
    (h : r.fieldOr? name [] (Tree.table? MediaType.ofTree?) = some content) :
    RegularContent content := by
  refine ⟨Record.nodup_of_tableOr h, fun e he => ?_⟩
  obtain ⟨t', ht'⟩ := Record.reads_of_tableOr h e he
  exact MediaType.regular_of_ofTree? ht'

theorem RequestBody.regular_of_ofTree? {body : RequestBody}
    (h : RequestBody.ofTree? t = some body) : RegularContent body.content := by
  simp only [RequestBody.ofTree?, Option.bind_eq_bind, Option.bind_eq_some_iff, Option.pure_def,
    Option.some.injEq] at h
  obtain ⟨r, -, required, -, description, -, content, hcontent, rfl⟩ := h
  exact regularContent_of_tableOr hcontent

theorem Response.regular_of_ofTree? {response : Response}
    (h : Response.ofTree? t = some response) : RegularContent response.content := by
  simp only [Response.ofTree?, Option.bind_eq_bind, Option.bind_eq_some_iff, Option.pure_def,
    Option.some.injEq] at h
  obtain ⟨r, -, description, -, content, hcontent, rfl⟩ := h
  exact regularContent_of_tableOr hcontent

theorem Parameter.regular_of_ofTree? {p : Parameter} (h : Parameter.ofTree? t = some p) :
    p.Regular := by
  refine ⟨(Parameter.valued_of_ofTree? h).default, fun s hs => ?_⟩
  simp only [Parameter.ofTree?, Option.bind_eq_bind, Option.bind_eq_some_iff, Option.pure_def,
    Option.some.injEq] at h
  obtain ⟨r, -, name, -, location, -, required, -, schema, hschema, default, -, h⟩ := h
  obtain ⟨description, -, deprecated, -, rfl⟩ := h
  obtain rfl : schema = some s := hs
  obtain ⟨t', ht'⟩ := Record.reads_of_optional hschema
  exact Schema.regular_of_ofTree? ht'

theorem Operation.regular_of_ofTree? {op : Operation} (h : Operation.ofTree? t = some op) :
    op.Regular := by
  simp only [Operation.ofTree?, Option.bind_eq_bind, Option.bind_eq_some_iff, Option.pure_def,
    Option.some.injEq] at h
  obtain ⟨r, -, operationId, -, summary, -, description, -, deprecated, -, h⟩ := h
  obtain ⟨parameters, hparameters, requestBody, hrequest, responses, hresponses, rfl⟩ := h
  refine ⟨fun p hp => ?_, fun body hbody => ?_, Record.nodup_of_tableOr hresponses,
    fun response hresponse => ?_⟩
  · obtain ⟨t', ht'⟩ := Record.reads_of_listOr hparameters p hp
    exact Parameter.regular_of_ofTree? ht'
  · obtain rfl : requestBody = some body := hbody
    obtain ⟨t', ht'⟩ := Record.reads_of_optional hrequest
    exact RequestBody.regular_of_ofTree? ht'
  · obtain ⟨t', ht'⟩ := Record.reads_of_tableOr hresponses response hresponse
    exact Response.regular_of_ofTree? ht'

theorem PathItem.regular_of_ofTree? {item : PathItem} (h : PathItem.ofTree? t = some item) :
    item.Regular := by
  simp only [PathItem.ofTree?, Option.bind_eq_bind, Option.bind_eq_some_iff, Option.pure_def,
    Option.some.injEq] at h
  obtain ⟨r, -, get, hget, put, hput, post, hpost, delete, hdelete, options, hoptions, h⟩ := h
  obtain ⟨head, hhead, patch, hpatch, trace, htrace, parameters, hparameters, rfl⟩ := h
  have hoperation : ∀ {name : String} {o : Option Operation},
      r.fieldOr? name none (Tree.nullable? Operation.ofTree?) = some o →
        ∀ op, o = some op → op.Regular := by
    intro name o ho op hop
    obtain ⟨t', ht'⟩ := Record.reads_of_optional (hop ▸ ho)
    exact Operation.regular_of_ofTree? ht'
  refine ⟨fun p hp => ?_, fun method op hop => ?_⟩
  · obtain ⟨t', ht'⟩ := Record.reads_of_listOr hparameters p hp
    exact Parameter.regular_of_ofTree? ht'
  · cases method with
    | get => exact hoperation hget op hop
    | put => exact hoperation hput op hop
    | post => exact hoperation hpost op hop
    | delete => exact hoperation hdelete op hop
    | options => exact hoperation hoptions op hop
    | head => exact hoperation hhead op hop
    | patch => exact hoperation hpatch op hop
    | trace => exact hoperation htrace op hop

/-- **A description that was read is regular.** -/
theorem Document.regular_of_ofTree? {d : Document} (h : Document.ofTree? t = some d) :
    d.Regular := by
  simp only [Document.ofTree?, Option.bind_eq_bind, Option.bind_eq_some_iff, Option.pure_def,
    Option.some.injEq] at h
  obtain ⟨r, -, paths, hpaths, components, hcomponents, rfl⟩ := h
  have hschemas : (Table.keys components.schemas).Nodup ∧
      ∀ e ∈ components.schemas, e.2.Regular := by
    rcases Record.reads_of_fieldOr? hcomponents with rfl | ⟨c, -, hread⟩
    · exact ⟨.nil, by simp⟩
    · simp only [Components.ofTree?, Option.bind_eq_bind, Option.bind_eq_some_iff,
        Option.pure_def, Option.some.injEq] at hread
      obtain ⟨r', -, schemas, hschemas, rfl⟩ := hread
      refine ⟨Record.nodup_of_tableOr hschemas, fun e he => ?_⟩
      obtain ⟨t', ht'⟩ := Record.reads_of_tableOr hschemas e he
      exact Schema.regular_of_ofTree? ht'
  refine ⟨hschemas.1, hschemas.2, Record.nodup_of_tableOr hpaths, fun e he => ?_⟩
  obtain ⟨t', ht'⟩ := Record.reads_of_tableOr hpaths e he
  exact PathItem.regular_of_ofTree? ht'

end Read

/-- **A description is read back as it was if and only if it is regular.** -/
theorem Document.ofTree?_toJson_iff {d : Document} :
    Document.ofTree? (Tree.ofJson d.toJson) = some d ↔ d.Regular :=
  ⟨Document.regular_of_ofTree?, Document.ofTree?_toJson⟩

/-! ### Reading and writing again and again -/

/-- The value that is written for a description that was read from a value. -/
def Document.rewrite? (v : Json) : Option Json := (Document.ofJson? v).map Document.toJson

/-- **A description that was read is read back as it was from what is written for it**, with all its
keys in the same order, whether it was read from a text or from a value.  What is written is a value
in which no key occurs twice, and reading and writing that value again changes nothing. -/
theorem description_reads_back :
    (∀ t d, Document.ofTree? t = some d →
      Document.ofJson? d.toJson = some d ∧ d.toJson.WellKeyed) ∧
    ∀ v w, Document.rewrite? v = some w → Document.rewrite? w = some w := by
  have hback : ∀ t d, Document.ofTree? t = some d →
      Document.ofJson? d.toJson = some d ∧ d.toJson.WellKeyed := by
    intro t d h
    have hregular := Document.regular_of_ofTree? h
    exact ⟨Document.ofTree?_toJson hregular, Document.wellKeyed_toJson hregular⟩
  refine ⟨hback, fun v w h => ?_⟩
  obtain ⟨d, hd, rfl⟩ := Option.map_eq_some_iff.1 h
  rw [Document.rewrite?, (hback _ d hd).1, Option.map_some]

/-- A description in odd forms: a schema and a discriminator that are arrays, fields that nobody
declared, fields that are `null`, and an empty list that is not the same as a missing one. -/
def patchwork : Json :=
  .object
    [("openapi", .string "3.1.0"),
     ("paths", .object [("/notes", .object
        [("x-owner", .null), ("put", .null),
         ("get", .object [("parameters", .array [.array
            [.string "page", .string "query", .bool false, .null, .null, .null,
              .bool false]])])])]),
     ("components", .array [.object
        [("Shape", .object
           [("nullable", .bool false), ("enum", .array []), ("title", .null),
            ("discriminator", .array
               [.string "kind", .object [("z", .string "Z"), ("a", .string "A")]]),
            ("properties", .object [("y", .object []), ("b", .object [("const", .null)])])]),
         ("Bag", .object
           [("additionalProperties", .array
              [.array [.string "string"], .null, .object [], .array [], .null, .null, .null,
               .array [], .array [], .array [], .null, .bool true, .null, .null, .null, .null,
               .null])])]])]

/-- The same description in the form in which descriptions are written. -/
def patchworkTidied : Json :=
  .object
    [("paths", .object [("/notes", .object
        [("get", .object
           [("operationId", .null), ("summary", .null), ("description", .null),
            ("deprecated", .bool false),
            ("parameters", .array [.object
               [("name", .string "page"), ("in", .string "query"), ("required", .bool false),
                ("deprecated", .bool false)]]),
            ("requestBody", .null), ("responses", .object [])])])]),
     ("components", .object [("schemas", .object
        [("Shape", .object
           [("properties", .object [("y", .object []), ("b", .object [])]),
            ("enum", .array []),
            ("discriminator", .object
               [("propertyName", .string "kind"),
                ("mapping", .object [("z", .string "Z"), ("a", .string "A")])]),
            ("nullable", .bool false)]),
         ("Bag", .object
           [("additionalProperties", .object
              [("type", .array [.string "string"]), ("additionalProperties", .bool true)])])])])]

/-- The odd forms are gone after the first time, and nothing else changes after that. -/
theorem description_reads_back_patchwork :
    Document.rewrite? patchwork = some patchworkTidied ∧
    Document.rewrite? patchworkTidied = some patchworkTidied ∧
    ∃ d, Document.ofJson? patchwork = some d ∧ Document.ofJson? d.toJson = some d ∧
      d.toJson.WellKeyed := by
  have hread : Document.rewrite? patchwork = some patchworkTidied := by rfl
  obtain ⟨d, hd, -⟩ := Option.map_eq_some_iff.1 hread
  exact ⟨hread, description_reads_back.2 _ _ hread, d, hd, description_reads_back.1 _ d hd⟩

end ApiBinding
