import ApiBinding.Document.Decode
import ApiBinding.Proofs.Document.References
import ApiBinding.Proofs.Json.Trees

/-!
# The values in a description

The schemas and parameters of a description hold values: defaults, enumerated values and constants.
A client shows them again, so nothing is lost when a client is written if nothing is lost when these
values are.  Objects in a value have no equal keys, so all that can be lost is a default that is
`null`, which stands for a missing one where it is written.  A description that was read has none.

## Main definitions

* `Schema.Valued`, `Parameter.Valued`, `Document.Valued` — what is said of defaults holds, and no
  object has equal keys.

## Main results

* `Document.valued_of_ofTree?` — **the defaults in a description that was read are definite.**
-/

namespace ApiBinding

section Valued

-- What is said of defaults, whether there is one or not.
variable (D : Option Json → Prop)

/-! ### Schemas -/

/-- What is said of defaults holds of the default of the schema itself, and its other values have no
object with equal keys. -/
structure Schema.Values (s : Schema) : Prop where
  default : D s.default
  enumeration : ∀ values, s.enumeration = some values → ∀ v ∈ values, v.WellKeyed
  constant : ∀ v, s.constant = some v → v.WellKeyed

/-- The same holds at any depth of the schema. -/
def Schema.Valued (s : Schema) : Prop := ∀ t, Relation.ReflTransGen Inside t s → t.Values D

/-! ### Operations -/

/-- What is said of defaults holds in the schema of the media type. -/
def MediaType.Valued (m : MediaType) : Prop := ∀ s, m.schema = some s → s.Valued D

/-- What is said of defaults holds of the parameter and in its schema. -/
structure Parameter.Valued (p : Parameter) : Prop where
  default : D p.default
  schema : ∀ s, p.schema = some s → s.Valued D

/-- What is said of defaults holds in the parameters, the body and the responses. -/
structure Operation.Valued (op : Operation) : Prop where
  parameters : ∀ p ∈ op.parameters, p.Valued D
  request : ∀ body, op.requestBody = some body → ∀ e ∈ body.content, e.2.Valued D
  responses : ∀ r ∈ op.responses, ∀ e ∈ r.2.content, e.2.Valued D

/-- What is said of defaults holds in the operations of a path. -/
structure PathItem.Valued (item : PathItem) : Prop where
  parameters : ∀ p ∈ item.parameters, p.Valued D
  operations : ∀ method op, item.operation? method = some op → op.Valued D

/-- What is said of defaults holds in the whole description. -/
structure Document.Valued (d : Document) : Prop where
  schemas : ∀ e ∈ d.components.schemas, e.2.Valued D
  paths : ∀ e ∈ d.paths, e.2.Valued D

end Valued

namespace Schema

variable {D : Option Json → Prop} {s t : Schema}

theorem Valued.values (h : s.Valued D) : s.Values D := h s .refl

theorem Valued.inside (h : s.Valued D) (ht : Relation.ReflTransGen Inside t s) : t.Valued D :=
  fun u hu => h u (hu.trans ht)

/-- What holds of the values of a schema itself and in the schemas inside holds at any depth. -/
theorem valued_of_inside (hs : s.Values D) (h : ∀ t, Inside t s → t.Valued D) : s.Valued D := by
  intro t ht
  rcases Relation.ReflTransGen.cases_tail ht with rfl | ⟨u, htu, hus⟩
  · exact hs
  · exact h u hus t htu

/-! ### Schemas that were read -/

/-- The defaults are definite in what the part says, in each of its roles. -/
structure Reading.Definite (x : Reading) : Prop where
  schema : ∀ s, x.schema = some s → s.Valued Json.Definite
  schemas : ∀ ss, x.schemas = some ss → ∀ s ∈ ss, s.Valued Json.Definite
  table : ∀ t, x.table = some t → ∀ e ∈ t, e.2.Valued Json.Definite

/-- What is read where `null` stands for a missing value is no value or read as a value. -/
theorem Reading.reads_of_nullable? {α : Type} {read : Reading → Option α} {x : Reading}
    {o : Option α} (h : Reading.nullable? read x = some o) :
    o = none ∨ ∃ a, o = some a ∧ read x = some a := by
  unfold Reading.nullable? at h
  split at h
  · rw [Option.some.injEq] at h
    exact .inl h.symm
  · obtain ⟨a, ha, rfl⟩ := Option.map_eq_some_iff.1 h
    exact .inr ⟨a, rfl, ha⟩

/-- An optional field is missing or read from what was written for it. -/
theorem Reading.reads_of_optional {α : Type} {read : Reading → Option α} {r : Record Reading}
    {name : String} {a : α} (h : r.fieldOr? name none (Reading.nullable? read) = some (some a)) :
    ∃ e ∈ r.fields, read e.2 = some a := by
  rcases Record.reads_of_fieldOr? h with h | ⟨e, he, hread⟩
  · simp at h
  · rcases Reading.reads_of_nullable? hread with h | ⟨b, hb, hread⟩
    · simp at h
    · rw [Option.some.injEq] at hb
      exact ⟨e, he, hb ▸ hread⟩

theorem Reading.nullable?_tree {α : Type} (read : Tree → Option α) (x : Reading) :
    Reading.nullable? (fun x => read x.tree) x = x.tree.nullable? read := by
  obtain ⟨t, schema, schemas, table⟩ := x
  cases t <;> rfl

/-- The default of a schema that was read is no value or a value that is not `null`. -/
theorem definite_of_reading {r : Record Reading} {name : String} {o : Option Json}
    (h : r.fieldOr? name none (Reading.nullable? fun x => x.tree.toJson?) = some o) :
    Json.Definite o := by
  rcases Record.reads_of_fieldOr? h with rfl | ⟨e, -, hread⟩
  · exact Json.definite_none
  · rw [Reading.nullable?_tree Tree.toJson?] at hread
    exact Tree.definite_of_nullable? hread

/-- A schema for further keys is the part as a schema. -/
theorem Reading.schema_of_additional? {x : Reading} {t : Schema}
    (h : x.additional? = some (.schema t)) : x.schema = some t := by
  unfold Reading.additional? at h
  split at h
  · split at h
    · simp at h
    · obtain ⟨t', ht', heq⟩ := Option.map_eq_some_iff.1 h
      cases heq
      exact ht'
  · simp at h

/-- What a record says in the fields that hold schemas, values or keys. -/
structure ReadFrom (r : Record Reading) (s : Schema) : Prop where
  properties : r.fieldOr? "properties" [] Reading.table = some s.properties
  items : r.fieldOr? "items" none (Reading.nullable? Reading.schema) = some s.items
  enumeration : r.fieldOr? "enum" none
    (Reading.nullable? fun x => x.tree.list? Tree.toJson?) = some s.enumeration
  constant : r.fieldOr? "const" none (Reading.nullable? fun x => x.tree.toJson?) = some s.constant
  allOf : r.fieldOr? "allOf" [] Reading.schemas = some s.allOf
  oneOf : r.fieldOr? "oneOf" [] Reading.schemas = some s.oneOf
  anyOf : r.fieldOr? "anyOf" [] Reading.schemas = some s.anyOf
  discriminator : r.fieldOr? "discriminator" none
    (Reading.nullable? fun x => Discriminator.ofTree? x.tree) = some s.discriminator
  additional : r.fieldOr? "additionalProperties" none
    (Reading.nullable? Reading.additional?) = some s.additional
  default : r.fieldOr? "default" none (Reading.nullable? fun x => x.tree.toJson?) = some s.default

theorem readFrom_of_ofRecord? {r : Record Reading} (h : ofRecord? r = some s) : ReadFrom r s := by
  unfold ofRecord? at h
  -- The keywords are read one after the other.
  obtain ⟨declaredType, -, h⟩ := Option.bind_eq_some_iff.1 h
  obtain ⟨reference, -, h⟩ := Option.bind_eq_some_iff.1 h
  obtain ⟨properties, hproperties, h⟩ := Option.bind_eq_some_iff.1 h
  obtain ⟨required, -, h⟩ := Option.bind_eq_some_iff.1 h
  obtain ⟨items, hitems, h⟩ := Option.bind_eq_some_iff.1 h
  obtain ⟨enumeration, henumeration, h⟩ := Option.bind_eq_some_iff.1 h
  obtain ⟨constant, hconstant, h⟩ := Option.bind_eq_some_iff.1 h
  obtain ⟨allOf, hall, h⟩ := Option.bind_eq_some_iff.1 h
  obtain ⟨oneOf, hone, h⟩ := Option.bind_eq_some_iff.1 h
  obtain ⟨anyOf, hany, h⟩ := Option.bind_eq_some_iff.1 h
  obtain ⟨discriminator, hdiscriminator, h⟩ := Option.bind_eq_some_iff.1 h
  obtain ⟨additional, hadditional, h⟩ := Option.bind_eq_some_iff.1 h
  obtain ⟨format, -, h⟩ := Option.bind_eq_some_iff.1 h
  obtain ⟨nullable, -, h⟩ := Option.bind_eq_some_iff.1 h
  obtain ⟨default, hdefault, h⟩ := Option.bind_eq_some_iff.1 h
  obtain ⟨description, -, h⟩ := Option.bind_eq_some_iff.1 h
  obtain ⟨title, -, h⟩ := Option.bind_eq_some_iff.1 h
  obtain rfl := Option.some.inj h
  exact ⟨hproperties, hitems, henumeration, hconstant, hall, hone, hany, hdiscriminator,
    hadditional, hdefault⟩

/-- **The defaults in a schema are definite** if those in the parts are that it was read from. -/
theorem valued_of_ofRecord? {r : Record Reading} (hr : ∀ e ∈ r.fields, e.2.Definite)
    (h : ofRecord? r = some s) : s.Valued Json.Definite := by
  have hread := readFrom_of_ofRecord? h
  -- The members of a list of schemas are those of a list that was written.
  have hlist : ∀ {name : String} {ss : List Schema},
      r.fieldOr? name [] Reading.schemas = some ss → ∀ s ∈ ss, s.Valued Json.Definite := by
    intro name ss hss s hs
    rcases Record.reads_of_fieldOr? hss with rfl | ⟨e, he, hread⟩
    · simp at hs
    · exact (hr e he).schemas ss hread s hs
  refine valued_of_inside ⟨definite_of_reading hread.default, ?_, ?_⟩ fun t ht => ?_
  · intro values hvalues v hv
    have hfield := hread.enumeration
    rw [hvalues] at hfield
    obtain ⟨e, -, hvalues⟩ := Reading.reads_of_optional hfield
    obtain ⟨t', ht'⟩ := Tree.reads_of_list? hvalues v hv
    exact Tree.wellKeyed_of_toJson? ht'
  · intro v hv
    have hfield := hread.constant
    rw [hv] at hfield
    obtain ⟨e, -, hv⟩ := Reading.reads_of_optional hfield
    exact Tree.wellKeyed_of_toJson? hv
  · cases ht with
    | property hp =>
      rcases Record.reads_of_fieldOr? hread.properties with hnil | ⟨e, he, htable⟩
      · simp [hnil] at hp
      · exact (hr e he).table _ htable _ hp
    | items ht =>
      have hfield := hread.items
      rw [ht] at hfield
      obtain ⟨e, he, ht⟩ := Reading.reads_of_optional hfield
      exact (hr e he).schema t ht
    | additional ht =>
      have hfield := hread.additional
      rw [ht] at hfield
      obtain ⟨e, he, ht⟩ := Reading.reads_of_optional hfield
      exact (hr e he).schema t (Reading.schema_of_additional? ht)
    | allOf ht => exact hlist hread.allOf t ht
    | oneOf ht => exact hlist hread.oneOf t ht
    | anyOf ht => exact hlist hread.anyOf t ht

/-- The fields of a record that is an object are entries of it. -/
theorem mem_of_ofEntries? {τ : Type} {names : List String} {entries : List (String × τ)}
    {r : Record τ} (h : Record.ofEntries? names entries = some r) :
    ∀ e ∈ r.fields, e ∈ entries := by
  unfold Record.ofEntries? at h
  dsimp only at h
  split at h
  · cases h
    exact fun e he => List.mem_of_mem_filter he
  · simp at h

/-- The fields of a record that is an array are items of it. -/
theorem mem_of_ofItems? {τ : Type} {names : List String} {items : List τ} {r : Record τ}
    (h : Record.ofItems? names items = some r) : ∀ e ∈ r.fields, e.2 ∈ items := by
  unfold Record.ofItems? at h
  split at h
  · cases h
    exact fun e he => (List.of_mem_zip he).2
  · simp at h

namespace Reading

mutual

/-- **The defaults are definite in what a tree says**, in each of its roles. -/
theorem definite_of : ∀ t : Tree, (of t).Definite
  | .object entries => by
    have hparts := definite_ofEntries entries
    refine ⟨fun s hs => ?_, fun ss hss => by simp [of] at hss, fun t ht e he => ?_⟩
    · obtain ⟨r, hr, hs⟩ := Option.bind_eq_some_iff.1 hs
      exact valued_of_ofRecord? (fun e he => hparts e (mem_of_ofEntries? hr e he)) hs
    · obtain ⟨es, hes, rfl⟩ := Option.map_eq_some_iff.1 ht
      obtain ⟨e', he', -, hread⟩ := Table.exists_of_mem_mapM? hes e (Table.mem_of_mem_ofEntries he)
      exact (hparts e' he').schema e.2 hread
  | .array items => by
    have hparts := definite_ofItems items
    refine ⟨fun s hs => ?_, fun ss hss s hs => ?_, fun t ht => by simp [of] at ht⟩
    · obtain ⟨r, hr, hs⟩ := Option.bind_eq_some_iff.1 hs
      exact valued_of_ofRecord? (fun e he => hparts e.2 (mem_of_ofItems? hr e he)) hs
    · obtain ⟨x, hx, hread⟩ := exists_of_mem_mapM hss s hs
      exact (hparts x hx).schema s hread
  | .null => ⟨nofun, nofun, nofun⟩
  | .bool _ => ⟨nofun, nofun, nofun⟩
  | .number _ => ⟨nofun, nofun, nofun⟩
  | .string _ => ⟨nofun, nofun, nofun⟩
  | .invalid => ⟨nofun, nofun, nofun⟩

theorem definite_ofItems : ∀ items : List Tree, ∀ x ∈ ofItems items, x.Definite
  | [], _, hx => by simp [ofItems] at hx
  | t :: rest, x, hx => by
    rw [ofItems] at hx
    rcases List.mem_cons.1 hx with rfl | hx
    · exact definite_of t
    · exact definite_ofItems rest x hx

theorem definite_ofEntries : ∀ entries : List (String × Tree),
    ∀ e ∈ ofEntries entries, e.2.Definite
  | [], _, he => by simp [ofEntries] at he
  | (k, t) :: rest, e, he => by
    rw [ofEntries] at he
    rcases List.mem_cons.1 he with rfl | he
    · exact definite_of t
    · exact definite_ofEntries rest e he

end

end Reading

/-- **The defaults in a schema that was read are definite.** -/
theorem valued_of_ofTree? {t : Tree} (h : ofTree? t = some s) : s.Valued Json.Definite :=
  (Reading.definite_of t).schema s h

end Schema

/-! ### Operations that were read -/

section Read

variable {t : Tree}

/-- An optional field is missing or read from some tree. -/
theorem Record.reads_of_optional {α : Type} {read : Tree → Option α} {r : Record Tree}
    {name : String} {a : α} (h : r.fieldOr? name none (Tree.nullable? read) = some (some a)) :
    ∃ t, read t = some a := by
  rcases Record.reads_of_fieldOr? h with h | ⟨e, -, hread⟩
  · simp at h
  · unfold Tree.nullable? at hread
    split at hread
    · simp at hread
    · obtain ⟨b, hb, heq⟩ := Option.map_eq_some_iff.1 hread
      rw [Option.some.injEq] at heq
      exact ⟨e.2, heq ▸ hb⟩

/-- The elements of an optional list are read one by one. -/
theorem Record.reads_of_listOr {α : Type} {read : Tree → Option α} {r : Record Tree}
    {name : String} {as : List α} (h : r.fieldOr? name [] (Tree.list? read) = some as) :
    ∀ a ∈ as, ∃ t, read t = some a := by
  rcases Record.reads_of_fieldOr? h with rfl | ⟨e, -, hread⟩
  · simp
  · exact Tree.reads_of_list? hread

/-- The values of an optional table are read one by one. -/
theorem Record.reads_of_tableOr {α : Type} {read : Tree → Option α} {r : Record Tree}
    {name : String} {table : Table String α}
    (h : r.fieldOr? name [] (Tree.table? read) = some table) :
    ∀ e ∈ table, ∃ t, read t = some e.2 := by
  rcases Record.reads_of_fieldOr? h with rfl | ⟨e, -, hread⟩
  · simp
  · exact Tree.reads_of_table? hread

theorem MediaType.valued_of_ofTree? {m : MediaType} (h : MediaType.ofTree? t = some m) :
    m.Valued Json.Definite := by
  simp only [MediaType.ofTree?, Option.bind_eq_bind, Option.bind_eq_some_iff, Option.pure_def,
    Option.some.injEq] at h
  obtain ⟨r, -, schema, hschema, rfl⟩ := h
  intro s hs
  obtain rfl : schema = some s := hs
  obtain ⟨t', ht'⟩ := Record.reads_of_optional hschema
  exact Schema.valued_of_ofTree? ht'

theorem Parameter.valued_of_ofTree? {p : Parameter} (h : Parameter.ofTree? t = some p) :
    p.Valued Json.Definite := by
  simp only [Parameter.ofTree?, Option.bind_eq_bind, Option.bind_eq_some_iff, Option.pure_def,
    Option.some.injEq] at h
  obtain ⟨r, -, name, -, location, -, required, -, schema, hschema, default, hdefault, h⟩ := h
  obtain ⟨description, -, deprecated, -, rfl⟩ := h
  refine ⟨Record.definite_of_fieldOr? hdefault, fun s hs => ?_⟩
  obtain rfl : schema = some s := hs
  obtain ⟨t', ht'⟩ := Record.reads_of_optional hschema
  exact Schema.valued_of_ofTree? ht'

theorem RequestBody.valued_of_ofTree? {body : RequestBody}
    (h : RequestBody.ofTree? t = some body) : ∀ e ∈ body.content, e.2.Valued Json.Definite := by
  simp only [RequestBody.ofTree?, Option.bind_eq_bind, Option.bind_eq_some_iff, Option.pure_def,
    Option.some.injEq] at h
  obtain ⟨r, -, required, -, description, -, content, hcontent, rfl⟩ := h
  intro e he
  obtain ⟨t', ht'⟩ := Record.reads_of_tableOr hcontent e he
  exact MediaType.valued_of_ofTree? ht'

theorem Response.valued_of_ofTree? {response : Response}
    (h : Response.ofTree? t = some response) :
    ∀ e ∈ response.content, e.2.Valued Json.Definite := by
  simp only [Response.ofTree?, Option.bind_eq_bind, Option.bind_eq_some_iff, Option.pure_def,
    Option.some.injEq] at h
  obtain ⟨r, -, description, -, content, hcontent, rfl⟩ := h
  intro e he
  obtain ⟨t', ht'⟩ := Record.reads_of_tableOr hcontent e he
  exact MediaType.valued_of_ofTree? ht'

theorem Operation.valued_of_ofTree? {op : Operation} (h : Operation.ofTree? t = some op) :
    op.Valued Json.Definite := by
  simp only [Operation.ofTree?, Option.bind_eq_bind, Option.bind_eq_some_iff, Option.pure_def,
    Option.some.injEq] at h
  obtain ⟨r, -, operationId, -, summary, -, description, -, deprecated, -, h⟩ := h
  obtain ⟨parameters, hparameters, requestBody, hrequest, responses, hresponses, rfl⟩ := h
  refine ⟨fun p hp => ?_, fun body hbody => ?_, fun response hresponse => ?_⟩
  · obtain ⟨t', ht'⟩ := Record.reads_of_listOr hparameters p hp
    exact Parameter.valued_of_ofTree? ht'
  · obtain rfl : requestBody = some body := hbody
    obtain ⟨t', ht'⟩ := Record.reads_of_optional hrequest
    exact RequestBody.valued_of_ofTree? ht'
  · obtain ⟨t', ht'⟩ := Record.reads_of_tableOr hresponses response hresponse
    exact Response.valued_of_ofTree? ht'

theorem PathItem.valued_of_ofTree? {item : PathItem} (h : PathItem.ofTree? t = some item) :
    item.Valued Json.Definite := by
  simp only [PathItem.ofTree?, Option.bind_eq_bind, Option.bind_eq_some_iff, Option.pure_def,
    Option.some.injEq] at h
  obtain ⟨r, -, get, hget, put, hput, post, hpost, delete, hdelete, options, hoptions, h⟩ := h
  obtain ⟨head, hhead, patch, hpatch, trace, htrace, parameters, hparameters, rfl⟩ := h
  have hoperation : ∀ {name : String} {o : Option Operation},
      r.fieldOr? name none (Tree.nullable? Operation.ofTree?) = some o →
        ∀ op, o = some op → op.Valued Json.Definite := by
    intro name o ho op hop
    obtain ⟨t', ht'⟩ := Record.reads_of_optional (hop ▸ ho)
    exact Operation.valued_of_ofTree? ht'
  refine ⟨fun p hp => ?_, fun method op hop => ?_⟩
  · obtain ⟨t', ht'⟩ := Record.reads_of_listOr hparameters p hp
    exact Parameter.valued_of_ofTree? ht'
  · cases method with
    | get => exact hoperation hget op hop
    | put => exact hoperation hput op hop
    | post => exact hoperation hpost op hop
    | delete => exact hoperation hdelete op hop
    | options => exact hoperation hoptions op hop
    | head => exact hoperation hhead op hop
    | patch => exact hoperation hpatch op hop
    | trace => exact hoperation htrace op hop

/-- **The defaults in a description that was read are definite.** -/
theorem Document.valued_of_ofTree? {d : Document} (h : Document.ofTree? t = some d) :
    d.Valued Json.Definite := by
  simp only [Document.ofTree?, Option.bind_eq_bind, Option.bind_eq_some_iff, Option.pure_def,
    Option.some.injEq] at h
  obtain ⟨r, -, paths, hpaths, components, hcomponents, rfl⟩ := h
  refine ⟨fun e he => ?_, fun e he => ?_⟩
  · rcases Record.reads_of_fieldOr? hcomponents with rfl | ⟨c, -, hread⟩
    · simp at he
    · simp only [Components.ofTree?, Option.bind_eq_bind, Option.bind_eq_some_iff,
        Option.pure_def, Option.some.injEq] at hread
      obtain ⟨r', -, schemas, hschemas, rfl⟩ := hread
      obtain ⟨t', ht'⟩ := Record.reads_of_tableOr hschemas e he
      exact Schema.valued_of_ofTree? ht'
  · obtain ⟨t', ht'⟩ := Record.reads_of_tableOr hpaths e he
    exact PathItem.valued_of_ofTree? ht'

end Read

end ApiBinding
