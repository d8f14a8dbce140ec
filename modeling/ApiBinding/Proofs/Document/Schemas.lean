import ApiBinding.Proofs.Document.Values

/-!
# Schemas that are written and read back

A schema is read from the leaves up, but what comes out is what one would read from the top: the
fields of a record, in which every schema inside is read in the same way.  So a schema is read back
from its value if the schemas inside are, and if its own keywords say nothing that the written form
cannot tell apart: a default or a constant that is `null` is taken for a missing one, and equal
keys are entered once.

## Main definitions

* `Record.map` — a record with other values.
* `Schema.RegularKeywords`, `Schema.Regular` — the written form tells all that a schema says.

## Main results

* `Schema.ofTree?_eq` — a schema is read from the fields of a record.
* `Schema.ofTree?_toJson` — **a regular schema is read back as it was.**
* `Schema.regular_of_ofTree?` — **a schema that was read is regular.**
-/

namespace ApiBinding

/-! ### Tables that are read back -/

/-- A table with distinct keys is read back if its values are. -/
theorem Tree.table?_ofJson {α : Type} {write : α → Json} {read : Tree → Option α}
    {t : Table String α} (hkeys : (Table.keys t).Nodup)
    (h : ∀ e ∈ t, read (ofJson (write e.2)) = some e.2) :
    (ofJson (.object (Table.mapValues write t))).table? read = some t := by
  have hentries : Table.mapM? read (ofEntries (Table.mapValues write t)) = some t := by
    clear hkeys
    induction t with
    | nil => rfl
    | cons e rest ih =>
      obtain ⟨k, a⟩ := e
      have hrest := ih fun e he => h e (.tail _ he)
      have ha : read (ofJson (write a)) = some a := h (k, a) (.head _)
      simp only [Table.mapValues, List.map_cons, ofEntries, Table.mapM?, ha] at hrest ⊢
      rw [hrest]
      rfl
  rw [ofJson, table?, hentries, Option.map_some, Table.ofEntries_eq hkeys]

/-- A table is read; it is missing when it is empty. -/
theorem Record.Shows.nonemptyTable {α : Type} {r : Record Tree}
    {fields : List (String × Option Json)} {name : String} (h : r.Shows fields)
    {read : Tree → Option α} {write : α → Json} {t : Table String α}
    (hv : Table.get? fields name =
      some (if t.isEmpty then none else some (.object (Table.mapValues write t))))
    (hkeys : (Table.keys t).Nodup) (ht : ∀ e ∈ t, read (Tree.ofJson (write e.2)) = some e.2) :
    r.fieldOr? name [] (Tree.table? read) = some t := by
  cases t with
  | nil =>
    have hget : r.get? name = none := by
      rw [h.get?, hv]
      rfl
    rw [Record.fieldOr?, hget]
  | cons e rest => exact h.fieldOr? hv (Tree.table?_ofJson hkeys ht)

/-! ### Keys that are written -/

namespace Json

variable {α : Type} {write : α → Json}

/-- The keys of a table are those that are written. -/
theorem wellKeyed_mapValues {t : Table String α} (hkeys : (Table.keys t).Nodup)
    (h : ∀ e ∈ t, (write e.2).WellKeyed) : (Json.object (Table.mapValues write t)).WellKeyed := by
  refine ⟨by rwa [Table.keys_mapValues], wellKeyedEntries_iff.2 fun e he => ?_⟩
  obtain ⟨e', he', rfl⟩ := List.mem_map.1 he
  exact h e' he'

theorem wellKeyed_map {o : Option α} (h : ∀ a, o = some a → (write a).WellKeyed) :
    ∀ v, o.map write = some v → v.WellKeyed := by
  intro v hv
  obtain ⟨a, ha, rfl⟩ := Option.map_eq_some_iff.1 hv
  exact h a ha

theorem wellKeyed_ofNonempty {as : List α} (h : ∀ a ∈ as, (write a).WellKeyed) :
    ∀ v, ofNonempty write as = some v → v.WellKeyed := by
  intro v hv
  unfold ofNonempty at hv
  split at hv
  · simp at hv
  · cases hv
    exact wellKeyedItems_iff.2 (List.forall_mem_map.2 h)

theorem wellKeyed_nonemptyTable {t : Table String α} (hkeys : (Table.keys t).Nodup)
    (h : ∀ e ∈ t, (write e.2).WellKeyed) :
    ∀ v, (if t.isEmpty then none else some (Json.object (Table.mapValues write t))) = some v →
      v.WellKeyed := by
  intro v hv
  split at hv
  · simp at hv
  · cases hv
    exact wellKeyed_mapValues hkeys h

/-- A record is written with its fields as keys. -/
theorem wellKeyed_record {fields : List (String × Option Json)}
    (hkeys : (Table.keys fields).Nodup)
    (h : ∀ f ∈ fields, ∀ v, f.2 = some v → v.WellKeyed) : (record fields).WellKeyed := by
  refine ⟨(keys_present_sublist fields).nodup hkeys, wellKeyedEntries_iff.2 fun e he => ?_⟩
  obtain ⟨f, hf, heq⟩ := List.mem_filterMap.1 he
  obtain ⟨v, hv, rfl⟩ := Option.map_eq_some_iff.1 heq
  exact h f hf v hv

end Json

/-! ### Records of readings -/

namespace Record

variable {τ σ α : Type}

/-- The record with other values of the fields. -/
def map (f : τ → σ) (r : Record τ) : Record σ := ⟨r.named, Table.mapValues f r.fields⟩

/-- A field is read from the value that it had. -/
theorem fieldOr?_map (f : τ → σ) (r : Record τ) (name : String) (missing : α)
    (read : σ → Option α) :
    (r.map f).fieldOr? name missing read = r.fieldOr? name missing fun x => read (f x) := by
  unfold fieldOr? Record.get? map
  rw [Table.get?_mapValues]
  cases Table.get? r.fields name <;> rfl

theorem ofEntries?_mapValues (f : τ → σ) (names : List String) (entries : List (String × τ)) :
    ofEntries? names (Table.mapValues f entries) = (ofEntries? names entries).map (map f) := by
  have hknown : (Table.mapValues f entries).filter (fun e => names.contains e.1) =
      Table.mapValues f (entries.filter fun e => names.contains e.1) := by
    rw [Table.mapValues, List.filter_map]
    rfl
  have hkeys : ∀ t : List (String × τ), (Table.mapValues f t).map Prod.fst = t.map Prod.fst :=
    Table.keys_mapValues f
  unfold ofEntries?
  simp only [hknown, hkeys]
  split <;> rfl

theorem ofItems?_map (f : τ → σ) (names : List String) (items : List τ) :
    ofItems? names (items.map f) = (ofItems? names items).map (map f) := by
  unfold ofItems?
  rw [List.length_map]
  split
  · rw [List.zip_map_right]
    rfl
  · rfl

end Record

namespace Schema

namespace Reading

theorem ofItems_eq_map : ∀ items : List Tree, ofItems items = items.map of
  | [] => rfl
  | t :: rest => by rw [ofItems, ofItems_eq_map rest, List.map_cons]

theorem ofEntries_eq_mapValues : ∀ entries : List (String × Tree),
    ofEntries entries = Table.mapValues of entries
  | [] => rfl
  | (k, t) :: rest => by rw [ofEntries, ofEntries_eq_mapValues rest]; rfl

@[simp] theorem tree_of (t : Tree) : (of t).tree = t := by
  cases t <;> rfl

/-- A part as a list of schemas is a list of parts that are schemas. -/
theorem schemas_of (t : Tree) : (of t).schemas = t.list? ofTree? := by
  cases t with
  | array items =>
    rw [of, Tree.list?, ofItems_eq_map, List.mapM_map]
    rfl
  | _ => rfl

/-- A part as a table of schemas is a table of parts that are schemas. -/
theorem table_of (t : Tree) : (of t).table = t.table? ofTree? := by
  cases t with
  | object entries =>
    have hentries : ∀ entries : List (String × Tree),
        Table.mapM? Reading.schema (Table.mapValues of entries) = Table.mapM? ofTree? entries := by
      intro entries
      induction entries with
      | nil => rfl
      | cons e rest ih =>
        simp only [Table.mapValues, List.map_cons, Table.mapM?] at ih ⊢
        rw [ih]
        rfl
    rw [of, Tree.table?, ofEntries_eq_mapValues, hentries]
  | _ => rfl

theorem nullable?_of {α : Type} (read : Reading → Option α) (t : Tree) :
    nullable? read (of t) = t.nullable? fun t => read (of t) := by
  cases t <;> rfl

end Reading

/-- **A schema is read from the fields of a record**, whose values are read in each role. -/
theorem ofTree?_eq (t : Tree) : ofTree? t =
    (Record.ofTree? fieldNames t).bind fun r => ofRecord? (r.map Reading.of) := by
  unfold ofTree?
  cases t with
  | object entries =>
    rw [Reading.of, Reading.ofEntries_eq_mapValues, Record.ofEntries?_mapValues, Option.bind_map]
    rfl
  | array items =>
    rw [Reading.of, Reading.ofItems_eq_map, Record.ofItems?_map, Option.bind_map]
    rfl
  | _ => rfl

/-- A keyword for which `null` stands for a missing one is read from its tree. -/
theorem optional_of {α : Type} (r : Record Tree) (name : String) (read : Reading → Option α) :
    (r.map Reading.of).fieldOr? name none (Reading.nullable? read) =
      r.fieldOr? name none (Tree.nullable? fun t => read (Reading.of t)) := by
  rw [Record.fieldOr?_map]
  simp only [Reading.nullable?_of]

/-- A list of schemas is read from its tree. -/
theorem schemas_of (r : Record Tree) (name : String) :
    (r.map Reading.of).fieldOr? name [] Reading.schemas =
      r.fieldOr? name [] (Tree.list? ofTree?) := by
  rw [Record.fieldOr?_map]
  simp only [Reading.schemas_of]

/-- A table of schemas is read from its tree. -/
theorem table_of (r : Record Tree) (name : String) :
    (r.map Reading.of).fieldOr? name [] Reading.table =
      r.fieldOr? name [] (Tree.table? ofTree?) := by
  rw [Record.fieldOr?_map]
  simp only [Reading.table_of]

/-! ### The values of schemas -/

theorem listJson_eq (ss : List Schema) : listJson ss = ss.map toJson := by
  induction ss with
  | nil => rfl
  | cons s rest ih => rw [listJson, ih, List.map_cons]

theorem tableJson_eq (t : List (String × Schema)) : tableJson t = Table.mapValues toJson t := by
  induction t with
  | nil => rfl
  | cons e rest ih =>
    obtain ⟨k, s⟩ := e
    rw [tableJson, ih]
    rfl

theorem nonemptyList_eq (ss : List Schema) : nonemptyList ss = Json.ofNonempty toJson ss := by
  cases ss with
  | nil => rfl
  | cons s rest => rw [nonemptyList, listJson_eq]; rfl

theorem nonemptyTable_eq (t : List (String × Schema)) : nonemptyTable t =
    if t.isEmpty then none else some (.object (Table.mapValues toJson t)) := by
  cases t with
  | nil => rfl
  | cons e rest => rw [nonemptyTable, tableJson_eq]; rfl

theorem optional_eq (o : Option Schema) : optional o = o.map toJson := by
  cases o <;> rfl

/-- The value of a permission or a schema. -/
def permissionJson : Additional Schema → Json
  | .permitted b => .bool b
  | .schema s => s.toJson

theorem additionalJson_eq (o : Option (Additional Schema)) :
    additionalJson o = o.map permissionJson := by
  rcases o with _ | b | s <;> rfl

/-- The value of a schema is an object. -/
theorem exists_toJson (s : Schema) : ∃ entries, s.toJson = .object entries := by
  cases s
  exact ⟨_, rfl⟩

theorem toJson_ne_null (s : Schema) : s.toJson ≠ .null := by
  obtain ⟨entries, h⟩ := s.exists_toJson
  simp [h]

end Schema

/-! ### Regular schemas -/

/-- Type names are read back. -/
theorem TypeNames.ofTree?_toJson (names : TypeNames) :
    TypeNames.ofTree? (Tree.ofJson names.toJson) = some names := by
  cases names with
  | single name => rfl
  | multiple names =>
    have hnames : (Tree.ofJson (.array (names.map .string))).list? Tree.string? = some names :=
      Tree.list?_ofJson fun _ _ => rfl
    exact congrArg (Option.map TypeNames.multiple) hnames

/-- A discriminator is read back if the keys of its mapping are distinct. -/
theorem Discriminator.ofTree?_toJson {D : Discriminator} (h : (Table.keys D.mapping).Nodup) :
    Discriminator.ofTree? (Tree.ofJson D.toJson) = some D := by
  refine Record.read_record rfl (by decide) fun r hr => ?_
  have hproperty : r.field? "propertyName" Tree.string? = some D.propertyName := hr.field? rfl rfl
  have hmapping : r.fieldOr? "mapping" [] (Tree.table? Tree.string?) = some D.mapping :=
    hr.nonemptyTable rfl h fun _ _ => rfl
  simp [hproperty, hmapping]

theorem Discriminator.wellKeyed_toJson {D : Discriminator} (h : (Table.keys D.mapping).Nodup) :
    D.toJson.WellKeyed := by
  refine Json.wellKeyed_record (show ["propertyName", "mapping"].Nodup by decide) ?_
  simp only [List.forall_mem_cons, List.not_mem_nil, false_imp_iff, implies_true, and_true]
  refine ⟨fun v hv => ?_, Json.wellKeyed_nonemptyTable h fun _ _ => trivial⟩
  cases hv
  trivial

namespace Schema

/-- The written form tells all that the keywords of the schema itself say. -/
structure RegularKeywords (s : Schema) : Prop where
  default : Json.Definite s.default
  constant : Json.Definite s.constant
  enumeration : ∀ values, s.enumeration = some values → ∀ v ∈ values, v.WellKeyed
  properties : (Table.keys s.properties).Nodup
  mapping : ∀ D, s.discriminator = some D → (Table.keys D.mapping).Nodup

/-- The written form tells all that the schema says, at any depth. -/
def Regular (s : Schema) : Prop := ∀ t, Relation.ReflTransGen Inside t s → t.RegularKeywords

variable {s t : Schema}

theorem Regular.keywords (h : s.Regular) : s.RegularKeywords := h s .refl

theorem Regular.inside (h : s.Regular) (ht : Inside t s) : t.Regular :=
  fun u hu => h u (hu.tail ht)

/-- A permission or a schema is read back. -/
theorem additional?_ofJson {a : Additional Schema}
    (h : ∀ t, a = .schema t → ofTree? (Tree.ofJson t.toJson) = some t) :
    Reading.additional? (Reading.of (Tree.ofJson (permissionJson a))) = some a := by
  rw [Reading.additional?, Reading.tree_of, Tree.sound_ofJson, if_pos rfl]
  cases a with
  | permitted b => rfl
  | schema t =>
    have ht : (Reading.of (Tree.ofJson t.toJson)).schema = some t := h t rfl
    obtain ⟨entries, hentries⟩ := t.exists_toJson
    rw [permissionJson, ht, hentries]
    rfl

section Keywords

variable {r : Record Tree} {fields : List (String × Option Json)} {name : String}

/-- An optional keyword without schemas is read back. -/
theorem keyword_of_shows {α : Type} {read : Tree → Option α} {write : α → Json} {o : Option α}
    (hr : r.Shows fields) (hv : Table.get? fields name = some (o.map write))
    (ho : ∀ a, o = some a → write a ≠ .null ∧ read (Tree.ofJson (write a)) = some a) :
    (r.map Reading.of).fieldOr? name none (Reading.nullable? fun x => read x.tree) = some o := by
  rw [optional_of]
  simp only [Reading.tree_of]
  exact hr.optional hv ho

variable (name) in
/-- A text is read back. -/
theorem text_of_shows {o : Option String} (hr : r.Shows fields)
    (hv : Table.get? fields name = some (o.map .string)) :
    (r.map Reading.of).fieldOr? name none (Reading.nullable? fun x => x.tree.string?) = some o :=
  keyword_of_shows hr hv fun _ _ => ⟨by simp, rfl⟩

variable (name) in
/-- A value that is not `null` is read back. -/
theorem value_of_shows {o : Option Json} (hr : r.Shows fields)
    (hv : Table.get? fields name = some o) (ho : Json.Definite o) :
    (r.map Reading.of).fieldOr? name none (Reading.nullable? fun x => x.tree.toJson?) =
      some o := by
  rw [optional_of]
  simp only [Reading.tree_of]
  exact hr.definite hv ho

variable (name) in
/-- A list of schemas is read back if the schemas are. -/
theorem schemas_of_shows {ss : List Schema} (hr : r.Shows fields)
    (hv : Table.get? fields name = some (Json.ofNonempty toJson ss))
    (hss : ∀ t ∈ ss, ofTree? (Tree.ofJson t.toJson) = some t) :
    (r.map Reading.of).fieldOr? name [] Reading.schemas = some ss := by
  rw [schemas_of]
  exact hr.nonempty hv hss

/-- A list of values is read back if the keys of their objects are distinct. -/
theorem list?_values {values : List Json} (h : ∀ v ∈ values, v.WellKeyed) :
    (Tree.ofJson (.array values)).list? Tree.toJson? = some values := by
  have hread : (Tree.ofJson (.array (values.map id))).list? Tree.toJson? = some values :=
    Tree.list?_ofJson fun v hv => Tree.toJson?_ofJson (h v hv)
  rwa [List.map_id] at hread

end Keywords

/-- **A schema is read back** if its own keywords are regular and the schemas inside are read
back. -/
theorem ofTree?_toJson_of_inside (hs : s.RegularKeywords)
    (h : ∀ t, Inside t s → ofTree? (Tree.ofJson t.toJson) = some t) :
    ofTree? (Tree.ofJson s.toJson) = some s := by
  obtain ⟨declaredType, reference, properties, required, items, enumeration, constant, allOf,
    oneOf, anyOf, discriminator, additional, format, nullable, default, description, title⟩ := s
  rw [toJson, ofTree?_eq, nonemptyTable_eq, optional_eq, nonemptyList_eq, nonemptyList_eq,
    nonemptyList_eq, additionalJson_eq]
  refine Record.read_record rfl (by decide) fun r hr => ?_
  have htype : (r.map Reading.of).fieldOr? "type" none
      (Reading.nullable? fun x => TypeNames.ofTree? x.tree) = some declaredType :=
    keyword_of_shows hr rfl fun names _ =>
      ⟨by cases names <;> simp [TypeNames.toJson], names.ofTree?_toJson⟩
  have hproperties : (r.map Reading.of).fieldOr? "properties" [] Reading.table =
      some properties := by
    rw [table_of]
    exact hr.nonemptyTable rfl hs.properties fun e he => h e.2 (.property he)
  have hrequired : (r.map Reading.of).fieldOr? "required" []
      (fun x => x.tree.list? Tree.string?) = some required := by
    rw [Record.fieldOr?_map]
    simp only [Reading.tree_of]
    exact hr.nonempty rfl fun _ _ => rfl
  have hitems : (r.map Reading.of).fieldOr? "items" none
      (Reading.nullable? Reading.schema) = some items := by
    rw [optional_of]
    exact hr.optional rfl fun t ht => ⟨t.toJson_ne_null, h t (.items ht)⟩
  have henumeration : (r.map Reading.of).fieldOr? "enum" none
      (Reading.nullable? fun x => x.tree.list? Tree.toJson?) = some enumeration :=
    keyword_of_shows hr rfl fun values hvalues =>
      ⟨by simp, list?_values (hs.enumeration values hvalues)⟩
  have hdiscriminator : (r.map Reading.of).fieldOr? "discriminator" none
      (Reading.nullable? fun x => Discriminator.ofTree? x.tree) = some discriminator :=
    keyword_of_shows hr rfl fun D hD =>
      ⟨by simp [Discriminator.toJson, Json.record], D.ofTree?_toJson (hs.mapping D hD)⟩
  have hadditional : (r.map Reading.of).fieldOr? "additionalProperties" none
      (Reading.nullable? Reading.additional?) = some additional := by
    rw [optional_of]
    refine hr.optional rfl fun a ha => ⟨?_, additional?_ofJson fun t ht => ?_⟩
    · cases a with
      | permitted b => simp [permissionJson]
      | schema t => exact t.toJson_ne_null
    · exact h t (.additional (by rw [ha, ht]))
  have hnullable : (r.map Reading.of).fieldOr? "nullable" none
      (Reading.nullable? fun x => x.tree.bool?) = some nullable :=
    keyword_of_shows hr rfl fun _ _ => ⟨by simp, rfl⟩
  simp [ofRecord?, htype, hproperties, hrequired, hitems, henumeration, hdiscriminator,
    hadditional, hnullable, text_of_shows "$ref" hr rfl,
    value_of_shows "const" hr rfl hs.constant,
    schemas_of_shows "allOf" hr rfl fun t ht => h t (.allOf ht),
    schemas_of_shows "oneOf" hr rfl fun t ht => h t (.oneOf ht),
    schemas_of_shows "anyOf" hr rfl fun t ht => h t (.anyOf ht),
    text_of_shows "format" hr rfl, value_of_shows "default" hr rfl hs.default,
    text_of_shows "description" hr rfl, text_of_shows "title" hr rfl]

/-- **A regular schema is read back as it was.** -/
theorem ofTree?_toJson : ∀ {s : Schema}, s.Regular → ofTree? (Tree.ofJson s.toJson) = some s
  | _, h => ofTree?_toJson_of_inside h.keywords fun _ ht => ofTree?_toJson (h.inside ht)
termination_by s => s.size
decreasing_by exact ht.size_lt

/-- The keys of what is written are distinct if those of the schemas inside are. -/
theorem wellKeyed_toJson_of_inside (hs : s.RegularKeywords)
    (h : ∀ t, Inside t s → t.toJson.WellKeyed) : s.toJson.WellKeyed := by
  obtain ⟨declaredType, reference, properties, required, items, enumeration, constant, allOf,
    oneOf, anyOf, discriminator, additional, format, nullable, default, description, title⟩ := s
  rw [toJson, nonemptyTable_eq, optional_eq, nonemptyList_eq, nonemptyList_eq, nonemptyList_eq,
    additionalJson_eq]
  refine Json.wellKeyed_record (show fieldNames.Nodup by decide) ?_
  simp only [List.forall_mem_cons, List.not_mem_nil, false_imp_iff, implies_true, and_true]
  refine ⟨Json.wellKeyed_map fun names _ => ?_, Json.wellKeyed_map fun _ _ => trivial,
    Json.wellKeyed_nonemptyTable hs.properties fun e he => h e.2 (.property he),
    Json.wellKeyed_ofNonempty fun _ _ => trivial,
    Json.wellKeyed_map fun t ht => h t (.items ht), Json.wellKeyed_map fun values hvalues =>
      Json.wellKeyedItems_iff.2 (hs.enumeration values hvalues),
    fun v hv => (hs.constant v hv).2, Json.wellKeyed_ofNonempty fun t ht => h t (.allOf ht),
    Json.wellKeyed_ofNonempty fun t ht => h t (.oneOf ht),
    Json.wellKeyed_ofNonempty fun t ht => h t (.anyOf ht),
    Json.wellKeyed_map fun D hD => D.wellKeyed_toJson (hs.mapping D hD),
    Json.wellKeyed_map fun a ha => ?_, Json.wellKeyed_map fun _ _ => trivial,
    Json.wellKeyed_map fun _ _ => trivial, fun v hv => (hs.default v hv).2,
    Json.wellKeyed_map fun _ _ => trivial, Json.wellKeyed_map fun _ _ => trivial⟩
  · cases names with
    | single name => trivial
    | multiple names => exact Json.wellKeyedItems_iff.2 (by simp [Json.WellKeyed])
  · cases a with
    | permitted b => trivial
    | schema t => exact h t (.additional ha)

/-- The keys of what is written for a regular schema are distinct. -/
theorem wellKeyed_toJson : ∀ {s : Schema}, s.Regular → s.toJson.WellKeyed
  | _, h => wellKeyed_toJson_of_inside h.keywords fun _ ht => wellKeyed_toJson (h.inside ht)
termination_by s => s.size
decreasing_by exact ht.size_lt

/-! ### Schemas that were read -/

end Schema

/-- The keys of a table that was read are distinct. -/
theorem Record.nodup_of_tableOr {α : Type} {read : Tree → Option α} {r : Record Tree}
    {name : String} {t : Table String α} (h : r.fieldOr? name [] (Tree.table? read) = some t) :
    (Table.keys t).Nodup := by
  rcases Record.reads_of_fieldOr? h with rfl | ⟨e, -, hread⟩
  · exact .nil
  · unfold Tree.table? at hread
    split at hread
    · obtain ⟨entries, -, rfl⟩ := Option.map_eq_some_iff.1 hread
      exact Table.nodup_keys_ofEntries entries
    · simp at hread

theorem Discriminator.nodup_of_ofTree? {t : Tree} {D : Discriminator}
    (h : Discriminator.ofTree? t = some D) : (Table.keys D.mapping).Nodup := by
  simp only [Discriminator.ofTree?, Option.bind_eq_bind, Option.bind_eq_some_iff, Option.pure_def,
    Option.some.injEq] at h
  obtain ⟨r, -, propertyName, -, mapping, hmapping, rfl⟩ := h
  exact Record.nodup_of_tableOr hmapping

namespace Schema

/-- An optional keyword is missing or read from some tree. -/
theorem reads_of_optional {α : Type} {read : Reading → Option α} {r : Record Tree} {name : String}
    {a : α} (h : (r.map Reading.of).fieldOr? name none (Reading.nullable? read) = some (some a)) :
    ∃ t, read (Reading.of t) = some a := by
  rw [optional_of] at h
  exact Record.reads_of_optional h

/-- **The keywords of a schema that was read are regular**, and the schemas inside were read. -/
theorem reads_of_ofTree? {tree : Tree} (h : ofTree? tree = some s) :
    s.RegularKeywords ∧ ∀ t, Inside t s → ∃ tree', ofTree? tree' = some t := by
  have hvalues := (valued_of_ofTree? h).values
  rw [ofTree?_eq] at h
  obtain ⟨r, -, h⟩ := Option.bind_eq_some_iff.1 h
  have hread := readFrom_of_ofRecord? h
  refine ⟨⟨hvalues.default, ?_, hvalues.enumeration, ?_, fun D hD => ?_⟩, fun t ht => ?_⟩
  · have hfield := hread.constant
    rw [optional_of] at hfield
    simp only [Reading.tree_of] at hfield
    exact Record.definite_of_fieldOr? hfield
  · exact Record.nodup_of_tableOr ((table_of r "properties").symm.trans hread.properties)
  · obtain ⟨tree', hD⟩ := reads_of_optional (hread.discriminator.trans (congrArg some hD))
    exact Discriminator.nodup_of_ofTree? hD
  · cases ht with
    | @property _ p hp =>
      exact Record.reads_of_tableOr ((table_of r "properties").symm.trans hread.properties) p hp
    | items ht => exact reads_of_optional (hread.items.trans (congrArg some ht))
    | additional ht =>
      obtain ⟨tree', ht⟩ := reads_of_optional (hread.additional.trans (congrArg some ht))
      exact ⟨tree', Reading.schema_of_additional? ht⟩
    | allOf ht =>
      exact Record.reads_of_listOr ((schemas_of r "allOf").symm.trans hread.allOf) t ht
    | oneOf ht =>
      exact Record.reads_of_listOr ((schemas_of r "oneOf").symm.trans hread.oneOf) t ht
    | anyOf ht =>
      exact Record.reads_of_listOr ((schemas_of r "anyOf").symm.trans hread.anyOf) t ht

/-- **A schema that was read is regular.** -/
theorem regular_of_ofTree? {tree : Tree} (h : ofTree? tree = some s) : s.Regular := by
  intro t ht
  have hread : ∃ tree', ofTree? tree' = some t := by
    induction ht using Relation.ReflTransGen.head_induction_on with
    | refl => exact ⟨tree, h⟩
    | head hinside _ ih =>
      obtain ⟨tree', ht⟩ := ih
      exact (reads_of_ofTree? ht).2 _ hinside
  obtain ⟨tree', ht⟩ := hread
  exact (reads_of_ofTree? ht).1

end Schema

end ApiBinding
