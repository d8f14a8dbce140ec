import ApiBinding.Client.Decode
import ApiBinding.Client.Encode
import ApiBinding.Proofs.Json.Trees

/-!
# Interfaces that are written and read back

Every type is read back from its value, at whatever time the part that it stands in is read.  The
same goes for all other parts of an interface, except for what the written form cannot tell apart:
a default that is `null` is taken for a missing one, equal keys of an object are entered once, and
so are equal statuses.  An interface without these is writable.

## Main definitions

* `StatusKey.Valid` — the keys that have a written form.
* `Interface.Valued` — what is said of defaults holds in the interface.
* `Interface.Writable` — nothing is lost when the interface is written.
* `Interface.defaults` — the defaults in an interface.

## Main results

* `TypeRef.readWhen?_toJson` — types are read back.
* `Interface.ofTree?_toJson_iff` — **an interface is read back as it was if and only if it is
  writable.**
* `Interface.writable_of_ofTree?` — **what is read is writable**, whatever it is read from.
* `Interface.writable_iff` — where only defaults may be lost, an interface is writable if and only
  if none of them is `null`.
-/

namespace ApiBinding

/-! ### Types -/

namespace TypeRef

/-- An object that has a kind and a content, in this order, is read as the type of this kind. -/
theorem readWhen?_tagged (timing : Tree.Timing) (word : String) (content : Json) :
    readWhen? timing (Tree.ofJson (tagged word content)) =
      (Table.get? Kind.words word).bind fun kind =>
        ofParts? timing kind (some (Reading.of (Tree.ofJson content))) := by
  rfl

theorem types_ofJson_array (timing : Tree.Timing) (items : List Json) :
    (Reading.of (Tree.ofJson (.array items))).types timing =
      (Reading.ofItems (Tree.ofItems items)).mapM fun x => x.type timing := rfl

mutual

/-- **A type is read back from its value**, at whatever time it is read. -/
theorem readWhen?_toJson (timing : Tree.Timing) :
    ∀ t : TypeRef, readWhen? timing (Tree.ofJson t.toJson) = some t
  | .any => rfl
  | .scalar kind => by
    rw [toJson, readWhen?_tagged]
    cases kind <;> rfl
  | .reference name => by
    rw [toJson, readWhen?_tagged]
    rfl
  | .list item => by
    have h : (Reading.of (Tree.ofJson item.toJson)).type timing = some item :=
      readWhen?_toJson timing item
    rw [toJson, readWhen?_tagged]
    exact congrArg (Option.map TypeRef.list) h
  | .dict value => by
    have h : (Reading.of (Tree.ofJson value.toJson)).type timing = some value :=
      readWhen?_toJson timing value
    rw [toJson, readWhen?_tagged]
    exact congrArg (Option.map TypeRef.dict) h
  | .optional inner => by
    have h : (Reading.of (Tree.ofJson inner.toJson)).type timing = some inner :=
      readWhen?_toJson timing inner
    rw [toJson, readWhen?_tagged]
    exact congrArg (Option.map TypeRef.optional) h
  | .union members => by
    have h := types_ofJson_array timing (listJson members)
    rw [mapM_listJson timing members] at h
    rw [toJson, readWhen?_tagged]
    exact congrArg (Option.map TypeRef.union) h

/-- The types of a list are read back. -/
theorem mapM_listJson (timing : Tree.Timing) : ∀ ts : List TypeRef,
    (Reading.ofItems (Tree.ofItems (listJson ts))).mapM (fun x => x.type timing) = some ts
  | [] => rfl
  | t :: rest => by
    have h : (Reading.of (Tree.ofJson t.toJson)).type timing = some t := readWhen?_toJson timing t
    simp only [listJson, Tree.ofItems, Reading.ofItems, List.mapM_cons, h,
      mapM_listJson timing rest, Option.pure_def, Option.bind_eq_bind, Option.bind_some]

end

theorem ofTree?_toJson (t : TypeRef) : ofTree? (Tree.ofJson t.toJson) = some t :=
  readWhen?_toJson .atOnce t

theorem setAside?_toJson (t : TypeRef) : setAside? (Tree.ofJson t.toJson) = some t :=
  readWhen?_toJson .setAside t

/-- The value of a type is an object. -/
theorem toJson_ne_null (t : TypeRef) : t.toJson ≠ .null := by
  cases t <;> simp [toJson, tagged]

end TypeRef

/-! ### Keys of responses -/

namespace StatusKey

/-- The keys that have a written form: codes of three digits and classes of codes, both with a first
digit from 1 to 5, and the default. -/
def Valid : StatusKey → Prop
  | .code value => 100 ≤ value ∧ value < 600
  | .range hundreds => 1 ≤ hundreds ∧ hundreds ≤ 5
  | .default => True

theorem digitValue_le {c : Char} (h : c.isDigit) : digitValue c ≤ 9 := by
  have hc : c.toNat ≤ '9'.toNat := by
    simp only [Char.isDigit, Bool.and_eq_true, decide_eq_true_eq] at h
    exact h.2
  have hnine : '9'.toNat = 57 := rfl
  have hzero : '0'.toNat = 48 := rfl
  unfold digitValue
  omega

/-- A key that is read is valid. -/
theorem valid_of_ofText? {text : String} {key : StatusKey} (h : ofText? text = some key) :
    key.Valid := by
  unfold ofText? at h
  split at h
  · cases h
    trivial
  · split at h
    · rename_i a b c _
      split at h
      · rename_i ha
        have hlow : '1'.toNat ≤ a.toNat := ha.1
        have hhigh : a.toNat ≤ '5'.toNat := ha.2
        have hfirst : 1 ≤ digitValue a ∧ digitValue a ≤ 5 := by
          have hone : '1'.toNat = 49 := rfl
          have hfive : '5'.toNat = 53 := rfl
          have hzero : '0'.toNat = 48 := rfl
          unfold digitValue
          omega
        split at h
        · cases h
          exact hfirst
        · split at h
          · rename_i hdigits
            cases h
            have hb := digitValue_le hdigits.1
            have hc := digitValue_le hdigits.2
            show 100 ≤ _ ∧ _ < 600
            omega
          · simp at h
      · simp at h
    · simp at h

theorem ofText?_text_code :
    ∀ value < 600, 100 ≤ value → ofText? (text (.code value)) = some (.code value) := by
  decide +kernel

theorem ofText?_text_range : ∀ hundreds ≤ 5, 1 ≤ hundreds →
    ofText? (text (.range hundreds)) = some (.range hundreds) := by
  decide +kernel

/-- **A valid key is read back from its text.** -/
theorem ofText?_text {key : StatusKey} (h : key.Valid) : ofText? key.text = some key := by
  cases key with
  | code value => exact ofText?_text_code value h.2 h.1
  | range hundreds => exact ofText?_text_range hundreds h.2 h.1
  | default => rfl

end StatusKey

/-! ### Models -/

open Json (Definite)

/-- What is said of defaults holds of those in the body, and the keys of objects are distinct in its
members. -/
def ModelBody.Valued (D : Option Json → Prop) : ModelBody → Prop
  | .object fields _ => ∀ f ∈ fields, D f.default
  | .enumeration members => ∀ m ∈ members, m.value.WellKeyed
  | .union _ _ => True
  | .alias _ => True

/-- A string is read where `null` stands for a missing one. -/
theorem string_ne_null {o : Option String} : ∀ s, o = some s →
    Json.string s ≠ .null ∧ (Tree.ofJson (.string s)).string? = some s :=
  fun _ _ => ⟨by simp, rfl⟩

theorem Field.ofTree?_toJson {f : Field} (h : Definite f.default) :
    Field.ofTree? (Tree.ofJson f.toJson) = some f := by
  refine Record.read_record rfl (by simp) fun r hr => ?_
  have hname : r.field? "name" Tree.string? = some f.name := hr.field? rfl rfl
  have hwire : r.field? "wire_name" Tree.string? = some f.wireName := hr.field? rfl rfl
  have htype : r.field? "ty" TypeRef.setAside? = some f.type :=
    hr.field? rfl f.type.setAside?_toJson
  have hrequired : r.field? "required" Tree.bool? = some f.required := hr.field? rfl rfl
  have hdocstring : r.fieldOr? "docstring" none (Tree.nullable? Tree.string?) = some f.docstring :=
    hr.optional rfl string_ne_null
  have hdefault : r.fieldOr? "default" none (Tree.nullable? Tree.toJson?) = some f.default :=
    hr.definite rfl h
  simp [hname, hwire, htype, hrequired, hdocstring, hdefault]

theorem EnumMember.ofTree?_toJson {m : EnumMember} (h : m.value.WellKeyed) :
    EnumMember.ofTree? (Tree.ofJson m.toJson) = some m := by
  refine Record.read_object rfl (by simp) fun r hr => ?_
  have hname : r.field? "name" Tree.string? = some m.name := hr.field? rfl rfl
  have hvalue : r.field? "value" Tree.toJson? = some m.value :=
    hr.field? rfl (Tree.toJson?_ofJson h)
  simp [hname, hvalue]

theorem UnionVariant.ofTree?_toJson (v : UnionVariant) :
    UnionVariant.ofTree? (Tree.ofJson v.toJson) = some v := by
  refine Record.read_record rfl (by simp) fun r hr => ?_
  have htype : r.field? "ty" TypeRef.setAside? = some v.type :=
    hr.field? rfl v.type.setAside?_toJson
  have htag : r.fieldOr? "tag" none (Tree.nullable? Tree.string?) = some v.tag :=
    hr.optional rfl string_ne_null
  simp [htype, htag]

theorem Membership.ofTree?_toJson (m : Membership) :
    Membership.ofTree? (Tree.ofJson m.toJson) = some m := by
  refine Record.read_object rfl (by simp) fun r hr => ?_
  have hunion : r.field? "union" Tree.string? = some m.union := hr.field? rfl rfl
  have hproperty : r.field? "property" Tree.string? = some m.property := hr.field? rfl rfl
  have htag : r.field? "tag" Tree.string? = some m.tag := hr.field? rfl rfl
  simp [hunion, hproperty, htag]

namespace ModelBody

/-- A body is read as the record of its kind, which skips the kind. -/
theorem ofTree?_record {word : String} {kind : Kind} {fields : List (String × Option Json)}
    {body : ModelBody} (hkind : Table.get? Kind.words word = some kind)
    (hnames : Table.keys fields = fieldNames kind)
    (hread : ∀ r : Record Tree, r.Shows fields → ofRecord? kind r = some body) :
    ofTree? (Tree.ofJson (.record (("kind", some (.string word)) :: fields))) = some body := by
  have hskip : (fieldNames kind).contains "kind" = false := by cases kind <;> rfl
  have hnodup : (fieldNames kind).Nodup := by cases kind <;> decide
  have hrecord := Record.read_record hnames hnodup hread
  have hsound := Tree.sound_ofJson (.record (("kind", some (.string word)) :: fields))
  have hentries : Record.ofEntries? (fieldNames kind)
      (("kind", Tree.string word) :: Tree.ofEntries (Json.present fields)) =
      Record.ofTree? (fieldNames kind) (Tree.ofJson (.record fields)) := by
    unfold Record.ofEntries?
    rw [List.filter_cons_of_neg (by simp only [hskip, Bool.false_eq_true, not_false_iff])]
    rfl
  unfold ofTree?
  rw [hsound, if_neg (by simp)]
  show ((Table.get? Kind.words word).bind fun kind =>
    (Record.ofEntries? (fieldNames kind)
      (("kind", Tree.string word) :: Tree.ofEntries (Json.present fields))).bind
        (ofRecord? kind)) = some body
  rw [hkind, Option.bind_some, hentries]
  exact hrecord

/-- **The body of a model is read back** if its defaults are definite. -/
theorem ofTree?_toJson : ∀ {body : ModelBody}, body.Valued Definite →
    ofTree? (Tree.ofJson body.toJson) = some body
  | .object fields additional, h => by
    refine ofTree?_record rfl rfl fun r hr => ?_
    have hfields : r.field? "fields" (Tree.list? Field.ofTree?) = some fields :=
      hr.field? rfl (Tree.list?_ofJson fun f hf => Field.ofTree?_toJson (h f hf))
    have hadditional : r.fieldOr? "additional_properties" none
        (Tree.nullable? TypeRef.setAside?) = some additional :=
      hr.optional rfl fun t _ => ⟨t.toJson_ne_null, t.setAside?_toJson⟩
    simp [ofRecord?, hfields, hadditional]
  | .enumeration members, h => by
    refine ofTree?_record rfl rfl fun r hr => ?_
    have hmembers : r.field? "members" (Tree.list? EnumMember.ofTree?) = some members :=
      hr.field? rfl (Tree.list?_ofJson fun m hm => EnumMember.ofTree?_toJson (h m hm))
    simp [ofRecord?, hmembers]
  | .union variants discriminator, _ => by
    refine ofTree?_record rfl rfl fun r hr => ?_
    have hvariants : r.field? "variants" (Tree.list? UnionVariant.ofTree?) = some variants :=
      hr.field? rfl (Tree.list?_ofJson fun v _ => v.ofTree?_toJson)
    have hdiscriminator : r.fieldOr? "discriminator" none (Tree.nullable? Tree.string?) =
        some discriminator := hr.optional rfl string_ne_null
    simp [ofRecord?, hvariants, hdiscriminator]
  | .alias target, _ => by
    refine ofTree?_record rfl rfl fun r hr => ?_
    have htarget : r.field? "target" TypeRef.setAside? = some target :=
      hr.field? rfl target.setAside?_toJson
    simp [ofRecord?, htarget]

end ModelBody

/-- **A model is read back** if its defaults are definite. -/
theorem Model.ofTree?_toJson {m : Model} (h : m.body.Valued Definite) :
    Model.ofTree? (Tree.ofJson m.toJson) = some m := by
  refine Record.read_record rfl (by simp) fun r hr => ?_
  have hname : r.field? "name" Tree.string? = some m.name := hr.field? rfl rfl
  have hsource : r.lenient? "source_name" (Tree.nullable? Tree.string?) = some m.sourceName :=
    hr.lenient? rfl (Tree.nullable?_ofString? m.sourceName)
  have hdocstring : r.lenient? "docstring" (Tree.nullable? Tree.string?) = some m.docstring :=
    hr.lenient? rfl (Tree.nullable?_ofString? m.docstring)
  have hbody : r.field? "kind" ModelBody.ofTree? = some m.body :=
    hr.field? rfl (ModelBody.ofTree?_toJson h)
  have hvariantOf : r.fieldOr? "variant_of" [] (Tree.list? Membership.ofTree?) =
      some m.variantOf := hr.nonempty rfl fun p _ => p.ofTree?_toJson
  simp [hname, hsource, hdocstring, hbody, hvariantOf]

/-! ### Endpoints -/

/-- What is said of defaults holds of those of the parameters, and the statuses of the responses are
distinct and have a written form. -/
structure Endpoint.Valued (D : Option Json → Prop) (e : Endpoint) : Prop where
  parameters : ∀ p ∈ e.parameters, D p.default
  distinct : (Table.keys e.responses).Nodup
  valid : ∀ key ∈ Table.keys e.responses, key.Valid

theorem EndpointParameter.ofTree?_toJson {p : EndpointParameter} (h : Definite p.default) :
    EndpointParameter.ofTree? (Tree.ofJson p.toJson) = some p := by
  refine Record.read_record rfl (by simp) fun r hr => ?_
  have hname : r.field? "name" Tree.string? = some p.name := hr.field? rfl rfl
  have hwire : r.field? "wire_name" Tree.string? = some p.wireName := hr.field? rfl rfl
  have hword : Table.get? ParameterPlace.words p.place.name = some p.place := by
    cases p.place <;> rfl
  have hplace : r.field? "location" (Tree.word? ParameterPlace.words) = some p.place :=
    hr.field? rfl hword
  have htype : r.field? "type" TypeRef.ofTree? = some p.type := hr.field? rfl p.type.ofTree?_toJson
  have hrequired : r.field? "required" Tree.bool? = some p.required := hr.field? rfl rfl
  have hdefault : r.fieldOr? "default_value" none (Tree.nullable? Tree.toJson?) =
      some p.default := hr.definite rfl h
  have hdescription : r.fieldOr? "description" none (Tree.nullable? Tree.string?) =
      some p.description := hr.optional rfl string_ne_null
  have hdeprecated : r.fieldOr? "deprecated" false Tree.bool? = some p.deprecated :=
    hr.fieldOr? rfl rfl
  simp [hname, hwire, hplace, htype, hrequired, hdefault, hdescription, hdeprecated]

/-- The body of a response is read back: `null` is an empty body, and no type is `null`. -/
theorem nullable?_bodyJson (body : Option TypeRef) :
    (Tree.ofJson (bodyJson body)).nullable? TypeRef.ofTree? = some body := by
  cases body with
  | none => rfl
  | some t => exact Tree.nullable?_ofJson t.toJson_ne_null t.ofTree?_toJson

theorem responseEntries?_ofEntries : ∀ {responses : Table StatusKey (Option TypeRef)},
    (∀ key ∈ Table.keys responses, key.Valid) →
      responseEntries? (Tree.ofEntries (responses.map fun e => (e.1.text, bodyJson e.2))) =
        some responses
  | [], _ => rfl
  | (key, body) :: rest, h => by
    have hkey := StatusKey.ofText?_text (h key (.head _))
    have hrest := responseEntries?_ofEntries fun key hk => h key (.tail _ hk)
    simp only [List.map_cons, Tree.ofEntries, responseEntries?, hkey, nullable?_bodyJson, hrest,
      Option.bind_eq_bind, Option.bind_some, Option.pure_def]

/-- **A table of responses is read back**, its order included. -/
theorem responsesOfTree?_toJson {responses : Table StatusKey (Option TypeRef)}
    (hdistinct : (Table.keys responses).Nodup)
    (hvalid : ∀ key ∈ Table.keys responses, key.Valid) :
    responsesOfTree? (Tree.ofJson (responsesJson responses)) = some responses := by
  rw [responsesJson, Tree.ofJson, responsesOfTree?, responseEntries?_ofEntries hvalid,
    Option.map_some, Table.ofEntries_eq hdistinct]

/-- **An endpoint is read back** if its defaults are definite. -/
theorem Endpoint.ofTree?_toJson {e : Endpoint} (h : e.Valued Definite) :
    Endpoint.ofTree? (Tree.ofJson e.toJson) = some e := by
  refine Record.read_record rfl (by simp) fun r hr => ?_
  have hname : r.field? "name" Tree.string? = some e.name := hr.field? rfl rfl
  have hid : r.fieldOr? "operation_id" none (Tree.nullable? Tree.string?) = some e.operationId :=
    hr.optional rfl string_ne_null
  have hword : Table.get? HttpMethod.words e.method.name = some e.method := by
    cases e.method <;> rfl
  have hmethod : r.field? "http_method" (Tree.word? HttpMethod.words) = some e.method :=
    hr.field? rfl hword
  have hpath : r.field? "path_template" Tree.string? = some e.path := hr.field? rfl rfl
  have hparameters : r.field? "parameters" (Tree.list? EndpointParameter.ofTree?) =
      some e.parameters :=
    hr.field? rfl (Tree.list?_ofJson fun p hp =>
      EndpointParameter.ofTree?_toJson (h.parameters p hp))
  have hbody : r.fieldOr? "request_body_type" none (Tree.nullable? TypeRef.ofTree?) =
      some e.requestBody :=
    hr.optional rfl fun t _ => ⟨t.toJson_ne_null, t.ofTree?_toJson⟩
  have hrequired : r.fieldOr? "request_body_required" false Tree.bool? =
      some e.requestBodyRequired := hr.fieldOr? rfl rfl
  have hresponses : r.field? "response_map" responsesOfTree? = some e.responses :=
    hr.field? rfl (responsesOfTree?_toJson h.distinct h.valid)
  have hdeprecated : r.fieldOr? "deprecated" false Tree.bool? = some e.deprecated :=
    hr.fieldOr? rfl rfl
  have hsummary : r.fieldOr? "summary" none (Tree.nullable? Tree.string?) = some e.summary :=
    hr.optional rfl string_ne_null
  have hdescription : r.fieldOr? "description" none (Tree.nullable? Tree.string?) =
      some e.description := hr.optional rfl string_ne_null
  simp [hname, hid, hmethod, hpath, hparameters, hbody, hrequired, hresponses, hdeprecated,
    hsummary, hdescription]

/-! ### Interfaces -/

/-- What is said of defaults holds in the whole interface. -/
structure Interface.Valued (D : Option Json → Prop) (i : Interface) : Prop where
  models : ∀ m ∈ i.models, m.body.Valued D
  endpoints : ∀ e ∈ i.endpoints, e.Valued D

/-- Nothing is lost when the interface is written: its defaults can be told from missing ones. -/
def Interface.Writable (i : Interface) : Prop := i.Valued Definite

/-- **A writable interface is read back as it was.** -/
theorem Interface.ofTree?_toJson {i : Interface} (h : i.Writable) :
    Interface.ofTree? (Tree.ofJson i.toJson) = some i := by
  refine Record.read_object rfl (by simp) fun r hr => ?_
  have hmodels : r.field? "models" (Tree.list? Model.ofTree?) = some i.models :=
    hr.field? rfl (Tree.list?_ofJson fun m hm => Model.ofTree?_toJson (h.models m hm))
  have hendpoints : r.field? "operations" (Tree.list? Endpoint.ofTree?) = some i.endpoints :=
    hr.field? rfl (Tree.list?_ofJson fun e he => Endpoint.ofTree?_toJson (h.endpoints e he))
  simp [hmodels, hendpoints]

/-! ### What is read is writable -/

theorem Field.definite_of_ofTree? {t : Tree} {f : Field} (h : Field.ofTree? t = some f) :
    Definite f.default := by
  simp only [Field.ofTree?, Option.bind_eq_bind, Option.bind_eq_some_iff, Option.pure_def,
    Option.some.injEq] at h
  obtain ⟨r, -, name, -, wireName, -, type, -, required, -, docstring, -, default, hdefault,
    rfl⟩ := h
  exact Record.definite_of_fieldOr? hdefault

theorem EnumMember.wellKeyed_of_ofTree? {t : Tree} {m : EnumMember}
    (h : EnumMember.ofTree? t = some m) : m.value.WellKeyed := by
  simp only [EnumMember.ofTree?, Option.bind_eq_bind, Option.bind_eq_some_iff, Option.pure_def,
    Option.some.injEq] at h
  obtain ⟨r, -, name, -, value, hvalue, rfl⟩ := h
  obtain ⟨t', -, ht'⟩ := Record.reads_of_field? hvalue
  exact Tree.wellKeyed_of_toJson? ht'

theorem ModelBody.valued_of_ofRecord? {kind : ModelBody.Kind} {r : Record Tree}
    {body : ModelBody} (h : ModelBody.ofRecord? kind r = some body) : body.Valued Definite := by
  cases kind with
  | object =>
    simp only [ModelBody.ofRecord?, Option.bind_eq_bind, Option.bind_eq_some_iff, Option.pure_def,
      Option.some.injEq] at h
    obtain ⟨fields, hfields, additional, -, rfl⟩ := h
    obtain ⟨t, -, ht⟩ := Record.reads_of_field? hfields
    intro f hf
    obtain ⟨t', ht'⟩ := Tree.reads_of_list? ht f hf
    exact Field.definite_of_ofTree? ht'
  | enumeration =>
    simp only [ModelBody.ofRecord?, Option.bind_eq_bind, Option.bind_eq_some_iff, Option.pure_def,
      Option.some.injEq] at h
    obtain ⟨members, hmembers, rfl⟩ := h
    obtain ⟨t, -, ht⟩ := Record.reads_of_field? hmembers
    intro m hm
    obtain ⟨t', ht'⟩ := Tree.reads_of_list? ht m hm
    exact EnumMember.wellKeyed_of_ofTree? ht'
  | union =>
    simp only [ModelBody.ofRecord?, Option.bind_eq_bind, Option.bind_eq_some_iff, Option.pure_def,
      Option.some.injEq] at h
    obtain ⟨variants, -, discriminator, -, rfl⟩ := h
    trivial
  | _ =>
    simp only [ModelBody.ofRecord?, Option.bind_eq_bind, Option.bind_eq_some_iff, Option.pure_def,
      Option.some.injEq] at h
    obtain ⟨target, -, rfl⟩ := h
    trivial

theorem ModelBody.valued_of_ofTree? {t : Tree} {body : ModelBody}
    (h : ModelBody.ofTree? t = some body) : body.Valued Definite := by
  unfold ModelBody.ofTree? at h
  split at h
  · simp at h
  · split at h
    all_goals
      simp only [Option.bind_eq_bind, Option.bind_eq_some_iff, reduceCtorEq] at h
    · obtain ⟨word, -, kind, -, r, -, h⟩ := h
      exact ModelBody.valued_of_ofRecord? h
    · obtain ⟨kind, -, r, -, h⟩ := h
      exact ModelBody.valued_of_ofRecord? h

theorem Model.valued_of_ofTree? {t : Tree} {m : Model} (h : Model.ofTree? t = some m) :
    m.body.Valued Definite := by
  simp only [Model.ofTree?, Option.bind_eq_bind, Option.bind_eq_some_iff, Option.pure_def,
    Option.some.injEq] at h
  obtain ⟨r, -, name, -, sourceName, -, docstring, -, body, hbody, variantOf, -, rfl⟩ := h
  obtain ⟨t', -, ht'⟩ := Record.reads_of_field? hbody
  exact ModelBody.valued_of_ofTree? ht'

theorem EndpointParameter.definite_of_ofTree? {t : Tree} {p : EndpointParameter}
    (h : EndpointParameter.ofTree? t = some p) : Definite p.default := by
  simp only [EndpointParameter.ofTree?, Option.bind_eq_bind, Option.bind_eq_some_iff,
    Option.pure_def, Option.some.injEq] at h
  obtain ⟨r, -, name, -, wireName, -, place, -, type, -, required, -, default, hdefault, h⟩ := h
  obtain ⟨description, -, deprecated, -, rfl⟩ := h
  exact Record.definite_of_fieldOr? hdefault

theorem valid_of_responseEntries? : ∀ {entries : List (String × Tree)}
    {found : List (StatusKey × Option TypeRef)}, responseEntries? entries = some found →
      ∀ e ∈ found, e.1.Valid
  | [], found, h => by
    rw [responseEntries?, Option.some.injEq] at h
    simp [← h]
  | (key, t) :: rest, found, h => by
    simp only [responseEntries?, Option.bind_eq_bind, Option.bind_eq_some_iff, Option.pure_def,
      Option.some.injEq] at h
    obtain ⟨status, hstatus, body, -, more, hmore, rfl⟩ := h
    intro e he
    rcases List.mem_cons.1 he with rfl | he
    · exact StatusKey.valid_of_ofText? hstatus
    · exact valid_of_responseEntries? hmore e he

theorem Endpoint.valued_of_ofTree? {t : Tree} {e : Endpoint} (h : Endpoint.ofTree? t = some e) :
    e.Valued Definite := by
  simp only [Endpoint.ofTree?, Option.bind_eq_bind, Option.bind_eq_some_iff, Option.pure_def,
    Option.some.injEq] at h
  obtain ⟨r, -, name, -, operationId, -, method, -, path, -, parameters, hparameters, h⟩ := h
  obtain ⟨requestBody, -, requestBodyRequired, -, responses, hresponses, h⟩ := h
  obtain ⟨deprecated, -, summary, -, description, -, rfl⟩ := h
  obtain ⟨tp, -, htp⟩ := Record.reads_of_field? hparameters
  obtain ⟨⟨key, tr⟩, -, htr⟩ := Record.reads_of_field? hresponses
  cases tr with
  | object entries =>
    obtain ⟨found, hfound, rfl⟩ := Option.map_eq_some_iff.1 htr
    refine ⟨fun p hp => ?_, Table.nodup_keys_ofEntries found, fun key hkey => ?_⟩
    · obtain ⟨t', ht'⟩ := Tree.reads_of_list? htp p hp
      exact EndpointParameter.definite_of_ofTree? ht'
    · obtain ⟨entry, hentry, rfl⟩ := List.mem_map.1 hkey
      exact valid_of_responseEntries? hfound entry (Table.mem_of_mem_ofEntries hentry)
  | _ => simp [responsesOfTree?] at htr

/-- **What is read is writable**, whatever it is read from. -/
theorem Interface.writable_of_ofTree? {t : Tree} {i : Interface}
    (h : Interface.ofTree? t = some i) : i.Writable := by
  simp only [Interface.ofTree?, Option.bind_eq_bind, Option.bind_eq_some_iff, Option.pure_def,
    Option.some.injEq] at h
  obtain ⟨r, -, models, hmodels, endpoints, hendpoints, rfl⟩ := h
  obtain ⟨tm, -, htm⟩ := Record.reads_of_field? hmodels
  obtain ⟨te, -, hte⟩ := Record.reads_of_field? hendpoints
  refine ⟨fun m hm => ?_, fun e he => ?_⟩
  · obtain ⟨t', ht'⟩ := Tree.reads_of_list? htm m hm
    exact Model.valued_of_ofTree? ht'
  · obtain ⟨t', ht'⟩ := Tree.reads_of_list? hte e he
    exact Endpoint.valued_of_ofTree? ht'

/-- **An interface is read back as it was if and only if it is writable.** -/
theorem Interface.ofTree?_toJson_iff {i : Interface} :
    Interface.ofTree? (Tree.ofJson i.toJson) = some i ↔ i.Writable :=
  ⟨Interface.writable_of_ofTree?, Interface.ofTree?_toJson⟩

/-! ### Defaults -/

/-- The defaults of the fields of an object. -/
def ModelBody.defaults : ModelBody → List (Option Json)
  | .object fields _ => fields.map Field.default
  | _ => []

/-- The defaults of the fields of models and of the parameters of endpoints. -/
def Interface.defaults (i : Interface) : List (Option Json) :=
  (i.models.flatMap fun m => m.body.defaults) ++
    i.endpoints.flatMap fun e => e.parameters.map EndpointParameter.default

theorem ModelBody.Valued.iff {D E : Option Json → Prop} {body : ModelBody} (h : body.Valued D) :
    body.Valued E ↔ ∀ o ∈ body.defaults, E o := by
  cases body with
  | object fields additional => simp [ModelBody.Valued, ModelBody.defaults]
  | enumeration members => exact ⟨fun _ => by simp [ModelBody.defaults], fun _ => h⟩
  | _ => simp [ModelBody.Valued, ModelBody.defaults]

theorem Endpoint.Valued.iff {D E : Option Json → Prop} {e : Endpoint} (h : e.Valued D) :
    e.Valued E ↔ ∀ p ∈ e.parameters, E p.default :=
  ⟨Endpoint.Valued.parameters, fun hE => { h with parameters := hE }⟩

/-- Only the defaults make a difference between two things that are said of defaults. -/
theorem Interface.Valued.iff {D E : Option Json → Prop} {i : Interface} (h : i.Valued D) :
    i.Valued E ↔ ∀ o ∈ i.defaults, E o := by
  simp only [Interface.defaults, List.mem_append, List.mem_flatMap, List.mem_map]
  constructor
  · rintro hE o (⟨m, hm, ho⟩ | ⟨e, he, p, hp, rfl⟩)
    · exact (h.models m hm).iff.1 (hE.models m hm) o ho
    · exact (hE.endpoints e he).parameters p hp
  · intro hE
    refine ⟨fun m hm => (h.models m hm).iff.2 fun o ho => hE o (.inl ⟨m, hm, ho⟩), ?_⟩
    exact fun e he => (h.endpoints e he).iff.2 fun p hp => hE _ (.inr ⟨e, he, p, hp, rfl⟩)

/-- **Where only defaults may be lost, an interface is writable if and only if none of them is
`null`.** -/
theorem Interface.writable_iff {i : Interface} (h : i.Valued Json.Keyed) :
    i.Writable ↔ some .null ∉ i.defaults := by
  have hkeyed := h.iff.1 h
  rw [Interface.Writable, h.iff]
  constructor
  · exact fun hdefinite hnull => (Json.definite_iff.1 (hdefinite _ hnull)).2 rfl
  · exact fun hno o ho => Json.definite_iff.2 ⟨hkeyed o ho, fun hnull => hno (hnull ▸ ho)⟩

end ApiBinding
