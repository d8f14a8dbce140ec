import ApiBinding.Document.Encode
import ApiBinding.Json.Record
import ApiBinding.Proofs.Tables

/-!
# Values that are written and read back

A value whose objects have distinct keys is what its own tree denotes, and every tree denotes such
a value.  A record that is written as an object without its missing fields is read back field by
field: a field that has a value is there, and no other is.

## Main definitions

* `Json.WellKeyed` — the keys of every object in a value are distinct.
* `Json.Definite` — a missing value, or one that cannot be taken for a missing one.
* `Json.Keyed` — a missing value, or one in which the keys of every object are distinct.
* `Record.Shows` — a record that has the fields of an object.

## Main results

* `Tree.toJson?_ofJson`, `Tree.wellKeyed_of_toJson?` — **the values with distinct keys are those
  that trees denote.**
* `Record.ofTree?_record` — the record of an object shows its fields.
-/

namespace ApiBinding

/-! ### Values with distinct keys -/

namespace Json

mutual

/-- The keys of every object in the value are distinct. -/
def WellKeyed : Json → Prop
  | .array items => WellKeyedItems items
  | .object entries => (Table.keys entries).Nodup ∧ WellKeyedEntries entries
  | _ => True

/-- The keys of every object in the items are distinct. -/
def WellKeyedItems : List Json → Prop
  | [] => True
  | v :: rest => WellKeyed v ∧ WellKeyedItems rest

/-- The keys of every object in the entries are distinct. -/
def WellKeyedEntries : List (String × Json) → Prop
  | [] => True
  | (_, v) :: rest => WellKeyed v ∧ WellKeyedEntries rest

end

theorem wellKeyedItems_iff : ∀ {items : List Json},
    WellKeyedItems items ↔ ∀ v ∈ items, v.WellKeyed
  | [] => by simp [WellKeyedItems]
  | v :: rest => by simp [WellKeyedItems, @wellKeyedItems_iff rest]

theorem wellKeyedEntries_iff : ∀ {entries : List (String × Json)},
    WellKeyedEntries entries ↔ ∀ e ∈ entries, e.2.WellKeyed
  | [] => by simp [WellKeyedEntries]
  | (k, v) :: rest => by simp [WellKeyedEntries, @wellKeyedEntries_iff rest]

/-- There is no value, or one that is not `null` and in which the keys of objects are distinct: a
reader that takes `null` for a missing value finds what was written. -/
def Definite (o : Option Json) : Prop := ∀ v, o = some v → v ≠ .null ∧ v.WellKeyed

/-- There is no value, or one in which the keys of objects are distinct. -/
def Keyed (o : Option Json) : Prop := ∀ v, o = some v → v.WellKeyed

theorem definite_none : Definite none := fun _ h => by simp at h

theorem keyed_none : Keyed none := fun _ h => by simp at h

/-- Besides equal keys, only `null` is not definite. -/
theorem definite_iff {o : Option Json} : Definite o ↔ Keyed o ∧ o ≠ some .null := by
  refine ⟨fun h => ⟨fun v hv => (h v hv).2, fun hnull => (h _ hnull).1 rfl⟩, ?_⟩
  rintro ⟨hkeyed, hnull⟩ v rfl
  exact ⟨fun hv => hnull (hv ▸ rfl), hkeyed v rfl⟩

end Json

/-! ### Trees of values -/

namespace Tree

mutual

/-- The tree of a value denotes the value. -/
theorem toJson?_ofJson : ∀ {v : Json}, v.WellKeyed → (ofJson v).toJson? = some v
  | .null, _ => rfl
  | .bool _, _ => rfl
  | .number _, _ => rfl
  | .string _, _ => rfl
  | .array items, h => by rw [ofJson, toJson?, toItems?_ofItems h, Option.map_some]
  | .object entries, ⟨hkeys, h⟩ => by
    rw [ofJson, toJson?, toEntries?_ofEntries h, Option.map_some, Table.ofEntries_eq hkeys]

theorem toItems?_ofItems : ∀ {items : List Json}, Json.WellKeyedItems items →
    toItems? (ofItems items) = some items
  | [], _ => rfl
  | v :: rest, ⟨hv, hrest⟩ => by
    simp [ofItems, toItems?, toJson?_ofJson hv, toItems?_ofItems hrest]

theorem toEntries?_ofEntries : ∀ {entries : List (String × Json)},
    Json.WellKeyedEntries entries → toEntries? (ofEntries entries) = some entries
  | [], _ => rfl
  | (k, v) :: rest, ⟨hv, hrest⟩ => by
    simp [ofEntries, toEntries?, toJson?_ofJson hv, toEntries?_ofEntries hrest]

end

mutual

/-- No part of the tree of a value is invalid. -/
theorem sound_ofJson : ∀ v : Json, (ofJson v).sound = true
  | .null => rfl
  | .bool _ => rfl
  | .number _ => rfl
  | .string _ => rfl
  | .array items => soundItems_ofItems items
  | .object entries => soundEntries_ofEntries entries

theorem soundItems_ofItems : ∀ items : List Json, soundItems (ofItems items) = true
  | [] => rfl
  | v :: rest => by
    rw [ofItems, soundItems, sound_ofJson v, soundItems_ofItems rest, Bool.and_self]

theorem soundEntries_ofEntries : ∀ entries : List (String × Json),
    soundEntries (ofEntries entries) = true
  | [] => rfl
  | (k, v) :: rest => by
    rw [ofEntries, soundEntries, sound_ofJson v, soundEntries_ofEntries rest, Bool.and_self]

end

theorem ofItems_eq_map : ∀ items : List Json, ofItems items = items.map ofJson
  | [] => rfl
  | v :: rest => by rw [ofItems, ofItems_eq_map rest, List.map_cons]

theorem ofEntries_eq_map : ∀ entries : List (String × Json),
    ofEntries entries = entries.map fun e => (e.1, ofJson e.2)
  | [] => rfl
  | (k, v) :: rest => by rw [ofEntries, ofEntries_eq_map rest, List.map_cons]

end Tree

/-! ### Values of trees -/

namespace Table

variable {κ α : Type} [DecidableEq κ]

/-- The keys of a table that is made of entries are distinct, whatever the entries. -/
theorem nodup_keys_ofEntries (entries : List (κ × α)) :
    (Table.keys (Table.ofEntries entries)).Nodup := by
  have hfold : ∀ (entries : List (κ × α)) (t : Table κ α), (Table.keys t).Nodup →
      (Table.keys (entries.foldl (fun t e => Table.insert t e.1 e.2) t)).Nodup := by
    intro entries
    induction entries with
    | nil => exact fun t ht => ht
    | cons e rest ih =>
      intro t ht
      refine ih _ ?_
      rw [keys_insert_eq_addNew]
      exact nodup_addNew ht e.1
  exact hfold entries [] List.nodup_nil

/-- What a table is made of are entries. -/
theorem mem_of_mem_ofEntries {entries : List (κ × α)} {e : κ × α}
    (he : e ∈ Table.ofEntries entries) : e ∈ entries := by
  have hfold : ∀ (entries : List (κ × α)) (t : Table κ α),
      e ∈ entries.foldl (fun t e => Table.insert t e.1 e.2) t → e ∈ t ∨ e ∈ entries := by
    intro entries
    induction entries with
    | nil => exact fun t he => .inl he
    | cons e' rest ih =>
      intro t he
      rcases ih _ he with he | he
      · rcases mem_insert he with rfl | he
        · exact .inr (.head _)
        · exact .inl he
      · exact .inr (.tail _ he)
  exact (hfold entries [] he).resolve_left (by simp)

end Table

namespace Tree

mutual

/-- **A tree denotes a value with distinct keys.** -/
theorem wellKeyed_of_toJson? : ∀ {t : Tree} {v : Json}, t.toJson? = some v → v.WellKeyed
  | .null, _, h => by cases h; trivial
  | .bool _, _, h => by cases h; trivial
  | .number _, _, h => by cases h; trivial
  | .string _, _, h => by cases h; trivial
  | .invalid, _, h => by simp [toJson?] at h
  | .array items, v, h => by
    rw [toJson?] at h
    obtain ⟨vs, hvs, rfl⟩ := Option.map_eq_some_iff.1 h
    exact wellKeyed_of_toItems? hvs
  | .object entries, v, h => by
    rw [toJson?] at h
    obtain ⟨es, hes, rfl⟩ := Option.map_eq_some_iff.1 h
    refine ⟨Table.nodup_keys_ofEntries es, Json.wellKeyedEntries_iff.2 fun e he => ?_⟩
    exact wellKeyed_of_toEntries? hes e (Table.mem_of_mem_ofEntries he)

theorem wellKeyed_of_toItems? : ∀ {items : List Tree} {vs : List Json},
    toItems? items = some vs → Json.WellKeyedItems vs
  | [], vs, h => by
    rw [toItems?, Option.some.injEq] at h
    exact h ▸ trivial
  | t :: rest, vs, h => by
    rw [toItems?] at h
    obtain ⟨v, hv, h⟩ := Option.bind_eq_some_iff.1 h
    obtain ⟨more, hmore, h⟩ := Option.bind_eq_some_iff.1 h
    cases h
    exact ⟨wellKeyed_of_toJson? hv, wellKeyed_of_toItems? hmore⟩

theorem wellKeyed_of_toEntries? : ∀ {entries : List (String × Tree)}
    {es : List (String × Json)}, toEntries? entries = some es → ∀ e ∈ es, e.2.WellKeyed
  | [], es, h => by
    rw [toEntries?, Option.some.injEq] at h
    simp [← h]
  | (k, t) :: rest, es, h => by
    rw [toEntries?] at h
    obtain ⟨v, hv, h⟩ := Option.bind_eq_some_iff.1 h
    obtain ⟨more, hmore, h⟩ := Option.bind_eq_some_iff.1 h
    cases h
    intro e he
    rcases List.mem_cons.1 he with rfl | he
    · exact wellKeyed_of_toJson? hv
    · exact wellKeyed_of_toEntries? hmore e he

end

/-- A value that is read where `null` stands for a missing one is definite. -/
theorem definite_of_nullable? {t : Tree} {o : Option Json}
    (h : t.nullable? toJson? = some o) : Json.Definite o := by
  intro v hv
  subst hv
  unfold nullable? at h
  split at h
  · simp at h
  · rename_i hnull
    obtain ⟨v', hv', heq⟩ := Option.map_eq_some_iff.1 h
    rw [Option.some.injEq] at heq
    subst heq
    refine ⟨fun hv => ?_, wellKeyed_of_toJson? hv'⟩
    -- No other tree denotes `null`.
    subst hv
    cases t <;> simp [toJson?] at hv' hnull

end Tree

/-! ### What is read -/

section Read

variable {α : Type} {read : Tree → Option α}

theorem exists_of_mem_mapM {β : Type} {f : β → Option α} :
    ∀ {xs : List β} {as : List α}, xs.mapM f = some as → ∀ a ∈ as, ∃ x ∈ xs, f x = some a
  | [], as, h => by
    rw [List.mapM_nil, Option.pure_def, Option.some.injEq] at h
    simp [← h]
  | x :: rest, as, h => by
    rw [List.mapM_cons] at h
    obtain ⟨b, hb, h⟩ := Option.bind_eq_some_iff.1 h
    obtain ⟨bs, hbs, h⟩ := Option.bind_eq_some_iff.1 h
    cases h
    intro a ha
    rcases List.mem_cons.1 ha with rfl | ha
    · exact ⟨x, .head _, hb⟩
    · obtain ⟨y, hy, hread⟩ := exists_of_mem_mapM hbs a ha
      exact ⟨y, .tail _ hy, hread⟩

theorem Table.exists_of_mem_mapM? {β κ : Type} {f : β → Option α} :
    ∀ {t : Table κ β} {u : Table κ α}, Table.mapM? f t = some u →
      ∀ e ∈ u, ∃ e' ∈ t, e'.1 = e.1 ∧ f e'.2 = some e.2
  | [], u, h => by
    rw [Table.mapM?, Option.some.injEq] at h
    simp [← h]
  | (k, x) :: rest, u, h => by
    rw [Table.mapM?] at h
    obtain ⟨b, hb, h⟩ := Option.bind_eq_some_iff.1 h
    obtain ⟨bs, hbs, h⟩ := Option.bind_eq_some_iff.1 h
    cases h
    intro e he
    rcases List.mem_cons.1 he with rfl | he
    · exact ⟨(k, x), .head _, rfl, hb⟩
    · obtain ⟨e', he', heq, hread⟩ := exists_of_mem_mapM? hbs e he
      exact ⟨e', .tail _ he', heq, hread⟩

/-- The items of a list are read one by one. -/
theorem Tree.reads_of_list? {t : Tree} {as : List α} (h : t.list? read = some as) :
    ∀ a ∈ as, ∃ t', read t' = some a := by
  cases t with
  | array items =>
    intro a ha
    obtain ⟨t', -, ht'⟩ := exists_of_mem_mapM h a ha
    exact ⟨t', ht'⟩
  | _ => simp [Tree.list?] at h

/-- The values of a table are read one by one. -/
theorem Tree.reads_of_table? {t : Tree} {table : Table String α}
    (h : t.table? read = some table) : ∀ e ∈ table, ∃ t', read t' = some e.2 := by
  cases t with
  | object entries =>
    obtain ⟨es, hes, rfl⟩ := Option.map_eq_some_iff.1 h
    intro e he
    obtain ⟨e', -, -, hread⟩ := Table.exists_of_mem_mapM? hes e (Table.mem_of_mem_ofEntries he)
    exact ⟨e'.2, hread⟩
  | _ => simp [Tree.table?] at h

/-- What is read in a mandatory field is read from what was written for it. -/
theorem Record.reads_of_field? {τ : Type} {read : τ → Option α} {r : Record τ} {name : String}
    {a : α} (h : r.field? name read = some a) : ∃ e ∈ r.fields, read e.2 = some a := by
  obtain ⟨x, hx, hread⟩ := Option.bind_eq_some_iff.1 h
  exact ⟨(name, x), Table.mem_of_get? hx, hread⟩

/-- What is read in another field is the value of its own, or read from what was written for it. -/
theorem Record.reads_of_fieldOr? {τ : Type} {read : τ → Option α} {r : Record τ} {name : String}
    {missing a : α} (h : r.fieldOr? name missing read = some a) :
    a = missing ∨ ∃ e ∈ r.fields, read e.2 = some a := by
  unfold Record.fieldOr? at h
  split at h
  · rename_i x hx
    exact .inr ⟨(name, x), Table.mem_of_get? hx, h⟩
  · rw [Option.some.injEq] at h
    exact .inl h.symm

/-- An optional value that is read in a field is definite. -/
theorem Record.definite_of_fieldOr? {r : Record Tree} {name : String} {o : Option Json}
    (h : r.fieldOr? name none (Tree.nullable? Tree.toJson?) = some o) : Json.Definite o := by
  rcases reads_of_fieldOr? h with rfl | ⟨e, -, he⟩
  · exact Json.definite_none
  · exact Tree.definite_of_nullable? he

end Read

/-! ### What is read back -/

namespace Tree

variable {α : Type} {write : α → Json} {read : Tree → Option α}

@[simp] theorem string?_ofJson (s : String) : (ofJson (.string s)).string? = some s := rfl

@[simp] theorem bool?_ofJson (b : Bool) : (ofJson (.bool b)).bool? = some b := rfl

/-- A list is read back if its items are. -/
theorem list?_ofJson {as : List α} (h : ∀ a ∈ as, read (ofJson (write a)) = some a) :
    (ofJson (.array (as.map write))).list? read = some as := by
  rw [ofJson, list?, ofItems_eq_map]
  induction as with
  | nil => rfl
  | cons a rest ih =>
    have hrest := ih fun b hb => h b (.tail _ hb)
    simp only [List.map_cons, List.mapM_cons, h a (.head _), hrest, Option.bind_eq_bind,
      Option.bind_some, Option.pure_def]

/-- Where `null` stands for a missing value, a value that is not `null` is read back. -/
theorem nullable?_ofJson {v : Json} {a : α} (hnull : v ≠ .null)
    (h : read (ofJson v) = some a) : (ofJson v).nullable? read = some (some a) := by
  cases v <;> first | exact absurd rfl hnull | exact congrArg (Option.map some) h

/-- A string or `null` is read back. -/
@[simp] theorem nullable?_ofString? (o : Option String) :
    (ofJson (.ofString? o)).nullable? string? = some o := by
  cases o <;> rfl

end Tree

/-! ### Records -/

namespace Json

/-- The fields of an object that have a value. -/
def present (fields : List (String × Option Json)) : List (String × Json) :=
  fields.filterMap fun f => f.2.map fun v => (f.1, v)

theorem record_eq (fields : List (String × Option Json)) :
    record fields = .object (present fields) := rfl

/-- The keys of the fields that have a value are some of the keys, in their order. -/
theorem keys_present_sublist (fields : List (String × Option Json)) :
    (Table.keys (present fields)).Sublist (Table.keys fields) := by
  induction fields with
  | nil => exact .slnil
  | cons f rest ih =>
    obtain ⟨k, o⟩ := f
    cases o with
    | none => exact ih.cons k
    | some v => exact ih.cons_cons k

theorem get?_present {fields : List (String × Option Json)} (h : (Table.keys fields).Nodup)
    (name : String) : Table.get? (present fields) name = (Table.get? fields name).join := by
  induction fields with
  | nil => rfl
  | cons f rest ih =>
    obtain ⟨k, o⟩ := f
    rw [Table.keys_cons, List.nodup_cons] at h
    have hrest := ih h.2
    by_cases hk : k = name
    · subst hk
      rw [Table.get?_cons, if_pos rfl, Option.join_some]
      cases o with
      | some v => simp [present]
      | none =>
        -- A key without a value does not stand among the others.
        have hnot : k ∉ Table.keys (present rest) :=
          fun hmem => h.1 ((keys_present_sublist rest).mem hmem)
        exact Table.get?_eq_none hnot
    · rw [Table.get?_cons, if_neg hk, ← hrest]
      cases o with
      | none => rfl
      | some v => simp [present, hk]

end Json

namespace Record

variable {α : Type} {r : Record Tree} {fields : List (String × Option Json)} {name : String}

/-- The record was written as an object, and has the fields with a value. -/
structure Shows (r : Record Tree) (fields : List (String × Option Json)) : Prop where
  named : r.named = true
  get? : ∀ name, r.get? name = (Table.get? fields name).join.map Tree.ofJson

/-- What is looked up among trees of values is the tree of what is looked up. -/
theorem get?_ofEntries (entries : List (String × Json)) (name : String) :
    Table.get? (Tree.ofEntries entries) name = (Table.get? entries name).map Tree.ofJson := by
  induction entries with
  | nil => rfl
  | cons e rest ih =>
    obtain ⟨k, v⟩ := e
    by_cases hk : k = name <;> simp [Tree.ofEntries, hk, ih]

/-- **The record of an object with distinct fields shows them.** -/
theorem ofTree?_record (h : (Table.keys fields).Nodup) :
    ∃ r, ofTree? (Table.keys fields) (Tree.ofJson (.record fields)) = some r ∧
      r.Shows fields := by
  have hsub := Json.keys_present_sublist fields
  have hkeys : ((Tree.ofEntries (Json.present fields)).map Prod.fst) =
      Table.keys (Json.present fields) := by
    simp [Tree.ofEntries_eq_map, Table.keys]
  -- All keys that are written are fields of the record.
  have hknown : (Tree.ofEntries (Json.present fields)).filter
      (fun e => (Table.keys fields).contains e.1) = Tree.ofEntries (Json.present fields) := by
    refine List.filter_eq_self.2 fun e he => ?_
    rw [List.contains_iff_mem]
    apply hsub.mem
    rw [← hkeys]
    exact List.mem_map_of_mem he
  refine ⟨⟨true, Tree.ofEntries (Json.present fields)⟩, ?_, rfl, fun name => ?_⟩
  · rw [Json.record_eq, Tree.ofJson, ofTree?, ofEntries?]
    simp only [hknown]
    rw [if_pos]
    rw [hkeys]
    exact hsub.nodup h
  · rw [Record.get?, get?_ofEntries, Json.get?_present h]

variable {names : List String} {read : Record Tree → Option α} {a : α}

/-- What is read from a record that shows the fields is read from the object. -/
theorem read_record (hnames : Table.keys fields = names) (h : names.Nodup)
    (hread : ∀ r : Record Tree, r.Shows fields → read r = some a) :
    (ofTree? names (Tree.ofJson (.record fields)) >>= read) = some a := by
  subst hnames
  obtain ⟨r, hr, hshows⟩ := ofTree?_record h
  rw [hr]
  exact hread r hshows

/-- An object whose fields all have values is read as a record, too. -/
theorem read_object {entries : List (String × Json)} (hnames : Table.keys entries = names)
    (h : names.Nodup)
    (hread : ∀ r : Record Tree, r.Shows (entries.map fun e => (e.1, some e.2)) →
      read r = some a) :
    (ofTree? names (Tree.ofJson (.object entries)) >>= read) = some a := by
  have hpresent : Json.present (entries.map fun e => (e.1, some e.2)) = entries := by
    simp [Json.present, List.filterMap_map]
  have hkeys : Table.keys (entries.map fun e => (e.1, some e.2)) = names := by
    rw [← hnames]
    simp [Table.keys]
  have hrecord := read_record hkeys h hread
  rwa [Json.record_eq, hpresent] at hrecord

namespace Shows

variable {v : Json}

/-- A field with a value is read. -/
theorem field? (h : r.Shows fields) {read : Tree → Option α}
    (hv : Table.get? fields name = some (some v)) (ha : read (Tree.ofJson v) = some a) :
    r.field? name read = some a := by
  rw [Record.field?, h.get?, hv]
  exact ha

/-- A field that is always written is read whatever it would be when missing. -/
theorem fieldOr? (h : r.Shows fields) {read : Tree → Option α} {missing : α}
    (hv : Table.get? fields name = some (some v)) (ha : read (Tree.ofJson v) = some a) :
    r.fieldOr? name missing read = some a := by
  have hget : r.get? name = some (Tree.ofJson v) := by
    rw [h.get?, hv]
    rfl
  rw [Record.fieldOr?, hget]
  exact ha

/-- A field that only an array may leave out is read. -/
theorem lenient? (h : r.Shows fields) {read : Tree → Option (Option α)} {o : Option α}
    (hv : Table.get? fields name = some (some v)) (ha : read (Tree.ofJson v) = some o) :
    r.lenient? name read = some o := by
  have hget : r.get? name = some (Tree.ofJson v) := by
    rw [h.get?, hv]
    rfl
  rw [Record.lenient?, hget]
  exact ha

/-- An optional field is read: it is missing when there is no value, and `null` stands for no
value that is written. -/
theorem optional (h : r.Shows fields) {read : Tree → Option α} {write : α → Json} {o : Option α}
    (hv : Table.get? fields name = some (o.map write))
    (ha : ∀ a, o = some a → write a ≠ .null ∧ read (Tree.ofJson (write a)) = some a) :
    r.fieldOr? name none (Tree.nullable? read) = some o := by
  cases o with
  | none =>
    have hget : r.get? name = none := by
      rw [h.get?, hv]
      rfl
    rw [Record.fieldOr?, hget]
  | some a =>
    obtain ⟨hnull, hread⟩ := ha a rfl
    exact h.fieldOr? hv (Tree.nullable?_ofJson hnull hread)

/-- An optional value is read, since no value that is written is `null`. -/
theorem definite (h : r.Shows fields) {o : Option Json} (hv : Table.get? fields name = some o)
    (ho : Json.Definite o) : r.fieldOr? name none (Tree.nullable? Tree.toJson?) = some o := by
  have hid : Table.get? fields name = some (o.map id) := by rw [hv, Option.map_id_fun, id]
  refine h.optional hid fun v heq => ?_
  obtain ⟨hnull, hkeyed⟩ := ho v heq
  exact ⟨hnull, Tree.toJson?_ofJson hkeyed⟩

/-- A list is read; it is missing when it is empty. -/
theorem nonempty (h : r.Shows fields) {read : Tree → Option α} {write : α → Json} {as : List α}
    (hv : Table.get? fields name = some (Json.ofNonempty write as))
    (ha : ∀ a ∈ as, read (Tree.ofJson (write a)) = some a) :
    r.fieldOr? name [] (Tree.list? read) = some as := by
  cases as with
  | nil =>
    have hget : r.get? name = none := by
      rw [h.get?, hv]
      rfl
    rw [Record.fieldOr?, hget]
  | cons a rest => exact h.fieldOr? hv (Tree.list?_ofJson ha)

end Shows

end Record

end ApiBinding
