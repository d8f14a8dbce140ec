import ApiBinding.Document.Basic
import Mathlib.Data.List.Forall2

/-!
# Two spellings of nullability

A schema admits `null` beside one type in two spellings: by the flag, `type: T` with
`nullable: true`, or in the list of its types, `type: [T, "null"]` or `["null", T]` without the
flag.  A description is respelled by rewriting the first spelling into the second in any of its
schemas, wherever they stand; everything else in it stays what it is.

## Main definitions

* `Table.Rel`, `Additional.Rel` — tables with the same keys and related values; the same permission
  or related schemas.
* `NullSpelling` — what the keywords `type` and `nullable` may be rewritten into.
* `Schema.Respells`, `Document.Respells` — a schema or a description with some of its schemas
  respelled.

## Main results

* `Schema.Respells.typeNames_eq`, `Schema.Respells.isNullable_eq`, `Schema.Respells.isNullType_eq` —
  both spellings say the same.
* `Schema.Respells.size_eq` — no schema is added.
-/

namespace ApiBinding

/-! ### Related parts -/

/-- Tables with the same keys in the same order, whose values are related. -/
inductive Table.Rel {κ α β : Type} (R : α → β → Prop) : List (κ × α) → List (κ × β) → Prop
  | nil : Rel R [] []
  | cons {key : κ} {a : α} {b : β} {t : List (κ × α)} {u : List (κ × β)} (head : R a b)
      (tail : Rel R t u) : Rel R ((key, a) :: t) ((key, b) :: u)

/-- The same permission, or related schemas. -/
inductive Additional.Rel {σ τ : Type} (R : σ → τ → Prop) : Additional σ → Additional τ → Prop
  | permitted (value : Bool) : Rel R (.permitted value) (.permitted value)
  | schema {s : σ} {t : τ} (h : R s t) : Rel R (.schema s) (.schema t)

theorem isSome_eq_of_rel {α β : Type} {R : α → β → Prop} {o : Option α} {p : Option β}
    (h : Option.Rel R o p) : o.isSome = p.isSome := by
  cases h <;> rfl

theorem exists_of_rel_some {α β : Type} {R : α → β → Prop} {o : Option α} {b : β}
    (h : Option.Rel R o (some b)) : ∃ a, o = some a ∧ R a b := by
  cases h with
  | some hab => exact ⟨_, rfl, hab⟩

theorem eq_none_of_rel {α β : Type} {R : α → β → Prop} {o : Option α}
    (h : Option.Rel R o (none : Option β)) : o = none := by
  cases h
  rfl

theorem rel_or {α β : Type} {R : α → β → Prop} {o o' : Option α} {p p' : Option β}
    (h : Option.Rel R o p) (h' : Option.Rel R o' p') : Option.Rel R (o.or o') (p.or p') := by
  cases h with
  | none => exact h'
  | some hab => exact .some hab

theorem rel_findSome? {α β γ δ : Type} {R : α → β → Prop} {S : γ → δ → Prop} {l : List α}
    {m : List β} {f : α → Option γ} {g : β → Option δ} (h : List.Forall₂ R l m)
    (hfg : ∀ a b, R a b → Option.Rel S (f a) (g b)) :
    Option.Rel S (l.findSome? f) (m.findSome? g) := by
  induction h with
  | nil => exact .none
  | cons head _ ih =>
    have hfirst := hfg _ _ head
    rw [List.findSome?_cons, List.findSome?_cons]
    generalize f _ = o, g _ = p at hfirst
    cases hfirst with
    | none => exact ih
    | some hab => exact .some hab

theorem isEmpty_eq_of_forall₂ {α β : Type} {R : α → β → Prop} {l : List α} {m : List β}
    (h : List.Forall₂ R l m) : l.isEmpty = m.isEmpty := by
  cases h <;> rfl

theorem rel_getElem? {α β : Type} {R : α → β → Prop} {l : List α} {m : List β}
    (h : List.Forall₂ R l m) : ∀ i : Nat, Option.Rel R l[i]? m[i]? := by
  induction h with
  | nil => exact fun _ => .none
  | cons head _ ih =>
    intro i
    cases i with
    | zero => exact .some head
    | succ i => exact ih i

namespace Table.Rel

variable {κ α β : Type} {R : α → β → Prop} {t : List (κ × α)} {u : List (κ × β)}

theorem isEmpty_eq (h : Table.Rel R t u) : t.isEmpty = u.isEmpty := by
  cases h <;> rfl

theorem keys_eq (h : Table.Rel R t u) : Table.keys t = Table.keys u := by
  induction h with
  | nil => rfl
  | cons _ _ ih => rw [Table.keys_cons, Table.keys_cons, ih]

/-- What is found under a key is related. -/
theorem get? [DecidableEq κ] (h : Table.Rel R t u) (k : κ) :
    Option.Rel R (Table.get? t k) (Table.get? u k) := by
  induction h with
  | nil => exact .none
  | @cons key _ _ _ _ head _ ih =>
    rw [Table.get?_cons, Table.get?_cons]
    by_cases hk : key = k
    · rw [if_pos hk, if_pos hk]
      exact .some head
    · rwa [if_neg hk, if_neg hk]

/-- Related values that are entered under one key keep tables related. -/
theorem insert [DecidableEq κ] (h : Table.Rel R t u) (k : κ) {a : α} {b : β} (hab : R a b) :
    Table.Rel R (Table.insert t k a) (Table.insert u k b) := by
  induction h with
  | nil => exact .cons hab .nil
  | @cons key _ _ _ _ head tail ih =>
    rw [Table.insert, Table.insert]
    by_cases hk : key = k
    · rw [if_pos hk, if_pos hk]
      exact .cons hab tail
    · rw [if_neg hk, if_neg hk]
      exact .cons head ih

/-- Tables of related pairs are related. -/
theorem ofEntries [DecidableEq κ] (h : Table.Rel R t u) :
    Table.Rel R (Table.ofEntries t) (Table.ofEntries u) := by
  have hfold : ∀ {before : List (κ × α)} {before' : List (κ × β)}, Table.Rel R before before' →
      Table.Rel R (t.foldl (fun t e => Table.insert t e.1 e.2) before)
        (u.foldl (fun t e => Table.insert t e.1 e.2) before') := by
    induction h with
    | nil => exact id
    | @cons key _ _ _ _ head _ ih => exact fun hbefore => ih (hbefore.insert key head)
  exact hfold .nil

theorem values (h : Table.Rel R t u) : List.Forall₂ R (Table.values t) (Table.values u) := by
  induction h with
  | nil => exact .nil
  | cons head _ ih => exact .cons head ih

/-- Tables are related if their pairs are, one by one. -/
theorem forall₂ (h : Table.Rel R t u) :
    List.Forall₂ (fun e f => e.1 = f.1 ∧ R e.2 f.2) t u := by
  induction h with
  | nil => exact .nil
  | cons head _ ih => exact .cons ⟨rfl, head⟩ ih

theorem of_forall₂ (h : List.Forall₂ (fun e f => e.1 = f.1 ∧ R e.2 f.2) t u) : Table.Rel R t u := by
  induction h with
  | nil => exact .nil
  | @cons e f _ _ head _ ih =>
    obtain ⟨key, a⟩ := e
    obtain ⟨key', b⟩ := f
    obtain ⟨rfl, hab⟩ := head
    exact .cons hab ih

end Table.Rel

/-! ### Schemas -/

/-- The names that a `type` keyword lists. -/
def TypeNames.names : TypeNames → List String
  | .single name => [name]
  | .multiple names => names

/-- What the keywords `type` and `nullable` may be rewritten into: they stay, or one type with the
flag becomes the list of that type and `null`, without the flag. -/
inductive NullSpelling :
    Option TypeNames → Option Bool → Option TypeNames → Option Bool → Prop
  | kept (type : Option TypeNames) (nullable : Option Bool) :
      NullSpelling type nullable type nullable
  | nullLast {type : TypeNames} {name : String} (single : type.names = [name]) :
      NullSpelling (some type) (some true) (some (.multiple [name, "null"])) none
  | nullFirst {type : TypeNames} {name : String} (single : type.names = [name]) :
      NullSpelling (some type) (some true) (some (.multiple ["null", name])) none

namespace Schema

/-- The first schema is the second one with some schemas respelled: itself, or schemas inside it at
any depth. -/
inductive Respells : Schema → Schema → Prop
  | mk {t : Schema} {type : Option TypeNames} {nullable : Option Bool}
      {properties : List (String × Schema)} {items : Option Schema}
      {allOf oneOf anyOf : List Schema} {additional : Option (Additional Schema)}
      (spelling : NullSpelling t.declaredType t.nullable type nullable)
      (properties_rel : Table.Rel Respells properties t.properties)
      (items_rel : Option.Rel Respells items t.items)
      (allOf_rel : List.Forall₂ Respells allOf t.allOf)
      (oneOf_rel : List.Forall₂ Respells oneOf t.oneOf)
      (anyOf_rel : List.Forall₂ Respells anyOf t.anyOf)
      (additional_rel : Option.Rel (Additional.Rel Respells) additional t.additional) :
      Respells { t with declaredType := type, nullable, properties, items, allOf, oneOf, anyOf,
                        additional } t

namespace Respells

variable {s t : Schema}

theorem kept : s.Respells t → s = { t with
    declaredType := s.declaredType, nullable := s.nullable, properties := s.properties,
    items := s.items, allOf := s.allOf, oneOf := s.oneOf, anyOf := s.anyOf,
    additional := s.additional }
  | .mk _ _ _ _ _ _ _ => rfl

theorem spelling :
    s.Respells t → NullSpelling t.declaredType t.nullable s.declaredType s.nullable
  | .mk h _ _ _ _ _ _ => h

theorem properties : s.Respells t → Table.Rel Respells s.properties t.properties
  | .mk _ h _ _ _ _ _ => h

theorem items : s.Respells t → Option.Rel Respells s.items t.items
  | .mk _ _ h _ _ _ _ => h

theorem allOf : s.Respells t → List.Forall₂ Respells s.allOf t.allOf
  | .mk _ _ _ h _ _ _ => h

theorem oneOf : s.Respells t → List.Forall₂ Respells s.oneOf t.oneOf
  | .mk _ _ _ _ h _ _ => h

theorem anyOf : s.Respells t → List.Forall₂ Respells s.anyOf t.anyOf
  | .mk _ _ _ _ _ h _ => h

theorem additional :
    s.Respells t → Option.Rel (Additional.Rel Respells) s.additional t.additional
  | .mk _ _ _ _ _ _ h => h

/-- A schema that keeps its own keywords is respelled if the schemas inside it are. -/
theorem of_parts
    (kept : s = { t with
      properties := s.properties, items := s.items, allOf := s.allOf, oneOf := s.oneOf,
      anyOf := s.anyOf, additional := s.additional })
    (properties : Table.Rel Respells s.properties t.properties)
    (items : Option.Rel Respells s.items t.items)
    (allOf : List.Forall₂ Respells s.allOf t.allOf)
    (oneOf : List.Forall₂ Respells s.oneOf t.oneOf)
    (anyOf : List.Forall₂ Respells s.anyOf t.anyOf)
    (additional : Option.Rel (Additional.Rel Respells) s.additional t.additional) :
    s.Respells t := by
  rw [kept]
  exact .mk (.kept _ _) properties items allOf oneOf anyOf additional

end Respells

mutual

/-- No schema needs to be respelled. -/
theorem Respells.refl : ∀ s : Schema, s.Respells s
  | ⟨_, _, properties, _, items, _, _, allOf, oneOf, anyOf, _, additional, _, _, _, _, _⟩ =>
    .of_parts rfl (rel_refl_table properties) (rel_refl_option items) (rel_refl_list allOf)
      (rel_refl_list oneOf) (rel_refl_list anyOf) (rel_refl_additional additional)

theorem rel_refl_table : ∀ ps : List (String × Schema), Table.Rel Respells ps ps
  | [] => .nil
  | (_, s) :: rest => .cons (.refl s) (rel_refl_table rest)

theorem rel_refl_list : ∀ ss : List Schema, List.Forall₂ Respells ss ss
  | [] => .nil
  | s :: rest => .cons (.refl s) (rel_refl_list rest)

theorem rel_refl_option : ∀ o : Option Schema, Option.Rel Respells o o
  | none => .none
  | some s => .some (.refl s)

theorem rel_refl_additional :
    ∀ a : Option (Additional Schema), Option.Rel (Additional.Rel Respells) a a
  | none => .none
  | some (.permitted value) => .some (.permitted value)
  | some (.schema s) => .some (.schema (.refl s))

end

/-! Of the keywords `type` and `nullable`, only what they say together is ever looked at. -/

section Keywords

variable {s t : Schema} {type : TypeNames}

theorem typeNames_of_declaredType (h : s.declaredType = some type) :
    s.typeNames = type.names.filter (· ≠ "null") := by
  unfold typeNames
  rw [h]
  cases type with
  | single name => by_cases hname : name = "null" <;> simp [TypeNames.names, hname]
  | multiple names => rfl

theorem isNullType_of_declaredType (h : s.declaredType = some type) :
    s.isNullType = (!type.names.isEmpty && type.names.all (· == "null")) := by
  unfold isNullType
  rw [h]
  cases type with
  | single name => simp [TypeNames.names]
  | multiple names => rfl

theorem Respells.typeNames_eq (h : s.Respells t) : s.typeNames = t.typeNames := by
  have hspelling := h.spelling
  generalize ht : t.declaredType = old, hs : s.declaredType = new at hspelling
  generalize t.nullable = flag, s.nullable = flag' at hspelling
  cases hspelling with
  | kept => rw [typeNames, typeNames, hs, ht]
  | nullLast single =>
    rw [typeNames_of_declaredType hs, typeNames_of_declaredType ht, single]
    simp [TypeNames.names, List.filter_cons]
  | nullFirst single =>
    rw [typeNames_of_declaredType hs, typeNames_of_declaredType ht, single]
    simp [TypeNames.names]

theorem Respells.isNullType_eq (h : s.Respells t) : s.isNullType = t.isNullType := by
  have hspelling := h.spelling
  generalize ht : t.declaredType = old, hs : s.declaredType = new at hspelling
  generalize t.nullable = flag, s.nullable = flag' at hspelling
  cases hspelling with
  | kept => rw [isNullType, isNullType, hs, ht]
  | nullLast single =>
    rw [isNullType_of_declaredType hs, isNullType_of_declaredType ht, single]
    simp [TypeNames.names]
  | nullFirst single =>
    rw [isNullType_of_declaredType hs, isNullType_of_declaredType ht, single]
    simp [TypeNames.names]

theorem Respells.isNullable_eq (h : s.Respells t) : s.isNullable = t.isNullable := by
  have hspelling := h.spelling
  unfold isNullable
  generalize t.declaredType = old, s.declaredType = new, t.nullable = flag, s.nullable = flag' at *
  cases hspelling with
  | kept => rfl
  | nullLast single => simp
  | nullFirst single => simp

end Keywords

mutual

/-- A schema that is respelled holds as many schemas. -/
theorem Respells.size_eq {s t : Schema} : s.Respells t → s.size = t.size
  | .mk _ properties items allOf oneOf anyOf additional => by
    rw [Schema.size_eq t, Schema.size_eq, sizeTable_eq properties, sizeOption_eq items,
      sizeList_eq allOf, sizeList_eq oneOf, sizeList_eq anyOf, sizeAdditional_eq additional]

theorem sizeTable_eq {ps qs : List (String × Schema)} :
    Table.Rel Respells ps qs → sizeTable ps = sizeTable qs
  | .nil => rfl
  | .cons h rest => by rw [sizeTable, sizeTable, h.size_eq, sizeTable_eq rest]

theorem sizeList_eq {ss ts : List Schema} : List.Forall₂ Respells ss ts → sizeList ss = sizeList ts
  | .nil => rfl
  | .cons h rest => by rw [sizeList, sizeList, h.size_eq, sizeList_eq rest]

theorem sizeOption_eq {s t : Option Schema} : Option.Rel Respells s t → sizeOption s = sizeOption t
  | .none => rfl
  | .some h => by rw [sizeOption, sizeOption, h.size_eq]

theorem sizeAdditional_eq {a b : Option (Additional Schema)} :
    Option.Rel (Additional.Rel Respells) a b → sizeAdditional a = sizeAdditional b
  | .none => rfl
  | .some (.permitted _) => rfl
  | .some (.schema h) => by rw [sizeAdditional, sizeAdditional, h.size_eq]

end

end Schema

/-! ### Descriptions -/

/-- The first parameter is the second one with its schema respelled. -/
structure Parameter.Respells (p q : Parameter) : Prop where
  kept : p = { q with schema := p.schema }
  schema : Option.Rel Schema.Respells p.schema q.schema

/-- The schemas of two media types, respelled. -/
def MediaType.Respells (m m' : MediaType) : Prop := Option.Rel Schema.Respells m.schema m'.schema

/-- The first body is the second one with its schemas respelled. -/
structure RequestBody.Respells (body body' : RequestBody) : Prop where
  kept : body = { body' with content := body.content }
  content : Table.Rel MediaType.Respells body.content body'.content

/-- The first response is the second one with its schemas respelled. -/
structure Response.Respells (response response' : Response) : Prop where
  kept : response = { response' with content := response.content }
  content : Table.Rel MediaType.Respells response.content response'.content

/-- The first operation is the second one with its schemas respelled. -/
structure Operation.Respells (op op' : Operation) : Prop where
  kept : op = { op' with
    parameters := op.parameters, requestBody := op.requestBody, responses := op.responses }
  parameters : List.Forall₂ Parameter.Respells op.parameters op'.parameters
  requestBody : Option.Rel RequestBody.Respells op.requestBody op'.requestBody
  responses : Table.Rel Response.Respells op.responses op'.responses

/-- The first path is the second one with its schemas respelled. -/
structure PathItem.Respells (item item' : PathItem) : Prop where
  operations : ∀ method,
    Option.Rel Operation.Respells (item.operation? method) (item'.operation? method)
  parameters : List.Forall₂ Parameter.Respells item.parameters item'.parameters

/-- The first description is the second one with some of its schemas respelled: in components and
at any depth inside schemas, in parameters, in bodies and in responses. -/
structure Document.Respells (d' d : Document) : Prop where
  schemas : Table.Rel Schema.Respells d'.components.schemas d.components.schemas
  paths : Table.Rel PathItem.Respells d'.paths d.paths

end ApiBinding
