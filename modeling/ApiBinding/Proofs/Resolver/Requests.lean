import ApiBinding.Proofs.Resolver.Outcome
import Mathlib.Data.List.Forall2

/-!
# What a schema leads to

Resolving a schema leads to further requests, and its node is made from the answers.
Which requests these are depends on the schema alone: one keyword decides.  The
answers, and nothing else in the session, decide what the node is.

This module says both once, for every step on a schema.

## Main definitions

* `Form`, `Schema.form` — the keyword that decides.
* `Schema.Formed` — what the keywords of a schema are that is resolved as a form.
* `Leads` — the requests that a schema leads to.
* `Built` — how a node is made from the answers.
* `Schema.Own` — schemas whose nodes are not those of other schemas.

## Main results

* `Built.mono` — what is built from answers is built from answers of which less is asked.
-/

namespace ApiBinding

/-! ### The keyword that decides -/

/-- What a schema is resolved as. -/
inductive Form where
  /-- A reference. -/
  | reference (pointer : String)
  /-- A composition that only wraps a reference. -/
  | wrapper (pointer : String)
  /-- A composition whose fragments are merged. -/
  | composition
  | union (keyword : UnionKeyword) (members : List Schema)
  | literals (values : List Json)
  /-- What the type names say. -/
  | plain
  deriving Repr

namespace Schema

/-- The keyword that decides how a schema is resolved. -/
def form (s : Schema) (name : Option String) (spine : Bool) : Form :=
  match s.reference with
  | some pointer => .reference pointer
  | none =>
    if !s.allOf.isEmpty then
      match Follow.wrapped? s name spine with
      | some pointer => .wrapper pointer
      | none => .composition
    else if !s.oneOf.isEmpty then .union .oneOf s.oneOf
    else if !s.anyOf.isEmpty then .union .anyOf s.anyOf
    else
      match s.enumeration, s.constant with
      | some values, _ => .literals values
      | none, some value => .literals [value]
      | none, none => .plain

/-- Whether the schema declares an object without saying so. -/
def declaresObject (s : Schema) : Bool :=
  !s.properties.isEmpty || !s.required.isEmpty || s.additional.isSome

/-- Whether a plain schema is resolved as an object. -/
def readsObject (s : Schema) : Bool :=
  match s.typeNames with
  | [] => !s.isNullType && s.declaresObject
  | names => names.contains "object"

/-- Whether a plain schema is resolved as an array. -/
def readsItems (s : Schema) : Bool :=
  match s.typeNames with
  | [] => !s.isNullType && !s.declaresObject && s.items.isSome
  | names => names.contains "array"

/-- Whether a composition adds a fragment of its own. -/
def addsFragment (s : Schema) : Bool := !(s.properties.isEmpty && s.required.isEmpty)

end Schema

namespace Schema

variable {s : Schema} {name : Option String} {spine : Bool}

/-- A reference hides every other keyword, a composition hides unions, a union hides values,
and values hide types. -/
inductive Formed (s : Schema) (name : Option String) (spine : Bool) : Form → Prop where
  | reference {p : String} (h : s.reference = some p) : Formed s name spine (.reference p)
  | wrapper {p : String} (hr : s.reference = none)
      (h : Follow.wrapped? s name spine = some p) : Formed s name spine (.wrapper p)
  | composition (hr : s.reference = none) (ha : s.allOf ≠ [])
      (h : Follow.wrapped? s name spine = none) : Formed s name spine .composition
  | oneOf (hr : s.reference = none) (ha : s.allOf = []) (ho : s.oneOf ≠ []) :
      Formed s name spine (.union .oneOf s.oneOf)
  | anyOf (hr : s.reference = none) (ha : s.allOf = []) (ho : s.oneOf = []) (hy : s.anyOf ≠ []) :
      Formed s name spine (.union .anyOf s.anyOf)
  | enumeration {values : List Json} (hr : s.reference = none) (ha : s.allOf = [])
      (h : s.enumeration = some values) : Formed s name spine (.literals values)
  | constant {value : Json} (hr : s.reference = none) (ha : s.allOf = [])
      (he : s.enumeration = none) (h : s.constant = some value) :
      Formed s name spine (.literals [value])
  | plain (hr : s.reference = none) (ha : s.allOf = []) (ho : s.oneOf = []) (hy : s.anyOf = [])
      (he : s.enumeration = none) (hc : s.constant = none) : Formed s name spine .plain

theorem formed (s : Schema) (name : Option String) (spine : Bool) :
    Formed s name spine (s.form name spine) := by
  unfold form
  cases hr : s.reference with
  | some p => exact .reference hr
  | none =>
    simp only [Bool.not_eq_true', List.isEmpty_eq_false_iff]
    split
    · rename_i ha
      cases hw : Follow.wrapped? s name spine with
      | some p => exact .wrapper hr hw
      | none => exact .composition hr ha hw
    · rename_i ha
      rw [not_not] at ha
      split
      · exact .oneOf hr ha ‹_›
      · rename_i ho
        rw [not_not] at ho
        split
        · exact .anyOf hr ha ho ‹_›
        · rename_i hy
          rw [not_not] at hy
          cases he : s.enumeration with
          | some values => exact .enumeration hr ha he
          | none =>
            cases hc : s.constant with
            | some value => exact .constant hr ha he hc
            | none => exact .plain hr ha ho hy he hc

theorem formed_of_eq {form : Form} (h : s.form name spine = form) : Formed s name spine form :=
  h ▸ formed s name spine

/-- What is wrapped: one fragment that is a reference, no properties, and neither the body
of a component nor a part of another composition. -/
theorem wrapped?_eq_some {p : String} (h : Follow.wrapped? s name spine = some p) :
    (∃ only, s.allOf = [only] ∧ only.reference = some p) ∧ s.properties = [] ∧ name = none ∧
      spine = false := by
  unfold Follow.wrapped? at h
  split at h
  · rename_i only hall
    split at h
    · rename_i hcond
      simp only [Bool.and_eq_true, Option.isNone_iff_eq_none, Bool.not_eq_true',
        List.isEmpty_iff] at hcond
      exact ⟨⟨only, hall, h⟩, hcond.2, hcond.1.1, hcond.1.2⟩
    · simp at h
  · simp at h

theorem form_composition (h : s.form name spine = .composition) :
    s.reference = none ∧ s.allOf ≠ [] := by
  cases formed_of_eq h with
  | composition hr ha => exact ⟨hr, ha⟩

/-- A component and a part of a composition are never only a wrapper. -/
theorem form_of_spine (hr : s.reference = none) (ha : s.allOf ≠ []) :
    s.form name true = .composition := by
  generalize hform : s.form name true = form
  cases formed_of_eq hform with
  | composition => rfl
  | wrapper hr' hw => exact absurd (wrapped?_eq_some hw).2.2.2 (by simp)
  | reference h => simp [hr] at h
  | _ => contradiction

end Schema

/-- The schemas inside an object. -/
inductive ObjectPart (s : Schema) : Schema → Prop where
  | property {p : String × Schema} (h : p ∈ s.properties) : ObjectPart s p.2
  | additional {t : Schema} (h : s.additional = some (.schema t)) : ObjectPart s t

/-- The schemas inside a plain schema. -/
inductive PlainPart (s : Schema) : Schema → Prop where
  | object {t : Schema} (h : s.readsObject) (ht : ObjectPart s t) : PlainPart s t
  | items {t : Schema} (h : s.readsItems) (ht : s.items = some t) : PlainPart s t

/-- The requests that a schema leads to. -/
inductive Leads (s : Schema) (name : Option String) (spine : Bool) : Request → Prop where
  | reference {p location : String} (h : s.form name spine = .reference p) :
      Leads s name spine (.reference p location false)
  | wrapper {p location : String} (h : s.form name spine = .wrapper p) :
      Leads s name spine (.reference p location false)
  /-- A fragment that is a reference belongs to the same composition. -/
  | fragment {f : Schema} {p location : String} (h : s.form name spine = .composition)
      (hf : f ∈ s.allOf) (hr : f.reference = some p) :
      Leads s name spine (.fragment p location spine)
  | inline {f : Schema} {location : String} (h : s.form name spine = .composition)
      (hf : f ∈ s.allOf) (hr : f.reference = none) :
      Leads s name spine (.schema f location none spine)
  | own {t : Schema} {location : String} (h : s.form name spine = .composition)
      (ha : s.addsFragment) (ht : ObjectPart s t) :
      Leads s name spine (.schema t location none false)
  | member {keyword : UnionKeyword} {members : List Schema} {m : Schema} {location : String}
      (h : s.form name spine = .union keyword members) (hm : m ∈ members) :
      Leads s name spine (.schema m location none false)
  | plain {t : Schema} {location : String} (h : s.form name spine = .plain)
      (ht : PlainPart s t) : Leads s name spine (.schema t location none false)

/-- What a request names: the requests that a schema leads to name one of its references,
or they are for a schema inside. -/
theorem Leads.reference_eq {s : Schema} {name : Option String} {spine link : Bool}
    {p location : String} (h : Leads s name spine (.reference p location link)) :
    link = false ∧ (s.reference = some p ∨ ∃ f ∈ s.allOf, f.reference = some p) := by
  cases h with
  | reference h =>
    cases Schema.formed_of_eq h with
    | reference hr => exact ⟨rfl, .inl hr⟩
  | wrapper h =>
    cases Schema.formed_of_eq h with
    | wrapper hr hw =>
      obtain ⟨⟨only, hall, honly⟩, -⟩ := Schema.wrapped?_eq_some hw
      exact ⟨rfl, .inr ⟨only, by simp [hall], honly⟩⟩

theorem Leads.fragment_eq {s : Schema} {name : Option String} {spine spine' : Bool}
    {p location : String} (h : Leads s name spine (.fragment p location spine')) :
    spine' = spine ∧ ∃ f ∈ s.allOf, f.reference = some p := by
  cases h with
  | fragment h hf hr => exact ⟨rfl, _, hf, hr⟩

/-- Lists that are related element by element: an element of the first has one in the second. -/
theorem forall₂_exists {α β : Type} {R : α → β → Prop} {as : List α} {bs : List β}
    (h : List.Forall₂ R as bs) {a : α} (ha : a ∈ as) : ∃ b ∈ bs, R a b := by
  induction h with
  | nil => simp at ha
  | cons hab _ ih =>
    rcases List.mem_cons.1 ha with rfl | ha
    · exact ⟨_, .head _, hab⟩
    · obtain ⟨b, hb, hr⟩ := ih ha
      exact ⟨b, .tail _ hb, hr⟩

/-- If every element of a list has a partner, the list has a list of partners. -/
theorem exists_forall₂ {α β : Type} {R : α → β → Prop} :
    ∀ {as : List α}, (∀ a ∈ as, ∃ b, R a b) → ∃ bs, List.Forall₂ R as bs
  | [], _ => ⟨[], .nil⟩
  | a :: _, h => by
    obtain ⟨b, hb⟩ := h a (.head _)
    obtain ⟨bs, hbs⟩ := exists_forall₂ fun a ha => h a (.tail _ ha)
    exact ⟨b :: bs, .cons hb hbs⟩

/-- What stands before and after an element has its partners before and after the partner of the
element. -/
theorem forall₂_middle {α β : Type} {R : α → β → Prop} {a : α} {after : List α} :
    ∀ {before : List α} {bs : List β}, List.Forall₂ R (before ++ a :: after) bs →
      ∃ before' b after', bs = before' ++ b :: after' ∧ List.Forall₂ R before before' ∧ R a b ∧
        List.Forall₂ R after after'
  | [], _, .cons hab hafter => ⟨[], _, _, rfl, .nil, hab, hafter⟩
  | _ :: _, _, .cons hxy hrest => by
    obtain ⟨before', b, after', rfl, hbefore, hab, hafter⟩ := forall₂_middle hrest
    exact ⟨_ :: before', b, after', rfl, .cons hxy hbefore, hab, hafter⟩

/-- Partners of the same elements are partners. -/
theorem forall₂_join {α β γ : Type} {R : α → β → Prop} {S : α → γ → Prop} {T : β → γ → Prop}
    {as : List α} {bs : List β} {cs : List γ} (hbs : List.Forall₂ R as bs)
    (hcs : List.Forall₂ S as cs) (h : ∀ a ∈ as, ∀ b ∈ bs, ∀ c ∈ cs, R a b → S a c → T b c) :
    List.Forall₂ T bs cs := by
  induction hbs generalizing cs with
  | nil =>
    cases hcs
    exact .nil
  | cons hab _ ih =>
    cases hcs with
    | cons hac hcs =>
      exact .cons (h _ (.head _) _ (.head _) _ (.head _) hab hac)
        (ih hcs fun a ha b hb c hc => h a (.tail _ ha) b (.tail _ hb) c (.tail _ hc))

/-- Lists whose elements correspond and agree on something agree on it. -/
theorem map_eq_of_forall₂ {α β γ : Type} {R : α → β → Prop} {f : α → γ} {g : β → γ} {xs : List α}
    {ys : List β} (h : List.Forall₂ R xs ys) (hfg : ∀ x y, R x y → f x = g y) :
    xs.map f = ys.map g := by
  induction h with
  | nil => rfl
  | cons hxy _ ih => rw [List.map_cons, List.map_cons, hfg _ _ hxy, ih]

/-! ### How nodes are made -/

/-- A node that answers the request for an inner schema. -/
def Answers (Q : Request → Node → Prop) (t : Schema) (n : Node) : Prop :=
  ∃ location, Q (.schema t location none false) n

/-- The node is made on the way: it is the body of no component and says no more than its shape. -/
structure Node.Bare (n : Node) : Prop where
  name : n.name = none
  default : n.default = none
  description : n.description = none
  nullable : n.nullable = false

/-- The node for further keys. -/
def AdditionalFrom (Q : Request → Node → Prop) : Option (Additional Schema) → Option Node → Prop
  | some (.schema t), additional => ∃ n, additional = some n ∧ Answers Q t n
  | some (.permitted true), additional =>
    ∃ n, additional = some n ∧ n.shape = .any ∧ n.Bare
  | _, additional => additional = none

/-- An object that is made from the answers for its properties. -/
def ObjectFrom (Q : Request → Node → Prop) (s : Schema) (shape : Shape Node) : Prop :=
  ∃ properties additional,
    shape = .object properties (distinct s.required) additional ∧
      List.Forall₂ (fun (p : String × Schema) e => e.1 = p.1 ∧ Answers Q p.2 e.2)
        s.properties properties ∧
      AdditionalFrom Q s.additional additional

/-- An array that is made from the answer for its items. -/
def ArrayFrom (Q : Request → Node → Prop) (s : Schema) (shape : Shape Node) : Prop :=
  ∃ n, shape = .array n ∧
    match s.items with
    | some t => Answers Q t n
    | none => n.shape = .any ∧ n.Bare

/-- The shape for one type name. -/
def TypedFrom (Q : Request → Node → Prop) (s : Schema) (typeName : String)
    (shape : Shape Node) : Prop :=
  match typeName with
  | "string" => shape = .scalar .string s.format
  | "integer" => shape = .scalar .integer s.format
  | "number" => shape = .scalar .float s.format
  | "boolean" => shape = .scalar .bool s.format
  | "object" => ObjectFrom Q s shape
  | "array" => ArrayFrom Q s shape
  | _ => shape = .any

/-- The shape without type names. -/
def UntypedFrom (Q : Request → Node → Prop) (s : Schema) (shape : Shape Node) : Prop :=
  if s.isNullType then shape = .null
  else if s.declaresObject then ObjectFrom Q s shape
  else if s.items.isSome then ArrayFrom Q s shape
  else shape = .any

/-- The shape that the type names make. -/
def PlainFrom (Q : Request → Node → Prop) (s : Schema) (shape : Shape Node) : Prop :=
  match s.typeNames with
  | [] => UntypedFrom Q s shape
  | [single] => TypedFrom Q s single shape
  | many => ∃ variants, shape = .union variants .untagged ∧
      List.Forall₂ (fun name (v : Node) => TypedFrom Q s name v.shape ∧ v.Bare) many
        variants

/-- A node with a body and the annotations of a schema. -/
structure Annotated (body : Body) (s : Schema) (name : Option String) (n : Node) : Prop where
  shape : n.shape = body.shape
  nullable : n.nullable = (body.nullable || s.isNullable)
  name : n.name = name
  description : n.description = s.description
  default : n.default = s.default

/-- Whether a reference is answered by the target itself. -/
def Schema.passes (s : Schema) (name : Option String) (target : Node) : Bool :=
  name.isNone && (!s.isNullable || target.nullable)

/-- The node of a schema that is only a reference. -/
def RefersTo (target : Node) (s : Schema) (name : Option String) (n : Node) : Prop :=
  if s.passes name target then n = target
  else Annotated ⟨.union [target] .untagged, s.isNullable⟩ s name n

/-- The node of a fragment. -/
def FragmentFrom (Q : Request → Node → Prop) (spine : Bool) (f : Schema) (n : Node) : Prop :=
  match f.reference with
  | some p => ∃ location, Q (.fragment p location spine) n
  | none => ∃ location, Q (.schema f location none spine) n

/-- The fragment that a composition adds itself. -/
def OwnFrom (Q : Request → Node → Prop) (s : Schema) (own : List Node) : Prop :=
  if s.addsFragment then ∃ n, own = [n] ∧ ObjectFrom Q s n.shape ∧ n.Bare else own = []

/-- The variant for a member of a union. -/
structure VariantFrom (d : Document) (Q : Request → Node → Prop) (s m : Schema)
    (v : Variant) : Prop where
  node : Answers Q m v.node
  component : v.component = Document.wholeReference? m
  declared : v.declared = Follow.declaredBy d s v.node

/-- How the node of a schema is made from the answers to the requests that the schema
leads to. -/
def Built (d : Document) (Q : Request → Node → Prop) (s : Schema) (location : String)
    (name : Option String) (spine : Bool) (n : Node) : Prop :=
  match s.form name spine with
  | .reference p => ∃ target, (∃ l, Q (.reference p l false) target) ∧ RefersTo target s name n
  | .wrapper p => ∃ target, (∃ l, Q (.reference p l false) target) ∧ RefersTo target s none n
  | .composition => ∃ fragments own, List.Forall₂ (FragmentFrom Q spine) s.allOf fragments ∧
      OwnFrom Q s own ∧ Annotated (mergeFragments (fragments ++ own) location).1 s name n
  | .union keyword members => ∃ variants body findings,
      List.Forall₂ (VariantFrom d Q s) members variants ∧
      classify keyword variants s.discriminator location = .ok (body, findings) ∧
      Annotated body s name n
  | .literals values => Annotated (Follow.literals values) s name n
  | .plain => ∃ shape, PlainFrom Q s shape ∧ Annotated ⟨shape, false⟩ s name n

/-! ### Nodes of their own -/

/-- The node of the schema is one of its own, and not that of another schema: if the schema is only
a reference, it is the body of a component. -/
structure Schema.Own (s : Schema) (name : Option String) (spine : Bool) : Prop where
  reference : ∀ p, s.form name spine = .reference p → name.isSome
  wrapper : ∀ p, s.form name spine ≠ .wrapper p

theorem Schema.own_component (s : Schema) (c : String) (spine : Bool) : s.Own (some c) spine := by
  refine ⟨fun _ _ => rfl, fun p hform => ?_⟩
  cases formed_of_eq hform with
  | wrapper _ hw => exact absurd (wrapped?_eq_some hw).2.2.1 (by simp)

/-- A node of its own is annotated as the schema says. -/
theorem Built.annotated {d : Document} {Q : Request → Node → Prop} {s : Schema}
    {location : String} {name : Option String} {spine : Bool} {n : Node}
    (h : Built d Q s location name spine n) (hs : s.Own name spine) :
    ∃ body, Annotated body s name n := by
  unfold Built at h
  cases hform : s.form name spine with
  | reference p =>
    rw [hform] at h
    obtain ⟨target, -, hn⟩ := h
    obtain ⟨c, rfl⟩ := Option.isSome_iff_exists.1 (hs.reference p hform)
    rw [RefersTo, Schema.passes, Option.isNone_some, Bool.false_and] at hn
    exact ⟨_, hn⟩
  | wrapper p => exact absurd hform (hs.wrapper p)
  | composition =>
    rw [hform] at h
    obtain ⟨fragments, own, -, -, hn⟩ := h
    exact ⟨_, hn⟩
  | union keyword members =>
    rw [hform] at h
    obtain ⟨variants, body, findings, -, -, hn⟩ := h
    exact ⟨_, hn⟩
  | literals values =>
    rw [hform] at h
    exact ⟨_, h⟩
  | plain =>
    rw [hform] at h
    obtain ⟨shape, -, hn⟩ := h
    exact ⟨_, hn⟩

/-! ### More is promised of the answers -/

section Mono

variable {Q R : Request → Node → Prop} {s : Schema}

theorem Answers.mono (hqr : ∀ r n, Q r n → R r n) {t : Schema} {n : Node} (h : Answers Q t n) :
    Answers R t n :=
  h.imp fun _ hl => hqr _ _ hl

theorem AdditionalFrom.mono (hqr : ∀ r n, Q r n → R r n) {keyword : Option (Additional Schema)}
    {additional : Option Node} (h : AdditionalFrom Q keyword additional) :
    AdditionalFrom R keyword additional := by
  rcases keyword with _ | value | t
  · exact h
  · cases value <;> exact h
  · obtain ⟨n, hn, ha⟩ := h
    exact ⟨n, hn, ha.mono hqr⟩

theorem ObjectFrom.mono (hqr : ∀ r n, Q r n → R r n) {shape : Shape Node}
    (h : ObjectFrom Q s shape) : ObjectFrom R s shape := by
  obtain ⟨properties, additional, hshape, hprops, hadd⟩ := h
  exact ⟨properties, additional, hshape, hprops.imp fun _ _ h => ⟨h.1, h.2.mono hqr⟩,
    hadd.mono hqr⟩

theorem ArrayFrom.mono (hqr : ∀ r n, Q r n → R r n) {shape : Shape Node}
    (h : ArrayFrom Q s shape) : ArrayFrom R s shape := by
  obtain ⟨n, hshape, hitems⟩ := h
  refine ⟨n, hshape, ?_⟩
  split
  · rename_i t ht
    rw [ht] at hitems
    exact hitems.mono hqr
  · rename_i ht
    rw [ht] at hitems
    exact hitems

theorem TypedFrom.mono (hqr : ∀ r n, Q r n → R r n) {typeName : String} {shape : Shape Node}
    (h : TypedFrom Q s typeName shape) : TypedFrom R s typeName shape := by
  unfold TypedFrom at *
  split
  · exact h
  · exact h
  · exact h
  · exact h
  · exact ObjectFrom.mono hqr h
  · exact ArrayFrom.mono hqr h
  · split at h <;> simp_all

theorem PlainFrom.mono (hqr : ∀ r n, Q r n → R r n) {shape : Shape Node}
    (h : PlainFrom Q s shape) : PlainFrom R s shape := by
  unfold PlainFrom UntypedFrom at *
  rcases hnames : s.typeNames with _ | ⟨single, _ | ⟨second, rest⟩⟩
  · simp only [hnames] at h ⊢
    split
    · simp_all
    · split
      · exact ObjectFrom.mono hqr (by simp_all)
      · split
        · exact ArrayFrom.mono hqr (by simp_all)
        · simp_all
  · simp only [hnames] at h ⊢
    exact h.mono hqr
  · simp only [hnames] at h ⊢
    obtain ⟨variants, hshape, hvariants⟩ := h
    exact ⟨variants, hshape, hvariants.imp fun _ _ h => ⟨h.1.mono hqr, h.2⟩⟩

theorem OwnFrom.mono (hqr : ∀ r n, Q r n → R r n) {own : List Node} (h : OwnFrom Q s own) :
    OwnFrom R s own := by
  unfold OwnFrom at *
  split
  · rename_i ha
    rw [if_pos ha] at h
    obtain ⟨n, hn, hobject, hbare⟩ := h
    exact ⟨n, hn, hobject.mono hqr, hbare⟩
  · rename_i ha
    rwa [if_neg ha] at h

theorem FragmentFrom.mono (hqr : ∀ r n, Q r n → R r n) {spine : Bool} {f : Schema} {n : Node}
    (h : FragmentFrom Q spine f n) : FragmentFrom R spine f n := by
  unfold FragmentFrom at *
  split
  · rename_i p hp
    rw [hp] at h
    exact h.imp fun _ hl => hqr _ _ hl
  · rename_i hp
    rw [hp] at h
    exact h.imp fun _ hl => hqr _ _ hl

theorem VariantFrom.mono (hqr : ∀ r n, Q r n → R r n) {d : Document} {m : Schema} {v : Variant}
    (h : VariantFrom d Q s m v) : VariantFrom d R s m v :=
  ⟨h.node.mono hqr, h.component, h.declared⟩

/-- **What is built from answers is built from answers of which less is asked.** -/
theorem Built.mono (hqr : ∀ r n, Q r n → R r n) {d : Document} {location : String}
    {name : Option String} {spine : Bool} {n : Node} (h : Built d Q s location name spine n) :
    Built d R s location name spine n := by
  unfold Built at *
  cases hform : s.form name spine with
  | reference p | wrapper p =>
    rw [hform] at h
    obtain ⟨target, ⟨l, htarget⟩, hn⟩ := h
    exact ⟨target, ⟨l, hqr _ _ htarget⟩, hn⟩
  | composition =>
    rw [hform] at h
    obtain ⟨fragments, own, hfragments, hown, hn⟩ := h
    exact ⟨fragments, own, hfragments.imp fun _ _ h => h.mono hqr, hown.mono hqr, hn⟩
  | union keyword members =>
    rw [hform] at h
    obtain ⟨variants, body, findings, hvariants, hclassify, hn⟩ := h
    exact ⟨variants, body, findings, hvariants.imp fun _ _ h => h.mono hqr, hclassify, hn⟩
  | literals values =>
    rw [hform] at h
    exact h
  | plain =>
    rw [hform] at h
    obtain ⟨shape, hshape, hn⟩ := h
    exact ⟨shape, hshape.mono hqr, hn⟩

end Mono

end ApiBinding
