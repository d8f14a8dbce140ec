import ApiBinding.Endpoint.Signature
import ApiBinding.Proofs.Document.References

/-!
# Occurrences of schemas

Every schema of a description stands somewhere: it is the body of a component, an operation uses
it, or it stands inside another one.  Two schemas that say the same may stand at different places,
and a schema that many references lead to stands at one.

A pointer addresses a schema by the names of keywords and properties, and so its steps can be
told from the tokens.

## Main definitions

* `Step`, `Schema.descend?` — the way from a schema to one inside it.
* `Root`, `Occurrence`, `Document.Stands` — where schemas stand.
* `Schema.Addresses` — the steps that the tokens of a pointer stand for.

## Main results

* `Schema.exists_addresses` — what tokens lead to stands inside the schema.
* `Schema.descend?_append`, `Schema.descend?_concat` — ways that are put together.
-/

namespace ApiBinding

/-! ### Steps -/

/-- A step from a schema to one that stands directly inside it. -/
inductive Step where
  | property (index : Nat)
  | items
  | additional
  | allOf (index : Nat)
  | oneOf (index : Nat)
  | anyOf (index : Nat)
  deriving DecidableEq, Repr

/-- The schema of an `additionalProperties` keyword. -/
def Additional.schema? {σ : Type} : Additional σ → Option σ
  | .permitted _ => none
  | .schema value => some value

namespace Schema

/-- The schema that a step leads to. -/
def child? (s : Schema) : Step → Option Schema
  | .property index => (s.properties[index]?).map Prod.snd
  | .items => s.items
  | .additional => s.additional.bind Additional.schema?
  | .allOf index => s.allOf[index]?
  | .oneOf index => s.oneOf[index]?
  | .anyOf index => s.anyOf[index]?

/-- The schema that steps lead to. -/
def descend? (s : Schema) : List Step → Option Schema
  | [] => some s
  | step :: rest => (s.child? step).bind fun t => t.descend? rest

@[simp] theorem descend?_nil (s : Schema) : s.descend? [] = some s := rfl

theorem descend?_append {s t : Schema} {steps : List Step} (more : List Step)
    (h : s.descend? steps = some t) : s.descend? (steps ++ more) = t.descend? more := by
  induction steps generalizing s with
  | nil =>
    rw [descend?_nil, Option.some.injEq] at h
    rw [h, List.nil_append]
  | cons step rest ih =>
    obtain ⟨u, hu, h⟩ := Option.bind_eq_some_iff.1 h
    rw [List.cons_append, descend?, hu, Option.bind_some]
    exact ih h

theorem descend?_concat {s t u : Schema} {steps : List Step} {step : Step}
    (h : s.descend? steps = some t) (hu : t.child? step = some u) :
    s.descend? (steps ++ [step]) = some u := by
  rw [descend?_append [step] h, descend?, hu]
  rfl

theorem child?_additional {s t : Schema} (h : s.additional = some (.schema t)) :
    s.child? .additional = some t := by
  rw [child?, h]
  rfl

/-! ### Pointers -/

/-- The steps that tokens stand for. -/
inductive Addresses : Schema → List String → List Step → Prop where
  | here {s : Schema} : Addresses s [] []
  | property {s t : Schema} {key : String} {index : Nat} {rest : List String} {steps : List Step}
      (ht : s.properties[index]? = some (key, t)) (h : Addresses t rest steps) :
      Addresses s ("properties" :: key :: rest) (.property index :: steps)
  | items {s t : Schema} {rest : List String} {steps : List Step} (ht : s.items = some t)
      (h : Addresses t rest steps) : Addresses s ("items" :: rest) (.items :: steps)
  | additional {s t : Schema} {rest : List String} {steps : List Step}
      (ht : s.additional = some (.schema t)) (h : Addresses t rest steps) :
      Addresses s ("additionalProperties" :: rest) (.additional :: steps)
  | allOf {s t : Schema} {token : String} {index : Nat} {rest : List String} {steps : List Step}
      (hi : listIndex? token = some index) (ht : s.allOf[index]? = some t)
      (h : Addresses t rest steps) : Addresses s ("allOf" :: token :: rest) (.allOf index :: steps)
  | oneOf {s t : Schema} {token : String} {index : Nat} {rest : List String} {steps : List Step}
      (hi : listIndex? token = some index) (ht : s.oneOf[index]? = some t)
      (h : Addresses t rest steps) : Addresses s ("oneOf" :: token :: rest) (.oneOf index :: steps)
  | anyOf {s t : Schema} {token : String} {index : Nat} {rest : List String} {steps : List Step}
      (hi : listIndex? token = some index) (ht : s.anyOf[index]? = some t)
      (h : Addresses t rest steps) : Addresses s ("anyOf" :: token :: rest) (.anyOf index :: steps)

theorem Addresses.eq_nil {s : Schema} {steps : List Step} (h : s.Addresses [] steps) :
    steps = [] := by
  cases h
  rfl

/-- Tokens that are some stand for some steps. -/
theorem Addresses.steps_ne_nil {s : Schema} {tokens : List String} {steps : List Step}
    (h : s.Addresses tokens steps) (hne : tokens ≠ []) : steps ≠ [] := by
  cases h <;> simp_all

/-- The steps that tokens stand for lead to a schema. -/
def Reaches (s : Schema) (tokens : List String) (t : Schema) : Prop :=
  ∃ steps, s.Addresses tokens steps ∧ s.descend? steps = some t

/-- One step more. -/
theorem Reaches.cons {s t u : Schema} {rest tokens : List String} (h : u.Reaches rest t)
    (step : Step) (hu : s.child? step = some u)
    (hcons : ∀ steps, u.Addresses rest steps → s.Addresses tokens (step :: steps)) :
    s.Reaches tokens t := by
  obtain ⟨steps, haddresses, hsteps⟩ := h
  refine ⟨step :: steps, hcons steps haddresses, ?_⟩
  rw [descend?, hu]
  exact hsteps

/-- Where tokens enter the schema, they stand for a step. -/
theorem Enters.reaches {s t u : Schema} {tokens rest : List String} (h : s.Enters tokens u rest)
    (ht : u.Reaches rest t) : s.Reaches tokens t := by
  cases h with
  | property h =>
    obtain ⟨index, hindex⟩ := List.mem_iff_getElem?.1 (Table.mem_of_get? h)
    exact ht.cons (.property index) (by rw [child?, hindex]; rfl) fun _ => .property hindex
  | items h => exact ht.cons .items h fun _ => .items h
  | additional h => exact ht.cons .additional (child?_additional h) fun _ => .additional h
  | @allOf _ _ index _ hi h => exact ht.cons (.allOf index) h fun _ => .allOf hi h
  | @oneOf _ _ index _ hi h => exact ht.cons (.oneOf index) h fun _ => .oneOf hi h
  | @anyOf _ _ index _ hi h => exact ht.cons (.anyOf index) h fun _ => .anyOf hi h

/-- **What tokens lead to stands inside the schema.** -/
theorem exists_addresses {s t : Schema} :
    ∀ {tokens : List String}, s.at? tokens = some t → s.Reaches tokens t
  | [], h => ⟨[], .here, h⟩
  | token :: rest, h => by
    obtain ⟨u, more, hu, ht⟩ := exists_enters h
    exact hu.reaches (exists_addresses ht)
termination_by tokens => tokens.length
decreasing_by exact hu.length_lt

end Schema

/-! ### Occurrences -/

/-- Where a schema stands that is not inside another one.  A path is told by its position in the
table of paths, and a response by its position among those of the operation. -/
inductive Root where
  | component (name : String)
  /-- A parameter that is declared for all operations of a path. -/
  | shared (path : Nat) (key : String × String)
  | parameter (path : Nat) (method : HttpMethod) (key : String × String)
  | request (path : Nat) (method : HttpMethod) (media : String)
  | response (path : Nat) (method : HttpMethod) (index : Nat) (media : String)
  deriving DecidableEq, Repr

/-- The place of a schema: where the outermost schema around it stands, and the way from there. -/
structure Occurrence where
  root : Root
  steps : List Step := []
  deriving DecidableEq, Repr

namespace Document

/-- The schema that stands at a root. -/
inductive Roots (d : Document) : Root → Schema → Prop where
  | component {c : String} {s : Schema} (h : d.schema? c = some s) : Roots d (.component c) s
  | shared {i : Nat} {path : String} {item : PathItem} {p : Parameter} {s : Schema}
      (hitem : d.paths[i]? = some (path, item)) (hp : p ∈ item.parameters)
      (hs : p.schema = some s) : Roots d (.shared i p.key) s
  | parameter {i : Nat} {path : String} {item : PathItem} {method : HttpMethod} {op : Operation}
      {p : Parameter} {s : Schema} (hitem : d.paths[i]? = some (path, item))
      (hop : item.operation? method = some op) (hp : p ∈ op.parameters)
      (hs : p.schema = some s) : Roots d (.parameter i method p.key) s
  | request {i : Nat} {path : String} {item : PathItem} {method : HttpMethod} {op : Operation}
      {body : RequestBody} {media : String} {m : MediaType} {s : Schema}
      (hitem : d.paths[i]? = some (path, item)) (hop : item.operation? method = some op)
      (hbody : op.requestBody = some body) (hm : (media, m) ∈ body.content)
      (hs : m.schema = some s) : Roots d (.request i method media) s
  | response {i index : Nat} {path key : String} {item : PathItem} {method : HttpMethod}
      {op : Operation} {response : Response} {media : String} {m : MediaType} {s : Schema}
      (hitem : d.paths[i]? = some (path, item)) (hop : item.operation? method = some op)
      (hresponse : op.responses[index]? = some (key, response)) (hm : (media, m) ∈ response.content)
      (hs : m.schema = some s) : Roots d (.response i method index media) s

/-- The schema that stands at a place. -/
def Stands (d : Document) (o : Occurrence) (s : Schema) : Prop :=
  ∃ root, d.Roots o.root root ∧ root.descend? o.steps = some s

end Document

/-- The schema is the body of a component. -/
def Occurrence.IsBody (o : Occurrence) : Prop := ∃ c, o = ⟨.component c, []⟩

end ApiBinding
