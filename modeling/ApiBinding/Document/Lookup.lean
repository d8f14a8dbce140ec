import ApiBinding.CompileError
import ApiBinding.Composition.Union
import ApiBinding.Document.Basic
import ApiBinding.Pointer

/-!
# Finding schemas in a description

A pointer leads to a component and on into its schema.  Apart from that, the
declaration of a property can be looked up in unresolved schemas: through
references to whole components and through the fragments of compositions, later
fragments first.  No component is looked at twice, so the search ends in every
description.

## Main definitions

* `Schema.at?` — the schema that steps lead to.
* `Target`, `Document.target` — what a pointer addresses.
* `Document.declaration?`, `Document.literal?`, `Document.declaredTag` — the
  declaration of a property, the one value it admits, and what the two say about
  a discriminator.
-/

namespace ApiBinding

/-! ### Pointers -/

/-- A list position as a step: decimal digits, a plus sign before them allowed. -/
def listIndex? (step : String) : Option Nat :=
  let digits := match step.toList with
    | '+' :: rest => rest
    | cs => cs
  if digits.isEmpty ∨ ¬ digits.all Char.isDigit then none
  else some (digits.foldl (fun n c => 10 * n + (c.toNat - '0'.toNat)) 0)

/-- The schema that steps lead to.  A step names a keyword; the properties of an
object and the members of a list need a second step. -/
def Schema.at? : Schema → List String → Option Schema
  | s, [] => some s
  | s, [step] =>
    if step = "items" then s.items
    else if step = "additionalProperties" then
      match s.additional with
      | some (.schema inner) => some inner
      | _ => none
    else none
  | s, step :: next :: rest =>
    if step = "properties" then (Table.get? s.properties next).bind fun t => at? t rest
    else if step = "items" then s.items.bind fun t => at? t (next :: rest)
    else if step = "additionalProperties" then
      match s.additional with
      | some (.schema inner) => at? inner (next :: rest)
      | _ => none
    else if step = "allOf" then (member s.allOf next).bind fun t => at? t rest
    else if step = "oneOf" then (member s.oneOf next).bind fun t => at? t rest
    else if step = "anyOf" then (member s.anyOf next).bind fun t => at? t rest
    else none
where
  /-- The member of a list at the position that a step names. -/
  member (schemas : List Schema) (step : String) : Option Schema :=
    (listIndex? step).bind fun i => schemas[i]?

/-- What a pointer addresses. -/
structure Target where
  component : String
  /-- The steps into the component; none for the whole component. -/
  steps : List String
  schema : Schema
  deriving Repr

/-- Whether the whole component is addressed. -/
def Target.isComponent (t : Target) : Bool := t.steps.isEmpty

namespace Document

/-- What a pointer addresses; the location tells where the pointer was written. -/
def target (d : Document) (pointer location : String) : Except CompileError Target :=
  match Pointer.tokens? pointer with
  | none => .error (.unsupportedReference pointer)
  | some (component, steps) =>
    match (d.schema? component).bind fun s => s.at? steps with
    | some schema => .ok ⟨component, steps, schema⟩
    | none => .error (.brokenReference pointer location)

/-! ### Declarations -/

/-- The component that a schema refers to as a whole. -/
def wholeReference? (s : Schema) : Option String := s.reference.bind Pointer.componentName?

/-- How many components have not been looked at. -/
def unseen (d : Document) (seen : List String) : Nat :=
  d.componentNames.countP fun name => !seen.contains name

theorem mem_componentNames {d : Document} {name : String} {s : Schema}
    (h : d.schema? name = some s) : name ∈ d.componentNames := by
  unfold schema? componentNames at *
  generalize d.components.schemas = t at h
  induction t with
  | nil => simp at h
  | cons e rest ih =>
    obtain ⟨k, v⟩ := e
    rw [Table.get?_cons] at h
    rw [Table.keys_cons, List.mem_cons]
    split at h
    · exact Or.inl (by simp_all)
    · exact Or.inr (ih h)

/-- Looking at one more component leaves fewer of them. -/
theorem unseen_cons_lt {d : Document} {seen : List String} {name : String}
    (h : name ∈ d.componentNames) (hs : name ∉ seen) :
    d.unseen (name :: seen) < d.unseen seen := by
  have sub : ∀ x : String, (!(name :: seen).contains x) = true → (!seen.contains x) = true := by
    intro x
    simp
  unfold unseen
  generalize d.componentNames = names at h
  induction names with
  | nil => simp at h
  | cons x xs ih =>
    rw [List.countP_cons, List.countP_cons]
    rcases List.mem_cons.1 h with rfl | hmem
    · have le := List.countP_mono_left (l := xs) fun y _ => sub y
      simpa [hs] using Nat.lt_succ_of_le (by simpa using le)
    · refine Nat.add_lt_add_of_lt_of_le (ih hmem) ?_
      by_cases hx : (!(name :: seen).contains x) = true
      · exact Nat.le_of_eq (by rw [if_pos hx, if_pos (sub x hx)])
      · rw [if_neg hx]
        exact Nat.zero_le _

/-- No component is larger than all of them. -/
theorem size_le_of_schema? {d : Document} {name : String} {s : Schema}
    (h : d.schema? name = some s) : s.size ≤ d.size := by
  unfold schema? size at *
  generalize d.components.schemas = t at h ⊢
  induction t with
  | nil => simp at h
  | cons e rest ih =>
    obtain ⟨k, v⟩ := e
    rw [Table.get?_cons] at h
    rw [Schema.sizeTable]
    split at h
    · rw [Option.some.inj h]
      exact Nat.le_add_right _ _
    · exact Nat.le_trans (ih h) (Nat.le_add_left _ _)

/-- The fragments of a composition, later ones first, before further schemas. -/
def lastFragments (s : Schema) (rest : List Schema) : List Schema := s.allOf.reverse ++ rest

/-- The declaration of a property in the first of the schemas that declares it,
directly or through what it refers to and what it is composed of.  A schema's own
properties count as its last fragment. -/
def declaration? (d : Document) (property : String) :
    List Schema → List String → Option Schema
  | [], _ => none
  | s :: rest, seen =>
    match wholeReference? s with
    | some name =>
      if _ : name ∈ seen then declaration? d property rest seen
      else
        match _ : d.schema? name with
        | some t => declaration? d property (t :: rest) (name :: seen)
        | none => declaration? d property rest seen
    | none =>
      match Table.get? s.properties property with
      | some own => some own
      | none => declaration? d property (lastFragments s rest) seen
termination_by schemas seen => d.unseen seen * (d.size + 1) + Schema.sizeList schemas
decreasing_by
  · have := Schema.size_eq s
    simp only [Schema.sizeList]
    omega
  · -- One component less to look at outweighs the schema of the component.
    have hunseen := Nat.mul_le_mul_right (d.size + 1)
      (unseen_cons_lt (mem_componentNames ‹_›) ‹_›)
    have hsize := size_le_of_schema? ‹d.schema? name = some t›
    rw [Nat.succ_mul] at hunseen
    simp only [Schema.sizeList]
    omega
  · have := Schema.size_eq s
    simp only [Schema.sizeList]
    omega
  · have := Schema.size_eq s
    simp only [Schema.sizeList, lastFragments, Schema.sizeList_append, Schema.sizeList_reverse]
    omega

/-- The one value, other than `null`, that an enumeration or a constant admits. -/
def ownLiteral? (s : Schema) : Option Json :=
  match s.enumeration with
  | some values =>
    match values.filter fun v => !v.isNull with
    | [value] => some value
    | _ => none
  | none => s.constant.filter fun v => !v.isNull

/-- The one value that a schema admits, directly or through references to whole
components. -/
def literal? (d : Document) (s : Schema) (seen : List String) : Option Json :=
  match wholeReference? s with
  | some name =>
    if _ : name ∈ seen then none
    else
      match _ : d.schema? name with
      | some t => literal? d t (name :: seen)
      | none => none
  | none => ownLiteral? s
termination_by d.unseen seen
decreasing_by exact unseen_cons_lt (mem_componentNames ‹_›) ‹_›

/-- What the unresolved schema of a component says about a discriminator
property. -/
def declaredTag (d : Document) (component property : String) : DeclaredTag :=
  match d.schema? component with
  | none => .undeclared
  | some schema =>
    match d.declaration? property [schema] [component] with
    | some declared => .ofLiteral? (d.literal? declared [])
    | none => .undeclared

end Document

end ApiBinding
