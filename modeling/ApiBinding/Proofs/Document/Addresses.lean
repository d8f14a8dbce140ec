import ApiBinding.Document.Lookup
import ApiBinding.Proofs.Tables
import Mathlib.Data.List.Basic

/-!
# What pointers address

A pointer that can be read has a component and steps into it.  It is `Whole` if there
are no steps.  What it addresses depends on the table of components, and there only on
which schema a name has, so the order of the table does not count.

## Main definitions

* `Pointer.Whole` — the pointer addresses a component as a whole.
* `Document.addressed?` — the schema that a pointer addresses.
* `Document.Reorders` — two descriptions that differ in the order of the components.

## Main results

* `Pointer.whole_component` — the pointer that is written for a component leads to it.
* `Document.target_eq_ok_iff` — a pointer has a target if it addresses a schema.
* `Document.Reorders.addressed?_eq` — the order of components does not count.
-/

namespace ApiBinding

namespace Pointer

/-! ### Tokens -/

/-- Escaping loses nothing. -/
theorem unescapeChars_escapeChars (cs : List Char) : unescapeChars (escapeChars cs) = cs := by
  induction cs using escapeChars.induct with
  | case1 => rfl
  | case2 rest ih => rw [escapeChars, unescapeChars, ih]
  | case3 rest ih => rw [escapeChars, unescapeChars, ih]
  | case4 c rest htilde hslash ih =>
    rw [escapeChars, unescapeChars, ih]
    · exact fun _ h => absurd h htilde
    · exact fun _ h => absurd h htilde
    · exact htilde
    · exact hslash

/-- No slash is left in an escaped token. -/
theorem slash_notMem_escapeChars (cs : List Char) : '/' ∉ escapeChars cs := by
  induction cs using escapeChars.induct with
  | case1 => simp [escapeChars]
  | case2 rest ih => simp [escapeChars, ih]
  | case3 rest ih => simp [escapeChars, ih]
  | case4 c rest htilde hslash ih =>
    rw [escapeChars]
    · simp [ih, Ne.symm hslash]
    · exact htilde
    · exact hslash

/-- A text without slashes is one part. -/
theorem splitSlashes_of_notMem {cs : List Char} (h : '/' ∉ cs) : splitSlashes cs = (cs, []) := by
  induction cs with
  | nil => rfl
  | cons c rest ih =>
    rw [List.mem_cons, not_or] at h
    rw [splitSlashes, ih h.2]
    simp [Ne.symm h.1]

theorem escape_injective : Function.Injective escape := by
  intro token token' h
  have hchars : escapeChars token.toList = escapeChars token'.toList := by
    simpa [escape] using congrArg String.toList h
  have htokens := congrArg unescapeChars hchars
  rwa [unescapeChars_escapeChars, unescapeChars_escapeChars, String.toList_inj] at htokens

/-- What stands before the first slash of a text, and what comes after it, are told by the text. -/
theorem append_slash_inj {xs xs' ys ys' : List Char} (hx : '/' ∉ xs) (hx' : '/' ∉ xs')
    (h : xs ++ '/' :: ys = xs' ++ '/' :: ys') : xs = xs' ∧ ys = ys' := by
  induction xs generalizing xs' with
  | nil =>
    cases xs' with
    | nil => exact ⟨rfl, (List.cons.inj h).2⟩
    | cons c rest => exact absurd (.head _) ((List.cons.inj h).1 ▸ hx')
  | cons c rest ih =>
    cases xs' with
    | nil => exact absurd (.head _) ((List.cons.inj h).1 ▸ hx)
    | cons c' rest' =>
      obtain ⟨rfl, hrest⟩ := List.cons.inj h
      obtain ⟨rfl, rfl⟩ := ih (fun hc => hx (.tail _ hc)) (fun hc => hx' (.tail _ hc)) hrest
      exact ⟨rfl, rfl⟩

/-! ### Whole components -/

/-- The pointer addresses the component as a whole. -/
def Whole (pointer component : String) : Prop := tokens? pointer = some (component, [])

instance (pointer component : String) : Decidable (Whole pointer component) :=
  inferInstanceAs (Decidable (_ = _))

theorem Whole.unique {pointer c c' : String} (h : Whole pointer c) (h' : Whole pointer c') :
    c = c' := by
  have heq : some (c, ([] : List String)) = some (c', []) := h.symm.trans h'
  simpa using heq

theorem afterRoot?_component (name : String) :
    afterRoot? (component name) = some (escapeChars name.toList) := by
  simp [afterRoot?, component, escape]

/-- **The pointer to a component leads to that component.** -/
theorem whole_component (name : String) : Whole (component name) name := by
  simp [Whole, tokens?, afterRoot?_component,
    splitSlashes_of_notMem (slash_notMem_escapeChars name.toList), unescapeChars_escapeChars]

/-- A reference that is written for a component as a whole addresses it. -/
theorem whole_of_componentName? {pointer name : String} (h : componentName? pointer = some name) :
    Whole pointer name := by
  unfold componentName? at h
  unfold Whole tokens?
  cases hr : afterRoot? pointer with
  | none => simp [hr] at h
  | some rest =>
    rw [hr] at h
    simp only [Option.bind_eq_bind, Option.bind_some] at h ⊢
    split at h
    · exact absurd h (by simp)
    · rename_i hcond
      rw [not_or] at hcond
      rw [splitSlashes_of_notMem hcond.2]
      simpa using h

end Pointer

/-! ### Targets -/

namespace Document

/-- The schema that a pointer addresses. -/
def addressed? (d : Document) (pointer : String) : Option Schema :=
  (Pointer.tokens? pointer).bind fun t => (d.schema? t.1).bind fun s => s.at? t.2

theorem target_eq_ok_iff {d : Document} {pointer location : String} {t : Target} :
    d.target pointer location = .ok t ↔
      Pointer.tokens? pointer = some (t.component, t.steps) ∧
        d.addressed? pointer = some t.schema := by
  unfold target addressed?
  cases hp : Pointer.tokens? pointer with
  | none => simp
  | some parts =>
    obtain ⟨component, steps⟩ := parts
    simp only [Option.bind_some, Option.some.injEq, Prod.mk.injEq]
    cases (d.schema? component).bind fun s => s.at? steps with
    | none => simp
    | some s =>
      obtain ⟨c, st, sc⟩ := t
      simp [and_assoc]

/-- A pointer that addresses no schema has no target. -/
theorem target_eq_error_iff {d : Document} {pointer location : String} :
    (∃ cause, d.target pointer location = .error cause) ↔ d.addressed? pointer = none := by
  unfold target addressed?
  cases hp : Pointer.tokens? pointer with
  | none => simp
  | some parts =>
    simp only [Option.bind_some]
    cases (d.schema? parts.1).bind fun s => s.at? parts.2 <;> simp

/-- The two faults of a pointer. -/
theorem target_error {d : Document} {pointer location : String} {cause : CompileError}
    (h : d.target pointer location = .error cause) :
    cause = .unsupportedReference pointer ∨ cause = .brokenReference pointer location := by
  unfold target at h
  split at h
  · exact .inl (by simpa using h.symm)
  · split at h
    · simp at h
    · exact .inr (by simpa using h.symm)

/-- The target of a pointer to a component as a whole. -/
theorem target_whole {d : Document} {pointer location component : String} {t : Target}
    (ht : d.target pointer location = .ok t) (hp : Pointer.Whole pointer component) :
    t.component = component ∧ t.isComponent ∧ d.schema? component = some t.schema := by
  obtain ⟨htokens, hschema⟩ := target_eq_ok_iff.1 ht
  have heq : some (t.component, t.steps) = some (component, []) := htokens.symm.trans hp
  simp only [Option.some.injEq, Prod.mk.injEq] at heq
  unfold addressed? at hschema
  rw [hp] at hschema
  refine ⟨heq.1, by simp [Target.isComponent, heq.2], ?_⟩
  simp only [Option.bind_some] at hschema
  cases hs : d.schema? component with
  | none => simp [hs] at hschema
  | some s => simpa [hs, Schema.at?] using hschema

theorem addressed?_whole {d : Document} {pointer component : String}
    (hp : Pointer.Whole pointer component) : d.addressed? pointer = d.schema? component := by
  unfold addressed?
  rw [hp]
  cases hs : d.schema? component <;> simp [hs, Schema.at?]

/-- A pointer to a whole component addresses its schema. -/
theorem target_of_whole {d : Document} {pointer component location : String} {s : Schema}
    (hp : Pointer.Whole pointer component) (hs : d.schema? component = some s) :
    d.target pointer location = .ok ⟨component, [], s⟩ :=
  target_eq_ok_iff.2 ⟨hp, (addressed?_whole hp).trans hs⟩

/-- The whole component is addressed if there are no steps. -/
theorem whole_of_isComponent {d : Document} {pointer location : String} {t : Target}
    (ht : d.target pointer location = .ok t) (hc : t.isComponent) :
    Pointer.Whole pointer t.component := by
  obtain ⟨htokens, -⟩ := target_eq_ok_iff.1 ht
  have hsteps : t.steps = [] := by simpa [Target.isComponent] using hc
  rw [hsteps] at htokens
  exact htokens

/-! ### The order of components -/

/-- The same description with its components in another order.  The names of the
components are distinct, as they are in every description that was read from a text. -/
structure Reorders (d' d : Document) : Prop where
  paths : d'.paths = d.paths
  schemas : d'.components.schemas.Perm d.components.schemas
  nodup : d.componentNames.Nodup

theorem schema?_of_mem {d : Document} {component : String} (h : component ∈ d.componentNames) :
    ∃ s, d.schema? component = some s := by
  unfold componentNames schema? at *
  generalize d.components.schemas = t at h ⊢
  induction t with
  | nil => simp at h
  | cons e rest ih =>
    obtain ⟨k, s⟩ := e
    rw [Table.get?_cons]
    split
    · exact ⟨s, rfl⟩
    · rename_i hk
      rw [Table.keys_cons, List.mem_cons] at h
      exact ih (h.resolve_left (Ne.symm hk))

namespace Reorders

variable {d d' : Document}

theorem refl (h : d.componentNames.Nodup) : d.Reorders d := ⟨rfl, .refl _, h⟩

theorem schema?_eq (h : d'.Reorders d) (component : String) :
    d'.schema? component = d.schema? component :=
  Table.get?_perm h.schemas h.nodup component

theorem mem_componentNames (h : d'.Reorders d) {component : String} :
    component ∈ d'.componentNames ↔ component ∈ d.componentNames :=
  (h.schemas.map Prod.fst).mem_iff

/-- **The order of components does not decide what a pointer addresses.** -/
theorem addressed?_eq (h : d'.Reorders d) (pointer : String) :
    d'.addressed? pointer = d.addressed? pointer := by
  unfold addressed?
  simp only [h.schema?_eq]

end Reorders

end Document

end ApiBinding
