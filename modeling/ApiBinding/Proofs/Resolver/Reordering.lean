import ApiBinding.Proofs.Document.Addresses
import ApiBinding.Resolver

/-!
# Resolutions and the order of components

A resolution looks components up by their names, and it looks at nothing else in a description.
So neither the order of the components nor the path table counts: what is asked for from one
session is answered alike.  Only which session a request is made from, that is, what was asked for
before, depends on them.

## Main definitions

* `Document.Agrees` — the names of components stand for the same schemas.

## Main results

* `Document.Agrees.declaredTag_eq` — the same raw declarations are found.
* `Document.Agrees.follow_eq`, `Document.Agrees.resolveComponent_eq`,
  `Document.Agrees.resolveSchema_eq` — **from one session, all requests are answered alike.**
-/

namespace ApiBinding

theorem Schema.sizeTable_perm {ps qs : List (String × Schema)} (h : ps.Perm qs) :
    sizeTable ps = sizeTable qs := by
  induction h with
  | nil => rfl
  | cons p _ ih => rw [sizeTable, sizeTable, ih]
  | swap p q ps =>
    simp only [sizeTable]
    omega
  | trans _ _ ih ih' => exact ih.trans ih'

namespace Document

/-! ### Raw declarations

The searches, without the evidence that they end. -/

section Raw

variable (d : Document) {property name : String} {s : Schema} {rest : List Schema}
  {seen : List String}

theorem declaration?_cons :
    d.declaration? property (s :: rest) seen =
      match wholeReference? s with
      | some name =>
        if name ∈ seen then d.declaration? property rest seen
        else
          match d.schema? name with
          | some t => d.declaration? property (t :: rest) (name :: seen)
          | none => d.declaration? property rest seen
      | none =>
        match Table.get? s.properties property with
        | some own => some own
        | none => d.declaration? property (lastFragments s rest) seen := by
  rw [declaration?]
  cases wholeReference? s with
  | none => cases Table.get? s.properties property <;> rfl
  | some name =>
    by_cases hseen : name ∈ seen
    · simp only [dif_pos hseen, if_pos hseen]
    · simp only [dif_neg hseen, if_neg hseen]
      split <;> simp_all

theorem literal?_eq_match :
    d.literal? s seen =
      match wholeReference? s with
      | some name =>
        if name ∈ seen then none
        else
          match d.schema? name with
          | some t => d.literal? t (name :: seen)
          | none => none
      | none => ownLiteral? s := by
  rw [literal?]
  cases wholeReference? s with
  | none => rfl
  | some name =>
    by_cases hseen : name ∈ seen
    · simp only [dif_pos hseen, if_pos hseen]
    · simp only [dif_neg hseen, if_neg hseen]
      split <;> simp_all

end Raw

/-- The names of components stand for the same schemas, and there are as many schemas. -/
structure Agrees (d' d : Document) : Prop where
  schema?_eq : ∀ component, d'.schema? component = d.schema? component
  size_eq : d'.size = d.size

/-- A description in another order agrees. -/
theorem Reorders.agrees {d d' : Document} (h : d'.Reorders d) : d'.Agrees d :=
  ⟨h.schema?_eq, Schema.sizeTable_perm h.schemas⟩

/-- A description with the same components agrees. -/
theorem agrees_of_components {d d' : Document} (h : d'.components = d.components) :
    d'.Agrees d := by
  refine ⟨fun component => ?_, ?_⟩
  · unfold schema?
    rw [h]
  · unfold size
    rw [h]

namespace Agrees

variable {d d' : Document}

theorem target_eq (h : d'.Agrees d) (pointer location : String) :
    d'.target pointer location = d.target pointer location := by
  unfold target
  simp only [h.schema?_eq]

theorem declaration?_eq (h : d'.Agrees d) (property : String) (schemas : List Schema)
    (seen : List String) :
    d'.declaration? property schemas seen = d.declaration? property schemas seen := by
  induction schemas, seen using declaration?.induct d property with
  | case1 seen => simp only [declaration?]
  | case2 s rest seen name hname hseen ih =>
    rw [declaration?_cons, declaration?_cons, hname]
    simpa only [hseen, if_true] using ih
  | case3 s rest seen name hname hseen t ht ih =>
    rw [declaration?_cons, declaration?_cons d, hname]
    simpa only [hseen, if_false, h.schema?_eq, ht] using ih
  | case4 s rest seen name hname hseen hnone ih =>
    rw [declaration?_cons, declaration?_cons d, hname]
    simpa only [hseen, if_false, h.schema?_eq, hnone] using ih
  | case5 s rest seen hname own hown =>
    rw [declaration?_cons, declaration?_cons d, hname]
    simp only [hown]
  | case6 s rest seen hname hown ih =>
    rw [declaration?_cons, declaration?_cons d, hname]
    simpa only [hown] using ih

theorem literal?_eq (h : d'.Agrees d) (s : Schema) (seen : List String) :
    d'.literal? s seen = d.literal? s seen := by
  induction s, seen using literal?.induct d with
  | case1 s seen name hname hseen =>
    rw [literal?_eq_match, literal?_eq_match, hname]
    simp only [hseen, if_true]
  | case2 s seen name hname hseen t ht ih =>
    rw [literal?_eq_match, literal?_eq_match d, hname]
    simp only [hseen, if_false, h.schema?_eq, ht]
    exact ih
  | case3 s seen name hname hseen hnone =>
    rw [literal?_eq_match, literal?_eq_match, hname]
    simp only [hseen, if_false, h.schema?_eq, hnone]
  | case4 s seen hname =>
    rw [literal?_eq_match, literal?_eq_match, hname]

theorem declaredTag_eq (h : d'.Agrees d) (component property : String) :
    d'.declaredTag component property = d.declaredTag component property := by
  unfold declaredTag
  simp only [h.schema?_eq, h.declaration?_eq, h.literal?_eq]

/-! ### Resolutions -/

theorem step_eq (h : d'.Agrees d) (follow : Follow) :
    Follow.step follow d' = Follow.step follow d := by
  have hdeclared : Follow.declaredBy d' = Follow.declaredBy d := by
    funext s n
    unfold Follow.declaredBy
    simp only [h.declaredTag_eq]
  funext r
  cases r with
  | reference pointer location link =>
    unfold Follow.step Follow.reference
    simp only [h.target_eq]
  | fragment pointer location spine =>
    unfold Follow.step Follow.fragment Follow.reference
    simp only [h.target_eq]
  | schema s location name spine =>
    unfold Follow.step Follow.schema Follow.union Follow.variant
    simp only [hdeclared]

/-- **From one session, the same is answered.** -/
theorem follow_eq (h : d'.Agrees d) : ∀ depth, d'.follow depth = d.follow depth
  | 0 => rfl
  | depth + 1 => by
    funext r
    rw [follow, follow, h.follow_eq depth, h.step_eq]

theorem resolveComponent_eq (h : d'.Agrees d) (component : String) :
    d'.resolveComponent component = d.resolveComponent component := by
  unfold resolveComponent resolve
  rw [h.size_eq, h.follow_eq]

theorem resolveSchema_eq (h : d'.Agrees d) (schema : Schema) (location : String) :
    d'.resolveSchema schema location = d.resolveSchema schema location := by
  unfold resolveSchema
  rw [h.size_eq, h.follow_eq]

end Agrees

end Document

end ApiBinding
