import ApiBinding.Proofs.Document.Spelling
import ApiBinding.Proofs.Resolver.Reordering

/-!
# Resolutions and the spelling of nullability

A resolution looks at the keywords `type` and `nullable` only through what they say together.  So a
description that is respelled is resolved alike: a request for a respelled schema is answered from
a session with the same node, or interrupted in the same way, as the request for the schema itself,
and the session is the same afterwards.

## Main definitions

* `Request.Respells` — the same request, for a schema that is respelled.
* `Follow.Matches` — respelled requests are answered alike.

## Main results

* `Document.Respells.declaredTag_eq` — the same raw declarations are found.
* `Follow.Matches.step` — a step answers respelled requests alike if it does so about the requests
  it leads to.
* `Document.Respells.resolveComponent_eq`, `Document.Respells.resolveSchema_eq` — **respelled
  schemas have the same nodes.**
-/

namespace ApiBinding

/-! ### Finding schemas -/

namespace Schema.Respells

variable {s t : Schema}

theorem wholeReference?_eq (h : s.Respells t) :
    Document.wholeReference? s = Document.wholeReference? t := by
  rw [h.kept]
  rfl

theorem ownLiteral?_eq (h : s.Respells t) : Document.ownLiteral? s = Document.ownLiteral? t := by
  rw [h.kept]
  rfl

theorem member {ss ts : List Schema} (h : List.Forall₂ Respells ss ts) (step : String) :
    Option.Rel Respells (at?.member ss step) (at?.member ts step) := by
  unfold at?.member
  cases listIndex? step with
  | none => exact .none
  | some i => exact rel_getElem? h i

/-- Steps lead to respelled schemas. -/
theorem at? : ∀ {s t : Schema} (steps : List String), s.Respells t →
    Option.Rel Respells (s.at? steps) (t.at? steps)
  | s, t, [], h => by
    rw [Schema.at?, Schema.at?]
    exact .some h
  | s, t, [step], h => by
    rw [Schema.at?, Schema.at?]
    by_cases hitems : step = "items"
    · rw [if_pos hitems, if_pos hitems]
      exact h.items
    rw [if_neg hitems, if_neg hitems]
    by_cases hadditional : step = "additionalProperties"
    · rw [if_pos hadditional, if_pos hadditional]
      have hrel := h.additional
      generalize s.additional = a, t.additional = b at hrel ⊢
      cases hrel with
      | none => exact .none
      | some hrel =>
        cases hrel with
        | permitted value => exact .none
        | schema hrel => exact .some hrel
    · rw [if_neg hadditional, if_neg hadditional]
      exact .none
  | s, t, step :: next :: rest, h => by
    -- A member of the schema is respelled, and so is what the other steps lead to from there.
    have hbind : ∀ {o p : Option Schema} (steps : List String), Option.Rel Respells o p →
        (∀ {u v : Schema}, u.Respells v → Option.Rel Respells (u.at? steps) (v.at? steps)) →
        Option.Rel Respells (o.bind (Schema.at? · steps)) (p.bind (Schema.at? · steps)) := by
      intro o p steps hop hsteps
      cases hop with
      | none => exact .none
      | some huv => exact hsteps huv
    have hrest := fun {u v : Schema} (huv : u.Respells v) => at? rest huv
    have hnext := fun {u v : Schema} (huv : u.Respells v) => at? (next :: rest) huv
    rw [Schema.at?, Schema.at?]
    split
    · exact hbind rest (h.properties.get? next) hrest
    split
    · exact hbind (next :: rest) h.items hnext
    split
    · have hrel := h.additional
      generalize s.additional = a, t.additional = b at hrel ⊢
      cases hrel with
      | none => exact .none
      | some hrel =>
        cases hrel with
        | permitted value => exact .none
        | schema hrel => exact hnext hrel
    split
    · exact hbind rest (member h.allOf next) hrest
    split
    · exact hbind rest (member h.oneOf next) hrest
    split
    · exact hbind rest (member h.anyOf next) hrest
    · exact .none

end Schema.Respells

namespace Document.Respells

variable {d' d : Document} (h : d'.Respells d)

include h

theorem schema? (component : String) :
    Option.Rel Schema.Respells (d'.schema? component) (d.schema? component) :=
  h.schemas.get? component

theorem componentNames_eq : d'.componentNames = d.componentNames := h.schemas.keys_eq

theorem size_eq : d'.size = d.size := Schema.sizeTable_eq h.schemas

theorem schema?_some {name : String} {t : Schema} (ht : d.schema? name = some t) :
    ∃ t', d'.schema? name = some t' ∧ t'.Respells t :=
  exists_of_rel_some (ht ▸ h.schema? name)

theorem schema?_none {name : String} (hnone : d.schema? name = none) : d'.schema? name = none :=
  eq_none_of_rel (hnone ▸ h.schema? name)

/-- The declaration of a property that is found is respelled. -/
theorem declaration? (property : String) (schemas : List Schema) (seen : List String) :
    ∀ {schemas' : List Schema}, List.Forall₂ Schema.Respells schemas' schemas →
      Option.Rel Schema.Respells (d'.declaration? property schemas' seen)
        (d.declaration? property schemas seen) := by
  induction schemas, seen using Document.declaration?.induct d property with
  | case1 seen =>
    rintro _ ⟨⟩
    rw [Document.declaration?, Document.declaration?]
    exact .none
  | case2 s rest seen name hname hseen ih =>
    rintro _ (_ | ⟨hs, hrest⟩)
    rw [declaration?_cons, declaration?_cons d, hs.wholeReference?_eq, hname]
    simpa only [hseen, if_true] using ih hrest
  | case3 s rest seen name hname hseen t ht ih =>
    rintro _ (_ | ⟨hs, hrest⟩)
    obtain ⟨t', ht', htarget⟩ := h.schema?_some ht
    rw [declaration?_cons, declaration?_cons d, hs.wholeReference?_eq, hname]
    simpa only [hseen, if_false, ht, ht'] using ih (.cons htarget hrest)
  | case4 s rest seen name hname hseen hnone ih =>
    rintro _ (_ | ⟨hs, hrest⟩)
    rw [declaration?_cons, declaration?_cons d, hs.wholeReference?_eq, hname]
    simpa only [hseen, if_false, hnone, h.schema?_none hnone] using ih hrest
  | case5 s rest seen hname own hown =>
    rintro _ (_ | ⟨hs, hrest⟩)
    obtain ⟨own', hown', hdeclared⟩ := exists_of_rel_some (hown ▸ hs.properties.get? property)
    rw [declaration?_cons, declaration?_cons d, hs.wholeReference?_eq, hname]
    simpa only [hown, hown'] using .some hdeclared
  | case6 s rest seen hname hown ih =>
    rintro _ (_ | ⟨hs, hrest⟩)
    have hnone := eq_none_of_rel (hown ▸ hs.properties.get? property)
    have hfragments := List.rel_append (List.rel_reverse hs.allOf) hrest
    rw [declaration?_cons, declaration?_cons d, hs.wholeReference?_eq, hname]
    simp only [hown, hnone]
    exact ih hfragments

/-- The one value that a schema admits stays. -/
theorem literal?_eq (s : Schema) (seen : List String) :
    ∀ {s' : Schema}, s'.Respells s → d'.literal? s' seen = d.literal? s seen := by
  induction s, seen using Document.literal?.induct d with
  | case1 s seen name hname hseen =>
    intro s' hs
    rw [literal?_eq_match, literal?_eq_match d, hs.wholeReference?_eq, hname]
    simp only [hseen, if_true]
  | case2 s seen name hname hseen t ht ih =>
    intro s' hs
    obtain ⟨t', ht', htarget⟩ := h.schema?_some ht
    rw [literal?_eq_match, literal?_eq_match d, hs.wholeReference?_eq, hname]
    simpa only [hseen, if_false, ht, ht'] using ih htarget
  | case3 s seen name hname hseen hnone =>
    intro s' hs
    rw [literal?_eq_match, literal?_eq_match d, hs.wholeReference?_eq, hname]
    simp only [hseen, if_false, hnone, h.schema?_none hnone]
  | case4 s seen hname =>
    intro s' hs
    rw [literal?_eq_match, literal?_eq_match d, hs.wholeReference?_eq, hname]
    exact hs.ownLiteral?_eq

theorem declaredTag_eq (component property : String) :
    d'.declaredTag component property = d.declaredTag component property := by
  unfold declaredTag
  cases hbody : d.schema? component with
  | none => rw [h.schema?_none hbody]
  | some s =>
    obtain ⟨s', hs', hs⟩ := h.schema?_some hbody
    have hdeclared := h.declaration? property [s] [component] (.cons hs .nil)
    cases hfound : d.declaration? property [s] [component] with
    | none =>
      rw [hfound] at hdeclared
      simp only [hs', hfound, eq_none_of_rel hdeclared]
    | some t =>
      rw [hfound] at hdeclared
      obtain ⟨t', ht', ht⟩ := exists_of_rel_some hdeclared
      simp only [hs', hfound, ht', h.literal?_eq t [] ht]

/-- **A pointer addresses the same place**, where it finds the schema respelled. -/
theorem bind_target {β : Type} (pointer location : String) {f' f : Target → Resolution β}
    (hf : ∀ component steps {s' s : Schema}, s'.Respells s →
      f' ⟨component, steps, s'⟩ = f ⟨component, steps, s⟩) :
    (Resolution.ofExcept (d'.target pointer location) >>= f') =
      (Resolution.ofExcept (d.target pointer location) >>= f) := by
  unfold target
  cases htokens : Pointer.tokens? pointer with
  | none => rfl
  | some place =>
    obtain ⟨component, steps⟩ := place
    have haddressed : Option.Rel Schema.Respells
        ((d'.schema? component).bind fun s => s.at? steps)
        ((d.schema? component).bind fun s => s.at? steps) := by
      cases hbody : d.schema? component with
      | none =>
        rw [h.schema?_none hbody]
        exact .none
      | some s =>
        obtain ⟨s', hs', hs⟩ := h.schema?_some hbody
        rw [hs']
        exact hs.at? steps
    dsimp only
    generalize ((d'.schema? component).bind fun s => s.at? steps) = o',
      ((d.schema? component).bind fun s => s.at? steps) = o at haddressed
    cases haddressed with
    | none => rfl
    | some hs => exact hf component steps hs

end Document.Respells

/-! ### Requests -/

/-- The same request, for a schema that is respelled. -/
inductive Request.Respells : Request → Request → Prop
  | reference (pointer location : String) (link : Bool) :
      Respells (.reference pointer location link) (.reference pointer location link)
  | fragment (pointer location : String) (spine : Bool) :
      Respells (.fragment pointer location spine) (.fragment pointer location spine)
  | schema {s t : Schema} (h : s.Respells t) (location : String) (name : Option String)
      (spine : Bool) : Respells (.schema s location name spine) (.schema t location name spine)

/-- Respelled requests are answered alike. -/
def Follow.Matches (follow' follow : Follow) : Prop :=
  ∀ {r' r : Request}, r'.Respells r → follow' r' = follow r

namespace Resolution

variable {α α' β : Type} {R : α' → α → Prop}

theorem each_eq {work' : α' → Resolution β} {work : α → Resolution β}
    (hwork : ∀ a' a, R a' a → work' a' = work a) {as' : List α'} {as : List α}
    (h : List.Forall₂ R as' as) : each work' as' = each work as := by
  induction h with
  | nil => rfl
  | cons head _ ih => rw [each, each, hwork _ _ head, ih]

theorem eachFrom_eq {work' : Nat → α' → Resolution β} {work : Nat → α → Resolution β}
    (hwork : ∀ index a' a, R a' a → work' index a' = work index a) {as' : List α'}
    {as : List α} (h : List.Forall₂ R as' as) :
    ∀ index, eachFrom work' index as' = eachFrom work index as := by
  induction h with
  | nil => exact fun _ => rfl
  | cons head _ ih =>
    intro index
    rw [eachFrom, eachFrom, hwork index _ _ head, ih (index + 1)]

theorem annotate_eq {s t : Schema} (h : s.Respells t) (body : Body) (name : Option String) :
    annotate body s name = annotate body t name := by
  have hdescription : s.description = t.description := by rw [h.kept]
  have hdefault : s.default = t.default := by rw [h.kept]
  unfold annotate
  rw [h.isNullable_eq, hdescription, hdefault]

end Resolution

namespace Follow

theorem referring_eq {s t : Schema} (h : s.Respells t) (target : Node) (name : Option String) :
    referring target s name = referring target t name := by
  unfold referring
  rw [h.isNullable_eq, Resolution.annotate_eq h]

theorem backReference_eq {s t : Schema} (h : s.Respells t) (component : String)
    (steps : List String) :
    backReference ⟨component, steps, s⟩ = backReference ⟨component, steps, t⟩ := by
  unfold backReference
  rw [h.isNullable_eq]

theorem wrapped?_eq {s t : Schema} (h : s.Respells t) (name : Option String) (spine : Bool) :
    wrapped? s name spine = wrapped? t name spine := by
  have hproperties := h.properties.isEmpty_eq
  have hall := h.allOf
  unfold wrapped?
  rw [hproperties]
  generalize s.allOf = fragments', t.allOf = fragments at hall
  cases hall with
  | nil => rfl
  | @cons only' only _ _ head tail =>
    cases tail with
    | nil =>
      have hreference : only'.reference = only.reference := by rw [head.kept]
      dsimp only
      rw [hreference]
    | cons _ _ => rfl

namespace Matches

variable {follow' follow : Follow} (hfollow : Matches follow' follow) {s t : Schema}

include hfollow

theorem schema_eq (h : s.Respells t) (location : String) (name : Option String) (spine : Bool) :
    follow' (.schema s location name spine) = follow (.schema t location name spine) :=
  hfollow (.schema h location name spine)

theorem reference_eq (pointer location : String) (link : Bool) :
    follow' (.reference pointer location link) = follow (.reference pointer location link) :=
  hfollow (.reference pointer location link)

theorem fragment_eq (pointer location : String) (spine : Bool) :
    follow' (.fragment pointer location spine) = follow (.fragment pointer location spine) :=
  hfollow (.fragment pointer location spine)

/-! #### Objects and arrays -/

theorem additionalNode (h : s.Respells t) (location : String) :
    additionalNode follow' s location = additionalNode follow t location := by
  have hadditional := h.additional
  unfold Follow.additionalNode
  generalize s.additional = a, t.additional = b at hadditional ⊢
  cases hadditional with
  | none => rfl
  | some hrel =>
    cases hrel with
    | permitted value => cases value <;> rfl
    | schema hinner => simp only [hfollow.schema_eq hinner]

theorem object (h : s.Respells t) (location : String) :
    object follow' s location = object follow t location := by
  have hrequired : s.required = t.required := by rw [h.kept]
  have hproperties : Resolution.each (propertyNode follow' location) s.properties =
      Resolution.each (propertyNode follow location) t.properties := by
    refine Resolution.each_eq ?_ h.properties.forall₂
    rintro ⟨key, inner'⟩ ⟨_, inner⟩ ⟨rfl, hinner⟩
    unfold propertyNode
    simp only [hfollow.schema_eq hinner]
  unfold Follow.object
  rw [hproperties, hrequired, hfollow.additionalNode h]

theorem array (h : s.Respells t) (location : String) :
    array follow' s location = array follow t location := by
  have hitems := h.items
  unfold Follow.array
  generalize s.items = items', t.items = items at hitems ⊢
  cases hitems with
  | none => rfl
  | some hinner => simp only [hfollow.schema_eq hinner]

theorem typed (h : s.Respells t) (typeName location : String) :
    typed follow' typeName s location = typed follow typeName t location := by
  have hformat : s.format = t.format := by rw [h.kept]
  unfold Follow.typed
  rw [hformat, hfollow.object h, hfollow.array h]

theorem untyped (h : s.Respells t) (location : String) :
    untyped follow' s location = untyped follow t location := by
  have hrequired : s.required = t.required := by rw [h.kept]
  unfold Follow.untyped
  rw [h.isNullType_eq, h.properties.isEmpty_eq, hrequired, isSome_eq_of_rel h.additional,
    isSome_eq_of_rel h.items, hfollow.object h, hfollow.array h]

theorem plainShape (h : s.Respells t) (location : String) :
    plainShape follow' s location = plainShape follow t location := by
  unfold Follow.plainShape
  rw [h.typeNames_eq, hfollow.untyped h]
  simp only [hfollow.typed h]

/-! #### Compositions -/

theorem fragmentNode (h : s.Respells t) (location : String) (spine : Bool) (index : Nat) :
    fragmentNode follow' location spine index s = fragmentNode follow location spine index t := by
  have hreference : s.reference = t.reference := by rw [h.kept]
  unfold Follow.fragmentNode
  rw [hreference]
  simp only [hfollow.fragment_eq, hfollow.schema_eq h]

theorem ownFragment (h : s.Respells t) (location : String) :
    ownFragment follow' s location = ownFragment follow t location := by
  have hrequired : s.required = t.required := by rw [h.kept]
  unfold Follow.ownFragment
  rw [h.properties.isEmpty_eq, hrequired, hfollow.object h]

theorem composition (h : s.Respells t) (location : String) (name : Option String)
    (spine : Bool) :
    composition follow' s location name spine = composition follow t location name spine := by
  have hfragments : Resolution.eachFrom (Follow.fragmentNode follow' location spine) 0 s.allOf =
      Resolution.eachFrom (Follow.fragmentNode follow location spine) 0 t.allOf := by
    refine Resolution.eachFrom_eq ?_ h.allOf 0
    intro index inner' inner hinner
    exact hfollow.fragmentNode hinner location spine index
  unfold Follow.composition
  rw [wrapped?_eq h, hfragments, hfollow.ownFragment h]
  simp only [hfollow.reference_eq, Resolution.annotate_eq h, referring_eq h]

/-! #### References -/

section Target

variable (component : String) (steps : List String) (pointer location : String)

theorem expand (h : s.Respells t) (link fresh : Bool) :
    expand follow' pointer ⟨component, steps, s⟩ link fresh =
      expand follow pointer ⟨component, steps, t⟩ link fresh := by
  unfold Follow.expand Target.isComponent
  rw [hfollow.schema_eq h]

theorem enter (h : s.Respells t) (link : Bool) :
    enter follow' pointer location ⟨component, steps, s⟩ link =
      enter follow pointer location ⟨component, steps, t⟩ link := by
  unfold Follow.enter partOf Target.isComponent
  simp only [hfollow.reference_eq, hfollow.expand component steps pointer h]

end Target

/-! #### Unions and steps -/

section Document

variable {d' d : Document} (hd : d'.Respells d)

include hd

theorem variant (h : s.Respells t) {member' member : Schema} (hmember : member'.Respells member)
    (keyword : UnionKeyword) (location : String) (index : Nat) :
    variant follow' d' s keyword location index member' =
      variant follow d t keyword location index member := by
  have hdiscriminator : s.discriminator = t.discriminator := by rw [h.kept]
  have hdeclared : ∀ node, declaredBy d' s node = declaredBy d t node := by
    intro node
    unfold declaredBy
    rw [hdiscriminator]
    simp only [hd.declaredTag_eq]
  unfold Follow.variant
  simp only [hfollow.schema_eq hmember, hmember.wholeReference?_eq, hdeclared]

theorem union (h : s.Respells t) (keyword : UnionKeyword) {members' members : List Schema}
    (hmembers : List.Forall₂ Schema.Respells members' members) (location : String)
    (name : Option String) :
    union follow' d' s keyword members' location name =
      union follow d t keyword members location name := by
  have hdiscriminator : s.discriminator = t.discriminator := by rw [h.kept]
  have hvariants : Resolution.eachFrom (Follow.variant follow' d' s keyword location) 0 members' =
      Resolution.eachFrom (Follow.variant follow d t keyword location) 0 members := by
    refine Resolution.eachFrom_eq ?_ hmembers 0
    intro index member' member hmember
    exact hfollow.variant hd h hmember keyword location index
  unfold Follow.union
  rw [hvariants, hdiscriminator]
  simp only [Resolution.annotate_eq h]

theorem schema (h : s.Respells t) (location : String) (name : Option String) (spine : Bool) :
    schema follow' d' s location name spine = schema follow d t location name spine := by
  have hreference : s.reference = t.reference := by rw [h.kept]
  have henumeration : s.enumeration = t.enumeration := by rw [h.kept]
  have hconstant : s.constant = t.constant := by rw [h.kept]
  unfold Follow.schema
  rw [hreference, henumeration, hconstant, isEmpty_eq_of_forall₂ h.allOf,
    isEmpty_eq_of_forall₂ h.oneOf, isEmpty_eq_of_forall₂ h.anyOf, hfollow.composition h,
    hfollow.union hd h _ h.oneOf, hfollow.union hd h _ h.anyOf, hfollow.plainShape h]
  simp only [hfollow.reference_eq, referring_eq h, Resolution.annotate_eq h]

variable (pointer location : String)

theorem reference (link : Bool) :
    reference follow' d' pointer location link = reference follow d pointer location link := by
  unfold Follow.reference Target.isComponent
  refine hd.bind_target pointer location fun component steps {s' s} hs => ?_
  simp only [hfollow.enter component steps pointer location hs, backReference_eq hs]

theorem fragment (spine : Bool) :
    fragment follow' d' pointer location spine = fragment follow d pointer location spine := by
  unfold Follow.fragment
  refine hd.bind_target pointer location fun component steps {s' s} hs => ?_
  simp only [hfollow.expand component steps pointer hs, hfollow.reference hd]

/-- **A step answers respelled requests alike** if it does so about the requests it leads to. -/
theorem step : Matches (Follow.step follow' d') (Follow.step follow d) := by
  intro r' r h
  cases h with
  | reference pointer location link => exact hfollow.reference hd pointer location link
  | fragment pointer location spine => exact hfollow.fragment hd pointer location spine
  | schema hs location name spine => exact hfollow.schema hd hs location name spine

end Document

end Matches

end Follow

/-! ### Resolutions -/

namespace Document.Respells

variable {d' d : Document} (h : d'.Respells d)

include h

/-- **Respelled requests are answered alike**, with any number of nested steps. -/
theorem follow_matches (depth : Nat) : Follow.Matches (d'.follow depth) (d.follow depth) := by
  induction depth with
  | zero => exact fun _ => rfl
  | succ depth ih => exact ih.step h

theorem resolveComponent_eq (component : String) :
    d'.resolveComponent component = d.resolveComponent component := by
  unfold resolveComponent resolve
  rw [h.size_eq]
  exact h.follow_matches _ (.reference _ _ _)

theorem resolveSchema_eq {s t : Schema} (hs : s.Respells t) (location : String) :
    d'.resolveSchema s location = d.resolveSchema t location := by
  unfold resolveSchema
  rw [h.size_eq, hs.size_eq]
  exact h.follow_matches _ (.schema hs _ _ _)

end Document.Respells

end ApiBinding
