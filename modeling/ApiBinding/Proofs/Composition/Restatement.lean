import ApiBinding.Proofs.Composition.Tags
import ApiBinding.Proofs.Resolver.Realms

/-!
# Schemas that restate a component

A schema may say nothing of its own: it refers to a component, or it is a union that is not tagged
and has such a member, or a composition of which one fragment is such a schema and the others say
nothing.  The type of its node is then the model of the component, optional or not, or a union with
that model.

Which components a schema restates can be read off the description.  Every reference that is met on
the way stands for its component, whether the component is finished or open, so it does not depend
on the order in which components are resolved.

## Main definitions

* `Node.Offers`, `Shape.Restates` — the components whose models the type of a node may stand for.
* `Schema.Offers`, `Schema.Restates` — the same, read off the schema.
* `Legible` — sets of schemas in which it can be read off completely.

## Main results

* `restates_mergeFragments`, `restates_classify` — what compositions and unions restate.
* `restatingClaims_sound` — **the node of a component restates what its schema restates**, and
  nothing else if the schemas are legible.
-/

namespace ApiBinding

/-! ### Nodes that restate components -/

mutual

/-- Where the node is used, the model of the component may stand: the node is that of the
component, or it has no name and its shape restates the component. -/
inductive Node.Offers : Node → String → Prop where
  | component {n : Node} {c : String} (h : n.name = some c) : Node.Offers n c
  | shape {n : Node} {c : String} (hn : n.name = none) (h : Shape.Restates false n.shape c) :
      Node.Offers n c

/-- The shape is nothing but a component, or a choice between nodes one of which offers the
component.  If it has to be so `alone`, there is no other choice. -/
inductive Shape.Restates : Bool → Shape Node → String → Prop where
  | backRef {alone : Bool} {c : String} : Shape.Restates alone (.backRef c) c
  | union {alone : Bool} {variants : List Node} {v : Node} {c : String} (hv : v ∈ variants)
      (halone : alone → variants.length ≤ 1) (h : Node.Offers v c) :
      Shape.Restates alone (.union variants .untagged) c

end

section Nodes

variable {n m : Node} {c c' : String} {alone : Bool}

theorem Node.offers_of_name (hn : n.name = some c) : n.Offers c' ↔ c' = c := by
  constructor
  · intro h
    cases h with
    | component h =>
      rw [hn, Option.some.injEq] at h
      exact h.symm
    | shape hnone => simp [hn] at hnone
  · rintro rfl
    exact .component hn

theorem Node.offers_of_unnamed (hn : n.name = none) :
    n.Offers c ↔ n.shape.Restates false c := by
  constructor
  · intro h
    cases h with
    | component h => simp [hn] at h
    | shape _ h => exact h
  · exact .shape hn

theorem Shape.restates_backRef : (Shape.backRef c).Restates alone c' ↔ c' = c := by
  constructor
  · intro h
    cases h
    rfl
  · rintro rfl
    exact .backRef

/-- A back reference offers the component that it refers to. -/
theorem Node.RefersBack.offers (h : n.RefersBack c) : n.Offers c' ↔ c' = c := by
  rw [Node.offers_of_unnamed h.name, h.shape, Shape.restates_backRef]

/-- A choice without an alternative restates what the node offers. -/
theorem Shape.restates_single : (Shape.union [m] .untagged).Restates alone c ↔ m.Offers c := by
  constructor
  · intro h
    cases h with
    | union hv _ h => exact List.mem_singleton.1 hv ▸ h
  · exact .union (.head _) fun _ => Nat.le_refl 1

/-- What a reference refers to is offered: by the target itself or by a choice without an
alternative. -/
theorem RefersTo.offers {target : Node} {s : Schema} (h : RefersTo target s none n) :
    n.Offers c ↔ target.Offers c := by
  unfold RefersTo at h
  split at h
  · rw [h]
  · rw [Node.offers_of_unnamed h.name, h.shape]
    exact Shape.restates_single

theorem Shape.Restates.not_isAny {shape : Shape Node} (h : shape.Restates alone c) :
    shape.isAny = false := by
  cases h <;> rfl

theorem Shape.Restates.not_isObject {shape : Shape Node} (h : shape.Restates alone c) :
    shape.isObject = false := by
  cases h <;> rfl

end Nodes

/-! ### Compositions and unions of nodes -/

/-- **What merged fragments restate**: what one fragment restates, if all others say nothing. -/
theorem restates_mergeFragments {nodes : List Node} {location : String} {alone : Bool}
    {c : String} :
    (mergeFragments nodes location).1.shape.Restates alone c ↔
      ∃ before n after, nodes = before ++ n :: after ∧
        (∀ m ∈ before ++ after, m.shape.isAny) ∧ n.shape.Restates alone c := by
  constructor
  · intro h
    unfold mergeFragments at h
    split at h
    · exact absurd h.not_isObject (by simp [mergeObjects, ObjectParts.toBody, Shape.isObject])
    · split at h
      · exact absurd h.not_isAny (by simp [Shape.isAny])
      · rename_i only honly
        obtain ⟨before, after, rfl, hbefore, -, hafter⟩ := List.filter_eq_cons_iff.1 honly
        refine ⟨before, only, after, rfl, fun m hm => ?_, h⟩
        rcases List.mem_append.1 hm with hm | hm
        · simpa using hbefore m hm
        · simpa using List.filter_eq_nil_iff.1 hafter m hm
      · exact absurd h.not_isObject (by simp [mergeObjects, ObjectParts.toBody, Shape.isObject])
  · rintro ⟨before, n, after, rfl, hsilent, h⟩
    have hobject : ¬ (before ++ n :: after).any fun m => m.shape.isObject := by
      rw [List.any_eq_true]
      rintro ⟨m, hm, hmobject⟩
      have hm : m = n ∨ m ∈ before ++ after := by
        simpa [or_left_comm] using hm
      rcases hm with rfl | hm
      · simp [h.not_isObject] at hmobject
      · have hany := hsilent m hm
        cases hshape : m.shape <;> simp_all [Shape.isAny, Shape.isObject]
    have hkept : (before ++ n :: after).filter (fun m => !m.shape.isAny) = [n] := by
      refine List.filter_eq_cons_iff.2 ⟨before, after, rfl, fun m hm => ?_, ?_, ?_⟩
      · simp [hsilent m (List.mem_append_left _ hm)]
      · simp [h.not_isAny]
      · exact List.filter_eq_nil_iff.2 fun m hm => by
          simp [hsilent m (List.mem_append_right _ hm)]
    rw [mergeFragments, if_neg hobject, hkept]
    exact h

/-- A union is untagged without a discriminator, and so is one that is written `anyOf`. -/
theorem classify_tagging {keyword : UnionKeyword} {variants : List Variant}
    {discriminator : Option Discriminator} {location : String} {body : Body}
    {findings : List Diagnostic}
    (h : classify keyword variants discriminator location = .ok (body, findings)) :
    ∃ tagging, body.shape =
        .union ((variants.filter fun v => !v.node.shape.isNull).map Variant.node) tagging ∧
      (tagging = .untagged ↔ keyword = .anyOf ∨ discriminator = none) := by
  cases discriminator with
  | none =>
    simp only [classify, taggingOf, Except.map, Except.ok.injEq, Prod.mk.injEq] at h
    exact ⟨.untagged, by rw [← h.1], by simp⟩
  | some D =>
    cases keyword with
    | anyOf =>
      simp only [classify, taggingOf, Except.map, Except.ok.injEq, Prod.mk.injEq] at h
      exact ⟨.untagged, by rw [← h.1], by simp⟩
    | oneOf =>
      obtain ⟨tags, -, hshape⟩ := classify_tagged h
      exact ⟨_, hshape, by simp⟩

/-- One element is kept, and no other. -/
theorem length_filter_le_one_iff {α : Type} {p : α → Bool} {before after : List α} {a : α}
    (ha : p a) : ((before ++ a :: after).filter p).length ≤ 1 ↔ ∀ b ∈ before ++ after, ¬ p b := by
  have hlength : ((before ++ a :: after).filter p).length =
      ((before ++ after).filter p).length + 1 := by
    rw [List.filter_append, List.filter_append, List.filter_cons_of_pos ha, List.length_append,
      List.length_append, List.length_cons]
    omega
  rw [hlength, ← List.filter_eq_nil_iff, ← List.length_eq_zero_iff]
  omega

/-- **What a union restates**: what a member offers that is not `null`, if the union is untagged. -/
theorem restates_classify {keyword : UnionKeyword} {variants : List Variant}
    {discriminator : Option Discriminator} {location : String} {body : Body}
    {findings : List Diagnostic} {alone : Bool} {c : String}
    (h : classify keyword variants discriminator location = .ok (body, findings)) :
    body.shape.Restates alone c ↔ (keyword = .anyOf ∨ discriminator = none) ∧
      ∃ before v after, variants = before ++ v :: after ∧ ¬ v.node.shape.isNull ∧
        (alone → ∀ u ∈ before ++ after, u.node.shape.isNull) ∧ v.node.Offers c := by
  obtain ⟨tagging, hshape, htagging⟩ := classify_tagging h
  rw [hshape, ← htagging]
  constructor
  · intro hrestates
    cases hrestates with
    | union hv halone hoffers =>
      obtain ⟨v, hkept, rfl⟩ := List.mem_map.1 hv
      obtain ⟨hv, hnull⟩ := List.mem_filter.1 hkept
      obtain ⟨before, after, rfl⟩ := List.append_of_mem hv
      refine ⟨rfl, before, v, after, rfl, by simpa using hnull, fun ha u hu => ?_, hoffers⟩
      have hlength := halone ha
      rw [List.length_map, length_filter_le_one_iff
        (p := fun v : Variant => !v.node.shape.isNull) hnull] at hlength
      simpa using hlength u hu
  · rintro ⟨rfl, before, v, after, rfl, hnull, halone, hoffers⟩
    have hkept : (!v.node.shape.isNull) = true := by simpa using hnull
    refine .union (List.mem_map_of_mem (List.mem_filter.2 ⟨by simp, hkept⟩)) (fun ha => ?_) hoffers
    rw [List.length_map]
    exact (length_filter_le_one_iff (p := fun v : Variant => !v.node.shape.isNull) hkept).2
      fun u hu => by simp [halone ha u hu]

/-! ### Schemas that restate components -/

/-- All fragments say nothing. -/
def Silent (d : Document) (spine : Bool) (fs : List Schema) : Prop :=
  ∃ bs, LeavesOf d spine fs bs ∧ ∀ b ∈ bs, b.any fun b => b.leaf.shape.isAny

mutual

/-- Where the schema is used, the model of the component may stand: the schema only refers to the
component, or it restates it. -/
inductive Schema.Offers (d : Document) : Schema → String → Prop where
  | refers {s : Schema} {p c : String} (hform : s.OnlyRefers p) (hp : Pointer.Whole p c) :
      Schema.Offers d s c
  | restates {s : Schema} {c : String} (h : Schema.Restates d false s none false c) :
      Schema.Offers d s c

/-- The schema says nothing but what a component says, or it is a choice between members one of
which offers the component.  If it has to be so `alone`, there is no other choice but `null`. -/
inductive Schema.Restates (d : Document) :
    Bool → Schema → Option String → Bool → String → Prop where
  /-- A component that only refers to another one. -/
  | reference {alone : Bool} {s : Schema} {name p c : String} {spine : Bool}
      (hform : s.form (some name) spine = .reference p) (hp : Pointer.Whole p c) :
      Schema.Restates d alone s (some name) spine c
  | union {alone : Bool} {s m : Schema} {name : Option String} {spine : Bool} {c : String}
      {keyword : UnionKeyword} {before after : List Schema} {b : Option LeafBody}
      (hform : s.form name spine = .union keyword (before ++ m :: after))
      (huntagged : keyword = .anyOf ∨ s.discriminator = none)
      (hb : LeafOf d m none false b) (hnull : ¬ LeafBody.isNull b)
      (halone : alone → ∀ m' ∈ before ++ after, ∃ b', LeafOf d m' none false b' ∧
        LeafBody.isNull b')
      (h : Schema.Offers d m c) : Schema.Restates d alone s name spine c
  /-- A composition of which one fragment restates the component, while the others say nothing. -/
  | composition {alone : Bool} {s f : Schema} {name : Option String} {spine : Bool} {c : String}
      {before after : List Schema} (hform : s.form name spine = .composition)
      (hadds : ¬ s.addsFragment) (hfs : s.allOf = before ++ f :: after)
      (hsilent : Silent d spine (before ++ after)) (h : Schema.Contributes d alone f spine c) :
      Schema.Restates d alone s name spine c

/-- What the schema restates as a fragment.  If it refers to a component, it counts what that
component restates, and not the component. -/
inductive Schema.Contributes (d : Document) : Bool → Schema → Bool → String → Prop where
  | reference {alone : Bool} {f t : Schema} {spine : Bool} {p c' c : String}
      (hf : f.reference = some p) (hp : Pointer.Whole p c') (ht : d.schema? c' = some t)
      (h : Schema.Restates d alone t (some c') true c) : Schema.Contributes d alone f spine c
  | inline {alone : Bool} {f : Schema} {spine : Bool} {c : String} (hf : f.reference = none)
      (h : Schema.Restates d alone f none spine c) : Schema.Contributes d alone f spine c

end

/-- What a component restates. -/
def Document.Restates (d : Document) (c c' : String) : Prop :=
  ∃ s, d.schema? c = some s ∧ s.Restates d true (some c) true c'

/-- What the schemas of a set restate can be read off: resolutions do not leave the set, it is
known of each schema whether it is a leaf, and no fragment of a composition only wraps a
reference. -/
structure Legible (d : Document) (V : SchemaSet) : Prop where
  realm : Realm d V
  leaf : ∀ s name spine, V s name spine → ∃ b, LeafOf d s name spine b
  unwrapped : ∀ s name spine, V s name spine → s.form name spine = .composition →
    ∀ f ∈ s.allOf, f.reference = none → f.Own none spine

/-- Nothing is to be read off of no schemas. -/
theorem legible_empty (d : Document) : Legible d fun _ _ _ => False :=
  ⟨fun _ _ _ _ h => h.elim, fun _ _ _ h => h.elim, fun _ _ _ h => h.elim⟩

/-! ### The resolver comes to the restatements -/

/-- The node restates what the schema restates; if the schema belongs to the set, the node restates
nothing else. -/
structure Restating (d : Document) (V : SchemaSet) (s : Schema) (name : Option String)
    (spine : Bool) (n : Node) : Prop where
  leaf : ∀ b, LeafOf d s name spine b → LeafBody.Fits b n.body
  named : s.Own name spine → n.name = name
  refers : name = none → spine = false → ∀ p c, s.OnlyRefers p → Pointer.Whole p c →
    ∀ c', n.Offers c' ↔ c' = c
  restates : ∀ alone c, s.Restates d alone name spine c → n.shape.Restates alone c
  only : V s name spine → s.Own name spine → ∀ alone c, n.shape.Restates alone c →
    s.Restates d alone name spine c

section Answers

variable {d : Document} {V : SchemaSet} {opened : String → Prop} {Q : Request → Node → Prop}
  {s m : Schema} {name : Option String} {spine alone : Bool} {n : Node} {p l c c' : String}

/-- The answers to requests restate what is asked for, apart from back references to open
components. -/
structure RestatingAnswers (d : Document) (V : SchemaSet) (opened : String → Prop)
    (Q : Request → Node → Prop) : Prop where
  reference : ∀ {p l link n c}, Q (.reference p l link) n → Pointer.Whole p c →
    ∃ t, d.schema? c = some t ∧ (Restating d V t (some c) true n ∨ n.RefersBack c ∧ opened p)
  fragment : ∀ {p l spine n c t}, Q (.fragment p l spine) n → Pointer.Whole p c →
    d.schema? c = some t → Restating d V t (some c) true n
  schema : ∀ {t l name spine n}, Q (.schema t l name spine) n → Restating d V t name spine n

theorem RestatingAnswers.leaves (hQ : RestatingAnswers d V opened Q) : LeafAnswers d opened Q where
  reference h hp ht hb := by
    obtain ⟨t, ht', hn⟩ := hQ.reference h hp
    rw [ht, Option.some.injEq] at ht'
    subst ht'
    exact hn.imp (fun h => h.leaf _ hb) fun h => ⟨h.1.shape, h.2⟩
  fragment h hp ht hb := (hQ.fragment h hp ht).leaf _ hb
  schema h hb := (hQ.schema h).leaf _ hb

/-- **The answer to a reference offers the component and no other**, whether the component is
finished or open. -/
theorem RestatingAnswers.target (hQ : RestatingAnswers d V opened Q) {link : Bool}
    (h : Q (.reference p l link) n) (hp : Pointer.Whole p c) : n.Offers c' ↔ c' = c := by
  obtain ⟨t, -, hn | ⟨hback, -⟩⟩ := hQ.reference h hp
  · exact Node.offers_of_name (hn.named (t.own_component c true))
  · exact hback.offers

/-- The fragments say nothing if the answers for them say nothing. -/
theorem RestatingAnswers.silent_iff (hQ : RestatingAnswers d V opened Q) {fs : List Schema}
    {bs : List (Option LeafBody)} {nodes : List Node} (hbs : LeavesOf d spine fs bs)
    (h : List.Forall₂ (FragmentFrom Q spine) fs nodes) :
    (∀ m ∈ nodes, m.shape.isAny) ↔ ∀ b ∈ bs, b.any fun b => b.leaf.shape.isAny := by
  have hfits := hQ.leaves.fragments hbs h
  constructor
  · intro hany b hb
    obtain ⟨m, hm, hbm⟩ := forall₂_exists hfits hb
    rw [← hbm.isAny_eq]
    exact hany m hm
  · intro hsilent m hm
    obtain ⟨b, hb, hbm⟩ := forall₂_exists hfits.flip hm
    exact (LeafBody.Fits.isAny_eq hbm).trans (hsilent b hb)

/-! What restates a component has a node of its own, so that what it offers is what it restates. -/

theorem Schema.Restates.own (h : s.Restates d alone name spine c) : s.Own name spine := by
  cases h with
  | reference => exact s.own_component _ _
  | union hform => exact ⟨by simp [hform], by simp [hform]⟩
  | composition hform => exact ⟨by simp [hform], by simp [hform]⟩

/-- A node offers what its schema offers. -/
theorem Restating.offers (h : Restating d V s none false n) (hs : Schema.Offers d s c) :
    n.Offers c := by
  cases hs with
  | refers hform hp => exact (h.refers rfl rfl _ c hform hp c).2 rfl
  | restates hs =>
    exact (Node.offers_of_unnamed (h.named hs.own)).2 (h.restates _ _ hs)

/-- A legible schema offers what its node offers. -/
theorem Restating.offers_only (h : Restating d V s none false n) (hV : Legible d V)
    (hs : V s none false) (hn : n.Offers c) : Schema.Offers d s c := by
  by_cases hform : ∃ p, s.OnlyRefers p
  · obtain ⟨p, hform⟩ := hform
    have hentered : Entered d V p := by
      rcases hform with hform | hform
      · exact hV.realm _ _ _ (.reference p "" false) hs (.reference hform)
      · exact hV.realm _ _ _ (.reference p "" false) hs (.wrapper hform)
    obtain ⟨c', t, rfl, -⟩ := hentered
    have hp := Pointer.whole_component c'
    rw [(h.refers rfl rfl _ c' hform hp c).1 hn]
    exact .refers hform hp
  · have hown := Schema.own_of_not_onlyRefers (not_exists.1 hform)
    exact .restates (h.only hs hown _ _ ((Node.offers_of_unnamed (h.named hown)).1 hn))

/-- What only refers to a component offers it, and no other. -/
theorem Built.offers (h : Built d Q s l none false n) (hQ : RestatingAnswers d V opened Q)
    (hform : s.OnlyRefers p) (hp : Pointer.Whole p c) : n.Offers c' ↔ c' = c := by
  unfold Built at h
  rcases hform with hform | hform
  all_goals
    rw [hform] at h
    obtain ⟨target, ⟨l', htarget⟩, hn⟩ := h
    rw [hn.offers]
    exact hQ.target htarget hp

/-- The node of a fragment restates what the fragment restates. -/
theorem FragmentFrom.restates {f : Schema} (h : FragmentFrom Q spine f n)
    (hQ : RestatingAnswers d V opened Q) (hf : f.Contributes d alone spine c) :
    n.shape.Restates alone c := by
  unfold FragmentFrom at h
  cases hf with
  | reference hr hp ht hs =>
    simp only [hr] at h
    obtain ⟨l', h⟩ := h
    exact (hQ.fragment h hp ht).restates _ _ hs
  | inline hr hs =>
    simp only [hr] at h
    obtain ⟨l', h⟩ := h
    exact (hQ.schema h).restates _ _ hs

/-- **The node of a schema restates what the schema restates.** -/
theorem Built.restates (h : Built d Q s l name spine n) (hQ : RestatingAnswers d V opened Q)
    (hs : s.Restates d alone name spine c) : n.shape.Restates alone c := by
  unfold Built at h
  cases hs with
  | reference hform hp =>
    rw [hform] at h
    obtain ⟨target, ⟨l', htarget⟩, hn⟩ := h
    rw [RefersTo, Schema.passes, Option.isNone_some, Bool.false_and] at hn
    rw [Annotated.shape hn]
    exact Shape.restates_single.2 ((hQ.target htarget hp).2 rfl)
  | union hform huntagged hb hnull halone hm =>
    rw [hform] at h
    obtain ⟨variants, body, findings, hvariants, hclassify, hn⟩ := h
    obtain ⟨before, v, after, rfl, hbefore, hv, hafter⟩ := forall₂_middle hvariants
    obtain ⟨l', hnode⟩ := hv.node
    have hmember := hQ.schema hnode
    rw [hn.shape, restates_classify hclassify]
    refine ⟨huntagged, before, v, after, rfl, ?_, fun ha u hu => ?_, hmember.offers hm⟩
    · exact (hmember.leaf _ hb).isNull_eq ▸ hnull
    · -- Another variant is made for another member, which is `null`.
      obtain ⟨m', hm', hu'⟩ := forall₂_exists (List.rel_append hbefore hafter).flip hu
      obtain ⟨b', hb', hnull'⟩ := halone ha m' hm'
      obtain ⟨l'', hnode'⟩ := hu'.node
      exact ((hQ.schema hnode').leaf _ hb').isNull_eq.trans hnull'
  | composition hform hadds hfs hsilent hf =>
    rw [hform] at h
    obtain ⟨fragments, own, hfragments, hown, hn⟩ := h
    rw [OwnFrom, if_neg hadds] at hown
    rw [hfs] at hfragments
    obtain ⟨before, m, after, rfl, hbefore, hm, hafter⟩ := forall₂_middle hfragments
    obtain ⟨bs, hbs, hsilent⟩ := hsilent
    have hany := (hQ.silent_iff hbs (List.rel_append hbefore hafter)).2 hsilent
    rw [hn.shape, hown, List.append_nil]
    exact restates_mergeFragments.2 ⟨before, m, after, rfl, hany, hm.restates hQ hf⟩

/-! Plain schemas and lists of values restate nothing. -/

theorem ObjectFrom.not_restates {shape : Shape Node} (h : ObjectFrom Q s shape) :
    ¬ shape.Restates alone c := by
  obtain ⟨properties, additional, rfl, -⟩ := h
  exact nofun

theorem ArrayFrom.not_restates {shape : Shape Node} (h : ArrayFrom Q s shape) :
    ¬ shape.Restates alone c := by
  obtain ⟨items, rfl, -⟩ := h
  exact nofun

theorem TypedFrom.not_restates {shape : Shape Node} {typeName : String}
    (h : TypedFrom Q s typeName shape) : ¬ shape.Restates alone c := by
  unfold TypedFrom at h
  split at h
  · exact h ▸ nofun
  · exact h ▸ nofun
  · exact h ▸ nofun
  · exact h ▸ nofun
  · exact ObjectFrom.not_restates h
  · exact ArrayFrom.not_restates h
  · exact h ▸ nofun

theorem PlainFrom.not_restates {shape : Shape Node} (h : PlainFrom Q s shape) :
    ¬ shape.Restates alone c := by
  unfold PlainFrom at h
  split at h
  · unfold UntypedFrom at h
    split at h
    · exact h ▸ nofun
    · split at h
      · exact ObjectFrom.not_restates h
      · split at h
        · exact ArrayFrom.not_restates h
        · exact h ▸ nofun
  · exact TypedFrom.not_restates h
  · -- The variants for type names have no names, and their shapes restate nothing.
    obtain ⟨variants, rfl, hvariants⟩ := h
    intro hrestates
    cases hrestates with
    | union hv _ hoffers =>
      obtain ⟨typeName, -, hshape, hbare⟩ := forall₂_exists hvariants.flip hv
      exact hshape.not_restates ((Node.offers_of_unnamed hbare.name).1 hoffers)

theorem not_restates_literals {values : List Json} :
    ¬ (Follow.literals values).shape.Restates alone c := by
  unfold Follow.literals
  dsimp only
  split <;> exact nofun

/-! Conversely, in a legible set of schemas everything that a node restates can be read off. -/

theorem middle_subset {α : Type} {before after : List α} {a : α} :
    before ++ after ⊆ before ++ a :: after :=
  ((List.Sublist.refl before).append (List.sublist_cons_self a after)).subset

/-- The leaves of the fragments of a legible composition. -/
theorem Legible.leavesOf (hV : Legible d V) (hs : V s name spine)
    (hform : s.form name spine = .composition) {fs : List Schema} (hfs : fs ⊆ s.allOf) :
    ∃ bs, LeavesOf d spine fs bs := by
  refine exists_leavesOf (fun f hf p hp => ?_) fun f hf hr => ?_
  · obtain ⟨⟨c, t, rfl, ht, hVt⟩, -⟩ :=
      hV.realm _ _ _ (.fragment p "" spine) hs (.fragment hform (hfs hf) hp)
    exact ⟨c, t, Pointer.whole_component c, ht, hV.leaf _ _ _ hVt⟩
  · exact hV.leaf _ _ _ (hV.realm _ _ _ (.schema f "" none spine) hs (.inline hform (hfs hf) hr))

/-- A fragment restates what its node restates. -/
theorem FragmentFrom.restates_only {f : Schema} (h : FragmentFrom Q spine f n)
    (hQ : RestatingAnswers d V opened Q) (hV : Legible d V) (hs : V s name spine)
    (hform : s.form name spine = .composition) (hf : f ∈ s.allOf)
    (hn : n.shape.Restates alone c) : f.Contributes d alone spine c := by
  unfold FragmentFrom at h
  cases hr : f.reference with
  | some p =>
    simp only [hr] at h
    obtain ⟨l', h⟩ := h
    obtain ⟨⟨c', t, rfl, ht, hVt⟩, -⟩ :=
      hV.realm _ _ _ (.fragment p "" spine) hs (.fragment hform hf hr)
    have hp := Pointer.whole_component c'
    exact .reference hr hp ht ((hQ.fragment h hp ht).only hVt (t.own_component c' true) _ _ hn)
  | none =>
    simp only [hr] at h
    obtain ⟨l', h⟩ := h
    have hVf : V f none spine :=
      hV.realm _ _ _ (.schema f "" none spine) hs (.inline hform hf hr)
    exact .inline hr ((hQ.schema h).only hVf (hV.unwrapped _ _ _ hs hform f hf hr) _ _ hn)

/-- What merged fragments restate, one of the fragments restates; the schema adds no fragment, and
its other fragments say nothing. -/
theorem restates_only_composition (hQ : RestatingAnswers d V opened Q) (hV : Legible d V)
    (hs : V s name spine) (hform : s.form name spine = .composition) {fragments own : List Node}
    (hfragments : List.Forall₂ (FragmentFrom Q spine) s.allOf fragments) (hown : OwnFrom Q s own)
    (hn : (mergeFragments (fragments ++ own) l).1.shape.Restates alone c) :
    s.Restates d alone name spine c := by
  obtain ⟨before, m, after, heq, hany, hm⟩ := restates_mergeFragments.1 hn
  by_cases hadds : s.addsFragment
  · -- The fragment that the schema adds is an object: it is not silent and restates nothing.
    rw [OwnFrom, if_pos hadds] at hown
    obtain ⟨o, rfl, hobject, -⟩ := hown
    have hmem : o ∈ before ++ m :: after := heq ▸ by simp
    obtain rfl | hmem : o = m ∨ o ∈ before ++ after := by simpa [or_left_comm] using hmem
    · exact absurd hm hobject.not_restates
    · obtain ⟨properties, additional, hshape, -⟩ := hobject
      exact absurd (hany o hmem) (by simp [hshape, Shape.isAny])
  · rw [OwnFrom, if_neg hadds] at hown
    rw [hown, List.append_nil] at heq
    rw [heq] at hfragments
    obtain ⟨before', f, after', hfs, hbefore, hf, hafter⟩ := forall₂_middle hfragments.flip
    have hothers := (List.rel_append hbefore hafter).flip
    have hsub : before' ++ after' ⊆ s.allOf := hfs ▸ middle_subset
    obtain ⟨bs, hbs⟩ := hV.leavesOf hs hform hsub
    have hsilent : Silent d spine (before' ++ after') :=
      ⟨bs, hbs, (hQ.silent_iff hbs hothers).1 hany⟩
    have hmem : f ∈ s.allOf := hfs ▸ by simp
    exact .composition hform hadds hfs hsilent
      (FragmentFrom.restates_only hf hQ hV hs hform hmem hm)

/-- What a union restates, one of its members offers. -/
theorem restates_only_union (hQ : RestatingAnswers d V opened Q) (hV : Legible d V)
    (hs : V s name spine) {keyword : UnionKeyword} {members : List Schema}
    (hform : s.form name spine = .union keyword members) {variants : List Variant} {body : Body}
    {findings : List Diagnostic} (hvariants : List.Forall₂ (VariantFrom d Q s) members variants)
    (hclassify : classify keyword variants s.discriminator l = .ok (body, findings))
    (hn : body.shape.Restates alone c) : s.Restates d alone name spine c := by
  obtain ⟨huntagged, before, v, after, rfl, hnull, halone, hoffers⟩ :=
    (restates_classify hclassify).1 hn
  obtain ⟨before', m, after', rfl, hbefore, hv, hafter⟩ := forall₂_middle hvariants.flip
  have hmember : ∀ m' ∈ before' ++ m :: after', V m' none false := fun m' hm' =>
    hV.realm _ _ _ (.schema m' "" none false) hs (.member hform hm')
  obtain ⟨l', hv⟩ := VariantFrom.node hv
  have hVm : V m none false := hmember m (by simp)
  obtain ⟨b, hb⟩ := hV.leaf _ _ _ hVm
  refine .union hform huntagged hb ?_ (fun ha m' hm' => ?_)
    ((hQ.schema hv).offers_only hV hVm hoffers)
  · rwa [← ((hQ.schema hv).leaf b hb).isNull_eq]
  · obtain ⟨u, hu, hu'⟩ := forall₂_exists (List.rel_append hbefore hafter).flip hm'
    obtain ⟨l'', hu'⟩ := VariantFrom.node hu'
    obtain ⟨b', hb'⟩ := hV.leaf _ _ _ (hmember m' (middle_subset hm'))
    exact ⟨b', hb', ((hQ.schema hu').leaf b' hb').isNull_eq ▸ halone ha u hu⟩

/-- **The node of a legible schema restates nothing but what the schema restates.** -/
theorem Built.restates_only (h : Built d Q s l name spine n) (hQ : RestatingAnswers d V opened Q)
    (hV : Legible d V) (hs : V s name spine) (hown : s.Own name spine)
    (hn : n.shape.Restates alone c) : s.Restates d alone name spine c := by
  unfold Built at h
  cases hform : s.form name spine with
  | reference p =>
    rw [hform] at h
    obtain ⟨target, ⟨l', htarget⟩, hrefers⟩ := h
    obtain ⟨c₀, rfl⟩ := Option.isSome_iff_exists.1 (hown.reference p hform)
    rw [RefersTo, Schema.passes, Option.isNone_some, Bool.false_and] at hrefers
    rw [Annotated.shape hrefers, Shape.restates_single] at hn
    obtain ⟨c', t, rfl, -⟩ := hV.realm _ _ _ (.reference p "" false) hs (.reference hform)
    have hp := Pointer.whole_component c'
    rw [(hQ.target htarget hp).1 hn]
    exact .reference hform hp
  | wrapper p => exact absurd hform (hown.wrapper p)
  | composition =>
    rw [hform] at h
    obtain ⟨fragments, own, hfragments, hownfragment, hnode⟩ := h
    exact restates_only_composition hQ hV hs hform hfragments hownfragment (hnode.shape ▸ hn)
  | union keyword members =>
    rw [hform] at h
    obtain ⟨variants, body, findings, hvariants, hclassify, hnode⟩ := h
    exact restates_only_union hQ hV hs hform hvariants hclassify (hnode.shape ▸ hn)
  | literals values =>
    rw [hform] at h
    rw [Annotated.shape h] at hn
    exact absurd hn not_restates_literals
  | plain =>
    rw [hform] at h
    obtain ⟨shape, hshape, hnode⟩ := h
    rw [hnode.shape] at hn
    exact absurd hn hshape.not_restates

end Answers

/-! ### The nodes of components -/

/-- The nodes of components and schemas restate what can be read off. -/
def restatingClaims (d : Document) (V : SchemaSet) : Claims where
  component c n := ∀ s, d.schema? c = some s → Restating d V s (some c) true n
  schema _ s name spine n := Restating d V s name spine n

theorem restatingClaims_answers {d : Document} {V : SchemaSet} {opened : String → Prop} :
    RestatingAnswers d V opened ((restatingClaims d V).Answer d opened) where
  reference h hp := by
    obtain ⟨t, ht⟩ := Option.isSome_iff_exists.1 h.1
    rw [Document.addressed?_whole hp] at ht
    exact ⟨t, ht, (h.2 _ hp).imp_left fun h => h.1 t ht⟩
  fragment h hp ht := h.2 _ hp _ ht
  schema h := h

/-- **The node of a component restates what its schema restates**, and nothing else if the schemas
are legible. -/
theorem restatingClaims_sound {d : Document} {V : SchemaSet} (hV : Legible d V) :
    (restatingClaims d V).Sound d where
  component opened p c s n hp hs _ hn t ht := by
    rw [hs, Option.some.injEq] at ht
    exact ht ▸ hn
  schema opened s location name spine n hopen h := by
    refine ⟨fun b hb => h.fits restatingClaims_answers.leaves
      (fun p composed ho hm => hopen p ho p composed hm) hb, fun hown => ?_,
      fun hname hspine p c hform hp c' => ?_,
      fun alone c hs => h.restates restatingClaims_answers hs,
      fun hs hown alone c hn => h.restates_only restatingClaims_answers hV hs hown hn⟩
    · obtain ⟨body, hn⟩ := h.annotated hown
      exact hn.name
    · subst hname hspine
      exact h.offers restatingClaims_answers hform hp

end ApiBinding
