import ApiBinding.Proofs.Composition.Declarations
import ApiBinding.Proofs.Resolver.Reordering

/-!
# Tags

The tag of a variant comes from the finished node of its member.  A member whose component is
still open has no finished node; its tag comes from the unresolved schema of the component
instead.  The two tags of a member can both be read off the description, and they need not
agree: the unresolved schema of a property is searched for a value through references only,
while its node has passed through compositions as well.

## Main definitions

* `Tagged` — the tag of a member of a union whose node is finished.
* `Document.openTag` — the tag of a member whose component is open.
* `Pick` — the one of these tags that a member has, given the open pointers.

## Main results

* `tagClaims_sound` — the tags of a union are the tags that its members have.
-/

namespace ApiBinding

/-! ### Two tags of a member -/

/-- The tag that a component and the declaration of the discriminator property make. -/
def tagFor (D : Discriminator) (component : Option String) (declared : DeclaredTag) :
    Option String :=
  (component.bind (mappedTag? D)).or (declaredTag? declared component)

theorem tagOf?_eq (D : Discriminator) (v : Variant) :
    tagOf? D v = tagFor D v.component (v.declaredTag D.propertyName) := rfl

/-- A mapped tag counts, whatever is declared. -/
theorem tagFor_mapped {D : Discriminator} {c tag : String} (h : mappedTag? D c = some tag)
    (declared : DeclaredTag) : tagFor D (some c) declared = some tag := by
  simp [tagFor, h]

/-- The member of a union is only a reference. -/
def Schema.OnlyRefers (m : Schema) (p : String) : Prop :=
  m.form none false = .reference p ∨ m.form none false = .wrapper p

theorem Schema.OnlyRefers.unique {m : Schema} {p q : String} (hp : m.OnlyRefers p)
    (hq : m.OnlyRefers q) : p = q := by
  rcases hp with hp | hp <;> rcases hq with hq | hq <;> simp_all

/-- A schema that is not only a reference has a node of its own. -/
theorem Schema.own_of_not_onlyRefers {s : Schema} (h : ∀ p, ¬ s.OnlyRefers p) :
    s.Own none false :=
  ⟨fun p hform => absurd (.inl hform) (h p), fun p hform => h p (.inr hform)⟩

/-- Whether a leaf is `null`. -/
def LeafBody.isNull (b : Option LeafBody) : Bool := b.any fun b => b.leaf.shape.isNull

theorem LeafBody.Fits.isNull_eq {b : Option LeafBody} {body : Body} (h : Fits b body) :
    body.shape.isNull = isNull b := by
  cases b with
  | some b =>
    rw [h.1]
    rfl
  | none =>
    unfold Fits at h
    cases hbody : body.shape <;> simp_all [Shape.isLeaf, Shape.isNull, isNull]

namespace Document

/-- The tag of a member whose component is open: what the unresolved schema says. -/
def openTag (d : Document) (D : Discriminator) (m : Schema) (component : String) : Option String :=
  tagFor D (wholeReference? m) (d.declaredTag component D.propertyName)

/-- The declaration of a property that the finished node of a schema makes. -/
inductive Finished (d : Document) (property : String) (s : Schema) (name : Option String)
    (spine : Bool) : DeclaredTag → Prop where
  | undeclared (h : Declares d property s name spine none) :
      Finished d property s name spine .undeclared
  | declared {t : Schema} {b : Option LeafBody} (h : Declares d property s name spine (some t))
      (hb : LeafOf d t none false b) :
      Finished d property s name spine (.ofLiteral? (b.bind LeafBody.literal?))

end Document

/-- The tag of a member of a union whose node is finished; a member that is `null` has none. -/
inductive Tagged (d : Document) (D : Discriminator) (m : Schema) : Option String → Prop where
  | null {b : Option LeafBody} (hb : LeafOf d m none false b) (hnull : LeafBody.isNull b) :
      Tagged d D m none
  | mapped {b : Option LeafBody} {c tag : String} (hb : LeafOf d m none false b)
      (hnull : ¬ LeafBody.isNull b) (hc : Document.wholeReference? m = some c)
      (htag : mappedTag? D c = some tag) : Tagged d D m (some tag)
  | inline {b : Option LeafBody} {declared : DeclaredTag} {tag : String}
      (hform : ∀ p, ¬ m.OnlyRefers p) (hb : LeafOf d m none false b) (hnull : ¬ LeafBody.isNull b)
      (h : d.Finished D.propertyName m none false declared)
      (htag : tagFor D (Document.wholeReference? m) declared = some tag) : Tagged d D m (some tag)
  | target {p c : String} {t : Schema} {b : Option LeafBody} {declared : DeclaredTag}
      {tag : String} (hform : m.OnlyRefers p) (hnullable : ¬ m.isNullable)
      (hp : Pointer.Whole p c) (ht : d.schema? c = some t) (hb : LeafOf d t (some c) true b)
      (hnull : ¬ LeafBody.isNull b) (h : d.Finished D.propertyName t (some c) true declared)
      (htag : tagFor D (Document.wholeReference? m) declared = some tag) : Tagged d D m (some tag)

/-! ### Tags of nodes -/

/-- The node is a union that is tagged so. -/
def Node.TaggedAs (n : Node) (property : String) (tags : List String) : Prop :=
  ∃ variants, n.shape = .union variants (.tagged property tags) ∧ variants.length = tags.length

/-- The tag that a variant gets; none if it is dropped. -/
def Picked (D : Discriminator) (v : Variant) : Option String → Prop
  | none => v.node.shape.isNull
  | some tag => ¬ v.node.shape.isNull ∧ tagOf? D v = some tag

/-- Variants that are classified have tags. -/
theorem forall₂_of_tagsOf {D : Discriminator} {location : String} :
    ∀ {variants : List Variant} {index : Nat} {tags : List String},
      tagsOf D location index variants = .ok tags →
      List.Forall₂ (fun v tag => tagOf? D v = some tag) variants tags
  | [], _, _, h => by
    simp only [tagsOf, Except.ok.injEq] at h
    exact h ▸ .nil
  | v :: rest, index, tags, h => by
    rw [tagsOf] at h
    cases htag : tagOf? D v with
    | none => simp [htag] at h
    | some tag =>
      cases hrest : tagsOf D location (index + 1) rest with
      | error cause => simp [htag, hrest, Except.map] at h
      | ok more =>
        simp only [htag, hrest, Except.map, Except.ok.injEq] at h
        exact h ▸ .cons htag (forall₂_of_tagsOf hrest)

/-- The tags of variants are the tags that they get. -/
theorem tags_eq_filterMap {D : Discriminator} {variants : List Variant}
    {picks : List (Option String)} {tags : List String}
    (hp : List.Forall₂ (Picked D) variants picks)
    (ht : List.Forall₂ (fun v tag => tagOf? D v = some tag)
      (variants.filter fun v => !v.node.shape.isNull) tags) : tags = picks.filterMap id := by
  induction hp generalizing tags with
  | nil =>
    cases ht
    rfl
  | @cons v pick _ _ hv _ ih =>
    cases pick with
    | none =>
      have hnull : v.node.shape.isNull := hv
      rw [List.filter_cons_of_neg (by simpa using hnull)] at ht
      exact ih ht
    | some tag =>
      rw [List.filter_cons_of_pos (by simpa using hv.1)] at ht
      cases ht with
      | cons htag ht =>
        rw [hv.2, Option.some.injEq] at htag
        rw [htag, ih ht]
        rfl

/-- The variants of a tagged union have tags. -/
theorem classify_tagged {D : Discriminator} {variants : List Variant} {location : String}
    {body : Body} {findings : List Diagnostic}
    (h : classify .oneOf variants (some D) location = .ok (body, findings)) :
    ∃ tags, List.Forall₂ (fun v tag => tagOf? D v = some tag)
        (variants.filter fun v => !v.node.shape.isNull) tags ∧
      body.shape = .union ((variants.filter fun v => !v.node.shape.isNull).map Variant.node)
        (.tagged D.propertyName tags) := by
  unfold classify taggingOf at h
  cases ht : tagsOf D location 0 (variants.filter fun v => !v.node.shape.isNull) with
  | error cause => simp [ht, Except.map] at h
  | ok tags =>
    simp only [ht, Except.map, Except.ok.injEq, Prod.mk.injEq] at h
    exact ⟨tags, forall₂_of_tagsOf ht, by rw [← h.1]⟩

/-! ### The tags that members have -/

/-- The tag that a member has, given the tag it has if its node is finished. -/
structure Pick (d : Document) (D : Discriminator) (opened : String → Prop)
    (e : Schema × Option String) (pick : Option String) : Prop where
  none_iff : pick = none ↔ e.2 = none
  closed : (∀ p c, e.1.OnlyRefers p → Pointer.Whole p c → ¬ opened p) → pick = e.2
  opened : ∀ p c, e.1.OnlyRefers p → Pointer.Whole p c → opened p → e.2 ≠ none →
    pick = d.openTag D e.1 c

/-- What is known of the node of a member that is only a reference: the component is finished,
or it is open. -/
def Shows (d : Document) (opened : String → Prop) (m : Schema) (n : Node) : Prop :=
  ∀ p c t, m.OnlyRefers p → ¬ m.isNullable → Pointer.Whole p c → d.schema? c = some t →
    Drawn d t (some c) true n ∧ ¬ opened p ∨ n.shape = .backRef c ∧ opened p

/-- The node is a union whose tags are the ones that its members have, given the open pointers. -/
def Picks (d : Document) (D : Discriminator) (opened : String → Prop)
    (tagged : List (Schema × Option String)) (n : Node) : Prop :=
  ∃ picks, List.Forall₂ (Pick d D opened) tagged picks ∧
    n.TaggedAs D.propertyName (picks.filterMap id)

/-- The schema is a tagged union of the members, and these are their tags. -/
structure TaggedUnion (d : Document) (s : Schema) (name : Option String) (spine : Bool)
    (D : Discriminator) (tagged : List (Schema × Option String)) : Prop where
  form : s.form name spine = .union .oneOf (tagged.map Prod.fst)
  discriminator : s.discriminator = some D
  tag : ∀ e ∈ tagged, Tagged d D e.1 e.2

section Members

variable {d : Document} {D : Discriminator} {opened : String → Prop} {m : Schema}

/-- What a variant declares whose node is finished. -/
theorem Variant.declaredTag_eq {v : Variant} {property : String}
    (h : v.node.shape.backRef? = none) : v.declaredTag property =
      ((Table.get? v.node.shape.properties property).map fun n =>
        DeclaredTag.ofLiteral? n.shape.singleLiteral?).getD .undeclared := by
  unfold declaredTag
  split
  · rename_i c hshape
    simp [hshape, Shape.backRef?] at h
  · split <;> simp_all

/-- The declaration in a finished node is the one that is read off. -/
theorem Document.Finished.declaredTag_eq {property : String} {s : Schema} {name : Option String}
    {spine : Bool} {declared : DeclaredTag} (h : d.Finished property s name spine declared)
    {v : Variant} (hv : Drawn d s name spine v.node) : v.declaredTag property = declared := by
  cases h with
  | undeclared h =>
    obtain ⟨hfinished, -, hfound⟩ := hv.declares _ _ h
    rw [FoundAs] at hfound
    rw [v.declaredTag_eq hfinished, hfound]
    rfl
  | declared h hb =>
    obtain ⟨hfinished, -, n, hfound, hn⟩ := hv.declares _ _ h
    have hliteral : n.shape.singleLiteral? = _ := (hn _ hb).singleLiteral?
    rw [v.declaredTag_eq hfinished, hfound, Option.map_some, hliteral]
    rfl

/-- The tag of a variant whose node is finished. -/
theorem Picked.finished {s : Schema} {name : Option String} {spine : Bool} {v : Variant}
    {b : Option LeafBody} {declared : DeclaredTag} {tag : String}
    (hv : Drawn d s name spine v.node) (hcomponent : v.component = Document.wholeReference? m)
    (hb : LeafOf d s name spine b) (hnull : ¬ LeafBody.isNull b)
    (h : d.Finished D.propertyName s name spine declared)
    (htag : tagFor D (Document.wholeReference? m) declared = some tag) :
    Picked D v (some tag) := by
  refine ⟨?_, ?_⟩
  · have heq : v.node.shape.isNull = _ := (hv.leaf b hb).isNull_eq
    rwa [heq]
  · rw [tagOf?_eq, h.declaredTag_eq hv, hcomponent, htag]

/-- **A member has the tag of its finished node, or the tag of its open component.** -/
theorem Tagged.picked {tag : Option String} (h : Tagged d D m tag) {v : Variant}
    (hdrawn : Drawn d m none false v.node) (hshows : Shows d opened m v.node)
    (hcomponent : v.component = Document.wholeReference? m)
    (hdeclared : v.declared = v.node.shape.backRef?.map fun c => d.declaredTag c D.propertyName)
    (hsome : ¬ v.node.shape.isNull → (tagOf? D v).isSome) :
    ∃ pick, Pick d D opened (m, tag) pick ∧ Picked D v pick := by
  cases h with
  | null hb hnull =>
    have heq : v.node.shape.isNull = _ := (hdrawn.leaf _ hb).isNull_eq
    exact ⟨none, ⟨Iff.rfl, fun _ => rfl, fun _ _ _ _ _ hne => absurd rfl hne⟩,
      show v.node.shape.isNull = true from heq.trans hnull⟩
  | @mapped b c tag hb hnull hc htag =>
    have heq : v.node.shape.isNull = _ := (hdrawn.leaf b hb).isNull_eq
    refine ⟨some tag, ⟨by simp, fun _ => rfl, fun p c' _ _ _ _ => ?_⟩, heq ▸ hnull, ?_⟩
    · rw [Document.openTag, hc, tagFor_mapped htag]
    · rw [tagOf?_eq, hcomponent, hc, tagFor_mapped htag]
  | inline hform hb hnull h htag =>
    exact ⟨_, ⟨by simp, fun _ => rfl, fun p _ hp => absurd hp (hform p)⟩,
      .finished hdrawn hcomponent hb hnull h htag⟩
  | @target p c t b declared tag hform hnullable hp ht hb hnull h htag =>
    rcases hshows p c t hform hnullable hp ht with ⟨hfinished, hno⟩ | ⟨hshape, hopened⟩
    · refine ⟨some tag, ⟨by simp, fun _ => rfl, fun q _ hq _ hopened => ?_⟩,
        .finished hfinished hcomponent hb hnull h htag⟩
      exact absurd (hform.unique hq ▸ hopened) hno
    · -- The node is a back reference, so the tag is read off the unresolved schema.
      have hnull : ¬ v.node.shape.isNull := by simp [hshape, Shape.isNull]
      have htagOf : tagOf? D v = d.openTag D m c := by
        rw [tagOf?_eq, hcomponent, Document.openTag, Variant.declaredTag, hdeclared, hshape]
        rfl
      obtain ⟨pick, hpick⟩ := Option.isSome_iff_exists.1 (hsome hnull)
      refine ⟨some pick, ⟨by simp, fun hclosed => absurd hopened (hclosed p c hform hp),
        fun q c' hq hc' _ _ => ?_⟩, hnull, hpick⟩
      rw [← hpick, htagOf, hp.unique (hform.unique hq ▸ hc')]

/-- All members have their tags. -/
theorem forall₂_picked {Q : Request → Node → Prop} {s : Schema} (hD : s.discriminator = some D)
    (hQ : ∀ m l n, Q (.schema m l none false) n → Drawn d m none false n ∧ Shows d opened m n)
    {tagged : List (Schema × Option String)} {variants : List Variant}
    (htags : ∀ e ∈ tagged, Tagged d D e.1 e.2)
    (hvariants : List.Forall₂ (VariantFrom d Q s) (tagged.map Prod.fst) variants)
    (hsome : ∀ v ∈ variants, ¬ v.node.shape.isNull → (tagOf? D v).isSome) :
    ∃ picks, List.Forall₂ (Pick d D opened) tagged picks ∧
      List.Forall₂ (Picked D) variants picks := by
  rw [List.forall₂_map_left_iff] at hvariants
  induction hvariants with
  | nil => exact ⟨[], .nil, .nil⟩
  | @cons e v _ _ hv _ ih =>
    obtain ⟨l, hnode⟩ := hv.node
    have hdeclared : v.declared =
        v.node.shape.backRef?.map fun c => d.declaredTag c D.propertyName := by
      rw [hv.declared, Follow.declaredBy, hD]
      cases v.node.shape.backRef? <;> rfl
    obtain ⟨hdrawn, hshows⟩ := hQ e.1 l _ hnode
    obtain ⟨pick, hpick, hpicked⟩ := (htags e (.head _)).picked hdrawn hshows hv.component
      hdeclared (hsome v (.head _))
    obtain ⟨picks, hpicks, hall⟩ := ih (fun e he => htags e (.tail _ he))
      fun v hv => hsome v (.tail _ hv)
    exact ⟨pick :: picks, .cons hpick hpicks, .cons hpicked hall⟩

end Members

/-! ### The resolver comes to the tags -/

/-- The nodes of components and schemas show what can be read off, and the tags of unions are
the tags that their members have. -/
def tagClaims (d : Document) (base : String → Prop) : Claims where
  component c n := ∀ s, d.schema? c = some s → Drawn d s (some c) true n ∧
    ∃ opened p, Pointer.Whole p c ∧ Framed d base opened p ∧
      ∀ D tagged, TaggedUnion d s (some c) true D tagged → Picks d D opened tagged n
  schema opened s name spine n := Drawn d s name spine n ∧
    (name = none → spine = false → Shows d opened s n) ∧
    ∀ D tagged, TaggedUnion d s name spine D tagged → Picks d D opened tagged n
  base := base

section Claims

variable {d : Document} {base opened : String → Prop}

theorem tagClaims_answers :
    DrawnAnswers d opened ((tagClaims d base).Answer d opened) where
  reference h hp ht := (h.2 _ hp).imp (fun h => (h.1 _ ht).1) fun h => ⟨h.1.shape, h.2⟩
  fragment h hp ht := (h.2 _ hp _ ht).1
  schema h := h.1

/-- A member that is only a reference is answered by its target. -/
theorem Built.shows {m : Schema} {location : String} {n : Node}
    (h : Built d ((tagClaims d base).Answer d opened) m location none false n) :
    Shows d opened m n := by
  intro p c t hform hnullable hp ht
  have htarget : ∃ l, (tagClaims d base).Answer d opened (.reference p l false) n := by
    unfold Built at h
    rcases hform with hform | hform
    all_goals
      rw [hform] at h
      obtain ⟨target, htarget, hn⟩ := h
      rw [RefersTo, Schema.passes, if_pos (by simp [hnullable])] at hn
      exact hn ▸ htarget
  obtain ⟨l, -, htarget⟩ := htarget
  exact (htarget c hp).imp (fun h => ⟨(h.1 t ht).1, h.2⟩) fun h => ⟨h.1.shape, h.2⟩

/-- The tags of a union are made from the nodes of its members. -/
theorem Built.picks {s : Schema} {location : String} {name : Option String} {spine : Bool}
    {n : Node} (h : Built d ((tagClaims d base).Answer d opened) s location name spine n)
    {D : Discriminator} {tagged : List (Schema × Option String)}
    (hs : TaggedUnion d s name spine D tagged) : Picks d D opened tagged n := by
  unfold Built at h
  rw [hs.form] at h
  obtain ⟨variants, body, findings, hvariants, hclassify, hn⟩ := h
  rw [hs.discriminator] at hclassify
  obtain ⟨found, hfound, hshape⟩ := classify_tagged hclassify
  have hsome : ∀ v ∈ variants, ¬ v.node.shape.isNull → (tagOf? D v).isSome := by
    intro v hv hnull
    obtain ⟨tag, -, htag⟩ :=
      forall₂_exists hfound (List.mem_filter.2 ⟨hv, by simpa using hnull⟩)
    simp [htag]
  obtain ⟨picks, hpicks, hall⟩ := forall₂_picked hs.discriminator
    (fun m l n hn => ⟨hn.1, hn.2.1 rfl rfl⟩) hs.tag hvariants hsome
  refine ⟨picks, hpicks, ?_⟩
  rw [← tags_eq_filterMap hall hfound]
  exact ⟨_, hn.shape.trans hshape, by rw [List.length_map, hfound.length_eq]⟩

/-- **The tags of a union are the tags that its members have.** -/
theorem tagClaims_sound (d : Document) (base : String → Prop) : (tagClaims d base).Sound d where
  component opened p c s n hp hs hframed hn t ht := by
    rw [hs, Option.some.injEq] at ht
    subst ht
    exact ⟨hn.1, opened, p, hp, hframed, hn.2.2⟩
  schema opened s location name spine n hopen h := by
    refine ⟨h.drawn tagClaims_answers fun p composed ho hm => hopen p ho p composed hm,
      fun hname hspine => ?_, fun _ _ hunion => h.picks hunion⟩
    subst hname hspine
    exact h.shows

end Claims

end ApiBinding
