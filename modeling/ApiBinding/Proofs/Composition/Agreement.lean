import ApiBinding.Proofs.Composition.Readings
import ApiBinding.Proofs.Composition.Walks

/-!
# Nodes that agree

The node of a schema depends on what was kept and what was open when it was made.  Two nodes of one
schema are read in the same way all the same, if the schema is coherent: where one of them has a
back reference, the other one has a back reference or the component.

So a part of a component is the same in two ways: found in the node of the component, and made from
the schema that the pointer addresses.  This takes a clear way through the component: beside a
reference, and in a composition that adds no fragment of its own, the schema and the node part.

## Main definitions

* `Coherent` — sets of schemas whose nodes do not depend on what is kept and what is open.
* `ReadsAlike` — the node is read like every other node of the schema.

## Main results

* `Document.Derives.readsAlike` — **nodes of one schema are read alike**, and so is what walks come
  to in them.
* `part_agrees` — **a part that is found is read like a part that is made.**
-/

namespace ApiBinding

/-! ### Coherent sets of schemas -/

section Coherent

variable (d : Document) (cut : String → Bool) (V : Schema → Prop)

/-- The nodes that a plain reference is answered with are read alike: its component is one whose
name suffices; or it does not lead back to itself; or the reference is to a part on a clear way. -/
inductive Document.Readable (p : String) : Prop where
  | named {c : String} {body : Schema} (hp : Pointer.Whole p c) (hbody : d.schema? c = some body)
      (hc : cut c) (hleaf : LeafOf d body (some c) true none) : Readable p
  | component {c : String} {body : Schema} (hp : Pointer.Whole p c)
      (hbody : d.schema? c = some body) (hV : V body) (hcyclic : ¬ Relation.TransGen d.Refers p p) :
      Readable p
  | part {c step : String} {rest : List String} {body t : Schema}
      (hpart : d.Part p c step rest body t)
      (hV : V t) (hwrapper : ∀ q, t.form none false ≠ .wrapper q) : Readable p

/-- The nodes that a fragment is answered with have the same content: it refers to a component, or
to a part on a clear way that has a node of its own. -/
inductive Document.Mergeable (p : String) : Prop where
  | component {c : String} {body : Schema} (hp : Pointer.Whole p c)
      (hbody : d.schema? c = some body) (hV : V body) : Mergeable p
  | part {c step : String} {rest : List String} {body t : Schema}
      (hpart : d.Part p c step rest body t)
      (hV : V t) (hown : t.Own none false) : Mergeable p

/-- The node of the component admits `null` if and only if its schema says so itself. -/
def Document.Frank (c : String) (body : Schema) : Prop :=
  ∃ o, OutlineOf d body (some c) o ∧ o.nullable = body.isNullable

/-- The tag of a member of a union that only refers to a pointer is the same, whether the component
is open or not: it is mapped; or it is read off nodes that say the same; or the unresolved component
declares what its finished node declares. -/
inductive Document.Settled (D : Discriminator) (m : Schema) (p : String) : Prop where
  | mapped {c : String} (hc : Document.wholeReference? m = some c)
      (htag : (mappedTag? D c).isSome) : Settled D m p
  | shown {c : String} (hp : Pointer.Whole p c) (hc : ¬ cut c) : Settled D m p
  | declared {tag : Option String} (htag : Tagged d D m tag)
      (hopen : ∀ c, Pointer.Whole p c → tag ≠ none → d.openTag D m c = tag) : Settled D m p

/-- The set holds, with each schema, the schemas that it leads to, and no node depends on what is
kept or open: plain references and fragments can be relied on; no fragment is a wrapper; a reference
adds `null` only to a component that admits it openly or not at all; and the tags of members are
settled. -/
structure Coherent : Prop where
  inside : ∀ s name spine t location name' spine', V s →
    Leads s name spine (.schema t location name' spine') → V t
  reference : ∀ s name spine p location link, V s →
    Leads s name spine (.reference p location link) → d.Readable cut V p
  fragment : ∀ s name spine p location spine', V s →
    Leads s name spine (.fragment p location spine') → d.Mergeable V p
  unwrapped : ∀ s, V s → s.reference = none → ∀ f ∈ s.allOf, f.reference = none → f.Own none false
  nullable : ∀ s p, V s → s.OnlyRefers p → s.isNullable →
    ∃ c body, Pointer.Whole p c ∧ d.schema? c = some body ∧ d.Frank c body
  tagged : ∀ s name spine members D, V s → s.form name spine = .union .oneOf members →
    s.discriminator = some D → ∀ m ∈ members, ∀ p, m.OnlyRefers p → d.Settled cut D m p

variable {d cut V}

/-- A closed set of schemas without `allOf` and `oneOf` that do not admit `null` is coherent if its
references can be relied on. -/
theorem Coherent.of_uncomposed
    (hplain : ∀ s, V s → s.allOf = [] ∧ s.oneOf = [] ∧ s.isNullable = false)
    (hinside : ∀ s t, V s → Schema.Inside t s → V t)
    (hreference : ∀ s p, V s → s.reference = some p → d.Readable cut V p) : Coherent d cut V where
  inside s _ _ t _ _ _ hs hleads := hinside s t hs hleads.inside
  reference s _ _ p _ _ hs hleads := by
    obtain ⟨-, hr | ⟨f, hf, -⟩⟩ := hleads.reference_eq
    · exact hreference s p hs hr
    · simp [(hplain s hs).1] at hf
  fragment s _ _ _ _ _ hs hleads := by
    obtain ⟨-, f, hf, -⟩ := hleads.fragment_eq
    simp [(hplain s hs).1] at hf
  unwrapped s hs _ f hf := by simp [(hplain s hs).1] at hf
  nullable s _ hs _ hnullable := by simp [(hplain s hs).2.2] at hnullable
  tagged s _ _ _ _ hs hform := by
    cases Schema.formed_of_eq hform with
    | oneOf _ _ ho => exact absurd (hplain s hs).2.1 ho

end Coherent

/-! ### Nodes of one schema -/

section Parts

variable {cut : String → Bool} {Q Q' : Request → Node → Prop} {s : Schema}
  {shape shape' : Shape Node}

/-- Answers for the schema are read alike. -/
def AnswersAlike (cut : String → Bool) (Q Q' : Request → Node → Prop) (t : Schema) : Prop :=
  ∀ n m, Answers Q t n → Answers Q' t m → n.reading cut = m.reading cut

/-- Nodes that are made on the way have the same content if their shapes say the same. -/
theorem Node.Bare.content_eq {n m : Node} (hn : n.Bare) (hm : m.Bare)
    (h : n.shape.map (Node.reading cut) = m.shape.map (Node.reading cut)) :
    n.content cut = m.content cut := by
  rw [Node.content, Node.content, h, hn.name, hm.name, hn.nullable, hm.nullable, hn.description,
    hm.description, hn.default, hm.default]

theorem AdditionalFrom.alike {keyword : Option (Additional Schema)} {o o' : Option Node}
    (h : AdditionalFrom Q keyword o) (h' : AdditionalFrom Q' keyword o')
    (hQ : ∀ t, keyword = some (.schema t) → AnswersAlike cut Q Q' t) :
    o.map (Node.reading cut) = o'.map (Node.reading cut) := by
  unfold AdditionalFrom at h h'
  rcases keyword with _ | ⟨_ | _⟩ | t
  · rw [h, h']
  · rw [h, h']
  · obtain ⟨n, rfl, hany, hn⟩ := h
    obtain ⟨m, rfl, hany', hm⟩ := h'
    exact congrArg some (Node.reading_eq_of_content (hn.content_eq hm (by rw [hany, hany'])))
  · obtain ⟨n, rfl, hn⟩ := h
    obtain ⟨m, rfl, hm⟩ := h'
    exact congrArg some (hQ t rfl n m hn hm)

theorem ObjectFrom.alike (h : ObjectFrom Q s shape) (h' : ObjectFrom Q' s shape')
    (hQ : ∀ t, ObjectPart s t → AnswersAlike cut Q Q' t) :
    shape.map (Node.reading cut) = shape'.map (Node.reading cut) := by
  obtain ⟨properties, additional, rfl, hproperties, hadditional⟩ := h
  obtain ⟨properties', additional', rfl, hproperties', hadditional'⟩ := h'
  have hmap : Table.mapValues (Node.reading cut) properties =
      Table.mapValues (Node.reading cut) properties' :=
    map_eq_of_forall₂ (forall₂_join hproperties hproperties' fun p hp e _ e' _ he he' => by
      rw [he.1, he'.1, hQ p.2 (.property hp) _ _ he.2 he'.2]) fun _ _ h => h
  rw [Shape.map, Shape.map, hmap, hadditional.alike hadditional' fun t ht => hQ t (.additional ht)]

theorem ArrayFrom.alike (h : ArrayFrom Q s shape) (h' : ArrayFrom Q' s shape')
    (hQ : ∀ t, s.items = some t → AnswersAlike cut Q Q' t) :
    shape.map (Node.reading cut) = shape'.map (Node.reading cut) := by
  obtain ⟨n, rfl, hn⟩ := h
  obtain ⟨m, rfl, hm⟩ := h'
  refine congrArg Shape.array ?_
  cases hitems : s.items with
  | none =>
    rw [hitems] at hn hm
    exact Node.reading_eq_of_content (hn.2.content_eq hm.2 (by rw [hn.1, hm.1]))
  | some t =>
    rw [hitems] at hn hm
    exact hQ t hitems n m hn hm

theorem TypedFrom.alike {typeName : String} (h : TypedFrom Q s typeName shape)
    (h' : TypedFrom Q' s typeName shape')
    (hobject : typeName = "object" → ∀ t, ObjectPart s t → AnswersAlike cut Q Q' t)
    (harray : typeName = "array" → ∀ t, s.items = some t → AnswersAlike cut Q Q' t) :
    shape.map (Node.reading cut) = shape'.map (Node.reading cut) := by
  unfold TypedFrom at h h'
  split at h
  · rw [h, h']
  · rw [h, h']
  · rw [h, h']
  · rw [h, h']
  · exact ObjectFrom.alike h h' (hobject rfl)
  · exact ArrayFrom.alike h h' (harray rfl)
  · simp_all

theorem PlainFrom.alike (h : PlainFrom Q s shape) (h' : PlainFrom Q' s shape')
    (hQ : ∀ t, PlainPart s t → AnswersAlike cut Q Q' t) :
    shape.map (Node.reading cut) = shape'.map (Node.reading cut) := by
  have hlisted : ∀ typeName ∈ s.typeNames, ∀ shape shape',
      TypedFrom Q s typeName shape → TypedFrom Q' s typeName shape' →
      shape.map (Node.reading cut) = shape'.map (Node.reading cut) := by
    intro typeName hmem shape shape' h h'
    have hne : s.typeNames ≠ [] := List.ne_nil_of_mem hmem
    refine h.alike h' (fun heq t ht => hQ t (.object ?_ ht)) fun heq t ht => hQ t (.items ?_ ht)
    · unfold Schema.readsObject
      subst heq
      split <;> simp_all
    · unfold Schema.readsItems
      subst heq
      split <;> simp_all
  unfold PlainFrom at h h'
  rcases hnames : s.typeNames with _ | ⟨single, _ | ⟨second, rest⟩⟩
  · simp only [hnames, UntypedFrom] at h h'
    by_cases hnull : s.isNullType
    · simp only [hnull, if_true] at h h'
      rw [h, h']
    by_cases hdeclares : s.declaresObject
    · simp only [hnull, hdeclares, if_true, if_false, Bool.false_eq_true] at h h'
      exact h.alike h' fun t ht =>
        hQ t (.object (by simp [Schema.readsObject, hnames, hnull, hdeclares]) ht)
    by_cases hitems : s.items.isSome
    · simp only [hnull, hdeclares, hitems, if_true, if_false, Bool.false_eq_true] at h h'
      exact h.alike h' fun t ht =>
        hQ t (.items (by simp [Schema.readsItems, hnames, hnull, hdeclares, hitems]) ht)
    · simp only [hnull, hdeclares, hitems, if_false, Bool.false_eq_true] at h h'
      rw [h, h']
  · simp only [hnames] at h h'
    exact hlisted single (by simp [hnames]) _ _ h h'
  · simp only [hnames] at h h'
    obtain ⟨variants, rfl, hvariants⟩ := h
    obtain ⟨variants', rfl, hvariants'⟩ := h'
    have hmap : variants.map (Node.reading cut) = variants'.map (Node.reading cut) :=
      map_eq_of_forall₂ (forall₂_join hvariants hvariants' fun typeName hmem v _ v' _ hv hv' =>
        Node.reading_eq_of_content
          (hv.2.content_eq hv'.2 (hlisted typeName (hnames ▸ hmem) _ _ hv.1 hv'.1))) fun _ _ h => h
    rw [Shape.map, Shape.map, hmap]

end Parts

/-! ### References -/

/-- A derived node shows what can be read off the schema. -/
theorem Document.Derives.outlined {d : Document} {s : Schema} {location : String}
    {name : Option String} {spine : Bool} {n : Node}
    (h : d.Derives (.schema s location name spine) n) : Outlined d s name spine n := by
  refine (h.induct (P := Outlined d) fun s location name spine n h => ?_).of_schema
  -- What is open leads back to itself.
  have hanswers : OutlinedAnswers d (fun p => Relation.TransGen d.Refers p p) fun r m =>
      d.Derives r m ∧ d.Lifts (Outlined d) r m :=
    ⟨fun h hp ht => (h.2.of_whole hp ht).imp_right fun h => ⟨h.refersBack.shape, h.cyclic⟩,
      fun h hp ht => h.2.of_fragment hp ht, fun h => h.2.of_schema⟩
  exact h.outlined hanswers fun _ _ hcyclic _ => hcyclic

/-- A derived node shows what can be read off the schema, and what the schema declares. -/
theorem Document.Derives.drawn {d : Document} {s : Schema} {location : String}
    {name : Option String} {spine : Bool} {n : Node}
    (h : d.Derives (.schema s location name spine) n) : Drawn d s name spine n := by
  refine (h.induct (P := Drawn d) fun s location name spine n h => ?_).of_schema
  have hanswers : DrawnAnswers d (fun p => Relation.TransGen d.Refers p p) fun r m =>
      d.Derives r m ∧ d.Lifts (Drawn d) r m :=
    ⟨fun h hp ht => (h.2.of_whole hp ht).imp_right fun h => ⟨h.refersBack.shape, h.cyclic⟩,
      fun h hp ht => h.2.of_fragment hp ht, fun h => h.2.of_schema⟩
  exact h.drawn hanswers fun _ _ hcyclic _ => hcyclic

/-- The node is read like every other node that is derived from the schema; if it is one of its own,
it has the same content. -/
def ReadsAlike (d : Document) (cut : String → Bool) (V : Schema → Prop) (s : Schema)
    (name : Option String) (spine : Bool) (n : Node) : Prop :=
  V s → ∀ place spine' m, s.form name spine' = s.form name spine →
    d.Derives (.schema s place name spine') m →
    n.reading cut = m.reading cut ∧ (s.Own name spine → n.content cut = m.content cut)

section References

variable {d : Document} {cut : String → Bool} {V : Schema → Prop} {s : Schema}
  {p l l' c : String} {name : Option String} {spine spine' k k' : Bool} {n m : Node}

/-- Answers for a part are read alike. -/
theorem Document.Lifts.alike_part {step : String} {rest : List String} {body t : Schema}
    (h : d.Lifts (Along (ReadsAlike d cut V)) (.reference p l k) n)
    (hm : d.Derives (.reference p l' k') m) (hpart : d.Part p c step rest body t) (hV : V t)
    (hwrapper : ∀ q, t.form none false ≠ .wrapper q) :
    n.reading cut = m.reading cut ∧ (t.Own none false → n.content cut = m.content cut) := by
  obtain ⟨place, spine', hm⟩ := hm.of_part hpart
  have hform := fun spine spine' => (Schema.form_eq_of_not_wrapper hwrapper none spine').trans
    (Schema.form_eq_of_not_wrapper hwrapper none spine).symm
  obtain ⟨spine, h⟩ := h.of_part hpart
  exact (h hV place spine' m (hform _ _) hm).imp_right fun h hown => h (hown.anywhere _)

/-- What a pointer to a component that is no leaf is answered with stands for the component. -/
theorem Document.Derives.reading_of_cut {body : Schema} (h : d.Derives (.reference p l k) n)
    (hp : Pointer.Whole p c) (hbody : d.schema? c = some body) (hc : cut c)
    (hleaf : LeafOf d body (some c) true none) : n.reading cut = .standIn c := by
  refine Node.reading_of_standIn ?_
  rcases h.lifts.of_whole hp hbody with ⟨place, hn⟩ | hstands
  · have hno : ¬ n.shape.isLeaf := hn.outlined.leaf none hleaf
    simp [Node.standIn?, hno, hn.name_of_component, hc]
  · simp [Node.standIn?, hstands.refersBack.name, hstands.refersBack.shape, Shape.isLeaf,
      Shape.backRef?, hc]

/-- **Answers to a plain reference are read alike.** -/
theorem Document.Readable.alike (h : d.Readable cut V p) (hn : d.Derives (.reference p l k) n)
    (hlifts : d.Lifts (Along (ReadsAlike d cut V)) (.reference p l k) n)
    (hm : d.Derives (.reference p l' k') m) : n.reading cut = m.reading cut := by
  cases h with
  | named hp hbody hc hleaf =>
    rw [hn.reading_of_cut hp hbody hc hleaf, hm.reading_of_cut hp hbody hc hleaf]
  | component hp hbody hV hcyclic =>
    have hinside := (hlifts.of_whole hp hbody).resolve_right fun h => hcyclic h.cyclic
    obtain ⟨place, hm⟩ := (hm.lifts.of_whole hp hbody).resolve_right fun h => hcyclic h.cyclic
    exact (hinside.self hV place true m rfl hm).1
  | part hpart hV hwrapper => exact (hlifts.alike_part hm hpart hV hwrapper).1

/-- **Answers for a fragment have the same content.** -/
theorem Document.Mergeable.alike (h : d.Mergeable V p)
    (hlifts : d.Lifts (Along (ReadsAlike d cut V)) (.fragment p l k) n)
    (hm : d.Derives (.fragment p l' k') m) : n.content cut = m.content cut := by
  cases h with
  | component hp hbody hV =>
    obtain ⟨place, hm⟩ := hm.lifts.of_fragment hp hbody
    have hinside := hlifts.of_fragment hp hbody
    exact (hinside.self hV place true m rfl hm).2 (Schema.own_component _ _ _)
  | part hpart hV hown =>
    cases hlifts with
    | fragment hlifts =>
      cases hm with
      | fragment hm => exact (hlifts.alike_part hm hpart hV hown.wrapper).2 hown

end References

/-! ### Schemas -/

section Schemas

variable {d : Document} {cut : String → Bool} {V : Schema → Prop} {s : Schema}
  {p l c : String} {name : Option String} {spine spine' k : Bool} {n m : Node}

/-- The answers on the way, of which it is known that they are read alike. -/
def Alike (d : Document) (cut : String → Bool) (V : Schema → Prop) (r : Request) (n : Node) :
    Prop :=
  d.Derives r n ∧ d.Lifts (Along (ReadsAlike d cut V)) r n

theorem Alike.answers {t : Schema} (hV : V t) : AnswersAlike cut (Alike d cut V) d.Derives t :=
  fun _ m ⟨_, hn⟩ ⟨place, hm⟩ => (hn.2.of_schema.self hV place false m rfl hm).1

/-- References to targets that are read alike are read alike. -/
theorem RefersTo.alike {target target' : Node} (h : RefersTo target s name n)
    (h' : RefersTo target' s name m) (htarget : target.reading cut = target'.reading cut)
    (hnullable : s.isNullable → name = none → target.nullable = target'.nullable) :
    n.reading cut = m.reading cut ∧ (name.isSome → n.content cut = m.content cut) := by
  have hpasses : s.passes name target = s.passes name target' := by
    unfold Schema.passes
    cases name with
    | some c => rfl
    | none =>
      cases hs : s.isNullable with
      | false => rfl
      | true => rw [hnullable hs rfl]
  unfold RefersTo at h h'
  rw [← hpasses] at h'
  by_cases hpass : s.passes name target
  · rw [if_pos hpass] at h h'
    refine ⟨by rw [h, h', htarget], fun hname => ?_⟩
    -- The body of a component is never answered by the target.
    obtain ⟨c, rfl⟩ := Option.isSome_iff_exists.1 hname
    simp [Schema.passes] at hpass
  · rw [if_neg hpass] at h h'
    have hcontent : n.content cut = m.content cut := by
      refine h.content_eq h' ?_
      simp [Body.reading, Shape.map, htarget]
    exact ⟨Node.reading_eq_of_content hcontent, fun _ => hcontent⟩

/-- Whether the node of a frank component admits `null` does not depend on how it is answered. -/
theorem Document.Derives.nullable_of_frank {body : Schema} (h : d.Derives (.reference p l k) n)
    (hp : Pointer.Whole p c) (hbody : d.schema? c = some body) (hfrank : d.Frank c body) :
    n.nullable = body.isNullable := by
  obtain ⟨o, ho, heq⟩ := hfrank
  rcases h.lifts.of_whole hp hbody with ⟨place, hn⟩ | hstands
  · have houtline := hn.outlined.outline rfl o ho
    rw [← heq, ← houtline]
    rfl
  · exact hstands.nullable body hbody

/-- A coherent schema that only refers to a pointer is read alike. -/
theorem Coherent.referring (hV : Coherent d cut V) (hs : V s) {target target' : Node} {k' : Bool}
    {l' : String} (hp : name = none → s.OnlyRefers p) (hreadable : d.Readable cut V p)
    (htarget : Alike d cut V (.reference p l k) target)
    (htarget' : d.Derives (.reference p l' k') target') (hn : RefersTo target s name n)
    (hm : RefersTo target' s name m) :
    n.reading cut = m.reading cut ∧ (name.isSome → n.content cut = m.content cut) := by
  refine hn.alike hm (hreadable.alike htarget.1 htarget.2 htarget') fun hnull hname => ?_
  obtain ⟨c, body, hwhole, hbody, hfrank⟩ := hV.nullable s p hs (hp hname) hnull
  rw [htarget.1.nullable_of_frank hwhole hbody hfrank,
    htarget'.nullable_of_frank hwhole hbody hfrank]

/-- **Fragments have the same contents.** -/
theorem FragmentFrom.alike (hV : Coherent d cut V) (hs : V s)
    (hform : s.form name spine = .composition) {f : Schema} (hf : f ∈ s.allOf)
    (h : FragmentFrom (Alike d cut V) spine f n) (h' : FragmentFrom d.Derives spine' f m) :
    n.content cut = m.content cut := by
  unfold FragmentFrom at h h'
  cases hr : f.reference with
  | some p =>
    rw [hr] at h h'
    obtain ⟨l, h⟩ := h
    obtain ⟨l', h'⟩ := h'
    exact (hV.fragment s name spine p l spine hs (.fragment hform hf hr)).alike h.2 h'
  | none =>
    rw [hr] at h h'
    obtain ⟨l, -, h⟩ := h
    obtain ⟨l', h'⟩ := h'
    have hown := hV.unwrapped s hs (Schema.form_composition hform).1 f hf hr
    have hVf : V f := hV.inside s name spine f l none spine hs (.inline hform hf hr)
    have hforms : f.form none spine' = f.form none spine :=
      (Schema.form_eq_of_not_wrapper hown.wrapper none spine').trans
        (Schema.form_eq_of_not_wrapper hown.wrapper none spine).symm
    exact (h.of_schema.self hVf l' spine' m hforms h').2 (hown.anywhere spine)

theorem OwnFrom.alike {own own' : List Node} (hV : Coherent d cut V) (hs : V s)
    (hform : s.form name spine = .composition) (h : OwnFrom (Alike d cut V) s own)
    (h' : OwnFrom d.Derives s own') :
    own.map (Node.content cut) = own'.map (Node.content cut) := by
  unfold OwnFrom at h h'
  by_cases hadds : s.addsFragment
  · rw [if_pos hadds] at h h'
    obtain ⟨n, rfl, hobject, hn⟩ := h
    obtain ⟨m, rfl, hobject', hm⟩ := h'
    have hshape : n.shape.map (Node.reading cut) = m.shape.map (Node.reading cut) :=
      hobject.alike hobject' fun t ht =>
        Alike.answers (hV.inside s name spine t "" none false hs (.own hform hadds ht))
    rw [List.map_singleton, List.map_singleton, hn.content_eq hm hshape]
  · rw [if_neg hadds] at h h'
    rw [h, h']

theorem Node.backRef?_of_content (h : n.content cut = m.content cut) :
    n.shape.backRef? = m.shape.backRef? := by
  have hshape : n.shape.map (Node.reading cut) = m.shape.map (Node.reading cut) :=
    congrArg Node.shape h
  rw [← Shape.backRef?_map (Node.reading cut), hshape, Shape.backRef?_map]

/-- Variants whose nodes have the same content declare their tags alike. -/
theorem Variant.declaredTag_of_content {v v' : Variant}
    (h : v.node.content cut = v'.node.content cut) (hdeclared : v.declared = v'.declared)
    (property : String) : v.declaredTag property = v'.declaredTag property := by
  have hshape : v.node.shape.map (Node.reading cut) = v'.node.shape.map (Node.reading cut) :=
    congrArg Node.shape h
  have hback := Node.backRef?_of_content h
  cases hnone : v.node.shape.backRef? with
  | some c =>
    have hshape : v.node.shape = .backRef c := Shape.backRef?_eq_some.1 hnone
    have hshape' : v'.node.shape = .backRef c := Shape.backRef?_eq_some.1 (hback ▸ hnone)
    rw [declaredTag, declaredTag, hshape, hshape', hdeclared]
  | none =>
    rw [declaredTag_eq hnone, declaredTag_eq (hback ▸ hnone)]
    have hget : (Table.get? v.node.shape.properties property).map (Node.reading cut) =
        (Table.get? v'.node.shape.properties property).map (Node.reading cut) := by
      rw [← Table.get?_mapValues, ← Table.get?_mapValues, ← Shape.properties_map, hshape,
        Shape.properties_map]
    cases hv : Table.get? v.node.shape.properties property <;>
      cases hv' : Table.get? v'.node.shape.properties property <;> simp_all
    rename_i declared declared'
    rw [Node.singleLiteral?_eq_of_reading hget]

/-- The node of a member that only refers to a pointer refers to what the pointer is answered
with. -/
theorem Built.referring {Q : Request → Node → Prop} {t : Schema} (h : Built d Q t l none false n)
    (ht : t.OnlyRefers p) :
    ∃ target, (∃ l, Q (.reference p l false) target) ∧ RefersTo target t none n := by
  unfold Built at h
  rcases ht with ht | ht
  · rwa [ht] at h
  · rwa [ht] at h

/-- A member that only refers to a component whose name does not suffice has a node that is read as
its content. -/
theorem Document.Derives.standIn?_of_not_cut {t : Schema} (h : d.Derives (.schema t l none false) n)
    (ht : t.OnlyRefers p) (hp : Pointer.Whole p c) {body : Schema} (hbody : d.schema? c = some body)
    (hc : ¬ cut c) : Node.standIn? cut n.name n.shape = none := by
  obtain ⟨target, ⟨place, htarget⟩, hn⟩ := h.built.referring ht
  unfold RefersTo at hn
  split at hn
  · subst hn
    rcases htarget.lifts.of_whole hp hbody with ⟨place, hn⟩ | hstands
    · simp [Node.standIn?, hn.name_of_component, hc]
    · simp [Node.standIn?, hstands.refersBack.name, hstands.refersBack.shape, Shape.isLeaf,
        Shape.backRef?, hc]
  · simp [Node.standIn?, hn.name, hn.shape, Shape.backRef?]

/-- The node of a member that only refers to a component is the node of the component, which has its
name, or a back reference, which has none. -/
theorem Document.Derives.shows {t : Schema} (h : d.Derives (.schema t l none false) n) :
    Shows d (fun _ => n.name = none) t n := by
  intro p c body ht hnullable hp hbody
  obtain ⟨target, ⟨place, htarget⟩, hn⟩ := h.built.referring ht
  rw [RefersTo, Schema.passes, if_pos (by simp [hnullable])] at hn
  subst hn
  rcases htarget.lifts.of_whole hp hbody with ⟨place, hn⟩ | hstands
  · exact .inl ⟨hn.drawn, by simp [hn.name_of_component]⟩
  · exact .inr ⟨hstands.refersBack.shape, hstands.refersBack.name⟩

/-- The component of a reference that is read as its content is known. -/
theorem Document.Readable.schema? (h : d.Readable cut V p) (hp : Pointer.Whole p c) :
    ∃ body, d.schema? c = some body := by
  cases h with
  | named hp' hbody => exact ⟨_, hp.unique hp' ▸ hbody⟩
  | component hp' hbody => exact ⟨_, hp.unique hp' ▸ hbody⟩
  | part hpart => exact absurd hp hpart.not_whole

/-- What a member that only refers to a pointer leads to. -/
theorem Schema.OnlyRefers.leads {t : Schema} (h : t.OnlyRefers p) :
    Leads t none false (.reference p l false) := by
  rcases h with h | h
  · exact .reference h
  · exact .wrapper h

/-- The variant has a tag if it needs one. -/
def Variant.Labelled (keyword : UnionKeyword) (discriminator : Option Discriminator)
    (v : Variant) : Prop :=
  ∀ D, keyword = .oneOf → discriminator = some D → ¬ v.node.shape.isNull → (tagOf? D v).isSome

/-- Variants that are classified have the tags that they need. -/
theorem labelled_of_classify {keyword : UnionKeyword} {variants : List Variant}
    {discriminator : Option Discriminator} {location : String} {body : Body}
    {findings : List Diagnostic}
    (h : classify keyword variants discriminator location = .ok (body, findings)) :
    ∀ v ∈ variants, v.Labelled keyword discriminator := by
  intro v hv D hkeyword hD hnull
  subst hkeyword hD
  obtain ⟨tags, htags, -⟩ := classify_tagged h
  obtain ⟨tag, -, htag⟩ := forall₂_exists htags (List.mem_filter.2 ⟨hv, by simpa using hnull⟩)
  simp [htag]

/-- A member whose component declares the same tag, finished or not, has that tag. -/
theorem Tagged.tagOf?_eq {D : Discriminator} {t : Schema} {tag : Option String}
    (h : Tagged d D t tag) (hp : t.OnlyRefers p)
    (hopen : ∀ c, Pointer.Whole p c → tag ≠ none → d.openTag D t c = tag)
    (hD : s.discriminator = some D) {v : Variant} (hv : VariantFrom d d.Derives s t v)
    (hnull : ¬ v.node.shape.isNull) (hsome : (tagOf? D v).isSome) : tagOf? D v = tag := by
  obtain ⟨place, hderives⟩ := hv.node
  have hdeclared : v.declared =
      v.node.shape.backRef?.map fun c => d.declaredTag c D.propertyName := by
    rw [hv.declared, Follow.declaredBy, hD]
    cases v.node.shape.backRef? <;> rfl
  obtain ⟨pick, hpick, hpicked⟩ := h.picked hderives.drawn hderives.shows hv.component hdeclared
    fun _ => hsome
  cases pick with
  | none => exact absurd hpicked hnull
  | some picked =>
    rw [hpicked.2]
    -- A back reference has no name, so it is the open tag that is picked for it.
    by_cases hnamed : ∃ c, Pointer.Whole p c ∧ v.node.name = none
    · obtain ⟨c, hc, hname⟩ := hnamed
      have htag : tag ≠ none := fun h => Option.some_ne_none _ (hpick.none_iff.2 h)
      rw [hpick.opened p c hp hc hname htag, hopen c hc htag]
    · exact hpick.closed fun q c hq hc hname => hnamed ⟨c, hp.unique hq ▸ hc, hname⟩

/-- **Variants are read alike, and they have the same tags.** -/
theorem VariantFrom.alike (hV : Coherent d cut V) (hs : V s) {keyword : UnionKeyword}
    {members : List Schema} (hform : s.form name spine = .union keyword members) {t : Schema}
    (ht : t ∈ members) {v v' : Variant} (h : VariantFrom d (Alike d cut V) s t v)
    (h' : VariantFrom d d.Derives s t v') (hsome : v.Labelled keyword s.discriminator)
    (hsome' : v'.Labelled keyword s.discriminator) : v.ReadsAs cut keyword s.discriminator v' := by
  have hVt : V t := hV.inside s name spine t "" none false hs (.member hform ht)
  obtain ⟨place, hderives, hlifts⟩ := h.node
  obtain ⟨place', hderives'⟩ := h'.node
  have hread := Alike.answers hVt _ _ h.node h'.node
  have hnull' := Node.isNull_eq_of_reading hread
  refine ⟨hread, fun D hkeyword hD hnull => ?_⟩
  have hsame : v.node.content cut = v'.node.content cut → tagOf? D v = tagOf? D v' := by
    intro hcontent
    have hdeclared : v.declared = v'.declared := by
      rw [h.declared, h'.declared, Follow.declaredBy, Follow.declaredBy,
        Node.backRef?_of_content hcontent]
    rw [tagOf?_eq, tagOf?_eq, h.component, h'.component,
      Variant.declaredTag_of_content hcontent hdeclared]
  by_cases hrefers : ∃ p, t.OnlyRefers p
  · obtain ⟨p, hp⟩ := hrefers
    cases hV.tagged s name spine members D hs (hkeyword ▸ hform) hD t ht p hp with
    | mapped hc hmapped =>
      -- A mapped tag counts, whatever the nodes declare.
      obtain ⟨tag, htag⟩ := Option.isSome_iff_exists.1 hmapped
      rw [tagOf?_eq, tagOf?_eq, h.component, h'.component, hc, tagFor_mapped htag,
        tagFor_mapped htag]
    | shown hwhole hc =>
      -- The name does not suffice, so the nodes are read as their contents.
      obtain ⟨body, hbody⟩ := (hV.reference t none false p "" false hVt hp.leads).schema? hwhole
      exact hsame (Node.content_eq_of_reading hread
        (hderives.standIn?_of_not_cut hp hwhole hbody hc))
    | declared htag hopen =>
      rw [htag.tagOf?_eq hp hopen hD (h.mono fun _ _ h => h.1) hnull (hsome D hkeyword hD hnull),
        htag.tagOf?_eq hp hopen hD h' (hnull' ▸ hnull) (hsome' D hkeyword hD (hnull' ▸ hnull))]
  · -- A member that is more than a reference has a node of its own.
    have hown := Schema.own_of_not_onlyRefers fun p hp => hrefers ⟨p, hp⟩
    exact hsame ((hlifts.of_schema.self hVt place' false _ rfl hderives').2 hown)

/-- **One step**: the node of a coherent schema is read like every other one, if the answers on the
way are. -/
theorem Built.readsAlike (hV : Coherent d cut V) (h : Built d (Alike d cut V) s l name spine n) :
    ReadsAlike d cut V s name spine n := by
  intro hs place spine' m hforms hm
  have hother := hm.built
  unfold Built at h hother
  rw [hforms] at hother
  -- What has a body of its own has the content of the body.
  have hbody : ∀ b b', Annotated b s name n → Annotated b' s name m →
      b.reading cut = b'.reading cut →
      n.reading cut = m.reading cut ∧ (s.Own name spine → n.content cut = m.content cut) := by
    intro b b' hn hm hb
    have hcontent := hn.content_eq hm hb
    exact ⟨Node.reading_eq_of_content hcontent, fun _ => hcontent⟩
  cases hform : s.form name spine with
  | reference p =>
    rw [hform] at h hother
    obtain ⟨target, ⟨l, htarget⟩, hn⟩ := h
    obtain ⟨target', ⟨l', htarget'⟩, hm⟩ := hother
    have hreadable := hV.reference s name spine p l false hs (.reference hform)
    refine (hV.referring hs (fun hname => .inl ?_) hreadable htarget htarget' hn hm).imp_right
      fun h hown => h (hown.reference p hform)
    cases Schema.formed_of_eq hform with
    | reference hr => simp [Schema.form, hr]
  | wrapper p =>
    rw [hform] at h hother
    obtain ⟨target, ⟨l, htarget⟩, hn⟩ := h
    obtain ⟨target', ⟨l', htarget'⟩, hm⟩ := hother
    have hreadable := hV.reference s name spine p l false hs (.wrapper hform)
    refine (hV.referring hs (fun _ => .inr ?_) hreadable htarget htarget' hn hm).imp_right
      fun _ hown => absurd hform (hown.wrapper p)
    cases Schema.formed_of_eq hform with
    | wrapper hr hw =>
      obtain ⟨-, -, rfl, rfl⟩ := Schema.wrapped?_eq_some hw
      exact hform
  | composition =>
    rw [hform] at h hother
    obtain ⟨fragments, own, hfragments, hown, hn⟩ := h
    obtain ⟨fragments', own', hfragments', hown', hm⟩ := hother
    -- Merging reads contents only, and those of all fragments are the same.
    refine hbody _ _ hn hm (reading_mergeFragments_congr _ _ ?_)
    rw [List.map_append, List.map_append, OwnFrom.alike hV hs hform hown hown']
    congr 1
    exact map_eq_of_forall₂ (forall₂_join hfragments hfragments' fun f hf _ _ _ _ h h' =>
      FragmentFrom.alike hV hs hform hf h h') fun _ _ h => h
  | union keyword members =>
    rw [hform] at h hother
    obtain ⟨variants, body, findings, hvariants, hclassify, hn⟩ := h
    obtain ⟨variants', body', findings', hvariants', hclassify', hm⟩ := hother
    have hpairs := forall₂_join hvariants hvariants' fun m hm v hv v' hv' h h' =>
      VariantFrom.alike hV hs hform hm h h' (labelled_of_classify hclassify v hv)
        (labelled_of_classify hclassify' v' hv')
    exact hbody _ _ hn hm (reading_classify hpairs hclassify hclassify')
  | literals values =>
    rw [hform] at h hother
    exact hbody _ _ h hother rfl
  | plain =>
    rw [hform] at h hother
    obtain ⟨shape, hshape, hn⟩ := h
    obtain ⟨shape', hshape', hm⟩ := hother
    refine hbody _ _ hn hm ?_
    rw [Body.reading, Body.reading, hshape.alike hshape' fun t ht =>
      Alike.answers (hV.inside s name spine t "" none false hs (.plain hform ht))]

/-- **Nodes of one coherent schema are read alike**, and so is what walks come to in them. -/
theorem Document.Derives.readsAlike (hV : Coherent d cut V) {r : Request} (h : d.Derives r n) :
    d.Lifts (Along (ReadsAlike d cut V)) r n :=
  h.along fun _ _ _ _ _ h => h.readsAlike hV

end Schemas

/-! ### Two ways to a part -/

/-- **A part that is found is read like a part that is made.**  The pointer addresses a part of a
component that is no wrapper and belongs to a coherent set.  Then every node that is found in an
answer for the component is read like every node that is made for the schema there; and so is every
answer to the pointer, at every moment of every run. -/
theorem part_agrees {d : Document} {cut : String → Bool} {V : Schema → Prop} {p c step : String}
    {rest : List String} {body t : Schema} (hV : Coherent d cut V)
    (hpart : d.Part p c step rest body t) (ht : V t)
    (hwrapper : ∀ q, t.form none false ≠ .wrapper q) :
    (∀ l k root n, d.Arises (.reference (Pointer.component c) l k) root →
      root.at? (step :: rest) = some n → ∀ place spine m, d.Arises (.schema t place none spine) m →
        n.reading cut = m.reading cut) ∧
    ∀ l k n, d.Arises (.reference p l k) n →
      ∀ place spine m, d.Arises (.schema t place none spine) m → n.reading cut = m.reading cut := by
  have hforms := fun spine spine' => (Schema.form_eq_of_not_wrapper hwrapper none spine').trans
    (Schema.form_eq_of_not_wrapper hwrapper none spine).symm
  refine ⟨fun l k root n hroot hn place spine m hm => ?_, fun l k n hn place spine m hm => ?_⟩
  · -- A back reference has no parts, so the component is finished.
    have hinside := ((hroot.derives.readsAlike hV).of_whole (Pointer.whole_component c)
      hpart.component).resolve_right fun h => by simp [h.refersBack.at?] at hn
    exact (hinside.parts _ _ t n (hpart.walk hn) ht place spine m (hforms _ _) hm.derives).1
  · obtain ⟨place', spine', hderives⟩ := hn.derives.of_part hpart
    exact ((hderives.readsAlike hV).of_schema.self ht place spine m (hforms _ _) hm.derives).1

/-- A cover has a caption, and it belongs to an album. -/
def cover : Schema where
  properties :=
    [("caption", { declaredType := some (.single "string") }),
     ("album", { reference := some "#/components/schemas/Album" })]

/-- An album has a cover. -/
def album : Schema where
  properties := [("cover", cover)]

/-- Albums with covers. -/
def gallery : Document where
  components.schemas := [("Album", album)]

/-- The schemas of covers are coherent: their only reference is one to an album, which is no
leaf. -/
theorem gallery_coherent : Coherent gallery (fun _ => true) fun s =>
    s = cover ∨ Schema.Inside s cover := by
  have hinside : ∀ s, s = cover ∨ Schema.Inside s cover → s = cover ∨
      s = { declaredType := some (.single "string") } ∨
      s = { reference := some "#/components/schemas/Album" } := by
    rintro s (rfl | h)
    · exact .inl rfl
    · cases h <;> simp_all [cover]
      grind
  refine Coherent.of_uncomposed (fun s hs => ?_) (fun s t hs ht => ?_) fun s p hs hr => ?_
  · rcases hinside s hs with rfl | rfl | rfl <;> exact ⟨rfl, rfl, by decide⟩
  · rcases hinside s hs with rfl | rfl | rfl
    · exact .inr ht
    · cases ht <;> simp_all
    · cases ht <;> simp_all
  · have hleaf : LeafOf gallery album (some "Album") true none := .plain rfl
    rcases hinside s hs with rfl | rfl | rfl
    · simp [cover] at hr
    · simp at hr
    · obtain rfl := Option.some.inj hr
      exact .named (by decide +kernel) rfl rfl hleaf

/-- The pointer to the cover of an album addresses a part of it. -/
theorem gallery_part :
    gallery.Part "#/components/schemas/Album/properties/cover" "Album" "properties" ["cover"] album
      cover where
  tokens := by decide +kernel
  component := rfl
  regular :=
    Schema.regular_of_ofTree? (show Schema.ofTree? (Tree.ofJson album.toJson) = some album from rfl)
  addressed := rfl
  clear := by
    have halbum : album.form none false = .plain := rfl
    intro before after u hsteps hafter hu
    match before with
    | [] =>
      obtain rfl := Option.some.inj hu
      exact ⟨⟨by simp [halbum], by simp [halbum]⟩, by simp [halbum]⟩
    | [_] =>
      obtain ⟨rfl, -⟩ := List.cons.inj hsteps
      simp [Schema.at?] at hu
    | [_, _] => simp_all
    | _ :: _ :: _ :: _ => simp at hsteps

/-- The cover of an album leads back to the album; made by itself, it leads to an album. -/
theorem part_agrees_gallery : ∃ root n m,
    gallery.Arises (.reference "#/components/schemas/Album" "#/components/schemas/Album" false)
        root ∧
      root.at? ["properties", "cover"] = some n ∧
      gallery.Arises (.schema cover "" none false) m ∧
      n.at? ["properties", "album", "properties", "cover"] = none ∧
      (m.at? ["properties", "album", "properties", "cover"]).isSome ∧
      n.reading (fun _ => true) = m.reading (fun _ => true) := by
  have hpointer : Pointer.component "Album" = "#/components/schemas/Album" := by decide +kernel
  have hroot : yields ((Query.component "Album").work gallery) {}
      (fun root => (root.at? ["properties", "cover"]).any fun n =>
        (n.at? ["properties", "album", "properties", "cover"]).isNone) = true := by
    decide +kernel
  have hm : yields ((Query.schema cover "").work gallery) {}
      (fun m => (m.at? ["properties", "album", "properties", "cover"]).isSome) = true := by
    decide +kernel
  obtain ⟨root, t, hroot, hback⟩ := exists_of_yields hroot
  obtain ⟨m, t', hm, hon⟩ := exists_of_yields hm
  cases hn : root.at? ["properties", "cover"] with
  | none => simp [hn] at hback
  | some n =>
    have hcomponent : gallery.Arises (Query.component "Album").request root :=
      Document.Answers.arises ⟨{}, t, .start, hroot⟩
    have hschema : gallery.Arises (Query.schema cover "").request m :=
      Document.Answers.arises ⟨{}, t', .start, hm⟩
    have hread := (part_agrees gallery_coherent gallery_part (.inl rfl) fun q => by
      simp [show cover.form none false = .plain from rfl]).1 _ _ root n hcomponent hn "" false m
        hschema
    rw [Query.request, hpointer] at hcomponent
    exact ⟨root, n, m, hcomponent, hn, hschema, by simpa [hn] using hback, hon, hread⟩

/-- Whether the node is a scalar of a kind and has no name. -/
def Node.isScalar (kind : ScalarKind) (n : Node) : Bool :=
  match n.name, n.shape with
  | none, .scalar kind' _ => kind' == kind
  | _, _ => false

theorem Node.reading_of_isScalar {kind : ScalarKind} {n : Node} (h : n.isScalar kind)
    (cut : String → Bool) : ∃ format, (n.reading cut).shape = .scalar kind format := by
  unfold isScalar at h
  split at h
  · rename_i kind' format hname hshape
    obtain rfl := eq_of_beq h
    rw [reading_of_none (by simp [standIn?, hname, hshape, Shape.backRef?]), content, hshape]
    exact ⟨format, rfl⟩
  · simp at h

/-- An order has a parcel, about which it says more than that. -/
def order : Schema where
  properties :=
    [("parcel",
      { reference := some "#/components/schemas/Parcel"
        properties := [("weight", { declaredType := some (.single "string") })] })]

/-- A parcel has a weight. -/
def parcel : Schema where
  properties := [("weight", { declaredType := some (.single "integer") })]

/-- Orders and parcels. -/
def dispatch : Document where
  components.schemas := [("Order", order), ("Parcel", parcel)]

/-- **Beside a reference the two ways part**: the steps lead through the node of the parcel to its
weight, and the pointer addresses the weight that the order speaks of. -/
theorem dispatch_parts : ¬ ∀ (d : Document) (p c step : String) (rest : List String) (t : Schema)
    (l l' : String) (k spine : Bool) (root n m : Node),
    Pointer.tokens? p = some (c, step :: rest) → d.addressed? p = some t →
    d.Arises (.reference (Pointer.component c) l k) root → root.at? (step :: rest) = some n →
    d.Arises (.schema t l' none spine) m →
    n.reading (fun _ => true) = m.reading (fun _ => true) := by
  intro hagrees
  have hroot : yields ((Query.component "Order").work dispatch) {}
      (fun root => (root.at? ["properties", "parcel", "properties", "weight"]).any
        (Node.isScalar .integer)) = true := by
    decide +kernel
  have hm : yields ((Query.schema { declaredType := some (.single "string") } "").work dispatch) {}
      (Node.isScalar .string) = true := by
    decide +kernel
  obtain ⟨root, t, hroot, hfound⟩ := exists_of_yields hroot
  obtain ⟨m, t', hm, hmade⟩ := exists_of_yields hm
  cases hn : root.at? ["properties", "parcel", "properties", "weight"] with
  | none => simp [hn] at hfound
  | some n =>
    rw [hn, Option.any_some] at hfound
    have hcomponent : dispatch.Arises (Query.component "Order").request root :=
      Document.Answers.arises ⟨{}, t, .start, hroot⟩
    have hschema :
        dispatch.Arises (Query.schema { declaredType := some (.single "string") } "").request m :=
      Document.Answers.arises ⟨{}, t', .start, hm⟩
    have hread := hagrees dispatch "#/components/schemas/Order/properties/parcel/properties/weight"
      "Order" "properties" ["parcel", "properties", "weight"] _ _ _ _ _ root n m (by decide +kernel)
      rfl hcomponent hn hschema
    obtain ⟨format, hfound⟩ := Node.reading_of_isScalar hfound (fun _ => true)
    obtain ⟨format', hmade⟩ := Node.reading_of_isScalar hmade (fun _ => true)
    rw [hread, hmade] at hfound
    simp at hfound

end ApiBinding
