import ApiBinding.Proofs.Composition.Declarations
import ApiBinding.Proofs.Composition.Passages
import ApiBinding.Proofs.Document.Schemas
import ApiBinding.Proofs.Resolver.Derivations

/-!
# Walks through schemas and nodes

The steps to a part of a component lead through its schema as it is written, and through its node as
it is resolved.  Where they lead through both, they come to a node of the schema there, unless they
go astray: at a reference, and at a composition that adds no fragment of its own.  The node there is
made by other schemas, and what the schema declares beside is not in it.

## Main definitions

* `Schema.Upright` — the schema is no reference, and it declares what its node does.
* `Schema.Clear` — the schemas that the steps lead through are upright.
* `Walk` — the steps lead clear through the schema and through the node.
* `Document.Part` — the pointer addresses a part of a component, and the steps to it are clear.

## Main results

* `Built.walk` — the first stride of a walk comes to an answer for the next schema.
* `Document.Derives.along` — **what is kept by building holds along all walks.**
* `Document.Derives.of_part` — an answer for a part is a node of the schema there.
-/

namespace ApiBinding

/-! ### Strides -/

namespace Schema

/-- The steps lead from the schema to one that it declares in an object or in an array of its
own. -/
inductive Stride (s : Schema) : List String → Schema → Prop where
  | property {t : Schema} {key : String} (hs : s.ShowsObject)
      (hkeys : (Table.keys s.properties).Nodup) (ht : Table.get? s.properties key = some t) :
      Stride s ["properties", key] t
  | additional {t : Schema} (hs : s.ShowsObject) (ht : s.additional = some (.schema t)) :
      Stride s ["additionalProperties"] t
  | items {t : Schema} (hs : s.PlainArray) (ht : s.items = some t) : Stride s ["items"] t

variable {s t : Schema} {key : String} {first rest : List String}

theorem at?_property (h : Table.get? s.properties key = some t) :
    s.at? ("properties" :: key :: rest) = t.at? rest := by
  simp [at?, h]

theorem at?_additional (h : s.additional = some (.schema t)) :
    s.at? ("additionalProperties" :: rest) = t.at? rest := by
  cases rest <;> simp [at?, h]

theorem at?_items (h : s.items = some t) : s.at? ("items" :: rest) = t.at? rest := by
  cases rest <;> simp [at?, h]

theorem Stride.at? (h : s.Stride first t) : s.at? (first ++ rest) = t.at? rest := by
  cases h with
  | property _ _ ht => exact at?_property ht
  | additional _ ht => exact at?_additional ht
  | items _ ht => exact at?_items ht

theorem Stride.ne_nil (h : s.Stride first t) : first ≠ [] := by
  cases h <;> simp

/-- What a schema leads to in a stride is inside it. -/
theorem Stride.inside (h : s.Stride first t) : Inside t s := by
  cases h with
  | property _ _ ht => exact .property (Table.mem_of_get? ht)
  | additional _ ht => exact .additional ht
  | items _ ht => exact .items ht

end Schema

/-- **A stride leads through the node as well**, to one that answers for the next schema. -/
theorem Built.stride {d : Document} {Q : Request → Node → Prop} {s t : Schema} {location : String}
    {name : Option String} {spine : Bool} {n : Node} {first : List String}
    (h : Built d Q s location name spine n) (hs : s.Stride first t) :
    ∃ m, Answers Q t m ∧ ∀ rest, n.at? (first ++ rest) = m.at? rest := by
  cases hs with
  | @property _ key hs hkeys ht =>
    obtain ⟨properties, required, additional, hshape, hproperties, -⟩ := h.showsObject hs
    obtain ⟨t', m, ht', hm, hanswers⟩ :=
      hproperties key (Table.mem_keys (Table.mem_of_get? ht))
    -- The keys are distinct, so the declaration is the one that the step leads to.
    rw [(Table.get?_eq_some_iff hkeys).2 ht', Option.some.injEq] at ht
    exact ⟨m, ht ▸ hanswers, fun rest => Node.at?_property hshape hm⟩
  | additional hs ht =>
    obtain ⟨properties, required, additional, hshape, -, hadditional⟩ := h.showsObject hs
    obtain ⟨m, rfl, hanswers⟩ := hadditional t ht
    exact ⟨m, hanswers, fun rest => Node.at?_additional hshape⟩
  | items hs ht =>
    obtain ⟨m, hshape, hitems⟩ := h.array hs
    rw [ht] at hitems
    exact ⟨m, hitems, fun rest => Node.at?_items hshape⟩

/-! ### Upright schemas -/

namespace Schema

variable {s t : Schema} {step : String} {first rest : List String}

/-- Unless it is a wrapper somewhere, it makes no difference where a schema stands. -/
theorem form_eq_of_not_wrapper (h : ∀ q, s.form none false ≠ .wrapper q) (name : Option String)
    (spine : Bool) : s.form name spine = s.form none false := by
  -- What is a wrapper at all is one where no component has its body.
  have hwrapped : ∀ q, Follow.wrapped? s name spine = some q →
      Follow.wrapped? s none false = some q := by
    intro q hq
    obtain ⟨-, -, rfl, rfl⟩ := wrapped?_eq_some hq
    exact hq
  unfold form at h ⊢
  cases hr : s.reference with
  | some p => rfl
  | none =>
    by_cases hall : s.allOf.isEmpty
    · simp [hall]
    · simp only [hr, hall, Bool.not_false, if_true] at h ⊢
      cases hplain : Follow.wrapped? s none false with
      | some q => exact absurd (by rw [hplain]) (h q)
      | none =>
        cases hw : Follow.wrapped? s name spine with
        | some q => simp [hplain] at hwrapped; exact absurd hw (hwrapped q)
        | none => rfl

theorem Own.anywhere (h : s.Own none false) (spine : Bool) : s.Own none spine := by
  have hform := form_eq_of_not_wrapper h.wrapper none spine
  exact ⟨fun p hp => h.reference p (hform ▸ hp), fun p hp => h.wrapper p (hform ▸ hp)⟩

/-- The schema is no reference and no wrapper of one, and it declares itself what its node declares:
if it is a composition, it adds a fragment. -/
structure Upright (s : Schema) : Prop where
  own : s.Own none false
  adds : s.form none false = .composition → s.addsFragment

/-- The schemas that the steps lead through are upright. -/
def Clear (s : Schema) (steps : List String) : Prop :=
  ∀ before after u, steps = before ++ after → after ≠ [] → s.at? before = some u → u.Upright

theorem Clear.upright (h : s.Clear (step :: rest)) : s.Upright :=
  h [] (step :: rest) s rfl (by simp) rfl

/-- After a stride the steps go on clear. -/
theorem Clear.onward (h : s.Clear (first ++ rest)) (hs : s.Stride first t) : t.Clear rest := by
  intro before after u hsteps hafter hu
  refine h (first ++ before) after u (by rw [hsteps, List.append_assoc]) hafter ?_
  rw [hs.at?, hu]

end Schema

section Upright

variable {d : Document} {Q : Request → Node → Prop} {s t : Schema} {location : String}
  {name : Option String} {spine : Bool} {n m : Node} {step : String} {rest steps : List String}

/-- An upright schema whose node is an object declares it itself. -/
theorem Built.showsObject_of_isObject (h : Built d Q s location name spine n) (hs : s.Upright)
    (hn : n.shape.isObject) : s.ShowsObject := by
  by_contra hno
  have hform := Schema.form_eq_of_not_wrapper hs.own.wrapper name spine
  refine (h.propertyless ?_).2 hn
  unfold Schema.Propertyless
  rw [hform]
  cases hplain : s.form none false with
  | reference p => simpa using hs.own.reference p hplain
  | wrapper p => exact hs.own.wrapper p hplain
  | composition => exact hno (.inr ⟨hplain, hs.adds hplain⟩)
  | union keyword members => trivial
  | literals values => trivial
  | plain => exact fun hobject => hno (.inl hobject)

/-- Only one type name makes an array, and so do items alone. -/
theorem PlainFrom.readsItems {shape : Shape Node} {items : Node} (h : PlainFrom Q s shape)
    (hshape : shape = .array items) : s.readsItems ∧ s.typeNames.length ≤ 1 := by
  subst hshape
  unfold PlainFrom at h
  unfold Schema.readsItems
  rcases hnames : s.typeNames with _ | ⟨single, _ | ⟨second, rest⟩⟩
  · simp only [hnames, UntypedFrom] at h
    split at h
    · simp at h
    · split at h
      · obtain ⟨_, _, h, -⟩ := h
        simp at h
      · split at h <;> simp_all
  · simp only [hnames, TypedFrom] at h
    split at h
    · simp at h
    · simp at h
    · simp at h
    · simp at h
    · obtain ⟨_, _, h, -⟩ := h
      simp at h
    · simp
    · simp at h
  · simp only [hnames] at h
    obtain ⟨variants, h, -⟩ := h
    simp at h

/-- An upright schema whose node is an array declares it itself. -/
theorem Built.plainArray_of_array {items : Node} (h : Built d Q s location name spine n)
    (hs : s.Upright) (hn : n.shape = .array items) : s.PlainArray := by
  have hform := Schema.form_eq_of_not_wrapper hs.own.wrapper name spine
  cases hplain : s.form none false with
  | reference p => simpa using hs.own.reference p hplain
  | wrapper p => exact absurd hplain (hs.own.wrapper p)
  | composition =>
    -- The fragment of its own makes the node an object.
    obtain ⟨properties, required, additional, hshape, -⟩ :=
      h.showsObject (.inr ⟨hplain, hs.adds hplain⟩)
    rw [hn] at hshape
    simp at hshape
  | union keyword members =>
    rw [Built, hform, hplain] at h
    obtain ⟨variants, body, findings, -, hclassify, hbody⟩ := h
    obtain ⟨tagging, hshape⟩ := classify_shape hclassify
    rw [hbody.shape, hshape] at hn
    simp at hn
  | literals values =>
    rw [Built, hform, hplain] at h
    have hshape := h.shape
    rw [hn] at hshape
    unfold Follow.literals at hshape
    dsimp only at hshape
    split at hshape <;> simp at hshape
  | plain =>
    rw [Built, hform, hplain] at h
    obtain ⟨shape, hshape, hbody⟩ := h
    exact ⟨hplain, hshape.readsItems (hbody.shape.symm.trans hn)⟩

/-- Steps lead through an object or an array. -/
theorem Node.at?_cons (h : n.at? (step :: rest) = some m) :
    n.shape.isObject ∧
        (step = "properties" ∧ (∃ key more, rest = key :: more) ∨ step = "additionalProperties") ∨
      (∃ items, n.shape = .array items) ∧ step = "items" := by
  cases rest with
  | nil =>
    unfold at? at h
    split at h <;> simp_all [Shape.isObject]
  | cons next rest =>
    unfold at? at h
    split at h <;> simp_all [Shape.isObject]
    grind

/-- Where steps lead through an upright schema and through its node, they start with a stride. -/
theorem Built.strides (h : Built d Q s location name spine n) (hupright : s.Upright)
    (hkeys : (Table.keys s.properties).Nodup) (hat : s.at? (step :: rest) = some t)
    (hn : n.at? (step :: rest) = some m) :
    ∃ first more u, step :: rest = first ++ more ∧ s.Stride first u := by
  obtain ⟨hobject, ⟨rfl, key, more, rfl⟩ | rfl⟩ | ⟨⟨items, harray⟩, rfl⟩ := Node.at?_cons hn
  · obtain ⟨u, hu, -⟩ := Option.bind_eq_some_iff.1 (by simpa [Schema.at?] using hat)
    exact ⟨_, more, u, rfl, .property (h.showsObject_of_isObject hupright hobject) hkeys hu⟩
  · obtain ⟨u, hu⟩ : ∃ u, s.additional = some (.schema u) := by
      rcases hadditional : s.additional with _ | ⟨_ | u⟩
      · cases rest <;> simp [Schema.at?, hadditional] at hat
      · cases rest <;> simp [Schema.at?, hadditional] at hat
      · exact ⟨u, rfl⟩
    exact ⟨_, rest, u, rfl, .additional (h.showsObject_of_isObject hupright hobject) hu⟩
  · obtain ⟨u, hu⟩ : ∃ u, s.items = some u := by
      cases hitems : s.items with
      | none => cases rest <;> simp [Schema.at?, hitems] at hat
      | some u => exact ⟨u, rfl⟩
    exact ⟨_, rest, u, rfl, .items (h.plainArray_of_array hupright harray) hu⟩

end Upright

/-! ### Walks -/

/-- The steps lead clear through the schema, and through the node. -/
structure Walk (s : Schema) (n : Node) (steps : List String) (t : Schema) (m : Node) : Prop where
  regular : s.Regular
  clear : s.Clear steps
  schema : s.at? steps = some t
  node : n.at? steps = some m

section Walks

variable {d : Document} {Q : Request → Node → Prop} {s t : Schema} {location : String}
  {name : Option String} {spine : Bool} {n m : Node} {step : String} {rest steps : List String}

/-- A walk of no step stays where it is. -/
theorem Walk.stays (h : Walk s n [] t m) : s = t ∧ n = m :=
  ⟨Option.some.inj h.schema, Option.some.inj h.node⟩

/-- **The first stride of a walk** comes to an answer for the next schema, and the walk goes on
there. -/
theorem Built.walk (h : Built d Q s location name spine n) (hw : Walk s n (step :: rest) t m) :
    ∃ u k more, Answers Q u k ∧ Walk u k more t m ∧ more.length ≤ rest.length := by
  obtain ⟨first, more, u, hsteps, hs⟩ :=
    h.strides hw.clear.upright hw.regular.keywords.properties hw.schema hw.node
  rw [hsteps] at hw
  obtain ⟨k, hk, hat⟩ := h.stride hs
  refine ⟨u, k, more, hk, ⟨hw.regular.inside hs.inside, hw.clear.onward hs, ?_, ?_⟩, ?_⟩
  · rw [← hs.at?, hw.schema]
  · rw [← hat, hw.node]
  · have hlength := congrArg List.length hsteps
    have hpos := List.length_pos_iff.2 hs.ne_nil
    rw [List.length_cons, List.length_append] at hlength
    omega

end Walks

/-! ### Induction along walks -/

section Along

variable {d : Document} {P : Schema → Option String → Bool → Node → Prop} {s : Schema}
  {location : String} {name : Option String} {spine : Bool} {r : Request} {n : Node}

/-- It is said of the node of a schema, and of all nodes that walks come to in it. -/
structure Along (P : Schema → Option String → Bool → Node → Prop) (s : Schema)
    (name : Option String) (spine : Bool) (n : Node) : Prop where
  self : P s name spine n
  parts : ∀ step rest t m, Walk s n (step :: rest) t m → P t none false m

theorem Built.along {Q : Request → Node → Prop} (h : Built d Q s location name spine n)
    (hQ : ∀ t m, Answers Q t m → Along P t none false m) (hself : P s name spine n) :
    Along P s name spine n where
  self := hself
  parts step rest t m hw := by
    obtain ⟨u, k, more, hk, hmore, -⟩ := h.walk hw
    cases more with
    | nil =>
      obtain ⟨rfl, rfl⟩ := hmore.stays
      exact (hQ _ _ hk).self
    | cons next more => exact (hQ _ _ hk).parts next more t m hmore

/-- **What is kept by building** holds along all walks in derived nodes of schemas, and so it lifts
to all answers that have a derivation. -/
theorem Document.Derives.along (h : d.Derives r n)
    (hstep : ∀ s location name spine n,
      Built d (fun r m => d.Derives r m ∧ d.Lifts (Along P) r m) s location name spine n →
        P s name spine n) : d.Lifts (Along P) r n :=
  h.induct fun s location name spine n h =>
    h.along (fun _ _ ⟨_, hm⟩ => hm.2.of_schema) (hstep s location name spine n h)

end Along

/-! ### Parts of components -/

/-- The pointer addresses a schema inside the body of a component, and the steps to it are clear. -/
structure Document.Part (d : Document) (p c step : String) (rest : List String)
    (body t : Schema) : Prop where
  tokens : Pointer.tokens? p = some (c, step :: rest)
  component : d.schema? c = some body
  regular : body.Regular
  addressed : body.at? (step :: rest) = some t
  clear : body.Clear (step :: rest)

section Parts

variable {d : Document} {p c step l : String} {rest : List String} {body t : Schema} {k : Bool}
  {n root : Node}

theorem Document.Part.not_whole (h : d.Part p c step rest body t) {c' : String} :
    ¬ Pointer.Whole p c' := by
  intro hp
  simp [Pointer.Whole, h.tokens] at hp

theorem Document.Part.addressed? (h : d.Part p c step rest body t) : d.addressed? p = some t := by
  rw [Document.addressed?, h.tokens]
  simp [h.component, h.addressed]

theorem Document.Part.whole? (h : d.Part p c step rest body t) : Pointer.whole? p = none :=
  Option.eq_none_iff_forall_ne_some.2 fun _ hc => h.not_whole (Pointer.whole?_eq_some.1 hc)

theorem Document.Part.walk (h : d.Part p c step rest body t)
    (hn : root.at? (step :: rest) = some n) : Walk body root (step :: rest) t n :=
  ⟨h.regular, h.clear, h.addressed, hn⟩

/-- What holds along walks holds of an answer for a part. -/
theorem Document.Lifts.of_part {P : Schema → Option String → Bool → Node → Prop}
    (h : d.Lifts (Along P) (.reference p l k) n) (hpart : d.Part p c step rest body t) :
    ∃ spine, P t none spine n := by
  cases h with
  | entered ht h =>
    obtain rfl := Option.some.inj (hpart.addressed?.symm.trans ht)
    rw [hpart.whole?] at h
    exact ⟨true, h.self⟩
  | found hp hbody hroot hat =>
    obtain ⟨rfl, hsteps⟩ := Prod.mk.inj (Option.some.inj (hpart.tokens.symm.trans hp))
    obtain rfl := Option.some.inj (hpart.component.symm.trans hbody)
    exact ⟨false, hroot.parts _ _ t n (hpart.walk (hsteps ▸ hat))⟩
  | opened hstands => exact absurd hstands.whole hpart.not_whole

/-- A derived answer for a part is derived from the schema there. -/
theorem Document.Derives.of_part (h : d.Derives (.reference p l k) n)
    (hpart : d.Part p c step rest body t) :
    ∃ place spine, d.Derives (.schema t place none spine) n := by
  have hlifts := h.along
    (P := fun s name spine n => ∃ place, d.Derives (.schema s place name spine) n)
    fun _ location _ _ _ h => ⟨location, .schema (fun _ _ h => h.1) h⟩
  obtain ⟨spine, place, hn⟩ := hlifts.of_part hpart
  exact ⟨place, spine, hn⟩

end Parts

end ApiBinding
