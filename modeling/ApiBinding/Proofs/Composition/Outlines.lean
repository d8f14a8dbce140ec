import ApiBinding.Proofs.Composition.Tags

/-!
# Outlines

Three things count of a node where fragments are merged: whether it says anything, whether it
is an object, and whether it admits `null`.  They make the outline of the node.  The outline of
merged fragments is a function of the outlines of the fragments, so the outline of the node of a
component can be read off the description.

The node of a component admits `null` if its schema says so itself, by a flag or a type name, or
else if its body does: a list of values with `null` in it, a union with a member that is `null`,
or a composition of which only one fragment says anything and admits `null`.

## Main definitions

* `Outline`, `Body.outline` — what counts where fragments are merged.
* `OutlineOf`, `OutlinesOf` — the outline of the node of a schema that stands where every
  composition is expanded.
* `Outlined` — the node has the outline of a schema.

## Main results

* `outline_mergeFragments` — the outline of merged fragments.
* `Built.outline` — the node of a schema has the outline of the schema.
* `outlineClaims_sound` — **so does the node of a component.**
-/

namespace ApiBinding

/-! ### Outlines of nodes -/

/-- What counts of a node where fragments are merged. -/
structure Outline where
  /-- It says nothing. -/
  silent : Bool
  object : Bool
  /-- It admits `null`. -/
  nullable : Bool
  deriving DecidableEq, Repr

/-- What counts of a body where fragments are merged. -/
def Body.outline (b : Body) : Outline := ⟨b.shape.isAny, b.shape.isObject, b.nullable⟩

namespace Outline

/-- An object that does not admit `null`. -/
def record : Outline := ⟨false, true, false⟩

/-- It admits `null` as well. -/
def orNull (o : Outline) (nullable : Bool) : Outline :=
  { o with nullable := o.nullable || nullable }

/-- What fragments come to: an object, unless there is none among them and at most one of them
says anything. -/
def merge (os : List Outline) : Outline :=
  if os.any object then record
  else
    match os.filter fun o => !o.silent with
    | [] => ⟨true, false, false⟩
    | [only] => only
    | _ => record

end Outline

/-- **The outline of merged fragments** is what their outlines come to. -/
theorem outline_mergeFragments (nodes : List Node) (location : String) :
    (mergeFragments nodes location).1.outline =
      .merge (nodes.map fun n => n.body.outline) := by
  have hany : (nodes.map fun n => n.body.outline).any Outline.object =
      nodes.any fun n => n.shape.isObject := by
    rw [List.any_map]
    rfl
  have hfilter : ((nodes.map fun n => n.body.outline).filter fun o => !o.silent) =
      (nodes.filter fun n => !n.shape.isAny).map fun n => n.body.outline := by
    rw [List.filter_map]
    rfl
  rw [mergeFragments, Outline.merge, hany, hfilter]
  split
  · rfl
  · generalize (nodes.filter fun n => !n.shape.isAny) = kept
    rcases kept with _ | ⟨only, _ | ⟨_, _⟩⟩ <;> rfl

theorem Annotated.outline {body : Body} {s : Schema} {name : Option String} {n : Node}
    (h : Annotated body s name n) : n.body.outline = body.outline.orNull s.isNullable := by
  rw [Body.outline, Node.body, h.shape, h.nullable]
  rfl

/-! ### Outlines of schemas -/

mutual

/-- The outline of the node of a schema that stands where every composition is expanded. -/
inductive OutlineOf (d : Document) : Schema → Option String → Outline → Prop where
  /-- A component that only refers to another one. -/
  | named {s : Schema} {name p : String} (hform : s.form (some name) true = .reference p) :
      OutlineOf d s (some name) ⟨false, false, s.isNullable⟩
  | composition {s : Schema} {name : Option String} {os : List Outline}
      (hform : s.form name true = .composition) (hadds : ¬ s.addsFragment)
      (h : OutlinesOf d s.allOf os) : OutlineOf d s name (.orNull (.merge os) s.isNullable)
  /-- A composition with properties of its own is an object. -/
  | record {s : Schema} {name : Option String} (hform : s.form name true = .composition)
      (hadds : s.addsFragment) : OutlineOf d s name (.orNull .record s.isNullable)
  /-- A union admits `null` if one of its members is `null`. -/
  | union {s : Schema} {name : Option String} {keyword : UnionKeyword} {members : List Schema}
      {bs : List (Option LeafBody)} (hform : s.form name true = .union keyword members)
      (h : List.Forall₂ (fun m b => LeafOf d m none false b) members bs) :
      OutlineOf d s name ⟨false, false, bs.any LeafBody.isNull || s.isNullable⟩
  /-- A list of values admits `null` if it is one of them. -/
  | literals {s : Schema} {name : Option String} {values : List Json}
      (hform : s.form name true = .literals values) :
      OutlineOf d s name ⟨false, false, values.any Json.isNull || s.isNullable⟩
  | object {s : Schema} {name : Option String} (hs : s.PlainObject) :
      OutlineOf d s name ⟨false, true, s.isNullable⟩
  | plain {s : Schema} {name : Option String} (hform : s.form name true = .plain)
      (hs : ¬ s.PlainObject) :
      OutlineOf d s name ⟨s.plainLeaf?.any fun l => l.shape.isAny, false, s.isNullable⟩

/-- The outlines of the fragments of a composition. -/
inductive OutlinesOf (d : Document) : List Schema → List Outline → Prop where
  | nil : OutlinesOf d [] []
  | reference {f t : Schema} {p c : String} {o : Outline} {rest : List Schema}
      {os : List Outline} (hf : f.reference = some p) (hp : Pointer.Whole p c)
      (ht : d.schema? c = some t) (ho : OutlineOf d t (some c) o) (h : OutlinesOf d rest os) :
      OutlinesOf d (f :: rest) (o :: os)
  | inline {f : Schema} {o : Outline} {rest : List Schema} {os : List Outline}
      (hf : f.reference = none) (ho : OutlineOf d f none o) (h : OutlinesOf d rest os) :
      OutlinesOf d (f :: rest) (o :: os)

end

/-! ### The resolver comes to the outline -/

/-- The node shows the leaf and the outline of a schema; the node of a component has its name,
and admits `null` if the schema of the component says so. -/
structure Outlined (d : Document) (s : Schema) (name : Option String) (spine : Bool) (n : Node) :
    Prop where
  leaf : ∀ b, LeafOf d s name spine b → LeafBody.Fits b n.body
  named : ∀ c, name = some c → n.name = some c
  nullable : name.isSome → s.isNullable → n.nullable
  outline : spine → ∀ o, OutlineOf d s name o → n.body.outline = o

section Answers

variable {d : Document} {opened : String → Prop} {Q : Request → Node → Prop}

/-- The answers to requests show what is asked for, apart from back references to open
components. -/
structure OutlinedAnswers (d : Document) (opened : String → Prop) (Q : Request → Node → Prop) :
    Prop where
  reference : ∀ {p l link n c t}, Q (.reference p l link) n → Pointer.Whole p c →
    d.schema? c = some t → Outlined d t (some c) true n ∨ n.shape = .backRef c ∧ opened p
  fragment : ∀ {p l spine n c t}, Q (.fragment p l spine) n → Pointer.Whole p c →
    d.schema? c = some t → Outlined d t (some c) true n
  schema : ∀ {t l name spine n}, Q (.schema t l name spine) n → Outlined d t name spine n

theorem OutlinedAnswers.leaves (hQ : OutlinedAnswers d opened Q) : LeafAnswers d opened Q where
  reference h hp ht hb := (hQ.reference h hp ht).imp_left fun h => h.leaf _ hb
  fragment h hp ht hb := (hQ.fragment h hp ht).leaf _ hb
  schema h hb := (hQ.schema h).leaf _ hb

/-- The nodes of fragments have the outlines of the fragments. -/
theorem OutlinedAnswers.fragments (hQ : OutlinedAnswers d opened Q) {fs : List Schema}
    {os : List Outline} {nodes : List Node} (ho : OutlinesOf d fs os)
    (h : List.Forall₂ (FragmentFrom Q true) fs nodes) :
    nodes.map (fun n => n.body.outline) = os := by
  induction h generalizing os with
  | nil =>
    cases ho
    rfl
  | cons hn _ ih =>
    cases ho with
    | reference hf hp ht ho h =>
      simp only [FragmentFrom, hf] at hn
      obtain ⟨l, hn⟩ := hn
      rw [List.map_cons, (hQ.fragment hn hp ht).outline rfl _ ho, ih h]
    | inline hf ho h =>
      simp only [FragmentFrom, hf] at hn
      obtain ⟨l, hn⟩ := hn
      rw [List.map_cons, (hQ.schema hn).outline rfl _ ho, ih h]

/-- A union admits `null` if one of its variants is `null`. -/
theorem classify_nullable {keyword : UnionKeyword} {variants : List Variant}
    {discriminator : Option Discriminator} {location : String} {body : Body}
    {findings : List Diagnostic}
    (h : classify keyword variants discriminator location = .ok (body, findings)) :
    body.nullable = variants.any fun v => v.node.shape.isNull := by
  unfold classify at h
  cases ht : taggingOf keyword (variants.filter fun v => !v.node.shape.isNull) discriminator
      location with
  | error cause => simp [ht, Except.map] at h
  | ok result =>
    simp only [ht, Except.map, Except.ok.injEq, Prod.mk.injEq] at h
    rw [← h.1]

/-- The variants of a union are `null` where the members are. -/
theorem OutlinedAnswers.any_isNull (hQ : OutlinedAnswers d opened Q) {s : Schema}
    {members : List Schema} {bs : List (Option LeafBody)} {variants : List Variant}
    (hb : List.Forall₂ (fun m b => LeafOf d m none false b) members bs)
    (h : List.Forall₂ (VariantFrom d Q s) members variants) :
    (variants.any fun v => v.node.shape.isNull) = bs.any LeafBody.isNull := by
  induction h generalizing bs with
  | nil =>
    cases hb
    rfl
  | cons hv _ ih =>
    cases hb with
    | cons hb hrest =>
      obtain ⟨l, hn⟩ := hv.node
      rw [List.any_cons, List.any_cons, ih hrest]
      exact congrArg (· || _) ((hQ.schema hn).leaf _ hb).isNull_eq

/-- A plain schema says nothing if its leaf does. -/
theorem PlainFrom.isAny_eq {s : Schema} {shape : Shape Node} (h : PlainFrom Q s shape) :
    shape.isAny = s.plainLeaf?.any fun l => l.shape.isAny := by
  have heq := (h.fits false).isAny_eq
  rw [Option.any_map] at heq
  exact heq

/-- **The node of a schema has the outline of the schema.** -/
theorem Built.outline {s : Schema} {location : String} {name : Option String} {n : Node}
    (h : Built d Q s location name true n) (hQ : OutlinedAnswers d opened Q) {o : Outline}
    (ho : OutlineOf d s name o) : n.body.outline = o := by
  unfold Built at h
  cases ho with
  | named hform =>
    -- The name stays with the component, so the node is an alias and not the node it refers to.
    rw [hform] at h
    obtain ⟨target, -, hn⟩ := h
    rw [RefersTo, Schema.passes, Option.isNone_some, Bool.false_and] at hn
    rw [Annotated.outline hn]
    simp [Body.outline, Outline.orNull, Shape.isAny, Shape.isObject]
  | composition hform hadds hos =>
    rw [hform] at h
    obtain ⟨fragments, own, hfragments, hown, hn⟩ := h
    rw [OwnFrom, if_neg hadds] at hown
    rw [hown, List.append_nil] at hn
    rw [hn.outline, outline_mergeFragments, hQ.fragments hos hfragments]
  | record hform hadds =>
    rw [hform] at h
    obtain ⟨fragments, own, -, hown, hn⟩ := h
    rw [OwnFrom, if_pos hadds] at hown
    obtain ⟨m, rfl, ⟨properties, additional, hshape, -⟩, -⟩ := hown
    -- Its own properties make the whole an object, whatever the fragments are.
    rw [hn.outline, outline_mergeFragments, Outline.merge, if_pos]
    simp [Body.outline, Node.body, hshape, Shape.isObject]
  | union hform hbs =>
    rw [hform] at h
    obtain ⟨variants, body, findings, hvariants, hclassify, hn⟩ := h
    obtain ⟨tagging, hshape⟩ := classify_shape hclassify
    rw [hn.outline, Body.outline, hshape, classify_nullable hclassify,
      hQ.any_isNull hbs hvariants]
    rfl
  | @literals _ _ values hform =>
    rw [hform] at h
    rw [Annotated.outline h, Body.outline, Follow.literals]
    simp only
    split <;> rfl
  | object hs =>
    rw [hs.form_eq] at h
    obtain ⟨shape, hshape, hn⟩ := h
    obtain ⟨properties, additional, rfl, -⟩ := hshape.object hs
    rw [hn.outline]
    simp [Body.outline, Outline.orNull, Shape.isAny, Shape.isObject]
  | plain hform hs =>
    rw [hform] at h
    obtain ⟨shape, hshape, hn⟩ := h
    have hobject : shape.isObject = false :=
      Bool.eq_false_iff.2 (hshape.propertyless hform hs).2
    rw [hn.outline, Body.outline, hshape.isAny_eq, hobject]
    simp [Outline.orNull]

/-- The node of a schema shows what can be read off if the answers do. -/
theorem Built.outlined {s : Schema} {location : String} {name : Option String} {spine : Bool}
    {n : Node} (h : Built d Q s location name spine n) (hQ : OutlinedAnswers d opened Q)
    (hopen : ∀ p composed, opened p → Mentions s name spine p composed →
      Relation.TransGen d.Refers p p) : Outlined d s name spine n := by
  refine ⟨fun b hb => h.fits hQ.leaves hopen hb, fun c hc => ?_, fun hname hs => ?_,
    fun hspine o ho => ?_⟩
  · subst hc
    obtain ⟨body, hn⟩ := h.annotated (s.own_component _ _)
    exact hn.name
  · obtain ⟨c, rfl⟩ := Option.isSome_iff_exists.1 hname
    obtain ⟨body, hn⟩ := h.annotated (s.own_component _ _)
    rw [hn.nullable, hs, Bool.or_true]
  · subst hspine
    exact h.outline hQ ho

end Answers

/-! ### The nodes of components -/

/-- The nodes of components and schemas show what can be read off. -/
def outlineClaims (d : Document) : Claims where
  component c n := ∀ s, d.schema? c = some s → Outlined d s (some c) true n
  schema _ s name spine n := Outlined d s name spine n

theorem outlineClaims_answers {d : Document} {opened : String → Prop} :
    OutlinedAnswers d opened ((outlineClaims d).Answer d opened) where
  reference h hp ht := (h.2 _ hp).imp (fun h => h.1 _ ht) fun h => ⟨h.1.shape, h.2⟩
  fragment h hp ht := h.2 _ hp _ ht
  schema h := h

/-- **The node of a component has the outline of its schema.** -/
theorem outlineClaims_sound (d : Document) : (outlineClaims d).Sound d where
  component opened p c s n hp hs _ hn t ht := by
    rw [hs, Option.some.injEq] at ht
    exact ht ▸ hn
  schema opened s location name spine n hopen h :=
    h.outlined outlineClaims_answers fun p composed ho hm => hopen p ho p composed hm

end ApiBinding
