import ApiBinding.Proofs.Compilation.Runs
import ApiBinding.Proofs.Composition.Merging

/-!
# Flattened objects

An object that is composed of objects declares what its fragments declare, in the order of
the fragments, and then what it adds itself.  `Flattens` says this on the schemas alone.

The resolver comes to the same object on three routes: from the kept node of a fragment, by
resolving the fragment for the first time, or by expanding a fragment once more whose node
is not finished.  Whatever the route, the answer to a fragment is the flattened object.

## Main definitions

* `Flat` — the keys and the required names of an object.
* `Flattens` — what an object declares, fragments included.
* `Flat.Describes` — a node is the flattened object.

## Main results

* `Document.resolveComponent_flattened` — the node of a component is the flattened object.
* `compile_flattened` — **so is the model of the component**, in every order of the
  components.
-/

namespace ApiBinding

/-! ### The flattening of a schema -/

/-- What an object declares: its keys in order, and the names it requires. -/
structure Flat where
  keys : List String
  required : List String

/-- Whether a schema is resolved as an object and nothing else. -/
structure Schema.PlainObject (s : Schema) : Prop where
  reference : s.reference = none
  allOf : s.allOf = []
  oneOf : s.oneOf = []
  anyOf : s.anyOf = []
  enumeration : s.enumeration = none
  constant : s.constant = none
  object : s.typeNames = ["object"] ∨
    s.typeNames = [] ∧ s.isNullType = false ∧ s.declaresObject = true

/-- What a schema declares itself. -/
def Schema.ownFlat (s : Schema) : Flat := ⟨Table.keys s.properties, s.required⟩

/-- The declarations of several objects, one after the other; a repeated key keeps its first
place. -/
def Flat.join (xs : List Flat) : Flat :=
  ⟨distinct (xs.flatMap Flat.keys), xs.flatMap Flat.required⟩

mutual

/-- What a schema declares, fragments included. -/
inductive Flattens (d : Document) : Schema → Flat → Prop where
  | object {s : Schema} (h : s.PlainObject) : Flattens d s s.ownFlat
  | composition {s : Schema} {xs : List Flat} (hr : s.reference = none) (ha : s.allOf ≠ [])
      (h : FlattensAll d s.allOf xs) : Flattens d s (.join (xs ++ [s.ownFlat]))

/-- What the fragments of a composition declare. -/
inductive FlattensAll (d : Document) : List Schema → List Flat → Prop where
  | nil : FlattensAll d [] []
  | reference {f t : Schema} {p c : String} {x : Flat} {rest : List Schema} {xs : List Flat}
      (hf : f.reference = some p) (hp : Pointer.Whole p c) (ht : d.schema? c = some t)
      (hx : Flattens d t x) (h : FlattensAll d rest xs) : FlattensAll d (f :: rest) (x :: xs)
  | inline {f : Schema} {x : Flat} {rest : List Schema} {xs : List Flat}
      (hf : f.reference = none) (hx : Flattens d f x) (h : FlattensAll d rest xs) :
      FlattensAll d (f :: rest) (x :: xs)

end

/-! ### Nodes that are flattened objects -/

/-- The node is the object: it has the keys in order, and it requires the same names. -/
def Flat.Describes (x : Flat) (n : Node) : Prop :=
  ∃ properties required additional, n.shape = .object properties required additional ∧
    Table.keys properties = x.keys ∧ ∀ k, k ∈ required ↔ k ∈ x.required

/-- Tables that are related entry by entry have the same keys. -/
theorem Table.keys_eq_of_forall₂ {α β : Type} {R : String × α → String × β → Prop}
    {t : Table String α} {u : Table String β} (h : List.Forall₂ R t u)
    (hkey : ∀ e e', R e e' → e'.1 = e.1) : Table.keys u = Table.keys t := by
  induction h with
  | nil => rfl
  | cons he _ ih => rw [keys_cons, keys_cons, hkey _ _ he, ih]

/-- An object has the keys that its schema declares. -/
theorem ObjectFrom.describes {Q : Request → Node → Prop} {s : Schema} {n : Node}
    (h : ObjectFrom Q s n.shape) : s.ownFlat.Describes n := by
  obtain ⟨properties, additional, hshape, hproperties, -⟩ := h
  exact ⟨properties, _, additional, hshape,
    Table.keys_eq_of_forall₂ hproperties fun _ _ h => h.1, fun k => mem_distinct⟩

/-- Objects make the object that they declare together. -/
theorem mergeFragments_describes {nodes : List Node} {xs : List Flat} (location : String)
    (h : List.Forall₂ Flat.Describes xs nodes) (hne : xs ≠ []) {n : Node}
    (hn : n.shape = (mergeFragments nodes location).1.shape) : (Flat.join xs).Describes n := by
  have hall : xs.flatMap Flat.keys = nodes.flatMap ObjectParts.declaredKeys ∧
      ∀ k, k ∈ nodes.flatMap ObjectParts.requiredNames ↔ k ∈ xs.flatMap Flat.required := by
    -- The induction is on the fragments alone.
    clear hn hne
    induction h with
    | nil => simp
    | cons hx _ ih =>
      obtain ⟨properties, required, additional, hshape, hkeys, hrequired⟩ := hx
      simp only [List.flatMap_cons, List.mem_append, ObjectParts.declaredKeys,
        ObjectParts.requiredNames, hshape, Shape.properties, hkeys, hrequired, ih.1] at ih ⊢
      exact ⟨trivial, fun k => or_congr_right (ih.2 k)⟩
  have hobject : nodes.any fun n => n.shape.isObject := by
    cases h with
    | nil => exact absurd rfl hne
    | cons hx _ =>
      obtain ⟨properties, required, additional, hshape, -⟩ := hx
      simp [hshape, Shape.isObject]
  obtain ⟨properties, additional, hshape, hkeys⟩ := mergeFragments_objects location hobject
  refine ⟨properties, _, additional, hn.trans hshape, hkeys.trans ?_, fun k => ?_⟩
  · rw [Flat.join, hall.1]
  · rw [mem_distinct]
    exact hall.2 k

/-! ### The resolver comes to the flattened object -/

/-- The node of a component is the flattened object, and so is the node of a schema that stands
where every composition is expanded. -/
def flatClaims (d : Document) : Claims where
  component c n := ∀ s x, d.schema? c = some s → Flattens d s x → x.Describes n
  schema _ s _ spine n := spine → ∀ x, Flattens d s x → x.Describes n

theorem Schema.PlainObject.form_eq {s : Schema} (h : s.PlainObject) (name : Option String)
    (spine : Bool) : s.form name spine = .plain := by
  simp [form, h.reference, h.allOf, h.oneOf, h.anyOf, h.enumeration, h.constant]

/-- A plain object has the shape of one. -/
theorem PlainFrom.object {Q : Request → Node → Prop} {s : Schema} {shape : Shape Node}
    (h : PlainFrom Q s shape) (hs : s.PlainObject) : ObjectFrom Q s shape := by
  unfold PlainFrom at h
  rcases hs.object with hnames | ⟨hnames, hnull, hdeclares⟩
  · rw [hnames] at h
    exact h
  · rw [hnames] at h
    simpa [UntypedFrom, hnull, hdeclares] using h

/-- What the fragments declare is what the answers for them declare. -/
theorem fragments_describe {d : Document} {fs : List Schema} {xs : List Flat} {nodes : List Node}
    (hx : FlattensAll d fs xs)
    {opened : String → Prop}
    (hn : List.Forall₂ (FragmentFrom ((flatClaims d).Answer d opened) true) fs nodes) :
    List.Forall₂ Flat.Describes xs nodes := by
  induction hn generalizing xs with
  | nil =>
    cases hx
    exact .nil
  | cons hn _ ih =>
    cases hx with
    | reference hf hp ht hx h =>
      simp only [FragmentFrom, hf] at hn
      obtain ⟨_, -, hn⟩ := hn
      exact .cons (hn _ hp _ _ ht hx) (ih h)
    | inline hf hx h =>
      simp only [FragmentFrom, hf] at hn
      obtain ⟨_, hn⟩ := hn
      exact .cons (hn rfl _ hx) (ih h)

theorem FlattensAll.ne_nil {d : Document} {fs : List Schema} {xs : List Flat}
    (h : FlattensAll d fs xs) (hfs : fs ≠ []) : xs ≠ [] := by
  cases h with
  | nil => exact absurd rfl hfs
  | reference => exact List.cons_ne_nil _ _
  | inline => exact List.cons_ne_nil _ _

/-- A composition that declares nothing itself adds nothing to its fragments. -/
theorem Flat.join_of_not_addsFragment {s : Schema} (h : ¬ s.addsFragment) (xs : List Flat) :
    Flat.join (xs ++ [s.ownFlat]) = Flat.join xs := by
  have hempty : s.properties = [] ∧ s.required = [] := by
    simpa [Schema.addsFragment] using h
  simp [join, Schema.ownFlat, hempty.1, hempty.2]

/-- **The node of a component is the flattened object.** -/
theorem flatClaims_sound (d : Document) : (flatClaims d).Sound d := by
  refine ⟨fun _ _ c s n _ hs _ hn t x ht hx => ?_,
    fun _ s location name spine n _ h hspine x hx => ?_⟩
  · rw [hs, Option.some.injEq] at ht
    exact hn rfl x (ht ▸ hx)
  · subst hspine
    unfold Built at h
    cases hx with
    | object hs =>
      rw [hs.form_eq] at h
      obtain ⟨shape, hshape, hn⟩ := h
      have hobject := hshape.object hs
      rw [← show n.shape = shape from hn.shape] at hobject
      exact hobject.describes
    | @composition _ xs hr ha hxs =>
      rw [Schema.form_of_spine hr ha] at h
      obtain ⟨fragments, own, hfragments, hown, hn⟩ := h
      have hall := fragments_describe hxs hfragments
      unfold OwnFrom at hown
      by_cases hadds : s.addsFragment
      · rw [if_pos hadds] at hown
        obtain ⟨m, rfl, hobject, -⟩ := hown
        exact mergeFragments_describes location
          (List.rel_append hall (.cons hobject.describes .nil)) (by simp) hn.shape
      · rw [if_neg hadds] at hown
        subst hown
        rw [List.append_nil] at hn
        rw [Flat.join_of_not_addsFragment hadds]
        exact mergeFragments_describes location hall (hxs.ne_nil ha) hn.shape

/-! ### The model of a component -/

/-- The fields of a record are made from the properties: in the same order, under the same names,
and required as listed. -/
theorem Typing.fields_wireName (naming : NamingConfig) (required : List String) (modelName
    location : String) : ∀ (properties : List (String × Node)) (scope : NameScope) (w : Workbench),
    ((fields naming properties required scope modelName location) w).1.map Field.wireName =
        Table.keys properties ∧
      ∀ f ∈ ((fields naming properties required scope modelName location) w).1,
        f.required = required.contains f.wireName
  | [], _, _ => ⟨rfl, fun _ hf => absurd hf List.not_mem_nil⟩
  | (wireName, node) :: rest, scope, w => by
    -- The fields that follow are made with some names taken, from some workbench.
    obtain ⟨field, scope', w', heq, hwire, hfield⟩ : ∃ (field : Field) (scope' : NameScope)
        (w' : Workbench), (fields naming ((wireName, node) :: rest) required scope modelName
            location w).1 = field :: (fields naming rest required scope' modelName location w').1 ∧
          field.wireName = wireName ∧ field.required = required.contains wireName :=
      ⟨_, _, _, rfl, rfl, rfl⟩
    obtain ⟨hkeys, hrequired⟩ :=
      fields_wireName naming required modelName location rest scope' w'
    rw [heq]
    refine ⟨by rw [List.map_cons, hwire, hkeys, Table.keys_cons], fun f hf => ?_⟩
    rcases List.mem_cons.1 hf with rfl | hf
    · rw [hwire, hfield]
    · exact hrequired f hf

/-- The model of an object with properties is a record of them. -/
theorem MadeFrom.record {naming : NamingConfig} {x : Flat} {body : ModelBody}
    (h : MadeFrom naming x.Describes body) (hne : x.keys ≠ []) :
    ∃ fields additional, body = .object fields additional ∧ fields.map Field.wireName = x.keys ∧
      ∀ f ∈ fields, f.required = true ↔ f.wireName ∈ x.required := by
  obtain ⟨n, name, location, w, hflat, rfl⟩ := h
  obtain ⟨properties, required, additional, hshape, hkeys, hrequired⟩ := hflat
  have hprops : properties.isEmpty = false := by
    cases properties with
    | nil => exact absurd hkeys.symm hne
    | cons p rest => rfl
  obtain ⟨hwire, hfields⟩ :=
    Typing.fields_wireName naming required name location properties { case := .snake } w
  have hbody : ∃ additional', (Typing.modelBody naming n name location w).1 =
      .object (Typing.fields naming properties required { case := .snake } name location w).1
        additional' := by
    unfold Typing.modelBody
    simp only [hshape, hprops, Bool.false_eq_true, if_false]
    exact ⟨_, rfl⟩
  obtain ⟨additional', hbody⟩ := hbody
  refine ⟨_, additional', hbody, hwire.trans hkeys, fun f hf => ?_⟩
  rw [hfields f hf, List.contains_iff_mem]
  exact hrequired _

/-- **The model of a component is the flattened object**, if it has a key: a record whose fields
are the flattened keys in order, and which requires what the flattened object requires.  This
holds in every order of the components that compiles. -/
theorem compile_flattened {d d' : Document} (hd : d'.Reorders d) {config : Config}
    {c : Compilation} (hc : compile config d' = .ok c) {component : String} {s : Schema} {x : Flat}
    (hs : d.schema? component = some s) (hx : Flattens d s x) (hne : x.keys ≠ []) :
    ∃ m fields additional, ModelOf c.interface.models component m ∧
      m.body = .object fields additional ∧ fields.map Field.wireName = x.keys ∧
      ∀ f ∈ fields, f.required = true ↔ f.wireName ∈ x.required := by
  have hclaims := hd.compile_claims config (flatClaims_sound d) fun _ => id
  simp only [Claims.Compile, hc] at hclaims
  have hmem : component ∈ d'.componentNames :=
    hd.mem_componentNames.2 (Document.mem_componentNames hs)
  obtain ⟨m, hm, n, name, location, w, hn, hbody⟩ := hclaims.model component hmem
  have hdescribes : x.Describes n := hn s x hs hx
  obtain ⟨fields, additional, hfields⟩ :=
    MadeFrom.record ⟨n, name, location, w, hdescribes, hbody⟩ hne
  exact ⟨m, fields, additional, hm, hfields⟩

/-- A node of a tree, which may lead to a branch. -/
def treeNode : Schema where
  declaredType := some (.single "object")
  required := ["id"]
  properties := [("id", { declaredType := some (.single "string") }),
    ("next", { reference := some "#/components/schemas/Branch" })]

/-- A node with a size. -/
def treeBranch : Schema where
  allOf := [{ reference := some "#/components/schemas/Node" }]
  required := ["size"]
  properties := [("size", { declaredType := some (.single "integer") }),
    ("id", { declaredType := some (.single "string") })]

/-- Nodes and branches: a component refers to another one that is composed of it. -/
def tree : Document where
  components.schemas := [("Node", treeNode), ("Branch", treeBranch)]

/-- The branch is resolved while the node is open, and its fragment is the node. -/
theorem compile_flattened_tree : ∃ c m fields additional, compile {} tree = .ok c ∧
    ModelOf c.interface.models "Branch" m ∧ m.body = .object fields additional ∧
      fields.map Field.wireName = ["id", "next", "size"] ∧
      ∀ f ∈ fields, f.required = true ↔ f.wireName ∈ ["id", "size"] := by
  have hnode : Flattens tree treeNode treeNode.ownFlat :=
    .object ⟨rfl, rfl, rfl, rfl, rfl, rfl, .inl rfl⟩
  have hwhole : Pointer.Whole "#/components/schemas/Node" "Node" := by decide +kernel
  have hbranch : Flattens tree treeBranch (.join ([treeNode.ownFlat] ++ [treeBranch.ownFlat])) :=
    .composition rfl (by simp [treeBranch]) (.reference rfl hwhole rfl hnode .nil)
  have hschema : tree.schema? "Branch" = some treeBranch := rfl
  obtain ⟨c, hc⟩ := compile_eq_ok {} tree (by decide +kernel)
  obtain ⟨m, fields, additional, hmodel, hbody, hkeys, hrequired⟩ :=
    compile_flattened (.refl (by decide)) hc hschema hbranch (by decide)
  exact ⟨c, m, fields, additional, hc, hmodel, hbody, hkeys, hrequired⟩

end ApiBinding
