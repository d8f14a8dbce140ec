import ApiBinding.Proofs.Composition.Readings
import ApiBinding.Proofs.Document.Schemas
import ApiBinding.Proofs.Resolver.Derivations
import ApiBinding.Proofs.Resolver.Values

/-!
# Nodes that are the same

Two nodes are compared whatever their serial numbers, and whatever the order in which keys stand:
each key of the one is looked up in the other.  So even a node is the same as itself only where keys
are distinct, as they are in every node that is made from a description that was read.

There, nodes that say the same are the same, unless a component stands inside whose name is all that
the reader takes in.

## Main definitions

* `Node.Tidy` — the keys and the values in the node can be compared.
* `Node.Holds` — a component stands in the node, at any depth.

## Main results

* `Json.same_self` — a value with distinct keys is the same as itself.
* `Node.same_of_reading` — **tidy nodes that say the same are the same.**
* `Document.Derives.tidy` — **derived nodes are tidy.**
-/

namespace ApiBinding

/-! ### Values -/

@[simp] theorem Binary64.same_self (x : Binary64) : x.same x = true := by
  simp [same]

@[simp] theorem Number.same_self (x : Number) : x.same x = true := by
  cases x <;> simp [same]

namespace Json

mutual

/-- A value with distinct keys is the same as itself. -/
theorem same_self : ∀ {v : Json}, v.WellKeyed → v.same v = true
  | .null, _ => rfl
  | .bool _, _ => by simp [same]
  | .number _, _ => by simp [same]
  | .string _, _ => by simp [same]
  | .array _, h => by rw [same, sameItems_self h]
  | .object entries, ⟨hkeys, h⟩ => by
    rw [same, sameEntries_self h fun e he => (Table.get?_eq_some_iff hkeys).2 he]
    simp

theorem sameItems_self : ∀ {items : List Json}, WellKeyedItems items →
    sameItems items items = true
  | [], _ => rfl
  | _ :: _, ⟨hv, hrest⟩ => by rw [sameItems, same_self hv, sameItems_self hrest]; rfl

/-- Entries are compared with those that are found under their keys. -/
theorem sameEntries_self : ∀ {entries whole : List (String × Json)}, WellKeyedEntries entries →
    (∀ e ∈ entries, Table.get? whole e.1 = some e.2) → sameEntries entries whole = true
  | [], _, _, _ => rfl
  | e :: _, _, ⟨hv, hrest⟩, hfound => by
    have hhead := hfound e (.head _)
    simp only [sameEntries, hhead, same_self hv, Bool.true_and]
    exact sameEntries_self hrest fun e he => hfound e (.tail _ he)

end

theorem sameOption_self {o : Option Json} (h : Definite o) : sameOption o o = true := by
  cases o with
  | none => rfl
  | some v => exact same_self (h v rfl).2

end Json

/-! ### Induction on nodes -/

/-- What a node is made of is smaller. -/
theorem Node.Inside.sizeOf_lt {n m : Node} (h : m.Inside n) : sizeOf m < sizeOf n := by
  have hshape : sizeOf n.shape < sizeOf n := by
    obtain ⟨serial, shape, nullable, name, description, default⟩ := n
    simp only [Node.mk.sizeOf_spec]
    omega
  refine Nat.lt_trans ?_ hshape
  unfold Inside at h
  cases hn : n.shape with
  | object properties required additional =>
    rw [hn] at h
    rcases Shape.mem_parts_object.1 h with ⟨e, he, rfl⟩ | rfl
    · have hlt := List.sizeOf_lt_of_mem he
      obtain ⟨key, m⟩ := e
      simp only [Prod.mk.sizeOf_spec] at hlt
      simp only [Shape.object.sizeOf_spec]
      omega
    · simp only [Shape.object.sizeOf_spec, Option.some.sizeOf_spec]
      omega
  | array items =>
    rw [hn] at h
    obtain rfl := List.mem_singleton.1 h
    simp only [Shape.array.sizeOf_spec]
    omega
  | union variants tagging =>
    rw [hn] at h
    have hlt := List.sizeOf_lt_of_mem (show m ∈ variants from h)
    simp only [Shape.union.sizeOf_spec]
    omega
  | _ => simp [hn, Shape.parts] at h

/-- What holds of a node if it holds of what the node is made of holds of all nodes. -/
theorem Node.induction_inside {P : Node → Prop} (h : ∀ n, (∀ m, m.Inside n → P m) → P n)
    (n : Node) : P n := by
  induction hsize : sizeOf n using Nat.strong_induction_on generalizing n with
  | _ size ih => exact h n fun m hm => ih (sizeOf m) (hsize ▸ hm.sizeOf_lt) m rfl

/-- Shapes over other nodes depend on what they are made of. -/
theorem Shape.map_congr {f g : Node → Node} {shape : Shape Node}
    (h : ∀ m ∈ shape.parts, f m = g m) : shape.map f = shape.map g := by
  cases shape with
  | object properties required additional =>
    have hproperties : Table.mapValues f properties = Table.mapValues g properties :=
      List.map_congr_left fun e he => by rw [h e.2 (mem_parts_object.2 (.inl ⟨e, he, rfl⟩))]
    have hadditional : additional.map f = additional.map g :=
      Option.map_congr fun m hm => h m (mem_parts_object.2 (.inr hm))
    rw [map, map, hproperties, hadditional]
  | array items => rw [map, map, h items (List.mem_singleton_self items)]
  | union variants tagging =>
    have hvariants : variants.map f = variants.map g := List.map_congr_left h
    rw [map, map, hvariants]
  | _ => rfl

/-! ### Nodes that say the same -/

/-- The keys of an object are distinct, and values and defaults can be compared, at any depth. -/
def tidiness : Traits where
  schema := Schema.Regular
  shape shape := (Table.keys shape.properties).Nodup ∧
    ∀ values, shape = .enumeration values → ∀ v ∈ values, v.WellKeyed
  default := Json.Definite

/-- The keys and the values in the node can be compared, at any depth. -/
def Node.Tidy (n : Node) : Prop := n.Has tidiness

/-- The component stands in the node, at any depth. -/
def Node.Holds (n : Node) (c : String) : Prop :=
  ∃ m, Relation.ReflTransGen Node.Inside m n ∧ m.Denotes c

namespace Node

/-- The reader for whom no name suffices. -/
def unnamed : String → Bool := fun _ => false

variable {n m : Node} {c : String}

theorem Holds.inside (h : m.Holds c) (hm : m.Inside n) : n.Holds c := by
  obtain ⟨k, hk, hc⟩ := h
  exact ⟨k, hk.tail hm, hc⟩

theorem Tidy.inside (h : n.Tidy) (hm : m.Inside n) : m.Tidy := fun k hk => h k (hk.tail hm)

@[simp] theorem standIn?_unnamed (name : Option String) (shape : Shape Node) :
    standIn? unnamed name shape = none := by
  unfold standIn? unnamed
  split
  · rfl
  · cases name.or shape.backRef? <;> simp

/-- What a node stands for is in it. -/
theorem holds_of_standIn? {cut : String → Bool} (h : standIn? cut n.name n.shape = some c) :
    n.Holds c := by
  refine ⟨n, .refl, ?_⟩
  unfold standIn? at h
  split at h
  · simp at h
  · rcases Option.or_eq_some_iff.1 (Option.filter_eq_some_iff.1 h).1 with hname | ⟨hname, hshape⟩
    · exact .inl hname
    · exact .inr ⟨Shape.backRef?_eq_some.1 hshape, hname⟩

/-- Where no component stands whose name suffices, a name never suffices. -/
theorem reading_eq_unnamed {cut : String → Bool} (n : Node) :
    (∀ c, cut c → ¬ n.Holds c) → n.reading cut = n.reading unnamed := by
  induction n using Node.induction_inside with
  | h n ih =>
    intro hno
    have hnone : standIn? cut n.name n.shape = none :=
      Option.eq_none_iff_forall_ne_some.2 fun c hc =>
        hno c (cut_of_standIn? hc) (holds_of_standIn? hc)
    rw [reading_of_none hnone, reading_of_none (standIn?_unnamed _ _), content, content,
      Shape.map_congr fun m hm => ih m hm fun c hc hholds => hno c hc (hholds.inside hm)]

/-! ### Comparing tables and lists -/

/-- Every property is compared with the one that is found under its key. -/
theorem sameProperties_iff {properties others : List (String × Node)} :
    sameProperties properties others = true ↔
      ∀ e ∈ properties, ∃ m, Table.get? others e.1 = some m ∧ e.2.same m = true := by
  induction properties with
  | nil => simp [sameProperties]
  | cons e rest ih =>
    rw [sameProperties, Bool.and_eq_true, ih, List.forall_mem_cons]
    cases Table.get? others e.1 <;> simp

theorem sameVariants_iff {variants others : List Node} :
    sameVariants variants others = true ↔
      List.Forall₂ (fun n m => same n m = true) variants others := by
  induction variants generalizing others with
  | nil => cases others <;> simp [sameVariants]
  | cons n rest ih => cases others <;> simp [sameVariants, ih]

/-- Properties with distinct keys are the same if they are so under a function, key by key. -/
theorem sameProperties_of_mapValues {f : Node → Node} {properties others : List (String × Node)}
    (hkeys : (Table.keys properties).Nodup)
    (hsame : ∀ e ∈ properties, ∀ k, f e.2 = f k → e.2.same k = true)
    (h : Table.mapValues f properties = Table.mapValues f others) :
    sameProperties properties others = true := by
  refine sameProperties_iff.2 fun e he => ?_
  have hfound : (Table.get? others e.1).map f = some (f e.2) := by
    rw [← Table.get?_mapValues, ← h, Table.get?_mapValues,
      (Table.get?_eq_some_iff hkeys).2 he, Option.map_some]
  obtain ⟨m, hm, heq⟩ := Option.map_eq_some_iff.1 hfound
  exact ⟨m, hm, hsame e he m heq.symm⟩

theorem sameAdditional_of_map {f : Node → Node} {additional other : Option Node}
    (hsame : ∀ k ∈ additional, ∀ m, f k = f m → k.same m = true)
    (h : additional.map f = other.map f) : sameAdditional additional other = true := by
  cases additional with
  | none =>
    obtain rfl : other = none := Option.map_eq_none_iff.1 h.symm
    rw [sameAdditional]
  | some k =>
    obtain ⟨m, rfl, hm⟩ := Option.map_eq_some_iff.1 h.symm
    rw [sameAdditional]
    exact hsame k rfl m hm.symm

theorem sameVariants_of_map {f : Node → Node} {variants others : List Node}
    (hsame : ∀ k ∈ variants, ∀ m, f k = f m → k.same m = true)
    (h : variants.map f = others.map f) : sameVariants variants others = true := by
  rw [← List.forall₂_eq_eq_eq, List.forall₂_map_left_iff, List.forall₂_map_right_iff] at h
  have hmem := (List.forall₂_and_left (p := (· ∈ variants)) variants others).2 ⟨fun _ hk => hk, h⟩
  exact sameVariants_iff.2 (hmem.imp fun k m hm => hsame k hm.1 m hm.2)

/-- Shapes over the same nodes are the same if the keys and the values in them can be compared. -/
theorem sameShape_of_map {f : Node → Node} {shape shape' : Shape Node}
    (htidy : tidiness.shape shape) (hparts : ∀ k ∈ shape.parts, ∀ k', f k = f k' → k.same k' = true)
    (h : shape.map f = shape'.map f) : sameShape shape shape' = true := by
  cases shape with
  | object properties required additional =>
    cases shape' with
    | object properties' required' additional' =>
      obtain ⟨hproperties, rfl, hadditional⟩ := Shape.object.inj h
      have hlength : properties.length = properties'.length := by
        simpa [Table.mapValues] using congrArg List.length hproperties
      have hsame : sameProperties properties properties' = true :=
        sameProperties_of_mapValues htidy.1
          (fun e he => hparts e.2 (Shape.mem_parts_object.2 (.inl ⟨e, he, rfl⟩))) hproperties
      have hfurther : sameAdditional additional additional' = true :=
        sameAdditional_of_map (fun k hk => hparts k (Shape.mem_parts_object.2 (.inr hk)))
          hadditional
      simp [sameShape, hlength, hsame, hfurther, sameNames]
    | _ => simp [Shape.map] at h
  | array items =>
    cases shape' with
    | array items' =>
      rw [sameShape]
      exact hparts items (List.mem_singleton_self items) items' (Shape.array.inj h)
    | _ => simp [Shape.map] at h
  | union variants tagging =>
    cases shape' with
    | union variants' tagging' =>
      obtain ⟨hvariants, rfl⟩ := Shape.union.inj h
      have hsame : sameVariants variants variants' = true := sameVariants_of_map hparts hvariants
      simp [sameShape, hsame]
    | _ => simp [Shape.map] at h
  | enumeration values =>
    cases shape' with
    | enumeration values' =>
      obtain rfl := Shape.enumeration.inj h
      rw [sameShape]
      exact Json.sameItems_self (Json.wellKeyedItems_iff.2 (htidy.2 values rfl))
    | _ => simp [Shape.map] at h
  | _ => cases shape' <;> simp_all [Shape.map, sameShape]

/-- **Tidy nodes that say the same are the same.** -/
theorem same_of_reading (n : Node) : ∀ m : Node, n.Tidy → n.reading unnamed = m.reading unnamed →
    n.same m = true := by
  induction n using Node.induction_inside with
  | h n ih =>
    intro m htidy h
    rw [reading_of_none (standIn?_unnamed _ _), reading_of_none (standIn?_unnamed _ _)] at h
    have hshape := sameShape_of_map htidy.shape.self
      (fun k hk k' hkk' => ih k hk k' (htidy.inside hk) hkk') (congrArg Node.shape h)
    obtain ⟨serial, shape, nullable, name, description, default⟩ := n
    obtain ⟨serial', shape', nullable', name', description', default'⟩ := m
    obtain ⟨-, -, rfl, rfl, rfl, rfl⟩ := Node.mk.inj h
    have hdefault := Json.sameOption_self htidy.default
    simp only at hshape hdefault
    simp [same, hshape, hdefault]

end Node

/-! ### Derived nodes are tidy -/

section Tidy

variable {d : Document} {Q : Request → Node → Prop} {s : Schema} {shape : Shape Node} {n : Node}
  {name : Option String}

/-- A shape without properties and values is tidy if what it is made of is. -/
theorem Shape.tidy_of_parts (hproperties : shape.properties = [])
    (hvalues : ∀ values, shape ≠ .enumeration values) (h : ∀ m ∈ shape.parts, m.Tidy) :
    shape.Has tidiness :=
  ⟨⟨by rw [hproperties]; exact .nil, fun values hshape => absurd hshape (hvalues values)⟩, h⟩

theorem Shape.tidy_any : (Shape.any : Shape Node).Has tidiness :=
  tidy_of_parts rfl (by simp) (by simp [parts])

theorem Node.Bare.tidy (hn : n.Bare) (h : n.shape.Has tidiness) : n.Tidy :=
  Node.has_iff.2 ⟨hn.default ▸ Json.definite_none, h⟩

theorem Annotated.tidy {body : Body} (h : Annotated body s name n) (hs : s.RegularKeywords)
    (hbody : body.shape.Has tidiness) : n.Tidy :=
  Node.has_iff.2 ⟨h.default ▸ hs.default, h.shape ▸ hbody⟩

/-- A union of tidy nodes is tidy. -/
theorem Shape.tidy_union {variants : List Node} {tagging : Tagging} (h : ∀ m ∈ variants, m.Tidy) :
    (Shape.union variants tagging).Has tidiness :=
  tidy_of_parts rfl (by simp) h

theorem RefersTo.tidy {target : Node} (h : RefersTo target s name n) (hs : s.RegularKeywords)
    (htarget : target.Tidy) : n.Tidy := by
  unfold RefersTo at h
  split at h
  · exact h ▸ htarget
  · exact h.tidy hs (Shape.tidy_union (by simpa using htarget))

/-- The keys of an object are those that the schema declares. -/
theorem ObjectFrom.tidy (h : ObjectFrom Q s shape) (hs : s.RegularKeywords)
    (hQ : ∀ t m, t.Inside s → Answers Q t m → m.Tidy) : shape.Has tidiness := by
  obtain ⟨properties, additional, rfl, hproperties, hadditional⟩ := h
  have hkeys : Table.keys properties = Table.keys s.properties :=
    Table.keys_eq_of_forall₂ hproperties fun _ _ h => h.1
  refine ⟨⟨?_, by simp⟩, fun m hm => ?_⟩
  · show (Table.keys properties).Nodup
    exact hkeys ▸ hs.properties
  · rcases Shape.mem_parts_object.1 hm with ⟨e, he, rfl⟩ | hm
    · obtain ⟨p, hp, -, hanswers⟩ := forall₂_exists hproperties.flip he
      exact hQ p.2 e.2 (.property hp) hanswers
    · unfold AdditionalFrom at hadditional
      split at hadditional
      · rename_i t ht _
        obtain ⟨m', hm', hanswers⟩ := hadditional
        obtain rfl := Option.some.inj (hm.symm.trans hm')
        exact hQ t m (.additional ht) hanswers
      · obtain ⟨m', hm', hany, hbare⟩ := hadditional
        obtain rfl := Option.some.inj (hm.symm.trans hm')
        exact hbare.tidy (hany ▸ Shape.tidy_any)
      · simp [hm] at hadditional

theorem ArrayFrom.tidy (h : ArrayFrom Q s shape)
    (hQ : ∀ t m, t.Inside s → Answers Q t m → m.Tidy) : shape.Has tidiness := by
  obtain ⟨items, rfl, hitems⟩ := h
  refine Shape.tidy_of_parts rfl (by simp) fun m hm => ?_
  obtain rfl := List.mem_singleton.1 hm
  split at hitems
  · rename_i t ht
    exact hQ t m (.items ht) hitems
  · exact hitems.2.tidy (hitems.1 ▸ Shape.tidy_any)

theorem TypedFrom.tidy {typeName : String} (h : TypedFrom Q s typeName shape)
    (hs : s.RegularKeywords) (hQ : ∀ t m, t.Inside s → Answers Q t m → m.Tidy) :
    shape.Has tidiness := by
  have hscalar : ∀ kind format, (Shape.scalar kind format : Shape Node).Has tidiness :=
    fun _ _ => Shape.tidy_of_parts rfl (by simp) (by simp [Shape.parts])
  unfold TypedFrom at h
  split at h
  · exact h ▸ hscalar _ _
  · exact h ▸ hscalar _ _
  · exact h ▸ hscalar _ _
  · exact h ▸ hscalar _ _
  · exact ObjectFrom.tidy h hs hQ
  · exact ArrayFrom.tidy h hQ
  · exact h ▸ Shape.tidy_any

theorem PlainFrom.tidy (h : PlainFrom Q s shape) (hs : s.RegularKeywords)
    (hQ : ∀ t m, t.Inside s → Answers Q t m → m.Tidy) : shape.Has tidiness := by
  unfold PlainFrom at h
  split at h
  · unfold UntypedFrom at h
    split at h
    · exact h ▸ Shape.tidy_of_parts rfl (by simp) (by simp [Shape.parts])
    · split at h
      · exact ObjectFrom.tidy h hs hQ
      · split at h
        · exact ArrayFrom.tidy h hQ
        · exact h ▸ Shape.tidy_any
  · exact TypedFrom.tidy h hs hQ
  · obtain ⟨variants, rfl, hvariants⟩ := h
    refine Shape.tidy_union fun m hm => ?_
    obtain ⟨typeName, -, hshape, hbare⟩ := forall₂_exists hvariants.flip hm
    exact hbare.tidy (hshape.tidy hs hQ)

/-- What is merged from tidy fragments is tidy. -/
theorem tidy_mergeFragments {nodes : List Node} (location : String) (h : ∀ m ∈ nodes, m.Tidy) :
    (mergeFragments nodes location).1.shape.Has tidiness := by
  have hkeys := mergeFragments_nodup nodes location fun m hm => (h m hm).shape.self.1
  refine ⟨⟨hkeys, fun values hvalues => ?_⟩, fun m hm => ?_⟩
  · rcases mergeFragments_shape nodes location with heq | heq | ⟨f, hf, heq⟩
    · rw [heq] at hvalues
      simp [mergeObjects, ObjectParts.toBody] at hvalues
    · rw [heq] at hvalues
      simp at hvalues
    · exact (h f hf).shape.self.2 values (heq ▸ hvalues)
  · obtain ⟨f, hf, hm⟩ := parts_mergeFragments hm
    exact (h f hf).shape.parts m hm

/-- A request for a schema that tells all in its written form; other requests are for components. -/
def Request.Regular : Request → Prop
  | .schema s _ _ _ => s.Regular
  | _ => True

theorem FragmentFrom.tidy {spine : Bool} {f : Schema} (h : FragmentFrom Q spine f n)
    (hf : f.Regular) (hQ : ∀ r m, Q r m → r.Regular → m.Tidy) : n.Tidy := by
  unfold FragmentFrom at h
  split at h
  · obtain ⟨place, h⟩ := h
    exact hQ _ n h trivial
  · obtain ⟨place, h⟩ := h
    exact hQ _ n h hf

theorem OwnFrom.tidy {own : List Node} (h : OwnFrom Q s own) (hs : s.RegularKeywords)
    (hQ : ∀ t m, t.Inside s → Answers Q t m → m.Tidy) : ∀ m ∈ own, m.Tidy := by
  unfold OwnFrom at h
  split at h
  · obtain ⟨only, rfl, hobject, hbare⟩ := h
    intro m hm
    obtain rfl := List.mem_singleton.1 hm
    exact hbare.tidy (hobject.tidy hs hQ)
  · simp [h]

/-- The fragments that a composition is merged from are tidy if the answers are. -/
theorem tidy_fragments {spine : Bool} {fragments own : List Node} (hs : s.Regular)
    (hfragments : List.Forall₂ (FragmentFrom Q spine) s.allOf fragments) (hown : OwnFrom Q s own)
    (hQ : ∀ r m, Q r m → r.Regular → m.Tidy) : ∀ m ∈ fragments ++ own, m.Tidy := by
  intro m hm
  rcases List.mem_append.1 hm with hm | hm
  · obtain ⟨f, hf, hfrom⟩ := forall₂_exists hfragments.flip hm
    exact FragmentFrom.tidy hfrom (hs.inside (.allOf hf)) hQ
  · exact hown.tidy hs.keywords (fun t k ht ⟨_, hk⟩ => hQ _ k hk (hs.inside ht)) m hm

theorem tidy_literals {values : List Json} (h : ∀ v ∈ values, v.WellKeyed) :
    (Follow.literals values).shape.Has tidiness := by
  have hproperties : (Follow.literals values).shape.properties = [] := by
    unfold Follow.literals
    dsimp only
    split <;> rfl
  refine ⟨⟨?_, fun kept hkept => wellKeyed_literals h hkept⟩, by simp [parts_literals]⟩
  rw [hproperties]
  exact .nil

/-- **A node is tidy if the answers that it is made from are.** -/
theorem Built.tidy {location : String} {spine : Bool} (h : Built d Q s location name spine n)
    (hs : s.Regular) (hQ : ∀ r m, Q r m → r.Regular → m.Tidy) : n.Tidy := by
  have hinside : ∀ t m, t.Inside s → Answers Q t m → m.Tidy :=
    fun t m ht ⟨_, hm⟩ => hQ _ m hm (hs.inside ht)
  unfold Built at h
  split at h
  · obtain ⟨target, ⟨place, htarget⟩, hn⟩ := h
    exact hn.tidy hs.keywords (hQ _ target htarget trivial)
  · obtain ⟨target, ⟨place, htarget⟩, hn⟩ := h
    exact hn.tidy hs.keywords (hQ _ target htarget trivial)
  · obtain ⟨fragments, own, hfragments, hown, hn⟩ := h
    exact hn.tidy hs.keywords (tidy_mergeFragments location (tidy_fragments hs hfragments hown hQ))
  · rename_i keyword members hform
    obtain ⟨variants, body, findings, hvariants, hclassify, hn⟩ := h
    obtain ⟨tagging, hshape⟩ := classify_shape hclassify
    refine hn.tidy hs.keywords (hshape ▸ Shape.tidy_union fun m hm => ?_)
    obtain ⟨v, hv, rfl⟩ := List.mem_map.1 hm
    obtain ⟨member, hmember, hfrom⟩ := forall₂_exists hvariants.flip (List.mem_of_mem_filter hv)
    refine hinside member v.node ?_ hfrom.node
    cases Schema.formed_of_eq hform with
    | oneOf => exact .oneOf hmember
    | anyOf => exact .anyOf hmember
  · rename_i values hform
    refine h.tidy hs.keywords (tidy_literals fun v hv => ?_)
    cases Schema.formed_of_eq hform with
    | enumeration _ _ henumeration => exact hs.keywords.enumeration values henumeration v hv
    | constant _ _ _ hconstant =>
      rw [List.mem_singleton] at hv
      exact hv ▸ (hs.keywords.constant _ hconstant).2
  · obtain ⟨shape, hshape, hn⟩ := h
    exact hn.tidy hs.keywords (hshape.tidy hs.keywords hinside)

/-- Answers are tidy if the nodes of regular schemas are. -/
theorem Document.Lifts.tidy {r : Request} (hd : ∀ c body, d.schema? c = some body → body.Regular)
    (h : d.Lifts (fun s _ _ n => s.Regular → n.Tidy) r n) (hr : r.Regular) : n.Tidy := by
  induction h with
  | schema h => exact h hr
  | entered ht h =>
    obtain ⟨c, body, hbody, hinside⟩ := Document.addressed?_inside ht
    exact h fun u hu => hd c body hbody u (hu.trans hinside)
  | found hp hbody h hn => exact (h (hd _ _ hbody)).at? hn
  | opened hstands =>
    refine Node.has_iff.2 ⟨hstands.default ▸ Json.definite_none, ?_⟩
    rw [hstands.refersBack.shape]
    exact Shape.tidy_of_parts rfl (by simp) (by simp [Shape.parts])
  | fragment _ _ ih => exact ih trivial

/-- **Derived nodes are tidy**, if the components are regular. -/
theorem Document.Derives.tidy {r : Request} (hd : ∀ c body, d.schema? c = some body → body.Regular)
    (h : d.Derives r n) (hr : r.Regular) : n.Tidy :=
  (h.induct fun _ _ _ _ _ h hs => h.tidy hs fun _ _ hm hr => hm.2.tidy hd hr).tidy hd hr

end Tidy

end ApiBinding
