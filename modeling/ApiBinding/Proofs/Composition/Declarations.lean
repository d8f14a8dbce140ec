import ApiBinding.Proofs.Composition.Flattening
import ApiBinding.Proofs.Composition.Leaves
import ApiBinding.Proofs.Document.Spelling

/-!
# Declarations of properties

The schema that declares a property of a finished node can be read off the description: the
last fragment of a composition that declares the property counts, and the composition itself
is its own last fragment.  What the declaration comes to is known if it is a leaf.

## Main definitions

* `Declares`, `DeclaresAll` — the schema that declares a property, if any.
* `DeclaredThrough` — what is known of the node of a property, from the schema that declares it.
* `Drawn` — the node shows the leaf and the declarations of a schema.

## Main results

* `mergeFragments_get?` — the last declaration of merged fragments counts.
* `Built.declaredThrough` — a property has the node of the schema that declares it.
* `Built.drawn` — the node of a schema shows what can be read off the schema.
-/

namespace ApiBinding

/-! ### Merged declarations -/

/-- The last of several declarations. -/
def lastOf {α : Type} (found : List (Option α)) : Option α :=
  found.foldl (fun last next => next.or last) none

theorem lastOf_eq_none {α : Type} {found : List (Option α)} (h : ∀ o ∈ found, o = none) :
    lastOf found = none := by
  unfold lastOf
  induction found with
  | nil => rfl
  | cons o rest ih =>
    rw [List.foldl_cons, h o (.head _)]
    exact ih fun o ho => h o (.tail _ ho)

/-- What stands last counts if it is there. -/
theorem lastOf_concat {α : Type} (found : List (Option α)) (o : Option α) :
    lastOf (found ++ [o]) = o.or (lastOf found) := by
  rw [lastOf, List.foldl_append]
  rfl

theorem lastOf_append {α : Type} (xs ys : List (Option α)) :
    lastOf (xs ++ ys) = (lastOf ys).or (lastOf xs) := by
  induction ys using List.reverseRecOn with
  | nil => simp [lastOf]
  | append_singleton ys y ih => rw [← List.append_assoc, lastOf_concat, lastOf_concat, ih,
      Option.or_assoc]

/-- The last of related declarations are related. -/
theorem rel_lastOf {α β : Type} {R : α → β → Prop} {os : List (Option α)} {ps : List (Option β)}
    (h : List.Forall₂ (Option.Rel R) os ps) : Option.Rel R (lastOf os) (lastOf ps) := by
  have hfold : ∀ {o : Option α} {p : Option β}, Option.Rel R o p →
      Option.Rel R (os.foldl (fun last next => next.or last) o)
        (ps.foldl (fun last next => next.or last) p) := by
    induction h with
    | nil => exact id
    | cons hnext _ ih => exact fun hlast => ih (rel_or hnext hlast)
  exact hfold .none

namespace ObjectParts

variable {location : String} {property : String}

theorem get?_addProperties (index : Nat) :
    ∀ (properties : List (String × Node)) (declared : Table String Node),
      (Table.keys properties).Nodup →
      Table.get? (addProperties location index declared properties).1 property =
        (Table.get? properties property).or (Table.get? declared property)
  | [], _, _ => rfl
  | (key, node) :: rest, declared, h => by
    rw [Table.keys_cons, List.nodup_cons] at h
    rw [addProperties]
    simp only
    rw [get?_addProperties index rest _ h.2, Table.get?_insert, Table.get?_cons]
    by_cases hk : key = property
    · have hrest : Table.get? rest property = none := Table.get?_eq_none (hk ▸ h.1)
      simp [hk, hrest]
    · simp [hk]

theorem get?_addFragment {index : Nat} {parts : ObjectParts} {n : Node}
    (h : (declaredKeys n).Nodup) :
    Table.get? (parts.addFragment location index n).1.properties property =
      (Table.get? n.shape.properties property).or (Table.get? parts.properties property) := by
  unfold declaredKeys at h
  unfold addFragment
  cases hn : n.shape with
  | object properties required additional =>
    rw [hn] at h
    exact get?_addProperties index properties parts.properties h
  | _ => simp [Shape.properties]

theorem get?_addFragments :
    ∀ (nodes : List Node) (index : Nat) (parts : ObjectParts),
      (∀ n ∈ nodes, (declaredKeys n).Nodup) →
      Table.get? (addFragments location index parts nodes).1.properties property =
        (nodes.map fun n => Table.get? n.shape.properties property).foldl
          (fun last next => next.or last) (Table.get? parts.properties property)
  | [], _, _, _ => rfl
  | n :: rest, index, parts, h => by
    rw [addFragments]
    simp only
    rw [get?_addFragments rest _ _ fun m hm => h m (.tail _ hm), get?_addFragment (h n (.head _)),
      List.map_cons, List.foldl_cons]

end ObjectParts

theorem Shape.properties_of_not_isObject {shape : Shape Node} (h : ¬ shape.isObject) :
    shape.properties = [] := by
  cases shape <;> simp_all [Shape.isObject, Shape.properties]

/-- **The last declaration of merged fragments counts.** -/
theorem mergeFragments_get? {nodes : List Node} (location : String) {property : String}
    (h : ∀ n ∈ nodes, (ObjectParts.declaredKeys n).Nodup) :
    Table.get? (mergeFragments nodes location).1.shape.properties property =
      lastOf (nodes.map fun n => Table.get? n.shape.properties property) := by
  have hobjects : Table.get? (mergeObjects nodes location).1.shape.properties property =
      lastOf (nodes.map fun n => Table.get? n.shape.properties property) :=
    ObjectParts.get?_addFragments nodes 0 {} h
  unfold mergeFragments
  split
  · exact hobjects
  · -- Without an object among them no fragment declares anything.
    rename_i hany
    have hnone : ∀ n ∈ nodes, n.shape.properties = [] := fun n hn =>
      Shape.properties_of_not_isObject fun hobject => hany (List.any_eq_true.2 ⟨n, hn, hobject⟩)
    have hlast : lastOf (nodes.map fun n => Table.get? n.shape.properties property) = none := by
      refine lastOf_eq_none fun o ho => ?_
      obtain ⟨n, hn, rfl⟩ := List.mem_map.1 ho
      rw [hnone n hn]
      rfl
    split
    · rw [hlast]
      rfl
    · rename_i only honly
      have hmem : only ∈ nodes := List.mem_of_mem_filter (honly ▸ List.mem_singleton_self only)
      rw [Node.body, hnone only hmem, hlast]
      rfl
    · exact hobjects

/-- The keys of merged fragments are distinct. -/
theorem mergeFragments_nodup (nodes : List Node) (location : String) :
    (∀ n ∈ nodes, (ObjectParts.declaredKeys n).Nodup) →
    (Table.keys (mergeFragments nodes location).1.shape.properties).Nodup := by
  intro h
  have hobjects : (Table.keys (mergeObjects nodes location).1.shape.properties).Nodup := by
    show (Table.keys (ObjectParts.addFragments location 0 {} nodes).1.properties).Nodup
    rw [ObjectParts.keys_addFragments]
    exact nodup_extendNew _ .nil
  unfold mergeFragments
  split
  · exact hobjects
  · split
    · exact .nil
    · rename_i only honly
      exact h only (List.mem_of_mem_filter (honly ▸ List.mem_singleton_self only))
    · exact hobjects

/-- Merged fragments are no back reference if no fragment is one. -/
theorem mergeFragments_finished {nodes : List Node} (location : String)
    (h : ∀ n ∈ nodes, n.shape.backRef? = none) :
    (mergeFragments nodes location).1.shape.backRef? = none := by
  unfold mergeFragments
  split
  · rfl
  · split
    · rfl
    · rename_i only honly
      exact h only (List.mem_of_mem_filter (honly ▸ List.mem_singleton_self only))
    · rfl

/-! ### Declarations -/

/-- The schema is resolved to something that has no properties, whatever it refers to. -/
def Schema.Propertyless (s : Schema) (name : Option String) (spine : Bool) : Prop :=
  match s.form name spine with
  | .reference _ => name.isSome
  | .wrapper _ => False
  | .composition => False
  | .union _ _ => True
  | .literals _ => True
  | .plain => ¬ s.PlainObject

mutual

/-- The schema that declares a property of the finished node, if any. -/
inductive Declares (d : Document) (property : String) :
    Schema → Option String → Bool → Option Schema → Prop where
  | object {s : Schema} {name : Option String} {spine : Bool} (hs : s.PlainObject)
      (hkeys : (Table.keys s.properties).Nodup) :
      Declares d property s name spine (Table.get? s.properties property)
  | propertyless {s : Schema} {name : Option String} {spine : Bool}
      (hs : s.Propertyless name spine) : Declares d property s name spine none
  | composition {s : Schema} {name : Option String} {spine : Bool}
      {found : List (Option Schema)} (hform : s.form name spine = .composition)
      (hkeys : (Table.keys s.properties).Nodup) (h : DeclaresAll d property spine s.allOf found) :
      Declares d property s name spine ((Table.get? s.properties property).or (lastOf found))

/-- The schemas with which the fragments of a composition declare a property. -/
inductive DeclaresAll (d : Document) (property : String) :
    Bool → List Schema → List (Option Schema) → Prop where
  | nil {spine : Bool} : DeclaresAll d property spine [] []
  | reference {spine : Bool} {f t : Schema} {p c : String} {o : Option Schema}
      {rest : List Schema} {os : List (Option Schema)} (hf : f.reference = some p)
      (hp : Pointer.Whole p c) (ht : d.schema? c = some t)
      (ho : Declares d property t (some c) true o) (h : DeclaresAll d property spine rest os) :
      DeclaresAll d property spine (f :: rest) (o :: os)
  | inline {spine : Bool} {f : Schema} {o : Option Schema} {rest : List Schema}
      {os : List (Option Schema)} (hf : f.reference = none)
      (ho : Declares d property f none spine o) (h : DeclaresAll d property spine rest os) :
      DeclaresAll d property spine (f :: rest) (o :: os)

end

/-- The node is no back reference and has each property once; that of the given property is one that
`R` relates to the schema that declares it. -/
structure DeclaredThrough (R : Schema → Node → Prop) (property : String) (o : Option Schema)
    (n : Node) : Prop where
  finished : n.shape.backRef? = none
  nodup : (ObjectParts.declaredKeys n).Nodup
  found : Option.Rel R o (Table.get? n.shape.properties property)

section Through

variable {d : Document} {R : Schema → Node → Prop} {Q : Request → Node → Prop} {property : String}

/-- The answers to requests have the properties that are declared. -/
structure DeclaringAnswers (d : Document) (R : Schema → Node → Prop) (property : String)
    (Q : Request → Node → Prop) : Prop where
  node : ∀ {t n}, Answers Q t n → R t n
  fragment : ∀ {p l spine n c t o}, Q (.fragment p l spine) n → Pointer.Whole p c →
    d.schema? c = some t → Declares d property t (some c) true o → DeclaredThrough R property o n
  schema : ∀ {t l name spine n o}, Q (.schema t l name spine) n →
    Declares d property t name spine o → DeclaredThrough R property o n

theorem declaredThrough_none {n : Node} (hfinished : n.shape.backRef? = none)
    (h : ¬ n.shape.isObject) : DeclaredThrough R property none n := by
  have hproperties := Shape.properties_of_not_isObject h
  refine ⟨hfinished, ?_, ?_⟩
  · rw [ObjectParts.declaredKeys, hproperties]
    exact .nil
  · rw [hproperties]
    exact .none

theorem ObjectFrom.declaredThrough {s : Schema} {n : Node} (h : ObjectFrom Q s n.shape)
    (hR : ∀ t m, Answers Q t m → R t m) (hkeys : (Table.keys s.properties).Nodup) :
    DeclaredThrough R property (Table.get? s.properties property) n := by
  obtain ⟨properties, additional, hshape, hproperties, -⟩ := h
  refine ⟨by rw [hshape]; rfl, ?_, ?_⟩
  · rw [ObjectParts.declaredKeys, hshape]
    exact (Table.keys_eq_of_forall₂ hproperties fun _ _ h => h.1).symm ▸ hkeys
  · have hrel : Table.Rel R s.properties properties :=
      .of_forall₂ (hproperties.imp fun p e h => ⟨h.1.symm, hR p.2 e.2 h.2⟩)
    rw [hshape]
    exact hrel.get? property

/-- The nodes of fragments have the properties that the fragments declare. -/
theorem DeclaringAnswers.fragments (hQ : DeclaringAnswers d R property Q) {spine : Bool}
    {fs : List Schema} {os : List (Option Schema)} {nodes : List Node}
    (ho : DeclaresAll d property spine fs os) (h : List.Forall₂ (FragmentFrom Q spine) fs nodes) :
    List.Forall₂ (DeclaredThrough R property) os nodes := by
  induction h generalizing os with
  | nil =>
    cases ho
    exact .nil
  | cons hn _ ih =>
    cases ho with
    | reference hf hp ht ho h =>
      simp only [FragmentFrom, hf] at hn
      obtain ⟨l, hn⟩ := hn
      exact .cons (hQ.fragment hn hp ht ho) (ih h)
    | inline hf ho h =>
      simp only [FragmentFrom, hf] at hn
      obtain ⟨l, hn⟩ := hn
      exact .cons (hQ.schema hn ho) (ih h)

/-- The fragment of its own has the properties that a composition declares itself. -/
theorem OwnFrom.declaredThrough (property : String) {s : Schema} {own : List Node}
    (h : OwnFrom Q s own) (hR : ∀ t m, Answers Q t m → R t m)
    (hkeys : (Table.keys s.properties).Nodup) :
    (∃ n, own = [n] ∧ DeclaredThrough R property (Table.get? s.properties property) n) ∨
      own = [] ∧ Table.get? s.properties property = none := by
  unfold OwnFrom at h
  by_cases hadds : s.addsFragment
  · rw [if_pos hadds] at h
    obtain ⟨n, rfl, hobject, -⟩ := h
    exact .inl ⟨n, rfl, hobject.declaredThrough hR hkeys⟩
  · rw [if_neg hadds] at h
    have hempty : s.properties = [] ∧ s.required = [] := by simpa [Schema.addsFragment] using hadds
    exact .inr ⟨h, by rw [hempty.1, Table.get?_nil]⟩

/-- Merged fragments have the properties that they declare last. -/
theorem mergeFragments_declaredThrough {os : List (Option Schema)} {nodes : List Node}
    (location : String) (h : List.Forall₂ (DeclaredThrough R property) os nodes) {n : Node}
    (hn : n.shape = (mergeFragments nodes location).1.shape) :
    DeclaredThrough R property (lastOf os) n := by
  have hnodes : ∀ m ∈ nodes, m.shape.backRef? = none ∧ (ObjectParts.declaredKeys m).Nodup := by
    intro m hm
    obtain ⟨o, -, ho⟩ := forall₂_exists h.flip hm
    exact ⟨ho.finished, ho.nodup⟩
  refine ⟨hn ▸ mergeFragments_finished location fun m hm => (hnodes m hm).1, ?_, ?_⟩
  · rw [ObjectParts.declaredKeys, hn]
    exact mergeFragments_nodup nodes location fun m hm => (hnodes m hm).2
  · rw [hn, mergeFragments_get? location fun m hm => (hnodes m hm).2]
    refine rel_lastOf ?_
    rw [List.forall₂_map_right_iff]
    exact h.imp fun _ _ h => h.found

theorem TypedFrom.backRef?_eq {s : Schema} {typeName : String} {shape : Shape Node}
    (h : TypedFrom Q s typeName shape) : shape.backRef? = none := by
  unfold TypedFrom at h
  split at h
  · rw [h]; rfl
  · rw [h]; rfl
  · rw [h]; rfl
  · rw [h]; rfl
  · obtain ⟨_, _, rfl, -⟩ := h
    rfl
  · obtain ⟨_, rfl, -⟩ := h
    rfl
  · rw [h]; rfl

theorem TypedFrom.eq_object {s : Schema} {typeName : String} {shape : Shape Node}
    (h : TypedFrom Q s typeName shape) (hobject : shape.isObject) : typeName = "object" := by
  unfold TypedFrom at h
  split at h
  · simp [h, Shape.isObject] at hobject
  · simp [h, Shape.isObject] at hobject
  · simp [h, Shape.isObject] at hobject
  · simp [h, Shape.isObject] at hobject
  · rfl
  · obtain ⟨_, rfl, -⟩ := h
    simp [Shape.isObject] at hobject
  · simp [h, Shape.isObject] at hobject

/-- The shape that the type names make is no back reference, and it is an object only if the
schema is nothing else. -/
theorem PlainFrom.propertyless {s : Schema} {name : Option String} {spine : Bool}
    {shape : Shape Node} (h : PlainFrom Q s shape) (hform : s.form name spine = .plain)
    (hs : ¬ s.PlainObject) : shape.backRef? = none ∧ ¬ shape.isObject := by
  have htyped : ∀ h : s.typeNames = ["object"] ∨
      s.typeNames = [] ∧ s.isNullType = false ∧ s.declaresObject = true, False := by
    intro h
    cases Schema.formed_of_eq hform with
    | plain hr ha ho hy he hc => exact hs ⟨hr, ha, ho, hy, he, hc, h⟩
  unfold PlainFrom at h
  rcases hnames : s.typeNames with _ | ⟨single, _ | ⟨second, rest⟩⟩
  · simp only [hnames, UntypedFrom] at h
    by_cases hnull : s.isNullType
    · rw [if_pos hnull] at h
      simp [h, Shape.backRef?, Shape.isObject]
    have hdeclares : ¬ s.declaresObject := fun hdeclares =>
      htyped (.inr ⟨hnames, by simpa using hnull, hdeclares⟩)
    rw [if_neg hnull, if_neg hdeclares] at h
    split at h
    · obtain ⟨n, rfl, -⟩ := h
      simp [Shape.backRef?, Shape.isObject]
    · simp [h, Shape.backRef?, Shape.isObject]
  · simp only [hnames] at h
    exact ⟨h.backRef?_eq, fun hobject => htyped (.inl (by rw [hnames, h.eq_object hobject]))⟩
  · simp only [hnames] at h
    obtain ⟨variants, rfl, -⟩ := h
    simp [Shape.backRef?, Shape.isObject]

/-- A schema without properties has a node without properties. -/
theorem Built.propertyless {s : Schema} {location : String} {name : Option String} {spine : Bool}
    {n : Node} (h : Built d Q s location name spine n) (hs : s.Propertyless name spine) :
    n.shape.backRef? = none ∧ ¬ n.shape.isObject := by
  unfold Built at h
  unfold Schema.Propertyless at hs
  cases hform : s.form name spine with
  | reference p =>
    rw [hform] at h hs
    obtain ⟨target, -, hn⟩ := h
    have hname : name.isNone = false := by simpa using hs
    rw [RefersTo, Schema.passes, hname] at hn
    simp [hn.shape, Shape.backRef?, Shape.isObject]
  | wrapper p => simp [hform] at hs
  | composition => simp [hform] at hs
  | union keyword members =>
    rw [hform] at h
    obtain ⟨variants, body, findings, -, hclassify, hn⟩ := h
    obtain ⟨tagging, hshape⟩ := classify_shape hclassify
    simp [hn.shape, hshape, Shape.backRef?, Shape.isObject]
  | literals values =>
    rw [hform] at h
    rw [h.shape]
    unfold Follow.literals
    simp only
    split <;> simp [Shape.backRef?, Shape.isObject]
  | plain =>
    rw [hform] at h hs
    obtain ⟨shape, hshape, hn⟩ := h
    rw [hn.shape]
    exact hshape.propertyless hform hs

/-- **A property has the node of the schema that declares it.** -/
theorem Built.declaredThrough {s : Schema} {location : String} {name : Option String}
    {spine : Bool} {n : Node} {o : Option Schema} (h : Built d Q s location name spine n)
    (hQ : DeclaringAnswers d R property Q) (ho : Declares d property s name spine o) :
    DeclaredThrough R property o n := by
  cases ho with
  | object hs hkeys =>
    unfold Built at h
    rw [hs.form_eq] at h
    obtain ⟨shape, hshape, hn⟩ := h
    have hobject := hshape.object hs
    rw [← show n.shape = shape from hn.shape] at hobject
    exact hobject.declaredThrough (fun _ _ => hQ.node) hkeys
  | propertyless hs => exact declaredThrough_none (h.propertyless hs).1 (h.propertyless hs).2
  | composition hform hkeys hall =>
    unfold Built at h
    rw [hform] at h
    obtain ⟨fragments, own, hfragments, hown, hn⟩ := h
    have hall := hQ.fragments hall hfragments
    -- What the schema declares itself is the last fragment.
    rcases hown.declaredThrough property (fun _ _ => hQ.node) hkeys with
      ⟨m, rfl, hm⟩ | ⟨rfl, hnone⟩
    · rw [← lastOf_concat]
      exact mergeFragments_declaredThrough location (List.rel_append hall (.cons hm .nil)) hn.shape
    · rw [List.append_nil] at hn
      rw [hnone, Option.none_or]
      exact mergeFragments_declaredThrough location hall hn.shape

end Through

/-! ### Declarations that are leaves -/

/-- The property is found as it is declared: its node is the leaf that the declaration is. -/
def FoundAs (d : Document) : Option Schema → Option Node → Prop
  | some t, found => ∃ n, found = some n ∧ ∀ b, LeafOf d t none false b → LeafBody.Fits b n.body
  | none, found => found = none

/-- The node is no back reference; it declares the property once, by the given schema. -/
structure DeclaredBy (d : Document) (property : String) (o : Option Schema) (n : Node) : Prop where
  finished : n.shape.backRef? = none
  nodup : (ObjectParts.declaredKeys n).Nodup
  found : FoundAs d o (Table.get? n.shape.properties property)

/-- The node shows the leaf and the declarations of a schema. -/
structure Drawn (d : Document) (s : Schema) (name : Option String) (spine : Bool) (n : Node) :
    Prop where
  leaf : ∀ b, LeafOf d s name spine b → LeafBody.Fits b n.body
  declares : ∀ property o, Declares d property s name spine o → DeclaredBy d property o n

/-! ### The resolver comes to the declarations -/

section Answers

variable {d : Document} {opened : String → Prop} {Q : Request → Node → Prop} {property : String}

/-- The answers to requests show what is asked for, apart from back references to open
components. -/
structure DrawnAnswers (d : Document) (opened : String → Prop) (Q : Request → Node → Prop) :
    Prop where
  reference : ∀ {p l link n c t}, Q (.reference p l link) n → Pointer.Whole p c →
    d.schema? c = some t → Drawn d t (some c) true n ∨ n.shape = .backRef c ∧ opened p
  fragment : ∀ {p l spine n c t}, Q (.fragment p l spine) n → Pointer.Whole p c →
    d.schema? c = some t → Drawn d t (some c) true n
  schema : ∀ {t l name spine n}, Q (.schema t l name spine) n → Drawn d t name spine n

theorem DrawnAnswers.leaves (hQ : DrawnAnswers d opened Q) : LeafAnswers d opened Q where
  reference h hp ht hb := (hQ.reference h hp ht).imp_left fun h => h.leaf _ hb
  fragment h hp ht hb := (hQ.fragment h hp ht).leaf _ hb
  schema h hb := (hQ.schema h).leaf _ hb

/-- The node is the leaf that the declaration is. -/
def ShowsLeaf (d : Document) (t : Schema) (n : Node) : Prop :=
  ∀ b, LeafOf d t none false b → LeafBody.Fits b n.body

theorem foundAs_iff {o : Option Schema} {found : Option Node} :
    FoundAs d o found ↔ Option.Rel (ShowsLeaf d) o found := by
  cases o with
  | none =>
    constructor
    · rintro rfl
      exact .none
    · rintro ⟨⟩
      rfl
  | some t =>
    constructor
    · rintro ⟨n, rfl, hn⟩
      exact .some hn
    · rintro ⟨hn⟩
      exact ⟨_, rfl, hn⟩

theorem declaredBy_iff {o : Option Schema} {n : Node} :
    DeclaredBy d property o n ↔ DeclaredThrough (ShowsLeaf d) property o n :=
  ⟨fun h => ⟨h.finished, h.nodup, foundAs_iff.1 h.found⟩,
    fun h => ⟨h.finished, h.nodup, foundAs_iff.2 h.found⟩⟩

theorem DrawnAnswers.declaring (hQ : DrawnAnswers d opened Q) :
    DeclaringAnswers d (ShowsLeaf d) property Q where
  node := fun ⟨_, hn⟩ b hb => (hQ.schema hn).leaf b hb
  fragment h hp ht ho := declaredBy_iff.1 ((hQ.fragment h hp ht).declares _ _ ho)
  schema h ho := declaredBy_iff.1 ((hQ.schema h).declares _ _ ho)

/-- **The node of a schema shows what can be read off the schema.** -/
theorem Built.drawn {s : Schema} {location : String} {name : Option String} {spine : Bool}
    {n : Node} (h : Built d Q s location name spine n) (hQ : DrawnAnswers d opened Q)
    (hopen : ∀ p composed, opened p → Mentions s name spine p composed →
      Relation.TransGen d.Refers p p) : Drawn d s name spine n :=
  ⟨fun _ hb => h.fits hQ.leaves hopen hb,
    fun _ _ ho => declaredBy_iff.2 (h.declaredThrough hQ.declaring ho)⟩

end Answers

end ApiBinding
