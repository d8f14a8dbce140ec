import ApiBinding.Proofs.Composition.Laws
import ApiBinding.Proofs.Composition.Unions

/-!
# Readings of nodes

A node is read as what it says: without serial numbers, and with the name of a component in place of
what stands for it.  It is a matter of the reader for which components the name suffices; a
component that is a leaf is read as it is.  Where a back reference stands in one node and the
component in another, both are read in the same way.

What is merged from fragments, and what variants are classified to, is read off the contents of the
fragments and off the variants: nothing else about them counts.

## Main definitions

* `Node.reading`, `Node.content` — what a node says, and what it says inside.
* `Body.reading` — what a body says.

## Main results

* `Node.reading_eq` — a node is read as its content, or as the component that it stands for.
* `reading_mergeFragments` — **merging reads contents only.**
* `reading_classify` — **so does classifying, given the tags.**
-/

namespace ApiBinding

/-! ### Shapes over other nodes -/

namespace Shape

variable {μ ν : Type}

/-- The shape over other nodes. -/
def map (f : μ → ν) : Shape μ → Shape ν
  | .any => .any
  | .null => .null
  | .scalar kind format => .scalar kind format
  | .object properties required additional =>
    .object (Table.mapValues f properties) required (additional.map f)
  | .array items => .array (f items)
  | .enumeration values => .enumeration values
  | .union variants tagging => .union (variants.map f) tagging
  | .backRef component => .backRef component

variable (f : μ → ν) (shape : Shape μ)

@[simp] theorem isObject_map : (shape.map f).isObject = shape.isObject := by cases shape <;> rfl

@[simp] theorem isAny_map : (shape.map f).isAny = shape.isAny := by cases shape <;> rfl

@[simp] theorem isNull_map : (shape.map f).isNull = shape.isNull := by cases shape <;> rfl

@[simp] theorem backRef?_map : (shape.map f).backRef? = shape.backRef? := by cases shape <;> rfl

@[simp] theorem singleLiteral?_map : (shape.map f).singleLiteral? = shape.singleLiteral? := by
  cases shape with
  | enumeration values => rcases values with _ | ⟨value, _ | _⟩ <;> rfl
  | _ => rfl

@[simp] theorem properties_map :
    (shape.map f).properties = Table.mapValues f shape.properties := by
  cases shape <;> rfl

@[simp] theorem additional?_map : (shape.map f).additional? = shape.additional?.map f := by
  cases shape <;> rfl

@[simp] theorem isLeaf_map (f : Node → Node) (shape : Shape Node) :
    (shape.map f).isLeaf = shape.isLeaf := by
  cases shape <;> rfl

end Shape

/-! ### What nodes say -/

namespace Node

/-- The component that a node with the name and the shape stands for, if its name suffices. -/
def standIn? (cut : String → Bool) (name : Option String) (shape : Shape Node) : Option String :=
  if shape.isLeaf then none else (name.or shape.backRef?).filter cut

/-- The name of a component, in place of what stands for it. -/
def standIn (component : String) : Node := ⟨0, .backRef component, false, none, none, none⟩

mutual

/-- What the node says, if the names of some components suffice. -/
def reading (cut : String → Bool) : Node → Node
  | ⟨_, shape, nullable, name, description, default⟩ =>
    match standIn? cut name shape with
    | some component => standIn component
    | none => ⟨0, readShape cut shape, nullable, name, description, default⟩

/-- What the nodes of a shape say. -/
def readShape (cut : String → Bool) : Shape Node → Shape Node
  | .any => .any
  | .null => .null
  | .scalar kind format => .scalar kind format
  | .object properties required additional =>
    .object (readTable cut properties) required (readOption cut additional)
  | .array items => .array (reading cut items)
  | .enumeration values => .enumeration values
  | .union variants tagging => .union (readList cut variants) tagging
  | .backRef component => .backRef component

/-- What the nodes of a table say. -/
def readTable (cut : String → Bool) : List (String × Node) → List (String × Node)
  | [] => []
  | (key, n) :: rest => (key, reading cut n) :: readTable cut rest

/-- What the nodes of a list say. -/
def readList (cut : String → Bool) : List Node → List Node
  | [] => []
  | n :: rest => reading cut n :: readList cut rest

/-- What a node says, if there is one. -/
def readOption (cut : String → Bool) : Option Node → Option Node
  | none => none
  | some n => some (reading cut n)

end

variable {cut : String → Bool} {n m : Node}

theorem readTable_eq (cut : String → Bool) :
    ∀ t, readTable cut t = Table.mapValues (reading cut) t
  | [] => rfl
  | (key, n) :: rest => by
    rw [readTable, readTable_eq cut rest]
    rfl

theorem readList_eq (cut : String → Bool) : ∀ ns, readList cut ns = ns.map (reading cut)
  | [] => rfl
  | n :: rest => by rw [readList, readList_eq cut rest, List.map_cons]

theorem readShape_eq (cut : String → Bool) (shape : Shape Node) :
    readShape cut shape = shape.map (reading cut) := by
  cases shape with
  | object properties required additional =>
    cases additional <;> simp [readShape, readOption, Shape.map, readTable_eq]
  | union variants tagging => simp [readShape, Shape.map, readList_eq]
  | _ => rfl

/-- What the node says, be it the node of a component or not. -/
def content (cut : String → Bool) (n : Node) : Node :=
  ⟨0, n.shape.map (reading cut), n.nullable, n.name, n.description, n.default⟩

/-- **A node is read as its content**, or as the component that it stands for. -/
theorem reading_eq (n : Node) : n.reading cut =
    match standIn? cut n.name n.shape with
    | some component => standIn component
    | none => n.content cut := by
  obtain ⟨serial, shape, nullable, name, description, default⟩ := n
  rw [reading, content, readShape_eq]

theorem reading_of_standIn {c : String} (h : standIn? cut n.name n.shape = some c) :
    n.reading cut = standIn c := by
  rw [reading_eq, h]

theorem reading_of_none (h : standIn? cut n.name n.shape = none) :
    n.reading cut = n.content cut := by
  rw [reading_eq, h]

/-- What a node stands for can be seen in its content. -/
theorem standIn?_content : standIn? cut (n.content cut).name (n.content cut).shape =
    standIn? cut n.name n.shape := by
  simp [content, standIn?]

/-- Nodes with the same content are read in the same way. -/
theorem reading_eq_of_content (h : n.content cut = m.content cut) :
    n.reading cut = m.reading cut := by
  rw [reading_eq, reading_eq, ← standIn?_content, h, standIn?_content]

theorem standIn?_standIn {c : String} (hc : cut c) :
    standIn? cut (standIn c).name (standIn c).shape = some c := by
  simp [standIn, standIn?, Shape.isLeaf, Shape.backRef?, hc]

theorem cut_of_standIn? {name : Option String} {shape : Shape Node} {c : String}
    (h : standIn? cut name shape = some c) : cut c := by
  unfold standIn? at h
  split at h
  · simp at h
  · exact (Option.filter_eq_some_iff.1 h).2

/-- Nodes that are read in the same way have the same content, unless they are read as the name of
a component. -/
theorem content_eq_of_reading (h : n.reading cut = m.reading cut)
    (hn : standIn? cut n.name n.shape = none) : n.content cut = m.content cut := by
  cases hm : standIn? cut m.name m.shape with
  | none => rwa [reading_of_none hn, reading_of_none hm] at h
  | some c =>
    -- The content of the one would be the name of a component, which suffices.
    rw [reading_of_none hn, reading_of_standIn hm] at h
    rw [← standIn?_content, h, standIn?_standIn (cut_of_standIn? hm)] at hn
    simp at hn

@[simp] theorem isNull_reading : (n.reading cut).shape.isNull = n.shape.isNull := by
  rw [reading_eq]
  cases hn : standIn? cut n.name n.shape with
  | none => simp [content]
  | some c =>
    unfold standIn? at hn
    cases hshape : n.shape <;> simp_all [Shape.isLeaf, Shape.isNull, standIn]

@[simp] theorem singleLiteral?_reading :
    (n.reading cut).shape.singleLiteral? = n.shape.singleLiteral? := by
  rw [reading_eq]
  cases hn : standIn? cut n.name n.shape with
  | none => simp [content]
  | some c =>
    unfold standIn? at hn
    cases hshape : n.shape <;> simp_all [Shape.isLeaf, Shape.singleLiteral?, standIn]

theorem isNull_eq_of_reading (h : n.reading cut = m.reading cut) :
    n.shape.isNull = m.shape.isNull := by
  rw [← @isNull_reading cut n, h, isNull_reading]

theorem singleLiteral?_eq_of_reading (h : n.reading cut = m.reading cut) :
    n.shape.singleLiteral? = m.shape.singleLiteral? := by
  rw [← @singleLiteral?_reading cut n, h, singleLiteral?_reading]

end Node

/-- What the body says. -/
def Body.reading (cut : String → Bool) (b : Body) : Body :=
  ⟨b.shape.map (Node.reading cut), b.nullable⟩

/-- Annotated bodies that say the same have the same content. -/
theorem Annotated.content_eq {cut : String → Bool} {b b' : Body} {s : Schema}
    {name : Option String} {n n' : Node} (h : Annotated b s name n) (h' : Annotated b' s name n')
    (hb : b.reading cut = b'.reading cut) : n.content cut = n'.content cut := by
  obtain ⟨hshape, hnullable⟩ := Body.mk.inj hb
  rw [Node.content, Node.content, h.shape, h'.shape, h.nullable, h'.nullable, h.name, h'.name,
    h.description, h'.description, h.default, h'.default, hshape, hnullable]

/-! ### Merging -/

section Merge

variable {cut : String → Bool}

theorem Table.ofEntries_mapValues {α β : Type} (f : α → β) (entries : List (String × α)) :
    Table.ofEntries (Table.mapValues f entries) = Table.mapValues f (Table.ofEntries entries) := by
  refine Table.ext_get? (Table.nodup_ofEntries _) ?_ fun key => ?_
  · rw [Table.keys_ofEntries, Table.keys_mapValues, Table.keys_mapValues, Table.keys_ofEntries]
  · have hreverse : (Table.mapValues f entries).reverse = Table.mapValues f entries.reverse := by
      simp [Table.mapValues]
    rw [Table.get?_ofEntries, Table.get?_mapValues, Table.get?_ofEntries, Table.latest?,
      Table.latest?, hreverse, Table.get?_mapValues]

theorem lastOf_map {α β : Type} (f : α → β) (found : List (Option α)) :
    lastOf (found.map (Option.map f)) = (lastOf found).map f := by
  induction found using List.reverseRecOn with
  | nil => rfl
  | append_singleton found o ih =>
    rw [List.map_append, List.map_singleton, lastOf_concat, lastOf_concat, ih]
    cases o <;> rfl

theorem speaking_content (fragments : List Node) :
    speaking (fragments.map (Node.content cut)) =
      (speaking fragments).map (Node.content cut) := by
  unfold speaking
  rw [List.filter_map]
  congr 1
  refine List.filter_congr fun n _ => ?_
  simp [Node.content]

theorem oneSpeaks_content (fragments : List Node) :
    OneSpeaks (fragments.map (Node.content cut)) ↔ OneSpeaks fragments := by
  unfold OneSpeaks
  rw [speaking_content, List.length_map]
  simp [Node.content]

theorem declarationsOf_content (fragments : List Node) :
    declarationsOf (fragments.map (Node.content cut)) =
      Table.mapValues (Node.reading cut) (declarationsOf fragments) := by
  unfold declarationsOf Table.mapValues
  rw [List.flatMap_map, List.map_flatMap]
  simp [Node.content, Table.mapValues]

/-- **Merging reads contents only.** -/
theorem reading_mergeFragments (fragments : List Node) (location location' : String) :
    (mergeFragments fragments location).1.reading cut =
      (mergeFragments (fragments.map (Node.content cut)) location').1 := by
  by_cases h : OneSpeaks fragments
  · rw [mergeFragments_of_oneSpeaks h,
      mergeFragments_of_oneSpeaks ((oneSpeaks_content fragments).2 h), speaking_content,
      List.head?_map]
    cases (speaking fragments).head? <;> rfl
  · rw [mergeFragments_of_not_oneSpeaks h,
      mergeFragments_of_not_oneSpeaks fun h' => h ((oneSpeaks_content fragments).1 h'),
      mergeObjects_eq, mergeObjects_eq]
    have hrequired : (fragments.map (Node.content cut)).flatMap ObjectParts.requiredNames =
        fragments.flatMap ObjectParts.requiredNames := by
      rw [List.flatMap_map]
      refine List.flatMap_congr fun n _ => ?_
      unfold ObjectParts.requiredNames Node.content
      cases n.shape <;> rfl
    have hadditional : ((fragments.map (Node.content cut)).map fun f => f.shape.additional?) =
        (fragments.map fun f => f.shape.additional?).map (Option.map (Node.reading cut)) := by
      simp [Node.content]
    simp only [Body.reading, ObjectParts.toBody, ObjectParts.ofFragments, Shape.map,
      declarationsOf_content, Table.ofEntries_mapValues, hrequired, hadditional, lastOf_map]

/-- Fragments with the same contents are merged to the same. -/
theorem reading_mergeFragments_congr {fragments fragments' : List Node}
    (location location' : String)
    (h : fragments.map (Node.content cut) = fragments'.map (Node.content cut)) :
    (mergeFragments fragments location).1.reading cut =
      (mergeFragments fragments' location').1.reading cut := by
  rw [reading_mergeFragments fragments location location, h,
    reading_mergeFragments fragments' location' location]

end Merge

/-! ### Classifying -/

section Classify

variable {cut : String → Bool} {keyword : UnionKeyword} {discriminator : Option Discriminator}

/-- Variants that are read in the same way, and get the same tag if one is needed. -/
structure Variant.ReadsAs (cut : String → Bool) (keyword : UnionKeyword)
    (discriminator : Option Discriminator) (v v' : Variant) : Prop where
  node : v.node.reading cut = v'.node.reading cut
  tag : ∀ D, keyword = .oneOf → discriminator = some D → ¬ v.node.shape.isNull →
    tagOf? D v = tagOf? D v'

theorem Variant.ReadsAs.isNull_eq {v v' : Variant}
    (h : v.ReadsAs cut keyword discriminator v') :
    v.node.shape.isNull = v'.node.shape.isNull :=
  Node.isNull_eq_of_reading h.node

theorem properVariants_readsAs {vs vs' : List Variant}
    (h : List.Forall₂ (Variant.ReadsAs cut keyword discriminator) vs vs') :
    List.Forall₂ (fun v v' => v.ReadsAs cut keyword discriminator v' ∧ ¬ v.node.shape.isNull)
      (properVariants vs) (properVariants vs') := by
  induction h with
  | nil => exact .nil
  | @cons v v' _ _ hv _ ih =>
    unfold properVariants at ih ⊢
    rw [List.filter_cons, List.filter_cons, ← hv.isNull_eq]
    split
    · exact .cons ⟨hv, by simp_all⟩ ih
    · exact ih

/-- Variants that are read in the same way have the same tags. -/
theorem tags_eq_of_readsAs {D : Discriminator} {vs vs' : List Variant} {tags tags' : List String}
    (h : List.Forall₂ (fun v v' => v.ReadsAs cut .oneOf (some D) v' ∧ ¬ v.node.shape.isNull) vs vs')
    (htags : List.Forall₂ (fun v tag => tagOf? D v = some tag) vs tags)
    (htags' : List.Forall₂ (fun v tag => tagOf? D v = some tag) vs' tags') : tags = tags' := by
  induction h generalizing tags tags' with
  | nil =>
    cases htags
    cases htags'
    rfl
  | cons hv _ ih =>
    cases htags with
    | cons htag hrest =>
      cases htags' with
      | cons htag' hrest' =>
        rw [hv.1.tag D rfl rfl hv.2, htag', Option.some.injEq] at htag
        rw [htag, ih hrest hrest']

theorem taggingOf_readsAs {vs vs' : List Variant}
    (h : List.Forall₂ (fun v v' => v.ReadsAs cut keyword discriminator v' ∧
      ¬ v.node.shape.isNull) vs vs') {location location' : String}
    {found found' : Tagging × List Diagnostic}
    (hf : taggingOf keyword vs discriminator location = .ok found)
    (hf' : taggingOf keyword vs' discriminator location' = .ok found') : found.1 = found'.1 := by
  cases discriminator with
  | none =>
    simp only [taggingOf, Except.ok.injEq] at hf hf'
    rw [← hf, ← hf']
  | some D =>
    cases keyword with
    | anyOf =>
      simp only [taggingOf, Except.ok.injEq] at hf hf'
      rw [← hf, ← hf']
    | oneOf =>
      obtain ⟨tags, htags, rfl⟩ : ∃ tags, tagsOf D location 0 vs = .ok tags ∧
          (Tagging.tagged D.propertyName tags, []) = found := by
        cases htags : tagsOf D location 0 vs <;> simp_all [taggingOf, Except.map]
      obtain ⟨tags', htags', rfl⟩ : ∃ tags, tagsOf D location' 0 vs' = .ok tags ∧
          (Tagging.tagged D.propertyName tags, []) = found' := by
        cases htags : tagsOf D location' 0 vs' <;> simp_all [taggingOf, Except.map]
      rw [tags_eq_of_readsAs h (forall₂_of_tagsOf htags) (forall₂_of_tagsOf htags')]

/-- **Classifying reads variants and their tags only.** -/
theorem reading_classify {vs vs' : List Variant} {location location' : String} {b b' : Body}
    {fs fs' : List Diagnostic}
    (h : List.Forall₂ (Variant.ReadsAs cut keyword discriminator) vs vs')
    (hb : classify keyword vs discriminator location = .ok (b, fs))
    (hb' : classify keyword vs' discriminator location' = .ok (b', fs')) :
    b.reading cut = b'.reading cut := by
  have hproper := properVariants_readsAs h
  have hnodes : ((properVariants vs).map Variant.node).map (Node.reading cut) =
      ((properVariants vs').map Variant.node).map (Node.reading cut) := by
    generalize properVariants vs = kept at hproper
    generalize properVariants vs' = kept' at hproper
    induction hproper with
    | nil => rfl
    | cons hv _ ih => simpa [hv.1.node] using ih
  have hnullable : (vs.any fun v => v.node.shape.isNull) =
      vs'.any fun v => v.node.shape.isNull := by
    clear hb hb' hproper hnodes
    induction h with
    | nil => rfl
    | cons hv _ ih => rw [List.any_cons, List.any_cons, ih, hv.isNull_eq]
  rw [classify_eq] at hb hb'
  cases hf : taggingOf keyword (properVariants vs) discriminator location with
  | error cause => simp [hf, Except.map] at hb
  | ok found =>
    cases hf' : taggingOf keyword (properVariants vs') discriminator location' with
    | error cause => simp [hf', Except.map] at hb'
    | ok found' =>
      simp only [hf, hf', Except.map, Except.ok.injEq, Prod.mk.injEq] at hb hb'
      rw [← hb.1, ← hb'.1, Body.reading, Body.reading, Shape.map, Shape.map, hnodes, hnullable,
        taggingOf_readsAs hproper hf hf']

end Classify

end ApiBinding
