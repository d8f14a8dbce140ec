import ApiBinding.Proofs.Composition.Tags
import ApiBinding.Proofs.Resolver.Attainment

/-!
# What resolved nodes are made of

A node is made from a schema and from other nodes, and nothing else.  So what holds of the nodes
that schemas make themselves holds of the nodes in every answer, at any depth: fragments that are
merged pass their parts on, a kept node was an answer before, and a part that is looked up is
inside the node of its component.

Besides, a node that answers for a whole component can be recognized as such: it is the node of the
component, or it refers back to it.

## Main definitions

* `Shape.parts`, `Node.Inside` — the nodes that a shape or a node is made of.
* `Traits` — what is said of schemas, and of the shapes and the defaults of nodes.
* `Node.Has` — it holds of a node, at any depth.
* `Node.StandsFor` — the node of a member that refers to a component.
* `Traits.Sound` — what is said of schemas carries over to what they make themselves.

## Main results

* `parts_mergeFragments` — what a merged body is made of, one of the fragments is made of.
* `Traits.Sound.built` — what holds of the answers holds of what is built from them.
* `Traits.Sound.answers` — **it holds of the answers to queries, at any depth.**
-/

namespace ApiBinding

/-! ### The parts of a node -/

/-- The nodes that a shape is made of. -/
def Shape.parts : Shape Node → List Node
  | .object properties _ additional => properties.map Prod.snd ++ additional.toList
  | .array items => [items]
  | .union variants _ => variants
  | _ => []

/-- The first node is one of those that the second one is made of. -/
def Node.Inside (m n : Node) : Prop := m ∈ n.shape.parts

theorem Shape.mem_parts_object {m : Node} {properties : List (String × Node)}
    {required : List String} {additional : Option Node} :
    m ∈ (Shape.object properties required additional).parts ↔
      (∃ e ∈ properties, e.2 = m) ∨ additional = some m := by
  simp [Shape.parts, eq_comm]

/-- The node of a property is inside. -/
theorem Node.inside_of_get? {n m : Node} {key : String}
    (h : Table.get? n.shape.properties key = some m) : m.Inside n := by
  have hmem := Table.mem_of_get? h
  unfold Inside
  cases hshape : n.shape with
  | object properties required additional =>
    rw [hshape] at hmem
    exact Shape.mem_parts_object.2 (.inl ⟨_, hmem, rfl⟩)
  | _ => simp [hshape, Shape.properties] at hmem

/-- Steps lead to nodes inside. -/
theorem Node.at?_inside {n m : Node} {steps : List String} (hm : n.at? steps = some m) :
    Relation.ReflTransGen Node.Inside m n := by
  -- Each step leads to a node that the node before is made of, or nowhere.
  fun_induction Node.at? n steps with
  | case1 n =>
    rw [Option.some.injEq] at hm
    exact hm ▸ .refl
  | case2 n properties required additional hshape =>
    refine .single ?_
    rw [Node.Inside, hshape]
    exact Shape.mem_parts_object.2 (.inr hm)
  | case4 n items hshape =>
    rw [Option.some.injEq] at hm
    subst hm
    refine .single ?_
    rw [Node.Inside, hshape]
    exact .head _
  | case7 n next rest properties required additional hshape ih =>
    obtain ⟨e, he, hrest⟩ := Option.bind_eq_some_iff.1 hm
    refine (ih e hrest).tail ?_
    rw [Node.Inside, hshape]
    exact Shape.mem_parts_object.2 (.inl ⟨_, Table.mem_of_get? he, rfl⟩)
  | case8 n next rest properties required additional hshape hstep ih =>
    obtain ⟨e, he, hrest⟩ := Option.bind_eq_some_iff.1 hm
    refine (ih e hrest).tail ?_
    rw [Node.Inside, hshape]
    exact Shape.mem_parts_object.2 (.inr he)
  | case10 n next rest items hshape ih =>
    refine (ih hm).tail ?_
    rw [Node.Inside, hshape]
    exact .head _
  | case3 | case5 | case6 | case9 | case11 | case12 => simp at hm

/-! ### Merged fragments -/

section Merge

open ObjectParts

variable {location : String}

theorem mem_addProperties {index : Nat} {e : String × Node} {properties : List (String × Node)} :
    ∀ {declared : Table String Node},
      e ∈ (addProperties location index declared properties).1 → e ∈ declared ∨ e ∈ properties := by
  induction properties with
  | nil => exact fun he => .inl he
  | cons property rest ih =>
    intro declared he
    rcases ih he with he | he
    · rcases Table.mem_insert he with rfl | he
      · exact .inr (.head _)
      · exact .inl he
    · exact .inr (.tail _ he)

/-- What a fragment adds to an object are its own parts. -/
theorem parts_addFragment {index : Nat} {parts : ObjectParts} {f m : Node}
    (hm : m ∈ (parts.addFragment location index f).1.toBody.shape.parts) :
    m ∈ parts.toBody.shape.parts ∨ m ∈ f.shape.parts := by
  unfold addFragment at hm
  split at hm
  · rename_i properties required additional hshape
    rw [hshape]
    rcases Shape.mem_parts_object.1 hm with ⟨e, he, rfl⟩ | hm
    · rcases mem_addProperties he with he | he
      · exact .inl (Shape.mem_parts_object.2 (.inl ⟨e, he, rfl⟩))
      · exact .inr (Shape.mem_parts_object.2 (.inl ⟨e, he, rfl⟩))
    · rcases Option.or_eq_some_iff.1 hm with hm | ⟨-, hm⟩
      · exact .inr (Shape.mem_parts_object.2 (.inr hm))
      · exact .inl (Shape.mem_parts_object.2 (.inr hm))
  · exact .inl hm
  · exact .inl hm

theorem parts_addFragments {m : Node} {nodes : List Node} :
    ∀ {index : Nat} {parts : ObjectParts},
      m ∈ (addFragments location index parts nodes).1.toBody.shape.parts →
        m ∈ parts.toBody.shape.parts ∨ ∃ f ∈ nodes, m ∈ f.shape.parts := by
  induction nodes with
  | nil => exact fun hm => .inl hm
  | cons f rest ih =>
    intro index parts hm
    rcases ih hm with hm | ⟨g, hg, hm⟩
    · rcases parts_addFragment hm with hm | hm
      · exact .inl hm
      · exact .inr ⟨f, .head _, hm⟩
    · exact .inr ⟨g, .tail _ hg, hm⟩

theorem parts_mergeObjects {m : Node} {nodes : List Node}
    (hm : m ∈ (mergeObjects nodes location).1.shape.parts) :
    ∃ f ∈ nodes, m ∈ f.shape.parts := by
  rcases parts_addFragments hm with hm | hm
  · simp [toBody, Shape.parts] at hm
  · exact hm

/-- **The body that is merged from fragments** is an object, says nothing, or has the shape of one
of them. -/
theorem mergeFragments_shape (nodes : List Node) (location : String) :
    (mergeFragments nodes location).1 = (mergeObjects nodes location).1 ∨
      (mergeFragments nodes location).1.shape = .any ∨
        ∃ f ∈ nodes, (mergeFragments nodes location).1.shape = f.shape := by
  unfold mergeFragments
  split
  · exact .inl rfl
  · split
    · exact .inr (.inl rfl)
    · rename_i only honly
      exact .inr (.inr ⟨only, List.mem_of_mem_filter (honly ▸ List.mem_singleton_self only), rfl⟩)
    · exact .inl rfl

/-- What a merged body is made of, one of the fragments is made of. -/
theorem parts_mergeFragments {m : Node} {nodes : List Node}
    (hm : m ∈ (mergeFragments nodes location).1.shape.parts) :
    ∃ f ∈ nodes, m ∈ f.shape.parts := by
  rcases mergeFragments_shape nodes location with h | h | ⟨f, hf, h⟩
  · rw [h] at hm
    exact parts_mergeObjects hm
  · simp [h, Shape.parts] at hm
  · exact ⟨f, hf, h ▸ hm⟩

end Merge

/-- The literals of a schema are a shape without parts. -/
theorem parts_literals (values : List Json) : (Follow.literals values).shape.parts = [] := by
  unfold Follow.literals
  dsimp only
  split <;> rfl

/-! ### Traits -/

/-- What is said of schemas, and of the shapes and the defaults of nodes. -/
structure Traits where
  schema : Schema → Prop
  shape : Shape Node → Prop
  default : Option Json → Prop

/-- It holds of the node itself. -/
structure Node.Shows (T : Traits) (n : Node) : Prop where
  shape : T.shape n.shape
  default : T.default n.default

/-- It holds of the node, at any depth. -/
def Node.Has (T : Traits) (n : Node) : Prop :=
  ∀ m, Relation.ReflTransGen Node.Inside m n → m.Shows T

/-- It holds of the shape, and of the parts at any depth. -/
structure Shape.Has (T : Traits) (shape : Shape Node) : Prop where
  self : T.shape shape
  parts : ∀ m ∈ shape.parts, m.Has T

section Traits

variable {T : Traits} {n m : Node}

theorem Node.has_iff : n.Has T ↔ T.default n.default ∧ n.shape.Has T := by
  constructor
  · intro h
    refine ⟨(h n .refl).default, (h n .refl).shape, fun m hm k hk => ?_⟩
    exact h k (hk.tail hm)
  · rintro ⟨hdefault, hshape⟩ m hm
    rcases Relation.ReflTransGen.cases_tail hm with rfl | ⟨k, hmk, hk⟩
    · exact ⟨hshape.self, hdefault⟩
    · exact hshape.parts k hk m hmk

theorem Node.Has.shape (h : n.Has T) : n.shape.Has T := (Node.has_iff.1 h).2

theorem Node.Has.default (h : n.Has T) : T.default n.default := (Node.has_iff.1 h).1

theorem Node.Has.at? {steps : List String} (h : n.Has T) (hm : n.at? steps = some m) : m.Has T :=
  fun k hk => h k (hk.trans (Node.at?_inside hm))

end Traits

/-- A shape that holds no values and no tags. -/
structure Shape.Plain (shape : Shape Node) : Prop where
  values : ∀ values, shape ≠ .enumeration values
  tags : ∀ variants property tags, shape ≠ .union variants (.tagged property tags)

theorem Shape.plain_any : (Shape.any : Shape Node).Plain := ⟨by simp, by simp⟩

theorem Shape.plain_null : (Shape.null : Shape Node).Plain := ⟨by simp, by simp⟩

theorem Shape.plain_scalar {kind : ScalarKind} {format : Option String} :
    (Shape.scalar kind format : Shape Node).Plain := ⟨by simp, by simp⟩

theorem Shape.plain_backRef {c : String} : (Shape.backRef c : Shape Node).Plain :=
  ⟨by simp, by simp⟩

theorem Shape.plain_object {properties : List (String × Node)} {required : List String}
    {additional : Option Node} : (Shape.object properties required additional).Plain :=
  ⟨by simp, by simp⟩

theorem Shape.plain_array {items : Node} : (Shape.array items).Plain := ⟨by simp, by simp⟩

theorem Shape.plain_untagged {variants : List Node} : (Shape.union variants .untagged).Plain :=
  ⟨by simp, by simp⟩

/-! ### Nodes that stand for components -/

/-- The node is that of the component, or it refers back to it. -/
def Node.Denotes (n : Node) (c : String) : Prop := n.name = some c ∨ n.RefersBack c

/-- The node stands for the component: it denotes it, or it only adds `null` to a node that
does. -/
inductive Node.StandsFor (n : Node) (c : String) : Prop where
  | denotes (h : n.Denotes c)
  | wraps {m : Node} (hname : n.name = none) (hshape : n.shape = .union [m] .untagged)
      (h : m.Denotes c)

namespace Traits

variable (T : Traits)

/-- What is known of answers.  Those for schemas show the traits if the schemas do. -/
def Answer : Request → Node → Prop
  | .reference p _ _, n => n.Has T ∧ ∀ c, Pointer.Whole p c → n.Denotes c
  | .fragment _ _ _, n => n.Has T
  | .schema s _ name _, n => (T.schema s → n.Has T) ∧ (∀ c, name = some c → n.name = some c) ∧
      ∀ c, name = none → Document.wholeReference? s = some c → n.StandsFor c

/-- What is known of the answers that a step of a run is given: besides, they arise during runs. -/
def Given (d : Document) (r : Request) (n : Node) : Prop := T.Answer r n ∧ d.Arises r n

/-- What is said of schemas holds inside them, and of the components of the description; and it
carries over to what a schema makes itself: its default, its literals, and the tags of a union. -/
structure Sound (d : Document) : Prop where
  inside : ∀ {s t : Schema}, T.schema s → Schema.Inside t s → T.schema t
  component : ∀ {c : String} {s : Schema}, d.schema? c = some s → T.schema s
  noDefault : T.default none
  default : ∀ {s : Schema}, T.schema s → T.default s.default
  plain : ∀ {shape : Shape Node}, shape.Plain → T.shape shape
  literals : ∀ {s : Schema} {name : Option String} {spine : Bool} {values : List Json},
    T.schema s → s.form name spine = .literals values → T.shape (Follow.literals values).shape
  union : ∀ {s : Schema} {name : Option String} {spine : Bool} {keyword : UnionKeyword}
    {members : List Schema} {variants : List Variant} {location : String} {body : Body}
    {findings : List Diagnostic}, T.schema s → s.form name spine = .union keyword members →
      List.Forall₂ (VariantFrom d (T.Given d) s) members variants →
      classify keyword variants s.discriminator location = .ok (body, findings) →
      T.shape body.shape

end Traits

namespace Traits.Sound

variable {T : Traits} {d : Document}

/-! ### Built nodes -/

section Built

variable {s : Schema} {shape : Shape Node} {n : Node} {name : Option String}

theorem descend (hT : T.Sound d) {t : Schema} (hs : T.schema s)
    (ht : Relation.ReflTransGen Schema.Inside t s) : T.schema t := by
  induction ht using Relation.ReflTransGen.head_induction_on with
  | refl => exact hs
  | head hstep _ ih => exact hT.inside ih hstep

theorem shape_of_parts (hT : T.Sound d) (hplain : shape.Plain) (h : ∀ m ∈ shape.parts, m.Has T) :
    shape.Has T := ⟨hT.plain hplain, h⟩

theorem any (hT : T.Sound d) : (Shape.any : Shape Node).Has T :=
  hT.shape_of_parts Shape.plain_any (by simp [Shape.parts])

/-- A node that is made on the way shows what its shape shows. -/
theorem bare (hT : T.Sound d) (hn : n.Bare) (h : n.shape.Has T) : n.Has T :=
  Node.has_iff.2 ⟨hn.default ▸ hT.noDefault, h⟩

theorem annotated (hT : T.Sound d) {body : Body} (h : Annotated body s name n) (hs : T.schema s)
    (hbody : body.shape.Has T) : n.Has T := by
  rw [Node.has_iff, h.default, h.shape]
  exact ⟨hT.default hs, hbody⟩

theorem untagged (hT : T.Sound d) {variants : List Node} (h : ∀ m ∈ variants, m.Has T) :
    (Shape.union variants .untagged).Has T :=
  hT.shape_of_parts Shape.plain_untagged h

theorem refersTo (hT : T.Sound d) {target : Node} (h : RefersTo target s name n) (hs : T.schema s)
    (htarget : target.Has T) : n.Has T := by
  unfold RefersTo at h
  split at h
  · exact h ▸ htarget
  · exact hT.annotated h hs (hT.untagged (by simpa using htarget))

theorem object (hT : T.Sound d) (h : ObjectFrom T.Answer s shape) (hs : T.schema s) :
    shape.Has T := by
  obtain ⟨properties, additional, rfl, hproperties, hadditional⟩ := h
  refine hT.shape_of_parts Shape.plain_object fun m hm => ?_
  rcases Shape.mem_parts_object.1 hm with ⟨e, he, rfl⟩ | hm
  · obtain ⟨p, hp, -, l, hl⟩ := forall₂_exists hproperties.flip he
    exact hl.1 (hT.inside hs (.property hp))
  · unfold AdditionalFrom at hadditional
    split at hadditional
    · rename_i t hadds _
      obtain ⟨m', hm', l, hl⟩ := hadditional
      rw [hm, Option.some.injEq] at hm'
      exact hm' ▸ hl.1 (hT.inside hs (.additional hadds))
    · obtain ⟨m', hm', hany, hbare⟩ := hadditional
      rw [hm, Option.some.injEq] at hm'
      exact hm' ▸ hT.bare hbare (hany ▸ hT.any)
    · simp [hm] at hadditional

theorem array (hT : T.Sound d) (h : ArrayFrom T.Answer s shape) (hs : T.schema s) :
    shape.Has T := by
  obtain ⟨items, rfl, hitems⟩ := h
  refine hT.shape_of_parts Shape.plain_array fun m hm => ?_
  obtain rfl : m = items := List.mem_singleton.1 hm
  split at hitems
  · rename_i t ht
    obtain ⟨l, hl⟩ := hitems
    exact hl.1 (hT.inside hs (.items ht))
  · exact hT.bare hitems.2 (hitems.1 ▸ hT.any)

theorem scalar (hT : T.Sound d) {kind : ScalarKind} {format : Option String} :
    (Shape.scalar kind format : Shape Node).Has T :=
  hT.shape_of_parts Shape.plain_scalar (by simp [Shape.parts])

theorem typed (hT : T.Sound d) {typeName : String} (h : TypedFrom T.Answer s typeName shape)
    (hs : T.schema s) : shape.Has T := by
  unfold TypedFrom at h
  split at h
  · exact h ▸ hT.scalar
  · exact h ▸ hT.scalar
  · exact h ▸ hT.scalar
  · exact h ▸ hT.scalar
  · exact hT.object h hs
  · exact hT.array h hs
  · exact h ▸ hT.any

theorem plainFrom (hT : T.Sound d) (h : PlainFrom T.Answer s shape) (hs : T.schema s) :
    shape.Has T := by
  unfold PlainFrom at h
  split at h
  · unfold UntypedFrom at h
    split at h
    · rw [h]
      exact hT.shape_of_parts Shape.plain_null (by simp [Shape.parts])
    · split at h
      · exact hT.object h hs
      · split at h
        · exact hT.array h hs
        · exact h ▸ hT.any
  · exact hT.typed h hs
  · obtain ⟨variants, rfl, hvariants⟩ := h
    refine hT.untagged fun v hv => ?_
    obtain ⟨typeName, -, hshape, hbare⟩ := forall₂_exists hvariants.flip hv
    exact hT.bare hbare (hT.typed hshape hs)

theorem fragmentFrom {spine : Bool} {f : Schema} (h : FragmentFrom T.Answer spine f n)
    (hf : T.schema f) : n.Has T := by
  unfold FragmentFrom at h
  split at h
  · exact h.choose_spec
  · exact h.choose_spec.1 hf

theorem ownFrom (hT : T.Sound d) {own : List Node} (h : OwnFrom T.Answer s own) (hs : T.schema s) :
    ∀ n ∈ own, n.Has T := by
  unfold OwnFrom at h
  split at h
  · obtain ⟨m, rfl, hobject, hbare⟩ := h
    intro n hn
    rw [List.mem_singleton] at hn
    exact hn ▸ hT.bare hbare (hT.object hobject hs)
  · simp [h]

/-- What is merged from fragments shows what they show. -/
theorem merged (hT : T.Sound d) {nodes : List Node} (location : String)
    (h : ∀ f ∈ nodes, f.Has T) : (mergeFragments nodes location).1.shape.Has T := by
  refine ⟨?_, fun m hm => ?_⟩
  · rcases mergeFragments_shape nodes location with heq | heq | ⟨f, hf, heq⟩
    · exact heq ▸ hT.plain Shape.plain_object
    · exact heq ▸ hT.plain Shape.plain_any
    · exact heq ▸ (h f hf).shape.self
  · obtain ⟨f, hf, hm⟩ := parts_mergeFragments hm
    exact (h f hf).shape.parts m hm

/-- The parts of a union that is classified are nodes of the members. -/
theorem mem_parts_classify {keyword : UnionKeyword} {variants : List Variant}
    {discriminator : Option Discriminator} {location : String} {body : Body}
    {findings : List Diagnostic} {m : Node}
    (h : classify keyword variants discriminator location = .ok (body, findings))
    (hm : m ∈ body.shape.parts) : ∃ v ∈ variants, v.node = m := by
  obtain ⟨tagging, hshape⟩ := classify_shape h
  rw [hshape] at hm
  obtain ⟨v, hv, hnode⟩ := List.mem_map.1 hm
  exact ⟨v, List.mem_of_mem_filter hv, hnode⟩

/-- **What holds of the answers holds of the node that is built from them**, if it holds of the
schema. -/
theorem built (hT : T.Sound d) {location : String} {spine : Bool}
    (h : Built d (T.Given d) s location name spine n) (hs : T.schema s) : n.Has T := by
  have hgiven : ∀ r n, T.Given d r n → T.Answer r n := fun _ _ => And.left
  unfold Built at h
  split at h
  · obtain ⟨target, ⟨l, htarget, -⟩, hn⟩ := h
    exact hT.refersTo hn hs htarget.1
  · obtain ⟨target, ⟨l, htarget, -⟩, hn⟩ := h
    exact hT.refersTo hn hs htarget.1
  · obtain ⟨fragments, own, hfragments, hown, hn⟩ := h
    refine hT.annotated hn hs (hT.merged location fun m hm => ?_)
    rcases List.mem_append.1 hm with hm | hm
    · obtain ⟨f, hf, hfrom⟩ := forall₂_exists hfragments.flip hm
      exact fragmentFrom (FragmentFrom.mono hgiven hfrom) (hT.inside hs (.allOf hf))
    · exact hT.ownFrom (hown.mono hgiven) hs m hm
  · rename_i keyword members hform
    obtain ⟨variants, body, findings, hvariants, hclassify, hn⟩ := h
    refine hT.annotated hn hs ⟨hT.union hs hform hvariants hclassify, fun m hm => ?_⟩
    obtain ⟨v, hv, rfl⟩ := mem_parts_classify hclassify hm
    obtain ⟨member, hmember, hfrom⟩ := forall₂_exists hvariants.flip hv
    obtain ⟨l, hl, -⟩ := hfrom.node
    refine hl.1 (hT.inside hs ?_)
    cases Schema.formed_of_eq hform with
    | oneOf => exact .oneOf hmember
    | anyOf => exact .anyOf hmember
  · rename_i values hform
    refine hT.annotated h hs ⟨hT.literals hs hform, ?_⟩
    simp [parts_literals]
  · obtain ⟨shape, hshape, hn⟩ := h
    exact hT.annotated hn hs (hT.plainFrom (hshape.mono hgiven) hs)

/-- A schema that refers to a component as a whole has a node that stands for the component. -/
theorem standsFor {location : String} {spine : Bool}
    (h : Built d (T.Given d) s location none spine n) {c : String}
    (hc : Document.wholeReference? s = some c) : n.StandsFor c := by
  obtain ⟨p, hp, hwhole⟩ := Option.bind_eq_some_iff.1 hc
  have hform : s.form none spine = .reference p := by simp [Schema.form, hp]
  rw [Built, hform] at h
  obtain ⟨target, ⟨l, ⟨-, htarget⟩, -⟩, hn⟩ := h
  have hdenotes := htarget c (Pointer.whole_of_componentName? hwhole)
  unfold RefersTo at hn
  split at hn
  · exact .denotes (hn ▸ hdenotes)
  · exact .wraps hn.name hn.shape hdenotes

end Built

end Traits.Sound

/-! ### Runs -/

/-- It holds of the kept nodes, and those of whole components denote them. -/
def Session.Has (T : Traits) (s : Session) : Prop :=
  ∀ p n, Table.get? s.cache p = some n → n.Has T ∧ ∀ c, Pointer.Whole p c → n.Denotes c

/-- Answers are as they should be, and so are the kept nodes. -/
def Traits.Kept (T : Traits) (follow : Follow) : Prop :=
  Meets follow (fun _ s => s.Has T) (fun r _ n t => t.Has T ∧ T.Answer r n) fun _ _ _ _ => True

section Runs

variable {T : Traits} {d : Document} {follow : Follow} {s : Session}

theorem Session.Has.alike {t : Session} (h : s.Has T) (hst : s.Alike t) : t.Has T :=
  fun p n hn => h p n (by rwa [← hst.cache])

theorem Session.Has.remember (h : s.Has T) {p : String} {n : Node} (hn : n.Has T)
    (hdenotes : ∀ c, Pointer.Whole p c → n.Denotes c) :
    Session.Has T { s with cache := Table.insert s.cache p n } := by
  intro q m hm
  rw [Table.get?_insert] at hm
  split at hm
  · rename_i heq
    rw [Option.some.injEq] at hm
    subst hm heq
    exact ⟨hn, hdenotes⟩
  · exact h q m hm

namespace Traits.Kept

/-- What a pointer addresses lies in a component. -/
theorem target (hT : T.Sound d) {p location : String} {t : Target}
    (ht : d.target p location = .ok t) : T.schema t.schema := by
  obtain ⟨-, haddressed⟩ := Document.target_eq_ok_iff.1 ht
  obtain ⟨c, body, hbody, hinside⟩ := Document.addressed?_inside haddressed
  exact hT.descend (hT.component hbody) hinside

theorem expand (h : T.Kept follow) (hT : T.Sound d) {p location : String} {target : Target}
    {link fresh : Bool} (ht : d.target p location = .ok target) (hs : s.Has T) :
    Ends (Follow.expand follow p target link fresh) s
      (fun n t => t.Has T ∧ n.Has T ∧ ∀ c, Pointer.Whole p c → n.Denotes c) fun _ _ => True := by
  have hopened : Session.Has T { s with stack := ⟨p, link, fresh⟩ :: s.stack } := hs
  refine Follow.expand_ends ((h _ _ hopened).mono_ok fun n t ⟨ht', hn, hname, _⟩ =>
    ⟨ht', hn (Kept.target hT ht), fun c hc => .inl (hname c ?_)⟩)
  obtain ⟨hcomponent, hwhole, -⟩ := Document.target_whole ht hc
  rw [if_pos hwhole, hcomponent]

theorem enter (h : T.Kept follow) (hT : T.Sound d) {p location : String} {target : Target}
    {link : Bool} (ht : d.target p location = .ok target) (hs : s.Has T) :
    Ends (Follow.enter follow p location target link) s
      (fun n t => t.Has T ∧ n.Has T ∧ ∀ c, Pointer.Whole p c → n.Denotes c) fun _ _ => True := by
  refine Follow.enter_ends (fun t _ hts => ?_) fun hpart _ => ?_
  · subst hts
    exact (h.expand hT ht hs).mono_ok fun n u ⟨hu, hn, hc⟩ => ⟨hu.remember hn hc, hn, hc⟩
  · -- A part of a component is no whole component.
    have hno : ∀ c, ¬ Pointer.Whole p c := fun c hc =>
      absurd (Document.target_whole ht hc).2.1 hpart
    have hroot := h (.reference (Pointer.component target.component) location false) s hs
    refine hroot.mono_ok fun root t ⟨ht', hroot, _⟩ => ⟨fun n hn => ?_, fun _ => ?_⟩
    · have hn := hroot.at? hn
      exact ⟨ht'.remember hn fun c hc => absurd hc (hno c), hn, fun c hc => absurd hc (hno c)⟩
    · exact (h.expand hT ht ht').mono_ok fun n u ⟨hu, hn, hc⟩ => ⟨hu.remember hn hc, hn, hc⟩

theorem reference (h : T.Kept follow) (hT : T.Sound d) {p location : String} {link : Bool}
    (hs : s.Has T) :
    Ends (Follow.reference follow d p location link) s
      (fun n t => t.Has T ∧ n.Has T ∧ ∀ c, Pointer.Whole p c → n.Denotes c) fun _ _ => True := by
  refine Follow.reference_ends (fun _ _ => trivial) (fun n hn => ⟨hs, hs p n hn⟩)
    (fun target ht _ _ => ?_) (fun _ _ _ _ => trivial) fun target ht _ _ => h.enter hT ht hs
  have hback : (Shape.backRef target.component : Shape Node).Has T :=
    hT.shape_of_parts Shape.plain_backRef (by simp [Shape.parts])
  refine ⟨hs.alike Resolution.issue_alike, Node.has_iff.2 ⟨hT.noDefault, hback⟩, fun c hc => ?_⟩
  exact .inr ⟨by rw [(Document.target_whole ht hc).1], rfl⟩

/-- One step keeps the traits. -/
theorem step (h : T.Kept follow) (hsupplies : d.Supplies follow) (hT : T.Sound d) :
    T.Kept (Follow.step follow d) := by
  intro r s hs
  cases r with
  | reference p location link => exact h.reference hT hs
  | fragment p location spine =>
    refine Follow.fragment_ends (fun _ _ => trivial) (fun _ _ => trivial) (fun _ _ => trivial)
      (fun _ ht _ _ _ => ?_) fun _ _ => ?_
    · exact (h.expand hT ht hs).mono_ok fun n t hn => ⟨hn.1, hn.2.1⟩
    · exact (h.reference hT hs).mono_ok fun n t hn => ⟨hn.1, hn.2.1⟩
  | schema schema location name spine =>
    have hbrings : Brings (Session.Has T) (fun _ _ => True)
        (Follow.schema follow d schema location name spine) _ :=
      Follow.schema_brings (Q := fun r n _ => T.Given d r n)
        (fun _ _ htu ht => ht.alike htu) (fun _ _ _ _ hn _ => hn)
        (fun _ _ _ _ _ _ _ _ _ => trivial) fun r _ => hsupplies.steady.brings fun t ht =>
          ((h r t ht).and (hsupplies.ends r t)).mono
            (fun _ _ hn => ⟨hn.1.1, hn.1.2, hn.2⟩) fun _ _ _ => trivial
    refine (hbrings s hs).mono_ok fun n t ⟨ht, _, hn⟩ => ⟨ht, hT.built hn, ?_, ?_⟩
    · rintro c rfl
      obtain ⟨body, hannotated⟩ := hn.annotated (schema.own_component c spine)
      exact hannotated.name
    · rintro c rfl hc
      exact Sound.standsFor hn hc

/-- **Runs keep the traits.** -/
theorem run (hT : T.Sound d) (depth : Nat) : T.Kept (d.guarded depth) :=
  Document.guarded_meets (fun _ _ _ => trivial)
    (fun _ hsupplies h => Kept.step h hsupplies hT) depth

end Traits.Kept

theorem Traits.Sound.work (hT : T.Sound d) (query : Query) (hused : d.Used s) (hs : s.Has T) :
    Ends (query.work d) s (fun n t => t.Has T ∧ T.Answer query.request n) fun _ _ => True := by
  have hrun := Traits.Kept.run hT (Document.stepBound (query.size d)) query.request s hs
  unfold Ends at hrun ⊢
  rwa [query.work_eq_guarded hused]

theorem Document.Used.has (hT : T.Sound d) (h : d.Used s) : s.Has T := by
  induction h with
  | start =>
    intro p n hn
    simp at hn
  | run query h hn ih => exact ((hT.work query h ih).of_ok hn).1
  | noted findings h ih => exact ih

/-- **What schemas say carries over to the answers to queries, at any depth**: for a component, and
for a schema of which it is said. -/
theorem Traits.Sound.answers (hT : T.Sound d) {query : Query} {n : Node}
    (h : d.Answers query n) : T.Answer query.request n := by
  obtain ⟨s, t, hs, hn⟩ := h
  exact ((hT.work query hs (hs.has hT)).of_ok hn).2

end Runs

end ApiBinding
