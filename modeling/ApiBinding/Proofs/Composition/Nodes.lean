import ApiBinding.Composition.Merge
import ApiBinding.Proofs.Document.Addresses

/-!
# What nodes are made of

A node refers to components in two ways: it carries the name of the component whose body it is,
and it holds back references to components that were open when it was made.  A union that is
tagged has one tag for each variant.  Both are said of a node at every depth.

## Main definitions

* `Node.components` — the components that a node refers to, at any depth.
* `Node.Proper`, `Shape.Proper` — nodes and shapes that refer only to components of a kind, and in
  which every variant of a tagged union has a tag.

## Main results

* `Node.Proper.only` — a proper node refers only to components of the kind.
* `Node.Proper.at?` — parts of a proper node are proper.
* `mergeFragments_proper` — so is what is merged from proper fragments.
-/

namespace ApiBinding

/-! ### Components in a node -/

namespace Node

mutual

/-- The components that a node refers to: the one whose body it is, and those that its shape
refers to. -/
def components : Node → List String
  | ⟨_, shape, _, name, _, _⟩ => name.toList ++ shapeComponents shape

/-- The components that a shape refers to. -/
def shapeComponents : Shape Node → List String
  | .any => []
  | .null => []
  | .scalar _ _ => []
  | .object properties _ additional =>
    propertyComponents properties ++ additionalComponents additional
  | .array items => components items
  | .enumeration _ => []
  | .union variants _ => variantComponents variants
  | .backRef component => [component]

/-- The components that the properties of an object refer to. -/
def propertyComponents : List (String × Node) → List String
  | [] => []
  | (_, n) :: rest => components n ++ propertyComponents rest

/-- The components that the schema of further keys refers to. -/
def additionalComponents : Option Node → List String
  | none => []
  | some n => components n

/-- The components that the variants of a union refer to. -/
def variantComponents : List Node → List String
  | [] => []
  | n :: rest => components n ++ variantComponents rest

end

theorem mem_propertyComponents {c : String} :
    ∀ {properties : List (String × Node)},
      c ∈ propertyComponents properties ↔ ∃ e ∈ properties, c ∈ e.2.components
  | [] => by simp [propertyComponents]
  | (k, n) :: rest => by simp [propertyComponents, @mem_propertyComponents c rest]

theorem mem_additionalComponents {c : String} :
    ∀ {additional : Option Node},
      c ∈ additionalComponents additional ↔ ∃ n, additional = some n ∧ c ∈ n.components
  | none => by simp [additionalComponents]
  | some n => by simp [additionalComponents]

theorem mem_variantComponents {c : String} :
    ∀ {variants : List Node}, c ∈ variantComponents variants ↔ ∃ n ∈ variants, c ∈ n.components
  | [] => by simp [variantComponents]
  | n :: rest => by simp [variantComponents, @mem_variantComponents c rest]

/-- All components that the node refers to are of a kind. -/
def Only (K : String → Prop) (n : Node) : Prop := ∀ c ∈ n.components, K c

end Node

/-! ### Proper nodes -/

mutual

/-- The node and all nodes inside refer only to components of a kind, and every variant of a tagged
union in it has a tag. -/
inductive Node.Proper (K : String → Prop) : Node → Prop where
  | intro {n : Node} (hname : ∀ c, n.name = some c → K c) (hshape : Shape.Proper K n.shape) :
      Node.Proper K n

/-- The same for a shape. -/
inductive Shape.Proper (K : String → Prop) : Shape Node → Prop where
  | any : Shape.Proper K .any
  | null : Shape.Proper K .null
  | scalar {kind : ScalarKind} {format : Option String} : Shape.Proper K (.scalar kind format)
  | object {properties : List (String × Node)} {required : List String} {additional : Option Node}
      (hproperties : ∀ e ∈ properties, Node.Proper K e.2)
      (hadditional : ∀ n, additional = some n → Node.Proper K n) :
      Shape.Proper K (.object properties required additional)
  | array {items : Node} (h : Node.Proper K items) : Shape.Proper K (.array items)
  | enumeration {values : List Json} : Shape.Proper K (.enumeration values)
  | untagged {variants : List Node} (h : ∀ n ∈ variants, Node.Proper K n) :
      Shape.Proper K (.union variants .untagged)
  | tagged {variants : List Node} {property : String} {tags : List String}
      (h : ∀ n ∈ variants, Node.Proper K n) (htags : tags.length = variants.length) :
      Shape.Proper K (.union variants (.tagged property tags))
  | backRef {c : String} (h : K c) : Shape.Proper K (.backRef c)

end

section Proper

variable {K : String → Prop}

theorem Node.Proper.named {n : Node} (h : n.Proper K) {c : String} (hc : n.name = some c) :
    K c := by
  cases h with
  | intro hname hshape => exact hname c hc

theorem Node.Proper.shape {n : Node} (h : n.Proper K) : n.shape.Proper K := by
  cases h with
  | intro hname hshape => exact hshape

theorem Node.proper_of_unnamed {n : Node} (hname : n.name = none) (hshape : n.shape.Proper K) :
    n.Proper K :=
  .intro (by simp [hname]) hshape

/-- What an object is made of. -/
theorem Shape.Proper.of_object {properties : List (String × Node)} {required : List String}
    {additional : Option Node} (h : Shape.Proper K (.object properties required additional)) :
    (∀ e ∈ properties, e.2.Proper K) ∧ ∀ n, additional = some n → n.Proper K := by
  cases h with
  | object hproperties hadditional => exact ⟨hproperties, hadditional⟩

/-- What an array is made of. -/
theorem Shape.Proper.of_array {items : Node} (h : Shape.Proper K (.array items)) :
    items.Proper K := by
  cases h with
  | array h => exact h

/-- What a union is made of. -/
theorem Shape.Proper.of_union {variants : List Node} {tagging : Tagging}
    (h : Shape.Proper K (.union variants tagging)) : ∀ n ∈ variants, n.Proper K := by
  cases h with
  | untagged h => exact h
  | tagged h _ => exact h

/-- A tagged union has one tag for each variant. -/
theorem Shape.Proper.length_tags {variants : List Node} {property : String} {tags : List String}
    (h : Shape.Proper K (.union variants (.tagged property tags))) :
    tags.length = variants.length := by
  cases h with
  | tagged _ htags => exact htags

mutual

/-- **A proper node refers only to components of the kind.** -/
theorem Node.Proper.only : ∀ {n : Node}, n.Proper K → n.Only K
  | ⟨_, shape, _, name, _, _⟩, .intro hname hshape, c, hc => by
    rw [Node.components, List.mem_append, Option.mem_toList] at hc
    rcases hc with hc | hc
    · exact hname c hc
    · exact hshape.only c hc

theorem Shape.Proper.only : ∀ {shape : Shape Node}, shape.Proper K →
    ∀ c ∈ Node.shapeComponents shape, K c
  | _, .any, c, hc => by simp [Node.shapeComponents] at hc
  | _, .null, c, hc => by simp [Node.shapeComponents] at hc
  | _, .scalar, c, hc => by simp [Node.shapeComponents] at hc
  | _, .enumeration, c, hc => by simp [Node.shapeComponents] at hc
  | _, .object hproperties hadditional, c, hc => by
    rw [Node.shapeComponents, List.mem_append] at hc
    rcases hc with hc | hc
    · obtain ⟨e, he, hc⟩ := Node.mem_propertyComponents.1 hc
      exact (hproperties e he).only c hc
    · obtain ⟨n, hn, hc⟩ := Node.mem_additionalComponents.1 hc
      exact (hadditional n hn).only c hc
  | _, .array h, c, hc => h.only c hc
  | _, .untagged h, c, hc => by
    obtain ⟨n, hn, hc⟩ := Node.mem_variantComponents.1 hc
    exact (h n hn).only c hc
  | _, .tagged h _, c, hc => by
    obtain ⟨n, hn, hc⟩ := Node.mem_variantComponents.1 hc
    exact (h n hn).only c hc
  | _, .backRef h, c, hc => by
    rw [Node.shapeComponents, List.mem_singleton] at hc
    exact hc ▸ h

end

/-- A part of a proper node is proper. -/
theorem Node.Proper.at? {n m : Node} {steps : List String} (h : n.Proper K)
    (hm : n.at? steps = some m) : m.Proper K := by
  -- Each step leads to a node that the node before is made of, or nowhere.
  fun_induction Node.at? n steps with
  | case1 n =>
    rw [Option.some.injEq] at hm
    exact hm ▸ h
  | case2 n properties required additional hshape =>
    exact (hshape ▸ h.shape).of_object.2 m hm
  | case4 n items hshape =>
    rw [Option.some.injEq] at hm
    exact hm ▸ (hshape ▸ h.shape).of_array
  | case7 n next rest properties required additional hshape ih =>
    obtain ⟨e, he, hrest⟩ := Option.bind_eq_some_iff.1 hm
    exact ih e ((hshape ▸ h.shape).of_object.1 _ (Table.mem_of_get? he)) hrest
  | case8 n next rest properties required additional hshape hstep ih =>
    obtain ⟨e, he, hrest⟩ := Option.bind_eq_some_iff.1 hm
    exact ih e ((hshape ▸ h.shape).of_object.2 e he) hrest
  | case10 n next rest items hshape ih => exact ih (hshape ▸ h.shape).of_array hm
  | case3 | case5 | case6 | case9 | case11 | case12 => simp at hm

/-! ### Merged fragments -/

theorem proper_addProperties {location : String} {index : Nat}
    {properties : List (String × Node)} :
    ∀ {declared : Table String Node}, (∀ e ∈ declared, e.2.Proper K) →
      (∀ e ∈ properties, e.2.Proper K) →
      ∀ e ∈ (ObjectParts.addProperties location index declared properties).1, e.2.Proper K := by
  induction properties with
  | nil => exact fun hdeclared _ => hdeclared
  | cons property rest ih =>
    intro declared hdeclared hproperties
    refine ih (fun e he => ?_) fun e he => hproperties e (.tail _ he)
    rcases Table.mem_insert he with rfl | he
    · exact hproperties _ (.head _)
    · exact hdeclared e he

/-- The object that is merged from proper fragments is proper. -/
theorem proper_addFragments {location : String} {nodes : List Node} :
    ∀ {index : Nat} {parts : ObjectParts}, parts.toBody.shape.Proper K →
      (∀ n ∈ nodes, n.Proper K) →
      (ObjectParts.addFragments location index parts nodes).1.toBody.shape.Proper K := by
  induction nodes with
  | nil => exact fun hparts _ => hparts
  | cons n rest ih =>
    intro index parts hparts hnodes
    refine ih ?_ fun m hm => hnodes m (.tail _ hm)
    have hn := (hnodes n (.head _)).shape
    obtain ⟨hproperties, hadditional⟩ := Shape.Proper.of_object hparts
    split
    · rename_i properties required additional hshape
      rw [hshape] at hn
      obtain ⟨hown, hmore⟩ := hn.of_object
      refine .object (proper_addProperties hproperties hown) fun m hm => ?_
      rcases Option.or_eq_some_iff.1 hm with hm | ⟨-, hm⟩
      · exact hmore m hm
      · exact hadditional m hm
    · exact hparts
    · exact hparts

/-- **What is merged from proper fragments is proper.** -/
theorem mergeFragments_proper {nodes : List Node} (location : String)
    (h : ∀ n ∈ nodes, n.Proper K) : (mergeFragments nodes location).1.shape.Proper K := by
  have hobjects : (mergeObjects nodes location).1.shape.Proper K :=
    proper_addFragments (.object (by simp) (by simp)) h
  unfold mergeFragments
  split
  · exact hobjects
  · split
    · exact .any
    · rename_i only honly
      -- The one fragment that says something is one of the fragments.
      have hmem : only ∈ nodes := List.mem_of_mem_filter (honly ▸ List.mem_singleton_self only)
      exact (h only hmem).shape
    · exact hobjects

end Proper

end ApiBinding
