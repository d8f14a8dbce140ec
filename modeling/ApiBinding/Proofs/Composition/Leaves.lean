import ApiBinding.Proofs.Composition.Merging
import ApiBinding.Proofs.Resolver.Components

/-!
# Leaves

A leaf is a schema without an inner structure: anything, `null`, or a list of values.  The
wrappers and compositions that add nothing to a leaf are leaves too.  Whether a schema is a
leaf, and which one, can be read off the description.  The resolver comes to the same leaf in
every order: the pointers on the way to a leaf lead to leaves only, so none of them is ever
open.

## Main definitions

* `Leaf`, `Leaf.Fits` — leaves, and the nodes that are one.
* `LeafOf`, `LeavesOf` — the leaf that a schema is, if any.

## Main results

* `LeafOf.terminates` — what a leaf leads to comes to an end.
* `Built.fits` — the node of a schema is the leaf that the schema is.
-/

namespace ApiBinding

/-! ### Leaves -/

/-- The content of a leaf. -/
inductive Leaf where
  | any
  | null
  | literals (values : List Json)

/-- The shape of a leaf. -/
def Leaf.shape : Leaf → Shape Node
  | .any => .any
  | .null => .null
  | .literals values => .enumeration values

/-- A leaf, and whether it admits `null` besides. -/
structure LeafBody where
  leaf : Leaf
  nullable : Bool

/-- Whether the shape is one of a leaf. -/
def Shape.isLeaf : Shape Node → Bool
  | .any => true
  | .null => true
  | .enumeration _ => true
  | _ => false

namespace LeafBody

/-- The one value of a leaf. -/
def literal? (b : LeafBody) : Option Json := b.leaf.shape.singleLiteral?

/-- A leaf, or a schema that is none, admits `null` as well. -/
def orNull (b : Option LeafBody) (nullable : Bool) : Option LeafBody :=
  b.map fun b => ⟨b.leaf, b.nullable || nullable⟩

/-- The body of a node is the leaf; without a leaf, it is none. -/
def Fits (b : Option LeafBody) (body : Body) : Prop :=
  match b with
  | some b => body.shape = b.leaf.shape ∧ body.nullable = b.nullable
  | none => ¬ body.shape.isLeaf

/-- What fragments come to: without an object among them, the only one that says anything. -/
def merge (bs : List (Option LeafBody)) : Option LeafBody :=
  match bs.filter fun b => !b.any fun b => b.leaf.shape.isAny with
  | [] => some ⟨.any, false⟩
  | [only] => only
  | _ => none

/-- What a reference to a leaf is: the leaf, unless the reference adds `null`. -/
def referred (b : Option LeafBody) (s : Schema) : Option LeafBody :=
  b.filter fun b => !s.isNullable || b.nullable

/-- The leaf of a list of values. -/
def ofValues (values : List Json) : LeafBody :=
  let kept := values.filter fun v => !v.isNull
  ⟨if kept.isEmpty then .null else .literals kept, values.any Json.isNull⟩

theorem Fits.singleLiteral? {b : Option LeafBody} {body : Body} (h : Fits b body) :
    body.shape.singleLiteral? = b.bind literal? := by
  cases b with
  | some b =>
    rw [h.1]
    rfl
  | none =>
    unfold Fits at h
    cases hbody : body.shape <;> simp_all [Shape.isLeaf, Shape.singleLiteral?]

/-- What is annotated admits `null` as well if the schema says so. -/
theorem Fits.annotated {b : Option LeafBody} {body : Body} {s : Schema} {name : Option String}
    {n : Node} (h : Fits b body) (hn : Annotated body s name n) :
    Fits (orNull b s.isNullable) n.body := by
  cases b with
  | some b => exact ⟨hn.shape.trans h.1, by rw [Node.body, hn.nullable, h.2]⟩
  | none => exact fun hleaf => h (hn.shape ▸ hleaf)

/-- A reference passes a leaf on, or it is none. -/
theorem Fits.referred {b : Option LeafBody} {target n : Node} {s : Schema}
    (h : Fits b target.body) (hn : RefersTo target s none n) :
    Fits (LeafBody.referred b s) n.body := by
  have hunion : ∀ m : Node, m.shape = .union [target] .untagged → Fits none m.body := by
    intro m hm hleaf
    rw [Node.body, hm] at hleaf
    simp [Shape.isLeaf] at hleaf
  unfold RefersTo Schema.passes at hn
  cases b with
  | none =>
    split at hn
    · rw [hn]
      exact h
    · exact hunion n hn.shape
  | some b =>
    rw [show target.nullable = b.nullable from h.2, Option.isNone_none, Bool.true_and] at hn
    by_cases hpasses : !s.isNullable || b.nullable
    · rw [if_pos hpasses] at hn
      rw [LeafBody.referred, Option.filter_some_pos (by simpa using hpasses), hn]
      exact h
    · rw [if_neg hpasses] at hn
      rw [LeafBody.referred, Option.filter_some_neg (by simpa using hpasses)]
      exact hunion n hn.shape

/-- Whether a body says anything shows in the leaf. -/
theorem Fits.isAny_eq {b : Option LeafBody} {body : Body} (h : Fits b body) :
    body.shape.isAny = b.any fun b => b.leaf.shape.isAny := by
  cases b with
  | some b =>
    rw [h.1]
    rfl
  | none =>
    unfold Fits at h
    cases hbody : body.shape <;> simp_all [Shape.isLeaf, Shape.isAny]

theorem Fits.isObject_eq_false {b : LeafBody} {body : Body} (h : Fits (some b) body) :
    body.shape.isObject = false := by
  rw [h.1]
  cases b.leaf <;> rfl

/-- Fragments come to a leaf only if all of them are leaves. -/
theorem isSome_of_merge {bs : List (Option LeafBody)} (h : (merge bs).isSome) :
    ∀ b ∈ bs, b.isSome := by
  intro b hb
  by_contra hnone
  rw [Option.not_isSome_iff_eq_none] at hnone
  subst hnone
  have hmem : none ∈ bs.filter fun b => !b.any fun b => b.leaf.shape.isAny :=
    List.mem_filter.2 ⟨hb, rfl⟩
  unfold merge at h
  split at h
  · simp_all
  · rename_i only honly
    rw [honly, List.mem_singleton] at hmem
    simp [← hmem] at h
  · simp at h

/-- The fragments that say something are the leaves that do. -/
theorem filter_fits {bs : List (Option LeafBody)} {nodes : List Node}
    (h : List.Forall₂ (fun b (n : Node) => Fits b n.body) bs nodes) :
    List.Forall₂ (fun b (n : Node) => Fits b n.body)
      (bs.filter fun b => !b.any fun b => b.leaf.shape.isAny)
      (nodes.filter fun n => !n.shape.isAny) := by
  induction h with
  | nil => exact .nil
  | @cons b n bs nodes hb _ ih =>
    rw [List.filter_cons, List.filter_cons, ← hb.isAny_eq, Node.body]
    split
    · exact .cons hb ih
    · exact ih

/-- **Merged fragments are the leaf that the fragments come to.** -/
theorem merge_fits {bs : List (Option LeafBody)} {nodes : List Node}
    (h : List.Forall₂ (fun b (n : Node) => Fits b n.body) bs nodes) (location : String) :
    Fits (merge bs) (mergeFragments nodes location).1 := by
  have hobjects : Fits none (mergeObjects nodes location).1 := by
    simp [Fits, mergeObjects, ObjectParts.toBody, Shape.isLeaf]
  by_cases hany : nodes.any fun n => n.shape.isObject
  · -- An object among the fragments is none of the leaves.
    have hnone : merge bs = none := by
      by_contra hsome
      obtain ⟨n, hn, hobject⟩ := List.any_eq_true.1 hany
      obtain ⟨b, hb, hfits⟩ := forall₂_exists h.flip hn
      obtain ⟨b, rfl⟩ := Option.isSome_iff_exists.1
        (isSome_of_merge (Option.isSome_iff_ne_none.2 hsome) b hb)
      have hother : n.shape.isObject = false := Fits.isObject_eq_false hfits
      exact absurd hobject (by simp [hother])
    rw [hnone, mergeFragments, if_pos hany]
    exact hobjects
  · have hfilter := filter_fits h
    rw [mergeFragments, if_neg hany, merge]
    generalize (bs.filter fun b => !b.any fun b => b.leaf.shape.isAny) = kept at hfilter
    generalize (nodes.filter fun n => !n.shape.isAny) = keptNodes at hfilter
    cases hfilter with
    | nil => exact ⟨rfl, rfl⟩
    | cons hb hrest =>
      cases hrest with
      | nil => exact hb
      | cons _ _ => exact hobjects

end LeafBody

/-- The leaf that the type names make, if any. -/
def Schema.plainLeaf? (s : Schema) : Option Leaf :=
  match s.typeNames with
  | [] =>
    if s.isNullType then some .null
    else if s.declaresObject || s.items.isSome then none else some .any
  | [single] =>
    if single ∈ ["string", "integer", "number", "boolean", "object", "array"] then none
    else some .any
  | _ => none

mutual

/-- The leaf that a schema is, if it is one. -/
inductive LeafOf (d : Document) : Schema → Option String → Bool → Option LeafBody → Prop where
  | literals {s : Schema} {name : Option String} {spine : Bool} {values : List Json}
      (hform : s.form name spine = .literals values) :
      LeafOf d s name spine (LeafBody.orNull (some (LeafBody.ofValues values)) s.isNullable)
  | plain {s : Schema} {name : Option String} {spine : Bool} (hform : s.form name spine = .plain) :
      LeafOf d s name spine (s.plainLeaf?.map fun l => ⟨l, s.isNullable⟩)
  | union {s : Schema} {name : Option String} {spine : Bool} {keyword : UnionKeyword}
      {members : List Schema} (hform : s.form name spine = .union keyword members) :
      LeafOf d s name spine none
  | reference {s t : Schema} {spine : Bool} {p c : String} {b : Option LeafBody}
      (hform : s.form none spine = .reference p) (hp : Pointer.Whole p c)
      (ht : d.schema? c = some t) (h : LeafOf d t (some c) true b) :
      LeafOf d s none spine (LeafBody.referred b s)
  /-- A component that only refers to another one is another name for it. -/
  | named {s : Schema} {name : String} {spine : Bool} {p : String}
      (hform : s.form (some name) spine = .reference p) : LeafOf d s (some name) spine none
  | wrapper {s t : Schema} {name : Option String} {spine : Bool} {p c : String}
      {b : Option LeafBody} (hform : s.form name spine = .wrapper p) (hp : Pointer.Whole p c)
      (ht : d.schema? c = some t) (h : LeafOf d t (some c) true b) :
      LeafOf d s name spine (LeafBody.referred b s)
  | composition {s : Schema} {name : Option String} {spine : Bool} {bs : List (Option LeafBody)}
      (hform : s.form name spine = .composition) (hadds : ¬ s.addsFragment)
      (h : LeavesOf d spine s.allOf bs) :
      LeafOf d s name spine (LeafBody.orNull (LeafBody.merge bs) s.isNullable)
  /-- A composition with properties of its own is an object. -/
  | object {s : Schema} {name : Option String} {spine : Bool}
      (hform : s.form name spine = .composition) (hadds : s.addsFragment) :
      LeafOf d s name spine none

/-- The leaves that the fragments of a composition are. -/
inductive LeavesOf (d : Document) : Bool → List Schema → List (Option LeafBody) → Prop where
  | nil {spine : Bool} : LeavesOf d spine [] []
  | reference {spine : Bool} {f t : Schema} {p c : String} {b : Option LeafBody}
      {rest : List Schema} {bs : List (Option LeafBody)} (hf : f.reference = some p)
      (hp : Pointer.Whole p c) (ht : d.schema? c = some t) (hb : LeafOf d t (some c) true b)
      (h : LeavesOf d spine rest bs) : LeavesOf d spine (f :: rest) (b :: bs)
  | inline {spine : Bool} {f : Schema} {b : Option LeafBody} {rest : List Schema}
      {bs : List (Option LeafBody)} (hf : f.reference = none) (hb : LeafOf d f none spine b)
      (h : LeavesOf d spine rest bs) : LeavesOf d spine (f :: rest) (b :: bs)

end

/-- The leaves of fragments, one after the other. -/
theorem exists_leavesOf {d : Document} {spine : Bool} : ∀ {fs : List Schema},
    (∀ f ∈ fs, ∀ p, f.reference = some p → ∃ c t, Pointer.Whole p c ∧ d.schema? c = some t ∧
      ∃ b, LeafOf d t (some c) true b) →
    (∀ f ∈ fs, f.reference = none → ∃ b, LeafOf d f none spine b) → ∃ bs, LeavesOf d spine fs bs
  | [], _, _ => ⟨[], .nil⟩
  | f :: rest, hreference, hinline => by
    obtain ⟨bs, hbs⟩ := exists_leavesOf (fun f hf => hreference f (.tail _ hf))
      fun f hf => hinline f (.tail _ hf)
    cases hr : f.reference with
    | some p =>
      obtain ⟨c, t, hp, ht, b, hb⟩ := hreference f (.head _) p hr
      exact ⟨b :: bs, .reference hr hp ht hb hbs⟩
    | none =>
      obtain ⟨b, hb⟩ := hinline f (.head _) hr
      exact ⟨b :: bs, .inline hr hb hbs⟩

/-! ### What leaves lead to -/

section Terminates

variable {d : Document}

/-- Following the pointer comes to an end. -/
def Document.Terminates (d : Document) (p : String) : Prop := Acc (fun q p => d.Refers p q) p

/-- A relation does not lead from an element it comes to an end at back to that element. -/
theorem not_transGen_of_acc {α : Type} {r : α → α → Prop} {a : α} (h : Acc r a) :
    ¬ Relation.TransGen r a a := by
  have htrans := h.transGen
  clear h
  induction htrans with
  | intro a _ ih => exact fun hcycle => ih a hcycle hcycle

theorem Document.Terminates.not_cyclic {p : String} (h : d.Terminates p) :
    ¬ Relation.TransGen d.Refers p p := fun hcycle =>
  not_transGen_of_acc h (Relation.transGen_swap.2 hcycle)

/-- A pointer to a whole component comes to an end if what the component mentions does. -/
theorem Document.terminates_of_whole {p c : String} {t : Schema} (hp : Pointer.Whole p c)
    (ht : d.schema? c = some t)
    (h : ∀ q composed, Mentions t (some c) true q composed → d.Terminates q) : d.Terminates p := by
  refine .intro p fun q hq => ?_
  cases hq with
  | mention hs hm =>
    rw [Document.addressed?_whole hp, ht, Option.some.injEq] at hs
    rw [Pointer.whole?_eq_some.2 hp, ← hs] at hm
    exact h q _ hm
  | root htokens =>
    rw [Pointer.Whole] at hp
    rw [hp] at htokens
    simp at htokens

/-- What a schema mentions comes to an end if all requests on the way do. -/
theorem Mentions.terminates {s : Schema} {name : Option String} {spine : Bool}
    (h : ∀ r, Leads s name spine r → ∀ q composed, r.Names q composed → d.Terminates q)
    {q : String} {composed : Bool} (hq : Mentions s name spine q composed) : d.Terminates q := by
  obtain ⟨t, name', spine', r, hwithin, hlead, hnamed⟩ := hq
  cases hwithin with
  | here =>
    refine h r hlead q composed ?_
    cases r with
    | reference p l link => simpa [Request.named?, Request.Names, eq_comm] using hnamed
    | fragment p l link => simpa [Request.named?, Request.Names, eq_comm] using hnamed
    | schema u l name'' spine'' => simp [Request.named?] at hnamed
  | inside hin hwithin => exact h _ hin q composed ⟨t, name', spine', r, hwithin, hlead, hnamed⟩

/-- A leaf by its type names has no inner schemas. -/
theorem Schema.plainLeaf?_eq_none_of_part {s t : Schema} (h : PlainPart s t) :
    s.plainLeaf? = none := by
  unfold plainLeaf?
  cases h with
  | object hreads _ =>
    unfold readsObject at hreads
    split <;> simp_all
  | items hreads _ =>
    unfold readsItems at hreads
    split <;> simp_all

theorem LeafBody.isSome_of_referred {b : Option LeafBody} {s : Schema}
    (h : (referred b s).isSome) : b.isSome := by
  cases b with
  | some b => rfl
  | none => simp [referred] at h

mutual

/-- **What a leaf leads to comes to an end.** -/
theorem LeafOf.terminates {s : Schema} {name : Option String} {spine : Bool}
    {b : Option LeafBody} : LeafOf d s name spine b → b.isSome →
      ∀ q composed, Mentions s name spine q composed → d.Terminates q
  -- A list of values makes no requests.
  | .literals hform, _, q, composed, hq => by
    refine hq.terminates fun r hr => ?_
    cases hr <;> simp_all
  | .plain hform, hb, q, composed, hq => by
    refine hq.terminates fun r hr => ?_
    cases hr with
    | plain _ ht =>
      -- Whatever has parts is an object or an array, and these are no leaves.
      rw [Schema.plainLeaf?_eq_none_of_part ht] at hb
      simp at hb
    | _ => simp_all
  | .union hform, hb, _, _, _ => by simp at hb
  | .named hform, hb, _, _, _ => by simp at hb
  | .reference hform hp ht h, hb, q, composed, hq => by
    have hend := Document.terminates_of_whole hp ht (h.terminates (LeafBody.isSome_of_referred hb))
    refine hq.terminates fun r hr q composed hnames => ?_
    cases hr with
    | reference hform' =>
      rw [hform, Form.reference.injEq] at hform'
      rw [hnames.1, ← hform']
      exact hend
    | _ => simp_all
  | .wrapper hform hp ht h, hb, q, composed, hq => by
    have hend := Document.terminates_of_whole hp ht (h.terminates (LeafBody.isSome_of_referred hb))
    refine hq.terminates fun r hr q composed hnames => ?_
    cases hr with
    | wrapper hform' =>
      rw [hform, Form.wrapper.injEq] at hform'
      rw [hnames.1, ← hform']
      exact hend
    | _ => simp_all
  | .composition hform hadds h, hb, q, composed, hq => by
    -- The merged body is a leaf only if all fragments are.
    have hall := h.terminates (LeafBody.isSome_of_merge (by simpa [LeafBody.orNull] using hb))
    refine hq.terminates fun r hr q composed hnames => ?_
    cases hr with
    | fragment _ hf hp =>
      rw [hnames.1]
      exact (hall _ hf).1 _ hp
    | inline _ hf hp => exact (hall _ hf).2 hp q composed hnames
    | _ => simp_all
  | .object _ _, hb, _, _, _ => by simp at hb

/-- What leaves among fragments lead to comes to an end. -/
theorem LeavesOf.terminates {spine : Bool} {fs : List Schema} {bs : List (Option LeafBody)} :
    LeavesOf d spine fs bs → (∀ b ∈ bs, b.isSome) → ∀ f ∈ fs,
      (∀ p, f.reference = some p → d.Terminates p) ∧
        (f.reference = none → ∀ q composed, Mentions f none spine q composed → d.Terminates q)
  | .nil, _, _, hf => by simp at hf
  | .reference hf hp ht hb h, hbs, f, hmem => by
    have hend := Document.terminates_of_whole hp ht (hb.terminates (hbs _ (.head _)))
    have hrest := h.terminates fun b hb => hbs b (.tail _ hb)
    rcases List.mem_cons.1 hmem with rfl | hmem
    · refine ⟨fun q hq => ?_, by simp [hf]⟩
      rw [hf, Option.some.injEq] at hq
      exact hq ▸ hend
    · exact hrest f hmem
  | .inline hf hb h, hbs, f, hmem => by
    have hend := hb.terminates (hbs _ (.head _))
    have hrest := h.terminates fun b hb => hbs b (.tail _ hb)
    rcases List.mem_cons.1 hmem with rfl | hmem
    · exact ⟨by simp [hf], fun _ => hend⟩
    · exact hrest f hmem

end

end Terminates

/-! ### The resolver comes to the leaf -/

section Answers

variable {d : Document} {opened : String → Prop} {Q : Request → Node → Prop}

/-- The answers to requests are the leaves of what is asked for, apart from back references to
open components. -/
structure LeafAnswers (d : Document) (opened : String → Prop) (Q : Request → Node → Prop) :
    Prop where
  reference : ∀ {p l link n c t b}, Q (.reference p l link) n → Pointer.Whole p c →
    d.schema? c = some t → LeafOf d t (some c) true b →
    LeafBody.Fits b n.body ∨ n.shape = .backRef c ∧ opened p
  fragment : ∀ {p l spine n c t b}, Q (.fragment p l spine) n → Pointer.Whole p c →
    d.schema? c = some t → LeafOf d t (some c) true b → LeafBody.Fits b n.body
  schema : ∀ {t l name spine n b}, Q (.schema t l name spine) n → LeafOf d t name spine b →
    LeafBody.Fits b n.body

/-- A pointer to a leaf is never open; a back reference to another component is no leaf. -/
theorem LeafAnswers.target (hQ : LeafAnswers d opened Q) {p l c : String} {link : Bool} {t : Schema}
    {b : Option LeafBody} {n : Node} (h : Q (.reference p l link) n) (hp : Pointer.Whole p c)
    (ht : d.schema? c = some t) (hb : LeafOf d t (some c) true b)
    (hopen : opened p → Relation.TransGen d.Refers p p) : LeafBody.Fits b n.body := by
  rcases hQ.reference h hp ht hb with hfits | ⟨hshape, hopened⟩
  · exact hfits
  · cases b with
    | none => simp [LeafBody.Fits, Node.body, hshape, Shape.isLeaf]
    | some b =>
      have hend := Document.terminates_of_whole hp ht (hb.terminates rfl)
      exact absurd (hopen hopened) hend.not_cyclic

/-- The nodes of fragments are the leaves that the fragments are. -/
theorem LeafAnswers.fragments (hQ : LeafAnswers d opened Q) {spine : Bool} {fs : List Schema}
    {bs : List (Option LeafBody)} {nodes : List Node} (hb : LeavesOf d spine fs bs)
    (h : List.Forall₂ (FragmentFrom Q spine) fs nodes) :
    List.Forall₂ (fun b (n : Node) => LeafBody.Fits b n.body) bs nodes := by
  induction h generalizing bs with
  | nil =>
    cases hb
    exact .nil
  | cons hn _ ih =>
    cases hb with
    | reference hf hp ht hb h =>
      simp only [FragmentFrom, hf] at hn
      obtain ⟨l, hn⟩ := hn
      exact .cons (hQ.fragment hn hp ht hb) (ih h)
    | inline hf hb h =>
      simp only [FragmentFrom, hf] at hn
      obtain ⟨l, hn⟩ := hn
      exact .cons (hQ.schema hn hb) (ih h)

theorem ObjectFrom.not_isLeaf {s : Schema} {shape : Shape Node} (h : ObjectFrom Q s shape) :
    ¬ shape.isLeaf := by
  obtain ⟨_, _, rfl, -⟩ := h
  simp [Shape.isLeaf]

theorem ArrayFrom.not_isLeaf {s : Schema} {shape : Shape Node} (h : ArrayFrom Q s shape) :
    ¬ shape.isLeaf := by
  obtain ⟨_, rfl, -⟩ := h
  simp [Shape.isLeaf]

/-- An unknown type name says nothing; the others make no leaves. -/
theorem TypedFrom.leaf {s : Schema} {typeName : String} {shape : Shape Node}
    (h : TypedFrom Q s typeName shape) :
    if typeName ∈ ["string", "integer", "number", "boolean", "object", "array"] then
      ¬ shape.isLeaf
    else shape = .any := by
  unfold TypedFrom at h
  split at h
  · simp [h, Shape.isLeaf]
  · simp [h, Shape.isLeaf]
  · simp [h, Shape.isLeaf]
  · simp [h, Shape.isLeaf]
  · simpa using ObjectFrom.not_isLeaf h
  · simpa using ArrayFrom.not_isLeaf h
  · simp_all

/-- The shape that the type names make is the leaf that they make. -/
theorem PlainFrom.fits {s : Schema} {shape : Shape Node} (h : PlainFrom Q s shape)
    (nullable : Bool) :
    LeafBody.Fits (s.plainLeaf?.map fun l => ⟨l, nullable⟩) ⟨shape, nullable⟩ := by
  unfold Schema.plainLeaf?
  unfold PlainFrom at h
  rcases hnames : s.typeNames with _ | ⟨single, _ | ⟨second, rest⟩⟩
  · simp only [hnames, UntypedFrom] at h
    by_cases hnull : s.isNullType
    · simp_all [LeafBody.Fits, Leaf.shape]
    by_cases hdeclares : s.declaresObject
    · simpa [hnull, hdeclares, LeafBody.Fits] using
        ObjectFrom.not_isLeaf (by simpa [hnull, hdeclares] using h)
    by_cases hitems : s.items.isSome
    · simpa [hnull, hitems, LeafBody.Fits] using
        ArrayFrom.not_isLeaf (by simpa [hnull, hdeclares, hitems] using h)
    · simp_all [LeafBody.Fits, Leaf.shape]
  · simp only [hnames] at h
    have hleaf := h.leaf
    by_cases hknown : single ∈ ["string", "integer", "number", "boolean", "object", "array"]
    · simpa only [hknown, if_true, LeafBody.Fits, Option.map_none] using hleaf
    · simp only [hknown, if_false] at hleaf ⊢
      exact ⟨hleaf, rfl⟩
  · simp only [hnames] at h
    obtain ⟨variants, rfl, -⟩ := h
    simp [LeafBody.Fits, Shape.isLeaf]

/-- A union is no leaf. -/
theorem classify_shape {keyword : UnionKeyword} {variants : List Variant}
    {discriminator : Option Discriminator} {location : String} {body : Body}
    {findings : List Diagnostic}
    (h : classify keyword variants discriminator location = .ok (body, findings)) :
    ∃ tagging, body.shape = .union
      ((variants.filter fun v => !v.node.shape.isNull).map Variant.node) tagging := by
  unfold classify at h
  cases ht : taggingOf keyword (variants.filter fun v => !v.node.shape.isNull) discriminator
      location with
  | error cause => simp [ht, Except.map] at h
  | ok result =>
    simp only [ht, Except.map, Except.ok.injEq, Prod.mk.injEq] at h
    exact ⟨result.1, by rw [← h.1]⟩

/-- **The node of a schema is the leaf that the schema is.** -/
theorem Built.fits {s : Schema} {location : String} {name : Option String} {spine : Bool} {n : Node}
    (h : Built d Q s location name spine n) (hQ : LeafAnswers d opened Q)
    (hopen : ∀ p composed, opened p → Mentions s name spine p composed →
      Relation.TransGen d.Refers p p)
    {b : Option LeafBody} (hb : LeafOf d s name spine b) : LeafBody.Fits b n.body := by
  unfold Built at h
  cases hb with
  | literals hform =>
    rw [hform] at h
    refine LeafBody.Fits.annotated ?_ h
    refine ⟨?_, rfl⟩
    unfold Follow.literals LeafBody.ofValues
    simp only
    split <;> rfl
  | plain hform =>
    rw [hform] at h
    obtain ⟨shape, hshape, hn⟩ := h
    rw [Node.body, hn.shape, hn.nullable, Bool.false_or]
    exact hshape.fits s.isNullable
  | union hform =>
    rw [hform] at h
    obtain ⟨variants, body, findings, -, hclassify, hn⟩ := h
    obtain ⟨tagging, hshape⟩ := classify_shape hclassify
    simp [LeafBody.Fits, Node.body, hn.shape, hshape, Shape.isLeaf]
  | reference hform hp ht hb =>
    rw [hform] at h
    obtain ⟨target, ⟨l, htarget⟩, hn⟩ := h
    have hanswer := hQ.target htarget hp ht hb fun ho =>
      hopen _ false ho ⟨s, none, spine, .reference _ l false, .here, .reference hform, rfl⟩
    exact hanswer.referred hn
  | named hform =>
    rw [hform] at h
    obtain ⟨target, -, hn⟩ := h
    rw [RefersTo, Schema.passes, Option.isNone_some, Bool.false_and] at hn
    simp [LeafBody.Fits, Node.body, hn.shape, Shape.isLeaf]
  | wrapper hform hp ht hb =>
    rw [hform] at h
    obtain ⟨target, ⟨l, htarget⟩, hn⟩ := h
    have hanswer := hQ.target htarget hp ht hb fun ho =>
      hopen _ false ho ⟨s, name, spine, .reference _ l false, .here, .wrapper hform, rfl⟩
    exact hanswer.referred hn
  | composition hform hadds hbs =>
    rw [hform] at h
    obtain ⟨fragments, own, hfragments, hown, hn⟩ := h
    rw [OwnFrom, if_neg hadds] at hown
    rw [hown, List.append_nil] at hn
    exact (LeafBody.merge_fits (hQ.fragments hbs hfragments) location).annotated hn
  | object hform hadds =>
    rw [hform] at h
    obtain ⟨fragments, own, -, hown, hn⟩ := h
    rw [OwnFrom, if_pos hadds] at hown
    obtain ⟨m, rfl, ⟨properties, additional, hshape, -⟩, -⟩ := hown
    -- One object among the fragments makes the whole an object, which is no leaf.
    have hobject : (fragments ++ [m]).any fun n => n.shape.isObject := by
      simp [hshape, Shape.isObject]
    obtain ⟨_, _, hmerged, -⟩ := mergeFragments_objects location hobject
    simp [LeafBody.Fits, Node.body, hn.shape, hmerged, Shape.isLeaf]

end Answers

end ApiBinding
