import ApiBinding.Proofs.Composition.Flattening

/-!
# Passages through nodes

A pointer to a part of a component is looked up in the node of the component.  The tokens lead on
through objects and arrays, and so they lead to a node where the schemas on the way declare objects
and arrays themselves, be it next to the fragments of a composition: its own declaration of a
property is the last one.  References, unions and fragments are no way through.

## Main definitions

* `Schema.Carries` — the tokens that lead on through the node of a schema.
* `passageClaims` — they lead to a node.

## Main results

* `ObjectFrom.shows`, `mergeFragments_shows` — objects show what is declared, merged or not.
* `passageClaims_sound` — **what a schema carries is found in its node.**
-/

namespace ApiBinding

/-! ### Schemas on the way -/

namespace Schema

variable {s : Schema}

/-- The schema declares an object of its own, which is its node or the last fragment of it. -/
def ShowsObject (s : Schema) : Prop :=
  s.PlainObject ∨ s.form none false = .composition ∧ s.addsFragment

/-- The schema declares an array and nothing else. -/
def PlainArray (s : Schema) : Prop :=
  s.form none false = .plain ∧ s.readsItems ∧ s.typeNames.length ≤ 1

/-- The tokens lead on through the node of the schema. -/
inductive Carries : Schema → List String → Prop where
  | here {s : Schema} : Carries s []
  | property {s : Schema} {key : String} {rest : List String} (hs : s.ShowsObject)
      (hkey : key ∈ Table.keys s.properties)
      (h : ∀ t, (key, t) ∈ s.properties → Carries t rest) :
      Carries s ("properties" :: key :: rest)
  | additional {s t : Schema} {rest : List String} (hs : s.ShowsObject)
      (ht : s.additional = some (.schema t)) (h : Carries t rest) :
      Carries s ("additionalProperties" :: rest)
  | items {s t : Schema} {rest : List String} (hs : s.PlainArray) (ht : s.items = some t)
      (h : Carries t rest) : Carries s ("items" :: rest)

/-- What is a composition where it might be a wrapper is one everywhere. -/
theorem form_of_composition (h : s.form none false = .composition) (name : Option String)
    (spine : Bool) : s.form name spine = .composition := by
  obtain ⟨hr, ha⟩ := form_composition h
  generalize hform : s.form name spine = form
  cases formed_of_eq hform with
  | composition => rfl
  | wrapper _ hw =>
    -- A wrapper is the body of no component and no part of another composition.
    obtain ⟨-, -, rfl, rfl⟩ := wrapped?_eq_some hw
    rw [h] at hform
    contradiction
  | reference h' => simp [hr] at h'
  | _ => contradiction

/-- A plain schema is one everywhere. -/
theorem form_of_plain {name' : Option String} {spine' : Bool} (h : s.form name' spine' = .plain)
    (name : Option String) (spine : Bool) : s.form name spine = .plain := by
  cases formed_of_eq h with
  | plain hr ha ho hy he hc => simp [form, hr, ha, ho, hy, he, hc]

end Schema

/-! ### Steps into nodes -/

namespace Node

variable {n m : Node} {rest : List String}

theorem at?_property {properties : List (String × Node)} {required : List String}
    {additional : Option Node} {key : String} (h : n.shape = .object properties required additional)
    (hm : Table.get? properties key = some m) :
    n.at? ("properties" :: key :: rest) = m.at? rest := by
  rw [at?, h]
  simp [hm]

theorem at?_additional {properties : List (String × Node)} {required : List String}
    (h : n.shape = .object properties required (some m)) :
    n.at? ("additionalProperties" :: rest) = m.at? rest := by
  cases rest with
  | nil => simp [at?, h]
  | cons next rest =>
    rw [at?, h]
    simp

theorem at?_items (h : n.shape = .array m) : n.at? ("items" :: rest) = m.at? rest := by
  cases rest with
  | nil => simp [at?, h]
  | cons next rest =>
    rw [at?, h]
    simp

end Node

/-! ### Objects that are shown -/

/-- The object shows what the schema declares: every property has a node that answers for one of
its declarations. -/
def Shape.Shows (Q : Request → Node → Prop) (s : Schema) (shape : Shape Node) : Prop :=
  ∃ properties required additional, shape = .object properties required additional ∧
    (∀ key ∈ Table.keys s.properties, ∃ t m, (key, t) ∈ s.properties ∧
      Table.get? properties key = some m ∧ Answers Q t m) ∧
    ∀ t, s.additional = some (.schema t) → ∃ m, additional = some m ∧ Answers Q t m

section Shows

variable {Q : Request → Node → Prop} {s : Schema}

/-- A property is declared for every property of the object. -/
theorem declared_of_mem {properties : List (String × Node)}
    (h : List.Forall₂ (fun (p : String × Schema) e => e.1 = p.1 ∧ Answers Q p.2 e.2)
      s.properties properties) {key : String} {m : Node} (hm : (key, m) ∈ properties) :
    ∃ t, (key, t) ∈ s.properties ∧ Answers Q t m := by
  obtain ⟨p, hp, hkey, hanswers⟩ := forall₂_exists h.flip hm
  dsimp only at hkey
  exact ⟨p.2, hkey ▸ hp, hanswers⟩

theorem AdditionalFrom.of_schema {t : Schema} {additional : Option Node}
    (h : AdditionalFrom Q s.additional additional) (ht : s.additional = some (.schema t)) :
    ∃ m, additional = some m ∧ Answers Q t m := by
  rw [ht] at h
  exact h

/-- An object shows what it is made from. -/
theorem ObjectFrom.shows {shape : Shape Node} (h : ObjectFrom Q s shape) : shape.Shows Q s := by
  obtain ⟨properties, additional, rfl, hproperties, hadditional⟩ := h
  have hkeys : Table.keys properties = Table.keys s.properties :=
    Table.keys_eq_of_forall₂ hproperties fun _ _ h => h.1
  refine ⟨properties, _, additional, rfl, fun key hkey => ?_, fun t ht => hadditional.of_schema ht⟩
  obtain ⟨m, hm⟩ := Table.exists_get? (hkeys ▸ hkey)
  obtain ⟨t, ht, hanswers⟩ := declared_of_mem hproperties (Table.mem_of_get? hm)
  exact ⟨t, m, ht, hm, hanswers⟩

namespace ObjectParts

variable {location : String}

/-- A property of the fragment at hand is declared by it, and any other one as it was before. -/
theorem get?_addProperties_cases (index : Nat) {key : String} {properties : List (String × Node)} :
    ∀ declared : Table String Node,
      (∃ m, (key, m) ∈ properties ∧
        Table.get? (addProperties location index declared properties).1 key = some m) ∨
      key ∉ Table.keys properties ∧
        Table.get? (addProperties location index declared properties).1 key =
          Table.get? declared key := by
  induction properties with
  | nil => exact fun _ => .inr ⟨by simp, rfl⟩
  | cons e rest ih =>
    intro declared
    rw [addProperties]
    rcases ih (Table.insert declared e.1 e.2) with ⟨m, hm, hget⟩ | ⟨hkey, hget⟩
    · exact .inl ⟨m, .tail _ hm, hget⟩
    · rw [Table.get?_insert] at hget
      by_cases he : e.1 = key
      · rw [if_pos he] at hget
        exact .inl ⟨e.2, he ▸ .head _, hget⟩
      · rw [if_neg he] at hget
        exact .inr ⟨by simp [Table.keys_cons, hkey, Ne.symm he], hget⟩

end ObjectParts

/-- **A merged object shows what its last fragment declares.** -/
theorem mergeFragments_shows {fragments : List Node} {own : Node} {location : String}
    (h : ObjectFrom Q s own.shape) :
    (mergeFragments (fragments ++ [own]) location).1.shape.Shows Q s := by
  obtain ⟨properties, additional, hshape, hproperties, hadditional⟩ := h
  have hkeys : Table.keys properties = Table.keys s.properties :=
    Table.keys_eq_of_forall₂ hproperties fun _ _ h => h.1
  rw [mergeFragments_concat location (by rw [hshape]; rfl), ObjectParts.addFragment, hshape]
  refine ⟨_, _, _, rfl, fun key hkey => ?_, fun t ht => ?_⟩
  · obtain ⟨m, hm, hget⟩ := (ObjectParts.get?_addProperties_cases _ _).resolve_right
      fun hno => hno.1 (hkeys ▸ hkey)
    obtain ⟨t, ht, hanswers⟩ := declared_of_mem hproperties hm
    exact ⟨t, m, ht, hget, hanswers⟩
  · obtain ⟨m, rfl, hanswers⟩ := hadditional.of_schema ht
    exact ⟨m, rfl, hanswers⟩

end Shows

/-! ### Built nodes -/

section Built

variable {d : Document} {Q : Request → Node → Prop} {s : Schema} {location : String}
  {name : Option String} {spine : Bool} {n : Node}

/-- A schema that declares an object has a node that shows it. -/
theorem Built.showsObject (h : Built d Q s location name spine n) (hs : s.ShowsObject) :
    n.shape.Shows Q s := by
  unfold Built at h
  rcases hs with hs | ⟨hform, hadds⟩
  · rw [hs.form_eq] at h
    obtain ⟨shape, hshape, hn⟩ := h
    rw [show n.shape = shape from hn.shape]
    exact (hshape.object hs).shows
  · rw [Schema.form_of_composition hform] at h
    obtain ⟨fragments, own, -, hown, hn⟩ := h
    rw [OwnFrom, if_pos hadds] at hown
    obtain ⟨m, rfl, hobject, -⟩ := hown
    rw [hn.shape]
    exact mergeFragments_shows hobject

/-- A schema that declares an array has a node that is one. -/
theorem Built.array (h : Built d Q s location name spine n) (hs : s.PlainArray) :
    ArrayFrom Q s n.shape := by
  obtain ⟨hform, hreads, hone⟩ := hs
  rw [Built, Schema.form_of_plain hform] at h
  obtain ⟨shape, hshape, hn⟩ := h
  rw [show n.shape = shape from hn.shape]
  unfold PlainFrom at hshape
  unfold Schema.readsItems at hreads
  rcases hnames : s.typeNames with _ | ⟨single, _ | ⟨second, rest⟩⟩
  · simp only [hnames, Bool.and_eq_true, Bool.not_eq_true'] at hshape hreads
    simpa [UntypedFrom, hreads.1.1, hreads.1.2, hreads.2] using hshape
  · simp only [hnames, List.contains_iff_mem, List.mem_singleton] at hshape hreads
    subst hreads
    exact hshape
  · simp [hnames] at hone

/-- What a schema carries is found in its node if this is so for the schemas inside. -/
theorem Built.carries (h : Built d Q s location name spine n)
    (hQ : ∀ t m rest, Answers Q t m → t.Carries rest → (m.at? rest).isSome)
    {tokens : List String} (htokens : s.Carries tokens) : (n.at? tokens).isSome := by
  cases htokens with
  | here => rfl
  | property hs hkey hrest =>
    obtain ⟨properties, required, additional, hshape, hproperties, -⟩ := h.showsObject hs
    obtain ⟨t, m, ht, hm, hanswers⟩ := hproperties _ hkey
    rw [Node.at?_property hshape hm]
    exact hQ t m _ hanswers (hrest t ht)
  | additional hs ht hrest =>
    obtain ⟨properties, required, additional, hshape, -, hadditional⟩ := h.showsObject hs
    obtain ⟨m, rfl, hanswers⟩ := hadditional _ ht
    rw [Node.at?_additional hshape]
    exact hQ _ m _ hanswers hrest
  | items hs ht hrest =>
    obtain ⟨m, hshape, hitems⟩ := h.array hs
    rw [ht] at hitems
    rw [Node.at?_items hshape]
    exact hQ _ m _ hitems hrest

end Built

/-! ### Nodes of components -/

/-- What schemas carry is found in their nodes. -/
def passageClaims (d : Document) : Claims where
  component c n := ∀ s tokens, d.schema? c = some s → s.Carries tokens → (n.at? tokens).isSome
  schema _ s _ _ n := ∀ tokens, s.Carries tokens → (n.at? tokens).isSome

/-- **What a schema carries is found in its node**, and so it is in the node of a component. -/
theorem passageClaims_sound (d : Document) : (passageClaims d).Sound d where
  component opened p c s n _ hs _ hn t tokens ht hcarries := by
    rw [hs, Option.some.injEq] at ht
    exact hn tokens (ht ▸ hcarries)
  schema opened s location name spine n _ h tokens hcarries := by
    refine h.carries (fun t m rest hanswers hrest => ?_) hcarries
    obtain ⟨place, hm⟩ := hanswers
    exact hm rest hrest

end ApiBinding
