import ApiBinding.Proofs.Document.Addresses
import ApiBinding.Proofs.Resolver.Requests
import Mathlib.Logic.Relation

/-!
# The pointers that a schema mentions

A schema mentions the pointers for which requests are made while it is resolved, in itself
and in the schemas inside it.  Following a pointer leads to the pointers that are mentioned
there, so what is open at some moment leads to what is asked for.

## Main definitions

* `Within` — the schemas that are resolved on the way.
* `Mentions` — the pointers for which requests are made on the way.
* `Document.Refers` — the pointers that following a pointer leads to.
* `Request.Names` — the pointers that answering a request leads to.

## Main results

* `Leads.names` — a request on the way names what the schema mentions.
* `Built.answered` — a schema that has a node has answers to all requests on the way.
-/

namespace ApiBinding

/-- The component that a pointer addresses as a whole. -/
def Pointer.whole? (pointer : String) : Option String :=
  match tokens? pointer with
  | some (c, []) => some c
  | _ => none

theorem Pointer.whole?_eq_some {pointer c : String} :
    whole? pointer = some c ↔ Whole pointer c := by
  unfold whole? Whole
  split
  · rename_i c' h
    simp [h]
  · rename_i h
    simp only [reduceCtorEq, false_iff]
    exact h c

/-- The component that the body of a target belongs to. -/
theorem Document.target_name {d : Document} {pointer location : String} {t : Target}
    (ht : d.target pointer location = .ok t) :
    (if t.isComponent then some t.component else none) = Pointer.whole? pointer := by
  have htokens := (Document.target_eq_ok_iff.1 ht).1
  unfold Pointer.whole? Target.isComponent
  rw [htokens]
  cases t.steps <;> rfl

/-- The pointer that a request is for, and whether as a fragment. -/
def Request.named? : Request → Option (String × Bool)
  | .reference p _ _ => some (p, false)
  | .fragment p _ _ => some (p, true)
  | .schema _ _ _ _ => none

/-- The schemas that are resolved on the way, a schema itself included. -/
inductive Within : Schema → Option String → Bool → Schema → Option String → Bool → Prop where
  | here {s : Schema} {name : Option String} {spine : Bool} : Within s name spine s name spine
  | inside {s t u : Schema} {name name' name'' : Option String} {spine spine' spine'' : Bool}
      {location : String} (h : Leads s name spine (.schema t location name' spine'))
      (ht : Within t name' spine' u name'' spine'') : Within s name spine u name'' spine''

/-- The pointers for which requests are made while a schema is resolved, and whether as
fragments. -/
def Mentions (s : Schema) (name : Option String) (spine : Bool) (p : String) (composed : Bool) :
    Prop :=
  ∃ t name' spine' r, Within s name spine t name' spine' ∧ Leads t name' spine' r ∧
    r.named? = some (p, composed)

/-- The pointers that answering a request leads to first. -/
def Request.Names : Request → String → Bool → Prop
  | .reference p _ _, q, composed => q = p ∧ composed = false
  | .fragment p _ _, q, composed => q = p ∧ composed = true
  | .schema s _ name spine, q, composed => Mentions s name spine q composed

/-- A request on the way names what the schema mentions. -/
theorem Leads.names {s : Schema} {name : Option String} {spine : Bool} {r : Request}
    (h : Leads s name spine r) {q : String} {composed : Bool} (hq : r.Names q composed) :
    Mentions s name spine q composed := by
  cases r with
  | reference p location link =>
    obtain ⟨rfl, rfl⟩ := hq
    exact ⟨s, name, spine, _, .here, h, rfl⟩
  | fragment p location spine' =>
    obtain ⟨rfl, rfl⟩ := hq
    exact ⟨s, name, spine, _, .here, h, rfl⟩
  | schema t location name' spine' =>
    obtain ⟨u, name'', spine'', r', hu, hr', hq⟩ := hq
    exact ⟨u, name'', spine'', r', .inside h hu, hr', hq⟩

/-- Following the first pointer leads to the second: it is mentioned there, or the first one is
for a part of the component. -/
inductive Document.Refers (d : Document) : String → String → Prop where
  | mention {p q : String} {s : Schema} {composed : Bool} (hs : d.addressed? p = some s)
      (h : Mentions s (Pointer.whole? p) true q composed) : Refers d p q
  | root {p c step : String} {steps : List String}
      (h : Pointer.tokens? p = some (c, step :: steps)) : Refers d p (Pointer.component c)

/-! ### All requests on the way are answered -/

/-- The request, made at another place. -/
def Request.at (location : String) : Request → Request
  | .reference p _ link => .reference p location link
  | .fragment p _ spine => .fragment p location spine
  | .schema s _ name spine => .schema s location name spine

section Answered

variable {d : Document} {Q : Request → Node → Prop} {s t : Schema}

theorem ObjectFrom.answered {shape : Shape Node} (h : ObjectFrom Q s shape)
    (ht : ObjectPart s t) : ∃ n, Answers Q t n := by
  obtain ⟨properties, additional, -, hproperties, hadditional⟩ := h
  cases ht with
  | property hp =>
    obtain ⟨e, -, -, he⟩ := forall₂_exists hproperties hp
    exact ⟨_, he⟩
  | additional ha =>
    rw [ha] at hadditional
    obtain ⟨n, -, hn⟩ := hadditional
    exact ⟨n, hn⟩

theorem ArrayFrom.answered {shape : Shape Node} (h : ArrayFrom Q s shape)
    (ht : s.items = some t) : ∃ n, Answers Q t n := by
  obtain ⟨n, -, hn⟩ := h
  rw [ht] at hn
  exact ⟨n, hn⟩

/-- A listed type name has a shape. -/
theorem PlainFrom.typed {shape : Shape Node} (h : PlainFrom Q s shape) {typeName : String}
    (hmem : typeName ∈ s.typeNames) : ∃ shape', TypedFrom Q s typeName shape' := by
  unfold PlainFrom at h
  rcases hnames : s.typeNames with _ | ⟨single, _ | ⟨second, rest⟩⟩
  · simp [hnames] at hmem
  · simp only [hnames, List.mem_singleton] at h hmem
    exact ⟨shape, hmem ▸ h⟩
  · simp only [hnames] at h
    rw [hnames] at hmem
    obtain ⟨variants, -, hvariants⟩ := h
    obtain ⟨v, -, hv, -⟩ := forall₂_exists hvariants hmem
    exact ⟨_, hv⟩

theorem PlainFrom.answered {shape : Shape Node} (h : PlainFrom Q s shape) (ht : PlainPart s t) :
    ∃ n, Answers Q t n := by
  cases ht with
  | object hreads ht =>
    unfold Schema.readsObject at hreads
    split at hreads
    · rename_i hnames
      rw [Bool.and_eq_true, Bool.not_eq_true'] at hreads
      have hobject : ObjectFrom Q s shape := by
        simpa [PlainFrom, hnames, UntypedFrom, hreads.1, hreads.2] using h
      exact hobject.answered ht
    · rw [List.contains_iff_mem] at hreads
      obtain ⟨shape', hshape⟩ := h.typed hreads
      exact ObjectFrom.answered (show ObjectFrom Q s shape' from hshape) ht
  | items hreads ht =>
    unfold Schema.readsItems at hreads
    split at hreads
    · rename_i hnames
      simp only [Bool.and_eq_true, Bool.not_eq_true'] at hreads
      have harray : ArrayFrom Q s shape := by
        simpa [PlainFrom, hnames, UntypedFrom, hreads.1.1, hreads.1.2, hreads.2] using h
      exact harray.answered ht
    · rw [List.contains_iff_mem] at hreads
      obtain ⟨shape', hshape⟩ := h.typed hreads
      exact ArrayFrom.answered (show ArrayFrom Q s shape' from hshape) ht

/-- **All requests on the way are answered**, each at some place. -/
theorem Built.answered {location : String} {name : Option String} {spine : Bool} {n : Node}
    (h : Built d Q s location name spine n) {r : Request} (hr : Leads s name spine r) :
    ∃ l m, Q (r.at l) m := by
  unfold Built at h
  cases hr with
  | reference hform =>
    rw [hform] at h
    obtain ⟨target, ⟨l, hl⟩, -⟩ := h
    exact ⟨l, target, hl⟩
  | wrapper hform =>
    rw [hform] at h
    obtain ⟨target, ⟨l, hl⟩, -⟩ := h
    exact ⟨l, target, hl⟩
  | fragment hform hf hp =>
    rw [hform] at h
    obtain ⟨fragments, own, hfragments, -⟩ := h
    obtain ⟨m, -, hm⟩ := forall₂_exists hfragments hf
    simp only [FragmentFrom, hp] at hm
    exact ⟨hm.choose, m, hm.choose_spec⟩
  | inline hform hf hp =>
    rw [hform] at h
    obtain ⟨fragments, own, hfragments, -⟩ := h
    obtain ⟨m, -, hm⟩ := forall₂_exists hfragments hf
    simp only [FragmentFrom, hp] at hm
    exact ⟨hm.choose, m, hm.choose_spec⟩
  | own hform hadds ht =>
    rw [hform] at h
    obtain ⟨fragments, own, -, hown, -⟩ := h
    rw [OwnFrom, if_pos hadds] at hown
    obtain ⟨_, -, hobject, -⟩ := hown
    obtain ⟨m, l, hm⟩ := hobject.answered ht
    exact ⟨l, m, hm⟩
  | member hform hm =>
    rw [hform] at h
    obtain ⟨variants, _, _, hvariants, -⟩ := h
    obtain ⟨v, -, hv⟩ := forall₂_exists hvariants hm
    obtain ⟨l, hl⟩ := hv.node
    exact ⟨l, _, hl⟩
  | plain hform ht =>
    rw [hform] at h
    obtain ⟨shape, hshape, -⟩ := h
    obtain ⟨m, l, hm⟩ := hshape.answered ht
    exact ⟨l, m, hm⟩

end Answered

end ApiBinding
