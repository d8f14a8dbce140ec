import ApiBinding.Proofs.Composition.Nodes
import ApiBinding.Proofs.Composition.Tags
import ApiBinding.Proofs.Resolver.Moments

/-!
# What resolved nodes are made of

Whatever the answer to a request refers to, at any depth, is a component of the description, and
all tagged unions in it have a tag for each variant.  So it is for the nodes that are kept, and it
does not matter what was kept or open when they were made.

## Main definitions

* `Session.Named` — the kept nodes are proper.
* `NamesOnly` — answers to requests are proper.

## Main results

* `Built.proper` — a node is proper if the answers are that it is built from.
* `Query.work_names` — **the answers to queries are proper.**
-/

namespace ApiBinding

section Proper

variable {K : String → Prop}

/-! ### Built nodes -/

/-- The answers are proper. -/
def ProperAnswers (K : String → Prop) (_ : Request) (n : Node) : Prop := n.Proper K

theorem Annotated.proper {body : Body} {s : Schema} {name : Option String} {n : Node}
    (h : Annotated body s name n) (hname : ∀ c, name = some c → K c)
    (hbody : body.shape.Proper K) : n.Proper K := by
  refine .intro ?_ ?_
  · rw [h.name]
    exact hname
  · rw [h.shape]
    exact hbody

theorem RefersTo.proper {target n : Node} {s : Schema} {name : Option String}
    (h : RefersTo target s name n) (hname : ∀ c, name = some c → K c) (htarget : target.Proper K) :
    n.Proper K := by
  unfold RefersTo at h
  split at h
  · exact h ▸ htarget
  · exact h.proper hname (.untagged (by simpa using htarget))

theorem ObjectFrom.proper {s : Schema} {shape : Shape Node}
    (h : ObjectFrom (ProperAnswers K) s shape) : shape.Proper K := by
  obtain ⟨properties, additional, rfl, hproperties, hadditional⟩ := h
  refine .object (fun e he => ?_) fun n hn => ?_
  · obtain ⟨p, -, -, l, hl⟩ := forall₂_exists hproperties.flip he
    exact hl
  · subst hn
    unfold AdditionalFrom at hadditional
    split at hadditional
    · obtain ⟨m, hm, l, hl⟩ := hadditional
      rw [Option.some.injEq] at hm
      exact hm ▸ hl
    · obtain ⟨m, hm, hany, hbare⟩ := hadditional
      rw [Option.some.injEq] at hm
      exact hm ▸ Node.proper_of_unnamed hbare.name (hany ▸ .any)
    · simp at hadditional

theorem ArrayFrom.proper {s : Schema} {shape : Shape Node}
    (h : ArrayFrom (ProperAnswers K) s shape) : shape.Proper K := by
  obtain ⟨n, rfl, hn⟩ := h
  refine .array ?_
  split at hn
  · exact hn.choose_spec
  · exact Node.proper_of_unnamed hn.2.name (hn.1 ▸ .any)

theorem TypedFrom.proper {s : Schema} {typeName : String} {shape : Shape Node}
    (h : TypedFrom (ProperAnswers K) s typeName shape) : shape.Proper K := by
  unfold TypedFrom at h
  split at h
  · exact h ▸ .scalar
  · exact h ▸ .scalar
  · exact h ▸ .scalar
  · exact h ▸ .scalar
  · exact ObjectFrom.proper h
  · exact ArrayFrom.proper h
  · exact h ▸ .any

theorem PlainFrom.proper {s : Schema} {shape : Shape Node}
    (h : PlainFrom (ProperAnswers K) s shape) : shape.Proper K := by
  unfold PlainFrom at h
  split at h
  · unfold UntypedFrom at h
    split at h
    · exact h ▸ .null
    · split at h
      · exact h.proper
      · split at h
        · exact h.proper
        · exact h ▸ .any
  · exact h.proper
  · obtain ⟨variants, rfl, hvariants⟩ := h
    refine .untagged fun v hv => ?_
    obtain ⟨typeName, -, hshape, hbare⟩ := forall₂_exists hvariants.flip hv
    exact Node.proper_of_unnamed hbare.name hshape.proper

theorem FragmentFrom.proper {spine : Bool} {f : Schema} {n : Node}
    (h : FragmentFrom (ProperAnswers K) spine f n) : n.Proper K := by
  unfold FragmentFrom at h
  split at h <;> exact h.choose_spec

theorem OwnFrom.proper {s : Schema} {own : List Node} (h : OwnFrom (ProperAnswers K) s own) :
    ∀ n ∈ own, n.Proper K := by
  unfold OwnFrom at h
  split at h
  · obtain ⟨m, rfl, hobject, hbare⟩ := h
    intro n hn
    rw [List.mem_singleton] at hn
    exact hn ▸ Node.proper_of_unnamed hbare.name hobject.proper
  · simp [h]

/-- Variants that are classified make a union with a tag for each of them, or with no tags. -/
theorem classify_proper {keyword : UnionKeyword} {variants : List Variant}
    {discriminator : Option Discriminator} {location : String} {body : Body}
    {findings : List Diagnostic}
    (h : classify keyword variants discriminator location = .ok (body, findings))
    (hvariants : ∀ v ∈ variants, v.node.Proper K) : body.shape.Proper K := by
  have hkept : ∀ n ∈ (variants.filter fun v => !v.node.shape.isNull).map Variant.node,
      n.Proper K := by
    intro n hn
    obtain ⟨v, hv, rfl⟩ := List.mem_map.1 hn
    exact hvariants v (List.mem_of_mem_filter hv)
  cases discriminator with
  | none =>
    simp only [classify, taggingOf, Except.map, Except.ok.injEq, Prod.mk.injEq] at h
    exact h.1 ▸ .untagged hkept
  | some D =>
    cases keyword with
    | anyOf =>
      simp only [classify, taggingOf, Except.map, Except.ok.injEq, Prod.mk.injEq] at h
      exact h.1 ▸ .untagged hkept
    | oneOf =>
      obtain ⟨tags, htags, hshape⟩ := classify_tagged h
      rw [hshape]
      exact .tagged hkept (by rw [List.length_map, htags.length_eq])

/-- **A node that is built from proper answers is proper.** -/
theorem Built.proper {d : Document} {s : Schema} {location : String} {name : Option String}
    {spine : Bool} {n : Node} (h : Built d (ProperAnswers K) s location name spine n)
    (hname : ∀ c, name = some c → K c) : n.Proper K := by
  unfold Built at h
  split at h
  · obtain ⟨target, ⟨l, htarget⟩, hn⟩ := h
    exact hn.proper hname htarget
  · obtain ⟨target, ⟨l, htarget⟩, hn⟩ := h
    exact hn.proper (by simp) htarget
  · obtain ⟨fragments, own, hfragments, hown, hn⟩ := h
    refine hn.proper hname (mergeFragments_proper location fun m hm => ?_)
    rcases List.mem_append.1 hm with hm | hm
    · obtain ⟨f, -, hf⟩ := forall₂_exists hfragments.flip hm
      exact FragmentFrom.proper hf
    · exact hown.proper m hm
  · obtain ⟨variants, body, findings, hvariants, hclassify, hn⟩ := h
    refine hn.proper hname (classify_proper hclassify fun v hv => ?_)
    obtain ⟨member, -, hmember⟩ := forall₂_exists hvariants.flip hv
    exact hmember.node.choose_spec
  · refine Annotated.proper h hname ?_
    unfold Follow.literals
    dsimp only
    split
    · exact .null
    · exact .enumeration
  · obtain ⟨shape, hshape, hn⟩ := h
    exact hn.proper hname hshape.proper

end Proper

/-! ### Runs -/

/-- The kept nodes are proper: they refer only to components of the description. -/
def Session.Named (d : Document) (s : Session) : Prop :=
  ∀ p n, Table.get? s.cache p = some n → n.Proper (· ∈ d.componentNames)

/-- A schema that is the body of a component is the body of one of the description. -/
def Request.Named (d : Document) : Request → Prop
  | .schema _ _ name _ => ∀ c, name = some c → c ∈ d.componentNames
  | _ => True

/-- The answers are proper, and so are the kept nodes, also when the work is interrupted. -/
def NamesOnly (d : Document) (follow : Follow) : Prop :=
  Meets follow (fun r s => r.Named d ∧ s.Named d)
    (fun _ _ n t => t.Named d ∧ n.Proper (· ∈ d.componentNames)) fun _ _ _ t => t.Named d

section Runs

variable {d : Document} {follow : Follow} {s : Session}

theorem Session.named_empty (h : s.cache = []) : s.Named d := by
  intro p n hn
  simp [h] at hn

theorem Session.Named.alike {t : Session} (h : s.Named d) (hst : s.Alike t) : t.Named d :=
  fun p n hn => h p n (by rwa [← hst.cache])

theorem Session.Named.remember (h : s.Named d) {p : String} {n : Node}
    (hn : n.Proper (· ∈ d.componentNames)) :
    Session.Named d { s with cache := Table.insert s.cache p n } := by
  intro q m hm
  rw [Table.get?_insert] at hm
  split at hm
  · rw [Option.some.injEq] at hm
    exact hm ▸ hn
  · exact h q m hm

/-- A pointer with a target leads into a component of the description. -/
theorem Document.target_mem {pointer location : String} {t : Target}
    (h : d.target pointer location = .ok t) : t.component ∈ d.componentNames := by
  obtain ⟨htokens, haddressed⟩ := Document.target_eq_ok_iff.1 h
  rw [Document.addressed?, htokens, Option.bind_some] at haddressed
  obtain ⟨schema, hschema, -⟩ := Option.bind_eq_some_iff.1 haddressed
  exact Document.mem_componentNames hschema

theorem NamesOnly.expand (h : NamesOnly d follow) {p location : String} {target : Target}
    {link fresh : Bool} (ht : d.target p location = .ok target) (hs : s.Named d) :
    Ends (Follow.expand follow p target link fresh) s
      (fun n t => t.Named d ∧ n.Proper (· ∈ d.componentNames)) fun _ t => t.Named d := by
  refine Follow.expand_ends (h _ _ ⟨fun c hc => ?_, hs⟩)
  split at hc
  · rw [Option.some.injEq] at hc
    exact hc ▸ Document.target_mem ht
  · simp at hc

theorem NamesOnly.enter (h : NamesOnly d follow) {p location : String} {target : Target}
    {link : Bool} (ht : d.target p location = .ok target) (hs : s.Named d) :
    Ends (Follow.enter follow p location target link) s
      (fun n t => t.Named d ∧ n.Proper (· ∈ d.componentNames)) fun _ t => t.Named d := by
  refine Follow.enter_ends (fun t _ hts => ?_) fun _ _ => ?_
  · subst hts
    exact (h.expand ht hs).mono_ok fun n u ⟨hu, hn⟩ => ⟨hu.remember hn, hn⟩
  · have hroot := h (.reference (Pointer.component target.component) location false) s
      ⟨trivial, hs⟩
    refine hroot.mono_ok fun root t ⟨ht', hroot⟩ => ⟨fun n hn => ?_, fun _ => ?_⟩
    · exact ⟨ht'.remember (hroot.at? hn), hroot.at? hn⟩
    · exact (h.expand ht ht').mono_ok fun n u ⟨hu, hn⟩ => ⟨hu.remember hn, hn⟩

theorem NamesOnly.reference (h : NamesOnly d follow) {p location : String} {link : Bool}
    (hs : s.Named d) :
    Ends (Follow.reference follow d p location link) s
      (fun n t => t.Named d ∧ n.Proper (· ∈ d.componentNames)) fun _ t => t.Named d := by
  refine Follow.reference_ends (fun _ _ => hs) (fun n hn => ⟨hs, hs p n hn⟩)
    (fun target ht _ _ => ?_) (fun _ _ _ _ => hs) fun target ht _ _ => h.enter ht hs
  refine ⟨hs.alike Resolution.issue_alike, Node.proper_of_unnamed rfl ?_⟩
  exact .backRef (Document.target_mem ht)

/-- One step keeps answers proper. -/
theorem NamesOnly.step (h : NamesOnly d follow) (hsteady : Steady follow) :
    NamesOnly d (Follow.step follow d) := by
  rintro r s ⟨hr, hs⟩
  cases r with
  | reference p location link => exact h.reference hs
  | fragment p location spine =>
    exact Follow.fragment_ends (fun _ _ => hs) (fun _ _ => hs) (fun _ _ => hs)
      (fun _ ht _ _ _ => h.expand ht hs) fun _ _ => h.reference hs
  | schema schema location name spine =>
    have hbrings : Brings (fun t => t.Named d) (fun _ t => t.Named d)
        (Follow.schema follow d schema location name spine) _ :=
      Follow.schema_brings (Q := fun r n _ => ProperAnswers (· ∈ d.componentNames) r n)
        (fun _ _ htu ht => ht.alike htu) (fun _ _ _ _ hn _ => hn)
        (fun _ _ _ _ _ _ _ _ ht => ht) fun r hlead => hsteady.brings fun t ht => by
          refine h r t ⟨?_, ht⟩
          -- The schemas inside another one are the bodies of no components.
          cases hlead <;> simp [Request.Named]
    exact (hbrings s hs).mono_ok fun n t ⟨ht, _, hn⟩ => ⟨ht, hn.proper hr⟩

/-- **Runs keep answers proper.** -/
theorem Document.follow_names (d : Document) (depth : Nat) : NamesOnly d (d.follow depth) :=
  Document.follow_meets (fun _ _ h => h.2) (fun _ hsteady h => NamesOnly.step h hsteady) depth

/-- **The answers to queries are proper.** -/
theorem Query.work_names (query : Query) (hs : s.Named d) :
    Ends (query.work d) s (fun n t => t.Named d ∧ n.Proper (· ∈ d.componentNames))
      fun _ t => t.Named d := by
  rw [Query.work_eq]
  refine d.follow_names _ query.request s ⟨?_, hs⟩
  cases query <;> simp [Query.request, Request.Named]

theorem Document.Used.named (h : d.Used s) : s.Named d := by
  induction h with
  | start => exact Session.named_empty rfl
  | run query h hn ih => exact ((query.work_names ih).of_ok hn).1
  | noted findings h ih => exact ih

/-- **Answers refer only to components of the description**, and every variant of a tagged union in
them has a tag. -/
theorem Document.Answers.proper {query : Query} {n : Node} (h : d.Answers query n) :
    n.Proper (· ∈ d.componentNames) := by
  obtain ⟨s, t, hs, hn⟩ := h
  exact ((query.work_names hs.named).of_ok hn).2

end Runs

end ApiBinding
