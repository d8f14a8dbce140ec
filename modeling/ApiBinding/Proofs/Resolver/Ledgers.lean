import ApiBinding.Proofs.Compilation.Slots
import ApiBinding.Proofs.Composition.Passages
import ApiBinding.Proofs.Document.Occurrences
import ApiBinding.Proofs.Resolver.Parts

/-!
# Where nodes are made

Resolving begins at a pointer that is expanded or at the schema of an operation, and goes on from
there into the schemas inside.  A ledger records the nodes that get models, each with the site at
which it was made: where resolving had begun, and the steps from there.

Work is confined to a region of sites: it makes nodes there, and where pointers are expanded that
are not open yet.  If two pieces of work are confined to regions without a common site, so is the
one after the other, and no site gets a second node.

A site may still get one if its pointer is expanded a second time.  That happens to the parts of
components, to components that lead to a composition of themselves, and below schemas that list a
type name twice.

## Main definitions

* `Entry`, `Site`, `Document.Begins` — where resolving begins and where nodes are made.
* `Ledger`, `Node.Recorded` — the nodes that were made.
* `Document.Redone` — sites that may be visited again.
* `Logs` — work that is confined to a region.

## Main results

* `Logs.bind`, `logs_eachFrom` — the rules for work that is put together.
-/

namespace ApiBinding

open Resolution

/-! ### Sites -/

/-- Where resolving begins. -/
inductive Entry where
  | pointer (p : String)
  | parameter (path : Nat) (method : HttpMethod) (key : String × String)
  | request (path : Nat) (method : HttpMethod)
  | response (path : Nat) (method : HttpMethod) (index : Nat)

/-- Where a node is made: where resolving began, and the steps from there. -/
structure Site where
  entry : Entry
  steps : List Step

/-- What is resolved from the entry is not closed: a pointer is open, and an operation is no
pointer. -/
def Entry.Open (stack : List Frame) : Entry → Prop
  | .pointer p => openIn stack p
  | _ => True

theorem Entry.Open.cons {stack : List Frame} {e : Entry} (h : e.Open stack) (f : Frame) :
    e.Open (f :: stack) := by
  cases e with
  | pointer p => exact openIn_cons.2 (.inr h)
  | _ => trivial

/-- The sites that lie at a base or beyond it, where the first step from the base is one of a
kind; no step leads to the base itself. -/
def Site.Under (e : Entry) (base : List Step) (S : Option Step → Prop) (σ : Site) : Prop :=
  σ.entry = e ∧ ∃ rest, σ.steps = base ++ rest ∧ S rest.head?

namespace Site

variable {e : Entry} {base : List Step} {S S' : Option Step → Prop} {σ : Site}

theorem Under.mono (h : Under e base S σ) (hS : ∀ o, S o → S' o) : Under e base S' σ := by
  obtain ⟨he, rest, hrest, ho⟩ := h
  exact ⟨he, rest, hrest, hS _ ho⟩

/-- Sites beyond a step lie beyond the base. -/
theorem Under.child {step : Step} (h : Under e (base ++ [step]) S σ) :
    Under e base (· = some step) σ := by
  obtain ⟨he, rest, hrest, -⟩ := h
  exact ⟨he, step :: rest, by rw [hrest, List.append_assoc]; rfl, rfl⟩

/-- The first step to a site is one and the same. -/
theorem Under.meet (h : Under e base S σ) (h' : Under e base S' σ) : ∃ o, S o ∧ S' o := by
  obtain ⟨-, rest, hrest, ho⟩ := h
  obtain ⟨-, rest', hrest', ho'⟩ := h'
  have heq : rest = rest' := List.append_cancel_left (hrest.symm.trans hrest')
  exact ⟨_, ho, heq ▸ ho'⟩

theorem under_base (ho : S none) : Under e base S ⟨e, base⟩ := ⟨rfl, [], by simp, ho⟩

end Site

/-! ### Pointers that are asked for -/

/-- The pointers that are asked for: those of the components, what the schemas of operations
mention, and what these lead to. -/
inductive Document.Asks (config : Config) (d : Document) : String → Prop where
  | component {c : String} (hc : c ∈ d.componentNames) : Asks config d (Pointer.component c)
  | used {s : Schema} {p : String} {composed : Bool} (hs : d.Uses config s)
      (h : ApiBinding.Mentions s none false p composed) : Asks config d p
  | refers {p q : String} (hp : Asks config d p) (h : d.Refers p q) : Asks config d q

/-- The schema that the first pointer addresses is composed of what the second one addresses, or a
schema inside it is. -/
def Document.Inherits (d : Document) (t p : String) : Prop :=
  ∃ s, d.addressed? t = some s ∧ ApiBinding.Mentions s (Pointer.whole? t) true p true

/-- What the pointer addresses leads to a composition of itself. -/
def Document.Inherited (d : Document) (p : String) : Prop :=
  ∃ t, Relation.ReflTransGen d.Refers p t ∧ d.Inherits t p

/-- The part of a component is not always found in the node of the component: the component leads
to the pointer for the part, or it does not carry the tokens. -/
def Document.Detached (d : Document) (p c : String) (tokens : List String) : Prop :=
  Relation.TransGen d.Refers (Pointer.component c) p ∨
    ∃ s, d.schema? c = some s ∧ ¬ s.Carries tokens

/-- If the pointer is for a part of a component, the part is not always found there. -/
def Document.DetachedPart (d : Document) (p : String) : Prop :=
  ∀ c token tokens, Pointer.tokens? p = some (c, token :: tokens) →
    d.Detached p c (token :: tokens)

/-- The schema with which resolving begins: what a pointer addresses that is asked for and
expanded, or a schema of a valid operation. -/
inductive Document.Begins (config : Config) (d : Document) : Entry → Schema → Prop where
  | pointer {p : String} {s : Schema} (hs : d.addressed? p = some s) (hp : d.Asks config p)
      (hpart : d.DetachedPart p) : Begins config d (.pointer p) s
  | parameter {i : Nat} {path : String} {item : PathItem} {template : PathTemplate}
      {method : HttpMethod} {op : Operation} {signature : Signature} {p : Parameter} {s : Schema}
      (hitem : d.paths[i]? = some (path, item)) (hop : item.operation? method = some op)
      (htemplate : PathTemplate.ofPath path = .ok template)
      (hsignature : signatureOf template item op = .ok signature) (hp : p ∈ signature.ordered)
      (hs : p.schema = some s) : Begins config d (.parameter i method p.key) s
  | request {i : Nat} {path : String} {item : PathItem} {method : HttpMethod} {op : Operation}
      {body : RequestBody} {media : String} {s : Schema}
      (hitem : d.paths[i]? = some (path, item)) (hop : item.operation? method = some op)
      (hbody : op.requestBody = some body)
      (hm : selectMedia config.media.preferred body.content = some (media, s)) :
      Begins config d (.request i method) s
  | response {i index : Nat} {path key : String} {item : PathItem} {method : HttpMethod}
      {op : Operation} {response : Response} {media : String} {s : Schema}
      (hitem : d.paths[i]? = some (path, item)) (hop : item.operation? method = some op)
      (hresponse : op.responses[index]? = some (key, response))
      (hm : selectMedia config.media.preferred response.content = some (media, s)) :
      Begins config d (.response i method index) s

/-- The sites that may be visited again. -/
inductive Document.Redone (config : Config) (d : Document) : Site → Prop where
  /-- A part of a component is expanded. -/
  | part {p c token : String} {tokens : List String} {steps : List Step}
      (h : Pointer.tokens? p = some (c, token :: tokens)) : Redone config d ⟨.pointer p, steps⟩
  /-- What is expanded leads to a composition of itself. -/
  | inherited {p : String} {steps : List Step} (h : d.Inherited p) :
      Redone config d ⟨.pointer p, steps⟩
  /-- A schema on the way lists a type name twice. -/
  | listed {e : Entry} {root s : Schema} {steps rest : List Step} (hroot : d.Begins config e root)
      (hs : root.descend? steps = some s) (h : ¬ s.typeNames.Nodup) :
      Redone config d ⟨e, steps ++ rest⟩

/-! ### Ledgers -/

/-- A node that gets a model of its own where it is used. -/
structure Node.Inline (n : Node) : Prop where
  name : n.name = none
  shape : n.shape.getsModel

/-- The nodes that were made, each with its site. -/
abbrev Ledger : Type := List (Site × Node)

/-- The nodes that get models are in the ledger, at any depth. -/
def Node.Recorded (L : Ledger) (n : Node) : Prop :=
  ∀ m, Relation.ReflTransGen Node.Inside m n → m.Inline → ∃ σ, (σ, m) ∈ L

section Recorded

variable {L L' : Ledger} {n m : Node}

theorem Node.Recorded.mono (h : n.Recorded L) (hL : L ⊆ L') : n.Recorded L' := fun m hm hinline =>
  (h m hm hinline).imp fun _ hσ => hL hσ

theorem Node.recorded_iff :
    n.Recorded L ↔ (n.Inline → ∃ σ, (σ, n) ∈ L) ∧ ∀ m ∈ n.shape.parts, m.Recorded L := by
  constructor
  · exact fun h => ⟨h n .refl, fun m hm k hk => h k (hk.tail hm)⟩
  · rintro ⟨hself, hparts⟩ m hm
    rcases Relation.ReflTransGen.cases_tail hm with rfl | ⟨k, hmk, hk⟩
    · exact hself
    · exact hparts k hk m hmk

theorem Node.Recorded.inside (h : n.Recorded L) (hm : Relation.ReflTransGen Node.Inside m n) :
    m.Recorded L := fun k hk => h k (hk.trans hm)

theorem Node.Recorded.parts (h : n.Recorded L) : ∀ m ∈ n.shape.parts, m.Recorded L :=
  (Node.recorded_iff.1 h).2

/-- A node without a model of its own has nothing to record but its parts. -/
theorem Node.recorded_of_parts (hshape : n.shape.getsModel = false)
    (h : ∀ m ∈ n.shape.parts, m.Recorded L) : n.Recorded L :=
  Node.recorded_iff.2 ⟨fun hinline => absurd hinline.shape (by simp [hshape]), h⟩

end Recorded

/-- No site of the region has a node yet, unless it may be visited again. -/
def Ledger.Vacant (config : Config) (d : Document) (L : Ledger) (R : Site → Prop) : Prop :=
  ∀ x ∈ L, R x.1 → d.Redone config x.1

/-- Nothing is lost; nodes are added in the region, where resolving begins anew, and where sites
may be visited again. -/
structure Ledger.Grows (config : Config) (d : Document) (stack : List Frame) (R : Site → Prop)
    (L L' : Ledger) : Prop where
  keeps : L ⊆ L'
  new : ∀ x ∈ L', x ∈ L ∨ R x.1 ∨ ¬ x.1.entry.Open stack ∨ d.Redone config x.1

/-- Two regions of a third one have nothing in common, and the sites of the second one are not
closed. -/
structure Splits (config : Config) (d : Document) (stack : List Frame) (R R₁ R₂ : Site → Prop) :
    Prop where
  left : ∀ σ, R₁ σ → R σ
  right : ∀ σ, R₂ σ → R σ
  opened : ∀ σ, R₂ σ → σ.entry.Open stack
  apart : ∀ σ, R₁ σ → R₂ σ → d.Redone config σ

section Regions

variable {config : Config} {d : Document} {stack : List Frame} {R R' R₁ R₂ : Site → Prop}
  {L L' L'' : Ledger}

theorem Ledger.Vacant.mono (h : L.Vacant config d R) (hR : ∀ σ, R' σ → R σ) :
    L.Vacant config d R' := fun x hx hσ => h x hx (hR _ hσ)

theorem Ledger.Grows.refl (L : Ledger) : L.Grows config d stack R L :=
  ⟨List.Subset.refl L, fun _ hx => .inl hx⟩

theorem Ledger.Grows.mono (h : L.Grows config d stack R L') (hR : ∀ σ, R σ → R' σ) :
    L.Grows config d stack R' L' :=
  ⟨h.keeps, fun x hx => (h.new x hx).imp_right fun h => h.imp_left (hR _)⟩

theorem Ledger.Grows.trans (h : L.Grows config d stack R L') (h' : L'.Grows config d stack R L'') :
    L.Grows config d stack R L'' :=
  ⟨List.Subset.trans h.keeps h'.keeps, fun x hx => (h'.new x hx).elim (h.new x) .inr⟩

/-- Without the topmost frame, the sites of the region are closed, or they may be visited again. -/
theorem Ledger.Grows.pop {f : Frame} (h : L.Grows config d (f :: stack) R L')
    (hclosed : ∀ σ, R σ → ¬ σ.entry.Open stack ∨ d.Redone config σ) :
    L.Grows config d stack R' L' := by
  refine ⟨h.keeps, fun x hx => ?_⟩
  rcases h.new x hx with hold | hregion | hno | hredone
  · exact .inl hold
  · exact .inr (.inr (hclosed _ hregion))
  · exact .inr (.inr (.inl fun hopened => hno (hopened.cons _)))
  · exact .inr (.inr (.inr hredone))

/-- What is added in one region leaves the other one vacant. -/
theorem Ledger.Vacant.grows (hR : Splits config d stack R R₁ R₂) (h : L.Vacant config d R₂)
    (hL : L.Grows config d stack R₁ L') : L'.Vacant config d R₂ := by
  intro x hx hσ
  rcases hL.new x hx with hold | hleft | hclosed | hredone
  · exact h x hold hσ
  · exact hR.apart _ hleft hσ
  · exact absurd (hR.opened _ hσ) hclosed
  · exact hredone

theorem splits_left : Splits config d stack R R fun _ => False :=
  ⟨fun _ h => h, fun _ h => h.elim, fun _ h => h.elim, fun _ _ h => h.elim⟩

theorem splits_right (h : ∀ σ, R σ → σ.entry.Open stack) :
    Splits config d stack R (fun _ => False) R :=
  ⟨fun _ h => h.elim, fun _ h => h, h, fun _ h => h.elim⟩

end Regions

/-! ### Work that is confined to a region -/

section Logs

variable {config : Config} {d : Document} {S α β : Type} {T : S → Ledger → Prop}
  {stack : List Frame} {given given' : List Node} {R R' R₁ R₂ : Site → Prop}

/-- The work keeps to what is tracked.  If the region is vacant and the given nodes are recorded,
it adds nodes to the ledger only as it may, and the nodes of its result are recorded. -/
def Logs (config : Config) (d : Document) (T : S → Ledger → Prop) (stack : List Frame)
    (given : List Node) (R : Site → Prop) (work : EStateM Interruption S α)
    (nodes : α → List Node) : Prop :=
  ∀ s L, T s L → (∀ m ∈ given, m.Recorded L) → L.Vacant config d R →
    Ends work s (fun a s' => ∃ L', T s' L' ∧ L.Grows config d stack R L' ∧
      ∀ m ∈ nodes a, m.Recorded L') fun _ _ => True

theorem logs_pure {a : α} {nodes : α → List Node} (h : ∀ m ∈ nodes a, m ∈ given) :
    Logs config d T stack given R (pure a) nodes := fun _ L hs hgiven _ =>
  ⟨L, hs, .refl L, fun m hm => hgiven m (h m hm)⟩

theorem Logs.mono {work : EStateM Interruption S α} {nodes nodes' : α → List Node}
    (h : Logs config d T stack given R work nodes) (hgiven : given ⊆ given')
    (hR : ∀ σ, R σ → R' σ) (hnodes : ∀ a, nodes' a ⊆ nodes a) :
    Logs config d T stack given' R' work nodes' := fun s L hs hL hvacant =>
  (h s L hs (fun m hm => hL m (hgiven hm)) (hvacant.mono hR)).mono_ok
    fun a _ ⟨L', ht, hgrows, ha⟩ => ⟨L', ht, hgrows.mono hR, fun m hm => ha m (hnodes a hm)⟩

/-- **Work in one region after work in another.** -/
theorem Logs.bind {work : EStateM Interruption S α} {f : α → EStateM Interruption S β}
    {nodes : α → List Node} {nodes' : β → List Node} (hR : Splits config d stack R R₁ R₂)
    (h : Logs config d T stack given R₁ work nodes)
    (hf : ∀ a, Logs config d T stack (nodes a ++ given) R₂ (f a) nodes') :
    Logs config d T stack given R (work >>= f) nodes' := by
  intro s L hs hgiven hvacant
  rw [ends_bind]
  refine (h s L hs hgiven (hvacant.mono hR.left)).mono_ok fun a t ⟨L', ht, hgrows, ha⟩ => ?_
  have hrecorded : ∀ m ∈ nodes a ++ given, m.Recorded L' := fun m hm =>
    (List.mem_append.1 hm).elim (ha m) fun hm => (hgiven m hm).mono hgrows.keeps
  have hfree := (hvacant.mono hR.right).grows hR hgrows
  refine (hf a t L' ht hrecorded hfree).mono_ok fun b u ⟨L'', hu, hgrows', hb⟩ => ?_
  exact ⟨L'', hu, (hgrows.mono hR.left).trans (hgrows'.mono hR.right), hb⟩

/-- A result that is put into a larger one. -/
theorem Logs.into {work : EStateM Interruption S α} {f : α → β} {nodes : α → List Node}
    {nodes' : β → List Node} (h : Logs config d T stack given R work nodes)
    (hf : ∀ a, nodes' (f a) ⊆ nodes a ++ given) :
    Logs config d T stack given R (work >>= fun a => pure (f a)) nodes' :=
  h.bind splits_left fun a => logs_pure fun _ hm => hf a hm

/-- **Work on the elements of a list**, each in a region of its own. -/
theorem logs_eachFrom {work : Nat → α → Resolution β} {T : Session → Ledger → Prop}
    {nodes : β → List Node} {R : Nat → Site → Prop}
    (hopen : ∀ i σ, R i σ → σ.entry.Open stack)
    (hapart : ∀ i j σ, i ≠ j → R i σ → R j σ → d.Redone config σ) :
    ∀ (xs : List α) (k : Nat),
      (∀ i a, xs[i]? = some a → Logs config d T stack given (R (k + i)) (work (k + i) a) nodes) →
      Logs config d T stack given (fun σ => ∃ i, k ≤ i ∧ R i σ) (eachFrom work k xs)
        fun bs => bs.flatMap nodes
  | [], _, _ => logs_pure fun _ hm => by simp at hm
  | a :: rest, k, h => by
    have hsplit : Splits config d stack (fun σ => ∃ i, k ≤ i ∧ R i σ) (R k)
        fun σ => ∃ i, k + 1 ≤ i ∧ R i σ :=
      ⟨fun _ hσ => ⟨k, Nat.le_refl k, hσ⟩, fun _ ⟨i, hi, hσ⟩ => ⟨i, by omega, hσ⟩,
        fun _ ⟨i, _, hσ⟩ => hopen i _ hσ, fun σ hσ ⟨i, hi, hσ'⟩ => hapart k i σ (by omega) hσ hσ'⟩
    have hrest := logs_eachFrom hopen hapart rest (k + 1) fun i b hb => by
      rw [Nat.add_right_comm]
      exact h (i + 1) b hb
    refine (h 0 a rfl).bind hsplit fun b => ?_
    have hmore := hrest.mono (List.subset_append_right (nodes b) given) (fun _ h => h) fun _ =>
      List.Subset.refl _
    exact hmore.into fun bs => by
        rw [List.flatMap_cons]
        intro m hm
        simp only [List.mem_append] at hm ⊢
        tauto

end Logs

end ApiBinding
