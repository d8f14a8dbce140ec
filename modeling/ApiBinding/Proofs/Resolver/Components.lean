import ApiBinding.Proofs.Resolver.Accounts

/-!
# The nodes of components

What is claimed of nodes needs no mention of the nodes that are kept, in most cases.  Claims are
made about the nodes of schemas that are come by while certain pointers are open; if they carry
over from the answers to what is built from them, they hold of the nodes of all components,
on whatever route these are come by.

## Main definitions

* `Claims` — what is claimed of the nodes of components and schemas.
* `Claims.Sound` — a claim on answers carries over to what is built from them.

## Main results

* `Claims.Sound.run` — sound claims hold of all answers.
* `Claims.Sound.resolveComponent`, `Claims.Sound.resolveSchema` — sound claims hold of the
  nodes of components, and of the nodes of schemas outside of them.
* `Claims.Sound.resolveFirst` — what is open while a component is resolved that is not kept.
-/

namespace ApiBinding

/-- What is claimed of nodes: of the node of a component; and of the node of a schema, given the
open pointers, the component it is the body of, and its place in a composition. -/
structure Claims where
  component : String → Node → Prop
  schema : (String → Prop) → Schema → Option String → Bool → Node → Prop
  /-- The pointers that are open all the time. -/
  base : String → Prop := fun _ => False

namespace Claims

variable {d : Document} {K : Claims} {follow : Follow} {E : Interruption → Prop}

/-- What is claimed of the answer to a request, given the open pointers. -/
def Answer (K : Claims) (d : Document) (opened : String → Prop) : Request → Node → Prop
  | .reference p _ _, n => (d.addressed? p).isSome ∧ ∀ c, Pointer.Whole p c →
    K.component c n ∧ ¬ opened p ∨ n.RefersBack c ∧ opened p
  | .fragment p _ _, n => (d.addressed? p).isSome ∧ ∀ c, Pointer.Whole p c → K.component c n
  | .schema s _ name spine, n => K.schema opened s name spine n

/-- A claim on answers carries over to what is built from them.  The open pointers lead to the
component, and to what the schema mentions. -/
structure Sound (K : Claims) (d : Document) : Prop where
  component : ∀ opened p c s n, Pointer.Whole p c → d.schema? c = some s →
    Framed d K.base opened p → K.schema opened s (some c) true n → K.component c n
  schema : ∀ opened s location name spine n,
    (∀ q, opened q → ∀ p composed, Mentions s name spine p composed →
      Relation.TransGen d.Refers q p) →
    Built d (K.Answer d opened) s location name spine n → K.schema opened s name spine n

/-- The claims hold of the components that are kept; none of them is open. -/
def Kept (K : Claims) (s : Session) : Prop :=
  ∀ p c n, Pointer.Whole p c → Table.get? s.cache p = some n →
    K.component c n ∧ ¬ openIn s.stack p

theorem Kept.alike {s t : Session} (hst : s.Alike t) (h : K.Kept s) : K.Kept t :=
  fun p c n hp hn => hst.stack ▸ h p c n hp (by rwa [← hst.cache])

/-- What is known when a request is made. -/
structure Ready (K : Claims) (d : Document) (r : Request) (s : Session) : Prop where
  kept : K.Kept s
  base : ∀ q, K.base q → openIn s.stack q
  reaching : Reaching d s.stack r

/-- The claims hold of the answers, and interruptions are as expected. -/
def Hold (K : Claims) (d : Document) (follow : Follow)
    (E : Interruption → Prop := fun _ => True) : Prop :=
  Meets follow (K.Ready d) (fun r s n t => K.Kept t ∧ K.Answer d (openIn s.stack) r n)
    fun _ _ e _ => E e

/-! ### Claims as accounts -/

/-- The claims, whatever is kept. -/
def accounts (K : Claims) : Accounts where
  component _ := K.component
  schema _ := K.schema
  base := K.base

theorem accounts_answer {kept : Table String Node} {opened : String → Prop} {r : Request}
    {n : Node} (h : K.accounts.Answer d kept opened r n) : K.Answer d opened r n := by
  cases r <;> exact h

theorem accounts_kept {s : Session} : K.accounts.Kept s ↔ K.Kept s :=
  forall₅_congr fun _ _ _ _ _ => and_congr_left fun _ => ⟨fun h => h _ (.self s), fun h _ _ => h⟩

theorem accounts_ready {r : Request} {s : Session} : K.accounts.Ready d r s ↔ K.Ready d r s :=
  ⟨fun h => ⟨accounts_kept.1 h.kept, h.base, h.reaching⟩,
    fun h => ⟨accounts_kept.2 h.kept, h.base, h.reaching⟩⟩

theorem Sound.accounts (hK : K.Sound d) : K.accounts.Sound d where
  component _ := hK.component
  schema _ opened s location name spine n hreach hn :=
    hK.schema opened s location name spine n hreach
      (Built.mono (fun _ _ h => accounts_answer h.answer) hn)

theorem Kept.remember {s : Session} {pointer : String} {n : Node} (h : K.Kept s)
    (hn : ∀ c, Pointer.Whole pointer c → K.component c n) (hno : ¬ openIn s.stack pointer) :
    K.Kept { s with cache := Table.insert s.cache pointer n } := by
  intro p c m hp hm
  rw [Table.get?_insert] at hm
  split at hm
  · rename_i heq
    rw [Option.some.injEq] at hm
    exact ⟨hm ▸ hn c (heq ▸ hp), heq ▸ hno⟩
  · exact h p c m hp hm

/-- What is kept inside a frame is kept after it. -/
theorem Kept.pop {t : Session} {f : Frame} {stack : List Frame} (h : K.Kept t)
    (hstack : t.stack = f :: stack) : K.Kept { t with stack } :=
  accounts_kept.1 ((accounts_kept.2 h).pop hstack)

/-- What is not kept contradicts nothing that is kept when it is opened. -/
theorem Kept.push {s : Session} {f : Frame} (h : K.Kept s)
    (hnone : ∀ c, Pointer.Whole f.pointer c → Table.get? s.cache f.pointer = none) :
    K.Kept { s with stack := f :: s.stack } :=
  accounts_kept.1 ((accounts_kept.2 h).push hnone)

/-- Sound claims hold of all answers, and runs are interrupted as expected. -/
theorem Sound.runs (hK : K.Sound d) (hE : Excuses E) (hexhausted : E .exhausted) (depth : Nat) :
    K.Hold d (d.follow depth) E := fun r s hs =>
  (hK.accounts.runs hE hexhausted depth r s (accounts_ready.2 hs)).mono_ok fun _ t ⟨ht, hn⟩ =>
    ⟨accounts_kept.1 ht, accounts_answer (hn t.cache (.self t)).answer⟩

/-- **Sound claims hold of all answers.** -/
theorem Sound.run (hK : K.Sound d) (depth : Nat) : K.Hold d (d.follow depth) :=
  hK.runs (fun _ _ => trivial) trivial depth

/-- The node of a schema is made from answers of which sound claims hold. -/
theorem Sound.built (hK : K.Sound d) {depth : Nat} {s t : Session} {schema : Schema}
    {location : String} {name : Option String} {spine : Bool} {n : Node}
    (hs : K.Ready d (.schema schema location name spine) s)
    (hn : d.follow depth (.schema schema location name spine) s = .ok n t) :
    Built d (K.Answer d (openIn s.stack)) schema location name spine n :=
  Built.mono (fun _ _ h => accounts_answer h.answer)
    (hK.accounts.built (accounts_ready.2 hs) hn t.cache (.self t))

theorem not_openIn_nil {stack : List Frame} (hstack : stack = []) (q : String) :
    ¬ openIn stack q := by
  rintro ⟨f, hf, -⟩
  rw [hstack] at hf
  exact List.not_mem_nil hf

/-- **Sound claims hold of the nodes of components.** -/
theorem Sound.resolveComponent (hK : K.Sound d) (hbase : ∀ q, ¬ K.base q) (c : String)
    {s : Session} (hs : K.Kept s) (hstack : s.stack = []) :
    Ends (d.resolveComponent c) s (fun n t => K.Kept t ∧ K.component c n) fun _ _ => True := by
  have hempty := not_openIn_nil hstack
  refine Ends.mono_ok (hK.run _ (.reference (Pointer.component c) (Pointer.component c) false) s
    ⟨hs, fun q hq => absurd hq (hbase q), fun q hq => absurd hq (hempty q)⟩) fun n t ⟨ht, _, hn⟩ =>
      ⟨ht, ?_⟩
  exact ((hn c (Pointer.whole_component c)).resolve_right fun ⟨_, hopened⟩ =>
    hempty _ hopened).1

/-- **A component that is not kept is resolved while nothing else is open.** -/
theorem Sound.resolveFirst (hK : K.Sound d) {c : String}
    (hbase : ∀ q, K.base q → q = Pointer.component c) {s : Session} (hs : K.Kept s)
    (hstack : s.stack = []) (hnone : Table.get? s.cache (Pointer.component c) = none)
    {body : Schema} (hbody : d.schema? c = some body) :
    Ends (d.resolveComponent c) s
      (fun n t => K.Kept t ∧ K.component c n ∧
        ∃ opened, (∀ q, opened q ↔ q = Pointer.component c) ∧ K.schema opened body (some c) true n)
      fun _ _ => True := by
  obtain ⟨depth, heq⟩ := d.resolve_eq (Pointer.component c)
  have hwhole := Pointer.whole_component c
  have hempty := not_openIn_nil hstack
  have hno : ¬ s.inProgress (Pointer.component c) := fun hprogress =>
    hempty _ (Session.inProgress_iff.1 hprogress)
  unfold Document.resolveComponent
  rw [heq]
  refine Follow.reference_ends (fun _ _ => trivial) (fun n hn => by simp [hnone] at hn)
    (fun _ _ hprogress _ => absurd hprogress hno) (fun _ _ _ _ => trivial) fun target ht _ _ => ?_
  obtain ⟨hname, hcomponent, hschema⟩ := Document.target_whole ht hwhole
  rw [hbody, Option.some.injEq] at hschema
  refine Follow.enter_ends (fun t _ hts => ?_) fun hc _ => absurd hcomponent hc
  subst hts
  refine ((hK.accounts.run depth).expand hK.accounts (d.follow_steady depth) ht
    (accounts_kept.2 hs) (fun q hq => openIn_cons.2 (.inl (hbase q hq)))
    (fun _ _ => hnone) fun q hq => absurd hq (hempty q)).mono_ok
    fun n u ⟨hu, hstack', hfree, hn⟩ => ?_
  obtain ⟨hclaim, hschema'⟩ := hn u.cache (.self u)
  rw [hcomponent, if_pos rfl, hname, ← hschema] at hschema'
  refine ⟨accounts_kept.1 (hu.remember (fun _ _ => hclaim) hfree ?_), hclaim c hwhole, _,
    fun q => openIn_cons.trans (or_iff_left (hempty q)), hschema'⟩
  exact hstack' ▸ hempty _

/-- **Sound claims hold of the nodes of schemas outside the components.** -/
theorem Sound.resolveSchema (hK : K.Sound d) (hbase : ∀ q, ¬ K.base q) (schema : Schema)
    (location : String) {s : Session} (hs : K.Kept s) (hstack : s.stack = []) :
    Ends (d.resolveSchema schema location) s
      (fun n t => K.Kept t ∧ K.schema (openIn []) schema none false n) fun _ _ => True := by
  refine Ends.mono_ok (hK.run _ (.schema schema location none false) s
    ⟨hs, fun q hq => absurd hq (hbase q), fun q hq => absurd hq (not_openIn_nil hstack q)⟩)
    fun n t ⟨ht, hn⟩ => ⟨ht, ?_⟩
  rwa [hstack] at hn

end Claims

end ApiBinding
