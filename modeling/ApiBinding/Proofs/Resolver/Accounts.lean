import ApiBinding.Proofs.Resolver.Mentions
import ApiBinding.Proofs.Resolver.Steps

/-!
# Nodes in the light of what is kept

What is true of the node of every schema that is resolved is true of the nodes of
components, on whatever route they are come by: a kept node was made before, and a fragment
whose component is open is expanded once more.  Only a plain reference may be answered
without the node of its component, by a back reference, and only if the pointer is open.

What is open leads to what is asked for.  So there are back references only to pointers that
lead back to themselves, and a pointer that does not is answered by one and the same node, the
one that is kept for it.

What is told of nodes may refer to the nodes that are kept.  More nodes are kept as time passes, so
it is told for every table that holds what is kept now: it stays true, and in the end it is
about the nodes that are kept then.

## Main definitions

* `openIn`, `Reaching` — the pointers of frames, and what they lead to.
* `Session.KeptBy` — tables that hold what a session keeps.
* `Accounts` — what is told of the nodes of components and schemas.
* `Accounts.Sound` — what is told of answers carries over to what is built from them.

## Main results

* `Accounts.Hold.step` — one step tells of its answer what is told of the answers on the way.
* `Accounts.Sound.run` — **sound accounts are true of all answers.**
-/

namespace ApiBinding

/-- The pointers of frames. -/
def openIn (stack : List Frame) (p : String) : Prop := ∃ f ∈ stack, f.pointer = p

/-- What is open inside a frame. -/
theorem openIn_cons {f : Frame} {stack : List Frame} {q : String} :
    openIn (f :: stack) q ↔ q = f.pointer ∨ openIn stack q := by
  simp [openIn, eq_comm]

theorem Session.inProgress_iff {s : Session} {p : String} :
    s.inProgress p ↔ openIn s.stack p := by
  simp [Session.inProgress, openIn]

/-- The open pointers lead to what a request names. -/
def Reaching (d : Document) (stack : List Frame) (r : Request) : Prop :=
  ∀ q, openIn stack q → ∀ p composed, r.Names p composed → Relation.TransGen d.Refers q p

section Reaching

variable {d : Document} {stack : List Frame}

theorem Reaching.leads {s : Schema} {location : String} {name : Option String} {spine : Bool}
    (h : Reaching d stack (.schema s location name spine)) {r : Request}
    (hr : Leads s name spine r) : Reaching d stack r :=
  fun q hq p composed hp => h q hq p composed (hr.names hp)

/-- What is open leads to what is mentioned by the target of a pointer that is asked for. -/
theorem Reaching.expand {p location : String} {t : Target} {link fresh : Bool}
    (h : ∀ q, openIn stack q → Relation.TransGen d.Refers q p)
    (ht : d.target p location = .ok t) :
    Reaching d (⟨p, link, fresh⟩ :: stack) (.schema t.schema p
      (if t.isComponent then some t.component else none) true) := by
  rintro q ⟨f, hf, rfl⟩ q' composed hq'
  rw [Document.target_name ht] at hq'
  have hstep : d.Refers p q' := .mention (Document.target_eq_ok_iff.1 ht).2 hq'
  rcases List.mem_cons.1 hf with rfl | hf
  · exact .single hstep
  · exact (h _ ⟨f, hf, rfl⟩).tail hstep

/-- What is open leads to the component of a part that is asked for. -/
theorem Reaching.root {p location : String} {t : Target} {link : Bool}
    (h : ∀ q, openIn stack q → Relation.TransGen d.Refers q p)
    (ht : d.target p location = .ok t) (hc : ¬ t.isComponent) :
    Reaching d stack (.reference (Pointer.component t.component) location link) := by
  rintro q hq q' composed ⟨rfl, -⟩
  refine (h q hq).tail ?_
  have htokens := (Document.target_eq_ok_iff.1 ht).1
  cases hs : t.steps with
  | nil => simp [Target.isComponent, hs] at hc
  | cons step rest =>
    rw [hs] at htokens
    exact .root htokens

end Reaching

/-! ### Interruptions -/

/-- The interruptions of steps: no step finds fault with a path. -/
def Excuses (E : Interruption → Prop) : Prop :=
  ∀ cause, (∀ path fault, cause ≠ .malformedPath path fault) → E (.rejected cause)

/-- The interruption is no fault of a path. -/
def NoPathFault (e : Interruption) : Prop := ∀ path fault, e ≠ .rejected (.malformedPath path fault)

theorem excuses_noPathFault : Excuses NoPathFault := fun _ hcause path fault heq =>
  hcause path fault (Interruption.rejected.inj heq)

theorem Excuses.target_error {E : Interruption → Prop} (hE : Excuses E) {d : Document}
    {p location : String} {cause : CompileError} (h : d.target p location = .error cause) :
    E (.rejected cause) := by
  refine hE cause fun path fault => ?_
  rcases Document.target_error h with rfl | rfl <;> simp

/-! ### Tables of kept nodes -/

/-- The table holds the nodes that the session keeps for components that are not open. -/
def Session.KeptBy (s : Session) (kept : Table String Node) : Prop :=
  ∀ p c n, Pointer.Whole p c → ¬ openIn s.stack p → Table.get? s.cache p = some n →
    Table.get? kept p = some n

namespace Session.KeptBy

variable {s t : Session} {kept : Table String Node} {p : String}

theorem self (s : Session) : s.KeptBy s.cache := fun _ _ _ _ _ h => h

/-- What a later session keeps was kept before, or is kept besides. -/
theorem earlier (h : t.KeptBy kept) (hst : s.Later t) : s.KeptBy kept := fun p c n hp hno hn =>
  h p c n hp (by rwa [hst.stack])
    (hst.whole p c n hp (fun hprogress => hno (Session.inProgress_iff.1 hprogress)) hn)

/-- What is kept inside a frame is kept after it. -/
theorem inside {f : Frame} {stack : List Frame} (h : KeptBy { t with stack } kept)
    (hstack : t.stack = f :: stack) : t.KeptBy kept := fun p c n hp hno hn =>
  h p c n hp (fun hopened => hno (hstack ▸ openIn_cons.2 (.inr hopened))) hn

/-- A frame for what is not kept hides nothing that is kept. -/
theorem below {f : Frame} (h : KeptBy { s with stack := f :: s.stack } kept)
    (hnone : ∀ c, Pointer.Whole f.pointer c → Table.get? s.cache f.pointer = none) :
    s.KeptBy kept := fun p c n hp hno hn => h p c n hp (fun hopened => by
  rcases openIn_cons.1 hopened with rfl | hopened
  · simp [hnone c hp] at hn
  · exact hno hopened) hn

/-- What was kept before a pointer was is not replaced by its node. -/
theorem forget {n : Node} (h : KeptBy { s with cache := Table.insert s.cache p n } kept)
    (hnone : ∀ c, Pointer.Whole p c → Table.get? s.cache p = none) : s.KeptBy kept :=
  fun q c m hq hno hm => h q c m hq hno (by
    show Table.get? (Table.insert s.cache p n) q = some m
    rw [Table.get?_insert, if_neg ?_]
    · exact hm
    · rintro rfl
      simp [hnone c hq] at hm)

/-- The node that is kept last is in the table. -/
theorem found {n : Node} {c : String}
    (h : KeptBy { s with cache := Table.insert s.cache p n } kept) (hp : Pointer.Whole p c)
    (hno : ¬ openIn s.stack p) : Table.get? kept p = some n :=
  h p c n hp hno (by
    show Table.get? (Table.insert s.cache p n) p = some n
    rw [Table.get?_insert, if_pos rfl])

end Session.KeptBy

/-! ### Accounts -/

/-- What is told of nodes, given the nodes that are kept: of the node of a component; and of the
node of a schema, given the open pointers, the component it is the body of, and its place in a
composition. -/
structure Accounts where
  component : Table String Node → String → Node → Prop
  schema : Table String Node → (String → Prop) → Schema → Option String → Bool → Node → Prop
  /-- The pointers that are open all the time. -/
  base : String → Prop := fun _ => False

/-- What is open while a pointer is expanded: the pointer, what is open all the time, and only
what leads to the pointer. -/
structure Framed (d : Document) (base opened : String → Prop) (p : String) : Prop where
  self : opened p
  base : ∀ q, base q → opened q
  leads : ∀ q, opened q → Relation.ReflTransGen d.Refers q p

/-- The node is a back reference to the component. -/
structure Node.RefersBack (n : Node) (c : String) : Prop where
  shape : n.shape = .backRef c
  name : n.name = none

/-- The node that answers for a component is the one that is kept for it, unless the pointer leads
back to itself. -/
def Identified (d : Document) (kept : Table String Node) : Request → Node → Prop
  | .reference p _ _, n | .fragment p _ _, n =>
    (∃ c, Pointer.Whole p c) → Table.get? kept p = some n ∨ Relation.TransGen d.Refers p p
  | .schema _ _ _ _, _ => True

namespace Accounts

variable {d : Document} {A : Accounts} {follow : Follow} {E : Interruption → Prop}

/-- What is told of the answer to a request, given the nodes that are kept and the open pointers. -/
def Answer (A : Accounts) (d : Document) (kept : Table String Node) (opened : String → Prop) :
    Request → Node → Prop
  | .reference p _ _, n => (d.addressed? p).isSome ∧ ∀ c, Pointer.Whole p c →
    A.component kept c n ∧ ¬ opened p ∨ n.RefersBack c ∧ opened p
  | .fragment p _ _, n =>
    (d.addressed? p).isSome ∧ ∀ c, Pointer.Whole p c → A.component kept c n
  | .schema s _ name spine, n => A.schema kept opened s name spine n

/-- What is told of the answer, and which node it is. -/
structure Tells (A : Accounts) (d : Document) (kept : Table String Node) (opened : String → Prop)
    (r : Request) (n : Node) : Prop where
  answer : A.Answer d kept opened r n
  identified : Identified d kept r n

/-- What is told of answers carries over to what is built from them.  The open pointers lead to the
component, and to what the schema mentions. -/
structure Sound (A : Accounts) (d : Document) : Prop where
  component : ∀ kept opened p c s n, Pointer.Whole p c → d.schema? c = some s →
    Framed d A.base opened p → A.schema kept opened s (some c) true n → A.component kept c n
  schema : ∀ kept opened s location name spine n,
    (∀ q, opened q → ∀ p composed, Mentions s name spine p composed →
      Relation.TransGen d.Refers q p) →
    Built d (A.Tells d kept opened) s location name spine n → A.schema kept opened s name spine n

/-- It is told of the components that are kept; none of them is open. -/
def Kept (A : Accounts) (s : Session) : Prop :=
  ∀ p c n, Pointer.Whole p c → Table.get? s.cache p = some n →
    (∀ kept, s.KeptBy kept → A.component kept c n) ∧ ¬ openIn s.stack p

/-- What is known when a request is made. -/
structure Ready (A : Accounts) (d : Document) (r : Request) (s : Session) : Prop where
  kept : A.Kept s
  base : ∀ q, A.base q → openIn s.stack q
  reaching : Reaching d s.stack r

/-- It is told of the answer, for every table that holds what is kept. -/
def Holds (A : Accounts) (d : Document) (opened : String → Prop) (r : Request) (n : Node)
    (t : Session) : Prop :=
  ∀ kept, t.KeptBy kept → A.Tells d kept opened r n

theorem holds_lasting (opened : String → Prop) (r : Request) (n : Node) :
    Lasting (A.Holds d opened r n) := fun _ _ h htu kept hu => h kept (hu.earlier htu)

/-- The accounts are true of the answers, and interruptions are as expected. -/
def Hold (A : Accounts) (d : Document) (follow : Follow)
    (E : Interruption → Prop := fun _ => True) : Prop :=
  Meets follow (A.Ready d) (fun r s n t => A.Kept t ∧ A.Holds d (openIn s.stack) r n t)
    fun _ _ e _ => E e

/-! ### What is kept -/

/-- An open component is not kept. -/
theorem Kept.get?_eq_none {s : Session} (h : A.Kept s) {p c : String} (hp : Pointer.Whole p c)
    (hopened : openIn s.stack p) : Table.get? s.cache p = none := by
  by_contra hsome
  obtain ⟨n, hn⟩ := Option.ne_none_iff_exists'.1 hsome
  exact (h p c n hp hn).2 hopened

theorem Kept.remember {s : Session} {p : String} {n : Node} (h : A.Kept s)
    (hn : ∀ kept, Session.KeptBy { s with cache := Table.insert s.cache p n } kept →
      ∀ c, Pointer.Whole p c → A.component kept c n)
    (hnone : ∀ c, Pointer.Whole p c → Table.get? s.cache p = none) (hno : ¬ openIn s.stack p) :
    A.Kept { s with cache := Table.insert s.cache p n } := by
  intro q c m hq hm
  rw [Table.get?_insert] at hm
  split at hm
  · rename_i heq
    rw [Option.some.injEq] at hm
    subst heq hm
    exact ⟨fun kept hkept => hn kept hkept c hq, hno⟩
  · exact (h q c m hq hm).imp_left fun hm kept hkept => hm kept (hkept.forget hnone)

theorem Kept.alike {s t : Session} (hst : s.Alike t) (h : A.Kept s) : A.Kept t := by
  refine fun p c n hp hn => (h p c n hp (by rwa [← hst.cache])).imp (fun hn kept hkept => ?_)
    fun hno => hst.stack ▸ hno
  exact hn kept (hkept.earlier hst.later)

/-- What is kept inside a frame is kept after it. -/
theorem Kept.pop {t : Session} {f : Frame} {stack : List Frame} (h : A.Kept t)
    (hstack : t.stack = f :: stack) : A.Kept { t with stack } :=
  fun p c n hp hn => (h p c n hp hn).imp (fun hn kept hkept => hn kept (hkept.inside hstack))
    fun hno hopened => hno (hstack ▸ openIn_cons.2 (.inr hopened))

/-- What is not kept contradicts nothing that is kept when it is opened. -/
theorem Kept.push {s : Session} {f : Frame} (h : A.Kept s)
    (hnone : ∀ c, Pointer.Whole f.pointer c → Table.get? s.cache f.pointer = none) :
    A.Kept { s with stack := f :: s.stack } := by
  refine fun p c n hp hn => (h p c n hp hn).imp (fun hn kept hkept => hn kept (hkept.below hnone))
    fun hno hopened => ?_
  rcases openIn_cons.1 hopened with rfl | hopened
  · have hn : Table.get? s.cache f.pointer = some n := hn
    simp [hnone c hp] at hn
  · exact hno hopened

/-! ### Steps -/

/-- An expansion makes a node for the schema, which is the node of the component.  What is
expanded is not kept, and not kept thereby. -/
theorem Hold.expand (h : A.Hold d follow E) (hA : A.Sound d) (hsteady : Steady follow) {s : Session}
    {pointer location : String} {target : Target} {link fresh : Bool}
    (ht : d.target pointer location = .ok target) (hs : A.Kept s)
    (hbase : ∀ q, A.base q → openIn (⟨pointer, link, fresh⟩ :: s.stack) q)
    (hnone : ∀ c, Pointer.Whole pointer c → Table.get? s.cache pointer = none)
    (hopen : ∀ q, openIn s.stack q → Relation.TransGen d.Refers q pointer) :
    Ends (Follow.expand follow pointer target link fresh) s
      (fun n t => A.Kept t ∧ t.stack = s.stack ∧
        (∀ c, Pointer.Whole pointer c → Table.get? t.cache pointer = none) ∧
        ∀ kept, t.KeptBy kept → (∀ c, Pointer.Whole pointer c → A.component kept c n) ∧
          A.schema kept (openIn (⟨pointer, link, fresh⟩ :: s.stack)) target.schema
            (if target.isComponent then some target.component else none) true n)
      fun e _ => E e := by
  have hpush := hs.push (f := ⟨pointer, link, fresh⟩) hnone
  refine Follow.expand_ends (((h _ _ ⟨hpush, hbase, Reaching.expand hopen ht⟩).and
    (hsteady _ _)).mono ?_ fun _ _ he => he.1)
  rintro n t ⟨⟨ht', hn⟩, hlater⟩
  have hstack : t.stack = ⟨pointer, link, fresh⟩ :: s.stack := hlater.stack
  refine ⟨ht'.pop hstack, rfl, fun c hp => ht'.get?_eq_none hp ?_, fun kept hkept => ?_⟩
  · exact hstack ▸ openIn_cons.2 (.inl rfl)
  · have hn := (hn kept (hkept.inside hstack)).answer
    refine ⟨fun c hp => ?_, hn⟩
    obtain ⟨hname, hwhole, hschema⟩ := Document.target_whole ht hp
    simp only [Answer, hwhole, if_true, hname] at hn
    refine hA.component _ _ pointer c _ n hp hschema
      ⟨openIn_cons.2 (.inl rfl), hbase, fun q hq => ?_⟩ hn
    rcases openIn_cons.1 hq with rfl | hq
    · exact .refl
    · exact (hopen q hq).to_reflTransGen

/-- The node of a component that is entered, which is kept; a part that is looked up is no
component. -/
theorem Hold.enter (h : A.Hold d follow E) (hA : A.Sound d) (hsteady : Steady follow) {s : Session}
    {pointer location : String} {target : Target} {link : Bool}
    (ht : d.target pointer location = .ok target) (hs : A.Kept s)
    (hbase : ∀ q, A.base q → openIn s.stack q) (hnone : Table.get? s.cache pointer = none)
    (hno : ¬ openIn s.stack pointer)
    (hopen : ∀ q, openIn s.stack q → Relation.TransGen d.Refers q pointer) :
    Ends (Follow.enter follow pointer location target link) s
      (fun n t => A.Kept t ∧ ∀ kept, t.KeptBy kept → ∀ c, Pointer.Whole pointer c →
        A.component kept c n ∧ Table.get? kept pointer = some n)
      fun e _ => E e := by
  have hexpand : ∀ t, A.Kept t → t.stack = s.stack →
      (∀ c, Pointer.Whole pointer c → Table.get? t.cache pointer = none) →
      Ends (Follow.expand follow pointer target link false) t
        (fun n u => A.Kept { u with cache := Table.insert u.cache pointer n } ∧
          ∀ kept, Session.KeptBy { u with cache := Table.insert u.cache pointer n } kept →
            ∀ c, Pointer.Whole pointer c →
              A.component kept c n ∧ Table.get? kept pointer = some n) fun e _ => E e :=
      fun t hkept hts hfree => by
    refine (h.expand hA hsteady ht hkept (hts ▸ fun q hq => openIn_cons.2 (.inr (hbase q hq)))
      hfree (by rwa [hts])).mono_ok fun n u ⟨hu, hstack, hfree', hn⟩ => ?_
    have hno' : ¬ openIn u.stack pointer := by rwa [hstack, hts]
    exact ⟨hu.remember (fun kept hkept' => (hn kept (hkept'.forget hfree')).1) hfree' hno',
      fun kept hkept' c hp => ⟨(hn kept (hkept'.forget hfree')).1 c hp, hkept'.found hp hno'⟩⟩
  refine Follow.enter_ends (fun t _ hts => hexpand t (hts ▸ hs) (by rw [hts])
    fun _ _ => hts ▸ hnone) fun hc _ => ?_
  -- A part is no whole component.
  have hpart : ∀ c, ¬ Pointer.Whole pointer c := fun c hp =>
    absurd (Document.target_whole ht hp).2.1 hc
  have hroot := h (.reference (Pointer.component target.component) location false) s
    ⟨hs, hbase, Reaching.root hopen ht hc⟩
  exact (hroot.and (hsteady _ s)).mono (fun root t ⟨⟨ht', _⟩, hlater⟩ =>
    ⟨fun n _ => ⟨ht'.remember (fun _ _ c hp => absurd hp (hpart c))
      (fun c hp => absurd hp (hpart c)) (hlater.stack ▸ hno), fun _ _ c hp => absurd hp (hpart c)⟩,
      fun _ => hexpand t ht' hlater.stack fun c hp => absurd hp (hpart c)⟩) fun _ _ he => he.1

/-- The node that answers a reference: that of the component, or a back reference to an open
one. -/
theorem Hold.reference (h : A.Hold d follow E) (hE : Excuses E) (hA : A.Sound d)
    (hsteady : Steady follow) {s : Session} {pointer location : String} {link : Bool}
    (hs : A.Kept s) (hbase : ∀ q, A.base q → openIn s.stack q)
    (hopen : ∀ q, openIn s.stack q → Relation.TransGen d.Refers q pointer) :
    Ends (Follow.reference follow d pointer location link) s
      (fun n t => A.Kept t ∧ A.Holds d (openIn s.stack) (.reference pointer location link) n t)
      fun e _ => E e := by
  have haddressed : (∃ t, d.target pointer location = .ok t) → (d.addressed? pointer).isSome := by
    rintro ⟨t, ht⟩
    rw [(Document.target_eq_ok_iff.1 ht).2]
    rfl
  have hends : Ends (Follow.reference follow d pointer location link) s
      (fun n t => A.Kept t ∧ ∀ kept, t.KeptBy kept → ∀ c, Pointer.Whole pointer c →
        (A.component kept c n ∧ Table.get? kept pointer = some n) ∧ ¬ openIn s.stack pointer ∨
          n.RefersBack c ∧ openIn s.stack pointer) fun e _ => E e := by
    refine Follow.reference_ends (fun _ => hE.target_error)
      (fun n hn => ⟨hs, fun kept hkept c hp => .inl ?_⟩) (fun target ht hprogress _ => ?_)
      (fun _ _ _ _ => hE _ (by simp)) fun target ht hnone hno => ?_
    · obtain ⟨hcomponent, hno⟩ := hs pointer c n hp hn
      exact ⟨⟨hcomponent kept hkept, hkept pointer c n hp hno hn⟩, hno⟩
    · refine ⟨hs.alike Resolution.issue_alike, fun kept _ c hp =>
        .inr ⟨⟨?_, rfl⟩, Session.inProgress_iff.1 hprogress⟩⟩
      rw [← (Document.target_whole ht hp).1]
    · rw [Session.inProgress_iff] at hno
      exact (h.enter hA hsteady ht hs hbase hnone hno hopen).mono_ok fun n t ⟨ht', hn⟩ =>
        ⟨ht', fun kept hkept c hp => .inl ⟨hn kept hkept c hp, hno⟩⟩
  refine (hends.and Follow.reference_target).mono (fun n t ⟨⟨ht, hn⟩, htarget⟩ =>
    ⟨ht, fun kept hkept => ⟨⟨haddressed htarget, fun c hp => ?_⟩, fun ⟨c, hp⟩ => ?_⟩⟩)
    fun _ _ he => he.1
  · exact (hn kept hkept c hp).imp (fun h => ⟨h.1.1, h.2⟩) id
  · -- An open pointer leads to what is asked for, which is the pointer itself.
    exact (hn kept hkept c hp).imp (fun h => h.1.2) fun h => hopen pointer h.2

/-- The requests that a schema leads to are answered. -/
theorem Hold.brings (h : A.Hold d follow E) (hsteady : Steady follow) {s : Session}
    {schema : Schema} {location : String} {name : Option String} {spine : Bool}
    (hs : A.Ready d (.schema schema location name spine) s) {r : Request}
    (hlead : Leads schema name spine r) :
    Brings (fun t => A.Kept t ∧ t.stack = s.stack) (fun e _ => E e) (follow r)
      (A.Holds d (openIn s.stack) r) := fun t ⟨ht, hstack⟩ => by
  have hr : A.Ready d r t := ⟨ht, hstack ▸ hs.base, hstack ▸ hs.reaching.leads hlead⟩
  refine ((h r t hr).and (hsteady r t)).mono
    (fun n u ⟨⟨hu, hn⟩, hlater⟩ => ⟨⟨hu, hlater.stack.trans hstack⟩, hlater, ?_⟩)
    fun _ _ he => he.1
  rwa [← hstack]

theorem kept_alike {stack : List Frame} (t u : Session) (htu : t.Alike u)
    (ht : A.Kept t ∧ t.stack = stack) : A.Kept u ∧ u.stack = stack :=
  ⟨ht.1.alike htu, htu.stack.trans ht.2⟩

/-- The node of a schema is made from answers of which the accounts are true. -/
theorem Hold.built (h : A.Hold d follow E) (hE : Excuses E) (hsteady : Steady follow) {s : Session}
    {schema : Schema} {location : String} {name : Option String} {spine : Bool}
    (hs : A.Ready d (.schema schema location name spine) s) :
    Ends (Follow.schema follow d schema location name spine) s
      (fun n t => A.Kept t ∧ ∀ kept, t.KeptBy kept →
        Built d (A.Tells d kept (openIn s.stack)) schema location name spine n)
      fun e _ => E e := by
  have hbrings : Brings (fun t => A.Kept t ∧ t.stack = s.stack) (fun e _ => E e)
      (Follow.schema follow d schema location name spine) _ :=
    Follow.schema_brings kept_alike (holds_lasting _)
      (fun _ _ _ _ _ _ _ hclassify _ => by
        obtain ⟨-, _, _, -, rfl⟩ := classify_error hclassify
        exact hE _ (by simp))
      fun _ hlead => h.brings hsteady hs hlead
  exact (hbrings s ⟨hs.kept, rfl⟩).mono_ok fun n t ⟨ht, _, hn⟩ =>
    ⟨ht.1, fun kept hkept => Built.mono (fun _ _ h => h kept hkept) hn⟩

/-- **One step tells of its answer what is told of the answers on the way.** -/
theorem Hold.step (h : A.Hold d follow E) (hE : Excuses E) (hA : A.Sound d)
    (hsteady : Steady follow) : A.Hold d (Follow.step follow d) E := by
  rintro r s ⟨hs, hbase, hreach⟩
  cases r with
  | reference pointer location link =>
    exact h.reference hE hA hsteady hs hbase fun q hq => hreach q hq pointer false ⟨rfl, rfl⟩
  | fragment pointer location spine =>
    have hopen := fun q hq => hreach q hq pointer true ⟨rfl, rfl⟩
    refine Follow.fragment_ends (fun _ => hE.target_error) (fun _ _ => hE _ (by simp))
      (fun _ _ => hE _ (by simp)) (fun target ht _ hprogress _ => ?_) fun _ hno => ?_
    · -- The pointer is open, so it is not kept, and it leads back to itself.
      have hopened := Session.inProgress_iff.1 hprogress
      refine (h.expand hA hsteady ht hs (fun q hq => openIn_cons.2 (.inr (hbase q hq)))
        (fun c hp => hs.get?_eq_none hp hopened) hopen).mono_ok fun n t ⟨ht', _, _, hn⟩ =>
          ⟨ht', fun kept hkept => ⟨⟨?_, (hn kept hkept).1⟩, fun _ => .inr (hopen _ hopened)⟩⟩
      rw [(Document.target_eq_ok_iff.1 ht).2]
      rfl
    · refine (h.reference hE hA hsteady hs hbase hopen).mono_ok fun n t ⟨ht, hn⟩ =>
        ⟨ht, fun kept hkept => ?_⟩
      obtain ⟨⟨hsome, hn⟩, hidentified⟩ := hn kept hkept
      refine ⟨⟨hsome, fun c hp => ?_⟩, hidentified⟩
      rcases hn c hp with ⟨hcomponent, -⟩ | ⟨-, hopened⟩
      · exact hcomponent
      · -- A pointer that is not open is not answered by a back reference.
        exact absurd (Session.inProgress_iff.2 hopened) hno
  | schema schema location name spine =>
    exact (h.built hE hsteady ⟨hs, hbase, hreach⟩).mono_ok fun n t ⟨ht, hn⟩ =>
      ⟨ht, fun kept hkept => ⟨hA.schema _ _ _ _ _ _ _ hreach (hn kept hkept), trivial⟩⟩

/-- Sound accounts are true of all answers, and runs are interrupted as expected. -/
theorem Sound.runs (hA : A.Sound d) (hE : Excuses E) (hexhausted : E .exhausted) (depth : Nat) :
    A.Hold d (d.follow depth) E :=
  Document.follow_meets (fun _ _ _ => hexhausted) (fun _ hsteady h => Hold.step h hE hA hsteady)
    depth

/-- **Sound accounts are true of all answers.** -/
theorem Sound.run (hA : A.Sound d) (depth : Nat) : A.Hold d (d.follow depth) :=
  hA.runs (fun _ _ => trivial) trivial depth

/-- The node of a schema is made from answers of which sound accounts are true. -/
theorem Sound.built (hA : A.Sound d) {depth : Nat} {s t : Session} {schema : Schema}
    {location : String} {name : Option String} {spine : Bool} {n : Node}
    (hs : A.Ready d (.schema schema location name spine) s)
    (hn : d.follow depth (.schema schema location name spine) s = .ok n t) :
    ∀ kept, t.KeptBy kept →
      Built d (A.Tells d kept (openIn s.stack)) schema location name spine n := by
  cases depth with
  | zero =>
    have hexhausted : d.follow 0 (.schema schema location name spine) s = .error .exhausted s := rfl
    simp [hexhausted] at hn
  | succ depth =>
    exact (((hA.run depth).built (fun _ _ => trivial) (d.follow_steady depth) hs).of_ok hn).2

end Accounts

end ApiBinding
