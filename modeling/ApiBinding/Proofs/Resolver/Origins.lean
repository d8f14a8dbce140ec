import ApiBinding.Proofs.Resolver.Ledgers

/-!
# What resolving records

Resolving a schema makes one node for it at most, apart from the nodes for the schemas inside.  The
requests that it leads to go on into the schemas inside, or to pointers, and a pointer that is kept
or open is not expanded a second time, unless it is a fragment.  So every node that gets a model of
its own is recorded at the site where it is made, and no site has two of them that may not be
visited again.

## Main definitions

* `Schema.Makes`, `Document.MadeAt` — how the nodes of a ledger are made.
* `Tracks` — what a session and a ledger have in common.
* `Led` — what leads to a request.
* `Logging` — requests are confined to the schema that they are for.

## Main results

* `Logging.run` — **all requests of a run are confined**, so that every answer is recorded.
-/

namespace ApiBinding

open Resolution

/-! ### Nodes that are made -/

/-- The schema makes the node itself, from nodes that answer for the schemas inside during runs: the
node is built for the schema, which is not so for the body of a component, or it is the object among
several type names. -/
inductive Schema.Makes (d : Document) (s : Schema) (body : Prop) (n : Node) : Prop where
  | whole {location : String} {spine : Bool} (hbody : ¬ body) (hs : s.Own none spine)
      (h : Built d d.Arises s location none spine n)
  | listed (hform : s.form none false = .plain) (hobject : "object" ∈ s.typeNames)
      (hseveral : 1 < s.typeNames.length) (h : ObjectFrom d.Arises s n.shape)

/-- The site is that of the body of a component. -/
def Site.IsBody (σ : Site) : Prop := σ.steps = [] ∧ ∃ p c, σ.entry = .pointer p ∧ Pointer.Whole p c

/-- The node gets a model of its own, and the schema at the site makes it. -/
structure Document.MadeAt (config : Config) (d : Document) (σ : Site) (n : Node) : Prop where
  inline : n.Inline
  made : ∃ root s, d.Begins config σ.entry root ∧ root.descend? σ.steps = some s ∧
    s.Makes d σ.IsBody n

/-! ### Sessions -/

/-- The pointer was entered: it is open, or its node is kept. -/
def Session.Entered (s : Session) (p : String) : Prop :=
  openIn s.stack p ∨ (Table.get? s.cache p).isSome

/-- The kept nodes are recorded, and no site has two nodes that may not be visited again. -/
structure Charts (config : Config) (d : Document) (s : Session) (L : Ledger) : Prop where
  kept : (passageClaims d).Kept s
  recorded : ∀ p n, Table.get? s.cache p = some n → n.Recorded L
  made : ∀ x ∈ L, d.MadeAt config x.1 x.2
  once : ∀ x ∈ L, ∀ y ∈ L, x.1 = y.1 → x.2 = y.2 ∨ d.Redone config x.1

/-- Besides, only nodes for pointers that were entered are in the ledger. -/
structure Tracks (config : Config) (d : Document) (stack : List Frame) (s : Session) (L : Ledger) :
    Prop extends Charts config d s L where
  stack : s.stack = stack
  entered : ∀ x ∈ L, ∀ p, x.1.entry = .pointer p → s.Entered p

section Tracks

variable {config : Config} {d : Document} {stack : List Frame} {s t : Session} {L : Ledger}

theorem Charts.alike (h : Charts config d s L) (hst : s.Alike t) : Charts config d t L :=
  ⟨h.kept.alike hst, fun p n hn => h.recorded p n (by rwa [← hst.cache]), h.made, h.once⟩

theorem Tracks.alike (h : Tracks config d stack s L) (hst : s.Alike t) :
    Tracks config d stack t L where
  toCharts := h.toCharts.alike hst
  stack := hst.stack.trans h.stack
  entered x hx p hp := by
    rw [Session.Entered, hst.stack, hst.cache]
    exact h.entered x hx p hp

/-- A frame is pushed, but not for a component that is kept. -/
theorem Tracks.push {f : Frame} (h : Tracks config d stack s L)
    (hnone : ∀ c, Pointer.Whole f.pointer c → Table.get? s.cache f.pointer = none) :
    Tracks config d (f :: stack) { s with stack := f :: s.stack } L :=
  { h with
    kept := h.kept.push hnone
    stack := congrArg (f :: ·) h.stack
    entered := fun x hx p hp => (h.entered x hx p hp).imp_left fun hopened =>
      openIn_cons.2 (.inr hopened) }

/-- Without the topmost frame, only its pointer is no longer entered. -/
theorem Tracks.pop {f : Frame} (h : Tracks config d (f :: stack) t L) :
    Charts config d { t with stack } L ∧
      ∀ x ∈ L, ∀ p, x.1.entry = .pointer p →
        Session.Entered { t with stack } p ∨ p = f.pointer := by
  refine ⟨⟨h.kept.pop h.stack, h.recorded, h.made, h.once⟩, fun x hx p hp => ?_⟩
  rcases h.entered x hx p hp with hopened | hkept
  · rw [h.stack] at hopened
    exact (openIn_cons.1 hopened).symm.imp_left .inl
  · exact .inl (.inr hkept)

/-- A node is recorded at a site that is vacant. -/
theorem Tracks.record (h : Tracks config d stack s L) {σ : Site} {n : Node}
    (hn : d.MadeAt config σ n) (hopen : σ.entry.Open stack)
    (hvacant : L.Vacant config d (· = σ)) : Tracks config d stack s ((σ, n) :: L) where
  kept := h.kept
  recorded p m hm := (h.recorded p m hm).mono (List.subset_cons_self _ _)
  made := List.forall_mem_cons.2 ⟨hn, h.made⟩
  once x hx y hy hxy := by
    rcases List.mem_cons.1 hx with rfl | hx <;> rcases List.mem_cons.1 hy with rfl | hy
    · exact .inl rfl
    · exact .inr (hxy ▸ hvacant y hy hxy.symm)
    · exact .inr (hvacant x hx hxy)
    · exact h.once x hx y hy hxy
  stack := h.stack
  entered x hx p hp := by
    rcases List.mem_cons.1 hx with rfl | hx
    · rw [hp] at hopen
      exact .inl (h.stack ▸ hopen)
    · exact h.entered x hx p hp

/-- A node is kept for a pointer. -/
theorem Charts.remember (h : Charts config d s L) {p : String} {n : Node} (hn : n.Recorded L)
    (hcomponent : ∀ c, Pointer.Whole p c → (passageClaims d).component c n)
    (hno : ¬ openIn s.stack p) :
    Charts config d { s with cache := Table.insert s.cache p n } L where
  kept := h.kept.remember hcomponent hno
  recorded q m hm := by
    rw [Table.get?_insert] at hm
    split at hm
    · rw [Option.some.injEq] at hm
      exact hm ▸ hn
    · exact h.recorded q m hm
  made := h.made
  once := h.once

theorem Session.Entered.remember {p q : String} {n : Node} (h : s.Entered q ∨ q = p) :
    Session.Entered { s with cache := Table.insert s.cache p n } q := by
  rcases h with (h | h) | rfl
  · exact .inl h
  · refine .inr ?_
    rw [Table.get?_insert]
    split
    · rfl
    · exact h
  · exact .inr (by simp [Table.get?_insert])

/-- Once its node is kept, a pointer counts as entered. -/
theorem Charts.enter (h : Charts config d s L) (hstack : s.stack = stack) {p : String} {n : Node}
    (hn : n.Recorded L) (hcomponent : ∀ c, Pointer.Whole p c → (passageClaims d).component c n)
    (hno : ¬ openIn stack p)
    (hentered : ∀ x ∈ L, ∀ q, x.1.entry = .pointer q → s.Entered q ∨ q = p) :
    Tracks config d stack { s with cache := Table.insert s.cache p n } L where
  toCharts := h.remember hn hcomponent (hstack ▸ hno)
  stack := hstack
  entered x hx q hq := Session.Entered.remember (hentered x hx q hq)

/-- A pointer that was not entered has no nodes in the ledger. -/
theorem Tracks.vacant (h : Tracks config d stack s L) {p : String}
    (hnone : Table.get? s.cache p = none) (hno : ¬ openIn stack p) :
    L.Vacant config d fun σ => σ.entry = .pointer p := by
  intro x hx hσ
  rcases h.entered x hx p hσ with hopen | hkept
  · exact absurd (h.stack ▸ hopen) hno
  · simp [hnone] at hkept

end Tracks

/-! ### Requests -/

/-- The parts of components that are open are not always found in the nodes of the components. -/
def PartsDetached (d : Document) (stack : List Frame) : Prop :=
  ∀ q, openIn stack q → d.DetachedPart q

/-- What leads to a request: what it names is asked for, and what is open leads to it; what is
named as a fragment is so where something open leads. -/
structure Led (config : Config) (d : Document) (stack : List Frame) (r : Request) : Prop where
  asked : ∀ p composed, r.Names p composed → d.Asks config p
  parts : PartsDetached d stack
  reaching : Reaching d stack r
  composed : ∀ q, openIn stack q → ∀ p, r.Names p true →
    ∃ t, Relation.ReflTransGen d.Refers q t ∧ d.Inherits t p

section Led

variable {config : Config} {d : Document} {stack : List Frame}

theorem Led.leads {s : Schema} {location : String} {name : Option String} {spine : Bool}
    (h : Led config d stack (.schema s location name spine)) {r : Request}
    (hr : Leads s name spine r) : Led config d stack r where
  asked p composed hp := h.asked p composed (hr.names hp)
  parts := h.parts
  reaching := h.reaching.leads hr
  composed q hq p hp := h.composed q hq p (hr.names hp)

/-- A pointer that is asked for leads to what is mentioned by its target. -/
theorem Led.expand {p location : String} {target : Target} {link fresh : Bool}
    (hp : d.Asks config p) (hparts : PartsDetached d stack) (hpart : d.DetachedPart p)
    (hopen : ∀ q, openIn stack q → Relation.TransGen d.Refers q p)
    (ht : d.target p location = .ok target) :
    Led config d (⟨p, link, fresh⟩ :: stack) (.schema target.schema p
      (if target.isComponent then some target.component else none) true) where
  asked q composed hq := by
    rw [Document.target_name ht] at hq
    exact hp.refers (.mention (Document.target_eq_ok_iff.1 ht).2 hq)
  parts q hq := by
    rcases openIn_cons.1 hq with rfl | hq
    · exact hpart
    · exact hparts q hq
  reaching := Reaching.expand hopen ht
  composed q hq p' hp' := by
    rw [Document.target_name ht] at hp'
    refine ⟨p, ?_, target.schema, (Document.target_eq_ok_iff.1 ht).2, hp'⟩
    rcases openIn_cons.1 hq with rfl | hq
    · exact .refl
    · exact (hopen q hq).to_reflTransGen

/-- What leads to a part leads to its component. -/
theorem Led.root {p location : String} {target : Target} {link : Bool} (hp : d.Asks config p)
    (hparts : PartsDetached d stack) (hopen : ∀ q, openIn stack q → Relation.TransGen d.Refers q p)
    (ht : d.target p location = .ok target) (hc : ¬ target.isComponent) :
    Led config d stack (.reference (Pointer.component target.component) location link) where
  asked q composed hq := by
    obtain ⟨rfl, -⟩ := hq
    have htokens := (Document.target_eq_ok_iff.1 ht).1
    cases hs : target.steps with
    | nil => simp [Target.isComponent, hs] at hc
    | cons step rest => exact hp.refers (.root (hs ▸ htokens))
  parts := hparts
  reaching := Reaching.root hopen ht hc
  composed q _ p' hp' := by simp [Request.Names] at hp'

end Led

/-- The region of a request: the sites of the schema that it is for. -/
inductive Located (config : Config) (d : Document) (stack : List Frame) :
    (Site → Prop) → Request → Prop where
  | reference {p location : String} {link : Bool} :
      Located config d stack (fun _ => False) (.reference p location link)
  | fragment {p location : String} {spine : Bool} :
      Located config d stack (fun _ => False) (.fragment p location spine)
  | schema {e : Entry} {base : List Step} {root s : Schema} {location : String}
      {name : Option String} {spine : Bool} (he : e.Open stack) (hroot : d.Begins config e root)
      (hs : root.descend? base = some s)
      (hname : Site.IsBody ⟨e, base⟩ → name.isSome) :
      Located config d stack (Site.Under e base fun _ => True) (.schema s location name spine)

/-- The answers to requests are recorded, and nodes are made only where the requests are
located. -/
def Logging (config : Config) (d : Document) (follow : Follow) : Prop :=
  ∀ stack R r, Led config d stack r → Located config d stack R r →
    Logs config d (Tracks config d stack) stack [] R (follow r) fun n => [n]

/-! ### Pointers -/

section Pointers

variable {config : Config} {d : Document} {follow : Follow} {stack : List Frame} {s : Session}
  {L : Ledger} {p location : String} {target : Target} {link : Bool}

/-- The steps into the component are the tokens of the pointer. -/
theorem Document.target_tokens (ht : d.target p location = .ok target) :
    Pointer.tokens? p = some (target.component, target.steps) :=
  (Document.target_eq_ok_iff.1 ht).1

theorem Target.not_whole (ht : d.target p location = .ok target) (hc : ¬ target.isComponent)
    (c : String) : ¬ Pointer.Whole p c := fun hp =>
  absurd (Document.target_whole ht hp).2.1 hc

/-- The component of a target is there. -/
theorem Document.exists_schema_of_target (ht : d.target p location = .ok target) :
    ∃ body, d.schema? target.component = some body := by
  have haddressed := (Document.target_eq_ok_iff.1 ht).2
  rw [Document.addressed?, Document.target_tokens ht, Option.bind_some] at haddressed
  obtain ⟨body, hbody, -⟩ := Option.bind_eq_some_iff.1 haddressed
  exact ⟨body, hbody⟩

/-- A part is not always found in the node of its component if the component leads to it, or does
not carry the steps. -/
theorem Document.detachedPart (ht : d.target p location = .ok target)
    (h : ¬ target.isComponent → d.Detached p target.component target.steps) : d.DetachedPart p := by
  intro c token tokens hp
  rw [Document.target_tokens ht, Option.some.injEq, Prod.mk.injEq] at hp
  obtain ⟨rfl, hsteps⟩ := hp
  exact hsteps ▸ h (by simp [Target.isComponent, hsteps])

/-- The pointer for a part stands for the part. -/
theorem Document.redone_part (ht : d.target p location = .ok target) (hc : ¬ target.isComponent)
    {σ : Site} (hσ : σ.entry = .pointer p) : d.Redone config σ := by
  obtain ⟨e, steps⟩ := σ
  obtain rfl : e = .pointer p := hσ
  have htokens := Document.target_tokens ht
  cases hsteps : target.steps with
  | nil => simp [Target.isComponent, hsteps] at hc
  | cons token tokens => exact .part (hsteps ▸ htokens)

/-- What is expanded is located at the sites of the pointer. -/
theorem Located.expand {fresh : Bool} (ht : d.target p location = .ok target)
    (hp : d.Asks config p) (hpart : d.DetachedPart p) :
    Located config d (⟨p, link, fresh⟩ :: stack) (Site.Under (.pointer p) [] fun _ => True)
      (.schema target.schema p (if target.isComponent then some target.component else none)
        true) := by
  refine .schema (openIn_cons.2 (.inl rfl))
    (.pointer (Document.target_eq_ok_iff.1 ht).2 hp hpart) rfl ?_
  rintro ⟨-, q, c, hq, hwhole⟩
  rw [Entry.pointer.injEq] at hq
  subst hq
  rw [if_pos (Document.target_whole ht hwhole).2.1]
  rfl

/-- What is expanded is recorded at its own sites.  Either these have no node yet, or they may be
visited again; the pointer itself counts as entered. -/
theorem Logging.expand (h : Logging config d follow)
    (hhold : (passageClaims d).accounts.Hold d follow) (hsteady : Steady follow) {fresh : Bool}
    (ht : d.target p location = .ok target)
    (hs : Tracks config d stack s L) (hp : d.Asks config p)
    (hopen : ∀ q, openIn stack q → Relation.TransGen d.Refers q p)
    (hnone : ∀ c, Pointer.Whole p c → Table.get? s.cache p = none)
    (hparts : PartsDetached d stack) (hpart : d.DetachedPart p)
    (hvacant : L.Vacant config d fun σ => σ.entry = .pointer p)
    (hclosed : ∀ σ : Site, σ.entry = .pointer p → ¬ openIn stack p ∨ d.Redone config σ) :
    Ends (Follow.expand follow p target link fresh) s
      (fun n u => ∃ L', Charts config d u L' ∧ u.stack = stack ∧
        (∀ x ∈ L', ∀ q, x.1.entry = .pointer q → u.Entered q ∨ q = p) ∧
        L.Grows config d stack (fun _ => False) L' ∧ n.Recorded L' ∧
        ∀ c, Pointer.Whole p c → (passageClaims d).component c n) fun _ _ => True := by
  have hstack := hs.stack
  subst hstack
  have hrun := h _ _ _ (Led.expand hp hparts hpart hopen ht) (.expand ht hp hpart) _ L
    (hs.push (f := ⟨p, link, fresh⟩) hnone) (by simp) (hvacant.mono fun σ hσ => hσ.1)
  have hnote : Ends (Follow.expand follow p target link fresh) s (fun n u => ∃ L',
      Charts config d u L' ∧ u.stack = s.stack ∧
        (∀ x ∈ L', ∀ q, x.1.entry = .pointer q → u.Entered q ∨ q = p) ∧
        L.Grows config d s.stack (fun _ => False) L' ∧ n.Recorded L') fun _ _ => True := by
    refine Follow.expand_ends
      (hrun.mono (fun n t ⟨L', htracks, hgrows, hn⟩ => ?_) fun _ _ _ => trivial)
    obtain ⟨hcharts, hentered⟩ := htracks.pop
    refine ⟨L', hcharts, rfl, hentered, hgrows.pop fun σ hσ => ?_, hn n (by simp)⟩
    exact (hclosed σ hσ.1).imp_left fun hno hopened => hno (by rwa [hσ.1] at hopened)
  have hclaims : Ends (Follow.expand follow p target link fresh) s _ fun _ _ => True :=
    hhold.expand (passageClaims_sound d).accounts hsteady ht (Claims.accounts_kept.2 hs.kept)
      (fun q hq => hq.elim) hnone hopen
  refine (hnote.and hclaims).mono
    (fun n u ⟨⟨L', hu, hstack, hentered, hgrows, hn⟩, hclaim⟩ => ?_) fun _ _ _ => trivial
  exact ⟨L', hu, hstack, hentered, hgrows, hn, (hclaim.2.2.2 u.cache (.self u)).1⟩

/-- A pointer that is entered is recorded and kept. -/
theorem Logging.enter (h : Logging config d follow)
    (hhold : (passageClaims d).accounts.Hold d follow) (hsteady : Steady follow)
    (ht : d.target p location = .ok target)
    (hs : Tracks config d stack s L) (hp : d.Asks config p) (hparts : PartsDetached d stack)
    (hopen : ∀ q, openIn stack q → Relation.TransGen d.Refers q p)
    (hnone : Table.get? s.cache p = none) (hno : ¬ openIn stack p) :
    Ends (Follow.enter follow p location target link) s
      (fun n u => ∃ L', Tracks config d stack u L' ∧
        L.Grows config d stack (fun _ => False) L' ∧ n.Recorded L') fun _ _ => True := by
  have hexpand : ∀ t L₁, Tracks config d stack t L₁ → L.Grows config d stack (fun _ => False) L₁ →
      (∀ c, Pointer.Whole p c → Table.get? t.cache p = none) →
      d.DetachedPart p →
      L₁.Vacant config d (fun σ => σ.entry = .pointer p) →
      Ends (Follow.expand follow p target link false) t (fun n u => ∃ L',
        Tracks config d stack { u with cache := Table.insert u.cache p n } L' ∧
          L.Grows config d stack (fun _ => False) L' ∧ n.Recorded L') fun _ _ => True := by
    intro t L₁ htracks hgrows hnone' hpart hvacant
    refine (h.expand hhold hsteady ht htracks hp hopen hnone' hparts hpart hvacant
      fun _ _ => .inl hno).mono_ok fun n u hexpanded => ?_
    obtain ⟨L', hcharts, hstack, hentered, hgrows', hn, hc⟩ := hexpanded
    exact ⟨L', hcharts.enter hstack hn hc hno hentered, hgrows.trans hgrows', hn⟩
  refine Follow.enter_ends (fun t hcase hts => ?_) fun hc hroot => ?_
  · -- The component itself, or a part whose component is open and so leads to it.
    subst hts
    refine hexpand t L hs (.refl L) (fun _ _ => hnone) (Document.detachedPart ht fun hc => ?_)
      (hs.vacant hnone hno)
    exact .inl (hopen _ (hs.stack ▸ Session.inProgress_iff.1 (hcase.resolve_left hc)))
  · have hwhole := Target.not_whole ht hc
    have hled : Led config d stack
        (.reference (Pointer.component target.component) location false) :=
      Led.root hp hparts hopen ht hc
    have hnote := h stack _ _ hled .reference s L hs (by simp) fun _ _ hσ => hσ.elim
    have hclaims := hhold (.reference (Pointer.component target.component) location false) s
      ⟨Claims.accounts_kept.2 hs.kept, fun q hq => hq.elim, hs.stack ▸ hled.reaching⟩
    refine (hnote.and hclaims).mono (fun root t hfound => ?_) fun _ _ _ => trivial
    obtain ⟨⟨L₁, htracks, hgrows, hroot'⟩, -, hholds⟩ := hfound
    refine ⟨fun n hn => ?_, fun hn => ?_⟩
    · have hinside := (hroot' root (by simp)).inside (Node.at?_inside hn)
      exact ⟨L₁, htracks.toCharts.enter htracks.stack hinside (fun c hc => absurd hc (hwhole c)) hno
        fun x hx q hq => .inl (htracks.entered x hx q hq), hgrows, hinside⟩
    · -- The part is not found in the node of the component, which is not open.
      have hmissing : d.Detached p target.component target.steps := by
        obtain ⟨body, hbody⟩ := Document.exists_schema_of_target ht
        refine .inr ⟨body, hbody, fun hcarries => ?_⟩
        rcases (hholds t.cache (.self t)).answer.2 _ (Pointer.whole_component _) with
          ⟨hcomponent, -⟩ | ⟨-, hopened⟩
        · simpa [hn] using hcomponent body _ hbody hcarries
        · exact absurd (Session.inProgress_iff.2 hopened) hroot
      exact hexpand t L₁ htracks hgrows (fun c hc => absurd hc (hwhole c))
        (Document.detachedPart ht fun _ => hmissing)
        fun x _ hσ => Document.redone_part ht hc hσ

/-- Plain references are recorded. -/
theorem Logging.reference (h : Logging config d follow)
    (hhold : (passageClaims d).accounts.Hold d follow) (hsteady : Steady follow)
    (hs : Tracks config d stack s L) (hp : d.Asks config p)
    (hparts : PartsDetached d stack)
    (hopen : ∀ q, openIn stack q → Relation.TransGen d.Refers q p) :
    Ends (Follow.reference follow d p location link) s
      (fun n u => ∃ L', Tracks config d stack u L' ∧
        L.Grows config d stack (fun _ => False) L' ∧ n.Recorded L') fun _ _ => True := by
  refine Follow.reference_ends (fun _ _ => trivial)
    (fun n hn => ⟨L, hs, .refl L, hs.recorded p n hn⟩) (fun target _ _ _ => ?_)
    (fun _ _ _ _ => trivial) fun target ht hnone hno => ?_
  · exact ⟨L, hs.alike issue_alike, .refl L, Node.recorded_of_parts rfl (by simp [Shape.parts])⟩
  · rw [Session.inProgress_iff, hs.stack] at hno
    exact h.enter hhold hsteady ht hs hp hparts hopen hnone hno

/-- Fragments are recorded: an open pointer that is expanded once more leads to a composition of
itself. -/
theorem Logging.fragment (h : Logging config d follow)
    (hhold : (passageClaims d).accounts.Hold d follow) (hsteady : Steady follow) {spine : Bool}
    (hs : Tracks config d stack s L)
    (hled : Led config d stack (.fragment p location spine)) :
    Ends (Follow.fragment follow d p location spine) s
      (fun n u => ∃ L', Tracks config d stack u L' ∧
        L.Grows config d stack (fun _ => False) L' ∧ n.Recorded L') fun _ _ => True := by
  have hp := hled.asked p true ⟨rfl, rfl⟩
  have hopen := fun q hq => hled.reaching q hq p true ⟨rfl, rfl⟩
  refine Follow.fragment_ends (fun _ _ => trivial) (fun _ _ => trivial) (fun _ _ => trivial)
    (fun target ht _ hprogress _ => ?_) fun _ _ => h.reference hhold hsteady hs hp hled.parts hopen
  rw [Session.inProgress_iff, hs.stack] at hprogress
  have hinherited : d.Inherited p := hled.composed p hprogress p ⟨rfl, rfl⟩
  have hredone : ∀ σ : Site, σ.entry = .pointer p → d.Redone config σ := by
    rintro ⟨e, steps⟩ rfl
    exact .inherited hinherited
  have hnone : ∀ c, Pointer.Whole p c → Table.get? s.cache p = none := by
    intro c hc
    by_contra hsome
    obtain ⟨n, hn⟩ := Option.ne_none_iff_exists'.1 hsome
    exact (hs.kept p c n hc hn).2 (hs.stack ▸ hprogress)
  refine (h.expand hhold hsteady ht hs hp hopen hnone hled.parts (hled.parts p hprogress)
    (fun x _ hσ => hredone _ hσ) fun σ hσ => .inr (hredone σ hσ)).mono_ok
    fun n u ⟨L', hcharts, hstack, hentered, hgrows, hn, _⟩ => ?_
  refine ⟨L', { hcharts with stack := hstack, entered := fun x hx q hq => ?_ }, hgrows, hn⟩
  exact (hentered x hx q hq).elim id fun hq => .inl (hstack ▸ hq ▸ hprogress)

end Pointers

end ApiBinding
