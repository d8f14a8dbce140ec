import ApiBinding.Proofs.Resolver.Accounts
import ApiBinding.Proofs.Resolver.Inquiries

/-!
# Calls one after the other

One session serves many calls.  A call that fails leaves what it has done until then, and the next
one goes on from there.  No call replaces a node that is kept when it starts, and none keeps a node
for a pointer that is open when it starts; both also hold of the requests inside a call.

A request that is made during a call is reached on a route: the request that starts the call makes
one, this one makes the next, and so on.

## Main definitions

* `Query.leaves`, `Document.Continues` — the session after a call, and after any number of calls.
* `Session.Preserves` — what is kept stays, and what is open and not kept is not kept later.
* `Document.Route` — how a run gets to a request.

## Main results

* `Makes.of_reference`, `Makes.of_fragment` — the requests that references and fragments lead to.
* `Document.follow_preserves`, `Document.Continues.kept` — **no call replaces a node that is kept.**
* `Document.Route.preserves` — nor does what happens on the way to a request.
* `Document.Route.moment`, `Document.Moment.exists_route` — the requests of a run are those that
  routes lead to.
-/

namespace ApiBinding

open Resolution

/-! ### Calls -/

/-- The session that a call leaves, with or without a result. -/
def Query.leaves (query : Query) (d : Document) (s : Session) : Session :=
  match query.work d s with
  | .ok _ t => t
  | .error _ t => t

theorem Query.leaves_of_ends {d : Document} {query : Query} {s : Session} {P : Session → Prop}
    (h : Ends (query.work d) s (fun _ t => P t) fun _ t => P t) : P (query.leaves d s) := by
  unfold Ends at h
  unfold Query.leaves
  split <;> simp_all

/-- The sessions that calls lead to from a session, whether they succeed or fail; in between,
findings are added. -/
inductive Document.Continues (d : Document) (s : Session) : Session → Prop where
  | refl : Continues d s s
  | call {t : Session} (query : Query) (h : Continues d s t) : Continues d s (query.leaves d t)
  | noted {t : Session} (findings : List Diagnostic) (h : Continues d s t) :
      Continues d s { t with diagnostics := findings }

/-- A session that calls lead to has no open pointers. -/
theorem Document.Continues.stack {d : Document} {s t : Session} (h : d.Continues s t) :
    t.stack = s.stack := by
  induction h with
  | refl => rfl
  | @call t query _ ih =>
    have hends := (query.ends d t).mono (fun _ _ h => h) fun _ _ h => h.2
    exact (Query.leaves_of_ends hends).trans ih
  | noted _ _ ih => exact ih

/-! ### What calls preserve -/

/-- What is kept stays, a pointer that is open and not kept is not kept later, and what is open
stays open. -/
structure Session.Preserves (s t : Session) : Prop where
  kept : ∀ p n, Table.get? s.cache p = some n → Table.get? t.cache p = some n
  barred : ∀ p, s.inProgress p → Table.get? s.cache p = none → Table.get? t.cache p = none
  opened : ∀ p, s.inProgress p → t.inProgress p

namespace Session.Preserves

variable {s t u : Session}

theorem refl (s : Session) : s.Preserves s := ⟨fun _ _ h => h, fun _ _ h => h, fun _ h => h⟩

theorem trans (h : s.Preserves t) (h' : t.Preserves u) : s.Preserves u where
  kept p n hn := h'.kept p n (h.kept p n hn)
  barred p hp hn := h'.barred p (h.opened p hp) (h.barred p hp hn)
  opened p hp := h'.opened p (h.opened p hp)

theorem of_alike (h : s.Alike t) : s.Preserves t where
  kept p n hn := by rwa [h.cache]
  barred p _ hn := by rwa [h.cache]
  opened p hp := by rwa [Session.inProgress_congr h.stack]

theorem push (s : Session) (frame : Frame) :
    s.Preserves { s with stack := frame :: s.stack } where
  kept _ _ hn := hn
  barred _ _ hn := hn
  opened p hp := by
    rw [Session.inProgress_iff] at hp ⊢
    exact openIn_cons.2 (.inr hp)

/-- The frames are as before when work inside a frame is done. -/
theorem pop (h : s.Preserves t) (h' : s.Preserves u) : s.Preserves { u with stack := t.stack } where
  kept := h'.kept
  barred := h'.barred
  opened p hp := h.opened p hp

/-- Keeping a node preserves what was there before, if the pointer was neither kept nor open. -/
theorem remember (h : s.Preserves t) {p : String} (hnone : Table.get? s.cache p = none)
    (hno : ¬ s.inProgress p) (n : Node) :
    s.Preserves { t with cache := Table.insert t.cache p n } where
  kept q m hm := by
    have hne : p ≠ q := by
      rintro rfl
      simp [hnone] at hm
    rw [Table.get?_insert, if_neg hne]
    exact h.kept q m hm
  barred q hq hn := by
    have hne : p ≠ q := by
      rintro rfl
      exact hno hq
    rw [Table.get?_insert, if_neg hne]
    exact h.barred q hq hn
  opened := h.opened

end Session.Preserves

theorem bracketed_preserves (s : Session) : Bracketed s.Preserves s.Preserves where
  alike h hst := h.trans (.of_alike hst)
  fault h := h
  push frame h := h.trans (.push _ frame)
  pop h h' := h.pop h'
  popFault h h' := h.pop h'

section Steps

variable {d : Document} {follow : Follow} {s t : Session}

/-- Answers preserve what is kept, and what is not. -/
def Preserving (follow : Follow) : Prop :=
  ∀ r s, Ends (follow r) s (fun _ t => s.Preserves t) fun _ t => s.Preserves t

theorem Preserving.expand (h : Preserving follow) {p : String} {target : Target}
    {link fresh : Bool} (hst : s.Preserves t) :
    Ends (Follow.expand follow p target link fresh) t (fun _ u => s.Preserves u)
      fun _ u => s.Preserves u := by
  refine Follow.expand_ends ((h _ _).mono (fun _ u hu => ?_) fun _ u hu => ?_)
  · exact hst.pop (hst.trans ((Session.Preserves.push t _).trans hu))
  · exact hst.pop (hst.trans ((Session.Preserves.push t _).trans hu))

theorem Preserving.reference (h : Preserving follow) {p location : String} {link : Bool} :
    Ends (Follow.reference follow d p location link) s (fun _ t => s.Preserves t)
      fun _ t => s.Preserves t := by
  refine Follow.reference_ends (fun _ _ => .refl s) (fun _ _ => .refl s)
    (fun _ _ _ _ => .of_alike issue_alike) (fun _ _ _ _ => .refl s) fun target _ hnone hno => ?_
  refine Follow.enter_ends (fun t _ hts => ?_) fun _ _ => ?_
  · subst hts
    exact (h.expand (.refl _)).mono_ok fun n u hu => hu.remember hnone hno n
  · refine (h _ s).mono_ok fun root t ht => ⟨fun n _ => ht.remember hnone hno n, fun _ => ?_⟩
    exact (h.expand ht).mono_ok fun n u hu => hu.remember hnone hno n

theorem Preserving.step (h : Preserving follow) : Preserving (Follow.step follow d) := by
  intro r s
  cases r with
  | reference p location link => exact h.reference
  | fragment p location spine =>
    exact Follow.fragment_ends (fun _ _ => .refl s) (fun _ _ => .refl s) (fun _ _ => .refl s)
      (fun _ _ _ _ _ => h.expand (.refl s)) fun _ _ => h.reference
  | schema schema location name spine =>
    have hinquiry : Inquiry (fun _ => False) fun follow =>
        Follow.schema follow d schema location name spine := Follow.schema_inquiry _ _ _ _
    refine hinquiry.ends (bracketed_preserves s) (fun _ _ _ hno => hno.elim) (fun q t _ ht => ?_)
      (.refl s)
    exact (h q t).mono (fun _ _ hu => ht.trans hu) fun _ _ hu => ht.trans hu

/-- **Runs preserve what is kept, and what is not**, however they end. -/
theorem Document.follow_preserves (d : Document) : ∀ depth, Preserving (d.follow depth)
  | 0, _, s => Session.Preserves.refl s
  | depth + 1, r, s => (d.follow_preserves depth).step r s

/-- **No call replaces a node that is kept**, whether it succeeds or fails. -/
theorem Document.Continues.kept (h : d.Continues s t) {p : String} {n : Node}
    (hn : Table.get? s.cache p = some n) : Table.get? t.cache p = some n := by
  induction h with
  | refl => exact hn
  | @call t query _ ih =>
    have hends : Ends (query.work d) t (fun _ u => t.Preserves u) fun _ u => t.Preserves u := by
      rw [Query.work_eq]
      exact d.follow_preserves _ query.request t
    exact (Query.leaves_of_ends hends).kept p n ih
  | noted _ _ ih => exact ih

end Steps

/-! ### The requests that references lead to -/

section Making

variable {α : Type} {d : Document} {follow : Follow} {s t : Session} {q : Request}
  {p location : String}

/-- The request for the body of what is expanded. -/
def Target.bodyRequest (target : Target) (pointer : String) : Request :=
  .schema target.schema pointer (if target.isComponent then some target.component else none) true

/-- The request for the node of the component that a part belongs to. -/
def Target.rootRequest (target : Target) (location : String) : Request :=
  .reference (Pointer.component target.component) location false

/-- What work comes to that starts with a target, the rest comes to. -/
theorem ComesTo.of_target {f : Target → Follow → Resolution Node}
    (h : ComesTo (fun answer => ofExcept (d.target p location) >>= fun target => f target answer)
      follow s q t) :
    ∃ target, d.target p location = .ok target ∧ ComesTo (f target) follow s q t := by
  cases htarget : d.target p location with
  | error cause =>
    rw [htarget] at h
    exact (h.not_independent fun _ _ => rfl).elim
  | ok target =>
    rw [htarget] at h
    exact ⟨target, rfl, h⟩

/-- What work comes to that starts by looking at the session, the rest comes to. -/
theorem ComesTo.of_get {f : Session → Follow → Resolution Node}
    (h : ComesTo (fun answer => get >>= fun u => f u answer) follow s q t) :
    ComesTo (f s) follow s q t := h

/-- Expanding leads to the body, in a frame of its own. -/
theorem ComesTo.of_expand {target : Target} {link fresh : Bool}
    (h : ComesTo (fun answer => Follow.expand answer p target link fresh) follow s q t) :
    q = target.bodyRequest p ∧ t = { s with stack := ⟨p, link, fresh⟩ :: s.stack } := by
  have hask : Inquiry (fun _ => False) fun answer : Follow => answer (target.bodyRequest p) :=
    .ask _
  have hbody := hask.comesTo_within h
  by_contra hne
  exact hbody.not_independent fun answer hothers =>
    hothers _ _ fun heq => hne ⟨heq.1.symm, heq.2.symm⟩

/-- Only the component of a part is asked for, and only if it is not open. -/
theorem Follow.partOf_eq (follow : Follow) (target : Target) (location : String) (s : Session) :
    Follow.partOf follow target location s =
      if target.isComponent ∨ s.inProgress (Pointer.component target.component) then .ok none s
      else (follow (target.rootRequest location) >>= fun root =>
        Pure.pure (root.at? target.steps)) s := by
  unfold Follow.partOf
  by_cases hc : target.isComponent
  · simp only [hc, if_true, true_or]
    rfl
  · simp only [hc, if_false, false_or, Bool.false_eq_true]
    change (if s.inProgress (Pointer.component target.component) then _ else _ : Resolution _) s = _
    split <;> rfl

/-- What looking for a part leads to: its component. -/
theorem ComesTo.of_partOf {target : Target}
    (h : ComesTo (fun answer => Follow.partOf answer target location) follow s q t) :
    ¬ (target.isComponent ∨ s.inProgress (Pointer.component target.component)) ∧
      q = target.rootRequest location ∧ t = s := by
  by_cases hdirect : target.isComponent ∨ s.inProgress (Pointer.component target.component)
  · refine (h.not_independent fun answer _ => ?_).elim
    rw [Follow.partOf_eq, Follow.partOf_eq, if_pos hdirect, if_pos hdirect]
  · refine ⟨hdirect, ?_⟩
    by_contra hne
    refine h.not_independent fun answer hothers => ?_
    rw [Follow.partOf_eq, Follow.partOf_eq, if_neg hdirect, if_neg hdirect]
    exact bind_congr_run (hothers _ s fun heq => hne ⟨heq.1.symm, heq.2.symm⟩)

/-- What entering a pointer leads to: the component of a part, if that is not open, or else the body
of what the pointer addresses; the body also comes after the component if the node of that does not
contain the part. -/
theorem ComesTo.of_entered {target : Target} {link : Bool}
    (h : ComesTo (fun answer => Follow.entered answer p location target link) follow s q t) :
    (¬ (target.isComponent ∨ s.inProgress (Pointer.component target.component)) ∧
        q = target.rootRequest location ∧ t = s) ∨
      ∃ u, q = target.bodyRequest p ∧ t = { u with stack := ⟨p, link, false⟩ :: u.stack } ∧
        (u = s ∨ ¬ (target.isComponent ∨ s.inProgress (Pointer.component target.component)) ∧
            ∃ root, follow (target.rootRequest location) s = .ok root u) := by
  have hpart : Inquiry (fun _ => False) fun follow => Follow.partOf follow target location :=
    Follow.partOf_inquiry target location
  rcases hpart.comesTo_bind_cases h with h | ⟨found, u, hrun, h⟩
  · exact .inl h.of_partOf
  · cases found with
    | some n => exact (h.not_independent fun _ _ => rfl).elim
    | none =>
      obtain ⟨hq, ht⟩ := h.of_expand
      refine .inr ⟨u, hq, ht, ?_⟩
      rw [Follow.partOf_eq] at hrun
      split at hrun
      · exact .inl (EStateM.Result.ok.inj hrun).2.symm
      · rename_i hdirect
        obtain ⟨root, v, hroot, hpure⟩ := exists_of_bind hrun
        obtain rfl : v = u := (EStateM.Result.ok.inj hpure).2
        exact .inr ⟨hdirect, root, hroot⟩

theorem ComesTo.of_enter {target : Target} {link : Bool}
    (h : ComesTo (fun answer => Follow.enter answer p location target link) follow s q t) :
    ComesTo (fun answer => Follow.entered answer p location target link) follow s q t := by
  simp only [Follow.enter_eq_entered] at h
  have hentered : Inquiry (fun _ => False) fun follow =>
      Follow.entered follow p location target link := Follow.entered_inquiry p location target link
  rcases hentered.comesTo_bind_cases h with h | ⟨n, u, -, h⟩
  · exact h
  · exact (h.not_independent fun _ _ => rfl).elim

/-- **What a plain reference leads to**, if its pointer is neither kept nor open: the component of a
part, if that is not open, or else the body of what the pointer addresses; the body also comes after
the component if the node of that does not contain the part. -/
theorem Makes.of_reference {link : Bool} (h : Makes d follow (.reference p location link) s q t) :
    Table.get? s.cache p = none ∧ ¬ s.inProgress p ∧ ∃ target,
      d.target p location = .ok target ∧
      ((¬ (target.isComponent ∨ s.inProgress (Pointer.component target.component)) ∧
          q = target.rootRequest location ∧ t = s) ∨
        ∃ u, q = target.bodyRequest p ∧ t = { u with stack := ⟨p, link, false⟩ :: u.stack } ∧
          (u = s ∨ ¬ (target.isComponent ∨ s.inProgress (Pointer.component target.component)) ∧
              ∃ root, follow (target.rootRequest location) s = .ok root u)) := by
  obtain ⟨target, htarget, h⟩ := ComesTo.of_target h.comesTo
  replace h := h.of_get
  cases hcache : Table.get? s.cache p with
  | some n =>
    simp only [hcache] at h
    exact (h.not_independent fun _ _ => rfl).elim
  | none =>
    simp only [hcache] at h
    by_cases hp : s.inProgress p
    · simp only [hp, if_true] at h
      exact (h.not_independent fun _ _ => rfl).elim
    · simp only [hp, if_false, Bool.false_eq_true] at h
      exact ⟨rfl, hp, target, htarget, h.of_enter.of_entered⟩

/-- The pointers that the composition at hand passes through are open. -/
theorem mem_of_mem_linkedPointers :
    ∀ {stack : List Frame}, p ∈ Session.linkedPointers stack → ∃ f ∈ stack, f.pointer = p
  | [], h => by simp [Session.linkedPointers] at h
  | f :: rest, h => by
    unfold Session.linkedPointers at h
    rcases List.mem_cons.1 h with rfl | h
    · exact ⟨f, .head _, rfl⟩
    · split at h
      · obtain ⟨g, hg, hp⟩ := mem_of_mem_linkedPointers h
        exact ⟨g, .tail _ hg, hp⟩
      · simp at h

/-- A fragment whose pointer is not open is a plain reference. -/
theorem Follow.fragment_eq (follow : Follow) (d : Document) (location : String) (spine : Bool)
    (hno : ¬ s.inProgress p) :
    Follow.fragment follow d p location spine s = Follow.reference follow d p location spine s := by
  have hchain : ¬ (spine && s.compositionChain.contains p) = true := by
    intro h
    rw [Bool.and_eq_true, List.contains_iff_mem] at h
    exact hno (Session.inProgress_iff.2 (mem_of_mem_linkedPointers h.2))
  unfold Follow.fragment
  cases htarget : d.target p location with
  | error cause =>
    unfold Follow.reference
    rw [htarget]
    rfl
  | ok target =>
    change (if (spine && s.compositionChain.contains p) = true then _ else _ : Resolution _) s = _
    rw [if_neg hchain, if_neg hno]

/-- What a fragment leads to, if its pointer is open: the body once more, in a fresh frame. -/
theorem Makes.of_fragment {spine : Bool} (h : Makes d follow (.fragment p location spine) s q t)
    (hp : s.inProgress p) :
    ∃ target, d.target p location = .ok target ∧ ¬ s.inFreshProgress p ∧
      (spine → p ∉ s.compositionChain) ∧ q = target.bodyRequest p ∧
        t = { s with stack := ⟨p, spine, true⟩ :: s.stack } := by
  obtain ⟨target, htarget, h⟩ := ComesTo.of_target h.comesTo
  replace h := h.of_get
  by_cases hchain : (spine && s.compositionChain.contains p) = true
  · simp only [hchain, if_true] at h
    exact (h.not_independent fun _ _ => rfl).elim
  · simp only [hchain, if_false, Bool.false_eq_true] at h
    by_cases hfresh : s.inFreshProgress p
    · simp only [hp, hfresh, if_true] at h
      exact (h.not_independent fun _ _ => rfl).elim
    · simp only [hp, hfresh, if_true, if_false, Bool.false_eq_true] at h
      refine ⟨target, htarget, hfresh, fun hspine hmem => hchain ?_, h.of_expand⟩
      rw [Bool.and_eq_true, List.contains_iff_mem]
      exact ⟨hspine, hmem⟩

/-- If the pointer is not open, a fragment makes the requests of a plain reference. -/
theorem makes_fragment_iff {spine : Bool} (hno : ¬ s.inProgress p) :
    Makes d follow (.fragment p location spine) s q t ↔
      Makes d follow (.reference p location spine) s q t := by
  unfold Makes Follow.step
  simp only [Follow.fragment_eq _ d location spine hno]

/-- A step makes the requests of work that it does not get past. -/
theorem ComesTo.makes {x : Follow → Resolution α} {r : Request} (h : ComesTo x follow s q t)
    (hstep : ∀ (answer : Follow) (e : Interruption),
      Ends (x answer) s (fun _ _ => False) (fun e' _ => e' = e) →
      Ends (Follow.step answer d r) s (fun _ _ => False) fun e' _ => e' = e) :
    Makes d follow r s q t := by
  intro answer e hq hothers
  obtain ⟨u, hu⟩ := h answer e hq hothers
  have hends := hstep answer e ((ends_of_error hu).2 rfl)
  unfold Ends at hends
  split at hends
  · exact hends.elim
  · rename_i hrun
    exact ⟨_, hends ▸ hrun⟩

/-- A plain reference makes the requests that entering its pointer leads to, if the pointer is
neither kept nor open. -/
theorem makes_entered {link : Bool} {target : Target} (htarget : d.target p location = .ok target)
    (hnone : Table.get? s.cache p = none) (hno : ¬ s.inProgress p)
    (h : ComesTo (fun answer => Follow.entered answer p location target link) follow s q t) :
    Makes d follow (.reference p location link) s q t := by
  refine h.makes fun answer e hends => ?_
  refine Follow.reference_ends (fun cause hcause => by simp [htarget] at hcause)
    (fun n hn => by simp [hnone] at hn) (fun _ _ h => absurd h hno) (fun _ _ h => absurd h hno)
    fun target' htarget' _ _ => ?_
  obtain rfl : target = target' := Except.ok.inj (htarget.symm.trans htarget')
  rw [Follow.enter_eq_entered, ends_bind]
  exact hends.mono_ok fun _ _ h => h.elim

/-- A fragment makes the request that expanding its pointer once more leads to, if the pointer is
open and may be expanded once more. -/
theorem makes_expanded {spine : Bool} {target : Target} (htarget : d.target p location = .ok target)
    (hchain : spine → p ∉ s.compositionChain) (hp : s.inProgress p) (hfresh : ¬ s.inFreshProgress p)
    (h : ComesTo (fun answer => Follow.expand answer p target spine true) follow s q t) :
    Makes d follow (.fragment p location spine) s q t := by
  refine h.makes fun answer e hends => ?_
  refine Follow.fragment_ends (fun cause hcause => by simp [htarget] at hcause)
    (fun hspine hmem => absurd hmem (hchain hspine)) (fun _ h => absurd h hfresh)
    (fun target' htarget' _ _ _ => ?_) fun _ hno => absurd hp hno
  obtain rfl : target = target' := Except.ok.inj (htarget.symm.trans htarget')
  exact hends

/-- The component of a part is asked for, if neither of them is kept or open. -/
theorem makes_root {link : Bool} {target : Target} (htarget : d.target p location = .ok target)
    (hpart : ¬ target.isComponent) (hroot : ¬ s.inProgress (Pointer.component target.component))
    (hnone : Table.get? s.cache p = none) (hno : ¬ s.inProgress p) :
    Makes d follow (.reference p location link) s (target.rootRequest location) s := by
  refine makes_entered htarget hnone hno (ComesTo.bind fun answer e hq _ => ?_)
  rw [Follow.partOf_eq, if_neg (not_or.2 ⟨hpart, hroot⟩)]
  exact ⟨s, bind_of_error hq⟩

end Making

/-! ### Routes -/

section Routes

variable {d : Document} {depth left : Nat} {r q : Request} {s t : Session}
  {through : Request → Session → Prop}

/-- Frames may be opened on the way to what comes later. -/
theorem Session.Preserves.push_later (h : s.Preserves t) (frame : Frame) :
    s.Preserves { t with stack := frame :: t.stack } :=
  h.trans (.push t frame)

theorem Makes.preserves_reference {p location : String} {link : Bool}
    (h : Makes d (d.follow depth) (.reference p location link) s q t) : s.Preserves t := by
  obtain ⟨-, -, target, -, ⟨-, -, rfl⟩ | ⟨u, -, rfl, hu⟩⟩ := h.of_reference
  · exact .refl _
  · refine Session.Preserves.push_later ?_ _
    rcases hu with rfl | ⟨-, root, hroot⟩
    · exact .refl _
    · exact (d.follow_preserves depth _ s).of_ok hroot

/-- What is preserved by answers is preserved where a step makes its requests. -/
theorem Makes.preserves (h : Makes d (d.follow depth) r s q t) : s.Preserves t := by
  cases r with
  | reference p location link => exact h.preserves_reference
  | fragment p location spine =>
    by_cases hp : s.inProgress p
    · obtain ⟨target, -, -, -, -, rfl⟩ := h.of_fragment hp
      exact .push s _
    · exact ((makes_fragment_iff hp).1 h).preserves_reference
  | schema schema location name spine =>
    have hinquiry : Inquiry (fun _ => False) fun follow =>
        Follow.schema follow d schema location name spine := Follow.schema_inquiry _ _ _ _
    refine hinquiry.comesTo_inv (bracketed_preserves s) (fun _ _ _ hno => hno.elim)
      (fun q t ht => ?_) h.comesTo (.refl s)
    exact (d.follow_preserves depth q t).mono (fun _ _ hu => ht.trans hu) fun _ _ hu => ht.trans hu

/-- How a run with a number of steps gets to a request: by way of the requests that lead to it, each
in its session, and with fewer steps left each time.  All of them are of a kind, apart from the
last. -/
inductive Document.Route (d : Document) (through : Request → Session → Prop) :
    Nat → Request → Session → Nat → Request → Session → Prop where
  | here {depth : Nat} {r : Request} {s : Session} : Route d through depth r s depth r s
  | on {depth left : Nat} {r q r' : Request} {s t s' : Session} (hr : through r s)
      (h : Makes d (d.follow depth) r s q t) (hrest : Route d through depth q t left r' s') :
      Route d through (depth + 1) r s left r' s'

namespace Document.Route

/-- A route leads to a request of the run. -/
theorem moment (h : d.Route through depth r s left q t) : d.Moment depth r s q t := by
  induction h with
  | here => exact .start
  | on _ hmakes _ ih => exact .inside hmakes ih

/-- **What is kept stays so on the way to a request**, and what is open and not kept stays so as
well. -/
theorem preserves (h : d.Route through depth r s left q t) : s.Preserves t := by
  induction h with
  | here => exact .refl _
  | on _ hmakes _ ih => exact hmakes.preserves.trans ih

end Document.Route

/-- There is a route to every request of a run. -/
theorem Document.Moment.exists_route (h : d.Moment depth r s q t) :
    ∃ left, d.Route (fun _ _ => True) depth r s left q t := by
  induction h with
  | start => exact ⟨_, .here⟩
  | inside hmakes _ ih =>
    obtain ⟨left, hroute⟩ := ih
    exact ⟨left, .on trivial hmakes hroute⟩

end Routes

end ApiBinding
