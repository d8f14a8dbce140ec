import ApiBinding.Proofs.Resolver.Calls

/-!
# References share nodes

A pointer that is kept is answered by the node that is kept for it, and no call replaces that node.
So all plain references to a pointer are answered by one node, from the first one on, unless a back
reference stands in for it.

There is one exception.  A part of a component is looked for in the node of the component.  If that
is made first, and leads to the part itself, the part is expanded on its own and kept; what is found
in the node of the component is another node, and it takes the place of the first one.  So the
answer to a reference to a part is final only if the part is not being looked for at that moment.
Whole components are never looked for.

## Main definitions

* `Document.Searches` — a request looks for a part in the node of its component.
* `Document.Replies` — the answers to plain references that are made during a call.

## Main results

* `Document.Route.keeps` — a node that answers a plain reference is kept when the run ends.
* `Document.references_share` — **all plain references to a pointer share one node**, in all calls,
  if the pointer is not being looked for.
* `search_replaces` — they need not share one node if it is.
-/

namespace ApiBinding

open Resolution

/-- The request looks for the node of a pointer in the node of its component: the pointer addresses
a part, and neither the part nor the component is kept or open. -/
structure Document.Searches (d : Document) (p : String) (r : Request) (s : Session) : Prop where
  seeks : r.Seeks p
  missing : Table.get? s.cache p = none
  closed : ¬ s.inProgress p
  part : ∃ location target, d.target p location = .ok target ∧ ¬ target.isComponent ∧
    Table.get? s.cache (Pointer.component target.component) = none ∧
    ¬ s.inProgress (Pointer.component target.component)

/-! ### One reference -/

section References

variable {follow : Follow} {d : Document} {s : Session} {p location : String} {link : Bool}
  {n : Node}

theorem Follow.reference_kept {follow : Follow} (hn : Table.get? s.cache p = some n) :
    Ends (Follow.reference follow d p location link) s (fun m t => m = n ∧ t = s)
      fun _ _ => True := by
  unfold Follow.reference
  rw [ends_bind, ends_ofExcept]
  refine ⟨fun target _ => ?_, fun _ _ => trivial⟩
  rw [ends_bind, ends_get]
  simp only [hn]
  exact ⟨rfl, rfl⟩

/-- A pointer that is entered is kept. -/
theorem Follow.enter_keeps {follow : Follow} {target : Target} :
    Ends (Follow.enter follow p location target link) s (fun m t => Table.get? t.cache p = some m)
      fun _ _ => True := by
  have hinsert : ∀ (t : Session) (m : Node), Table.get? (Table.insert t.cache p m) p = some m := by
    intro t m
    rw [Table.get?_insert, if_pos rfl]
  have hexpand : ∀ t, Ends (Follow.expand follow p target link false) t
      (fun m u => Table.get? (Table.insert u.cache p m) p = some m) fun _ _ => True := fun t =>
    Follow.expand_ends (ends_trivial (fun m u => hinsert _ m) fun _ _ => trivial)
  refine Follow.enter_ends (fun t _ _ => hexpand t) fun _ _ => ?_
  exact ends_trivial (fun root t => ⟨fun m _ => hinsert t m, fun _ => hexpand t⟩) fun _ _ => trivial

end References

namespace Document

variable {d : Document} {depth left : Nat} {r q : Request} {s t u v : Session} {p location : String}
  {link : Bool} {n n' : Node}

/-- A whole component is not looked for in the node of a component. -/
theorem not_searches_whole {c : String} (hp : Pointer.Whole p c) : ¬ d.Searches p r s := by
  intro h
  obtain ⟨location, target, htarget, hpart, -⟩ := h.part
  exact hpart (target_whole htarget hp).2.1

/-- A plain reference to a pointer that is kept is answered by the node that is kept. -/
theorem follow_kept (h : d.follow depth (.reference p location link) s = .ok n' t)
    (hn : Table.get? s.cache p = some n) : n' = n ∧ t = s := by
  cases depth with
  | zero => cases h
  | succ depth => exact (Follow.reference_kept hn).of_ok h

/-- The answer to a plain reference is kept, unless it is a back reference. -/
theorem follow_keeps (h : d.follow depth (.reference p location link) s = .ok n t)
    (hplain : (Table.get? s.cache p).isSome ∨ ¬ s.inProgress p) :
    Table.get? t.cache p = some n := by
  cases depth with
  | zero => cases h
  | succ depth =>
    rcases hplain with hkept | hno
    · obtain ⟨m, hm⟩ := Option.isSome_iff_exists.1 hkept
      obtain ⟨rfl, rfl⟩ := follow_kept h hm
      exact hm
    · have hends : Ends (Follow.reference (d.follow depth) d p location link) s
          (fun m u => Table.get? u.cache p = some m) fun _ _ => True :=
        Follow.reference_ends (fun _ _ => trivial) (fun _ hm => hm) (fun _ _ hp => absurd hp hno)
          (fun _ _ _ _ => trivial) fun _ _ _ _ => Follow.enter_keeps
      exact hends.of_ok h

/-! ### Requests on the way -/

/-- A part that is neither kept nor open is looked for in the node of its component, if that is
neither kept nor open. -/
theorem kept_of_not_searches (h : ¬ d.Searches p (.reference p location link) s)
    (hnone : Table.get? s.cache p = none) (hno : ¬ s.inProgress p) {target : Target}
    (htarget : d.target p location = .ok target)
    (hpart : ¬ (target.isComponent ∨ s.inProgress (Pointer.component target.component))) :
    ∃ n, Table.get? s.cache (Pointer.component target.component) = some n := by
  rw [not_or] at hpart
  by_contra hmissing
  refine h ⟨rfl, hnone, hno, location, target, htarget, hpart.1, ?_, hpart.2⟩
  exact Option.eq_none_iff_forall_ne_some.2 fun n hn => hmissing ⟨n, hn⟩

/-- While a pointer is entered without being looked for, it is open and not kept: all plain
references to it on the way are answered by back references, or not at all. -/
theorem Route.barred {location' : String} {link' : Bool} {through : Request → Session → Prop}
    (hmakes : Makes d (d.follow depth) (.reference p location link) s q t)
    (hroute : d.Route through depth q t left (.reference p location' link') u)
    (hsearch : ¬ d.Searches p (.reference p location link) s) :
    Table.get? u.cache p = none ∧ u.inProgress p := by
  obtain ⟨hnone, hno, target, htarget, ⟨hpart, rfl, rfl⟩ | ⟨v, rfl, rfl, hv⟩⟩ := hmakes.of_reference
  · -- The component is kept, so that the request for it leads to no other one.
    obtain ⟨n, hn⟩ := kept_of_not_searches hsearch hnone hno htarget hpart
    cases hroute with
    | here => simp [hnone] at hn
    | on _ hmakes' _ =>
      have hmissing := hmakes'.of_reference.1
      simp [hmissing] at hn
  · have hvs : v = s := by
      rcases hv with rfl | ⟨hpart, root, hroot⟩
      · rfl
      · obtain ⟨n, hn⟩ := kept_of_not_searches hsearch hnone hno htarget hpart
        exact (follow_kept hroot hn).2
    subst hvs
    have hopen : Session.inProgress { v with stack := ⟨p, link, false⟩ :: v.stack } p := by
      simp [Session.inProgress]
    exact ⟨hroute.preserves.barred p hopen hnone, hroute.preserves.opened p hopen⟩

/-- **A node that answers a plain reference is kept when the run ends**, however it ends, if the
pointer was not looked for on the way to the reference and the answer is no back reference. -/
theorem Route.keeps
    (h : d.Route (fun r s => ¬ d.Searches p r s) depth r s left (.reference p location link) t)
    (hn : d.follow left (.reference p location link) t = .ok n u)
    (hplain : (Table.get? t.cache p).isSome ∨ ¬ t.inProgress p) :
    Ends (d.follow depth r) s (fun _ v => Table.get? v.cache p = some n)
      fun _ v => Table.get? v.cache p = some n := by
  -- What has been kept stays, so the step goes on with the node until it ends.
  have hkept : ∀ depth q t, Table.get? t.cache p = some n →
      Ends (d.follow depth q) t (fun _ v => Table.get? v.cache p = some n)
        fun _ v => Table.get? v.cache p = some n := fun depth q t ht =>
    (d.follow_preserves depth q t).mono (fun _ _ hv => hv.kept p n ht) fun _ _ hv => hv.kept p n ht
  generalize hrequest : Request.reference p location link = r' at h
  induction h with
  | here =>
    subst hrequest
    unfold Ends
    rw [hn]
    exact follow_keeps hn hplain
  | @on depth left r q _ s t' t hsearch hmakes hroute ih =>
    subst hrequest
    have hend := ih hn hplain rfl
    have hbarred : ∀ {location' link'},
        Makes d (d.follow depth) (.reference p location' link') s q t' →
        ¬ d.Searches p (.reference p location' link') s → False := by
      intro location' link' hmakes hsearch
      obtain ⟨hnone, hopen⟩ := hroute.barred hmakes hsearch
      rcases hplain with hsome | hno
      · simp [hnone] at hsome
      · exact hno hopen
    by_cases hseeks : r.Seeks p
    · cases r with
      | schema => exact hseeks.elim
      | reference pointer location' link' =>
        obtain rfl : p = pointer := hseeks
        exact (hbarred hmakes hsearch).elim
      | fragment pointer location' spine =>
        obtain rfl : p = pointer := hseeks
        by_cases hp : s.inProgress p
        · -- A pointer that is open already is expanded once more, and nothing is kept for it.
          obtain ⟨target, htarget, hfresh, hchain, rfl, rfl⟩ := hmakes.of_fragment hp
          refine Follow.fragment_ends (fun cause hcause => by simp [htarget] at hcause)
            (fun hspine hmem => absurd hmem (hchain hspine)) (fun _ h => absurd h hfresh)
            (fun target' htarget' _ _ _ => ?_) fun _ hno => absurd hp hno
          obtain rfl : target = target' := Except.ok.inj (htarget.symm.trans htarget')
          exact Follow.expand_ends hend
        · refine (hbarred ((makes_fragment_iff hp).1 hmakes) fun h => hsearch ?_).elim
          exact ⟨rfl, h.missing, h.closed, h.part⟩
    · refine (Follow.step_inquiry d r).resumes (I := fun c => Table.get? c p = some n)
        (J := fun c => Table.get? c p = some n) (fun _ h => h) (fun p' m c hp' hc => ?_)
        (hkept depth) hmakes.comesTo hend
      have hne : p' ≠ p := by
        rintro rfl
        exact hseeks hp'
      rwa [Table.get?_insert, if_neg hne]

/-! ### References in calls -/

/-- During a call, on a route through requests of a kind, a plain reference to the pointer is
answered by the node, which is no back reference: the pointer is kept, or it is not open. -/
inductive Replies (d : Document) (through : Request → Session → Prop) (query : Query) (s : Session)
    (p : String) (n : Node) : Prop where
  | intro {location : String} {link : Bool} {left : Nat} {t u : Session}
      (hroute : d.Route through (stepBound (query.size d)) query.request s left
        (.reference p location link) t)
      (hplain : (Table.get? t.cache p).isSome ∨ ¬ t.inProgress p)
      (hn : d.follow left (.reference p location link) t = .ok n u) :
      Replies d through query s p n

variable {query : Query}

/-- A reference that is answered while its pointer is not being looked for has the node that is kept
after the call. -/
theorem Replies.leaves (h : d.Replies (fun r t => ¬ d.Searches p r t) query s p n) :
    Table.get? (query.leaves d s).cache p = some n := by
  obtain ⟨hroute, hplain, hn⟩ := h
  have hends := hroute.keeps hn hplain
  rw [← Query.work_eq] at hends
  exact Query.leaves_of_ends (P := fun t => Table.get? t.cache p = some n) hends

/-- All references to a pointer that is kept when the call starts have the node that is kept. -/
theorem Replies.eq_kept {through : Request → Session → Prop} (h : d.Replies through query s p n')
    (hn : Table.get? s.cache p = some n) : n' = n := by
  obtain ⟨hroute, -, hn'⟩ := h
  exact (follow_kept hn' (hroute.preserves.kept p n hn)).1

/-- **All plain references to a pointer share one node.**  What is kept when a call starts is never
replaced, and it is the answer to every reference in all calls from then on.  What answers a
reference during a call is kept from then on, unless the pointer was being looked for in the node of
its component; whole components are never looked for. -/
theorem references_share (d : Document) (p : String) :
    (∀ s t n, Table.get? s.cache p = some n → d.Continues s t →
      Table.get? t.cache p = some n ∧
        ∀ query n', d.Replies (fun _ _ => True) query t p n' → n' = n) ∧
    (∀ s query n, d.Replies (fun r u => ¬ d.Searches p r u) query s p n →
      Table.get? (query.leaves d s).cache p = some n ∧
        ∀ n', d.Replies (fun r u => ¬ d.Searches p r u) query s p n' → n' = n) ∧
    ∀ c, Pointer.Whole p c → ∀ r s, ¬ d.Searches p r s := by
  refine ⟨fun s t n hn hst => ?_, fun s query n hreply => ?_, fun c hp r s => not_searches_whole hp⟩
  · have hkept := hst.kept hn
    exact ⟨hkept, fun query n' hreply => hreply.eq_kept hkept⟩
  · have hkept := hreply.leaves
    exact ⟨hkept, fun n' hreply' => Option.some.inj (hreply'.leaves.symm.trans hkept)⟩

end Document

/-! ### A part that is looked for -/

/-- The pointer to a hand of a clock. -/
def handPointer : String := "#/components/schemas/Clock/properties/hand"

/-- A clock, and a shadow of its hand. -/
def clockFace : Schema where
  properties :=
    [("shadow", { reference := some handPointer }),
     ("hand", { enumeration := some [.string "long", .string "short"] })]

/-- Clocks. -/
def clock : Document where
  components.schemas := [("Clock", clockFace)]

/-- The session in which the clock is open. -/
def clockOpen : Session where
  stack := [⟨"#/components/schemas/Clock", false, false⟩]

/-- The hand that is made for the shadow. -/
def shadowHand : Node :=
  ⟨0, .enumeration [.string "long", .string "short"], false, none, none, none⟩

theorem clock_whole : Pointer.Whole "#/components/schemas/Clock" "Clock" := by decide +kernel

/-- From the clock, the shadow refers to the hand. -/
theorem clock_route (through : Request → Session → Prop) (depth : Nat) (location : String)
    (hreference : through (.reference "#/components/schemas/Clock" location false) {})
    (hschema : ∀ schema location name spine,
      through (.schema schema location name spine) clockOpen) :
    clock.Route through (depth + 3) (.reference "#/components/schemas/Clock" location false) {}
      depth (.reference handPointer "#/components/schemas/Clock/properties/shadow" false)
      clockOpen := by
  refine .on hreference (makes_component clock_whole rfl rfl Bool.false_ne_true) ?_
  refine .on (hschema _ _ _ _) (makes_property "shadow" rfl rfl Bool.false_ne_true rfl) ?_
  exact .on (hschema _ _ _ _) (makes_reference rfl) .here

/-- The reference is answered by a hand of its own. -/
theorem clock_answer (depth : Nat) :
    ∃ t, clock.follow (depth + 2)
      (.reference handPointer "#/components/schemas/Clock/properties/shadow" false) clockOpen =
        .ok shadowHand t :=
  ⟨_, rfl⟩

/-- While the clock is resolved, the reference to its hand is answered by the hand that is kept from
then on. -/
theorem references_share_clock :
    clock.Replies (fun r u => ¬ clock.Searches handPointer r u) (.component "Clock") {} handPointer
        shadowHand ∧
      Table.get? ((Query.component "Clock").leaves clock {}).cache handPointer = some shadowHand ∧
      ∀ query m, clock.Replies (fun _ _ => True) query ((Query.component "Clock").leaves clock {})
        handPointer m → m = shadowHand := by
  have hreply : clock.Replies (fun r u => ¬ clock.Searches handPointer r u) (.component "Clock") {}
      handPointer shadowHand := by
    have hdepth : Document.stepBound ((Query.component "Clock").size clock) = 123 + 3 := by
      decide +kernel
    have hpointer : Pointer.component "Clock" = "#/components/schemas/Clock" := by decide +kernel
    have hother : handPointer ≠ "#/components/schemas/Clock" := by decide +kernel
    have hroute := clock_route (fun r u => ¬ clock.Searches handPointer r u) 123
      "#/components/schemas/Clock" (fun h => hother h.seeks) fun _ _ _ _ h => h.seeks
    obtain ⟨t, ht⟩ := clock_answer 121
    rw [← hdepth, ← hpointer] at hroute
    exact .intro hroute (.inr (by decide +kernel)) ht
  obtain ⟨hafter, hwithin, -⟩ := Document.references_share clock handPointer
  have hkept := (hwithin {} (.component "Clock") shadowHand hreply).1
  exact ⟨hreply, hkept, (hafter _ _ shadowHand hkept .refl).2⟩

/-- The hand is a part of the clock. -/
theorem clock_target : clock.target handPointer handPointer = .ok ⟨"Clock", ["properties", "hand"],
    { enumeration := some [.string "long", .string "short"] }⟩ := by
  have htokens : Pointer.tokens? handPointer = some ("Clock", ["properties", "hand"]) := by
    decide +kernel
  refine Document.target_eq_ok_iff.2 ⟨htokens, ?_⟩
  rw [Document.addressed?, htokens]
  rfl

/-- **A part that is looked for need not share its node.**  The hand is looked for in the clock,
which leads to the hand by way of its shadow; the hand that answers this reference is replaced by
the one that is found in the clock. -/
theorem search_replaces :
    clock.Replies (fun _ _ => True) (.pointer handPointer) {} handPointer shadowHand ∧
      ∃ n t, (Query.pointer handPointer).work clock {} = .ok n t ∧
        Table.get? t.cache handPointer = some n ∧ n.serial ≠ shadowHand.serial := by
  refine ⟨?_, ?_⟩
  · have hdepth : Document.stepBound ((Query.pointer handPointer).size clock) = 122 + 4 := by
      decide +kernel
    have hpointer : Pointer.component "Clock" = "#/components/schemas/Clock" := by decide +kernel
    have hroute : clock.Route (fun _ _ => True) (122 + 4)
        (.reference handPointer handPointer false) {} 122
        (.reference handPointer "#/components/schemas/Clock/properties/shadow" false)
        clockOpen := by
      refine .on trivial (makes_root clock_target Bool.false_ne_true Bool.false_ne_true rfl
        Bool.false_ne_true) ?_
      rw [Target.rootRequest, hpointer]
      exact clock_route _ 122 handPointer trivial fun _ _ _ _ => trivial
    obtain ⟨t, ht⟩ := clock_answer 120
    rw [← hdepth] at hroute
    exact .intro hroute (.inr (by decide +kernel)) ht
  · have hserial : yields ((Query.pointer handPointer).work clock) {} (fun n => n.serial != 0) := by
      decide +kernel
    obtain ⟨n, t, hn, hne⟩ := exists_of_yields hserial
    refine ⟨n, t, hn, ?_, bne_iff_ne.1 hne⟩
    rw [Query.work_eq] at hn
    exact Document.follow_keeps hn (.inr Bool.false_ne_true)

end ApiBinding
