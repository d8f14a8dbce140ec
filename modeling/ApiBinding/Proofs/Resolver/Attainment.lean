import ApiBinding.Proofs.Resolver.Inquiries

/-!
# Requests that runs make

What is shown of a step is shown for any session that suits it, and such a session may keep nodes
that no run makes.  So nothing follows about where the answers come from that a step is given.

Here the resolver is restricted to the requests that runs make: all others are interrupted.  A step
of a run makes no others, so it does not notice.  Whatever the restricted resolver answers is an
answer at a moment of a run, and what every step keeps under this condition is kept by all runs.

## Main definitions

* `Document.Attained` — the requests that runs make, with the number of steps that are left.
* `Document.guarded` — the resolver, restricted to these requests.
* `Document.Supplies` — the answers are answers at moments of runs.
* `Follow.Restricts` — some requests are answered as before, and all others are interrupted.

## Main results

* `Document.guarded_step` — a step of a run does not notice the restriction.
* `Document.guarded_induct` — **what every step keeps, given answers at moments of runs, is kept by
  all runs.**
-/

namespace ApiBinding

/-! ### Attained requests -/

/-- A run makes the request in the session, and a number of steps is left for it. -/
inductive Document.Attained (d : Document) : Nat → Request → Session → Prop where
  | start {query : Query} {s : Session} (hs : d.Used s) :
      Attained d (stepBound (query.size d)) query.request s
  | inside {depth : Nat} {r q : Request} {s t : Session} (h : Attained d (depth + 1) r s)
      (hmakes : Makes d (d.follow depth) r s q t) : Attained d depth q t

/-- Requests that are made in turn are made at moments of the same run. -/
theorem Document.Attained.exists_moment {d : Document} {depth : Nat} {r : Request} {s : Session}
    (h : d.Attained depth r s) : ∃ (query : Query) (s₀ : Session), d.Used s₀ ∧
      ∀ q t, d.Moment depth r s q t →
        d.Moment (stepBound (query.size d)) query.request s₀ q t := by
  induction h with
  | start hs => exact ⟨_, _, hs, fun _ _ => id⟩
  | inside _ hmakes ih =>
    obtain ⟨query, s₀, hs, hmoments⟩ := ih
    exact ⟨query, s₀, hs, fun q t h => hmoments q t (.inside hmakes h)⟩

/-- The answer to an attained request is an answer at a moment of a run. -/
theorem Document.Attained.arises {d : Document} {depth : Nat} {r : Request} {s t : Session}
    {n : Node} (h : d.Attained depth r s) (hn : d.follow depth r s = .ok n t) : d.Arises r n := by
  obtain ⟨query, s₀, hs, hmoments⟩ := h.exists_moment
  exact ⟨hs, hmoments r s .start, hn⟩

/-- A run for a component asks for its body first, unless it is kept. -/
theorem Document.attained_component {d : Document} {c : String} {body : Schema} {s : Session}
    {depth : Nat} (hs : d.Used s) (hbody : d.schema? c = some body)
    (hnone : Table.get? s.cache (Pointer.component c) = none)
    (hno : ¬ s.inProgress (Pointer.component c))
    (hsteps : stepBound ((Query.component c).size d) = depth + 1) :
    d.Attained depth (.schema body (Pointer.component c) (some c) true)
      { s with stack := ⟨Pointer.component c, false, false⟩ :: s.stack } := by
  have hstart : d.Attained (depth + 1) (Query.component c).request s := hsteps ▸ .start hs
  exact hstart.inside (makes_component (Pointer.whole_component c) hbody hnone hno)

/-! ### The restricted resolver -/

open Classical in
/-- The resolver, restricted to attained requests. -/
noncomputable def Document.guarded (d : Document) (depth : Nat) : Follow := fun r s =>
  if d.Attained depth r s then d.follow depth r s else .error .exhausted s

/-- Some requests are answered as before, and all others are interrupted. -/
def Follow.Restricts (restricted follow : Follow) : Prop :=
  ∀ r s, restricted r s = follow r s ∨ restricted r s = .error .exhausted s

/-- What is promised of answers, and of interruptions, is promised of fewer answers. -/
theorem Follow.Restricts.meets {restricted follow : Follow} {pre : Request → Session → Prop}
    {ok : Request → Session → Node → Session → Prop}
    {err : Request → Session → Interruption → Session → Prop}
    (h : restricted.Restricts follow) (hbase : ∀ r s, pre r s → err r s .exhausted s)
    (hfollow : Meets follow pre ok err) : Meets restricted pre ok err := by
  intro r s hs
  rcases h r s with hsame | hinterrupted
  · have hends := hfollow r s hs
    unfold Ends at hends ⊢
    rwa [hsame]
  · exact (ends_of_error hinterrupted).2 (hbase r s hs)

/-- The answers are answers at moments of runs. -/
structure Document.Supplies (d : Document) (follow : Follow) : Prop where
  steady : Steady follow
  arises : ∀ r s n t, follow r s = .ok n t → d.Arises r n

section Guarded

variable {d : Document} {depth : Nat} {r : Request} {s : Session}

theorem Document.Supplies.ends {follow : Follow} (h : d.Supplies follow) (r : Request)
    (s : Session) : Ends (follow r) s (fun n _ => d.Arises r n) fun _ _ => True := by
  unfold Ends
  split
  · rename_i n t hn
    exact h.arises r s n t hn
  · trivial

theorem Document.guarded_of_attained (h : d.Attained depth r s) :
    d.guarded depth r s = d.follow depth r s := if_pos h

theorem Document.guarded_of_not_attained (h : ¬ d.Attained depth r s) :
    d.guarded depth r s = .error .exhausted s := if_neg h

/-- A run is made by the restricted resolver as well. -/
theorem Query.work_eq_guarded (query : Query) (hs : d.Used s) :
    query.work d s = d.guarded (Document.stepBound (query.size d)) query.request s := by
  rw [query.work_eq, Document.guarded_of_attained (.start hs)]

/-- A part of a step of a run does not notice the restriction: what it comes to, the step makes. -/
theorem Document.Attained.congr {α : Type} {kept : String → Prop} {x : Follow → Resolution α}
    {s' : Session} (h : d.Attained (depth + 1) r s) (hx : Inquiry kept x)
    (hpart : ∀ q t, ComesTo x (d.follow depth) s' q t → Makes d (d.follow depth) r s q t) :
    x (d.guarded depth) s' = x (d.follow depth) s' :=
  hx.congr fun q t hq => guarded_of_attained (h.inside (hpart q t hq))

theorem Document.guarded_restricts (d : Document) (depth : Nat) :
    (d.guarded depth).Restricts (d.follow depth) := fun r s => by
  by_cases h : d.Attained depth r s
  · exact .inl (guarded_of_attained h)
  · exact .inr (guarded_of_not_attained h)

/-- **A step of a run does not notice the restriction**: it makes no other requests. -/
theorem Document.guarded_step (d : Document) (depth : Nat) :
    (d.guarded (depth + 1)).Restricts (Follow.step (d.guarded depth) d) := by
  intro r s
  by_cases h : d.Attained (depth + 1) r s
  · have hsame := h.congr (Follow.step_inquiry d r) fun q t hq => hq
    exact .inl ((guarded_of_attained h).trans hsame.symm)
  · exact .inr (guarded_of_not_attained h)

theorem Document.supplies_guarded (d : Document) (depth : Nat) : d.Supplies (d.guarded depth) where
  steady := by
    have hmeets : Meets (d.guarded depth) (fun _ _ => True) (fun _ s _ t => s.Later t)
        fun _ s _ t => s.Later t :=
      (d.guarded_restricts depth).meets (fun _ s _ => .refl s) fun r s _ =>
        d.follow_steady depth r s
    exact fun r s => hmeets r s trivial
  arises r s n t hn := by
    by_cases h : d.Attained depth r s
    · exact h.arises (guarded_of_attained h ▸ hn)
    · cases (guarded_of_not_attained h).symm.trans hn

/-- **What every step keeps, given answers at moments of runs, is kept by all runs.** -/
theorem Document.guarded_induct {P : Follow → Prop}
    (hrestrict : ∀ {restricted follow : Follow}, restricted.Restricts follow → P follow →
      P restricted)
    (hbase : P fun _ s => .error .exhausted s)
    (hstep : ∀ follow, d.Supplies follow → P follow → P (Follow.step follow d)) :
    ∀ depth, P (d.guarded depth)
  | 0 => hrestrict (d.guarded_restricts 0) hbase
  | depth + 1 => hrestrict (d.guarded_step depth) <|
      hstep _ (d.supplies_guarded depth) (guarded_induct hrestrict hbase hstep depth)

/-- A promise that every step keeps, given answers at moments of runs, is kept by all runs. -/
theorem Document.guarded_meets {pre : Request → Session → Prop}
    {ok : Request → Session → Node → Session → Prop}
    {err : Request → Session → Interruption → Session → Prop}
    (hbase : ∀ r s, pre r s → err r s .exhausted s)
    (hstep : ∀ follow, d.Supplies follow → Meets follow pre ok err →
      Meets (Follow.step follow d) pre ok err) (depth : Nat) :
    Meets (d.guarded depth) pre ok err :=
  guarded_induct (fun h => h.meets hbase) hbase hstep depth

end Guarded

end ApiBinding
