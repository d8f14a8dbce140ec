import ApiBinding.Proofs.Resolver.Termination

/-!
# The moments of a run

A run makes requests, each of them in a session, and these make requests in turn.  A frame is
opened right before a request and closed right after it, so the stacks of a run are the stacks of
the sessions in which requests are made.

That a step makes a request is said without opening the step: whatever interrupts the request also
ends the step.

## Main definitions

* `Makes` — a step makes a request in a session.
* `Document.Moment` — the requests that are made during a run, each with its session.
* `Stacked`, `Orderly` — how frames are opened, and what follows for their order.
* `Query` — what a resolver is asked for from outside.
* `Document.Used`, `Document.Answers` — the sessions that runs lead to, and the answers there.
* `Document.Arises` — the answers to requests at the moments of runs.

## Main results

* `Makes.carries` — a condition under which answers are known holds where requests are made.
* `Makes.sits` — a step makes requests only where they may be made.
* `Query.moment` — **the open pointers at every moment of a run.**
* `Query.ends` — **every run ends**, and leaves no pointer open.
-/

namespace ApiBinding

/-! ### Moments -/

/-- The step makes a request in a session: if that request, made there, is interrupted and all
others are answered as before, then the step ends with the same interruption. -/
def Makes (d : Document) (follow : Follow) (r : Request) (s : Session) (q : Request)
    (t : Session) : Prop :=
  ∀ (answer : Follow) (e : Interruption), answer q t = .error e t →
    (∀ q' t', ¬ (q' = q ∧ t' = t) → answer q' t' = follow q' t') →
    ∃ u, Follow.step answer d r s = .error e u

/-- The requests that are made during a run with a number of nested steps, and the sessions in
which they are made.  The request that starts the run is one of them. -/
inductive Document.Moment (d : Document) : Nat → Request → Session → Request → Session → Prop where
  | start {depth : Nat} {r : Request} {s : Session} : Moment d depth r s r s
  | inside {depth : Nat} {r q r' : Request} {s t s' : Session}
      (h : Makes d (d.follow depth) r s q t) (hrest : Moment d depth q t r' s') :
      Moment d (depth + 1) r s r' s'

/-- A request can be interrupted without any change to the others. -/
theorem exists_interrupted (follow : Follow) (q : Request) (t : Session) (e : Interruption) :
    ∃ answer : Follow, answer q t = .error e t ∧
      ∀ q' t', ¬ (q' = q ∧ t' = t) → answer q' t' = follow q' t' := by
  classical
  exact ⟨fun q' t' => if q' = q ∧ t' = t then .error e t' else follow q' t', by simp,
    fun q' t' hne => by simp [hne]⟩

section Making

variable {d : Document} {follow : Follow} {r q : Request} {s t : Session}

/-- A step makes a request if it does not get past it. -/
theorem makes_of_ends (h : ∀ (answer : Follow) (e : Interruption),
    Ends (answer q) t (fun _ _ => False) (fun e' _ => e' = e) →
    Ends (Follow.step answer d r) s (fun _ _ => False) fun e' _ => e' = e) :
    Makes d follow r s q t := by
  intro answer e hq _
  have hends := h answer e (by unfold Ends; rw [hq])
  unfold Ends at hends
  split at hends
  · exact hends.elim
  · rename_i hstep
    exact ⟨_, hends ▸ hstep⟩

/-- A schema that is only a reference asks for what it refers to. -/
theorem makes_reference {schema : Schema} {p location : String} {name : Option String}
    {spine : Bool} (hr : schema.reference = some p) :
    Makes d follow (.schema schema location name spine) s (.reference p location false) s := by
  refine makes_of_ends fun answer e hq => ?_
  simp only [Follow.step, Follow.schema, hr, ends_bind]
  exact hq.mono_ok fun _ _ h => h.elim

/-- The first property of an object is asked for. -/
theorem makes_property (key : String) {schema t : Schema} {location : String}
    {name : Option String} {spine : Bool} {rest : List (String × Schema)}
    (hform : schema.form name spine = .plain) (htypes : schema.typeNames = [])
    (hnull : ¬ schema.isNullType) (hproperties : schema.properties = (key, t) :: rest) :
    Makes d follow (.schema schema location name spine) s
      (.schema t (location ++ "/properties/" ++ Pointer.escape key) none false) s := by
  refine makes_of_ends fun answer e hq => ?_
  simp only [Follow.step, Follow.schema_eq, Follow.formed, hform, Follow.plainShape, htypes,
    Follow.untyped, hnull, hproperties, Follow.object, Resolution.each, Follow.propertyNode,
    Bool.false_eq_true, if_false, if_true, List.isEmpty_cons, Bool.not_false, Bool.true_or,
    bind_assoc, ends_bind]
  exact hq.mono_ok fun _ _ h => h.elim

/-- The body of a component that is entered is asked for in a frame of its own. -/
theorem makes_body {p location : String} {target : Target} {link : Bool}
    (ht : d.target p location = .ok target) (hc : target.isComponent)
    (hnone : Table.get? s.cache p = none) (hno : ¬ s.inProgress p) :
    Makes d follow (.reference p location link) s
      (.schema target.schema p (some target.component) true)
      { s with stack := ⟨p, link, false⟩ :: s.stack } := by
  refine makes_of_ends fun answer e hq => ?_
  refine Follow.reference_ends (fun cause hcause => by simp [ht] at hcause)
    (fun n hn => by simp [hnone] at hn) (fun _ _ h => absurd h hno) (fun _ _ h => absurd h hno)
    fun target' ht' _ _ => ?_
  obtain rfl : target = target' := Except.ok.inj (ht.symm.trans ht')
  refine Follow.enter_ends (fun u _ hu => ?_) fun hpart => absurd hc hpart
  subst hu
  refine Follow.expand_ends ?_
  rw [if_pos hc]
  exact hq.mono (fun _ _ h => h) fun _ _ h => h

/-- The body of a component is asked for where the component is, unless it is kept or open. -/
theorem makes_component {p c location : String} {body : Schema} {link : Bool}
    (hp : Pointer.Whole p c) (hbody : d.schema? c = some body)
    (hnone : Table.get? s.cache p = none) (hno : ¬ s.inProgress p) :
    Makes d follow (.reference p location link) s (.schema body p (some c) true)
      { s with stack := ⟨p, link, false⟩ :: s.stack } :=
  makes_body (Document.target_of_whole hp hbody) rfl hnone hno

/-- The body of an open component that is expanded once more is asked for in a fresh frame. -/
theorem makes_body_again {p location : String} {target : Target} {spine : Bool}
    (ht : d.target p location = .ok target) (hc : target.isComponent)
    (hchain : spine → p ∉ s.compositionChain) (hprogress : s.inProgress p)
    (hfresh : ¬ s.inFreshProgress p) :
    Makes d follow (.fragment p location spine) s
      (.schema target.schema p (some target.component) true)
      { s with stack := ⟨p, spine, true⟩ :: s.stack } := by
  refine makes_of_ends fun answer e hq => ?_
  refine Follow.fragment_ends (fun cause hcause => by simp [ht] at hcause)
    (fun hspine h => absurd h (hchain hspine)) (fun _ h => absurd h hfresh)
    (fun target' ht' _ _ _ => ?_) fun _ h => absurd hprogress h
  obtain rfl : target = target' := Except.ok.inj (ht.symm.trans ht')
  refine Follow.expand_ends ?_
  rw [if_pos hc]
  exact hq.mono (fun _ _ h => h) fun _ _ h => h

end Making

/-! ### Stacks -/

/-- Each frame was opened when it might be. -/
inductive Stacked : List Frame → Prop where
  | nil : Stacked []
  | cons {f : Frame} {stack : List Frame} (h : MayOpen stack f) (hs : Stacked stack) :
      Stacked (f :: stack)

/-- Each pointer is open at most once in the ordinary way and at most once more, which is above
the ordinary frame. -/
structure Orderly (stack : List Frame) : Prop where
  once : (stack.map fun f => (f.pointer, f.fresh)).Nodup
  above : ∀ upper f lower, stack = upper ++ f :: lower → f.fresh →
    ∃ g ∈ lower, g.pointer = f.pointer ∧ ¬ g.fresh

namespace Stacked

variable {stack : List Frame}

theorem nodup (h : Stacked stack) : (stack.map fun f => (f.pointer, f.fresh)).Nodup := by
  induction h with
  | nil => exact .nil
  | @cons f stack hopen _ ih =>
    refine List.nodup_cons.2 ⟨fun hmem => ?_, ih⟩
    have hvacant := hopen.vacant
    obtain ⟨g, hg, heq⟩ := List.mem_map.1 hmem
    rw [Prod.mk.injEq] at heq
    simp only [vacant, Bool.not_eq_true', List.any_eq_false, Bool.and_eq_true, beq_iff_eq,
      not_and] at hvacant
    exact hvacant g hg heq.1 heq.2

theorem orderly (h : Stacked stack) : Orderly stack := by
  refine ⟨h.nodup, fun upper f lower hsplit hfresh => ?_⟩
  induction h generalizing upper with
  | nil => simp at hsplit
  | @cons g stack hopen _ ih =>
    cases upper with
    | cons g' upper =>
      rw [List.cons_append, List.cons.injEq] at hsplit
      exact ih upper hsplit.2
    | nil =>
      rw [List.nil_append, List.cons.injEq] at hsplit
      obtain ⟨rfl, rfl⟩ := hsplit
      -- The pointer is open below, and not for the second time.
      rw [MayOpen, if_pos hfresh] at hopen
      obtain ⟨⟨g', hg', hp⟩, hvacant⟩ := hopen
      refine ⟨g', hg', hp, fun hagain => ?_⟩
      simp only [vacant, Bool.not_eq_true', List.any_eq_false, Bool.and_eq_true, beq_iff_eq,
        not_and] at hvacant
      exact hvacant g' hg' hp hagain

/-- A stack has at most two frames for each pointer. -/
theorem length_le (h : Stacked stack) {U : Finset String} (hU : ∀ f ∈ stack, f.pointer ∈ U) :
    stack.length ≤ 2 * U.card := by
  have hsubset : (stack.map fun f => (f.pointer, f.fresh)).toFinset ⊆ U ×ˢ Finset.univ := by
    intro slot hslot
    obtain ⟨f, hf, rfl⟩ := List.mem_map.1 (List.mem_toFinset.1 hslot)
    simp [hU f hf]
  have hcard := Finset.card_le_card hsubset
  rw [List.toFinset_card_of_nodup h.nodup, List.length_map, Finset.card_product, Finset.card_univ,
    Fintype.card_bool] at hcard
  omega

end Stacked

/-! ### What a step preserves -/

section Steps

variable {d : Document} {U : Finset String} {n depth : Nat} {follow : Follow}

/-- The request is about known pointers, there are enough steps for it, and the frames were opened
as they might be. -/
structure Sits (U : Finset String) (n depth : Nat) (r : Request) (s : Session) : Prop where
  fits : r.Fits U n
  need : r.need U n s.stack ≤ depth
  stacked : Stacked s.stack
  known : ∀ f ∈ s.stack, f.pointer ∈ U

/-- **A condition under which answers are known holds where requests are made.**  The request is
interrupted in a way in which no other one ends, so the step can only end so if it makes the
request, and it makes requests only under the condition. -/
theorem Makes.carries {P : Request → Session → Prop} {Q : Request → Session → Node → Session → Prop}
    {e : Interruption} {r q : Request} {s t : Session} (h : Makes d follow r s q t)
    (hsteady : Steady follow) (hfollow : Meets follow P Q fun _ _ e' _ => e' ≠ e)
    (hstep : ∀ answer, Steady answer → Meets answer P Q (fun _ _ e' _ => e' = e → P q t) →
      Ends (Follow.step answer d r) s (fun _ _ => True) fun e' _ => e' = e → P q t) : P q t := by
  obtain ⟨answer, hq, hothers⟩ := exists_interrupted follow q t e
  obtain ⟨u, hu⟩ := h answer e hq hothers
  have hanswerSteady : Steady answer := by
    intro r' s'
    by_cases heq : r' = q ∧ s' = t
    · obtain ⟨rfl, rfl⟩ := heq
      unfold Ends
      rw [hq]
      exact .refl _
    · have hends := hsteady r' s'
      unfold Ends at hends ⊢
      rwa [hothers r' s' heq]
  have hanswer : Meets answer P Q fun _ _ e' _ => e' = e → P q t := by
    intro r' s' hP
    by_cases heq : r' = q ∧ s' = t
    · obtain ⟨rfl, rfl⟩ := heq
      unfold Ends
      rw [hq]
      exact fun _ => hP
    · -- All other requests are answered as before, and not with this interruption.
      have hsame : answer r' s' = follow r' s' := hothers r' s' heq
      have hends := hfollow r' s' hP
      unfold Ends at hends ⊢
      rw [hsame]
      generalize follow r' s' = result at hends ⊢
      cases result with
      | ok n u => exact hends
      | error e' u => exact fun heq => absurd heq hends
  exact (hstep answer hanswerSteady hanswer).of_error hu rfl

/-- **A step makes requests only where they may be made.** -/
theorem Makes.sits {r q : Request} {s t : Session} (h : Makes d follow r s q t)
    (hends : Suffices U n (fun _ => True) (· ≠ .exhausted) follow depth) (hsteady : Steady follow)
    (hU : Universe d U) (hn : d.size ≤ n) (hr : Sits U n (depth + 1) r s) :
    Sits U n depth q t := by
  refine h.carries (P := Sits U n depth) (Q := fun _ _ _ _ => True) hsteady
    (fun r' s' hs => (hends r' s' hs.fits hs.need trivial).mono_ok fun _ _ _ => trivial)
    fun answer hanswerSteady hanswer => ?_
  have hsuffices : Suffices U n (fun stack => Stacked stack ∧ ∀ f ∈ stack, f.pointer ∈ U)
      (fun e => e = .exhausted → Sits U n depth q t) answer depth := fun r' s' hfits hneed hs =>
    ((hanswerSteady r' s').and (hanswer r' s' ⟨hfits, hneed, hs.1, hs.2⟩)).mono
      (fun _ _ h => h.1) fun _ _ he => he.2
  have hcovers : Covers U (fun stack => Stacked stack ∧ ∀ f ∈ stack, f.pointer ∈ U)
      (fun e => e = .exhausted → Sits U n depth q t) :=
    ⟨fun stack f ⟨hstacked, hknown⟩ hf hopen =>
      ⟨.cons hopen hstacked, List.forall_mem_cons.2 ⟨hf, hknown⟩⟩, fun _ => nofun⟩
  exact (hsuffices.step hcovers hanswerSteady hU hn r s hr.fits hr.need
    ⟨hr.stacked, hr.known⟩).mono_ok fun _ _ _ => trivial

/-- **All requests of a run are made where they may be made.** -/
theorem Document.Moment.sits {r q : Request} {s t : Session} (h : d.Moment depth r s q t)
    (hU : Universe d U) (hn : d.size ≤ n) (hr : Sits U n depth r s) :
    ∃ left, Sits U n left q t := by
  induction h with
  | start => exact ⟨_, hr⟩
  | @inside depth r q r' s t s' hmakes _ ih =>
    exact ih (hmakes.sits (Document.follow_ends hU hn depth) (d.follow_steady depth) hU hn hr)

end Steps

/-! ### Runs -/

/-- What a resolver is asked for from outside. -/
inductive Query where
  | pointer (pointer : String)
  | component (name : String)
  /-- A schema that stands outside the components. -/
  | schema (schema : Schema) (location : String)
  deriving Repr

namespace Query

variable (d : Document)

/-- The resolution that answers the query. -/
def work : Query → Resolution Node
  | .pointer p => d.resolve p
  | .component c => d.resolveComponent c
  | .schema t location => d.resolveSchema t location

/-- The request that starts the run. -/
def request : Query → Request
  | .pointer p => .reference p p false
  | .component c => .reference (Pointer.component c) (Pointer.component c) false
  | .schema t location => .schema t location none false

/-- How many schemas the description and the query hold. -/
def size : Query → Nat
  | .schema t _ => d.size + t.size
  | _ => d.size

/-- The pointers that the query and the description refer to. -/
def pointers : Query → List String
  | .pointer p => p :: d.references
  | .component c => Pointer.component c :: d.references
  | .schema t _ => t.references ++ d.references

/-- The distinct pointers that the query and the description refer to, and those of their
components. -/
def known (query : Query) : Finset String := universeOf (query.pointers d)

theorem work_eq (query : Query) :
    query.work d = d.follow (Document.stepBound (query.size d)) query.request := by
  cases query <;> rfl

theorem known_universe (query : Query) : Universe d (query.known d) := by
  refine universe_universeOf ?_
  cases query with
  | pointer p => exact List.subset_cons_self _ _
  | component c => exact List.subset_cons_self _ _
  | schema t location => exact List.subset_append_right _ _

theorem size_le (query : Query) : d.size ≤ query.size d := by
  cases query with
  | pointer p => exact Nat.le_refl _
  | component c => exact Nat.le_refl _
  | schema t location => exact Nat.le_add_right _ _

/-- A run starts where it may, if nothing is open. -/
theorem sits (query : Query) {s : Session} (hs : s.stack = []) :
    Sits (query.known d) (query.size d) (Document.stepBound (query.size d)) query.request s where
  fits := by
    cases query with
    | pointer p => simp [known, pointers, request, Request.Fits, universeOf]
    | component c => simp [known, pointers, request, Request.Fits, universeOf]
    | schema t location =>
      refine ⟨Nat.le_add_left _ _, fun p hp => ?_⟩
      simp [known, pointers, universeOf, hp]
  need := by
    cases query with
    | pointer p => exact d.need_reference_le p s.stack
    | component c => exact d.need_reference_le (Pointer.component c) s.stack
    | schema t location => exact d.need_schema_le t location s.stack
  stacked := by
    rw [hs]
    exact .nil
  known := by simp [hs]

/-- **The open pointers at every moment of a run**: each of them is open at most once in the
ordinary way and at most once more, and there are at most two frames for each pointer. -/
theorem moment (query : Query) {s t : Session} {q : Request} (hs : s.stack = [])
    (h : d.Moment (Document.stepBound (query.size d)) query.request s q t) :
    Orderly t.stack ∧ t.stack.length ≤ 2 * (query.known d).card := by
  obtain ⟨left, hsits⟩ := h.sits (query.known_universe d) (query.size_le d) (query.sits d hs)
  exact ⟨hsits.stacked.orderly, hsits.stacked.length_le hsits.known⟩

/-- **Every run ends**, with a node or because the description is at fault; the open pointers are
the same as before. -/
theorem ends (query : Query) (s : Session) :
    Ends (query.work d) s (fun _ t => t.stack = s.stack) fun e t =>
      e ≠ .exhausted ∧ t.stack = s.stack := by
  have hsteady : Ends (query.work d) s (fun _ t => s.Later t) fun _ t => s.Later t := by
    rw [work_eq]
    exact d.follow_steady _ query.request s
  have hends : Ends (query.work d) s (fun _ t => s.Later t) NotExhausted := by
    cases query with
    | pointer p => exact d.resolve_ends p s
    | component c => exact d.resolve_ends (Pointer.component c) s
    | schema t location => exact d.resolveSchema_ends t location s
  exact (hsteady.and hends).mono (fun _ _ h => h.1.stack) fun _ _ h => ⟨h.2, h.1.stack⟩

end Query

/-! ### Runs one after the other -/

/-- The sessions that runs lead to, one after the other; in between, findings are added. -/
inductive Document.Used (d : Document) : Session → Prop where
  | start : Used d {}
  | run {s t : Session} {n : Node} (query : Query) (h : Used d s) (hn : query.work d s = .ok n t) :
      Used d t
  | noted {s : Session} (findings : List Diagnostic) (h : Used d s) :
      Used d { s with diagnostics := findings }

/-- The node answers the query in a session that runs lead to. -/
def Document.Answers (d : Document) (query : Query) (n : Node) : Prop :=
  ∃ s t, d.Used s ∧ query.work d s = .ok n t

/-- The node is the answer to the request, at a moment of a run. -/
inductive Document.Arises (d : Document) (r : Request) (n : Node) : Prop where
  | intro {query : Query} {s t u : Session} {depth : Nat} (hs : d.Used s)
      (hmoment : d.Moment (stepBound (query.size d)) query.request s r t)
      (hn : d.follow depth r t = .ok n u) : Arises d r n

/-- What answers a query is an answer at the first moment of a run. -/
theorem Document.Answers.arises {d : Document} {query : Query} {n : Node}
    (h : d.Answers query n) : d.Arises query.request n := by
  obtain ⟨s, t, hs, hn⟩ := h
  rw [Query.work_eq] at hn
  exact ⟨hs, .start, hn⟩

end ApiBinding
