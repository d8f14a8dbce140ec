import ApiBinding.Proofs.Resolver.Naming
import ApiBinding.Proofs.Resolver.Parts
import ApiBinding.Proofs.Resolver.Sharing

/-!
# What failed calls leave behind

A call may fail at any depth, and the next call goes on with what the failed one has left.  Nothing
of that is in the way: no pointer is left open, and what is kept is what it would be after a call
that succeeds.  Each node that a call has kept is the answer to a request that was completed in the
call, however the call itself has ended.

## Main definitions

* `Document.Completes` — a pointer is entered and answered during a run.

## Main results

* `Document.follow_completes` — **what a run keeps is the answer to a request that was completed.**
* `Document.Completes.name` — the node of a component bears its name.
* `Document.Route.not_kept` — a component is not kept if its resolution fails.
* `Document.calls_leave` — **what calls leave behind**, whether they succeed or fail.
-/

namespace ApiBinding

open Resolution

namespace Document

variable {d : Document} {depth left : Nat} {r q : Request} {s t u : Session} {p : String} {n : Node}

/-- During the run a request enters the pointer, which is neither kept nor open at that time, and
the node is the answer to it. -/
inductive Completes (d : Document) (depth : Nat) (r : Request) (s : Session) (p : String)
    (n : Node) : Prop where
  | intro {q : Request} {left : Nat} {t u : Session}
      (hroute : d.Route (fun _ _ => True) depth r s left q t) (hseeks : q.Seeks p)
      (hnone : Table.get? t.cache p = none) (hno : ¬ t.inProgress p)
      (hn : d.follow left q t = .ok n u) : Completes d depth r s p n

theorem Completes.inside (hmakes : Makes d (d.follow depth) r s q t)
    (h : d.Completes depth q t p n) : d.Completes (depth + 1) r s p n := by
  obtain ⟨hroute, hseeks, hnone, hno, hn⟩ := h
  exact .intro (.on trivial hmakes hroute) hseeks hnone hno hn

/-! ### What a run keeps -/

/-- What is kept now was kept before, or its pointer has been completed in between. -/
def Earned (d : Document) (depth : Nat) (r : Request) (s : Session)
    (cache : Table String Node) : Prop :=
  ∀ p n, Table.get? cache p = some n → Table.get? s.cache p = some n ∨ d.Completes depth r s p n

theorem Earned.step (hs : d.Earned (depth + 1) r s t.cache)
    (hmakes : Makes d (d.follow depth) r s q t) (h : d.Earned depth q t u.cache) :
    d.Earned (depth + 1) r s u.cache := by
  intro p n hn
  rcases h p n hn with hn | hcompletes
  · exact hs p n hn
  · exact .inr (hcompletes.inside hmakes)

theorem earned_refl : d.Earned depth r s s.cache := fun _ _ hn => .inl hn

/-- Runs with a number of steps keep nothing but the answers to requests that were completed. -/
def Earning (d : Document) (depth : Nat) : Prop :=
  ∀ r s, Ends (d.follow depth r) s (fun _ t => d.Earned depth r s t.cache)
    fun _ t => d.Earned depth r s t.cache

/-- Work that makes its requests on behalf of another one, and keeps nothing itself. -/
theorem Earned.ends {x : Follow → Resolution Node} (hx : Inquiry (fun _ => False) x)
    (hrun : d.Earning depth)
    (hmakes : ∀ q t, ComesTo x (d.follow depth) s q t → Makes d (d.follow depth) r s q t) :
    Ends (x (d.follow depth)) s (fun _ u => d.Earned (depth + 1) r s u.cache)
      fun _ u => d.Earned (depth + 1) r s u.cache := by
  have hbrackets : Bracketed (fun u => d.Earned (depth + 1) r s u.cache)
      fun u => d.Earned (depth + 1) r s u.cache := bracketed_cache fun _ h => h
  refine hx.ends hbrackets (fun _ _ _ hno => hno.elim) (fun q t hcomes ht => ?_) earned_refl
  exact (hrun q t).mono (fun _ _ hu => ht.step (hmakes q t hcomes) hu)
    fun _ _ hu => ht.step (hmakes q t hcomes) hu

/-- The node that is kept when a pointer is entered is the answer to the request itself. -/
theorem Earned.remember (h : d.Earned depth r s u.cache) (hseeks : r.Seeks p)
    (hnone : Table.get? s.cache p = none) (hno : ¬ s.inProgress p)
    (hn : d.follow depth r s = .ok n t) :
    d.Earned depth r s (Table.insert u.cache p n) := by
  intro p' n' hn'
  rw [Table.get?_insert] at hn'
  split at hn'
  · rename_i heq
    obtain rfl : n = n' := Option.some.inj hn'
    subst heq
    exact .inr (.intro .here hseeks hnone hno hn)
  · exact h p' n' hn'

theorem Earned.reference {location : String} {link : Bool} (hseeks : r.Seeks p)
    (hrun : d.Earning depth)
    (hstep : ∀ answer, Follow.step answer d r s = Follow.reference answer d p location link s) :
    Ends (d.follow (depth + 1) r) s (fun _ u => d.Earned (depth + 1) r s u.cache)
      fun _ u => d.Earned (depth + 1) r s u.cache := by
  -- The node is kept as the last thing, when the answer is there.
  let kept (n : Node) (t : Session) : Prop :=
    d.Earned (depth + 1) r s t.cache ∨ Table.get? s.cache p = none ∧ ¬ s.inProgress p ∧
      ∃ u : Session, d.Earned (depth + 1) r s u.cache ∧ t.cache = Table.insert u.cache p n
  have hends : Ends (Follow.reference (d.follow depth) d p location link) s kept
      fun _ t => d.Earned (depth + 1) r s t.cache := by
    refine Follow.reference_ends (fun _ _ => earned_refl) (fun _ _ => .inl earned_refl)
      (fun _ _ _ _ => .inl earned_refl) (fun _ _ _ _ => earned_refl)
      fun target htarget hnone hno => ?_
    rw [Follow.enter_eq_entered, ends_bind]
    refine (Earned.ends (r := r) (Follow.entered_inquiry p location target link) hrun
      fun q t hcomes => ?_).mono_ok fun n u hu => .inr ⟨hnone, hno, u, hu, rfl⟩
    have hmakes := makes_entered htarget hnone hno hcomes
    intro answer e hq hothers
    rw [hstep]
    exact hmakes answer e hq hothers
  have hfollow :
      Ends (d.follow (depth + 1) r) s kept fun _ t => d.Earned (depth + 1) r s t.cache := by
    have heq : d.follow (depth + 1) r s = Follow.reference (d.follow depth) d p location link s :=
      hstep (d.follow depth)
    unfold Ends at hends ⊢
    rwa [heq]
  refine hfollow.run.mono (fun n t ⟨hn, ht⟩ => ?_) fun _ _ h => h.2
  rcases ht with ht | ⟨hnone, hno, u, hu, hcache⟩
  · exact ht
  · rw [hcache]
    exact hu.remember hseeks hnone hno hn

/-- **What a run keeps is the answer to a request that was completed**, however the run ends. -/
theorem follow_completes (d : Document) : ∀ depth, d.Earning depth
  | 0, _, _ => earned_refl
  | depth + 1, r, s => by
    have hrun := d.follow_completes depth
    cases r with
    | schema schema location name spine =>
      exact Earned.ends (Follow.schema_inquiry schema location name spine) hrun
        fun q t hcomes => hcomes
    | reference p location link => exact Earned.reference rfl hrun fun _ => rfl
    | fragment p location spine =>
      by_cases hp : s.inProgress p
      · refine Follow.fragment_ends (fun _ _ => earned_refl) (fun _ _ => earned_refl)
          (fun _ _ => earned_refl) (fun target htarget hchain _ hfresh => ?_)
          fun _ hno => absurd hp hno
        exact Earned.ends (Follow.expand_inquiry p target spine true) hrun fun q t hcomes =>
          makes_expanded htarget hchain hp hfresh hcomes
      · exact Earned.reference rfl hrun fun answer => Follow.fragment_eq answer d location spine hp

/-! ### The nodes of components -/

/-- The node of the body of a component bears the name of the component. -/
theorem follow_named (d : Document) (depth : Nat) (schema : Schema) (location c : String)
    (spine : Bool) (s : Session) :
    Ends (d.follow depth (.schema schema location (some c) spine)) s (fun n _ => n.name = some c)
      fun _ _ => True := by
  cases depth with
  | zero => trivial
  | succ depth =>
    have hbrings : Brings (fun _ => True) (fun _ _ => True)
        (Follow.schema (d.follow depth) d schema location (some c) spine) _ :=
      Follow.schema_brings (Q := fun _ _ _ => True) (fun _ _ _ _ => trivial)
        (fun _ _ _ _ _ _ => trivial) (fun _ _ _ _ _ _ _ _ _ => trivial)
        fun r _ => (d.follow_steady depth).brings fun t _ =>
          ends_trivial (fun _ _ => ⟨trivial, trivial⟩) fun _ _ => trivial
    refine (hbrings s trivial).mono_ok fun n t ⟨_, _, hbuilt⟩ => ?_
    obtain ⟨body, hannotated⟩ := hbuilt.annotated (schema.own_component c spine)
    exact hannotated.name

/-- **A component that is neither kept nor open**: the node that answers a request for it bears its
name, and it is not kept if there is no answer. -/
theorem follow_whole {c : String} (hseeks : r.Seeks p) (hp : Pointer.Whole p c)
    (hnone : Table.get? s.cache p = none) (hno : ¬ s.inProgress p) :
    Ends (d.follow depth r) s (fun n _ => n.name = some c) fun _ t =>
      Table.get? t.cache p = none := by
  have hreference : ∀ depth location link,
      Ends (Follow.reference (d.follow depth) d p location link) s
        (fun n _ => n.name = some c) fun _ t => Table.get? t.cache p = none := by
    intro depth location link
    refine Follow.reference_ends (fun _ _ => hnone) (fun n hn => by simp [hnone] at hn)
      (fun _ _ h => absurd h hno) (fun _ _ h => absurd h hno) fun target htarget _ _ => ?_
    obtain ⟨hcomponent, hc, -⟩ := target_whole htarget hp
    refine Follow.enter_ends (fun t _ hts => ?_) fun hpart => absurd hc hpart
    subst hts
    refine Follow.expand_ends ?_
    rw [if_pos hc, hcomponent]
    -- Inside the frame the component is open, so it is not kept there.
    have hopen : Session.inProgress { t with stack := ⟨p, link, false⟩ :: t.stack } p := by
      simp [Session.inProgress]
    exact ((d.follow_named depth target.schema p c true _).and (d.follow_preserves depth _ _)).mono
      (fun _ _ h => h.1) fun _ _ h => h.2.barred p hopen hnone
  cases depth with
  | zero => exact hnone
  | succ depth =>
    cases r with
    | schema => exact hseeks.elim
    | reference pointer location link =>
      obtain rfl : p = pointer := hseeks
      exact hreference depth location link
    | fragment pointer location spine =>
      obtain rfl : p = pointer := hseeks
      have hends := hreference depth location spine
      have heq : d.follow (depth + 1) (.fragment p location spine) s =
          Follow.reference (d.follow depth) d p location spine s :=
        Follow.fragment_eq (d.follow depth) d location spine hno
      unfold Ends at hends ⊢
      rwa [heq]

/-- The node that completes a component bears its name. -/
theorem Completes.name {c : String} (h : d.Completes depth r s p n) (hp : Pointer.Whole p c) :
    n.name = some c := by
  obtain ⟨-, hseeks, hnone, hno, hn⟩ := h
  exact (follow_whole hseeks hp hnone hno).of_ok hn

/-- **A component is not kept if its resolution fails**: the failure ends the run. -/
theorem Route.not_kept {through : Request → Session → Prop} {c : String} {e : Interruption}
    (h : d.Route through depth r s left q t) (hseeks : q.Seeks p) (hp : Pointer.Whole p c)
    (hnone : Table.get? t.cache p = none) (hno : ¬ t.inProgress p)
    (he : d.follow left q t = .error e u) :
    Ends (d.follow depth r) s (fun _ _ => False) fun _ v => Table.get? v.cache p = none := by
  induction h with
  | here => exact (ends_of_error he).2 ((follow_whole hseeks hp hnone hno).of_error he)
  | on hr hmakes hroute ih =>
    exact (Follow.step_inquiry d _).resumes (I := fun _ => False)
      (J := fun cache => Table.get? cache p = none) (fun _ h => h.elim) (fun _ _ _ _ h => h)
      (fun _ _ h => h.elim) hmakes.comesTo (ih hseeks hnone hno he)

end Document

/-! ### Parts of proper nodes -/

theorem Shape.Proper.parts {K : String → Prop} {shape : Shape Node} (h : shape.Proper K) {m : Node}
    (hm : m ∈ shape.parts) : m.Proper K := by
  cases h with
  | any => simp [Shape.parts] at hm
  | null => simp [Shape.parts] at hm
  | scalar => simp [Shape.parts] at hm
  | enumeration => simp [Shape.parts] at hm
  | backRef h => simp [Shape.parts] at hm
  | object hproperties hadditional =>
    rcases Shape.mem_parts_object.1 hm with ⟨e, he, rfl⟩ | hadd
    · exact hproperties e he
    · exact hadditional m hadd
  | array h =>
    rw [Shape.parts, List.mem_singleton] at hm
    exact hm ▸ h
  | untagged h => exact h m hm
  | tagged h htags => exact h m hm

/-- The nodes inside a proper node are proper, at any depth. -/
theorem Node.Proper.within {K : String → Prop} {m n : Node} (h : n.Proper K)
    (hm : Relation.ReflTransGen Node.Inside m n) : m.Proper K := by
  induction hm using Relation.ReflTransGen.head_induction_on with
  | refl => exact h
  | head hinside _ ih => exact ih.shape.parts hinside

/-- The back references in a proper node name components of the kind. -/
theorem Node.Proper.backRef {K : String → Prop} {m n : Node} {c : String} (h : n.Proper K)
    (hm : Relation.ReflTransGen Node.Inside m n) (hc : m.shape = .backRef c) : K c := by
  have hproper := (h.within hm).shape
  rw [hc] at hproper
  cases hproper with
  | backRef hK => exact hK

/-! ### Calls -/

namespace Document

variable {d : Document} {s : Session}

theorem Continues.named (h : d.Continues {} s) : s.Named d := by
  induction h with
  | refl => exact Session.named_empty rfl
  | call query _ ih =>
    have hends := (query.work_names ih).mono_ok fun _ _ h => h.1
    exact Query.leaves_of_ends (P := fun t => t.Named d) hends
  | noted _ _ ih => exact ih

/-- What a call keeps is the answer to a request that was completed. -/
theorem leaves_earned (d : Document) (query : Query) (s : Session) :
    d.Earned (stepBound (query.size d)) query.request s (query.leaves d s).cache := by
  have hends := d.follow_completes (stepBound (query.size d)) query.request s
  rw [← Query.work_eq] at hends
  exact Query.leaves_of_ends
    (P := fun t => d.Earned (stepBound (query.size d)) query.request s t.cache) hends

/-- The kept nodes of components bear their names. -/
theorem Continues.headed (h : d.Continues {} s) {p c : String} {n : Node} (hp : Pointer.Whole p c)
    (hn : Table.get? s.cache p = some n) : n.name = some c := by
  induction h with
  | refl => simp at hn
  | @call t query _ ih =>
    rcases d.leaves_earned query t p n hn with hn | hcompletes
    · exact ih hn
    · exact hcompletes.name hp
  | noted _ _ ih => exact ih hn

/-- **What calls leave behind**, whether they succeed or fail: no pointer is open; the kept nodes of
components bear their names; back references, in what is kept and in what is answered, name
components of the description; what a call has kept is the answer to a request that was completed;
and a component whose resolution has failed is not kept. -/
theorem calls_leave (d : Document) {s : Session} (hs : d.Continues {} s) :
    s.stack = [] ∧
    (∀ p c n, Pointer.Whole p c → Table.get? s.cache p = some n → n.name = some c) ∧
    (∀ p n m c, Table.get? s.cache p = some n → Relation.ReflTransGen Node.Inside m n →
      m.shape = .backRef c → c ∈ d.componentNames) ∧
    ∀ query : Query,
      (∀ n t m c, query.work d s = .ok n t → Relation.ReflTransGen Node.Inside m n →
        m.shape = .backRef c → c ∈ d.componentNames) ∧
      (∀ p n, Table.get? (query.leaves d s).cache p = some n → Table.get? s.cache p = some n ∨
        d.Completes (stepBound (query.size d)) query.request s p n) ∧
      ∀ p c left q t e u, Pointer.Whole p c →
        d.Route (fun _ _ => True) (stepBound (query.size d)) query.request s left q t →
        q.Seeks p → Table.get? t.cache p = none → ¬ t.inProgress p →
        d.follow left q t = .error e u → Table.get? (query.leaves d s).cache p = none := by
  refine ⟨hs.stack, fun p c n hp hn => hs.headed hp hn, fun p n m c hn => (hs.named p n hn).backRef,
    fun query => ⟨fun n t m c hn => ?_, d.leaves_earned query s, ?_⟩⟩
  · exact ((query.work_names hs.named).of_ok hn).2.backRef
  · intro p c left q t e u hp hroute hseeks hnone hno he
    have hends := hroute.not_kept hseeks hp hnone hno he
    rw [← Query.work_eq] at hends
    exact Query.leaves_of_ends (P := fun v => Table.get? v.cache p = none)
      (hends.mono_ok fun _ _ h => h.elim)

end Document

/-! ### A call that fails -/

/-- Ships in a convoy, each of which follows another one; the pilot is nowhere declared. -/
def convoy : Document where
  components.schemas :=
    [("Convoy", { properties := [("first", { reference := some "#/components/schemas/Ship" }),
                                 ("pilot", { reference := some "#/components/schemas/Pilot" })] }),
     ("Ship", { properties := [("ahead", { reference := some "#/components/schemas/Ship" })] })]

/-- The convoy has no node, but its first ship has been completed before the pilot is missed: the
ship is kept, bears its name and refers back to itself, and nothing is kept for the convoy. -/
theorem calls_leave_convoy :
    (∃ e t, (Query.component "Convoy").work convoy {} = .error e t) ∧
      ((Query.component "Convoy").leaves convoy {}).stack = [] ∧
      Table.get? ((Query.component "Convoy").leaves convoy {}).cache "#/components/schemas/Convoy" =
        none ∧
      ∃ n, Table.get? ((Query.component "Convoy").leaves convoy {}).cache
          "#/components/schemas/Ship" = some n ∧ n.name = some "Ship" ∧
        convoy.Completes (Document.stepBound ((Query.component "Convoy").size convoy))
          (Query.component "Convoy").request {} "#/components/schemas/Ship" n := by
  have hstart : convoy.Continues {} {} := .refl
  have hafter : convoy.Continues {} ((Query.component "Convoy").leaves convoy {}) :=
    .call _ hstart
  have hfails : ∃ e t, (Query.component "Convoy").work convoy {} = .error e t := by
    have hno : ¬ yields ((Query.component "Convoy").work convoy) {} (fun _ => true) := by
      decide +kernel
    unfold yields at hno
    split at hno
    · simp at hno
    · exact ⟨_, _, ‹_›⟩
  have hkept : (Table.get? ((Query.component "Convoy").leaves convoy {}).cache
      "#/components/schemas/Ship").isSome := by decide +kernel
  obtain ⟨n, hn⟩ := Option.isSome_iff_exists.1 hkept
  obtain ⟨hstack, hnames, -, -⟩ := Document.calls_leave convoy hafter
  obtain ⟨-, hearned, hfailed⟩ := (Document.calls_leave convoy hstart).2.2.2 (.component "Convoy")
  have hpointer : Pointer.component "Convoy" = "#/components/schemas/Convoy" := by decide +kernel
  refine ⟨hfails, hstack, ?_, n, hn, hnames _ "Ship" n (by decide +kernel) hn, ?_⟩
  · obtain ⟨e, t, he⟩ := hfails
    rw [Query.work_eq] at he
    exact hfailed _ "Convoy" _ _ {} e t (by decide +kernel) .here hpointer.symm rfl
      Bool.false_ne_true he
  · exact (hearned _ n hn).resolve_left (by simp)

end ApiBinding
