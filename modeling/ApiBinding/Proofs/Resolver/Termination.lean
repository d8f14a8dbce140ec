import ApiBinding.Proofs.Document.References
import ApiBinding.Proofs.Resolver.Components
import Mathlib.Data.Finset.Card
import Mathlib.Data.Finset.Prod
import Mathlib.Data.Fintype.Card
import Mathlib.Tactic.Linarith

/-!
# Every resolution ends

A pointer is open at most twice, once in the ordinary way and once more as a fragment, and
between two frames a resolution only descends into a schema.  So the number of nested steps
is bounded: by the room that is left on the stack, times the depth of a schema.

What is shown of one step is a little more, for use elsewhere: the step makes requests only with
open pointers that may be open, and it ends as these requests do, or with a rejection.

## Main definitions

* `Universe` — finitely many pointers that no resolution leaves.
* `MayOpen` — when a frame is opened.
* `room` — how many frames may still be opened.
* `Request.need` — a number of nested steps that suffices for a request.
* `Suffices` — how requests end for which there are enough steps.

## Main results

* `Suffices.step` — how one step ends, from how its requests end.
* `Document.follow_ends` — a run with as many steps as are needed is not exhausted.
* `Document.resolve_ends`, `Document.resolveSchema_ends` — resolutions are never exhausted.
-/

namespace ApiBinding

/-! ### The pointers of a resolution -/

/-- Pointers that no resolution leaves: with a pointer they have the pointer to its
component. -/
structure Universe (d : Document) (U : Finset String) : Prop where
  references : ∀ p ∈ d.references, p ∈ U
  roots : ∀ p ∈ U, ∀ t location, d.target p location = .ok t → Pointer.component t.component ∈ U

/-- The pointer to the component that a pointer leads into. -/
def rootOf (pointer : String) : Option String :=
  (Pointer.tokens? pointer).map fun t => Pointer.component t.1

/-- The given pointers and those to their components. -/
def universeOf (pointers : List String) : Finset String :=
  pointers.toFinset ∪ (pointers.filterMap rootOf).toFinset

theorem rootOf_component (name : String) :
    rootOf (Pointer.component name) = some (Pointer.component name) := by
  have h : Pointer.tokens? (Pointer.component name) = some (name, []) :=
    Pointer.whole_component name
  rw [rootOf, h, Option.map_some]

theorem universe_universeOf {d : Document} {pointers : List String}
    (h : d.references ⊆ pointers) : Universe d (universeOf pointers) := by
  refine ⟨fun p hp => ?_, fun p hp t location ht => ?_⟩
  · simp [universeOf, h hp]
  · have hroot : rootOf p = some (Pointer.component t.component) := by
      rw [rootOf, (Document.target_eq_ok_iff.1 ht).1, Option.map_some]
    simp only [universeOf, Finset.mem_union, List.mem_toFinset, List.mem_filterMap] at hp ⊢
    rcases hp with hp | ⟨q, hq, hqp⟩
    · exact .inr ⟨p, hp, hroot⟩
    · -- The pointer is one to a component, which leads to itself.
      cases htokens : Pointer.tokens? q with
      | none => simp [rootOf, htokens] at hqp
      | some parts =>
        rw [rootOf, htokens, Option.map_some, Option.some.injEq] at hqp
        rw [← hqp, rootOf_component, Option.some.injEq, hqp] at hroot
        exact .inr ⟨q, hq, by rw [rootOf, htokens, Option.map_some, hqp, ← hroot]⟩

theorem card_universeOf_le (pointers : List String) :
    (universeOf pointers).card ≤ 2 * pointers.length := by
  have hleft := pointers.toFinset_card_le
  have hright := (pointers.filterMap rootOf).toFinset_card_le
  have hmap := List.length_filterMap_le rootOf pointers
  have hunion := Finset.card_union_le pointers.toFinset (pointers.filterMap rootOf).toFinset
  unfold universeOf
  omega

/-! ### Room on the stack -/

/-- Whether a frame may be opened for a pointer, in the ordinary way or once more. -/
def vacant (stack : List Frame) (slot : String × Bool) : Bool :=
  !stack.any fun f => f.pointer == slot.1 && f.fresh == slot.2

/-- When a frame is opened: in the ordinary way if the pointer is not open, and once more if it is
open, but not more than once. -/
def MayOpen (stack : List Frame) (f : Frame) : Prop :=
  if f.fresh then openIn stack f.pointer ∧ vacant stack (f.pointer, true)
  else ¬ openIn stack f.pointer

/-- How many frames may still be opened. -/
def room (U : Finset String) (stack : List Frame) : Nat :=
  ((U ×ˢ Finset.univ).filter fun slot => vacant stack slot).card

/-- Opening a frame takes room. -/
theorem room_lt {U : Finset String} {stack : List Frame} {f : Frame} (hf : f.pointer ∈ U)
    (h : vacant stack (f.pointer, f.fresh)) : room U (f :: stack) < room U stack := by
  refine Finset.card_lt_card (Finset.ssubset_iff_of_subset ?_ |>.2 ⟨(f.pointer, f.fresh), ?_, ?_⟩)
  · refine Finset.monotone_filter_right _ fun slot _ hslot => ?_
    simp only [vacant, List.any_cons, Bool.not_or, Bool.and_eq_true] at hslot ⊢
    exact hslot.2
  · simp [hf, h]
  · simp [vacant]

theorem room_le {U : Finset String} (stack : List Frame) : room U stack ≤ 2 * U.card := by
  refine (Finset.card_filter_le _ _).trans ?_
  rw [Finset.card_product, Finset.card_univ, Fintype.card_bool, Nat.mul_comm]

theorem MayOpen.vacant {stack : List Frame} {f : Frame} (h : MayOpen stack f) :
    vacant stack (f.pointer, f.fresh) := by
  unfold MayOpen at h
  split at h
  · rename_i hfresh
    rw [hfresh]
    exact h.2
  · simp only [ApiBinding.vacant, Bool.not_eq_true', List.any_eq_false, Bool.and_eq_true,
      beq_iff_eq, not_and]
    exact fun g hg hp => absurd ⟨g, hg, hp⟩ h

theorem mayOpen_of_not_inProgress {s : Session} {pointer : String} {link : Bool}
    (h : ¬ s.inProgress pointer) : MayOpen s.stack ⟨pointer, link, false⟩ := by
  rwa [Session.inProgress_iff] at h

theorem mayOpen_again {s : Session} {pointer : String} {link : Bool} (h : s.inProgress pointer)
    (hfresh : ¬ s.inFreshProgress pointer) : MayOpen s.stack ⟨pointer, link, true⟩ := by
  refine ⟨Session.inProgress_iff.1 h, ?_⟩
  simp only [Session.inFreshProgress, List.any_eq_true, Bool.and_eq_true, beq_iff_eq, not_exists,
    not_and] at hfresh
  simp only [vacant, Bool.not_eq_true', List.any_eq_false, Bool.and_eq_true, beq_iff_eq, not_and]
  exact fun f hf hp => hfresh f hf hp

/-! ### Steps that suffice -/

/-- How many steps it takes to come from a pointer to what it addresses: a part of a component
is looked up in its component first. -/
def lookupSteps (pointer : String) : Nat :=
  match Pointer.tokens? pointer with
  | some (_, []) => 1
  | _ => 2

theorem lookupSteps_whole {pointer component : String} (h : Pointer.Whole pointer component) :
    lookupSteps pointer = 1 := by
  rw [lookupSteps, h]

theorem lookupSteps_part {d : Document} {pointer location : String} {t : Target}
    (ht : d.target pointer location = .ok t) (hc : ¬ t.isComponent) : lookupSteps pointer = 2 := by
  rw [lookupSteps, (Document.target_eq_ok_iff.1 ht).1]
  cases hs : t.steps with
  | nil => simp [Target.isComponent, hs] at hc
  | cons step rest => rfl

theorem one_le_lookupSteps (pointer : String) : 1 ≤ lookupSteps pointer := by
  unfold lookupSteps
  split <;> omega

theorem lookupSteps_le (pointer : String) : lookupSteps pointer ≤ 2 := by
  unfold lookupSteps
  split <;> omega

/-- A number of nested steps that suffices for a request, when no schema has more than `n`
schemas inside. -/
def Request.need (U : Finset String) (n : Nat) (stack : List Frame) : Request → Nat
  | .reference p _ _ | .fragment p _ _ => room U stack * (n + 3) + lookupSteps p
  | .schema t _ _ _ => room U stack * (n + 3) + t.size + 2

/-- A request about pointers in the universe and schemas of a bounded size. -/
def Request.Fits (U : Finset String) (n : Nat) : Request → Prop
  | .reference p _ _ | .fragment p _ _ => p ∈ U
  | .schema t _ _ _ => t.size ≤ n ∧ ∀ p ∈ t.references, p ∈ U

/-- The end is not for want of steps. -/
def NotExhausted (e : Interruption) (_ : Session) : Prop := e ≠ .exhausted

section Ends

variable {d : Document} {U : Finset String} {n depth : Nat} {follow : Follow}

theorem ObjectPart.inside {s t : Schema} (h : ObjectPart s t) : t.Inside s := by
  cases h with
  | property h => exact .property h
  | additional h => exact .additional h

/-- The schemas that a schema leads to are inside it. -/
theorem Leads.inside {s t : Schema} {name name' : Option String} {spine spine' : Bool}
    {location : String} (h : Leads s name spine (.schema t location name' spine')) :
    t.Inside s := by
  cases h with
  | inline h hf hr => exact .allOf hf
  | own h ha ht => exact ht.inside
  | member h hm =>
    cases Schema.formed_of_eq h with
    | oneOf => exact .oneOf hm
    | anyOf => exact .anyOf hm
  | plain h ht =>
    cases ht with
    | object h ht => exact ht.inside
    | items h ht => exact .items ht

/-- What a schema leads to needs fewer steps. -/
theorem Leads.fits {s : Schema} {location : String} {name : Option String} {spine : Bool}
    {r : Request} (h : Leads s name spine r)
    (hs : (Request.schema s location name spine).Fits U n) :
    r.Fits U n ∧ ∀ stack,
      r.need U n stack < (Request.schema s location name spine).need U n stack := by
  have hpointer : ∀ p, (s.reference = some p ∨ ∃ f ∈ s.allOf, f.reference = some p) → p ∈ U := by
    rintro p (hr | ⟨f, hf, hr⟩)
    · exact hs.2 p (Schema.mem_references_of_reference hr)
    · exact hs.2 p ((Schema.Inside.allOf hf).references_subset
        (Schema.mem_references_of_reference hr))
  have hpos := s.size_pos
  cases r with
  | reference p l link =>
    refine ⟨hpointer p h.reference_eq.2, fun stack => ?_⟩
    have := lookupSteps_le p
    simp only [Request.need]
    omega
  | fragment p l spine' =>
    refine ⟨hpointer p (.inr h.fragment_eq.2), fun stack => ?_⟩
    have := lookupSteps_le p
    simp only [Request.need]
    omega
  | schema t l name' spine' =>
    have hin : t.Inside s := h.inside
    refine ⟨⟨(Nat.le_of_lt hin.size_lt).trans hs.1, fun p hp => hs.2 p (hin.references_subset hp)⟩,
      fun stack => ?_⟩
    have := hin.size_lt
    simp only [Request.need]
    omega

/-- What holds of stacks stays so when a frame is opened, and all rejections are covered. -/
structure Covers (U : Finset String) (S : List Frame → Prop) (E : Interruption → Prop) : Prop where
  push : ∀ stack f, S stack → f.pointer ∈ U → MayOpen stack f → S (f :: stack)
  rejected : ∀ cause, E (.rejected cause)

/-- How requests end that fit, need no more than the given number of steps, and are made while
the open pointers are as they should be. -/
def Suffices (U : Finset String) (n : Nat) (S : List Frame → Prop) (E : Interruption → Prop)
    (follow : Follow) (depth : Nat) : Prop :=
  ∀ (r : Request) (s : Session), r.Fits U n → r.need U n s.stack ≤ depth → S s.stack →
    Ends (follow r) s (fun _ t => s.Later t) fun e _ => E e

variable {S : List Frame → Prop} {E : Interruption → Prop}

/-- A pointer is expanded where there is room. -/
theorem Suffices.expand (h : Suffices U n S E follow depth) (hcovers : Covers U S E)
    (hU : Universe d U) (hn : d.size ≤ n) {s : Session} {pointer location : String}
    {target : Target} {link fresh : Bool} (ht : d.target pointer location = .ok target)
    (hp : pointer ∈ U) (hs : S s.stack) (hopen : MayOpen s.stack ⟨pointer, link, fresh⟩)
    (hdepth : room U s.stack * (n + 3) ≤ depth) :
    Ends (Follow.expand follow pointer target link fresh) s (fun _ _ => True) fun e _ => E e := by
  have haddressed := (Document.target_eq_ok_iff.1 ht).2
  have hsize := (Document.addressed?_size_le haddressed).trans hn
  have hroom : room U (⟨pointer, link, fresh⟩ :: s.stack) < room U s.stack :=
    room_lt hp hopen.vacant
  have hmul := Nat.mul_le_mul_right (n + 3) (Nat.succ_le_of_lt hroom)
  rw [Nat.succ_mul] at hmul
  refine Follow.expand_ends ((h (.schema _ _ _ _) _ ⟨hsize, fun p hp => ?_⟩ ?_
    (hcovers.push _ _ hs hp hopen)).mono (fun _ _ _ => trivial) fun _ _ he => he)
  · exact hU.references p (Document.addressed?_references haddressed hp)
  · simp only [Request.need]
    omega

/-- A pointer that is neither kept nor open is entered. -/
theorem Suffices.enter (h : Suffices U n S E follow depth) (hcovers : Covers U S E)
    (hU : Universe d U) (hn : d.size ≤ n) {s : Session} {pointer location : String}
    {target : Target} {link : Bool} (ht : d.target pointer location = .ok target)
    (hp : pointer ∈ U) (hs : S s.stack) (hno : ¬ s.inProgress pointer)
    (hdepth : room U s.stack * (n + 3) + lookupSteps pointer ≤ depth + 1) :
    Ends (Follow.enter follow pointer location target link) s (fun _ _ => True)
      fun e _ => E e := by
  have hone := one_le_lookupSteps pointer
  have hexpand : ∀ t : Session, t.stack = s.stack →
      Ends (Follow.expand follow pointer target link false) t (fun _ _ => True)
        fun e _ => E e := fun t hst =>
    h.expand hcovers hU hn ht hp (hst ▸ hs) (by rw [hst]; exact mayOpen_of_not_inProgress hno)
      (by rw [hst]; omega)
  refine Follow.enter_ends (fun t _ hts => ?_) fun hc _ => ?_
  · exact hexpand t (by rw [hts])
  · have htwo := lookupSteps_part ht hc
    have hroot := lookupSteps_whole (Pointer.whole_component target.component)
    refine (h (.reference _ _ _) s (hU.roots pointer hp target location ht) ?_ hs).mono_ok
      fun root t hst =>
      ⟨fun _ _ => trivial, fun _ => hexpand t hst.stack⟩
    simp only [Request.need]
    omega

theorem Suffices.reference (h : Suffices U n S E follow depth) (hcovers : Covers U S E)
    (hU : Universe d U) (hn : d.size ≤ n) {s : Session} {pointer location : String} {link : Bool}
    (hp : pointer ∈ U) (hs : S s.stack)
    (hdepth : room U s.stack * (n + 3) + lookupSteps pointer ≤ depth + 1) :
    Ends (Follow.reference follow d pointer location link) s (fun _ _ => True) fun e _ => E e :=
  Follow.reference_ends (fun _ _ => hcovers.rejected _) (fun _ _ => trivial)
    (fun _ _ _ _ => trivial) (fun _ _ _ _ => hcovers.rejected _)
    fun _ ht _ hno => h.enter hcovers hU hn ht hp hs hno hdepth

/-- **How one step ends, from how its requests end**: there is one more step, and the open
pointers are as they should be. -/
theorem Suffices.step (h : Suffices U n S E follow depth) (hcovers : Covers U S E)
    (hsteady : Steady follow) (hU : Universe d U) (hn : d.size ≤ n) :
    Suffices U n S E (Follow.step follow d) (depth + 1) := by
  intro r s hfits hneed hs
  refine ((hsteady.step r s).and (?_ : Ends _ s (fun _ _ => True) fun e _ => E e)).mono
    (fun _ _ ht => ht.1) fun _ _ he => he.2
  cases r with
  | reference pointer location link => exact h.reference hcovers hU hn hfits hs hneed
  | fragment pointer location spine =>
    have hone := one_le_lookupSteps pointer
    simp only [Request.need] at hneed
    refine Follow.fragment_ends (fun _ _ => hcovers.rejected _) (fun _ _ => hcovers.rejected _)
      (fun _ _ => hcovers.rejected _) (fun target ht _ hprogress hfresh => ?_)
      fun _ _ => h.reference hcovers hU hn hfits hs hneed
    exact h.expand hcovers hU hn ht hfits hs (mayOpen_again hprogress hfresh) (by omega)
  | schema schema location name spine =>
    have hfollow : ∀ r, Leads schema name spine r →
        Brings (fun u => s.Later u) (fun e _ => E e) (follow r) fun _ _ => True := by
      intro r hr t ht
      obtain ⟨hrfits, hlt⟩ := hr.fits hfits
      have hlt := hlt t.stack
      rw [ht.stack] at hlt
      refine (h r t hrfits (by rw [ht.stack]; omega) (ht.stack ▸ hs)).mono_ok fun _ u hu =>
        ⟨ht.trans hu, hu, trivial⟩
    exact (Follow.schema_brings (Q := fun _ _ _ => True) (fun t u htu ht => ht.trans htu.later)
      (fun _ _ _ _ _ _ => trivial) (fun _ _ _ _ _ _ _ _ _ => hcovers.rejected _) hfollow s
      (.refl s)).mono_ok fun _ _ _ => trivial

/-- Every request needs a step. -/
theorem Request.need_pos (r : Request) (stack : List Frame) : 0 < r.need U n stack := by
  cases r with
  | reference p l link => have := one_le_lookupSteps p; simp only [Request.need]; omega
  | fragment p l spine => have := one_le_lookupSteps p; simp only [Request.need]; omega
  | schema t l name spine => simp only [Request.need]; omega

/-- **A run with as many steps as are needed is not exhausted.** -/
theorem Document.follow_ends (hU : Universe d U) (hn : d.size ≤ n) :
    ∀ depth, Suffices U n (fun _ => True) (· ≠ .exhausted) (d.follow depth) depth
  | 0, r, s, _, hneed, _ => absurd hneed (Nat.not_le_of_lt (r.need_pos s.stack))
  | depth + 1, r, s, hfits, hneed, hs =>
    (Document.follow_ends hU hn depth).step ⟨fun _ _ _ _ _ => trivial, fun _ => nofun⟩
      (d.follow_steady depth) hU hn r s hfits hneed hs

end Ends

/-! ### Resolutions -/

namespace Document

/-- There are enough steps for a pointer. -/
theorem need_reference_le (d : Document) (pointer : String) (stack : List Frame) :
    (Request.reference pointer pointer false).need (universeOf (pointer :: d.references)) d.size
      stack ≤ stepBound d.size := by
  have hcard := card_universeOf_le (pointer :: d.references)
  have hlen := d.length_references_le
  have hroom := room_le (U := universeOf (pointer :: d.references)) stack
  have hlookup := lookupSteps_le pointer
  rw [List.length_cons] at hcard
  have hmul := Nat.mul_le_mul_right (d.size + 3)
    (show room (universeOf (pointer :: d.references)) stack ≤ 4 * d.size + 4 by omega)
  simp only [Request.need, stepBound]
  nlinarith

/-- There are enough steps for a schema. -/
theorem need_schema_le (d : Document) (schema : Schema) (location : String)
    (stack : List Frame) :
    (Request.schema schema location none false).need
      (universeOf (schema.references ++ d.references)) (d.size + schema.size) stack ≤
        stepBound (d.size + schema.size) := by
  have hcard := card_universeOf_le (schema.references ++ d.references)
  have hlen := d.length_references_le
  have hschema := schema.length_references_le
  have hroom := room_le (U := universeOf (schema.references ++ d.references)) stack
  rw [List.length_append] at hcard
  have hmul := Nat.mul_le_mul_right (d.size + schema.size + 3)
    (show room (universeOf (schema.references ++ d.references)) stack
      ≤ 4 * (d.size + schema.size) by omega)
  simp only [Request.need, stepBound]
  nlinarith

/-- **The node of a pointer is found, or the description is at fault.** -/
theorem resolve_ends (d : Document) (pointer : String) (s : Session) :
    Ends (d.resolve pointer) s (fun _ t => s.Later t) NotExhausted := by
  have hU : Universe d (universeOf (pointer :: d.references)) :=
    universe_universeOf (List.subset_cons_self _ _)
  refine Document.follow_ends hU (Nat.le_refl d.size) _ _ s ?_ (d.need_reference_le pointer s.stack)
    trivial
  simp [Request.Fits, universeOf]

/-- **The node of a schema is found, or the description is at fault.** -/
theorem resolveSchema_ends (d : Document) (schema : Schema) (location : String) (s : Session) :
    Ends (d.resolveSchema schema location) s (fun _ t => s.Later t) NotExhausted := by
  have hU : Universe d (universeOf (schema.references ++ d.references)) :=
    universe_universeOf (List.subset_append_right _ _)
  refine Document.follow_ends hU (Nat.le_add_right d.size schema.size) _ _ s ⟨by omega, ?_⟩
    (d.need_schema_le schema location s.stack) trivial
  intro p hp
  simp [universeOf, hp]

end Document

end ApiBinding
