import ApiBinding.Proofs.Compilation.Runs
import Mathlib.Data.List.Chain
import Mathlib.Logic.Relation

/-!
# Cyclic compositions

A composition that contains itself has no finite expansion.  Every composition is expanded
when it is resolved, all of its fragments included: a fragment that is kept was expanded
before, and one that is open for another reason is expanded once more.  So a component
whose resolution has a result is grounded, and a cycle of compositions is never accepted.

The chain that is shown for a cycle is read off the stack.  A frame is linked to the one
below it only if it was entered as a fragment of the composition there, so consecutive
entries of the chain are steps from a composition to one of its fragments.

## Main definitions

* `FragmentOf` — a pointer is written as a fragment of a composition.
* `Document.CompositionStep`, `Document.Composes` — the steps of compositions, between
  pointers and between components.
* `Document.CompositionCycle` — a chain that leads from a composition to itself.
* `Document.Grounded` — no composition goes on for ever from the component.

## Main results

* `groundedClaims_sound` — a component that has a node is grounded.
* `Document.follow_chain` — the chain of an error is a cycle of compositions.
* `cyclic_composition` — **cyclic compositions are rejected, and nothing else is rejected as
  a cyclic composition**.
-/

namespace ApiBinding

/-! ### Fragments -/

/-- The pointer is written as a fragment of the composition, or as one of an inline fragment
nested in it. -/
inductive FragmentOf (p : String) : Schema → Prop where
  | direct {s f : Schema} (hs : s.reference = none) (hf : f ∈ s.allOf)
      (hp : f.reference = some p) : FragmentOf p s
  | inline {s f : Schema} (hs : s.reference = none) (hf : f ∈ s.allOf) (h : FragmentOf p f) :
      FragmentOf p s

theorem FragmentOf.reference_eq {p : String} {s : Schema} (h : FragmentOf p s) :
    s.reference = none := by
  cases h with
  | direct hs => exact hs
  | inline hs => exact hs

namespace Document

variable (d : Document)

/-- The second pointer is written as a fragment of the composition that the first addresses. -/
def CompositionStep (p q : String) : Prop := ∃ s, d.addressed? p = some s ∧ FragmentOf q s

/-- The component is composed of the other component as a whole. -/
def Composes (c c' : String) : Prop :=
  ∃ s p, d.schema? c = some s ∧ FragmentOf p s ∧ Pointer.Whole p c'

/-- The chain shows a cycle: at least two pointers, the last of which is the first, and each of
which is written as a fragment of the one before. -/
def CompositionCycle (chain : List String) : Prop :=
  ∃ ps : List String, chain = ps.map Pointer.display ∧ 2 ≤ ps.length ∧
    ps.head? = ps.getLast? ∧ ps.IsChain d.CompositionStep

/-- The components that a component is composed of are grounded. -/
def Grounded : String → Prop := Acc fun c' c => d.Composes c c'

end Document

/-- A component that is composed of itself is not grounded. -/
theorem Document.Grounded.not_cyclic {d : Document} {c : String} (h : d.Grounded c) :
    ¬ Relation.TransGen d.Composes c c := by
  have hacc : Acc (Relation.TransGen fun c' c => d.Composes c c') c := h.transGen
  clear h
  induction hacc with
  | intro c _ ih =>
    intro hcycle
    exact ih c (Relation.transGen_swap.2 hcycle) hcycle

/-! ### Compositions that have a node are grounded -/

/-- A component that has a node is grounded, and so are the fragments of a schema that has one,
if it stands where every composition is expanded. -/
def groundedClaims (d : Document) : Claims where
  component c _ := d.Grounded c
  schema _ s _ spine _ := spine → ∀ p c, FragmentOf p s → Pointer.Whole p c → d.Grounded c

/-- All fragments of an expanded composition are grounded, so the composition is. -/
theorem groundedClaims_sound (d : Document) : (groundedClaims d).Sound d := by
  refine ⟨fun _ _ c s n _ hs _ hn => .intro c fun c' ⟨s', p, hs', hfrag, hp⟩ => ?_,
    fun _ s location name spine n _ h hspine p c hfrag hp => ?_⟩
  · rw [hs, Option.some.injEq] at hs'
    exact hn rfl p c' (hs' ▸ hfrag) hp
  · subst hspine
    have hform : s.form name true = .composition := by
      cases hfrag with
      | direct hs hf => exact Schema.form_of_spine hs (List.ne_nil_of_mem hf)
      | inline hs hf => exact Schema.form_of_spine hs (List.ne_nil_of_mem hf)
    unfold Built at h
    rw [hform] at h
    obtain ⟨fragments, own, hfragments, -, -⟩ := h
    cases hfrag with
    | direct hs hf hr =>
      obtain ⟨n, -, hn⟩ := forall₂_exists hfragments hf
      simp only [FragmentFrom, hr] at hn
      obtain ⟨_, -, hn⟩ := hn
      exact hn c hp
    | inline hs hf hin =>
      obtain ⟨n, -, hn⟩ := forall₂_exists hfragments hf
      simp only [FragmentFrom, hin.reference_eq] at hn
      obtain ⟨_, hn⟩ := hn
      exact hn rfl p c hin hp

/-! ### The chain of an error

The stack is read from the innermost frame outwards, so the steps of a chain go from the
frame below to the frame above. -/

section Chain

variable {d : Document} {follow : Follow}

/-- Linked frames were entered as a fragment of the composition in the frame below. -/
def Linked (d : Document) : List Frame → Prop
  | [] => True
  | f :: rest =>
    (f.link → ∀ g ∈ rest.head?, d.CompositionStep g.pointer f.pointer) ∧ Linked d rest

/-- A request that belongs to the composition of the innermost frame is for one of its
fragments. -/
def Request.Belongs (d : Document) (stack : List Frame) : Request → Prop
  | .reference p _ link => link → ∀ g ∈ stack.head?, d.CompositionStep g.pointer p
  | .fragment p _ spine => spine → ∀ g ∈ stack.head?, d.CompositionStep g.pointer p
  | .schema s _ _ spine =>
    spine → ∀ g ∈ stack.head?, ∀ p, FragmentOf p s → d.CompositionStep g.pointer p

/-- An interruption that shows a cycle shows one of the description. -/
def ShowsCycle (d : Document) (e : Interruption) : Prop :=
  ∀ chain, e = .rejected (.cyclicComposition chain) → d.CompositionCycle chain

theorem linkedPointers_isChain :
    ∀ {stack : List Frame}, Linked d stack →
      (Session.linkedPointers stack).IsChain fun p q => d.CompositionStep q p
  | [], _ => .nil
  | [f], _ => by
    unfold Session.linkedPointers
    split
    · exact .singleton _
    · exact .singleton _
  | f :: g :: rest, h => by
    have hrest := linkedPointers_isChain h.2
    unfold Session.linkedPointers
    split
    · rename_i hlink
      rw [Session.linkedPointers] at hrest ⊢
      exact .cons_cons (h.1 hlink g rfl) hrest
    · exact .singleton _

theorem head?_linkedPointers (stack : List Frame) :
    (Session.linkedPointers stack).head? = stack.head?.map Frame.pointer := by
  cases stack with
  | nil => rfl
  | cons f rest => simp [Session.linkedPointers]

/-- **The chain that is read off the stack is a cycle**: it leads from the pointer through the
frames above it and back. -/
theorem cycleChain_cycle {stack : List Frame} {pointer : String} (hlinked : Linked d stack)
    (hmem : pointer ∈ Session.linkedPointers stack)
    (hstep : ∀ g ∈ stack.head?, d.CompositionStep g.pointer pointer) :
    d.CompositionCycle (Follow.cycleChain (Session.linkedPointers stack) pointer) := by
  have hchain := linkedPointers_isChain hlinked
  have hhead := head?_linkedPointers stack
  generalize Session.linkedPointers stack = chain at hmem hchain hhead ⊢
  obtain ⟨before, after, rfl, hnot⟩ := List.eq_append_cons_of_mem hmem
  have hbefore : (before ++ pointer :: after).takeWhile (· ≠ pointer) = before := by
    rw [List.takeWhile_append_of_pos (fun p hp => by simpa using ne_of_mem_of_not_mem hp hnot),
      List.takeWhile_cons_of_neg (by simp), List.append_nil]
  have hreverse : pointer :: before.reverse ++ [pointer] =
      (pointer :: (before ++ [pointer])).reverse := by simp
  refine ⟨pointer :: before.reverse ++ [pointer], by rw [Follow.cycleChain, hbefore], by simp,
    ?_, ?_⟩
  · rw [List.getLast?_append]
    rfl
  · rw [hreverse, List.isChain_reverse, List.isChain_cons]
    refine ⟨fun q hq => ?_, hchain.prefix ⟨after, by simp⟩⟩
    -- The first entry after the pointer is the innermost frame.
    have hq' : q ∈ stack.head?.map Frame.pointer := by
      rw [← hhead]
      cases before <;> simpa using hq
    obtain ⟨g, hg, rfl⟩ := Option.map_eq_some_iff.1 hq'
    exact hstep g hg

/-- Interruptions of answers to requests that belong where they are made show no false
cycles. -/
def Charting (d : Document) (follow : Follow) : Prop :=
  ∀ (r : Request) (s : Session), Linked d s.stack → r.Belongs d s.stack →
    Ends (follow r) s (fun _ _ => True) fun e _ => ShowsCycle d e

/-- A pointer without a target shows no cycle. -/
theorem showsCycle_of_target {pointer location : String} {cause : CompileError}
    (h : d.target pointer location = .error cause) : ShowsCycle d (.rejected cause) := by
  intro chain heq
  simp only [Interruption.rejected.injEq] at heq
  rcases Document.target_error h with rfl | rfl <;> simp at heq

/-- A union without tags shows no cycle. -/
theorem showsCycle_of_classify {keyword : UnionKeyword} {variants : List Variant}
    {discriminator : Option Discriminator} {location : String} {cause : CompileError}
    (h : classify keyword variants discriminator location = .error cause) :
    ShowsCycle d (.rejected cause) := by
  intro chain heq
  obtain ⟨-, _, _, -, rfl⟩ := classify_error h
  simp at heq

/-- A frame that is opened for a fragment of the composition below is linked to it. -/
theorem Charting.expand (h : Charting d follow) {s : Session} {pointer location : String}
    {target : Target} {link fresh : Bool} (ht : d.target pointer location = .ok target)
    (hs : Linked d s.stack)
    (hstep : link → ∀ g ∈ s.stack.head?, d.CompositionStep g.pointer pointer) :
    Ends (Follow.expand follow pointer target link fresh) s (fun _ _ => True)
      fun e _ => ShowsCycle d e := by
  refine Follow.expand_ends (h _ _ ⟨hstep, hs⟩ fun _ g hg p hp => ?_)
  simp only [List.head?_cons, Option.mem_def, Option.some.injEq] at hg
  rw [← hg]
  exact ⟨target.schema, (Document.target_eq_ok_iff.1 ht).2, hp⟩

theorem Charting.reference (h : Charting d follow) (hsteady : Steady follow) {s : Session}
    {pointer location : String} {link : Bool} (hs : Linked d s.stack)
    (hstep : link → ∀ g ∈ s.stack.head?, d.CompositionStep g.pointer pointer) :
    Ends (Follow.reference follow d pointer location link) s (fun _ _ => True)
      fun e _ => ShowsCycle d e := by
  refine Follow.reference_ends (fun _ => showsCycle_of_target) (fun _ _ => trivial)
    (fun _ _ _ _ => trivial) (fun _ _ _ _ => nofun) fun target ht _ _ => ?_
  have hexpand : ∀ t : Session, t.stack = s.stack →
      Ends (Follow.expand follow pointer target link false) t (fun _ _ => True)
        fun e _ => ShowsCycle d e := fun t hts =>
    h.expand ht (hts ▸ hs) (by rwa [hts])
  refine Follow.enter_ends (fun t _ hts => hexpand t (by rw [hts])) fun _ _ => ?_
  have hroot := h (.reference (Pointer.component target.component) location false) s hs
    (by simp [Request.Belongs])
  exact (hroot.and (hsteady _ s)).mono
    (fun _ t ht' => ⟨fun _ _ => trivial, fun _ => hexpand t ht'.2.stack⟩) fun _ _ he => he.1

/-- What a schema leads to belongs where the schema belongs. -/
theorem Leads.belongs {s : Schema} {location : String} {name : Option String} {spine : Bool}
    {r : Request} {stack : List Frame} (h : Leads s name spine r)
    (hs : (Request.schema s location name spine).Belongs d stack) : r.Belongs d stack := by
  cases h with
  | reference | wrapper | own | member | plain => simp [Request.Belongs]
  | fragment hform hf hr =>
    intro hspine g hg
    exact hs hspine g hg _ (.direct (Schema.form_composition hform).1 hf hr)
  | inline hform hf hr =>
    intro hspine g hg p hp
    exact hs hspine g hg p (.inline (Schema.form_composition hform).1 hf hp)

/-- One step shows no false cycles. -/
theorem Charting.step (h : Charting d follow) (hsteady : Steady follow) :
    Charting d (Follow.step follow d) := by
  intro r s hs hr
  cases r with
  | reference pointer location link => exact h.reference hsteady hs hr
  | fragment pointer location spine =>
    refine Follow.fragment_ends (fun _ => showsCycle_of_target) (fun hspine hmem => ?_)
      (fun _ _ => nofun) (fun _ ht _ _ _ => h.expand ht hs hr)
      fun _ _ => h.reference hsteady hs hr
    intro chain heq
    simp only [Interruption.rejected.injEq, CompileError.cyclicComposition.injEq] at heq
    rw [← heq]
    exact cycleChain_cycle hs hmem (hr hspine)
  | schema schema location name spine =>
    have hbrings : Brings (fun u => u.stack = s.stack) (fun e _ => ShowsCycle d e)
        (Follow.schema follow d schema location name spine) _ :=
      Follow.schema_brings (Q := fun _ _ _ => True) (fun t u htu ht => htu.stack.trans ht)
        (fun _ _ _ _ _ _ => trivial) (fun _ _ _ _ _ _ _ hc _ => showsCycle_of_classify hc)
        fun r hlead t ht => ((h r t (ht ▸ hs) (ht ▸ hlead.belongs hr)).and (hsteady r t)).mono
          (fun _ u hu => ⟨hu.2.stack.trans ht, hu.2, trivial⟩) fun _ _ he => he.1
    exact (hbrings s rfl).mono_ok fun _ _ _ => trivial

/-- **The chain of an error is a cycle of compositions.** -/
theorem Document.follow_chain (d : Document) : ∀ depth, Charting d (d.follow depth)
  | 0, _, _, _, _ => nofun
  | depth + 1, r, s, hs, hr =>
    (Document.follow_chain d depth).step (d.follow_steady depth) r s hs hr

/-- Resolutions that start without open pointers show no false cycles. -/
theorem Document.resolve_chain (d : Document) (pointer : String) {s : Session}
    (hs : s.stack = []) :
    Ends (d.resolve pointer) s (fun _ _ => True) fun e _ => ShowsCycle d e :=
  d.follow_chain _ _ s (by rw [hs]; trivial) nofun

theorem Document.resolveSchema_chain (d : Document) (schema : Schema) (location : String)
    {s : Session} (hs : s.stack = []) :
    Ends (d.resolveSchema schema location) s (fun _ _ => True) fun e _ => ShowsCycle d e :=
  d.follow_chain _ _ s (by rw [hs]; trivial) nofun

end Chain

/-! ### Compilations -/

section Compile

variable {d : Document}

theorem Document.Reorders.composes_eq {d' : Document} (h : d'.Reorders d) :
    d'.Composes = d.Composes := by
  funext c c'
  unfold Document.Composes
  simp only [h.schema?_eq]

/-- A description that compiles has grounded components only. -/
theorem compile_grounded (config : Config) (d : Document) :
    match compile config d with
    | .ok _ => ∀ c ∈ d.componentNames, d.Grounded c
    | .error e => e ≠ .exhausted := by
  have hclaims := compile_claims config (groundedClaims_sound d) fun _ => id
  unfold Claims.Compile at hclaims
  cases hc : compile config d with
  | error e => simpa only [hc] using hclaims
  | ok compilation =>
    simp only [hc] at hclaims
    intro c hmem
    obtain ⟨m, -, n, _, _, _, hn, -⟩ := hclaims.model c hmem
    exact hn

/-- A compilation shows no false cycles. -/
theorem compile_chain (config : Config) (d : Document) :
    match compile config d with
    | .ok _ => True
    | .error e => ShowsCycle d e := by
  have hruns := compile_ends config d (J := fun _ s => s.stack = [])
    (E := ShowsCycle d) (P := fun _ _ => True) (R := fun _ => True)
    (fun _ s t hst hs => hst.stack.trans hs) rfl ?_ ?_ ?_
  · cases hc : compile config d with
    | error e => simpa only [hc] using hruns
    | ok compilation => trivial
  · intro _ c _ _ s hs
    exact ((d.resolve_chain (Pointer.component c) hs).and
      (d.resolve_ends (Pointer.component c) s)).mono (fun _ t ht => ⟨ht.2.stack.trans hs, trivial⟩)
        fun _ _ he => he.1
  · intro t _ location s hs
    exact ((d.resolveSchema_chain t location hs).and
      (d.resolveSchema_ends t location s)).mono (fun _ t ht => ⟨ht.2.stack.trans hs, trivial⟩)
        fun _ _ he => he.1
  · intro path item _ cause hcause chain heq
    obtain ⟨fault, rfl⟩ := PathTemplate.ofPath_error hcause
    simp at heq

/-- **Cyclic compositions are rejected**, in every order of the components.  Conversely, what is
rejected as a cyclic composition, by a compilation or by a resolution that starts without open
pointers, is one: its chain leads from a composition through fragments back to it. -/
theorem cyclic_composition (d : Document) :
    (∀ d' : Document, d'.Reorders d → ∀ c, Relation.TransGen d.Composes c c →
      ∀ config, ∃ cause, compile config d' = .error (.rejected cause)) ∧
    (∀ config chain, compile config d = .error (.rejected (.cyclicComposition chain)) →
      d.CompositionCycle chain) ∧
    (∀ pointer s t chain, s.stack = [] →
      d.resolve pointer s = .error (.rejected (.cyclicComposition chain)) t →
      d.CompositionCycle chain) ∧
    ∀ schema location s t chain, s.stack = [] →
      d.resolveSchema schema location s = .error (.rejected (.cyclicComposition chain)) t →
      d.CompositionCycle chain := by
  refine ⟨fun d' hd c hcycle config => ?_, fun config chain hc => ?_,
    fun pointer s t chain hs hr => (d.resolve_chain pointer hs).of_error hr chain rfl,
    fun schema location s t chain hs hr =>
      (d.resolveSchema_chain schema location hs).of_error hr chain rfl⟩
  · have hends := compile_grounded config d'
    rw [← hd.composes_eq] at hcycle
    cases hc : compile config d' with
    | ok compilation =>
      simp only [hc] at hends
      -- What compiles is grounded, and a cycle is not.
      obtain ⟨_, ⟨s, p, hs, -⟩, -⟩ := Relation.TransGen.head'_iff.1 hcycle
      exact absurd hcycle (hends c (Document.mem_componentNames hs)).not_cyclic
    | error e =>
      simp only [hc] at hends
      cases e with
      | rejected cause => exact ⟨cause, rfl⟩
      | exhausted => exact absurd rfl hends
  · have hends := compile_chain config d
    simp only [hc] at hends
    exact hends chain rfl

/-- Two components, each of which is a fragment of the other. -/
def mutualFragments : Document where
  components.schemas :=
    [("A", { allOf := [{ reference := some "#/components/schemas/B" }] }),
     ("B", { allOf := [{ allOf := [{ reference := some "#/components/schemas/A" }] }] })]

/-- The same with the second component first. -/
def mutualFragmentsReversed : Document where
  components.schemas := mutualFragments.components.schemas.reverse

/-- The cycle is rejected in both orders, and its chain is shown. -/
theorem cyclic_composition_mutual :
    (∃ cause, compile {} mutualFragmentsReversed = .error (.rejected cause)) ∧
      mutualFragments.CompositionCycle ["A", "B", "A"] ∧
      mutualFragments.CompositionCycle ["B", "A", "B"] ∧
      mutualFragments.CompositionCycle ["A", "B", "A"] := by
  have hAB : mutualFragments.Composes "A" "B" :=
    ⟨_, _, by simp [Document.schema?, mutualFragments]; rfl, .direct rfl (.head _) rfl,
      by decide +kernel⟩
  have hBA : mutualFragments.Composes "B" "A" :=
    ⟨_, _, by simp [Document.schema?, mutualFragments]; rfl,
      .inline rfl (.head _) (.direct rfl (.head _) rfl), by decide +kernel⟩
  have hcycle : Relation.TransGen mutualFragments.Composes "A" "A" := .tail (.single hAB) hBA
  have hreorders : mutualFragmentsReversed.Reorders mutualFragments :=
    ⟨rfl, List.reverse_perm _, by decide⟩
  obtain ⟨hrejected, hcompile, hresolve, hschema⟩ := cyclic_composition mutualFragments
  exact ⟨hrejected mutualFragmentsReversed hreorders "A" hcycle {},
    hcompile {} ["A", "B", "A"] (by decide +kernel),
    hresolve (Pointer.component "B") {} {} ["B", "A", "B"] rfl rfl,
    hschema { reference := some (Pointer.component "A") } "#" {} {} ["A", "B", "A"] rfl rfl⟩

end Compile

end ApiBinding
