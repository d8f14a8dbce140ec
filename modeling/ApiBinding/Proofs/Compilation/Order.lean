import ApiBinding.Proofs.Compilation.Faults
import ApiBinding.Proofs.Resolver.Reordering
import ApiBinding.Proofs.Resolver.Resuming

/-!
# Compilations and the order of components

The order of components decides what a resolution finds kept and open.  It has no influence
on the faults of a description, but it has one on the guard of fragments: a fragment that is
open is expanded once more, and met a third time it is rejected.  Whether it is met a third
time depends on where the resolution set out.

So a description compiles in every order if and only if it is sound and each of its
components can be the first one.  This covers a component that is a fragment of what it
refers to.  It fails for a component with two such references: the second derived component
is met inside the first one.

## Main definitions

* `Document.EachFirst` — each component can be the first one that is resolved.

## Main results

* `Document.Sound.compile` — sound descriptions whose components can all be first compile.
* `compile_order` — **how far the order of components decides whether a description compiles.**
* `siblings_order` — two orders of one description, one of which compiles.
-/

namespace ApiBinding

/-! ### Reordered descriptions -/

namespace Document.Reorders

variable {config : Config} {d d' : Document}

theorem symm (h : d'.Reorders d) : d.Reorders d' :=
  ⟨h.paths.symm, h.schemas.symm, (h.schemas.map Prod.fst).nodup_iff.2 h.nodup⟩

theorem uses_eq (h : d'.Reorders d) : d'.Uses config = d.Uses config := by
  unfold Uses
  rw [h.paths]

theorem visits (h : d'.Reorders d) {s : Schema} {name : Option String} {spine : Bool}
    (hs : d.Visits config s name spine) : d'.Visits config s name spine := by
  cases hs with
  | component hs hwithin => exact .component (by rwa [h.schema?_eq]) hwithin
  | operation hs hwithin => exact .operation (by rwa [h.uses_eq]) hwithin

theorem visits_eq (h : d'.Reorders d) : d'.Visits config = d.Visits config := by
  funext s name spine
  exact propext ⟨h.symm.visits, h.visits⟩

theorem mentions_eq (h : d'.Reorders d) : d'.Mentions config = d.Mentions config := by
  unfold Mentions
  rw [h.visits_eq]

theorem wholeReferences (h : d'.Reorders d) (hw : d.WholeReferences config) :
    d'.WholeReferences config := by
  unfold WholeReferences
  rw [h.mentions_eq]
  exact hw

theorem sound (h : d'.Reorders d) (hs : d.Sound config) : d'.Sound config where
  addressed p composed hp := by
    rw [h.addressed?_eq]
    exact hs.addressed p composed (h.mentions_eq ▸ hp)
  grounded := by
    rw [h.composes_eq]
    exact hs.grounded
  template := by
    rw [h.paths]
    exact hs.template

theorem refers_eq (h : d'.Reorders d) : d'.Refers = d.Refers := by
  have hle : ∀ {d d' : Document}, d'.Reorders d → ∀ {p q}, d.Refers p q → d'.Refers p q := by
    intro d d' h p q hpq
    cases hpq with
    | mention hs hm => exact .mention (by rwa [h.addressed?_eq]) hm
    | root hc => exact .root hc
  funext p q
  exact propext ⟨hle h.symm, hle h⟩

theorem contested (h : d'.Reorders d) {V : SchemaSet} {cause : CompileError}
    (hc : Contested d' V cause) : Contested d V cause := by
  cases hc with
  | fragment hp hcycle => exact .fragment hp (h.refers_eq ▸ hcycle)
  | tag hs hform hd location variant => exact .tag hs hform hd location variant

end Document.Reorders

/-! ### Components that come first -/

/-- Each component can be the first one that is resolved. -/
def Document.EachFirst (d : Document) : Prop :=
  ∀ c ∈ d.componentNames, ∃ n t, d.resolveComponent c {} = .ok n t

theorem Document.resolveComponent_eq_follow (d : Document) (c : String) :
    d.resolveComponent c = d.follow (stepBound d.size)
      (.reference (Pointer.component c) (Pointer.component c) false) := rfl

/-- Whether a component can be the first one can be computed. -/
instance (d : Document) (c : String) : Decidable (∃ n t, d.resolveComponent c {} = .ok n t) :=
  match hc : d.resolveComponent c {} with
  | .ok n t => isTrue ⟨n, t, rfl⟩
  | .error _ _ => isFalse (by simp)

instance (d : Document) : Decidable d.EachFirst :=
  inferInstanceAs (Decidable (∀ c ∈ d.componentNames, ∃ n t, d.resolveComponent c {} = .ok n t))

/-- The component that stands first is resolved in a session that has kept nothing. -/
theorem compile_first {config : Config} {d : Document} {c : String} {rest : List String}
    (hnames : d.componentNames = c :: rest) {compilation : Compilation}
    (h : compile config d = .ok compilation) :
    ∃ s n t, s.cache = [] ∧ s.stack = [] ∧ d.resolveComponent c s = .ok n t := by
  have hrun : Ends (compileAll config d) {}
      (fun _ _ => ∃ s n t, s.cache = [] ∧ s.stack = [] ∧ d.resolveComponent c s = .ok n t)
      fun _ _ => True := by
    unfold compileAll buildModels
    rw [ends_bind, ends_bind]
    have hstart : Progress config.naming (fun s => s.cache = [] ∧ s.stack = []) (fun _ _ => True)
        [] [] {} := ⟨⟨rfl, rfl⟩, Registry.keyed_empty, by simp, by simp⟩
    refine (reserveNames_ends (E := fun _ => True)
      (fun s t hst hs => ⟨hst.cache.trans hs.1, hst.stack.trans hs.2⟩) d.componentNames [] {}
      hstart).mono_ok fun _ w hw => ?_
    rw [hnames, buildBodies, ends_bind, Build.ends_resolving]
    cases hc : d.resolveComponent c w.session with
    | ok n t =>
      have hfirst : ∃ s n t, s.cache = [] ∧ s.stack = [] ∧ d.resolveComponent c s = .ok n t :=
        ⟨w.session, n, t, hw.session.1, hw.session.2, hc⟩
      exact ends_trivial (fun _ _ => ends_trivial (fun _ _ => ends_trivial (fun _ _ => hfirst)
        fun _ _ => trivial) fun _ _ => trivial) fun _ _ => trivial
    | error e t =>
      unfold Ends
      rw [hc]
      trivial
  unfold compile at h
  cases hc : compileAll config d {} with
  | error e w => simp [hc] at h
  | ok endpoints w => exact hrun.of_ok hc

section Order

variable {config : Config} {d d' : Document}

-- What is known of the end of a resolution is not to be unfolded to the resolution itself.
attribute [local irreducible] Ends

/-- A session in which the given components have been resolved, and what they refer to. -/
structure Session.Done (d : Document) (done : List String) (s : Session) : Prop where
  stack : s.stack = []
  shut : s.Shut d
  keeps : ∀ c ∈ done, s.Keeps (Pointer.component c)

theorem Session.Done.alike {done : List String} {s t : Session} (h : s.Done d done)
    (hst : s.Alike t) : t.Done d done where
  stack := hst.stack.trans h.stack
  shut := h.shut.alike hst
  keeps c hc := hst.later.kept _ (h.keeps c hc)

/-- A component that can be the first one is resolved after others as well: more is kept then,
and a resolution that has a result has one where more is kept. -/
theorem Session.Done.component {V : SchemaSet} (hV : Realm d V) (hmapped : Mapped V)
    {c : String} (hentered : Entered d V (Pointer.component c))
    (hfirst : ∃ n t, d.resolveComponent c {} = .ok n t) {done : List String} {s : Session}
    (h : s.Done d done) :
    Ends (d.resolveComponent c) s (fun _ t => t.Done d (c :: done)) fun _ _ => False := by
  obtain ⟨n, t, hrun⟩ := hfirst
  have hextends : Session.Extends d {} s :=
    ⟨h.stack, fun q hq => by simp [Session.Keeps] at hq, h.shut⟩
  have hresumes := (d.follow_resumes hV hmapped _
    (.reference (Pointer.component c) (Pointer.component c) false) hentered {} s
    hextends).of_ok hrun
  have hsettles := d.follow_settles hV (Document.stepBound d.size)
    (.reference (Pointer.component c) (Pointer.component c) false) s ⟨hentered, h.shut⟩
  refine ((hresumes.and hsettles).and (d.resolve_ends (Pointer.component c) s)).mono ?_
    fun _ _ he => he.1.1
  rintro m u ⟨⟨-, hu, hsettled⟩, hlater⟩
  refine ⟨hlater.stack.trans h.stack, hu, List.forall_mem_cons.2 ⟨?_, fun c' hc' => ?_⟩⟩
  · cases hsettled with
    | kept hkept => exact hkept
    | opened hopened => exact absurd hopened (Claims.not_openIn_nil h.stack _)
  · exact hlater.kept _ (h.keeps c' hc')

/-- Once all components are resolved, everything else finds what it refers to. -/
theorem Session.Done.operation {V : SchemaSet} (hV : Realm d V) (hmapped : Mapped V)
    {t : Schema} {location : String} (hvisits : V t none false) {done : List String}
    (hall : ∀ c ∈ d.componentNames, c ∈ done) {s : Session} (h : s.Done d done) :
    Ends (d.resolveSchema t location) s (fun _ u => u.Done d done) fun _ _ => False := by
  have hsupplied : Supplied d V s := by
    refine ⟨h.stack, ?_⟩
    rintro _ ⟨c, body, rfl, hbody, -⟩
    exact h.keeps c (hall c (Document.mem_componentNames hbody))
  have hanswer := d.follow_supplied hV hmapped (Document.stepBound (d.size + t.size))
    (.schema t location none false) s ⟨hvisits, hsupplied⟩
  have hsettles := d.follow_settles hV (Document.stepBound (d.size + t.size))
    (.schema t location none false) s ⟨hvisits, h.shut⟩
  refine ((hanswer.and hsettles).and (d.resolveSchema_ends t location s)).mono ?_
    fun _ _ he => he.2 he.1.1
  rintro m u ⟨⟨-, hu, -⟩, hlater⟩
  exact ⟨hlater.stack.trans h.stack, hu, fun c hc => hlater.kept _ (h.keeps c hc)⟩

/-- **A sound description whose components can all be first compiles in every order.** -/
theorem Document.Sound.compile (hs : d.Sound config) (hw : d.WholeReferences config)
    (hmapped : Mapped (d.Visits config)) (hfirst : d.EachFirst) (hd : d'.Reorders d) :
    ∃ c, ApiBinding.compile config d' = .ok c := by
  have hrealm := hs.realm hw
  have hruns := compile_ends config d' (J := fun done s => s.Done d done)
    (E := fun _ => False) (P := fun _ _ => True) (R := fun _ => True)
    (fun _ s t hst hdone => hdone.alike hst) ⟨rfl, .empty rfl, by simp⟩ ?_ ?_ ?_
  · cases hc : ApiBinding.compile config d' with
    | ok c => exact ⟨c, rfl⟩
    | error e => simp only [hc] at hruns
  · rintro done c rest hsplit s hdone
    have hc : c ∈ d'.componentNames := by simp [hsplit]
    rw [hd.mem_componentNames] at hc
    rw [hd.agrees.resolveComponent_eq]
    obtain ⟨body, hbody⟩ := Document.schema?_of_mem hc
    have hentered : Entered d (d.Visits config) (Pointer.component c) :=
      ⟨c, body, rfl, hbody, .component hbody .here⟩
    exact (hdone.component hrealm hmapped hentered (hfirst c hc)).mono_ok
      fun _ _ ht => ⟨ht, trivial⟩
  · rintro t ht location s hdone
    rw [hd.uses_eq] at ht
    rw [hd.agrees.resolveSchema_eq]
    have hvisits : d.Visits config t none false := .operation ht .here
    have hall : ∀ c ∈ d.componentNames, c ∈ d'.componentNames.reverse := fun c hc =>
      List.mem_reverse.2 (hd.mem_componentNames.2 hc)
    exact (hdone.operation hrealm hmapped hvisits hall).mono_ok fun _ _ hu => ⟨hu, trivial⟩
  · intro path item hmem cause hcause
    rw [hd.paths] at hmem
    obtain ⟨template, htemplate⟩ := hs.template path item hmem
    simp [htemplate] at hcause

/-- Each component stands first in some order. -/
theorem Document.exists_first (hn : d.componentNames.Nodup) {c : String}
    (hc : c ∈ d.componentNames) :
    ∃ (d' : Document) (rest : List String), d'.Reorders d ∧ d'.componentNames = c :: rest := by
  obtain ⟨body, hbody⟩ := Document.schema?_of_mem hc
  obtain ⟨before, after, hsplit⟩ := List.append_of_mem (Table.mem_of_get? hbody)
  exact ⟨{ d with components.schemas := (c, body) :: (before ++ after) },
    Table.keys (before ++ after), ⟨rfl, by rw [hsplit]; exact List.perm_middle.symm, hn⟩, rfl⟩

/-- The component that stands first in an order that compiles can be the first one. -/
theorem eachFirst_of_compile (hw : d.WholeReferences config) (hn : d.componentNames.Nodup)
    (hs : d.Sound config) (hmapped : Mapped (d.Visits config))
    (h : ∀ d' : Document, d'.Reorders d → ∃ c, compile config d' = .ok c) : d.EachFirst := by
  intro c hc
  obtain ⟨body, hbody⟩ := Document.schema?_of_mem hc
  obtain ⟨d', rest, hd, hnames⟩ := d.exists_first hn hc
  obtain ⟨compilation, hcompile⟩ := h d' hd
  obtain ⟨s, n, t, hcache, hstack, hrun⟩ := compile_first hnames hcompile
  rw [hd.agrees.resolveComponent_eq, Document.resolveComponent_eq_follow] at hrun
  have hextends : Session.Extends d s {} :=
    ⟨hstack.symm, fun q hq => by simp [Session.Keeps, hcache] at hq, .empty rfl⟩
  have hresumes := (d.follow_resumes (hs.realm hw) hmapped _
    (.reference (Pointer.component c) (Pointer.component c) false)
    ⟨c, body, rfl, hbody, .component hbody .here⟩ s {} hextends).of_ok hrun
  unfold Ends at hresumes
  split at hresumes
  · rename_i m u hfirst
    exact ⟨m, u, hfirst⟩
  · exact hresumes.elim

/-- **How far the order of components decides whether a description compiles.**  All pointers
address whole components.  A reordered description compiles if and only if the description is
sound and the reordered one is not rejected for a contested cause; without such causes the order
does not matter.  If all tagged unions are mapped, then every order compiles if and only if the
description is sound and each component can be the first one. -/
theorem compile_order (hw : d.WholeReferences config) (hn : d.componentNames.Nodup) :
    (∀ d' : Document, d'.Reorders d → ((∃ c, compile config d' = .ok c) ↔
      d.Sound config ∧ ∀ cause, Contested d (d.Visits config) cause →
        compile config d' ≠ .error (.rejected cause))) ∧
    ((∀ cause, ¬ Contested d (d.Visits config) cause) → ∀ d' : Document, d'.Reorders d →
      ((∃ c, compile config d' = .ok c) ↔ ∃ c, compile config d = .ok c)) ∧
    (Mapped (d.Visits config) → ((∀ d' : Document, d'.Reorders d → ∃ c, compile config d' = .ok c) ↔
      d.Sound config ∧ d.EachFirst)) := by
  have hiff : ∀ d' : Document, d'.Reorders d → ((∃ c, compile config d' = .ok c) ↔
      d.Sound config ∧ ∀ cause, Contested d (d.Visits config) cause →
        compile config d' ≠ .error (.rejected cause)) := by
    refine fun d' hd => ⟨fun ⟨c, hc⟩ => ⟨hd.symm.sound (compile_sound hc), by simp [hc]⟩,
      fun ⟨hs, hnot⟩ => ?_⟩
    cases hc : compile config d' with
    | ok c => exact ⟨c, rfl⟩
    | error e =>
      obtain ⟨cause, rfl, hcause⟩ := compile_contested (hd.wholeReferences hw) (hd.sound hs) hc
      rw [hd.visits_eq] at hcause
      exact absurd hc (hnot cause (hd.contested hcause))
  refine ⟨hiff, fun hnone d' hd => ?_, fun hmapped => ⟨fun h => ?_, fun ⟨hs, hfirst⟩ d' hd =>
    hs.compile hw hmapped hfirst hd⟩⟩
  · have hfree : ∀ d'' : Document, ∀ cause, Contested d (d.Visits config) cause →
        compile config d'' ≠ .error (.rejected cause) := fun _ cause h => absurd h (hnone cause)
    rw [hiff d' hd, hiff d (.refl hn)]
    exact and_congr_right fun _ => ⟨fun _ => hfree d, fun _ => hfree d'⟩
  · obtain ⟨c, hc⟩ := h d (.refl hn)
    exact ⟨compile_sound hc, eachFirst_of_compile hw hn (compile_sound hc) hmapped h⟩

/-- A component that is a fragment of the component it refers to. -/
def derived : Schema where
  allOf := [{ reference := some "#/components/schemas/Base" }]

/-- A base component that refers to the one component derived from it. -/
def pair : Document where
  components.schemas :=
    [("Base", { properties := [("next", { reference := some "#/components/schemas/Next" })] }),
     ("Next", derived)]

/-- The pair compiles in every order. -/
theorem compile_order_pair : pair.WholeReferences {} ∧ pair.componentNames.Nodup ∧
    ∀ d' : Document, d'.Reorders pair → ∃ c, compile {} d' = .ok c := by
  have hw : pair.WholeReferences {} :=
    Document.wholeReferences_of_references rfl (by decide +kernel)
  have hn : pair.componentNames.Nodup := by decide
  have hleaf : ∀ (p : String) (t : Schema),
      Relation.ReflTransGen Schema.Inside t { reference := some p } → t.oneOf = [] := by
    intro p t h
    rcases h.cases_tail with heq | ⟨u, -, hu⟩
    · rw [← heq]
    · cases hu <;> simp_all
  have hmapped : Mapped (pair.Visits {}) := by
    -- No schema of the pair is a union.
    intro s name spine members D hs hform
    obtain ⟨c, body, hbody, hin⟩ := hs.inside rfl
    have hmem := Table.mem_of_get? hbody
    simp only [pair, List.mem_cons, Prod.mk.injEq, List.not_mem_nil, or_false] at hmem
    have hunion : s.oneOf = [] := by
      rcases hin.cases_tail with heq | ⟨u, hu, hstep⟩
      · rw [← heq]
        rcases hmem with ⟨-, rfl⟩ | ⟨-, rfl⟩ <;> rfl
      · have hreference : ∃ p, u = { reference := some p } := by
          rcases hmem with ⟨-, rfl⟩ | ⟨-, rfl⟩ <;> cases hstep <;> simp_all [derived]
        obtain ⟨p, rfl⟩ := hreference
        exact hleaf p s hu
    cases Schema.formed_of_eq hform with
    | oneOf _ _ ho => exact absurd hunion ho
  have hfirst : pair.EachFirst := by decide +kernel
  obtain ⟨c, hc⟩ := compile_eq_ok {} pair (by decide +kernel)
  exact ⟨hw, hn, ((compile_order hw hn).2.2 hmapped).2 ⟨compile_sound hc, hfirst⟩⟩

/-- A base component that refers to two components derived from it. -/
def siblings : Document where
  components.schemas :=
    [("Base", { properties := [("left", { reference := some "#/components/schemas/Left" }),
                               ("right", { reference := some "#/components/schemas/Right" })] }),
     ("Left", derived), ("Right", derived)]

/-- The same with the base component last. -/
def siblingsReversed : Document where
  components.schemas := siblings.components.schemas.reverse

/-- The order of components decides whether a description compiles: from the base component, the
second derived component is met inside the first one. -/
theorem siblings_order : siblingsReversed.Reorders siblings ∧
    (∃ c, compile {} siblingsReversed = .ok c) ∧
    compile {} siblings =
      .error (.rejected (.unrepresentableCycle "#/components/schemas/Base")) :=
  ⟨⟨rfl, List.reverse_perm _, by decide⟩, compile_eq_ok _ _ (by decide +kernel), by decide +kernel⟩

end Order

end ApiBinding
