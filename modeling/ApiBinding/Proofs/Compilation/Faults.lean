import ApiBinding.Proofs.Composition.Cycles
import ApiBinding.Proofs.Resolver.Realms

/-!
# Why compilations fail

A description is sound if no pointer is broken, no composition contains itself and every path
has a template.  A description that compiles is sound, whatever its order.  A sound
description whose pointers address whole components can only fail for two causes that its
schemas alone do not decide: a fragment is met a third time while it is open, or a variant
of a tagged union has no tag.

## Main definitions

* `Document.Visits`, `Document.Mentions` — the schemas that a compilation resolves, and the
  pointers it follows.
* `Document.WholeReferences`, `Document.Sound` — conditions that do not depend on the order.
* `Contested` — the causes that may.

## Main results

* `Document.follow_contested` — inside a realm, resolutions fail for contested causes only.
* `compile_sound` — what compiles is sound.
* `compile_contested` — what is sound fails for contested causes only.
-/

namespace ApiBinding

/-! ### Visited schemas -/

theorem Within.tail {s t u : Schema} {name name' name'' : Option String}
    {spine spine' spine'' : Bool} {location : String} (h : Within s name spine t name' spine')
    (hu : Leads t name' spine' (.schema u location name'' spine'')) :
    Within s name spine u name'' spine'' := by
  induction h with
  | here => exact .inside hu .here
  | inside h _ ih => exact .inside h (ih hu)

/-- What is resolved on the way lies inside. -/
theorem Within.lies_inside {s t : Schema} {name name' : Option String} {spine spine' : Bool}
    (h : Within s name spine t name' spine') : Relation.ReflTransGen Schema.Inside t s := by
  induction h with
  | here => exact .refl
  | inside h _ ih => exact ih.tail h.inside

/-- A pointer that is named is one of the references. -/
theorem Leads.named_mem {s : Schema} {name : Option String} {spine composed : Bool} {r : Request}
    {p : String} (h : Leads s name spine r) (hp : r.named? = some (p, composed)) :
    p ∈ s.references := by
  have hmem : ∀ q, (s.reference = some q ∨ ∃ f ∈ s.allOf, f.reference = some q) →
      q ∈ s.references := by
    rintro q (hr | ⟨f, hf, hr⟩)
    · exact Schema.mem_references_of_reference hr
    · exact (Schema.Inside.allOf hf).references_subset (Schema.mem_references_of_reference hr)
  cases r with
  | reference q l link =>
    simp only [Request.named?, Option.some.injEq, Prod.mk.injEq] at hp
    exact hp.1 ▸ hmem q h.reference_eq.2
  | fragment q l spine' =>
    simp only [Request.named?, Option.some.injEq, Prod.mk.injEq] at hp
    exact hp.1 ▸ hmem q (.inr h.fragment_eq.2)
  | schema t l name' spine' => simp [Request.named?] at hp

namespace Document

/-- The schemas that are resolved in a compilation, each with the component it is the body of
and its place in a composition. -/
inductive Visits (config : Config) (d : Document) : SchemaSet where
  | component {c : String} {s t : Schema} {name : Option String} {spine : Bool}
      (hs : d.schema? c = some s) (h : Within s (some c) true t name spine) :
      Visits config d t name spine
  | operation {s t : Schema} {name : Option String} {spine : Bool} (hs : d.Uses config s)
      (h : Within s none false t name spine) : Visits config d t name spine

/-- The pointers that are followed in a compilation, and whether as fragments. -/
def Mentions (config : Config) (d : Document) (p : String) (composed : Bool) : Prop :=
  ∃ s name spine r, d.Visits config s name spine ∧ Leads s name spine r ∧
    r.named? = some (p, composed)

/-- No pointer that is followed leads to a part of a component. -/
def WholeReferences (config : Config) (d : Document) : Prop :=
  ∀ p composed, d.Mentions config p composed →
    ∀ c steps, Pointer.tokens? p = some (c, steps) → p = Pointer.component c

/-- What the order of components has no influence on: every pointer addresses a schema, no
composition contains itself, and every path has a template. -/
structure Sound (config : Config) (d : Document) : Prop where
  addressed : ∀ p composed, d.Mentions config p composed → (d.addressed? p).isSome
  grounded : ∀ c, ¬ Relation.TransGen d.Composes c c
  template : ∀ path item, (path, item) ∈ d.paths →
    ∃ template, PathTemplate.ofPath path = .ok template

section Visits

variable {config : Config} {d : Document} {s : Schema} {name : Option String} {spine : Bool}

theorem Visits.leads (h : d.Visits config s name spine) {t : Schema} {location : String}
    {name' : Option String} {spine' : Bool}
    (ht : Leads s name spine (.schema t location name' spine')) :
    d.Visits config t name' spine' := by
  cases h with
  | component hs h => exact .component hs (h.tail ht)
  | operation hs h => exact .operation hs (h.tail ht)

/-- The visited schemas of a sound description are a realm. -/
theorem Sound.realm (h : d.Sound config) (hw : d.WholeReferences config) :
    Realm d (d.Visits config) := by
  intro s name spine r hs hr
  have hentered : ∀ p composed, r.named? = some (p, composed) →
      Entered d (d.Visits config) p := by
    intro p composed hp
    have hmention : d.Mentions config p composed := ⟨s, name, spine, r, hs, hr, hp⟩
    obtain ⟨t, ht⟩ := Option.isSome_iff_exists.1 (h.addressed p composed hmention)
    obtain ⟨⟨c, steps⟩, htokens, -⟩ := Option.bind_eq_some_iff.1 ht
    have hc := hw p composed hmention c steps htokens
    rw [hc, addressed?_whole (Pointer.whole_component c)] at ht
    exact ⟨c, t, hc, ht, .component ht .here⟩
  cases r with
  | reference p location link => exact hentered p false rfl
  | fragment p location spine' =>
    exact ⟨hentered p true rfl, s, name, spine, location, spine', hs, hr⟩
  | schema t location name' spine' => exact hs.leads hr

/-- Without operations, the visited schemas are those inside the components. -/
theorem Visits.inside (hpaths : d.paths = []) (h : d.Visits config s name spine) :
    ∃ c body, d.schema? c = some body ∧ Relation.ReflTransGen Schema.Inside s body := by
  cases h with
  | component hs h => exact ⟨_, _, hs, h.lies_inside⟩
  | operation hs h =>
    obtain ⟨path, item, template, hmem, -⟩ := hs
    simp [hpaths] at hmem

/-- Without operations, it can be computed whether all pointers address whole components. -/
theorem wholeReferences_of_references (hpaths : d.paths = [])
    (h : ∀ p ∈ d.references, ∃ c ∈ d.componentNames, p = Pointer.component c) :
    d.WholeReferences config := by
  rintro p composed ⟨t, name, spine, r, ht, hr, hnamed⟩ c steps htokens
  obtain ⟨b, body, hbody, hin⟩ := ht.inside hpaths
  have hmem := Schema.references_subset_table (Table.mem_of_get? hbody)
    (Schema.references_subset_of_inside hin (hr.named_mem hnamed))
  obtain ⟨c', -, rfl⟩ := h p hmem
  have heq : some (c', []) = some (c, steps) := (Pointer.whole_component c').symm.trans htokens
  simp only [Option.some.injEq, Prod.mk.injEq] at heq
  rw [heq.1]

end Visits

end Document

/-! ### Interruptions inside a realm -/

/-- The causes that the order of components may have an influence on. -/
inductive Contested (d : Document) (V : SchemaSet) : CompileError → Prop where
  /-- A fragment that leads back to itself. -/
  | fragment {p : String} (h : Composed V p) (hp : Relation.TransGen d.Refers p p) :
      Contested d V (.unrepresentableCycle p)
  /-- A union whose variants need tags. -/
  | tag {s : Schema} {name : Option String} {spine : Bool} {members : List Schema}
      {discriminator : Discriminator} (hs : V s name spine)
      (hform : s.form name spine = .union .oneOf members)
      (hd : s.discriminator = some discriminator) (location variant : String) :
      Contested d V (.missingDiscriminator location variant discriminator.propertyName)

section Realm

variable {d : Document} {V : SchemaSet}

/-- A schema with fragments is a composition, or it wraps the one fragment that it has. -/
theorem Schema.form_of_allOf {s : Schema} (name : Option String) (spine : Bool)
    (hr : s.reference = none) (ha : s.allOf ≠ []) : s.form name spine = .composition ∨
      ∃ only p, s.form name spine = .wrapper p ∧ s.allOf = [only] ∧ only.reference = some p := by
  generalize hform : s.form name spine = form
  cases Schema.formed_of_eq hform with
  | composition => exact .inl rfl
  | wrapper _ hw =>
    obtain ⟨⟨only, hall, honly⟩, -⟩ := Schema.wrapped?_eq_some hw
    exact .inr ⟨only, _, rfl, hall, honly⟩
  | reference h => simp [hr] at h
  | _ => contradiction

/-- The fragments of a schema of a realm are entered. -/
theorem Realm.entered (hV : Realm d V) {s : Schema} {name : Option String} {spine : Bool}
    {q : String} (h : V s name spine) (hq : FragmentOf q s) : Entered d V q := by
  induction hq generalizing name spine with
  | direct hs hf hp =>
    rcases Schema.form_of_allOf name spine hs (List.ne_nil_of_mem hf) with
      hform | ⟨only, p, hform, hall, honly⟩
    · exact (hV _ _ _ (.fragment _ "" spine) h (.fragment hform hf hp)).1
    · rw [hall, List.mem_singleton] at hf
      subst hf
      rw [hp, Option.some.injEq] at honly
      exact honly ▸ hV _ _ _ (.reference p "" false) h (.wrapper hform)
  | inline hs hf hin ih =>
    rcases Schema.form_of_allOf name spine hs (List.ne_nil_of_mem hf) with
      hform | ⟨only, p, hform, hall, honly⟩
    · exact ih (hV _ _ _ (.schema _ "" none spine) h (.inline hform hf hin.reference_eq))
    · rw [hall, List.mem_singleton] at hf
      subst hf
      simp [hin.reference_eq] at honly

/-- In a realm, steps of compositions lead from components to components. -/
theorem Realm.composes (hV : Realm d V) {p q : String} (hp : Entered d V p)
    (h : Relation.TransGen d.CompositionStep p q) :
    Entered d V q ∧ ∀ c c', Pointer.Whole p c → Pointer.Whole q c' →
      Relation.TransGen d.Composes c c' := by
  have hstep : ∀ {p q}, Entered d V p → d.CompositionStep p q → Entered d V q ∧
      ∀ c c', Pointer.Whole p c → Pointer.Whole q c' → d.Composes c c' := by
    rintro p q ⟨c, s, rfl, hs, hVs⟩ ⟨s', hs', hq⟩
    rw [Document.addressed?_whole (Pointer.whole_component c), hs, Option.some.injEq] at hs'
    subst hs'
    refine ⟨hV.entered hVs hq, fun c₁ c₂ hc₁ hc₂ => ⟨s, q, ?_, hq, hc₂⟩⟩
    rw [← (Pointer.whole_component c).unique hc₁, hs]
  induction h with
  | single h =>
    obtain ⟨hq, hcomposes⟩ := hstep hp h
    exact ⟨hq, fun c c' hc hc' => .single (hcomposes c c' hc hc')⟩
  | tail _ h ih =>
    obtain ⟨hr, hcomposes⟩ := hstep ih.1 h
    obtain ⟨b, _, rfl, -, -⟩ := ih.1
    exact ⟨hr, fun c c' hc hc' => (ih.2 c b hc (Pointer.whole_component b)).tail
      (hcomposes b c' (Pointer.whole_component b) hc')⟩

/-- The chain of the composition at hand leads to the innermost frame. -/
theorem Linked.leads : ∀ {f : Frame} {rest : List Frame}, Linked d (f :: rest) →
    ∀ q ∈ Session.linkedPointers (f :: rest), Relation.ReflTransGen d.CompositionStep q f.pointer
  | f, [], _, q, hq => by
    have hf : q = f.pointer := by simpa [Session.linkedPointers] using hq
    exact hf ▸ .refl
  | f, g :: rest, h, q, hq => by
    rw [Session.linkedPointers, List.mem_cons] at hq
    rcases hq with rfl | hq
    · exact .refl
    · split at hq
      · rename_i hlink
        exact (Linked.leads h.2 q hq).tail (h.1 hlink g rfl)
      · exact absurd hq (List.not_mem_nil)

/-- A pointer that the composition at hand has passed through contains itself. -/
theorem Linked.cycle {stack : List Frame} {p : String} (h : Linked d stack)
    (hmem : p ∈ Session.linkedPointers stack)
    (hstep : ∀ g ∈ stack.head?, d.CompositionStep g.pointer p) :
    Relation.TransGen d.CompositionStep p p := by
  cases stack with
  | nil => simp [Session.linkedPointers] at hmem
  | cons f rest => exact .tail' (h.leads p hmem) (hstep f rfl)

/-- What is known when a request is made: it belongs to the composition at hand, the open
pointers lead to it, and it does not leave the set. -/
structure Admits (d : Document) (V : SchemaSet) (r : Request) (s : Session) : Prop where
  linked : Linked d s.stack
  belongs : r.Belongs d s.stack
  reaching : Reaching d s.stack r
  inside : r.In d V

/-- Interruptions of the answers have contested causes. -/
def Contests (d : Document) (V : SchemaSet) (follow : Follow) : Prop :=
  Meets follow (Admits d V) (fun _ _ _ _ => True)
    fun _ _ e _ => e = .exhausted ∨ ∃ cause, e = .rejected cause ∧ Contested d V cause

namespace Contests

variable {follow : Follow}

/-- What an expansion asks for is admitted. -/
theorem admits {p : String} {s : Session} (hlinked : Linked d s.stack) {link fresh : Bool}
    (hstep : link → ∀ g ∈ s.stack.head?, d.CompositionStep g.pointer p)
    (hopen : ∀ q, openIn s.stack q → Relation.TransGen d.Refers q p) {body : Schema} {c : String}
    (hbody : d.addressed? p = some body) (hc : Pointer.Whole p c) (hV : V body (some c) true) :
    Admits d V (.schema body p (some c) true) { s with stack := ⟨p, link, fresh⟩ :: s.stack } where
  linked := ⟨hstep, hlinked⟩
  belongs _ g hg q hq := by
    simp only [List.head?_cons, Option.mem_def, Option.some.injEq] at hg
    rw [← hg]
    exact ⟨body, hbody, hq⟩
  reaching := by
    rintro q ⟨f, hf, rfl⟩ q' composed hq'
    have hrefers : d.Refers p q' := .mention hbody ((Pointer.whole?_eq_some.2 hc).symm ▸ hq')
    rcases List.mem_cons.1 hf with rfl | hf
    · exact .single hrefers
    · exact (hopen _ ⟨f, hf, rfl⟩).tail hrefers
  inside := hV

/-- The rule of plain references. -/
theorem reference (h : Contests d V follow) {s : Session} {p location : String} {link : Bool}
    (hp : Entered d V p) (hlinked : Linked d s.stack)
    (hstep : link → ∀ g ∈ s.stack.head?, d.CompositionStep g.pointer p)
    (hopen : ∀ q, openIn s.stack q → Relation.TransGen d.Refers q p) :
    Ends (Follow.reference follow d p location link) s (fun _ _ => True)
      fun e _ => e = .exhausted ∨ ∃ cause, e = .rejected cause ∧ Contested d V cause :=
  hp.reference_ends (fun _ _ => trivial) (fun _ _ _ _ => trivial)
    fun _ _ _ _ hbody hc hV => h _ _ (admits hlinked hstep hopen hbody hc hV)

/-- One step is interrupted for contested causes only. -/
theorem step (h : Contests d V follow) (hsteady : Steady follow) (hV : Realm d V)
    (hground : ∀ c, ¬ Relation.TransGen d.Composes c c) :
    Contests d V (Follow.step follow d) := by
  intro r s hr
  cases r with
  | reference p location link =>
    exact h.reference hr.inside hr.linked hr.belongs fun q hq =>
      hr.reaching q hq p false ⟨rfl, rfl⟩
  | fragment p location spine =>
    obtain ⟨hentered, hcomposed⟩ := hr.inside
    have hopen := fun q hq => hr.reaching q hq p true ⟨rfl, rfl⟩
    -- Two ways to be rejected: the fragment is on the spine already, or it is met a third time.
    refine hentered.fragment_ends (fun hspine hmem => ?_) (fun hprogress _ => ?_)
      (fun _ _ _ _ _ hbody hc hV => h _ _ (admits hr.linked hr.belongs hopen hbody hc hV))
      fun _ _ => h.reference hentered hr.linked hr.belongs hopen
    · -- A composition that contains itself is not grounded.
      have hcycle := hr.linked.cycle hmem (hr.belongs hspine)
      have hcomposes := (hV.composes hentered hcycle).2
      obtain ⟨c, _, rfl, -, -⟩ := hentered
      exact absurd (hcomposes c c (Pointer.whole_component c) (Pointer.whole_component c))
        (hground c)
    · exact .inr ⟨_, rfl, .fragment hcomposed (hopen p (Session.inProgress_iff.1 hprogress))⟩
  | schema schema location name spine =>
    have hbrings : Brings (fun u => u.stack = s.stack)
        (fun e _ => e = .exhausted ∨ ∃ cause, e = .rejected cause ∧ Contested d V cause)
        (Follow.schema follow d schema location name spine) _ :=
      Follow.schema_brings (Q := fun _ _ _ => True) (fun t u htu ht => htu.stack.trans ht)
        (fun _ _ _ _ _ _ => trivial)
        (fun _ _ _ _ _ hform _ hc _ => by
          obtain ⟨rfl, _, variant, hd, rfl⟩ := classify_error hc
          exact .inr ⟨_, rfl, .tag hr.inside hform hd location variant⟩)
        fun r hlead t ht => by
          have hadmits : Admits d V r t := by
            constructor
            · rw [ht]
              exact hr.linked
            · rw [ht]
              exact hlead.belongs hr.belongs
            · rw [ht]
              exact hr.reaching.leads hlead
            · exact hV _ _ _ _ hr.inside hlead
          exact ((h r t hadmits).and (hsteady r t)).mono
            (fun _ u hu => ⟨hu.2.stack.trans ht, hu.2, trivial⟩) fun _ _ he => he.1
    exact (hbrings s rfl).mono_ok fun _ _ _ => trivial

end Contests

/-- **Inside a realm, resolutions fail for contested causes only.** -/
theorem Document.follow_contested (hV : Realm d V)
    (hground : ∀ c, ¬ Relation.TransGen d.Composes c c) (depth : Nat) :
    Contests d V (d.follow depth) :=
  Document.follow_meets (fun _ _ _ => .inl rfl)
    (fun _ hsteady h => Contests.step h hsteady hV hground) depth

end Realm

/-! ### Compilations -/

/-- A component that has a node mentions no broken pointers, nor does a schema that has one. -/
def soundClaims (d : Document) : Claims where
  component c _ := ∀ s, d.schema? c = some s →
    ∀ p composed, Mentions s (some c) true p composed → (d.addressed? p).isSome
  schema _ s name spine _ :=
    ∀ p composed, Mentions s name spine p composed → (d.addressed? p).isSome

/-- All pointers on the way were answered, so none of them is broken. -/
theorem soundClaims_sound (d : Document) : (soundClaims d).Sound d := by
  refine ⟨fun _ _ c s n _ hs _ hn s' hs' => ?_,
    fun _ s location name spine n _ h p composed hmention => ?_⟩
  · rw [hs, Option.some.injEq] at hs'
    exact hs' ▸ hn
  · obtain ⟨t, name', spine', r, hwithin, hlead, hnamed⟩ := hmention
    cases hwithin with
    | here =>
      obtain ⟨l, m, hm⟩ := h.answered hlead
      cases r with
      | reference q l' link =>
        simp only [Request.named?, Option.some.injEq, Prod.mk.injEq] at hnamed
        exact hnamed.1 ▸ hm.1
      | fragment q l' link =>
        simp only [Request.named?, Option.some.injEq, Prod.mk.injEq] at hnamed
        exact hnamed.1 ▸ hm.1
      | schema u l' name'' spine'' => simp [Request.named?] at hnamed
    | inside hin hwithin =>
      obtain ⟨l, m, hm⟩ := h.answered hin
      exact hm p composed ⟨t, name', spine', r, hwithin, hlead, hnamed⟩

/-- **What compiles is sound.** -/
theorem compile_sound {config : Config} {d : Document} {c : Compilation}
    (h : compile config d = .ok c) : d.Sound config := by
  have hclaims := compile_claims config (soundClaims_sound d) fun _ => id
  have hgrounded := compile_grounded config d
  simp only [Claims.Compile, h] at hclaims hgrounded
  refine ⟨fun p composed hp => ?_, fun b hb => ?_, hclaims.template⟩
  · obtain ⟨s, name, spine, r, hs, hr, hnamed⟩ := hp
    cases hs with
    | component hs hwithin =>
      obtain ⟨m, -, n, _, _, _, hn, -⟩ := hclaims.model _ (Document.mem_componentNames hs)
      exact hn _ hs p composed ⟨s, name, spine, r, hwithin, hr, hnamed⟩
    | operation hs hwithin =>
      obtain ⟨n, hn⟩ := hclaims.uses _ hs
      exact hn p composed ⟨s, name, spine, r, hwithin, hr, hnamed⟩
  · obtain ⟨_, ⟨s, p, hs, -⟩, -⟩ := Relation.TransGen.head'_iff.1 hb
    exact (hgrounded b (Document.mem_componentNames hs)).not_cyclic hb

/-- **What is sound fails for contested causes only.** -/
theorem compile_contested {config : Config} {d : Document} {e : Interruption}
    (hw : d.WholeReferences config) (hs : d.Sound config) (h : compile config d = .error e) :
    ∃ cause, e = .rejected cause ∧ Contested d (d.Visits config) cause := by
  have hrealm := hs.realm hw
  have hcontest := Document.follow_contested hrealm hs.grounded
  have hruns := compile_ends config d (J := fun _ s => s.stack = [])
    (E := fun e => ∃ cause, e = .rejected cause ∧ Contested d (d.Visits config) cause)
    (P := fun _ _ => True) (R := fun _ => True)
    (fun _ s t hst hs => hst.stack.trans hs) rfl ?_ ?_ ?_
  · simpa only [h] using hruns
  · intro done c rest hsplit s hstack
    have hc : c ∈ d.componentNames := by simp [hsplit]
    obtain ⟨body, hbody⟩ := Document.schema?_of_mem hc
    have hadmits : Admits d (d.Visits config)
        (.reference (Pointer.component c) (Pointer.component c) false) s :=
      ⟨by rw [hstack]; trivial, nofun, fun q ⟨f, hf, _⟩ => by simp [hstack] at hf,
        c, body, rfl, hbody, .component hbody .here⟩
    refine ((hcontest _ _ s hadmits).and (d.resolve_ends (Pointer.component c) s)).mono
      (fun _ t ht => ⟨ht.2.stack.trans hstack, trivial⟩) fun e _ he => he.1.resolve_left he.2
  · intro t ht location s hstack
    have hadmits : Admits d (d.Visits config) (.schema t location none false) s :=
      ⟨by rw [hstack]; trivial, nofun, fun q ⟨f, hf, _⟩ => by simp [hstack] at hf,
        .operation ht .here⟩
    refine ((hcontest _ _ s hadmits).and (d.resolveSchema_ends t location s)).mono
      (fun _ u hu => ⟨hu.2.stack.trans hstack, trivial⟩) fun e _ he => he.1.resolve_left he.2
  · intro path item hmem cause hcause
    obtain ⟨template, htemplate⟩ := hs.template path item hmem
    simp [htemplate] at hcause

end ApiBinding
