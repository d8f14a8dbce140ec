import ApiBinding.Proofs.Resolver.BackReferences

/-!
# Derivations

What a request is answered with depends on what is kept and on what is open.  A derivation says how
an answer may come about, without the two: the node of a schema is built from derived answers; a
pointer is answered by the node of what it addresses, by what is found in the node of its component,
or by a back reference if it leads back to itself; and a fragment is answered by what its pointer is
answered by, but for a back reference.

Every answer has a derivation, at every moment of every run.  So what can be shown of derivations,
by induction, holds whatever was open or kept when a request was made.

## Main definitions

* `Document.Derives` — the answers to requests that have a derivation.
* `Document.Lifts` — what is said of the nodes of schemas, said of the answers to requests.

## Main results

* `Document.Derives.built` — the node of a schema is built from derived answers.
* `Document.Derives.induct` — what is kept by building holds of the derived nodes of schemas.
* `Document.Arises.derives` — **every answer has a derivation**, at every moment of every run.
-/

namespace ApiBinding

/-! ### Derivations -/

/-- The node is what the pointer of the component, while it is open, is answered with. -/
structure Document.StandsIn (d : Document) (p c : String) (n : Node) : Prop where
  whole : Pointer.Whole p c
  refersBack : n.RefersBack c
  nullable : ∀ body, d.schema? c = some body → n.nullable = body.isNullable
  default : n.default = none
  cyclic : Relation.TransGen d.Refers p p

/-- The answers to requests that have a derivation. -/
inductive Document.Derives (d : Document) : Request → Node → Prop where
  | schema {Q : Request → Node → Prop} {s : Schema} {location : String} {name : Option String}
      {spine : Bool} {n : Node} (hQ : ∀ r m, Q r m → Derives d r m)
      (h : Built d Q s location name spine n) : Derives d (.schema s location name spine) n
  /-- The pointer is entered. -/
  | entered {p location place : String} {link : Bool} {t : Schema} {n : Node}
      (ht : d.addressed? p = some t)
      (h : Derives d (.schema t place (Pointer.whole? p) true) n) :
      Derives d (.reference p location link) n
  /-- The pointer is looked up in the node of the component. -/
  | found {p location place c step : String} {steps : List String} {link link' : Bool}
      {root n : Node} (hp : Pointer.tokens? p = some (c, step :: steps))
      (h : Derives d (.reference (Pointer.component c) place link') root)
      (hn : root.at? (step :: steps) = some n) : Derives d (.reference p location link) n
  | opened {p location c : String} {link : Bool} {n : Node} (h : d.StandsIn p c n) :
      Derives d (.reference p location link) n
  | fragment {p location place : String} {spine link : Bool} {n : Node}
      (h : Derives d (.reference p place link) n)
      (hnamed : ∀ c, Pointer.Whole p c → n.name = some c) :
      Derives d (.fragment p location spine) n

namespace Document.Derives

variable {d : Document} {s : Schema} {p location : String} {name : Option String}
  {spine link : Bool} {n : Node}

/-- **The node of a schema is built from derived answers.** -/
theorem built (h : d.Derives (.schema s location name spine) n) :
    Built d d.Derives s location name spine n := by
  cases h with
  | schema hQ h => exact Built.mono hQ h

/-- Where a pointer is written makes no difference for what it is answered with. -/
theorem relocate (h : d.Derives (.reference p location link) n) (location' : String)
    (link' : Bool) : d.Derives (.reference p location' link') n := by
  cases h with
  | entered ht h => exact .entered ht h
  | found hp h hn => exact .found hp h hn
  | opened h => exact .opened h

/-- The node of a component that is entered has its name. -/
theorem name_of_component {c : String} (h : d.Derives (.schema s location (some c) true) n) :
    n.name = some c := by
  obtain ⟨body, hn⟩ := h.built.annotated (s.own_component c true)
  exact hn.name

end Document.Derives

/-! ### Induction -/

/-- What is said of the nodes of schemas, said of the nodes that the answer to a request is, or that
it is found in. -/
inductive Document.Lifts (d : Document) (P : Schema → Option String → Bool → Node → Prop) :
    Request → Node → Prop where
  | schema {s : Schema} {location : String} {name : Option String} {spine : Bool} {n : Node}
      (h : P s name spine n) : Lifts d P (.schema s location name spine) n
  | entered {p location : String} {link : Bool} {t : Schema} {n : Node}
      (ht : d.addressed? p = some t) (h : P t (Pointer.whole? p) true n) :
      Lifts d P (.reference p location link) n
  | found {p location c step : String} {steps : List String} {link : Bool} {body : Schema}
      {root n : Node} (hp : Pointer.tokens? p = some (c, step :: steps))
      (hbody : d.schema? c = some body) (h : P body (some c) true root)
      (hn : root.at? (step :: steps) = some n) : Lifts d P (.reference p location link) n
  | opened {p location c : String} {link : Bool} {n : Node} (h : d.StandsIn p c n) :
      Lifts d P (.reference p location link) n
  | fragment {p location place : String} {spine link : Bool} {n : Node}
      (h : Lifts d P (.reference p place link) n)
      (hnamed : ∀ c, Pointer.Whole p c → n.name = some c) :
      Lifts d P (.fragment p location spine) n

/-- No step leads into a back reference. -/
theorem Node.RefersBack.at? {n : Node} {c step : String} {steps : List String}
    (h : n.RefersBack c) : n.at? (step :: steps) = none := by
  cases steps <;> simp [Node.at?, h.shape]

section Induction

variable {d : Document} {P : Schema → Option String → Bool → Node → Prop} {r : Request} {n : Node}

/-- **What is kept by building** holds of the derived nodes of schemas, and so it lifts to all
answers that have a derivation. -/
theorem Document.Derives.induct (h : d.Derives r n)
    (hstep : ∀ s location name spine n,
      Built d (fun r m => d.Derives r m ∧ d.Lifts P r m) s location name spine n →
        P s name spine n) : d.Lifts P r n := by
  induction h with
  | schema hQ hbuilt ih =>
    exact .schema (hstep _ _ _ _ _ (Built.mono (fun r m h => ⟨hQ r m h, ih r m h⟩) hbuilt))
  | entered ht _ ih =>
    cases ih with
    | schema ih => exact .entered ht ih
  | @found p location place c step steps link link' root n hp hroot hn ih =>
    have hwhole := Pointer.whole_component c
    cases ih with
    | @entered _ _ _ body _ ht ih =>
      rw [Document.addressed?_whole hwhole] at ht
      rw [Pointer.whole?_eq_some.2 hwhole] at ih
      exact .found hp ht ih hn
    | found hp' =>
      rw [Pointer.Whole] at hwhole
      rw [hwhole] at hp'
      simp at hp'
    | opened hstands => simp [hstands.refersBack.at?] at hn
  | opened hstands => exact .opened hstands
  | fragment _ hnamed ih => exact .fragment ih hnamed

/-- What is said of the node of a schema. -/
theorem Document.Lifts.of_schema {s : Schema} {location : String} {name : Option String}
    {spine : Bool} (h : d.Lifts P (.schema s location name spine) n) : P s name spine n := by
  cases h with
  | schema h => exact h

/-- What is said of the node of a component. -/
theorem Document.Lifts.of_whole {p location c : String} {link : Bool} {body : Schema}
    (h : d.Lifts P (.reference p location link) n) (hp : Pointer.Whole p c)
    (hbody : d.schema? c = some body) : P body (some c) true n ∨ d.StandsIn p c n := by
  cases h with
  | entered ht h =>
    rw [Document.addressed?_whole hp, hbody, Option.some.injEq] at ht
    rw [Pointer.whole?_eq_some.2 hp, ← ht] at h
    exact .inl h
  | found hp' =>
    rw [Pointer.Whole] at hp
    rw [hp] at hp'
    simp at hp'
  | opened h =>
    obtain rfl := hp.unique h.whole
    exact .inr h

/-- A derived answer comes from derived nodes of schemas. -/
theorem Document.Derives.lifts (h : d.Derives r n) :
    d.Lifts (fun s name spine n => ∃ place, d.Derives (.schema s place name spine) n) r n :=
  h.induct fun _ location _ _ _ h => ⟨location, .schema (fun _ _ h => h.1) h⟩

/-- A fragment that refers to a component is answered with the node of the body. -/
theorem Document.Lifts.of_fragment {p location c : String} {spine : Bool} {body : Schema}
    (h : d.Lifts P (.fragment p location spine) n) (hp : Pointer.Whole p c)
    (hbody : d.schema? c = some body) : P body (some c) true n := by
  cases h with
  | fragment h hnamed =>
    refine (h.of_whole hp hbody).resolve_right fun hstands => ?_
    have hname := hstands.refersBack.name
    rw [hnamed c hp] at hname
    simp at hname

end Induction

/-! ### Runs have derivations -/

/-- The kept nodes have derivations, and those of components have their names. -/
def Session.Derived (d : Document) (s : Session) : Prop :=
  ∀ p n, Table.get? s.cache p = some n →
    d.Derives (.reference p "" false) n ∧ ∀ c, Pointer.Whole p c → n.name = some c

/-- What is known when a request is made. -/
structure Deriving (d : Document) (r : Request) (s : Session) : Prop where
  kept : s.Derived d
  reaching : Reaching d s.stack r

/-- The answers have derivations, and a pointer that is not open is not answered with a back
reference. -/
def Derivable (d : Document) (follow : Follow) (E : Interruption → Prop := fun _ => True) : Prop :=
  Meets follow (Deriving d)
    (fun r s n t => t.Derived d ∧ d.Derives r n ∧
      ∀ p location link, r = .reference p location link → ¬ s.inProgress p →
        ∀ c, Pointer.Whole p c → n.name = some c)
    fun _ _ e _ => E e

section Runs

variable {d : Document} {follow : Follow} {E : Interruption → Prop} {s : Session}

theorem Session.Derived.alike {t : Session} (hst : s.Alike t) (h : s.Derived d) : t.Derived d :=
  fun p n hn => h p n (by rwa [← hst.cache])

theorem Session.Derived.remember (h : s.Derived d) {p location : String} {link : Bool} {n : Node}
    (hn : d.Derives (.reference p location link) n)
    (hnamed : ∀ c, Pointer.Whole p c → n.name = some c) :
    Session.Derived d { s with cache := Table.insert s.cache p n } := by
  intro q m hm
  rw [Table.get?_insert] at hm
  split at hm
  · rename_i heq
    rw [Option.some.injEq] at hm
    subst hm heq
    exact ⟨hn.relocate _ _, hnamed⟩
  · exact h q m hm

namespace Derivable

/-- What is expanded is derived as what is entered. -/
theorem expand (h : Derivable d follow E) {p location : String} {target : Target}
    {link fresh : Bool} (ht : d.target p location = .ok target) (hs : s.Derived d)
    (hopen : ∀ q, openIn s.stack q → Relation.TransGen d.Refers q p) :
    Ends (Follow.expand follow p target link fresh) s
      (fun n t => t.Derived d ∧ d.Derives (.reference p "" false) n ∧
        ∀ c, Pointer.Whole p c → n.name = some c)
      fun e _ => E e := by
  have hready : Deriving d (.schema target.schema p
      (if target.isComponent then some target.component else none) true)
      { s with stack := ⟨p, link, fresh⟩ :: s.stack } := ⟨hs, Reaching.expand hopen ht⟩
  refine Follow.expand_ends ((h _ _ hready).mono_ok fun n t ⟨ht', hn, _⟩ => ?_)
  rw [Document.target_name ht] at hn
  refine ⟨ht', .entered (Document.target_eq_ok_iff.1 ht).2 hn, fun c hc => ?_⟩
  rw [Pointer.whole?_eq_some.2 hc] at hn
  exact hn.name_of_component

theorem enter (h : Derivable d follow E) {p location : String} {target : Target} {link : Bool}
    (ht : d.target p location = .ok target) (hs : s.Derived d)
    (hopen : ∀ q, openIn s.stack q → Relation.TransGen d.Refers q p)
    (hsteady : Steady follow) :
    Ends (Follow.enter follow p location target link) s
      (fun n t => t.Derived d ∧ d.Derives (.reference p "" false) n ∧
        ∀ c, Pointer.Whole p c → n.name = some c)
      fun e _ => E e := by
  have hexpand : ∀ t : Session, t.Derived d → t.stack = s.stack →
      Ends (Follow.expand follow p target link false) t
        (fun n u => Session.Derived d { u with cache := Table.insert u.cache p n } ∧
          d.Derives (.reference p "" false) n ∧ ∀ c, Pointer.Whole p c → n.name = some c)
        fun e _ => E e := fun t hkept hstack =>
    (h.expand ht hkept (hstack ▸ hopen)).mono_ok fun n u hu =>
      ⟨hu.1.remember hu.2.1 hu.2.2, hu.2⟩
  refine Follow.enter_ends (fun t _ hts => hexpand t (hts ▸ hs) (by rw [hts])) fun hc _ => ?_
  -- A part is no whole component.
  have hpart : ∀ c, ¬ Pointer.Whole p c := fun c hp =>
    absurd (Document.target_whole ht hp).2.1 hc
  have htokens := (Document.target_eq_ok_iff.1 ht).1
  cases hsteps : target.steps with
  | nil => simp [Target.isComponent, hsteps] at hc
  | cons step steps =>
    rw [hsteps] at htokens
    have hroot := h (.reference (Pointer.component target.component) location false) s
      ⟨hs, Reaching.root hopen ht hc⟩
    refine (hroot.and (hsteady _ s)).mono (fun root t hroot =>
      ⟨fun n hn => ?_, fun _ => hexpand t hroot.1.1 hroot.2.stack⟩) fun _ _ he => he.1
    have hn' : d.Derives (.reference p "" false) n := .found htokens hroot.1.2.1 hn
    have hnamed : ∀ c, Pointer.Whole p c → n.name = some c := fun c hp => absurd hp (hpart c)
    exact ⟨hroot.1.1.remember hn' hnamed, hn', hnamed⟩

theorem reference (h : Derivable d follow E) (hE : Excuses E) (hsteady : Steady follow)
    {p location : String} {link : Bool} (hs : s.Derived d)
    (hopen : ∀ q, openIn s.stack q → Relation.TransGen d.Refers q p) :
    Ends (Follow.reference follow d p location link) s
      (fun n t => t.Derived d ∧ d.Derives (.reference p "" false) n ∧
        (¬ s.inProgress p → ∀ c, Pointer.Whole p c → n.name = some c))
      fun e _ => E e := by
  refine Follow.reference_ends (fun _ => hE.target_error) (fun n hn => ?_)
    (fun target ht hprogress hcomponent => ?_) (fun _ _ _ _ => hE _ (by simp))
    fun target ht _ _ => ?_
  · obtain ⟨hn, hnamed⟩ := hs p n hn
    exact ⟨hs, hn, fun _ => hnamed⟩
  · have hwhole := Document.whole_of_isComponent ht hcomponent
    have hcyclic := hopen p (Session.inProgress_iff.1 hprogress)
    refine ⟨hs.alike Resolution.issue_alike, .opened ⟨hwhole, ⟨rfl, rfl⟩, fun body hbody => ?_,
      rfl, hcyclic⟩, fun hno => absurd hprogress hno⟩
    have hschema := (Document.target_whole ht hwhole).2.2
    rw [hbody, Option.some.injEq] at hschema
    rw [hschema]
  · exact (h.enter ht hs hopen hsteady).mono_ok fun n t ⟨ht', hn, hnamed⟩ =>
      ⟨ht', hn, fun _ => hnamed⟩

/-- **One step makes a derivation** from the derivations of the answers on the way. -/
theorem step (h : Derivable d follow E) (hE : Excuses E) (hsteady : Steady follow) :
    Derivable d (Follow.step follow d) E := by
  rintro r s ⟨hs, hreach⟩
  cases r with
  | reference p location link =>
    have hopen := fun q hq => hreach q hq p false ⟨rfl, rfl⟩
    refine (h.reference hE hsteady hs hopen).mono_ok fun n t ⟨ht, hn, hnamed⟩ =>
      ⟨ht, hn.relocate _ _, fun q location' link' heq hno => ?_⟩
    obtain ⟨rfl, -, -⟩ := Request.reference.inj heq
    exact hnamed hno
  | fragment p location spine =>
    have hopen := fun q hq => hreach q hq p true ⟨rfl, rfl⟩
    refine Follow.fragment_ends (fun _ => hE.target_error) (fun _ _ => hE _ (by simp))
      (fun _ _ => hE _ (by simp)) (fun target ht _ _ _ => ?_) fun _ hno => ?_
    · exact (h.expand ht hs hopen).mono_ok fun n t ⟨ht', hn, hnamed⟩ =>
        ⟨ht', .fragment hn hnamed, by simp⟩
    · exact (h.reference hE hsteady hs hopen).mono_ok fun n t ⟨ht', hn, hnamed⟩ =>
        ⟨ht', .fragment hn (hnamed hno), by simp⟩
  | schema schema location name spine =>
    have hbrings : Brings (fun t => t.Derived d ∧ t.stack = s.stack) (fun e _ => E e)
        (Follow.schema follow d schema location name spine) _ :=
      Follow.schema_brings (Q := fun r n _ => d.Derives r n)
        (fun t u htu ht => ⟨ht.1.alike htu, htu.stack.trans ht.2⟩) (fun _ _ _ _ hn _ => hn)
        (fun _ _ _ _ _ _ _ hclassify _ => by
          obtain ⟨-, _, _, -, rfl⟩ := classify_error hclassify
          exact hE _ (by simp))
        fun r hlead t ⟨ht, hstack⟩ =>
          ((h r t ⟨ht, hstack ▸ hreach.leads hlead⟩).and (hsteady r t)).mono
            (fun n u ⟨⟨hu, hn, _⟩, hlater⟩ => ⟨⟨hu, hlater.stack.trans hstack⟩, hlater, hn⟩)
            fun _ _ he => he.1
    exact (hbrings s ⟨hs, rfl⟩).mono_ok fun n t ⟨ht, _, hn⟩ =>
      ⟨ht.1, .schema (fun _ _ h => h) hn, by simp⟩

/-- The answers of runs have derivations, and runs are interrupted as expected. -/
theorem runs (hE : Excuses E) (hexhausted : E .exhausted) (depth : Nat) :
    Derivable d (d.follow depth) E :=
  Document.follow_meets (fun _ _ _ => hexhausted) (fun _ hsteady h => step h hE hsteady) depth

/-- **The answers of runs have derivations.** -/
theorem run (depth : Nat) : Derivable d (d.follow depth) :=
  runs (fun _ _ => trivial) trivial depth

end Derivable

/-! ### Moments -/

variable {r q : Request} {t : Session} {depth : Nat} {query : Query}

/-- A step that starts with what is known when a request is made makes requests only with that. -/
theorem Deriving.makes (hs : Deriving d r s) (h : Makes d (d.follow depth) r s q t) :
    Deriving d q t := by
  -- No step ends with a fault of a path, so a request can be interrupted with one.
  refine h.carries (e := .rejected (.malformedPath "" .noLeadingSlash)) (d.follow_steady depth)
    (fun r s hs => (Derivable.runs excuses_noPathFault (fun _ _ => nofun) depth r s hs).mono
      (fun _ _ hn => hn) fun _ _ he => he _ _) fun answer hsteady hanswer => ?_
  have hexcuses :
      Excuses fun e => e = .rejected (.malformedPath "" .noLeadingSlash) → Deriving d q t :=
    fun _ hcause heq => absurd (Interruption.rejected.inj heq) (hcause _ _)
  exact (Derivable.step hanswer hexcuses hsteady r s hs).mono_ok fun _ _ _ => trivial

theorem Deriving.moment (hs : Deriving d r s) (h : d.Moment depth r s q t) : Deriving d q t := by
  induction h with
  | start => exact hs
  | inside hmakes _ ih => exact ih (hs.makes hmakes)

theorem Deriving.of_used (h : s.Derived d) (hs : d.Used s) : Deriving d query.request s :=
  ⟨h, fun q hq => absurd hq (Claims.not_openIn_nil hs.stack q)⟩

/-- What is kept in the sessions that runs lead to has a derivation. -/
theorem Document.Used.derived (h : d.Used s) : s.Derived d := by
  induction h with
  | start =>
    intro p n hn
    simp at hn
  | @run s t n query hs hn ih =>
    rw [Query.work_eq] at hn
    exact ((Derivable.run _ query.request s (.of_used ih hs)).of_ok hn).1
  | noted _ _ ih => exact ih.alike ⟨rfl, rfl⟩

/-- **Every answer has a derivation**, at every moment of every run. -/
theorem Document.Arises.derives {n : Node} (h : d.Arises r n) : d.Derives r n := by
  obtain ⟨hs, hmoment, hn⟩ := h
  have hready := (Deriving.of_used hs.derived hs).moment hmoment
  exact ((Derivable.run _ r _ hready).of_ok hn).2.1

end Runs

end ApiBinding
