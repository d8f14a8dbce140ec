import ApiBinding.Proofs.Resolver.Components

/-!
# Realms

A resolution does not leave a set of schemas that holds, with each schema, the schemas that
it leads to.  In a realm all pointers are written for components as a whole, and none is
broken.  There a pointer that is entered is always expanded: no part of a component has to
be looked up.

## Main definitions

* `Entered`, `Request.In`, `Realm` — the pointers and requests of a set of schemas, and the
  sets that resolutions do not leave.

## Main results

* `Entered.reference_ends`, `Entered.fragment_ends` — the rules of references and fragments
  inside a realm.
-/

namespace ApiBinding

/-- The schemas of a set, each with the component it is the body of and its place in a
composition. -/
abbrev SchemaSet : Type := Schema → Option String → Bool → Prop

/-- The pointer is written for a component whose body belongs to the set. -/
def Entered (d : Document) (V : SchemaSet) (p : String) : Prop :=
  ∃ c s, p = Pointer.component c ∧ d.schema? c = some s ∧ V s (some c) true

/-- A schema of the set has the pointer as a fragment. -/
def Composed (V : SchemaSet) (p : String) : Prop :=
  ∃ s name spine location spine', V s name spine ∧ Leads s name spine (.fragment p location spine')

/-- The request does not leave the set. -/
def Request.In (d : Document) (V : SchemaSet) : Request → Prop
  | .reference p _ _ => Entered d V p
  | .fragment p _ _ => Entered d V p ∧ Composed V p
  | .schema s _ name spine => V s name spine

/-- Resolutions do not leave the set. -/
def Realm (d : Document) (V : SchemaSet) : Prop :=
  ∀ s name spine r, V s name spine → Leads s name spine r → r.In d V

/-- What is mentioned inside a realm is entered. -/
theorem Realm.mention {d : Document} {V : SchemaSet} (hV : Realm d V) {s : Schema}
    {name : Option String} {spine composed : Bool} {q : String} (hs : V s name spine)
    (h : Mentions s name spine q composed) : Entered d V q := by
  obtain ⟨t, name', spine', r, hwithin, hlead, hnamed⟩ := h
  induction hwithin with
  | here =>
    have hin := hV _ _ _ _ hs hlead
    cases r with
    | reference p l link =>
      simp only [Request.named?, Option.some.injEq, Prod.mk.injEq] at hnamed
      exact hnamed.1 ▸ hin
    | fragment p l spine'' =>
      simp only [Request.named?, Option.some.injEq, Prod.mk.injEq] at hnamed
      exact hnamed.1 ▸ hin.1
    | schema u l name'' spine'' => simp [Request.named?] at hnamed
  | inside h _ ih => exact ih (hV _ _ _ _ hs h) hlead

namespace Entered

variable {d : Document} {V : SchemaSet} {p : String}

theorem target_ne_error (h : Entered d V p) {location : String} {cause : CompileError} :
    d.target p location ≠ .error cause := by
  obtain ⟨c, s, rfl, hs, -⟩ := h
  intro ht
  have hnone := Document.target_eq_error_iff.1 ⟨cause, ht⟩
  rw [Document.addressed?_whole (Pointer.whole_component c), hs] at hnone
  simp at hnone

/-- Entered pointers refer to entered ones. -/
theorem refers (h : Entered d V p) (hV : Realm d V) {q : String} (hpq : d.Refers p q) :
    Entered d V q := by
  obtain ⟨c, s, rfl, hs, hVs⟩ := h
  have hwhole := Pointer.whole_component c
  cases hpq with
  | mention ht hm =>
    rw [Document.addressed?_whole hwhole, hs, Option.some.injEq] at ht
    rw [Pointer.whole?_eq_some.2 hwhole, ← ht] at hm
    exact hV.mention hVs hm
  | root htokens =>
    rw [Pointer.Whole] at hwhole
    rw [hwhole] at htokens
    simp at htokens

theorem reaches (h : Entered d V p) (hV : Realm d V) {q : String}
    (hpq : Relation.ReflTransGen d.Refers p q) : Entered d V q := by
  induction hpq with
  | refl => exact h
  | tail _ hstep ih => exact ih.refers hV hstep

/-- What is expanded for the pointer. -/
theorem target (h : Entered d V p) {location : String} {t : Target}
    (ht : d.target p location = .ok t) :
    t.isComponent ∧ V t.schema (some t.component) true := by
  obtain ⟨c, s, rfl, hs, hV⟩ := h
  obtain ⟨rfl, hc, hschema⟩ := Document.target_whole ht (Pointer.whole_component c)
  rw [hs, Option.some.injEq] at hschema
  exact ⟨hc, hschema ▸ hV⟩

variable {follow : Follow} {s : Session} {location : String} {ok : Node → Session → Prop}
  {E : Interruption → Session → Prop}

/-- The rule of expansion. -/
theorem expand_ends (h : Entered d V p) {target : Target} {link fresh : Bool}
    (ht : d.target p location = .ok target)
    (hschema : ∀ body component, d.addressed? p = some body → Pointer.Whole p component →
      V body (some component) true →
      Ends (follow (.schema body p (some component) true))
        { s with stack := ⟨p, link, fresh⟩ :: s.stack }
        (fun n t => ok n { t with stack := s.stack })
        fun e t => E e { t with stack := s.stack }) :
    Ends (Follow.expand follow p target link fresh) s ok E := by
  obtain ⟨hc, hV⟩ := h.target ht
  refine Follow.expand_ends ?_
  rw [if_pos hc]
  exact hschema _ _ (Document.target_eq_ok_iff.1 ht).2 (Document.whole_of_isComponent ht hc) hV

/-- **The rule of plain references**: a kept node, a back reference, or the node that the body
of the component has, which is kept. -/
theorem reference_ends (h : Entered d V p) {link : Bool}
    (hkept : ∀ n, Table.get? s.cache p = some n → ok n s)
    (hback : s.inProgress p → ∀ n t, s.Alike t → ok n t)
    (hexpand : Table.get? s.cache p = none → ¬ s.inProgress p →
      ∀ body component, d.addressed? p = some body → Pointer.Whole p component →
      V body (some component) true →
      Ends (follow (.schema body p (some component) true))
        { s with stack := ⟨p, link, false⟩ :: s.stack }
        (fun n t => ok n { t with stack := s.stack, cache := Table.insert t.cache p n })
        fun e t => E e { t with stack := s.stack }) :
    Ends (Follow.reference follow d p location link) s ok E := by
  refine Follow.reference_ends (fun cause hc => absurd hc h.target_ne_error) hkept
    (fun _ _ hp _ => hback hp _ _ Resolution.issue_alike)
    (fun t ht _ hc => absurd (h.target ht).1 hc) fun t ht hnone hp => ?_
  refine Follow.enter_ends (fun u _ hu => ?_) fun hc _ => absurd (h.target ht).1 hc
  subst hu
  exact h.expand_ends ht (hexpand hnone hp)

/-- **The rule of fragments**: an error, an expansion that is not kept, or a plain reference. -/
theorem fragment_ends (h : Entered d V p) {spine : Bool}
    (hcyclic : spine → p ∈ s.compositionChain →
      E (.rejected (.cyclicComposition (Follow.cycleChain s.compositionChain p))) s)
    (hfresh : s.inProgress p → s.inFreshProgress p → E (.rejected (.unrepresentableCycle p)) s)
    (hagain : (spine → p ∉ s.compositionChain) → s.inProgress p → ¬ s.inFreshProgress p →
      ∀ body component, d.addressed? p = some body → Pointer.Whole p component →
      V body (some component) true →
      Ends (follow (.schema body p (some component) true))
        { s with stack := ⟨p, spine, true⟩ :: s.stack }
        (fun n t => ok n { t with stack := s.stack })
        fun e t => E e { t with stack := s.stack })
    (hplain : (spine → p ∉ s.compositionChain) → ¬ s.inProgress p →
      Ends (Follow.reference follow d p location spine) s ok E) :
    Ends (Follow.fragment follow d p location spine) s ok E :=
  Follow.fragment_ends (fun _ hc => absurd hc h.target_ne_error) hcyclic hfresh
    (fun _ ht hchain hp hf => h.expand_ends ht (hagain hchain hp hf)) hplain

end Entered

end ApiBinding
