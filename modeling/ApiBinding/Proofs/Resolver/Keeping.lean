import ApiBinding.Proofs.Resolver.Realms

/-!
# What resolutions keep

Once a request has been answered, answering it again keeps nothing new: each pointer on the
way is kept or open.  Such a request is settled.  In a realm the bodies of kept components
are settled at all times, so a resolution that starts with fewer kept nodes, but with the
same open pointers, keeps nothing that is not kept there.

## Main definitions

* `Session.Keeps` — the pointers whose nodes are kept.
* `Settled` — the requests whose answers keep nothing new.
* `Session.Shut` — the bodies of kept components are settled.
* `Session.Retains` — given nodes are kept.

## Main results

* `Document.follow_retains` — kept nodes of whole components stay the same.
* `Document.follow_settles` — answered requests are settled.
* `Document.follow_confined` — the answer to a settled request keeps nothing new.
-/

namespace ApiBinding

/-- The node of the pointer is kept. -/
def Session.Keeps (s : Session) (p : String) : Prop := (Table.get? s.cache p).isSome

theorem Session.keeps_remember {s : Session} {p q : String} {n : Node} :
    Keeps { s with cache := Table.insert s.cache p n } q ↔ q = p ∨ s.Keeps q := by
  unfold Keeps
  rw [Table.get?_insert]
  split
  · rename_i h
    simp [h]
  · rename_i h
    simp [Ne.symm h]

/-- The requests whose answers keep no nodes but those that are kept. -/
inductive Settled (d : Document) (kept opened : String → Prop) : Request → Prop where
  | kept {p location : String} {link : Bool} (h : kept p) :
      Settled d kept opened (.reference p location link)
  | opened {p location : String} {link : Bool} (h : opened p) :
      Settled d kept opened (.reference p location link)
  | keptFragment {p location : String} {spine : Bool} (h : kept p) :
      Settled d kept opened (.fragment p location spine)
  /-- A fragment that is expanded once more. -/
  | again {p c location location' : String} {spine : Bool} {body : Schema} (h : opened p)
      (hbody : d.addressed? p = some body) (hc : Pointer.Whole p c)
      (hschema : Settled d kept opened (.schema body location' (some c) true)) :
      Settled d kept opened (.fragment p location spine)
  | schema {s : Schema} {location : String} {name : Option String} {spine : Bool}
      (h : ∀ r, Leads s name spine r → Settled d kept opened r) :
      Settled d kept opened (.schema s location name spine)

namespace Settled

variable {d : Document} {kept kept' opened opened' : String → Prop} {r : Request}

theorem mono (h : Settled d kept opened r) (hkept : ∀ q, kept q → kept' q)
    (hopened : ∀ q, opened q → kept' q ∨ opened' q) : Settled d kept' opened' r := by
  induction h with
  | kept h => exact .kept (hkept _ h)
  | opened h => exact (hopened _ h).elim .kept .opened
  | keptFragment h => exact .keptFragment (hkept _ h)
  | again h hbody hc _ ih => exact (hopened _ h).elim .keptFragment (.again · hbody hc ih)
  | schema _ ih => exact .schema ih

theorem schema_iff {s : Schema} {location : String} {name : Option String} {spine : Bool} :
    Settled d kept opened (.schema s location name spine) ↔
      ∀ r, Leads s name spine r → Settled d kept opened r := by
  refine ⟨fun h => ?_, .schema⟩
  cases h with
  | schema h => exact h

theorem relocate {s : Schema} {location location' : String} {name : Option String}
    {spine : Bool} (h : Settled d kept opened (.schema s location name spine)) :
    Settled d kept opened (.schema s location' name spine) := .schema (schema_iff.1 h)

/-- The place of a request does not matter. -/
theorem of_at {location : String} (h : Settled d kept opened (r.at location)) :
    Settled d kept opened r := by
  cases r with
  | reference p l link =>
    cases h with
    | kept h => exact .kept h
    | opened h => exact .opened h
  | fragment p l spine =>
    cases h with
    | keptFragment h => exact .keptFragment h
    | again h hbody hc hschema => exact .again h hbody hc hschema
  | schema s l name spine => exact h.relocate

/-- What a settled schema mentions is kept or open. -/
theorem mention {s : Schema} {location q : String} {name : Option String} {spine composed : Bool}
    (h : Settled d kept opened (.schema s location name spine))
    (hq : Mentions s name spine q composed) : kept q ∨ opened q := by
  obtain ⟨t, name', spine', r, hwithin, hlead, hnamed⟩ := hq
  induction hwithin generalizing location with
  | here =>
    have hr := schema_iff.1 h r hlead
    cases r with
    | reference p l link =>
      simp only [Request.named?, Option.some.injEq, Prod.mk.injEq] at hnamed
      rw [← hnamed.1]
      cases hr with
      | kept h => exact .inl h
      | opened h => exact .inr h
    | fragment p l spine'' =>
      simp only [Request.named?, Option.some.injEq, Prod.mk.injEq] at hnamed
      rw [← hnamed.1]
      cases hr with
      | keptFragment h => exact .inl h
      | again h => exact .inr h
    | schema u l name'' spine'' => simp [Request.named?] at hnamed
  | inside hin _ ih => exact ih (schema_iff.1 h _ hin) hlead

end Settled

/-- The bodies of kept components are settled. -/
def Session.Shut (d : Document) (s : Session) : Prop :=
  ∀ p c body location, s.Keeps p → d.addressed? p = some body → Pointer.Whole p c →
    Settled d s.Keeps (openIn s.stack) (.schema body location (some c) true)

namespace Session.Shut

variable {d : Document} {s t : Session}

theorem empty (h : s.cache = []) : s.Shut d := fun p _ _ _ hp => by
  simp [Session.Keeps, h] at hp

theorem alike (h : s.Shut d) (hst : s.Alike t) : t.Shut d := by
  unfold Session.Shut Session.Keeps at *
  rw [hst.cache, hst.stack]
  exact h

/-- What was settled stays so when a frame is opened. -/
theorem push (h : s.Shut d) (f : Frame) : Session.Shut d { s with stack := f :: s.stack } :=
  fun p c body location hp hbody hc => (h p c body location hp hbody hc).mono (fun _ hq => hq)
    fun _ ⟨g, hg, hq⟩ => .inr ⟨g, .tail _ hg, hq⟩

/-- When nothing is open, what a kept component refers to is kept as well. -/
theorem reaches {V : SchemaSet} (h : s.Shut d) (hV : Realm d V) (hstack : s.stack = [])
    {p q : String} (hp : s.Keeps p) (hentered : Entered d V p)
    (hpq : Relation.ReflTransGen d.Refers p q) : s.Keeps q := by
  induction hpq with
  | refl => exact hp
  | tail hway hstep ih =>
    obtain ⟨c, body, rfl, hbody, -⟩ := hentered.reaches hV hway
    have hwhole := Pointer.whole_component c
    rw [← Document.addressed?_whole hwhole] at hbody
    cases hstep with
    | mention hs hm =>
      rw [hbody, Option.some.injEq] at hs
      rw [Pointer.whole?_eq_some.2 hwhole, ← hs] at hm
      exact ((h _ c body "" ih hbody hwhole).mention hm).resolve_right
        (Claims.not_openIn_nil hstack _)
    | root htokens =>
      rw [Pointer.Whole] at hwhole
      rw [hwhole] at htokens
      simp at htokens

end Session.Shut

/-! ### What is kept stays so -/

/-- The nodes of whole components that are given are kept, and their pointers are not open. -/
def Session.Retains (s : Session) (given : Table String Node) : Prop :=
  ∀ p c n, Pointer.Whole p c → Table.get? given p = some n →
    Table.get? s.cache p = some n ∧ ¬ openIn s.stack p

/-- What is given is kept in later sessions. -/
theorem Session.Retains.later {s t : Session} {given : Table String Node} (h : s.Retains given)
    (hst : s.Later t) : t.Retains given := by
  refine fun p c n hp hn => (h p c n hp hn).elim fun hkept hno => ⟨?_, hst.stack ▸ hno⟩
  exact hst.whole p c n hp (fun hprogress => hno (Session.inProgress_iff.1 hprogress)) hkept

/-- **The nodes of whole components that are kept stay so.** -/
theorem Document.follow_retains (d : Document) (given : Table String Node) (depth : Nat)
    (r : Request) (s : Session) (h : s.Retains given) :
    Ends (d.follow depth r) s (fun _ t => t.Retains given) fun _ _ => True :=
  (d.follow_steady depth r s).mono (fun _ _ hst => h.later hst) fun _ _ _ => trivial

section Runs

variable {d : Document} {V : SchemaSet} {follow : Follow}

/-! ### Answered requests are settled -/

/-- Answered requests are settled, and the bodies of kept components stay so. -/
def Settles (d : Document) (V : SchemaSet) (follow : Follow) : Prop :=
  Meets follow (fun r s => r.In d V ∧ s.Shut d)
    (fun r s _ t => t.Shut d ∧ Settled d t.Keeps (openIn s.stack) r) fun _ _ _ _ => True

namespace Settles

theorem reference (h : Settles d V follow) (hsteady : Steady follow) {s : Session}
    {p location : String} {link : Bool} (hp : Entered d V p) (hs : s.Shut d) :
    Ends (Follow.reference follow d p location link) s
      (fun _ t => t.Shut d ∧ Settled d t.Keeps (openIn s.stack) (.reference p location link))
      fun _ _ => True := by
  refine hp.reference_ends (fun n hn => ⟨hs, .kept (Option.isSome_iff_exists.2 ⟨n, hn⟩)⟩)
    (fun hprogress _ t hst => ⟨hs.alike hst, .opened (Session.inProgress_iff.1 hprogress)⟩)
    fun _ _ body c hbody hc hV => ?_
  refine ((h (.schema body p (some c) true) _ ⟨hV, hs.push ⟨p, link, false⟩⟩).and
    (hsteady _ _)).mono (fun n t ⟨⟨ht, hsettled⟩, hlater⟩ => ?_) fun _ _ _ => trivial
  -- The pointer is closed and kept, so what was settled stays so.
  have hkeeps : ∀ q, t.Keeps q →
      Session.Keeps { t with stack := s.stack, cache := Table.insert t.cache p n } q :=
    fun q hq => Session.keeps_remember.2 (.inr hq)
  have hself : Session.Keeps { t with stack := s.stack, cache := Table.insert t.cache p n } p :=
    Session.keeps_remember.2 (.inl rfl)
  have hclose : ∀ q, openIn (⟨p, link, false⟩ :: s.stack) q →
      Session.Keeps { t with stack := s.stack, cache := Table.insert t.cache p n } q ∨
        openIn s.stack q := fun q hq =>
    (openIn_cons.1 hq).imp_left fun heq : q = p => heq ▸ hself
  refine ⟨fun q c' body' location' hq hbody' hc' => ?_, .kept hself⟩
  rcases Session.keeps_remember.1 hq with rfl | hq
  · rw [hbody, Option.some.injEq] at hbody'
    rw [← hc.unique hc', ← hbody']
    exact (hsettled.mono hkeeps hclose).relocate
  · have hstack : t.stack = ⟨p, link, false⟩ :: s.stack := hlater.stack
    exact (ht q c' body' location' hq hbody' hc').mono hkeeps (hstack ▸ hclose)

/-- One step settles requests. -/
theorem step (h : Settles d V follow) (hsteady : Steady follow) (hV : Realm d V) :
    Settles d V (Follow.step follow d) := by
  rintro r s ⟨hr, hs⟩
  cases r with
  | reference p location link => exact h.reference hsteady hr hs
  | fragment p location spine =>
    refine hr.1.fragment_ends (fun _ _ => trivial) (fun _ _ => trivial)
      (fun _ hprogress _ body c hbody hc hV => ?_) fun _ hno => ?_
    · rw [Session.inProgress_iff] at hprogress
      refine ((h (.schema body p (some c) true) _ ⟨hV, hs.push ⟨p, spine, true⟩⟩).and
        (hsteady _ _)).mono (fun n t ⟨⟨ht, hsettled⟩, hlater⟩ => ?_) fun _ _ _ => trivial
      -- The pointer is still open below.
      have hclose : ∀ q, openIn (⟨p, spine, true⟩ :: s.stack) q → t.Keeps q ∨ openIn s.stack q :=
        fun q hq => .inr ((openIn_cons.1 hq).elim (· ▸ hprogress) id)
      have hstack : t.stack = ⟨p, spine, true⟩ :: s.stack := hlater.stack
      exact ⟨fun q c' body' l hq hbody' hc' => (ht q c' body' l hq hbody' hc').mono
        (fun _ hq => hq) (hstack ▸ hclose),
        .again hprogress hbody hc (hsettled.mono (fun _ hq => hq) hclose)⟩
    · refine (h.reference hsteady hr.1 hs).mono (fun _ t ⟨ht, hsettled⟩ => ⟨ht, ?_⟩)
        fun _ _ _ => trivial
      cases hsettled with
      | kept hkept => exact .keptFragment hkept
      | opened hopened => exact absurd (Session.inProgress_iff.2 hopened) hno
  | schema schema location name spine =>
    have hbrings : Brings (fun u => u.Shut d ∧ u.stack = s.stack) (fun _ _ => True)
        (Follow.schema follow d schema location name spine) _ :=
      Follow.schema_brings (Q := fun r _ u => Settled d u.Keeps (openIn s.stack) r)
        (fun t u htu ht => ⟨ht.1.alike htu, htu.stack.trans ht.2⟩)
        (fun _ _ t u ht htu => ht.mono htu.kept fun _ hq => .inr hq)
        (fun _ _ _ _ _ _ _ _ _ => trivial)
        fun r hlead t ⟨ht, hstack⟩ =>
          ((h r t ⟨hV _ _ _ _ hr hlead, ht⟩).and (hsteady r t)).mono
            (fun _ u ⟨⟨hu, hsettled⟩, hlater⟩ =>
              ⟨⟨hu, hlater.stack.trans hstack⟩, hlater, hstack ▸ hsettled⟩) fun _ _ _ => trivial
    refine (hbrings s ⟨hs, rfl⟩).mono_ok
      fun _ t ⟨ht, _, hbuilt⟩ => ⟨ht.1, .schema fun r hlead => ?_⟩
    obtain ⟨l, _, hsettled⟩ := hbuilt.answered hlead
    exact hsettled.of_at

end Settles

/-- **Answered requests are settled.** -/
theorem Document.follow_settles (hV : Realm d V) (depth : Nat) : Settles d V (d.follow depth) :=
  Document.follow_meets (fun _ _ _ => trivial)
    (fun _ hsteady h => Settles.step h hsteady hV) depth

/-! ### Settled requests keep nothing new -/

section Confined

variable {kept opened : String → Prop}

/-- Sessions with fewer kept nodes.  What is open here besides what is open there is kept
there. -/
structure Confines (kept opened : String → Prop) (s : Session) : Prop where
  keeps : ∀ q, s.Keeps q → kept q
  below : ∀ q, opened q → openIn s.stack q
  covered : ∀ q, openIn s.stack q → kept q ∨ opened q

theorem Confines.alike {s t : Session} (h : Confines kept opened s) (hst : s.Alike t) :
    Confines kept opened t := by
  refine ⟨?_, hst.stack ▸ h.below, hst.stack ▸ h.covered⟩
  unfold Session.Keeps
  rw [hst.cache]
  exact h.keeps

theorem Confines.push {s : Session} (h : Confines kept opened s) {f : Frame}
    (hf : kept f.pointer ∨ opened f.pointer) :
    Confines kept opened { s with stack := f :: s.stack } where
  keeps := h.keeps
  below q hq := openIn_cons.2 (.inr (h.below q hq))
  covered q hq := (openIn_cons.1 hq).elim (fun heq => heq ▸ hf) (h.covered q)

/-- The bodies of what is kept are settled. -/
def ShutOff (d : Document) (kept opened : String → Prop) : Prop :=
  ∀ p c body location, kept p → d.addressed? p = some body → Pointer.Whole p c →
    Settled d kept opened (.schema body location (some c) true)

/-- The answers to settled requests keep nothing new. -/
def Confined (d : Document) (V : SchemaSet) (kept opened : String → Prop) (follow : Follow) :
    Prop :=
  Meets follow (fun r s => r.In d V ∧ Settled d kept opened r ∧ Confines kept opened s)
    (fun _ _ _ t => ∀ q, t.Keeps q → kept q) fun _ _ _ _ => True

namespace Confined

/-- The rule of plain references to kept pointers. -/
theorem reference (h : Confined d V kept opened follow) (hshut : ShutOff d kept opened)
    {s : Session} {p location : String} {link : Bool} (hp : Entered d V p)
    (hs : Confines kept opened s) (hkept : ¬ s.inProgress p → kept p) :
    Ends (Follow.reference follow d p location link) s (fun _ t => ∀ q, t.Keeps q → kept q)
      fun _ _ => True := by
  refine hp.reference_ends (fun _ _ => hs.keeps) (fun _ _ t hst => (hs.alike hst).keeps)
    fun _ hno body c hbody hc hV => ?_
  refine (h (.schema body p (some c) true) _
    ⟨hV, hshut p c body p (hkept hno) hbody hc, hs.push (.inl (hkept hno))⟩).mono
    (fun n t ht q hq => ?_) fun _ _ _ => trivial
  -- Either the pointer itself was kept just now, or its body kept it.
  rcases Session.keeps_remember.1 hq with rfl | hq
  · exact hkept hno
  · exact ht q hq

/-- One step keeps nothing new. -/
theorem step (h : Confined d V kept opened follow) (hsteady : Steady follow) (hV : Realm d V)
    (hshut : ShutOff d kept opened) : Confined d V kept opened (Follow.step follow d) := by
  rintro r s ⟨hr, hsettled, hs⟩
  cases r with
  | reference p location link =>
    refine h.reference hshut hr hs fun hno => ?_
    cases hsettled with
    | kept hkept => exact hkept
    | opened hopened => exact absurd (Session.inProgress_iff.2 (hs.below p hopened)) hno
  | fragment p location spine =>
    refine hr.1.fragment_ends (fun _ _ => trivial) (fun _ _ => trivial)
      (fun _ _ _ body c hbody hc hV => ?_) fun _ hno => h.reference hshut hr.1 hs fun _ => ?_
    · cases hsettled with
      | keptFragment hkept =>
        exact h (.schema body p (some c) true) _
          ⟨hV, hshut p c body p hkept hbody hc, hs.push (.inl hkept)⟩
      | again hopened hbody' hc' hschema =>
        -- The pointer addresses one component only, so the settled body is the expanded one.
        rw [hbody, Option.some.injEq] at hbody'
        rw [← hc.unique hc', ← hbody'] at hschema
        exact h (.schema body p (some c) true) _ ⟨hV, hschema.relocate, hs.push (.inr hopened)⟩
    · cases hsettled with
      | keptFragment hkept => exact hkept
      | again hopened => exact absurd (Session.inProgress_iff.2 (hs.below p hopened)) hno
  | schema schema location name spine =>
    have hbrings : Brings (fun u => Confines kept opened u ∧ u.stack = s.stack) (fun _ _ => True)
        (Follow.schema follow d schema location name spine) _ :=
      Follow.schema_brings (Q := fun _ _ _ => True)
        (fun t u htu ht => ⟨ht.1.alike htu, htu.stack.trans ht.2⟩)
        (fun _ _ _ _ _ _ => trivial) (fun _ _ _ _ _ _ _ _ _ => trivial)
        fun r hlead t ⟨ht, hstack⟩ =>
          ((h r t ⟨hV _ _ _ _ hr hlead, Settled.schema_iff.1 hsettled r hlead, ht⟩).and
            (hsteady r t)).mono
            (fun _ u ⟨hu, hlater⟩ => ⟨⟨⟨hu, hlater.stack ▸ ht.below, hlater.stack ▸ ht.covered⟩,
              hlater.stack.trans hstack⟩, hlater, trivial⟩) fun _ _ _ => trivial
    exact (hbrings s ⟨hs, rfl⟩).mono_ok fun _ t ⟨ht, _⟩ => ht.1.keeps

end Confined

/-- **The answer to a settled request keeps nothing new.** -/
theorem Document.follow_confined (hV : Realm d V) (hshut : ShutOff d kept opened) (depth : Nat) :
    Confined d V kept opened (d.follow depth) :=
  Document.follow_meets (fun _ _ _ => trivial)
    (fun _ hsteady h => Confined.step h hsteady hV hshut) depth

end Confined

end Runs

end ApiBinding
