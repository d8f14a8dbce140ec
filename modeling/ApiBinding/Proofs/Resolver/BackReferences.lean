import ApiBinding.Proofs.Resolver.Components
import ApiBinding.Proofs.Resolver.Moments

/-!
# Back references

A plain reference to a component that is open is answered by a back reference.  The node of the
component does not exist at that time, so the back reference is made from the unresolved schema.
The node is kept later, in the same run or in another one.

At no moment of a run is a component kept while it is open: it is kept when its pointer is
closed, and a kept pointer is not opened again.  So every plain reference to an open component
is answered by a new back reference.

## Main definitions

* `Document.RefersBack` — the answers to plain references to an open component.
* `Document.Finishes` — the nodes that are kept for a component.

## Main results

* `Accounts.Sound.ready`, `Claims.Sound.ready` — sound accounts and claims hold at every moment of
  a run.
* `Document.Moment.not_kept` — no component is kept while it is open, at every moment of a run.
* `Document.RefersBack.eq` — **what is said by a back reference**.
* `Claims.Sound.finishes`, `Claims.Sound.answers` — sound claims hold of the nodes that are kept
  for components, and of those that answer queries for them.
-/

namespace ApiBinding

/-! ### Claims at the moments of a run -/

theorem Document.Used.stack {d : Document} {s : Session} (h : d.Used s) : s.stack = [] := by
  induction h with
  | start => rfl
  | run query _ hn ih => exact ((query.ends d _).of_ok hn).trans ih
  | noted _ _ ih => exact ih

namespace Accounts.Sound

variable {d : Document} {A : Accounts} {r q : Request} {s t : Session} {depth : Nat} {query : Query}

/-- A step that starts with what is known when a request is made makes requests only with that. -/
theorem makes (hA : A.Sound d) (h : Makes d (d.follow depth) r s q t) (hs : A.Ready d r s) :
    A.Ready d q t := by
  -- No step ends with a fault of a path, so a request can be interrupted with one.
  refine h.carries (e := .rejected (.malformedPath "" .noLeadingSlash)) (d.follow_steady depth)
    (fun r s hs => (hA.runs excuses_noPathFault (fun _ _ => nofun) depth r s hs).mono
      (fun _ _ hn => hn) fun _ _ he => he _ _) fun answer hsteady hanswer => ?_
  have hexcuses :
      Excuses fun e => e = .rejected (.malformedPath "" .noLeadingSlash) → A.Ready d q t :=
    fun _ hcause heq => absurd (Interruption.rejected.inj heq) (hcause _ _)
  exact (Hold.step hanswer hexcuses hA hsteady r s hs).mono_ok fun _ _ _ => trivial

theorem moment (hA : A.Sound d) (h : d.Moment depth r s q t) (hs : A.Ready d r s) :
    A.Ready d q t := by
  induction h with
  | start => exact hs
  | inside hmakes _ ih => exact ih (hA.makes hmakes hs)

variable (hA : A.Sound d) (hbase : ∀ q, ¬ A.base q)
include hA hbase

/-- The accounts are true of the components that are kept in the sessions that runs lead to. -/
theorem kept (h : d.Used s) : A.Kept s := by
  induction h with
  | start => exact fun _ _ _ _ h => by simp at h
  | @run s t n query hs hn ih =>
    rw [Query.work_eq] at hn
    have hempty := Claims.not_openIn_nil hs.stack
    exact ((hA.run _ query.request s ⟨ih, fun q hq => absurd hq (hbase q),
      fun q hq => absurd hq (hempty q)⟩).of_ok hn).1
  | noted _ _ ih => exact ih.alike ⟨rfl, rfl⟩

/-- **Sound accounts are true at every moment of a run** of the components that are kept. -/
theorem ready (hs : d.Used s)
    (h : d.Moment (Document.stepBound (query.size d)) query.request s q t) : A.Ready d q t :=
  hA.moment h ⟨hA.kept hbase hs, fun q hq => absurd hq (hbase q),
    fun q hq => absurd hq (Claims.not_openIn_nil hs.stack q)⟩

end Accounts.Sound

namespace Claims.Sound

variable {d : Document} {K : Claims} {q : Request} {s t : Session} {query : Query}
  (hK : K.Sound d) (hbase : ∀ q, ¬ K.base q)
include hK hbase

/-- The claims hold of the components that are kept in the sessions that runs lead to. -/
theorem kept (h : d.Used s) : K.Kept s := accounts_kept.1 (hK.accounts.kept hbase h)

/-- **Sound claims hold at every moment of a run** of the components that are kept. -/
theorem ready (hs : d.Used s)
    (h : d.Moment (Document.stepBound (query.size d)) query.request s q t) : K.Ready d q t :=
  accounts_ready.1 (hK.accounts.ready hbase hs h)

end Claims.Sound

/-- Nothing is claimed. -/
def Claims.nothing : Claims where
  component _ _ := True
  schema _ _ _ _ _ := True

theorem Claims.nothing_sound (d : Document) : Claims.nothing.Sound d :=
  ⟨fun _ _ _ _ _ _ _ _ _ => trivial, fun _ _ _ _ _ _ _ _ => trivial⟩

/-- **No component is kept while it is open**, at every moment of a run. -/
theorem Document.Moment.not_kept {d : Document} {query : Query} {q : Request} {s t : Session}
    (h : d.Moment (stepBound (query.size d)) query.request s q t) (hs : d.Used s) {p c : String}
    (hp : Pointer.Whole p c) (hopen : openIn t.stack p) : Table.get? t.cache p = none := by
  have hready := (Claims.nothing_sound d).ready (fun _ => id) hs h
  by_contra hsome
  obtain ⟨n, hn⟩ := Option.ne_none_iff_exists'.1 hsome
  exact (hready.kept p c n hp hn).2 hopen

/-! ### Nodes that stand for components -/

namespace Document

variable {d : Document} {c : String} {n m : Node}

/-- The node is kept for the component, in a session that runs lead to. -/
def Finishes (d : Document) (c : String) (n : Node) : Prop :=
  ∃ s p, d.Used s ∧ Pointer.Whole p c ∧ Table.get? s.cache p = some n

/-- The node is the answer to a plain reference to the component, at a moment of a run at which
the component is open. -/
inductive RefersBack (d : Document) (c : String) (m : Node) : Prop where
  | intro {query : Query} {s u v : Session} {p location : String} {link : Bool} {depth : Nat}
      (hs : d.Used s)
      (hmoment : d.Moment (stepBound (query.size d)) query.request s (.reference p location link) u)
      (hp : Pointer.Whole p c) (hopen : openIn u.stack p)
      (hm : d.follow depth (.reference p location link) u = .ok m v) : RefersBack d c m

/-- **What is said by a back reference**: the name of the component, and whether the unresolved
schema of the component admits `null`. -/
theorem RefersBack.eq (h : d.RefersBack c m) {body : Schema} (hbody : d.schema? c = some body) :
    ∃ serial, m = ⟨serial, .backRef c, body.isNullable, none, none, none⟩ := by
  obtain @⟨query, s, u, v, p, location, link, depth, hs, hmoment, hp, hopen, hm⟩ := h
  have hnone := hmoment.not_kept hs hp hopen
  cases depth with
  | zero =>
    have hexhausted : d.follow 0 (.reference p location link) u = .error .exhausted u := rfl
    rw [hexhausted] at hm
    simp at hm
  | succ depth =>
    -- The pointer is open and not kept, so the answer is a back reference or a fault.
    have hends : Ends (Follow.reference (d.follow depth) d p location link) u
        (fun m _ => ∃ serial, m = ⟨serial, .backRef c, body.isNullable, none, none, none⟩)
        fun _ _ => True := by
      refine Follow.reference_ends (fun _ _ => trivial) (fun n hn => by simp [hnone] at hn)
        (fun target ht _ _ => ?_) (fun _ _ _ _ => trivial)
        fun _ _ _ hprogress => absurd (Session.inProgress_iff.2 hopen) hprogress
      obtain ⟨rfl, -, hschema⟩ := Document.target_whole ht hp
      rw [hbody, Option.some.injEq] at hschema
      exact ⟨u.issued, by rw [hschema]⟩
    exact hends.of_ok hm

end Document

/-- **Sound claims hold of the nodes that are kept for components.** -/
theorem Claims.Sound.finishes {d : Document} {K : Claims} (hK : K.Sound d)
    (hbase : ∀ q, ¬ K.base q) {c : String} {n : Node} (h : d.Finishes c n) : K.component c n := by
  obtain ⟨s, p, hs, hp, hn⟩ := h
  exact (hK.kept hbase hs p c n hp hn).1

/-- **Sound claims hold of the nodes of components**, in every session that runs lead to. -/
theorem Claims.Sound.answers {d : Document} {K : Claims} (hK : K.Sound d)
    (hbase : ∀ q, ¬ K.base q) {c : String} {n : Node} (h : d.Answers (.component c) n) :
    K.component c n := by
  obtain ⟨s, t, hs, hn⟩ := h
  exact ((hK.resolveComponent hbase c (hK.kept hbase hs) hs.stack).of_ok hn).2

end ApiBinding
