import ApiBinding.Proofs.Document.Addresses
import ApiBinding.Resolver

/-!
# How a resolution ends

A computation that may be interrupted ends either with a result or with an
interruption, and leaves a state in both cases.  `Ends` states what holds then.
Its rules follow the way in which computations are put together, so a statement
about a step is taken apart along the text of the step.

Sessions are compared in two ways.  Two sessions are `Alike` if they have the same
kept nodes and the same open pointers: making a node and reporting a finding lead to
a session that is alike.  A session comes `Later` than another one if its open
pointers are the same, nothing that was kept is lost, and the kept nodes of whole
components that are not open are the same.

## Main definitions

* `Ends` — what holds when a computation ends.
* `Session.Alike`, `Session.Later` — how sessions are compared.

## Main results

* `ends_bind`, `Resolution.ends_within` — the rules for computations that follow each
  other, and for work inside a frame.
-/

namespace ApiBinding

/-! ### Ends -/

section Ends

variable {ε σ α β : Type}

/-- When the work ends from `s`, its result meets `ok`, or else its interruption meets
`err`. -/
def Ends (work : EStateM ε σ α) (s : σ) (ok : α → σ → Prop) (err : ε → σ → Prop) : Prop :=
  match work s with
  | .ok a t => ok a t
  | .error e t => err e t

variable {work : EStateM ε σ α} {s : σ} {ok ok' : α → σ → Prop} {err err' : ε → σ → Prop}

theorem Ends.mono (h : Ends work s ok err) (hok : ∀ a t, ok a t → ok' a t)
    (herr : ∀ e t, err e t → err' e t) : Ends work s ok' err' := by
  unfold Ends at *
  split
  · rename_i a t hw
    rw [hw] at h
    exact hok a t h
  · rename_i e t hw
    rw [hw] at h
    exact herr e t h

theorem Ends.mono_ok (h : Ends work s ok err) (hok : ∀ a t, ok a t → ok' a t) :
    Ends work s ok' err :=
  h.mono hok fun _ _ he => he

/-- Two facts about the end of one computation. -/
theorem Ends.and (h : Ends work s ok err) (h' : Ends work s ok' err') :
    Ends work s (fun a t => ok a t ∧ ok' a t) (fun e t => err e t ∧ err' e t) := by
  unfold Ends at *
  split <;> simp_all

theorem Ends.of_ok (h : Ends work s ok err) {a : α} {t : σ} (hw : work s = .ok a t) :
    ok a t := by
  unfold Ends at h
  rw [hw] at h
  exact h

theorem Ends.of_error (h : Ends work s ok err) {e : ε} {t : σ} (hw : work s = .error e t) :
    err e t := by
  unfold Ends at h
  rw [hw] at h
  exact h

/-- Work about whose end nothing is asked. -/
theorem ends_trivial (hok : ∀ a t, ok a t) (herr : ∀ e t, err e t) : Ends work s ok err := by
  unfold Ends
  split
  · exact hok _ _
  · exact herr _ _

/-- What is known of the end besides: it is the end of this work. -/
theorem Ends.run (h : Ends work s ok err) :
    Ends work s (fun a t => work s = .ok a t ∧ ok a t) fun e t =>
      work s = .error e t ∧ err e t := by
  unfold Ends at *
  split
  · rename_i a t hw
    rw [hw] at h
    exact ⟨hw, h⟩
  · rename_i e t hw
    rw [hw] at h
    exact ⟨hw, h⟩

/-- Whether the work ends with a result of a kind. -/
def yields (work : EStateM ε σ α) (s : σ) (kind : α → Bool) : Bool :=
  match work s with
  | .ok a _ => kind a
  | .error _ _ => false

theorem exists_of_yields {kind : α → Bool} (h : yields work s kind = true) :
    ∃ a t, work s = .ok a t ∧ kind a = true := by
  unfold yields at h
  split at h
  · rename_i a t hw
    exact ⟨a, t, hw, h⟩
  · simp at h

@[simp] theorem ends_pure {a : α} : Ends (pure a) s ok err ↔ ok a s := Iff.rfl

@[simp] theorem ends_throw {e : ε} : Ends (throw e : EStateM ε σ α) s ok err ↔ err e s :=
  Iff.rfl

@[simp] theorem ends_get {ok : σ → σ → Prop} :
    Ends (get : EStateM ε σ σ) s ok err ↔ ok s s := Iff.rfl

@[simp] theorem ends_bind {f : α → EStateM ε σ β} {ok : β → σ → Prop} :
    Ends (work >>= f) s ok err ↔ Ends work s (fun a t => Ends (f a) t ok err) err := by
  simp only [Ends, bind, EStateM.bind]
  cases work s <;> rfl

/-! ### Runs -/

theorem bind_of_ok {f : α → EStateM ε σ β} {a : α} {t : σ} (h : work s = .ok a t) :
    (work >>= f) s = f a t := by
  simp only [bind, EStateM.bind, h]

theorem bind_of_error {f : α → EStateM ε σ β} {e : ε} {t : σ} (h : work s = .error e t) :
    (work >>= f) s = .error e t := by
  simp only [bind, EStateM.bind, h]

theorem bind_congr_run {work' : EStateM ε σ α} {f : α → EStateM ε σ β} (h : work s = work' s) :
    (work >>= f) s = (work' >>= f) s := by
  cases hrun : work' s with
  | ok a t => rw [bind_of_ok hrun, bind_of_ok (h.trans hrun)]
  | error e t => rw [bind_of_error hrun, bind_of_error (h.trans hrun)]

theorem ends_of_error {e : ε} {t : σ} (h : work s = .error e t) :
    Ends work s ok err ↔ err e t := by
  unfold Ends
  rw [h]

theorem ends_bind_of_ok {f : α → EStateM ε σ β} {a : α} {t : σ} {ok : β → σ → Prop}
    (h : work s = .ok a t) : Ends (work >>= f) s ok err ↔ Ends (f a) t ok err := by
  unfold Ends
  rw [bind_of_ok h]

/-- Work that succeeds goes through what it starts with. -/
theorem exists_of_bind {f : α → EStateM ε σ β} {b : β} {u : σ} (h : (work >>= f) s = .ok b u) :
    ∃ a t, work s = .ok a t ∧ f a t = .ok b u := by
  simp only [bind, EStateM.bind] at h
  split at h
  · exact ⟨_, _, ‹_›, h⟩
  · simp at h

end Ends

/-! ### Sessions -/

namespace Session

/-- Same kept nodes, same open pointers. -/
structure Alike (s t : Session) : Prop where
  cache : t.cache = s.cache
  stack : t.stack = s.stack

/-- Same open pointers, nothing that was kept is lost, and the nodes of whole components that are
not open stay the same. -/
structure Later (s t : Session) : Prop where
  stack : t.stack = s.stack
  kept : ∀ p, (Table.get? s.cache p).isSome → (Table.get? t.cache p).isSome
  whole : ∀ p c n, Pointer.Whole p c → ¬ s.inProgress p → Table.get? s.cache p = some n →
    Table.get? t.cache p = some n

theorem Later.refl (s : Session) : s.Later s := ⟨rfl, fun _ h => h, fun _ _ _ _ _ h => h⟩

theorem inProgress_congr {s t : Session} (h : t.stack = s.stack) (p : String) :
    t.inProgress p = s.inProgress p := by
  rw [inProgress, inProgress, h]

theorem Later.trans {s t u : Session} (h : s.Later t) (h' : t.Later u) : s.Later u :=
  ⟨h'.stack.trans h.stack, fun p hp => h'.kept p (h.kept p hp), fun p c n hp hno hn =>
    h'.whole p c n hp (by rwa [inProgress_congr h.stack]) (h.whole p c n hp hno hn)⟩

theorem Alike.refl (s : Session) : s.Alike s := ⟨rfl, rfl⟩

theorem Alike.later {s t : Session} (h : s.Alike t) : s.Later t :=
  ⟨h.stack, fun p hp => by rwa [h.cache], fun p c n _ _ hn => by rwa [h.cache]⟩

/-- What happens inside a frame comes later than what was before, if the frame is not for a kept
component that is not open. -/
theorem Later.pop {s t u : Session} {f : Frame} (h : s.Later t)
    (h' : Later { t with stack := f :: t.stack } u)
    (hf : ∀ c, Pointer.Whole f.pointer c → ¬ s.inProgress f.pointer →
      Table.get? s.cache f.pointer = none) : s.Later { u with stack := t.stack } := by
  refine ⟨h.stack, fun p hp => h'.kept p (h.kept p hp), fun p c n hp hno hn =>
    h'.whole p c n hp ?_ (h.whole p c n hp hno hn)⟩
  have hne : f.pointer ≠ p := by
    rintro rfl
    simp [hf c hp hno] at hn
  rw [← inProgress_congr h.stack] at hno
  simpa [inProgress, hne] using hno

/-- Keeping a node loses none, and it changes none if the pointer was not kept before. -/
theorem Later.remember {s t : Session} {p : String} (h : s.Later t)
    (hnone : Table.get? s.cache p = none) (n : Node) :
    s.Later { t with cache := Table.insert t.cache p n } := by
  refine ⟨h.stack, fun q hq => ?_, fun q c m hq hno hm => ?_⟩
  · rw [Table.get?_insert]
    split
    · rfl
    · exact h.kept q hq
  · rw [Table.get?_insert, if_neg ?_]
    · exact h.whole q c m hq hno hm
    · rintro rfl
      simp [hnone] at hm

end Session

/-! ### Parts of a resolution -/

namespace Resolution

variable {α β : Type} {s : Session} {err : Interruption → Session → Prop}

@[simp] theorem ends_reject {cause : CompileError} {ok : α → Session → Prop} :
    Ends (reject cause : Resolution α) s ok err ↔ err (.rejected cause) s := Iff.rfl

theorem ends_ofExcept {value : Except CompileError α} {ok : α → Session → Prop} :
    Ends (ofExcept value) s ok err ↔
      (∀ a, value = .ok a → ok a s) ∧ ∀ cause, value = .error cause → err (.rejected cause) s := by
  cases value <;> simp [ofExcept]

@[simp] theorem ends_report {findings : List Diagnostic} {ok : Unit → Session → Prop} :
    Ends (report findings) s ok err ↔
      ok () { s with diagnostics := s.diagnostics ++ findings } := Iff.rfl

@[simp] theorem ends_remember {pointer : String} {node : Node} {ok : Unit → Session → Prop} :
    Ends (remember pointer node) s ok err ↔
      ok () { s with cache := Table.insert s.cache pointer node } := Iff.rfl

@[simp] theorem ends_issue {body : Body} {name description : Option String}
    {default : Option Json} {ok : Node → Session → Prop} :
    Ends (issue body name description default) s ok err ↔
      ok ⟨s.issued, body.shape, body.nullable, name, description, default⟩
        { s with issued := s.issued + 1 } := Iff.rfl

@[simp] theorem ends_within {frame : Frame} {work : Resolution α} {ok : α → Session → Prop} :
    Ends (within frame work) s ok err ↔
      Ends work { s with stack := frame :: s.stack }
        (fun a t => ok a { t with stack := s.stack })
        (fun e t => err e { t with stack := s.stack }) := by
  simp only [Ends, within]
  cases work { s with stack := frame :: s.stack } <;> rfl

/-- Making a node leads to a session that is alike. -/
theorem issue_alike {s : Session} : s.Alike { s with issued := s.issued + 1 } := ⟨rfl, rfl⟩

/-- Reporting findings leads to a session that is alike. -/
theorem report_alike {s : Session} {findings : List Diagnostic} :
    s.Alike { s with diagnostics := s.diagnostics ++ findings } := ⟨rfl, rfl⟩

end Resolution

end ApiBinding
