import ApiBinding.Proofs.Resolver.Moments

/-!
# How a step makes its requests

A step makes its requests one after the other.  Between two of them it looks at the session, makes
nodes, reports findings and keeps nodes; it may open a frame around a part of its work.  An inquiry
is work of this kind, and every step is one.

An inquiry either comes to a request, and then whatever interrupts the request ends the inquiry, or
it does not depend on the answer at all.  So an inquiry is as good as the list of the requests that
it comes to: what they leave in the session is what it leaves, but for the nodes that it keeps
itself, and after one of them has been answered it goes on from there.

## Main definitions

* `Inquiry` — work that makes requests, and keeps nodes of its own only for some pointers.
* `ComesTo` — an inquiry makes a request in a session.
* `Bracketed` — what is said of sessions when frames may be opened and closed.
* `Request.Seeks` — a request is for the node of a pointer.

## Main results

* `Follow.step_inquiry` — **every step is an inquiry**, which keeps a node only for the pointer that
  its request seeks.
* `Inquiry.comesTo_or` — an inquiry comes to a request, or it does not depend on its answer.
* `Inquiry.ends` — how an inquiry ends, from how the requests end that it comes to.
* `Inquiry.congr` — answers that agree on what an inquiry comes to end it in the same way.
* `Inquiry.resumes` — **how an inquiry ends, from how one of its requests ends.**
* `Inquiry.comesTo_inv` — what holds in the sessions in which requests are made.
-/

namespace ApiBinding

open Resolution

variable {α β : Type}

/-! ### Inquiries -/

/-- Work that makes requests, and keeps nodes of its own only for some pointers. -/
inductive Inquiry (kept : String → Prop) : {α : Type} → (Follow → Resolution α) → Prop where
  /-- Work that makes no requests and keeps no nodes. -/
  | quiet {α : Type} {work : Resolution α}
      (h : ∀ s, Ends work s (fun _ t => s.Alike t) fun _ t => s.Alike t) :
      Inquiry kept fun _ => work
  | remember {p : String} {n : Node} (h : kept p) : Inquiry kept fun _ => remember p n
  | ask (r : Request) : Inquiry kept fun follow => follow r
  | bind {α β : Type} {x : Follow → Resolution α} {f : α → Follow → Resolution β}
      (hx : Inquiry kept x) (hf : ∀ a, Inquiry kept (f a)) :
      Inquiry kept fun follow => x follow >>= fun a => f a follow
  | within {α : Type} {x : Follow → Resolution α} (frame : Frame) (hx : Inquiry kept x) :
      Inquiry kept fun follow => within frame (x follow)

namespace Inquiry

variable {kept : String → Prop}

theorem pure (a : α) : Inquiry kept fun _ => (Pure.pure a : Resolution α) :=
  .quiet fun s => Session.Alike.refl s

theorem get : Inquiry kept fun _ => (MonadState.get : Resolution Session) :=
  .quiet fun s => Session.Alike.refl s

theorem reject (cause : CompileError) :
    Inquiry kept fun _ => (Resolution.reject cause : Resolution α) :=
  .quiet fun s => Session.Alike.refl s

theorem ofExcept (value : Except CompileError α) :
    Inquiry kept fun _ => Resolution.ofExcept value := by
  cases value with
  | ok a => exact pure a
  | error cause => exact reject cause

theorem report (findings : List Diagnostic) : Inquiry kept fun _ => Resolution.report findings :=
  .quiet fun _ => report_alike

theorem issue (body : Body) (name description : Option String) (default : Option Json) :
    Inquiry kept fun _ => Resolution.issue body name description default :=
  .quiet fun _ => issue_alike

theorem issuePlain (shape : Shape Node) : Inquiry kept fun _ => Resolution.issuePlain shape :=
  issue _ _ _ _

theorem annotate (body : Body) (schema : Schema) (name : Option String) :
    Inquiry kept fun _ => Resolution.annotate body schema name :=
  issue _ _ _ _

theorem map {x : Follow → Resolution α} (hx : Inquiry kept x) (f : α → β) :
    Inquiry kept fun follow => x follow >>= fun a => Pure.pure (f a) :=
  .bind hx fun a => pure (f a)

theorem each {work : α → Follow → Resolution β} (h : ∀ a, Inquiry kept (work a)) :
    ∀ xs : List α, Inquiry kept fun follow => Resolution.each (fun a => work a follow) xs
  | [] => pure []
  | a :: rest => .bind (h a) fun _ => .map (each h rest) _

theorem eachFrom {work : Nat → α → Follow → Resolution β} (h : ∀ i a, Inquiry kept (work i a)) :
    ∀ (index : Nat) (xs : List α),
      Inquiry kept fun follow => Resolution.eachFrom (fun i a => work i a follow) index xs
  | _, [] => pure []
  | index, a :: rest => .bind (h index a) fun _ => .map (eachFrom h (index + 1) rest) _

end Inquiry

/-! ### Steps are inquiries -/

/-- The request is for the node of the pointer. -/
def Request.Seeks : Request → String → Prop
  | .reference pointer _ _, p => p = pointer
  | .fragment pointer _ _, p => p = pointer
  | .schema .., _ => False

namespace Follow

variable {kept : String → Prop} {d : Document}

theorem additionalNode_inquiry (schema : Schema) (location : String) :
    Inquiry kept fun follow => additionalNode follow schema location := by
  unfold additionalNode
  cases schema.additional with
  | none => exact .pure none
  | some additional =>
    cases additional with
    | schema inner => exact .map (.ask _) _
    | permitted value =>
      cases value with
      | false => exact .pure none
      | true => exact .map (.issuePlain .any) _

theorem object_inquiry (schema : Schema) (location : String) :
    Inquiry kept fun follow => object follow schema location := by
  have hproperty : ∀ p, Inquiry kept fun follow => propertyNode follow location p :=
    fun p => .map (.ask _) _
  exact .bind (.each hproperty schema.properties) fun _ =>
    .map (additionalNode_inquiry schema location) _

theorem array_inquiry (schema : Schema) (location : String) :
    Inquiry kept fun follow => array follow schema location := by
  unfold array
  cases schema.items with
  | some items => exact .map (.ask _) _
  | none => exact .map (.issuePlain .any) _

theorem typed_inquiry (typeName : String) (schema : Schema) (location : String) :
    Inquiry kept fun follow => typed follow typeName schema location := by
  unfold typed
  split
  · exact .pure _
  · exact .pure _
  · exact .pure _
  · exact .pure _
  · exact object_inquiry schema location
  · exact array_inquiry schema location
  · exact .pure _

theorem untyped_inquiry (schema : Schema) (location : String) :
    Inquiry kept fun follow => untyped follow schema location := by
  unfold untyped
  split
  · exact .pure _
  · split
    · exact object_inquiry schema location
    · split
      · exact array_inquiry schema location
      · exact .pure _

theorem plainShape_inquiry (schema : Schema) (location : String) :
    Inquiry kept fun follow => plainShape follow schema location := by
  unfold plainShape
  split
  · exact untyped_inquiry schema location
  · exact typed_inquiry _ schema location
  · have hvariant : ∀ name, Inquiry kept fun follow =>
        typed follow name schema location >>= fun shape => issuePlain shape :=
      fun name => .bind (typed_inquiry name schema location) fun shape => .issuePlain shape
    exact .map (.each hvariant _) _

theorem referring_inquiry (target : Node) (schema : Schema) (name : Option String) :
    Inquiry kept fun _ => referring target schema name := by
  unfold referring
  split
  · exact .pure target
  · exact .annotate _ schema name

theorem union_inquiry (schema : Schema) (keyword : UnionKeyword) (members : List Schema)
    (location : String) (name : Option String) :
    Inquiry kept fun follow => union follow d schema keyword members location name := by
  have hvariant : ∀ i m, Inquiry kept fun follow => variant follow d schema keyword location i m :=
    fun i m => .map (.ask _) _
  refine .bind (.eachFrom hvariant 0 members) fun variants => ?_
  refine .bind (.ofExcept _) fun bodyAndFindings => ?_
  exact .bind (.report _) fun _ => .annotate _ schema name

theorem fragments_inquiry (fragments : List Schema) (location : String) (spine : Bool) :
    Inquiry kept fun follow => eachFrom (fragmentNode follow location spine) 0 fragments := by
  refine .eachFrom (fun i f => ?_) 0 fragments
  unfold fragmentNode
  cases f.reference with
  | some p => exact .ask _
  | none => exact .ask _

theorem ownFragment_inquiry (schema : Schema) (location : String) :
    Inquiry kept fun follow => ownFragment follow schema location := by
  unfold ownFragment
  split
  · exact .pure []
  · exact .bind (object_inquiry schema location) fun own => .map (.issuePlain own) _

theorem flatten_inquiry (schema : Schema) (location : String) (name : Option String)
    (spine : Bool) : Inquiry kept fun follow => flatten follow schema location name spine := by
  refine .bind (fragments_inquiry schema.allOf location spine) fun fragments => ?_
  refine .bind (ownFragment_inquiry schema location) fun own => ?_
  exact .bind (.report _) fun _ => .annotate _ schema name

theorem schema_inquiry (s : Schema) (location : String) (name : Option String) (spine : Bool) :
    Inquiry kept fun follow => schema follow d s location name spine := by
  simp only [schema_eq]
  cases s.form name spine with
  | reference p => exact .bind (.ask _) fun target => referring_inquiry target s name
  | wrapper p => exact .bind (.ask _) fun target => referring_inquiry target s none
  | composition => exact flatten_inquiry s location name spine
  | union keyword members => exact union_inquiry s keyword members location name
  | literals values => exact .annotate _ s name
  | plain => exact .bind (plainShape_inquiry s location) fun shape => .annotate _ s name

theorem expand_inquiry (pointer : String) (target : Target) (link fresh : Bool) :
    Inquiry kept fun follow => expand follow pointer target link fresh :=
  .within _ (.ask _)

theorem partOf_inquiry (target : Target) (location : String) :
    Inquiry kept fun follow => partOf follow target location := by
  unfold partOf
  split
  · exact .pure none
  · refine .bind .get fun s => ?_
    split
    · exact .pure none
    · exact .map (.ask _) _

/-- The node of a pointer that is entered, before it is kept. -/
def entered (follow : Follow) (pointer location : String) (target : Target) (link : Bool) :
    Resolution Node := do
  let found ← partOf follow target location
  foundOr (expand follow pointer target link false) found

theorem enter_eq_entered (follow : Follow) (pointer location : String) (target : Target)
    (link : Bool) : enter follow pointer location target link = (do
      let node ← entered follow pointer location target link
      remember pointer node
      return node) := by
  rw [enter_eq, entered, bind_assoc]

/-- Nothing is kept before the node is there. -/
theorem entered_inquiry (pointer location : String) (target : Target) (link : Bool) :
    Inquiry kept fun follow => entered follow pointer location target link := by
  refine .bind (partOf_inquiry target location) fun found => ?_
  cases found with
  | some n => exact .pure n
  | none => exact expand_inquiry pointer target link false

/-- Entering a pointer keeps the node of this pointer, and no other. -/
theorem enter_inquiry {pointer : String} (h : kept pointer) (location : String) (target : Target)
    (link : Bool) : Inquiry kept fun follow => enter follow pointer location target link := by
  simp only [enter_eq_entered]
  exact .bind (entered_inquiry pointer location target link) fun n =>
    .bind (.remember h) fun _ => .pure n

theorem reference_inquiry {pointer : String} (h : kept pointer) (location : String) (link : Bool) :
    Inquiry kept fun follow => reference follow d pointer location link := by
  refine .bind (.ofExcept _) fun target => .bind .get fun s => ?_
  cases Table.get? s.cache pointer with
  | some n => exact .pure n
  | none =>
    dsimp only
    split
    · split
      · exact .issue _ _ _ _
      · exact .reject _
    · exact enter_inquiry h location target link

theorem fragment_inquiry {pointer : String} (h : kept pointer) (location : String) (spine : Bool) :
    Inquiry kept fun follow => fragment follow d pointer location spine := by
  refine .bind (.ofExcept _) fun target => .bind .get fun s => ?_
  split
  · exact .reject _
  · split
    · split
      · exact .reject _
      · exact expand_inquiry pointer target spine true
    · exact reference_inquiry h location spine

/-- **Every step is an inquiry**, which keeps a node only for the pointer that its request
seeks. -/
theorem step_inquiry (d : Document) (r : Request) :
    Inquiry r.Seeks fun follow => step follow d r := by
  cases r with
  | reference pointer location link =>
    have hself : (Request.reference pointer location link).Seeks pointer := rfl
    exact reference_inquiry hself location link
  | fragment pointer location spine =>
    have hself : (Request.fragment pointer location spine).Seeks pointer := rfl
    exact fragment_inquiry hself location spine
  | schema s location name spine => exact schema_inquiry s location name spine

end Follow

/-! ### The requests that an inquiry comes to -/

/-- The work makes a request in a session: whatever interrupts the request there ends the work, if
all others are answered as before. -/
def ComesTo (x : Follow → Resolution α) (follow : Follow) (s : Session) (q : Request)
    (t : Session) : Prop :=
  ∀ (answer : Follow) (e : Interruption), answer q t = .error e t →
    (∀ q' t', ¬ (q' = q ∧ t' = t) → answer q' t' = follow q' t') → ∃ u, x answer s = .error e u

theorem Makes.comesTo {d : Document} {follow : Follow} {r q : Request} {s t : Session}
    (h : Makes d follow r s q t) : ComesTo (fun answer => Follow.step answer d r) follow s q t := h

section Coming

variable {kept : String → Prop} {x : Follow → Resolution α} {f : α → Follow → Resolution β}
  {follow : Follow} {q : Request} {s t : Session}

/-- There is always another interruption. -/
theorem Interruption.exists_ne (e : Interruption) : ∃ e' : Interruption, e' ≠ e := by
  cases e with
  | rejected cause => exact ⟨.exhausted, nofun⟩
  | exhausted => exact ⟨.rejected (.unrepresentableCycle ""), nofun⟩

namespace ComesTo

/-- Work that does not depend on the answer to a request does not come to it. -/
theorem not_independent (h : ComesTo x follow s q t)
    (hsame : ∀ answer : Follow, (∀ q' t', ¬ (q' = q ∧ t' = t) → answer q' t' = follow q' t') →
      x answer s = x follow s) : False := by
  -- Two interruptions of the request would have to end the work in the same way.
  obtain ⟨answer, hq, hothers⟩ := exists_interrupted follow q t .exhausted
  obtain ⟨u, hu⟩ := h answer .exhausted hq hothers
  obtain ⟨e, he⟩ := Interruption.exists_ne .exhausted
  obtain ⟨answer', hq', hothers'⟩ := exists_interrupted follow q t e
  obtain ⟨v, hv⟩ := h answer' e hq' hothers'
  have heq : (EStateM.Result.error .exhausted u : EStateM.Result _ _ α) = .error e v := by
    rw [← hu, ← hv, hsame answer hothers, hsame answer' hothers']
  rw [EStateM.Result.error.injEq] at heq
  exact he heq.1.symm

theorem bind (h : ComesTo x follow s q t) :
    ComesTo (fun answer => x answer >>= fun a => f a answer) follow s q t := by
  intro answer e hq hothers
  obtain ⟨u, hu⟩ := h answer e hq hothers
  exact ⟨u, bind_of_error hu⟩

theorem within {frame : Frame} (h : ComesTo x follow { s with stack := frame :: s.stack } q t) :
    ComesTo (fun answer => Resolution.within frame (x answer)) follow s q t := by
  intro answer e hq hothers
  obtain ⟨u, hu⟩ := h answer e hq hothers
  refine ⟨{ u with stack := s.stack }, ?_⟩
  simp only [Resolution.within, hu]

end ComesTo

namespace Inquiry

/-- **An inquiry comes to a request, or it does not depend on its answer.** -/
theorem comesTo_or (hx : Inquiry kept x) (follow : Follow) (s : Session) (q : Request)
    (t : Session) : ComesTo x follow s q t ∨
      ∀ answer : Follow, (∀ q' t', ¬ (q' = q ∧ t' = t) → answer q' t' = follow q' t') →
        x answer s = x follow s := by
  induction hx generalizing s with
  | quiet h => exact .inr fun _ _ => rfl
  | remember h => exact .inr fun _ _ => rfl
  | ask r =>
    by_cases heq : r = q ∧ s = t
    · obtain ⟨rfl, rfl⟩ := heq
      exact .inl fun answer e hq _ => ⟨s, hq⟩
    · exact .inr fun answer hothers => hothers r s heq
  | @bind α β x f hx hf ihx ihf =>
    rcases ihx s with h | hsame
    · exact .inl h.bind
    · cases hrun : x follow s with
      | error e u =>
        refine .inr fun answer hothers => ?_
        dsimp only
        rw [bind_of_error hrun, bind_of_error ((hsame answer hothers).trans hrun)]
      | ok a u =>
        rcases ihf a u with h | hsame'
        · refine .inl fun answer e hq hothers => ?_
          obtain ⟨v, hv⟩ := h answer e hq hothers
          exact ⟨v, (bind_of_ok ((hsame answer hothers).trans hrun)).trans hv⟩
        · refine .inr fun answer hothers => ?_
          dsimp only
          rw [bind_of_ok hrun, bind_of_ok ((hsame answer hothers).trans hrun),
            hsame' answer hothers]
  | within frame hx ih =>
    rcases ih { s with stack := frame :: s.stack } with h | hsame
    · exact .inl h.within
    · refine .inr fun answer hothers => ?_
      simp only [Resolution.within, hsame answer hothers]

/-- What the second part of the work comes to, the work comes to. -/
theorem comesTo_bind (hx : Inquiry kept x) {a : α} {u : Session} (hrun : x follow s = .ok a u)
    (h : ComesTo (f a) follow u q t) :
    ComesTo (fun answer => x answer >>= fun a => f a answer) follow s q t := by
  rcases hx.comesTo_or follow s q t with hcomes | hsame
  · exact hcomes.bind
  · intro answer e hq hothers
    obtain ⟨v, hv⟩ := h answer e hq hothers
    exact ⟨v, (bind_of_ok ((hsame answer hothers).trans hrun)).trans hv⟩

/-- What the work comes to, one of its two parts comes to. -/
theorem comesTo_bind_cases (hx : Inquiry kept x)
    (h : ComesTo (fun answer => x answer >>= fun a => f a answer) follow s q t) :
    ComesTo x follow s q t ∨ ∃ a u, x follow s = .ok a u ∧ ComesTo (f a) follow u q t := by
  rcases hx.comesTo_or follow s q t with hcomes | hsame
  · exact .inl hcomes
  · cases hrun : x follow s with
    | error e u =>
      refine (h.not_independent fun answer hothers => ?_).elim
      rw [bind_of_error hrun, bind_of_error ((hsame answer hothers).trans hrun)]
    | ok a u =>
      refine .inr ⟨a, u, rfl, fun answer e hq hothers => ?_⟩
      obtain ⟨v, hv⟩ := h answer e hq hothers
      exact ⟨v, (bind_of_ok ((hsame answer hothers).trans hrun)).symm.trans hv⟩

/-- What work inside a frame comes to, the work comes to inside the frame. -/
theorem comesTo_within (hx : Inquiry kept x) {frame : Frame}
    (h : ComesTo (fun answer => Resolution.within frame (x answer)) follow s q t) :
    ComesTo x follow { s with stack := frame :: s.stack } q t := by
  rcases hx.comesTo_or follow { s with stack := frame :: s.stack } q t with hcomes | hsame
  · exact hcomes
  · refine (h.not_independent fun answer hothers => ?_).elim
    simp only [Resolution.within, hsame answer hothers]

end Inquiry

end Coming

/-! ### How an inquiry ends -/

/-- What is said of sessions, and of those in which work is interrupted, when making nodes and
reporting findings does not matter, and frames may be opened and closed. -/
structure Bracketed (I J : Session → Prop) : Prop where
  alike : ∀ {s t : Session}, I s → s.Alike t → I t
  fault : ∀ {s : Session}, I s → J s
  push : ∀ {s : Session} (frame : Frame), I s → I { s with stack := frame :: s.stack }
  pop : ∀ {s t : Session}, I s → I t → I { t with stack := s.stack }
  popFault : ∀ {s t : Session}, I s → J t → J { t with stack := s.stack }

/-- Frames do not matter for what is said of the kept nodes only. -/
theorem bracketed_cache {I J : Table String Node → Prop} (hIJ : ∀ c, I c → J c) :
    Bracketed (fun s => I s.cache) fun s => J s.cache where
  alike h hst := by rwa [hst.cache]
  fault h := hIJ _ h
  push _ h := h
  pop _ h := h
  popFault _ h := h

section Ending

variable {kept : String → Prop} {x : Follow → Resolution α} {follow : Follow} {s t : Session}
  {q : Request}

/-- **How an inquiry ends**, from how the requests end that it comes to. -/
theorem Inquiry.ends {I J : Session → Prop} (hx : Inquiry kept x) (hbrackets : Bracketed I J)
    (hkept : ∀ p n s, kept p → I s → I { s with cache := Table.insert s.cache p n })
    (hfollow : ∀ q t, ComesTo x follow s q t → I t →
      Ends (follow q) t (fun _ u => I u) fun _ u => J u)
    (hs : I s) : Ends (x follow) s (fun _ u => I u) fun _ u => J u := by
  induction hx generalizing s with
  | quiet h =>
    exact (h s).mono (fun _ _ ht => hbrackets.alike hs ht)
      fun _ _ ht => hbrackets.fault (hbrackets.alike hs ht)
  | remember h => exact hkept _ _ s h hs
  | ask r => exact hfollow r s (fun answer e hq _ => ⟨s, hq⟩) hs
  | @bind α β x f hx hf ihx ihf =>
    have hfirst := ihx (fun q t h => hfollow q t h.bind) hs
    cases hrun : x follow s with
    | error e u => exact (ends_of_error (bind_of_error hrun)).2 (hfirst.of_error hrun)
    | ok a u =>
      refine (ends_bind_of_ok hrun).2 ?_
      exact ihf a (fun q t h => hfollow q t (hx.comesTo_bind hrun h)) (hfirst.of_ok hrun)
  | within frame hx ih =>
    rw [ends_within]
    exact (ih (fun q t h => hfollow q t h.within) (hbrackets.push frame hs)).mono
      (fun _ _ hu => hbrackets.pop hs hu) fun _ _ hu => hbrackets.popFault hs hu

/-- **Answers that agree on all requests that an inquiry comes to** end it in the same way. -/
theorem Inquiry.congr {answer : Follow} (hx : Inquiry kept x)
    (h : ∀ q t, ComesTo x follow s q t → answer q t = follow q t) : x answer s = x follow s := by
  induction hx generalizing s with
  | quiet => rfl
  | remember => rfl
  | ask r => exact h r s fun _ _ hq _ => ⟨s, hq⟩
  | @bind α β x f hx hf ihx ihf =>
    have hfirst := ihx fun q t hq => h q t hq.bind
    dsimp only
    cases hrun : x follow s with
    | error e u => rw [bind_of_error hrun, bind_of_error (hfirst.trans hrun)]
    | ok a u =>
      rw [bind_of_ok hrun, bind_of_ok (hfirst.trans hrun)]
      exact ihf a fun q t hq => h q t (hx.comesTo_bind hrun hq)
  | within frame hx ih =>
    simp only [Resolution.within, ih fun q t hq => h q t hq.within]

/-- **What holds in the sessions in which requests are made**: what holds at the start, if all
answers keep it. -/
theorem Inquiry.comesTo_inv {I J : Session → Prop} (hx : Inquiry kept x) (hbrackets : Bracketed I J)
    (hkept : ∀ p n s, kept p → I s → I { s with cache := Table.insert s.cache p n })
    (hfollow : ∀ q t, I t → Ends (follow q) t (fun _ u => I u) fun _ u => J u)
    (h : ComesTo x follow s q t) (hs : I s) : I t := by
  induction hx generalizing s with
  | quiet => exact (h.not_independent fun _ _ => rfl).elim
  | remember => exact (h.not_independent fun _ _ => rfl).elim
  | ask r =>
    by_cases heq : r = q ∧ s = t
    · exact heq.2 ▸ hs
    · exact (h.not_independent fun _ hothers => hothers r s heq).elim
  | @bind α β x f hx hf ihx ihf =>
    rcases hx.comesTo_bind_cases h with hfirst | ⟨a, u, hrun, hsecond⟩
    · exact ihx hfirst hs
    · have hends := hx.ends hbrackets hkept (fun q t _ => hfollow q t) hs
      exact ihf a hsecond (hends.of_ok hrun)
  | within frame hx ih => exact ih (hx.comesTo_within h) (hbrackets.push frame hs)

/-- **How an inquiry ends, from how one of its requests ends.**  What is said of the kept nodes when
the request has been answered is kept by what comes afterwards; what was before does not matter. -/
theorem Inquiry.resumes {I J : Table String Node → Prop} (hx : Inquiry kept x)
    (hIJ : ∀ c, I c → J c) (hkept : ∀ p n c, kept p → I c → I (Table.insert c p n))
    (hfollow : ∀ q t, I t.cache → Ends (follow q) t (fun _ u => I u.cache) fun _ u => J u.cache)
    (h : ComesTo x follow s q t)
    (hend : Ends (follow q) t (fun _ u => I u.cache) fun _ u => J u.cache) :
    Ends (x follow) s (fun _ u => I u.cache) fun _ u => J u.cache := by
  induction hx generalizing s with
  | quiet => exact (h.not_independent fun _ _ => rfl).elim
  | remember => exact (h.not_independent fun _ _ => rfl).elim
  | ask r =>
    by_cases heq : r = q ∧ s = t
    · obtain ⟨rfl, rfl⟩ := heq
      exact hend
    · exact (h.not_independent fun _ hothers => hothers r s heq).elim
  | @bind α β x f hx hf ihx ihf =>
    rcases hx.comesTo_bind_cases h with hfirst | ⟨a, u, hrun, hsecond⟩
    · rw [ends_bind]
      refine (ihx hfirst).mono_ok fun a u hu => ?_
      exact (hf a).ends (bracketed_cache hIJ) (fun p n s hp hs => hkept p n s.cache hp hs)
        (fun q t _ ht => hfollow q t ht) hu
    · exact (ends_bind_of_ok hrun).2 (ihf a hsecond)
  | within frame hx ih =>
    rw [ends_within]
    exact ih (hx.comesTo_within h)

end Ending

end ApiBinding
