import ApiBinding.Proofs.Resolver.Keeping

/-!
# Resolutions that know more

What a resolution does depends on what was kept before.  In a realm more kept nodes never do
harm: if a request has an answer in one session, then it has one in every session with the
same open pointers in which more is kept.  The two resolutions are led side by side.  They
take the same steps, except that the second one skips what it has kept already.

Tags are left out of this: whether a variant has one may depend on its node, and nodes depend
on the session.  So the unions of the realm have to map the components of their members.

## Main definitions

* `Mapped` — the tagged unions of a set map the components of their members.
* `Resumes` — the second work has a result whenever the first one has.
* `Session.Extends` — more is kept in the second session.

## Main results

* `Follow.schema_resumes` — the rule for steps on schemas.
* `Document.follow_resumes` — **more kept nodes do no harm.**
* `Document.follow_supplied` — where all components are kept, requests have answers.
-/

namespace ApiBinding

open Resolution

/-! ### Tags of mapped members -/

/-- The member is a reference to a component with a mapped value. -/
def MappedMember (discriminator : Discriminator) (m : Schema) : Prop :=
  ∃ c tag, Document.wholeReference? m = some c ∧ mappedTag? discriminator c = some tag

/-- Every tagged union of the set maps the components of its members. -/
def Mapped (V : SchemaSet) : Prop :=
  ∀ s name spine members discriminator, V s name spine →
    s.form name spine = .union .oneOf members → s.discriminator = some discriminator →
    ∀ m ∈ members, MappedMember discriminator m

theorem tagsOf_ok (discriminator : Discriminator) (location : String) :
    ∀ (variants : List Variant) (index : Nat),
      (∀ v ∈ variants, (tagOf? discriminator v).isSome) →
      ∃ tags, tagsOf discriminator location index variants = .ok tags
  | [], _, _ => ⟨[], rfl⟩
  | v :: rest, index, h => by
    obtain ⟨tag, htag⟩ := Option.isSome_iff_exists.1 (h v (.head _))
    obtain ⟨tags, htags⟩ := tagsOf_ok discriminator location rest (index + 1)
      fun w hw => h w (.tail _ hw)
    exact ⟨tag :: tags, by simp [tagsOf, htag, htags, Except.map]⟩

/-- **Mapped members have tags**, whatever their nodes are. -/
theorem classify_mapped {keyword : UnionKeyword} {members : List Schema}
    {variants : List Variant} {discriminator : Option Discriminator} (location : String)
    (hmapped : ∀ D, keyword = .oneOf → discriminator = some D → ∀ m ∈ members, MappedMember D m)
    (hvariants : List.Forall₂ (fun m (v : Variant) => v.component = Document.wholeReference? m)
      members variants) :
    ∃ result, classify keyword variants discriminator location = .ok result := by
  unfold classify taggingOf
  cases discriminator with
  | none => exact ⟨_, rfl⟩
  | some D =>
    cases keyword with
    | anyOf => exact ⟨_, rfl⟩
    | oneOf =>
      have htags : ∀ v ∈ variants.filter fun v => !v.node.shape.isNull, (tagOf? D v).isSome := by
        intro v hv
        obtain ⟨m, hm, hcomponent⟩ := forall₂_exists hvariants.flip (List.mem_filter.1 hv).1
        obtain ⟨c, tag, hc, htag⟩ := hmapped D rfl rfl m hm
        simp [tagOf?, hcomponent, hc, htag]
      obtain ⟨tags, htags⟩ := tagsOf_ok D location _ 0 htags
      simp only [htags]
      exact ⟨_, rfl⟩

/-! ### Work side by side -/

section Resumes

variable {α α' β β' : Type} {R : Session → Session → Prop}

/-- The second work has a result whenever the first one has; `R` leads to `R`, and the result
meets `Q`. -/
def Resumes (R : Session → Session → Prop) (Q : β → Prop) (x : Resolution α) (y : Resolution β) :
    Prop :=
  ∀ s t, R s t →
    Ends x s (fun _ s' => Ends y t (fun b t' => R s' t' ∧ Q b) fun _ _ => False) fun _ _ => True

theorem resumes_pure {Q : β → Prop} {a : α} {b : β} (h : Q b) :
    Resumes R Q (pure a : Resolution α) (pure b) := fun _ _ hst => ⟨hst, h⟩

theorem Resumes.bind {Q : β → Prop} {Q' : β' → Prop} {x : Resolution α} {y : Resolution β}
    {f : α → Resolution α'} {g : β → Resolution β'} (h : Resumes R Q x y)
    (hfg : ∀ a b, Q b → Resumes R Q' (f a) (g b)) : Resumes R Q' (x >>= f) (y >>= g) := by
  intro s t hst
  rw [ends_bind]
  refine (h s t hst).mono_ok fun a s' hy => ?_
  simp only [ends_bind]
  unfold Ends at hy
  split at hy
  · rename_i b t' hrun
    refine (hfg a b hy.2 s' t' hy.1).mono_ok fun _ s'' hg => ?_
    unfold Ends at hg ⊢
    rw [hrun]
    exact hg
  · exact hy.elim

theorem resumes_eachFrom {γ : Type} {Q : γ → β → Prop} {x : Nat → γ → Resolution α}
    {y : Nat → γ → Resolution β} :
    ∀ (cs : List γ) (index : Nat), (∀ c ∈ cs, ∀ i, Resumes R (Q c) (x i c) (y i c)) →
      Resumes R (List.Forall₂ Q cs) (eachFrom x index cs) (eachFrom y index cs)
  | [], _, _ => resumes_pure .nil
  | c :: rest, index, h =>
    (h c (.head _) index).bind fun _ _ hb =>
      (resumes_eachFrom rest (index + 1) fun c' hc' => h c' (.tail _ hc')).bind fun _ _ hbs =>
        resumes_pure (.cons hb hbs)

theorem resumes_each {γ : Type} {x : γ → Resolution α} {y : γ → Resolution β} :
    ∀ (cs : List γ), (∀ c ∈ cs, Resumes R (fun _ => True) (x c) (y c)) →
      Resumes R (fun _ => True) (each x cs) (each y cs)
  | [], _ => resumes_pure trivial
  | c :: rest, h =>
    (h c (.head _)).bind fun _ _ _ =>
      (resumes_each rest fun c' hc' => h c' (.tail _ hc')).bind fun _ _ _ => resumes_pure trivial

end Resumes

/-! ### Steps on schemas side by side -/

section Steps

variable {R : Session → Session → Prop} {follow : Follow} {d : Document}

/-- Making nodes and reporting findings makes no difference. -/
def Indifferent (R : Session → Session → Prop) : Prop :=
  ∀ s s' t t', s.Alike s' → t.Alike t' → R s t → R s' t'

variable (hR : Indifferent R)

include hR

theorem resumes_issue {body body' : Body} {name name' description description' : Option String}
    {default default' : Option Json} :
    Resumes R (fun _ => True) (issue body name description default)
      (issue body' name' description' default') :=
  fun _ _ hst => ⟨hR _ _ _ _ issue_alike issue_alike hst, trivial⟩

theorem resumes_issuePlain {shape shape' : Shape Node} :
    Resumes R (fun _ => True) (issuePlain shape) (issuePlain shape') := resumes_issue hR

theorem resumes_annotate {body body' : Body} {s : Schema} {name : Option String} :
    Resumes R (fun _ => True) (annotate body s name) (annotate body' s name) := resumes_issue hR

theorem resumes_report {findings findings' : List Diagnostic} :
    Resumes R (fun _ => True) (report findings) (report findings') :=
  fun _ _ hst => ⟨hR _ _ _ _ report_alike report_alike hst, trivial⟩

variable {s : Schema} {location : String}

/-- What a schema asks for inside. -/
def ResumesInside (R : Session → Session → Prop) (follow : Follow) (t : Schema) : Prop :=
  ∀ l, Resumes R (fun _ => True) (follow (.schema t l none false)) (follow (.schema t l none false))

theorem resumes_object (h : ∀ t, ObjectPart s t → ResumesInside R follow t) :
    Resumes R (fun _ => True) (Follow.object follow s location)
      (Follow.object follow s location) := by
  have hadditional : Resumes R (fun _ => True) (Follow.additionalNode follow s location)
      (Follow.additionalNode follow s location) := by
    unfold Follow.additionalNode
    split
    · exact resumes_pure trivial
    · exact resumes_pure trivial
    · exact (resumes_issuePlain hR).bind fun _ _ _ => resumes_pure trivial
    · rename_i t ht
      exact (h t (.additional ht) _).bind fun _ _ _ => resumes_pure trivial
  refine Resumes.bind (resumes_each _ fun p hp => ?_) fun _ _ _ =>
    hadditional.bind fun _ _ _ => resumes_pure trivial
  exact (h p.2 (.property hp) _).bind fun _ _ _ => resumes_pure trivial

theorem resumes_array (h : ∀ t, s.items = some t → ResumesInside R follow t) :
    Resumes R (fun _ => True) (Follow.array follow s location)
      (Follow.array follow s location) := by
  unfold Follow.array
  split
  · rename_i t ht
    exact (h t ht _).bind fun _ _ _ => resumes_pure trivial
  · exact (resumes_issuePlain hR).bind fun _ _ _ => resumes_pure trivial

theorem resumes_typed {typeName : String}
    (hobject : typeName = "object" → ∀ t, ObjectPart s t → ResumesInside R follow t)
    (harray : typeName = "array" → ∀ t, s.items = some t → ResumesInside R follow t) :
    Resumes R (fun _ => True) (Follow.typed follow typeName s location)
      (Follow.typed follow typeName s location) := by
  unfold Follow.typed
  split
  · exact resumes_pure trivial
  · exact resumes_pure trivial
  · exact resumes_pure trivial
  · exact resumes_pure trivial
  · exact resumes_object hR (hobject rfl)
  · exact resumes_array hR (harray rfl)
  · exact resumes_pure trivial

theorem resumes_typedName {typeName : String} (hmem : typeName ∈ s.typeNames)
    (h : ∀ t, PlainPart s t → ResumesInside R follow t) :
    Resumes R (fun _ => True) (Follow.typed follow typeName s location)
      (Follow.typed follow typeName s location) := by
  have hne : s.typeNames ≠ [] := List.ne_nil_of_mem hmem
  refine resumes_typed hR (fun heq t ht => h t (.object ?_ ht)) fun heq t ht => h t (.items ?_ ht)
  · unfold Schema.readsObject
    subst heq
    split <;> simp_all
  · unfold Schema.readsItems
    subst heq
    split <;> simp_all

theorem resumes_plainShape (h : ∀ t, PlainPart s t → ResumesInside R follow t) :
    Resumes R (fun _ => True) (Follow.plainShape follow s location)
      (Follow.plainShape follow s location) := by
  unfold Follow.plainShape
  split
  · rename_i hnames
    unfold Follow.untyped
    by_cases hnull : s.isNullType
    · simpa only [hnull, if_true] using resumes_pure trivial
    by_cases hdeclares : s.declaresObject
    · have hobject : s.readsObject := by simp [Schema.readsObject, hnames, hnull, hdeclares]
      unfold Schema.declaresObject at hdeclares
      simpa only [hnull, hdeclares, if_true, if_false, Bool.false_eq_true] using
        resumes_object hR fun t ht => h t (.object hobject ht)
    by_cases hitems : s.items.isSome
    · have hreads : s.readsItems := by
        simp [Schema.readsItems, hnames, hnull, hdeclares, hitems]
      unfold Schema.declaresObject at hdeclares
      simpa only [hnull, hdeclares, hitems, if_true, if_false, Bool.false_eq_true] using
        resumes_array hR fun t ht => h t (.items hreads ht)
    · unfold Schema.declaresObject at hdeclares
      simpa only [hnull, hdeclares, hitems, if_false, Bool.false_eq_true] using
        resumes_pure trivial
  · rename_i typeName hnames
    exact resumes_typedName hR (by simp [hnames]) h
  · refine Resumes.bind (resumes_each _ fun typeName hmem => ?_) fun _ _ _ => resumes_pure trivial
    exact (resumes_typedName hR hmem h).bind fun _ _ _ => resumes_issuePlain hR

theorem resumes_union {keyword : UnionKeyword} {members : List Schema} {name : Option String}
    (hmapped : ∀ D, keyword = .oneOf → s.discriminator = some D →
      ∀ m ∈ members, MappedMember D m)
    (h : ∀ m ∈ members, ResumesInside R follow m) :
    Resumes R (fun _ => True) (Follow.union follow d s keyword members location name)
      (Follow.union follow d s keyword members location name) := by
  have hvariants : Resumes R
      (List.Forall₂ (fun m (v : Variant) => v.component = Document.wholeReference? m) members)
      (eachFrom (Follow.variant follow d s keyword location) 0 members)
      (eachFrom (Follow.variant follow d s keyword location) 0 members) :=
    resumes_eachFrom members 0 fun m hm _ => (h m hm _).bind fun _ _ _ => resumes_pure rfl
  refine hvariants.bind fun variants variants' hvariants => ?_
  obtain ⟨result, hresult⟩ := classify_mapped location hmapped hvariants
  have hclassify : Resumes R (fun _ => True)
      (ofExcept (classify keyword variants s.discriminator location))
      (ofExcept (classify keyword variants' s.discriminator location)) := by
    intro u v huv
    rw [hresult, ends_ofExcept]
    exact ⟨fun _ _ => ⟨huv, trivial⟩, fun _ _ => trivial⟩
  exact hclassify.bind fun _ _ _ => (resumes_report hR).bind fun _ _ _ => resumes_annotate hR

theorem resumes_flatten {name : Option String} {spine : Bool}
    (hreference : ∀ f ∈ s.allOf, ∀ p, f.reference = some p → ∀ l,
      Resumes R (fun _ => True) (follow (.fragment p l spine)) (follow (.fragment p l spine)))
    (hinline : ∀ f ∈ s.allOf, f.reference = none → ∀ l,
      Resumes R (fun _ => True) (follow (.schema f l none spine)) (follow (.schema f l none spine)))
    (hown : s.addsFragment → ∀ t, ObjectPart s t → ResumesInside R follow t) :
    Resumes R (fun _ => True) (Follow.flatten follow s location name spine)
      (Follow.flatten follow s location name spine) := by
  have hfragments : Resumes R (List.Forall₂ (fun _ _ => True) s.allOf)
      (eachFrom (Follow.fragmentNode follow location spine) 0 s.allOf)
      (eachFrom (Follow.fragmentNode follow location spine) 0 s.allOf) := by
    refine resumes_eachFrom s.allOf 0 fun f hf _ => ?_
    unfold Follow.fragmentNode
    cases hr : f.reference with
    | some p => exact hreference f hf p hr _
    | none => exact hinline f hf hr _
  have hadds : Resumes R (fun _ => True) (Follow.ownFragment follow s location)
      (Follow.ownFragment follow s location) := by
    unfold Follow.ownFragment
    split
    · exact resumes_pure trivial
    · rename_i ha
      have hadds : s.addsFragment := by
        rw [Schema.addsFragment, Bool.not_eq_true']
        exact Bool.eq_false_iff.2 ha
      exact (resumes_object hR (hown hadds)).bind
        fun _ _ _ => (resumes_issuePlain hR).bind fun _ _ _ => resumes_pure trivial
  exact hfragments.bind fun _ _ _ => hadds.bind fun _ _ _ =>
    (resumes_report hR).bind fun _ _ _ => resumes_annotate hR

/-- **A step on a schema**, from the requests that the schema leads to. -/
theorem Follow.schema_resumes {name : Option String} {spine : Bool}
    (hmapped : ∀ members D, s.form name spine = .union .oneOf members →
      s.discriminator = some D → ∀ m ∈ members, MappedMember D m)
    (hfollow : ∀ r, Leads s name spine r → Resumes R (fun _ => True) (follow r) (follow r)) :
    Resumes R (fun _ => True) (Follow.schema follow d s location name spine)
      (Follow.schema follow d s location name spine) := by
  have hreferring : ∀ (n n' : Node) (name : Option String), Resumes R (fun _ => True)
      (Follow.referring n s name) (Follow.referring n' s name) := by
    intro n n' name u v huv
    have hleft : Ends (Follow.referring n s name) u (fun _ u' => u.Alike u') fun _ _ => True := by
      unfold Follow.referring
      split
      · exact .refl u
      · exact issue_alike
    have hright :
        Ends (Follow.referring n' s name) v (fun _ v' => v.Alike v') fun _ _ => False := by
      unfold Follow.referring
      split
      · exact .refl v
      · exact issue_alike
    exact hleft.mono_ok fun _ u' hu => hright.mono_ok fun _ v' hv => ⟨hR _ _ _ _ hu hv huv, trivial⟩
  rw [Follow.schema_eq]
  cases hform : s.form name spine with
  | reference p => exact (hfollow _ (.reference hform)).bind fun _ _ _ => hreferring _ _ _
  | wrapper p => exact (hfollow _ (.wrapper hform)).bind fun _ _ _ => hreferring _ _ _
  | composition =>
    exact resumes_flatten hR (fun f hf p hp _ => hfollow _ (.fragment hform hf hp))
      (fun f hf hr _ => hfollow _ (.inline hform hf hr))
      fun ha t ht _ => hfollow _ (.own hform ha ht)
  | union keyword members =>
    exact resumes_union hR (fun D hkeyword hD => hmapped members D (hkeyword ▸ hform) hD)
      fun m hm _ => hfollow _ (.member hform hm)
  | literals values => exact resumes_annotate hR
  | plain =>
    exact (resumes_plainShape hR fun t ht _ => hfollow _ (.plain hform ht)).bind
      fun _ _ _ => resumes_annotate hR

end Steps

/-! ### References side by side -/

/-- The same is open, more is kept, and the bodies of what is kept are settled. -/
structure Session.Extends (d : Document) (s t : Session) : Prop where
  stack : t.stack = s.stack
  keeps : ∀ q, s.Keeps q → t.Keeps q
  shut : t.Shut d

section References

variable {d : Document} {V : SchemaSet} {follow : Follow}

theorem Session.extends_indifferent (d : Document) : Indifferent (Session.Extends d) := by
  intro s s' t t' hs ht h
  refine ⟨by rw [ht.stack, hs.stack, h.stack], ?_, h.shut.alike ht⟩
  unfold Session.Keeps
  rw [hs.cache, ht.cache]
  exact h.keeps

theorem Session.Extends.push {s t : Session} (h : s.Extends d t) (f : Frame) :
    Session.Extends d { s with stack := f :: s.stack } { t with stack := f :: t.stack } :=
  ⟨congrArg (f :: ·) h.stack, h.keeps, h.shut.push f⟩

/-- What is open in both sessions. -/
theorem Session.Extends.inProgress {s t : Session} (h : s.Extends d t) (p : String) :
    t.inProgress p = s.inProgress p := by
  rw [Session.inProgress, Session.inProgress, h.stack]

/-- Requests inside the set have answers where more is kept. -/
def Resuming (d : Document) (V : SchemaSet) (follow : Follow) : Prop :=
  ∀ r, r.In d V → Resumes (Session.Extends d) (fun _ => True) (follow r) (follow r)

/-- Work that has a result leaves the bodies of what is kept settled. -/
theorem ends_extends {α : Type} {work : Resolution α} {s' t : Session}
    (hends : Ends work t (fun _ t' => t'.stack = s'.stack ∧ ∀ q, s'.Keeps q → t'.Keeps q)
      fun _ _ => False)
    (hshut : Ends work t (fun _ t' => t'.Shut d) fun _ _ => True) :
    Ends work t (fun _ t' => s'.Extends d t' ∧ True) fun _ _ => False :=
  (hends.and hshut).mono (fun _ _ ⟨⟨hstack, hkeeps⟩, hshut⟩ => ⟨⟨hstack, hkeeps, hshut⟩, trivial⟩)
    fun _ _ h => h.1

/-- The rule of plain references.  The second resolution skips a pointer that it has kept; what
the first one keeps for it is kept there already. -/
theorem Resuming.reference (h : Resuming d V follow) (hsteady : Steady follow)
    (hsettles : Settles d V follow)
    (hconfined : ∀ kept opened, ShutOff d kept opened → Confined d V kept opened follow)
    {p location : String} {link : Bool} (hp : Entered d V p) :
    Resumes (Session.Extends d) (fun _ => True) (Follow.reference follow d p location link)
      (Follow.reference follow d p location link) := by
  intro s t hst
  have hshut : Ends (Follow.reference follow d p location link) t (fun _ t' => t'.Shut d)
      fun _ _ => True := (hsettles.reference hsteady hp hst.shut).mono_ok fun _ _ h => h.1
  -- A pointer that is kept is answered from what is kept.
  have hskip : t.Keeps p → Ends (Follow.reference follow d p location link) t
      (fun _ t' => t'.stack = t.stack ∧ ∀ q, t.Keeps q → t'.Keeps q) fun _ _ => False := by
    intro hkept
    refine hp.reference_ends (fun _ _ => ⟨rfl, fun _ hq => hq⟩)
      (fun _ _ u hu => ⟨hu.stack, hu.later.kept⟩) fun hnone => ?_
    simp [Session.Keeps, hnone] at hkept
  refine hp.reference_ends (fun n hn => ?_) (fun hprogress n u hu => ?_)
    fun hnone hno body c hbody hc hV => ?_
  · have hkept := hst.keeps p (Option.isSome_iff_exists.2 ⟨n, hn⟩)
    exact ends_extends ((hskip hkept).mono_ok fun _ t' ht' => ⟨ht'.1.trans hst.stack,
      fun q hq => ht'.2 q (hst.keeps q hq)⟩) hshut
  · -- The same pointers are open there, so it is a back reference there, too.
    have halike : u.Extends d t := Session.extends_indifferent d s u t t hu (.refl t) hst
    refine ends_extends (hp.reference_ends (fun _ _ => ⟨halike.stack, halike.keeps⟩)
      (fun _ _ v hv =>
        ⟨hv.stack.trans halike.stack, fun q hq => hv.later.kept q (halike.keeps q hq)⟩)
      fun _ hno => absurd hprogress (by rwa [← hst.inProgress])) hshut
  by_cases hkept : t.Keeps p
  · -- What is expanded here was settled there.
    have hconfines : Confines t.Keeps (openIn t.stack)
        { s with stack := ⟨p, link, false⟩ :: s.stack } :=
      Confines.push ⟨hst.keeps, fun q hq => hst.stack ▸ hq, fun q hq => .inr (hst.stack.symm ▸ hq)⟩
        (.inl hkept)
    refine (hconfined t.Keeps (openIn t.stack) hst.shut (.schema body p (some c) true) _
      ⟨hV, hst.shut p c body p hkept hbody hc, hconfines⟩).mono_ok fun n s' hs' => ?_
    refine ends_extends ((hskip hkept).mono_ok fun _ t' ht' =>
      ⟨ht'.1.trans hst.stack, fun q hq => ht'.2 q ?_⟩) hshut
    rcases Session.keeps_remember.1 hq with rfl | hq
    · exact hkept
    · exact hs' q hq
  · -- Both resolutions expand the pointer and keep its node.
    refine (h (.schema body p (some c) true) hV _ _ (hst.push ⟨p, link, false⟩)).mono_ok
      fun n s' hs' => ends_extends ?_ hshut
    refine hp.reference_ends (fun m hm => absurd (Option.isSome_iff_exists.2 ⟨m, hm⟩) hkept)
      (fun hprogress => absurd hprogress (by rwa [hst.inProgress]))
      fun _ _ body' c' hbody' hc' _ => ?_
    rw [hbody, Option.some.injEq] at hbody'
    rw [← hc.unique hc', ← hbody']
    refine hs'.mono_ok fun m t' ht' => ⟨hst.stack, fun q hq => ?_⟩
    exact Session.keeps_remember.2 ((Session.keeps_remember.1 hq).imp_right (ht'.1.keeps q))

/-- The rule of fragments. -/
theorem Resuming.fragment (h : Resuming d V follow) (hsteady : Steady follow)
    (hsettles : Settles d V follow)
    (hsettled : Settles d V (Follow.step follow d))
    (hconfined : ∀ kept opened, ShutOff d kept opened → Confined d V kept opened follow)
    {p location : String} {spine : Bool} (hr : (Request.fragment p location spine).In d V) :
    Resumes (Session.Extends d) (fun _ => True) (Follow.fragment follow d p location spine)
      (Follow.fragment follow d p location spine) := by
  intro s t hst
  -- The stacks agree, so both resolutions take the same branch.
  have hchain : t.compositionChain = s.compositionChain := by
    rw [Session.compositionChain, Session.compositionChain, hst.stack]
  have hfresh : t.inFreshProgress p = s.inFreshProgress p := by
    rw [Session.inFreshProgress, Session.inFreshProgress, hst.stack]
  have hshut : Ends (Follow.fragment follow d p location spine) t (fun _ t' => t'.Shut d)
      fun _ _ => True :=
    (hsettled (.fragment p location spine) t ⟨hr, hst.shut⟩).mono_ok fun _ _ h => h.1
  refine hr.1.fragment_ends (fun _ _ => trivial) (fun _ _ => trivial)
    (fun hnot hprogress hno body c hbody hc hV => ?_) fun hnot hno => ?_
  · refine (h (.schema body p (some c) true) hV _ _ (hst.push ⟨p, spine, true⟩)).mono_ok
      fun n s' hs' => ends_extends ?_ hshut
    refine hr.1.fragment_ends (fun hspine hmem => hnot hspine (hchain ▸ hmem))
      (fun _ hyes => hno (hfresh ▸ hyes)) (fun _ _ _ body' c' hbody' hc' _ => ?_)
      fun _ hclosed => absurd hprogress (by rwa [← hst.inProgress])
    rw [hbody, Option.some.injEq] at hbody'
    rw [← hc.unique hc', ← hbody']
    exact hs'.mono_ok fun m t' ht' => ⟨hst.stack, ht'.1.keeps⟩
  · refine (h.reference hsteady hsettles hconfined hr.1 s t hst).mono_ok fun n s' hs' =>
      ends_extends ?_ hshut
    exact hr.1.fragment_ends (fun hspine hmem => hnot hspine (hchain ▸ hmem))
      (fun hprogress => absurd hprogress (by rwa [hst.inProgress]))
      (fun _ hprogress => absurd hprogress (by rwa [hst.inProgress]))
      fun _ _ => hs'.mono_ok fun _ t' ht' => ⟨ht'.1.stack, ht'.1.keeps⟩

/-- One step has results where more is kept. -/
theorem Resuming.step (h : Resuming d V follow) (hsteady : Steady follow)
    (hsettles : Settles d V follow)
    (hsettled : Settles d V (Follow.step follow d))
    (hconfined : ∀ kept opened, ShutOff d kept opened → Confined d V kept opened follow)
    (hV : Realm d V) (hmapped : Mapped V) : Resuming d V (Follow.step follow d) := by
  intro r hr
  cases r with
  | reference p location link => exact h.reference hsteady hsettles hconfined hr
  | fragment p location spine => exact h.fragment hsteady hsettles hsettled hconfined hr
  | schema schema location name spine =>
    exact Follow.schema_resumes (Session.extends_indifferent d)
      (fun members D hform hD => hmapped _ _ _ members D hr hform hD)
      fun r hlead => h r (hV _ _ _ _ hr hlead)

/-- **More kept nodes do no harm**: what has an answer has one where more is kept. -/
theorem Document.follow_resumes (hV : Realm d V) (hmapped : Mapped V) :
    ∀ depth, Resuming d V (d.follow depth)
  | 0, _, _ => fun _ _ _ => trivial
  | depth + 1, r, hr =>
    Resuming.step (Document.follow_resumes hV hmapped depth) (d.follow_steady depth)
      (d.follow_settles hV depth) (d.follow_settles hV (depth + 1))
      (fun _ _ hshut => d.follow_confined hV hshut depth) hV hmapped r hr

/-! ### Where all components are kept -/

/-- Nothing is open, and all components are kept that requests can be for. -/
def Supplied (d : Document) (V : SchemaSet) (s : Session) : Prop :=
  s.stack = [] ∧ ∀ p, Entered d V p → s.Keeps p

theorem Supplied.later {s t : Session} (h : Supplied d V s) (hst : s.Later t) :
    Supplied d V t :=
  ⟨hst.stack.trans h.1, fun p hp => hst.kept p (h.2 p hp)⟩

/-- References are answered from what is kept. -/
theorem Supplied.reference {s : Session} (h : Supplied d V s) {p location : String} {link : Bool}
    (hp : Entered d V p) :
    Ends (Follow.reference follow d p location link) s (fun _ _ => True)
      fun e _ => e = .exhausted := by
  refine hp.reference_ends (fun _ _ => trivial) (fun _ _ _ _ => trivial) fun hnone => ?_
  have hkept := h.2 p hp
  simp [Session.Keeps, hnone] at hkept

/-- **Where all components are kept, requests have answers.** -/
theorem Document.follow_supplied (hV : Realm d V) (hmapped : Mapped V) (depth : Nat) :
    Meets (d.follow depth) (fun r s => r.In d V ∧ Supplied d V s) (fun _ _ _ _ => True)
      fun _ _ e _ => e = .exhausted := by
  refine Document.follow_meets (fun _ _ _ => rfl) (fun follow hsteady h => ?_) depth
  rintro r s ⟨hr, hs⟩
  cases r with
  | reference p location link => exact hs.reference hr
  | fragment p location spine =>
    have hclosed : ¬ s.inProgress p := by simp [Session.inProgress, hs.1]
    refine hr.1.fragment_ends (fun _ hmem => ?_) (fun hprogress => absurd hprogress hclosed)
      (fun _ hprogress => absurd hprogress hclosed) fun _ _ => hs.reference hr.1
    simp [Session.compositionChain, hs.1, Session.linkedPointers] at hmem
  | schema schema location name spine =>
    have hbrings : Brings (Supplied d V) (fun e _ => e = .exhausted)
        (Follow.schema follow d schema location name spine) _ :=
      Follow.schema_brings (Q := fun _ _ _ => True) (fun t u htu ht => ht.later htu.later)
        (fun _ _ _ _ _ _ => trivial)
        (fun _ keyword members variants cause hform hvariants hc _ => by
          obtain ⟨result, hresult⟩ := classify_mapped location
            (fun D hkeyword hD => hmapped _ _ _ members D hr (hkeyword ▸ hform) hD)
            (hvariants.imp fun _ _ hv => hv.component)
          rw [hresult] at hc
          exact absurd hc (by simp))
        fun r hlead t ht =>
          ((h r t ⟨hV _ _ _ _ hr hlead, ht⟩).and (hsteady r t)).mono
            (fun _ u hu => ⟨ht.later hu.2, hu.2, trivial⟩) fun _ _ he => he.1
    exact (hbrings s hs).mono_ok fun _ _ _ => trivial

end References

end ApiBinding
