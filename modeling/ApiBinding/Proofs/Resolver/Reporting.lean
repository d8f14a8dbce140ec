import ApiBinding.Proofs.Resolver.Outcome

/-!
# Findings along the way

Findings are only ever added, and nothing that is done depends on them: from a state with other
findings, the same work ends in the same way, and it adds the same findings.  So work that differs
in what it reports can be compared by what else it does.

## Main definitions

* `Noting` — states that hold findings.
* `Reports` — work that adds findings of a kind and depends on none.
* `Omits` — work that does the same as other work, but for one finding.

## Main results

* `Document.follow_reports` — resolutions report warnings only, and none about responses.
-/

namespace ApiBinding

/-! ### States with findings -/

/-- A state that holds findings, which can be exchanged for others. -/
class Noting (σ : Type) where
  findings : σ → List Diagnostic
  noting : List Diagnostic → σ → σ
  findings_noting : ∀ ds s, findings (noting ds s) = ds
  noting_findings : ∀ s, noting (findings s) s = s
  noting_noting : ∀ ds es s, noting ds (noting es s) = noting ds s

export Noting (findings noting)

attribute [simp] Noting.findings_noting Noting.noting_findings Noting.noting_noting

instance : Noting Session where
  findings s := s.diagnostics
  noting ds s := { s with diagnostics := ds }
  findings_noting _ _ := rfl
  noting_findings _ := rfl
  noting_noting _ _ _ := rfl

section Work

variable {ε σ α β : Type} [Noting σ]

/-- The same end, with other findings. -/
def renoted (ds : List Diagnostic) : EStateM.Result ε σ α → EStateM.Result ε σ α
  | .ok a t => .ok a (noting ds t)
  | .error e t => .error e (noting ds t)

/-- The work adds findings with `P`.  Nothing else that it does depends on the findings there
are. -/
def Reports (P : Diagnostic → Prop) (work : EStateM ε σ α) : Prop :=
  ∀ s, ∃ more, (∀ f ∈ more, P f) ∧ ∀ ds, work (noting ds s) = renoted (ds ++ more) (work s)

variable {P Q : Diagnostic → Prop} {work : EStateM ε σ α} {s t : σ}

theorem Reports.mono (h : Reports P work) (hpq : ∀ f, P f → Q f) : Reports Q work := fun s =>
  (h s).imp fun _ hmore => ⟨fun f hf => hpq f (hmore.1 f hf), hmore.2⟩

/-- The findings at the end are those at the start and some more. -/
theorem Reports.of_ok (h : Reports P work) {a : α} (hs : work s = .ok a t) :
    ∃ more, (∀ f ∈ more, P f) ∧ findings t = findings s ++ more ∧
      ∀ ds, work (noting ds s) = .ok a (noting (ds ++ more) t) := by
  obtain ⟨more, hmore, hwork⟩ := h s
  simp only [hs, renoted] at hwork
  refine ⟨more, hmore, ?_, hwork⟩
  have hself := hwork (findings s)
  rw [Noting.noting_findings, hs, EStateM.Result.ok.injEq] at hself
  have hfindings := congrArg findings hself.2
  rwa [Noting.findings_noting] at hfindings

theorem Reports.of_error (h : Reports P work) {e : ε} (hs : work s = .error e t)
    (ds : List Diagnostic) : ∃ es, work (noting ds s) = .error e (noting es t) := by
  obtain ⟨more, -, hwork⟩ := h s
  exact ⟨ds ++ more, by rw [hwork, hs, renoted]⟩

theorem reports_pure (a : α) : Reports P (pure a : EStateM ε σ α) := fun s =>
  ⟨[], by simp, fun ds => by rw [List.append_nil]; rfl⟩

theorem reports_throw (e : ε) : Reports P (throw e : EStateM ε σ α) := fun s =>
  ⟨[], by simp, fun ds => by rw [List.append_nil]; rfl⟩

theorem Reports.bind {f : α → EStateM ε σ β} (h : Reports P work) (hf : ∀ a, Reports P (f a)) :
    Reports P (work >>= f) := by
  intro s
  obtain ⟨more, hmore, hwork⟩ := h s
  cases hs : work s with
  | error e t =>
    refine ⟨more, hmore, fun ds => ?_⟩
    have hother := hwork ds
    rw [hs] at hother
    rw [bind_of_error hs, bind_of_error hother, renoted]
  | ok a t =>
    obtain ⟨rest, hrest, hfa⟩ := hf a t
    refine ⟨more ++ rest, fun d hd => (List.mem_append.1 hd).elim (hmore d) (hrest d),
      fun ds => ?_⟩
    have hother := hwork ds
    rw [hs] at hother
    rw [bind_of_ok hs, bind_of_ok hother, hfa, List.append_assoc]

/-- Work that looks at the state, but not at the findings in it. -/
theorem reports_get {f : σ → EStateM ε σ α} (hf : ∀ s, Reports P (f s))
    (hsame : ∀ ds s, f (noting ds s) = f s) : Reports P (get >>= f) := by
  intro s
  obtain ⟨more, hmore, hwork⟩ := hf s s
  refine ⟨more, hmore, fun ds => ?_⟩
  have hget : ∀ s, (get >>= f : EStateM ε σ α) s = f s s := fun _ => rfl
  rw [hget, hget, hsame, hwork]

/-- A change of the state that leaves the findings alone and does not depend on them. -/
theorem reports_modify {change : σ → σ}
    (hchange : ∀ ds s, change (noting ds s) = noting ds (change s)) :
    Reports P (modify change : EStateM ε σ Unit) := by
  intro s
  refine ⟨[], by simp, fun ds => ?_⟩
  have hmodify : ∀ s, (modify change : EStateM ε σ Unit) s = .ok () (change s) := fun _ => rfl
  rw [hmodify, hmodify, hchange, renoted, List.append_nil]

/-! ### Work without one finding -/

/-- The second work does what the first one does, but for one finding. -/
def Omits (f : Diagnostic) (x y : EStateM ε σ α) : Prop :=
  ∀ s, Ends x s
    (fun a t => ∃ before after, findings t = findings s ++ before ++ f :: after ∧
      y s = .ok a (noting (findings s ++ before ++ after) t))
    fun e t => ∃ ds, y s = .error e (noting ds t)

variable {f : Diagnostic} {x y : EStateM ε σ α}

/-- What comes first is the same. -/
theorem Omits.after {g h : α → EStateM ε σ β} (hwork : Reports P work)
    (hgh : ∀ a, Omits f (g a) (h a)) : Omits f (work >>= g) (work >>= h) := by
  intro s
  rw [ends_bind]
  unfold Ends
  cases hs : work s with
  | error e t => exact ⟨findings t, by rw [bind_of_error hs, Noting.noting_findings]⟩
  | ok a t =>
    obtain ⟨more, -, hfindings, -⟩ := hwork.of_ok hs
    rw [bind_of_ok hs]
    refine (hgh a t).mono (fun b u ⟨before, after, hu, hy⟩ => ⟨more ++ before, after, ?_, ?_⟩)
      fun e u he => he
    · rw [hu, hfindings, List.append_assoc (findings s)]
    · rw [hy, hfindings, List.append_assoc (findings s)]

/-- What comes afterwards is the same. -/
theorem Omits.before {g : α → EStateM ε σ β} (hxy : Omits f x y) (hg : ∀ a, Reports P (g a)) :
    Omits f (x >>= g) (y >>= g) := by
  intro s
  rw [ends_bind]
  refine (hxy s).mono (fun a t ⟨before, after, ht, hy⟩ => ?_) fun e t ⟨ds, hy⟩ =>
    ⟨ds, bind_of_error hy⟩
  rw [bind_of_ok hy]
  unfold Ends
  cases hgt : g a t with
  | error e u => exact (hg a).of_error hgt _
  | ok b u =>
    obtain ⟨more, -, hfindings, hother⟩ := (hg a).of_ok hgt
    refine ⟨before, after ++ more, ?_, ?_⟩
    · rw [hfindings, ht, List.append_assoc, List.cons_append]
    · rw [hother, List.append_assoc (findings s ++ before)]

end Work

/-! ### Resolutions -/

namespace Resolution

variable {α β : Type} {P : Diagnostic → Prop}

theorem reports_ofExcept (value : Except CompileError α) : Reports P (ofExcept value) := by
  cases value with
  | ok a => exact reports_pure a
  | error cause => exact reports_throw _

theorem reports_report {fs : List Diagnostic} (h : ∀ f ∈ fs, P f) : Reports P (report fs) :=
  fun _ => ⟨fs, h, fun _ => rfl⟩

theorem reports_remember (pointer : String) (node : Node) : Reports P (remember pointer node) :=
  reports_modify fun _ _ => rfl

theorem reports_issue (body : Body) (name description : Option String) (default : Option Json) :
    Reports P (issue body name description default) := fun s =>
  ⟨[], by simp, fun ds => by rw [List.append_nil]; rfl⟩

theorem reports_within {frame : Frame} {work : Resolution α} (h : Reports P work) :
    Reports P (within frame work) := by
  intro s
  obtain ⟨more, hmore, hwork⟩ := h { s with stack := frame :: s.stack }
  refine ⟨more, hmore, fun ds => ?_⟩
  have hnoting : ({ noting ds s with stack := frame :: (noting ds s).stack } : Session) =
      noting ds { s with stack := frame :: s.stack } := rfl
  simp only [within, hnoting, hwork]
  cases work { s with stack := frame :: s.stack } <;> rfl

theorem reports_eachFrom {work : Nat → α → Resolution β} (h : ∀ i a, Reports P (work i a)) :
    ∀ (as : List α) (index : Nat), Reports P (eachFrom work index as)
  | [], _ => reports_pure _
  | a :: rest, index =>
    (h index a).bind fun _ => (reports_eachFrom h rest (index + 1)).bind fun _ => reports_pure _

theorem reports_each {work : α → Resolution β} (h : ∀ a, Reports P (work a)) :
    ∀ as : List α, Reports P (each work as)
  | [] => reports_pure _
  | a :: rest => (h a).bind fun _ => (reports_each h rest).bind fun _ => reports_pure _

end Resolution

open Resolution

/-! ### Steps -/

/-- A finding that nothing was left out for. -/
def Diagnostic.IsWarning (f : Diagnostic) : Prop := f.severity = .warning

/-- A warning that is not about a response. -/
def Diagnostic.IsRemark (f : Diagnostic) : Prop := f.IsWarning ∧ f.code ≠ .invalidResponseStatus

theorem Diagnostic.isRemark_warning {code : DiagnosticCode} {location message : String}
    (h : code ≠ .invalidResponseStatus) : (Diagnostic.warning code location message).IsRemark :=
  ⟨rfl, h⟩

theorem Reports.warns {ε σ α : Type} [Noting σ] {work : EStateM ε σ α}
    (h : Reports Diagnostic.IsRemark work) : Reports Diagnostic.IsWarning work :=
  h.mono fun _ hf => hf.1

/-- What is found when the properties of a fragment are added are warnings. -/
theorem addProperties_warns (location : String) (index : Nat) :
    ∀ (properties declared : List (String × Node)),
      ∀ f ∈ (ObjectParts.addProperties location index declared properties).2, f.IsRemark
  | [], _ => by simp [ObjectParts.addProperties]
  | property :: rest, declared => by
    intro f hf
    rw [ObjectParts.addProperties, List.mem_append] at hf
    rcases hf with hf | hf
    · unfold ObjectParts.redeclaration at hf
      split at hf
      · split at hf
        · simp at hf
        · rw [List.mem_singleton.1 hf]
          exact Diagnostic.isRemark_warning (by decide)
      · simp at hf
    · exact addProperties_warns location index rest _ f hf

/-- What is found when fragments are added are warnings. -/
theorem addFragments_warns (location : String) :
    ∀ (nodes : List Node) (index : Nat) (parts : ObjectParts),
      ∀ f ∈ (ObjectParts.addFragments location index parts nodes).2, f.IsRemark
  | [], _, _ => by simp [ObjectParts.addFragments]
  | n :: rest, index, parts => by
    intro f hf
    rw [ObjectParts.addFragments, List.mem_append] at hf
    rcases hf with hf | hf
    · unfold ObjectParts.addFragment at hf
      split at hf
      · exact addProperties_warns location _ _ _ f hf
      · simp at hf
      · rw [List.mem_singleton.1 hf]
        exact Diagnostic.isRemark_warning (by decide)
    · exact addFragments_warns location rest _ _ f hf

/-- What is found when fragments are merged are warnings. -/
theorem mergeFragments_warns (fragments : List Node) (location : String) :
    ∀ f ∈ (mergeFragments fragments location).2, f.IsRemark := by
  unfold mergeFragments
  split
  · exact addFragments_warns location _ _ _
  · split
    · simp
    · simp
    · exact addFragments_warns location _ _ _

/-- What is found about a union are warnings. -/
theorem classify_warns {keyword : UnionKeyword} {variants : List Variant}
    {discriminator : Option Discriminator} {location : String} {body : Body}
    {fs : List Diagnostic}
    (h : classify keyword variants discriminator location = .ok (body, fs)) :
    ∀ f ∈ fs, f.IsRemark := by
  unfold classify taggingOf at h
  split at h
  · simp only [Except.map, Except.ok.injEq, Prod.mk.injEq] at h
    simp [← h.2]
  · simp only [Except.map, Except.ok.injEq, Prod.mk.injEq] at h
    rw [← h.2]
    simp [ignoredDiscriminator, Diagnostic.warning, Diagnostic.IsRemark, Diagnostic.IsWarning]
  · rename_i d
    cases htags : tagsOf d location 0 (variants.filter fun v => !v.node.shape.isNull) with
    | error e => simp [htags, Except.map] at h
    | ok tags =>
      simp only [htags, Except.map, Except.ok.injEq, Prod.mk.injEq] at h
      simp [← h.2]

namespace Follow

variable {follow : Follow} {d : Document} (hfollow : ∀ r, Reports Diagnostic.IsRemark (follow r))

theorem reports_referring (target : Node) (s : Schema) (name : Option String) :
    Reports Diagnostic.IsRemark (referring target s name) := by
  unfold referring
  split
  · exact reports_pure _
  · exact reports_issue _ _ _ _

include hfollow

theorem reports_expand (pointer : String) (target : Target) (link fresh : Bool) :
    Reports Diagnostic.IsRemark (expand follow pointer target link fresh) :=
  reports_within (hfollow _)

theorem reports_partOf (target : Target) (location : String) :
    Reports Diagnostic.IsRemark (partOf follow target location) := by
  unfold partOf
  split
  · exact reports_pure _
  · refine reports_get (fun s => ?_) fun _ _ => rfl
    split
    · exact reports_pure _
    · exact (hfollow _).bind fun _ => reports_pure _

theorem reports_reference (pointer location : String) (link : Bool) :
    Reports Diagnostic.IsRemark (reference follow d pointer location link) := by
  refine (reports_ofExcept _).bind fun target => reports_get (fun s => ?_) fun _ _ => rfl
  split
  · exact reports_pure _
  · split
    · split
      · exact reports_issue _ _ _ _
      · exact reports_throw _
    · refine (reports_partOf hfollow target location).bind fun part => ?_
      cases part with
      | some node =>
        exact (reports_pure node).bind fun _ => (reports_remember _ _).bind fun _ => reports_pure _
      | none =>
        exact (reports_expand hfollow _ _ _ _).bind fun _ =>
          (reports_remember _ _).bind fun _ => reports_pure _

theorem reports_fragment (pointer location : String) (spine : Bool) :
    Reports Diagnostic.IsRemark (fragment follow d pointer location spine) := by
  refine (reports_ofExcept _).bind fun target => reports_get (fun s => ?_) fun _ _ => rfl
  split
  · exact reports_throw _
  · split
    · split
      · exact reports_throw _
      · exact reports_expand hfollow _ _ _ _
    · exact reports_reference hfollow _ _ _

theorem reports_object (s : Schema) (location : String) :
    Reports Diagnostic.IsRemark (object follow s location) := by
  have hproperty : ∀ property,
      Reports Diagnostic.IsRemark (propertyNode follow location property) :=
    fun _ => (hfollow _).bind fun _ => reports_pure _
  have hadditional : Reports Diagnostic.IsRemark (additionalNode follow s location) := by
    unfold additionalNode
    split
    · exact reports_pure _
    · exact reports_pure _
    · exact (reports_issue _ _ _ _).bind fun _ => reports_pure _
    · exact (hfollow _).bind fun _ => reports_pure _
  exact (reports_each hproperty _).bind fun _ => hadditional.bind fun _ => reports_pure _

theorem reports_array (s : Schema) (location : String) :
    Reports Diagnostic.IsRemark (array follow s location) := by
  unfold array
  split
  · exact (hfollow _).bind fun _ => reports_pure _
  · exact (reports_issue _ _ _ _).bind fun _ => reports_pure _

theorem reports_typed (typeName : String) (s : Schema) (location : String) :
    Reports Diagnostic.IsRemark (typed follow typeName s location) := by
  unfold typed
  split
  · exact reports_pure _
  · exact reports_pure _
  · exact reports_pure _
  · exact reports_pure _
  · exact reports_object hfollow s location
  · exact reports_array hfollow s location
  · exact reports_pure _

theorem reports_plainShape (s : Schema) (location : String) :
    Reports Diagnostic.IsRemark (plainShape follow s location) := by
  unfold plainShape
  split
  · unfold untyped
    split
    · exact reports_pure _
    · split
      · exact reports_object hfollow s location
      · split
        · exact reports_array hfollow s location
        · exact reports_pure _
  · exact reports_typed hfollow _ s location
  · exact (reports_each (fun name => (reports_typed hfollow name s location).bind fun _ =>
      reports_issue _ _ _ _) _).bind fun _ => reports_pure _

theorem reports_union (s : Schema) (keyword : UnionKeyword) (members : List Schema)
    (location : String) (name : Option String) :
    Reports Diagnostic.IsRemark (union follow d s keyword members location name) := by
  have hvariant : ∀ i m, Reports Diagnostic.IsRemark (variant follow d s keyword location i m) :=
    fun _ _ => (hfollow _).bind fun _ => reports_pure _
  refine (reports_eachFrom hvariant _ _).bind fun variants => ?_
  cases hclassify : classify keyword variants s.discriminator location with
  | error cause => exact reports_throw (Interruption.rejected cause)
  | ok result =>
    exact (reports_report (classify_warns hclassify)).bind fun _ => reports_issue _ _ _ _

theorem reports_composition (s : Schema) (location : String) (name : Option String)
    (spine : Bool) : Reports Diagnostic.IsRemark (composition follow s location name spine) := by
  have hfragment : ∀ i f,
      Reports Diagnostic.IsRemark (fragmentNode follow location spine i f) := by
    intro i f
    unfold fragmentNode
    split
    · exact hfollow _
    · exact hfollow _
  have hown : Reports Diagnostic.IsRemark (ownFragment follow s location) := by
    unfold ownFragment
    split
    · exact reports_pure _
    · exact (reports_object hfollow s location).bind fun _ =>
        (reports_issue _ _ _ _).bind fun _ => reports_pure _
  unfold composition
  split
  · exact (hfollow _).bind fun _ => reports_referring _ _ _
  · exact (reports_eachFrom hfragment _ _).bind fun _ => hown.bind fun _ =>
      (reports_report (mergeFragments_warns _ _)).bind fun _ => reports_issue _ _ _ _

theorem reports_schema (s : Schema) (location : String) (name : Option String) (spine : Bool) :
    Reports Diagnostic.IsRemark (schema follow d s location name spine) := by
  unfold schema
  split
  · exact (hfollow _).bind fun _ => reports_referring _ _ _
  · split
    · exact reports_composition hfollow s location name spine
    · split
      · exact reports_union hfollow s _ _ location name
      · split
        · exact reports_union hfollow s _ _ location name
        · split
          · exact reports_issue _ _ _ _
          · exact reports_issue _ _ _ _
          · exact (reports_plainShape hfollow s location).bind fun _ => reports_issue _ _ _ _

end Follow

namespace Document

/-- **Resolutions report warnings only**, none of them about a response, and do not depend on what
has been reported. -/
theorem follow_reports (d : Document) :
    ∀ depth r, Reports Diagnostic.IsRemark (d.follow depth r)
  | 0, _ => reports_throw _
  | depth + 1, .reference .. => Follow.reports_reference (d.follow_reports depth) _ _ _
  | depth + 1, .fragment .. => Follow.reports_fragment (d.follow_reports depth) _ _ _
  | depth + 1, .schema .. => Follow.reports_schema (d.follow_reports depth) _ _ _ _

end Document

end ApiBinding
