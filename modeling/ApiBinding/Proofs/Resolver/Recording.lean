import ApiBinding.Proofs.Resolver.Origins

/-!
# Recording the nodes of schemas

The schemas inside a schema are resolved in regions that have nothing in common, since different
steps lead to them.  When all of them are done, the node of the schema itself is recorded at the
place of the schema, where there is no other one.  If several type names are listed, the object
among them is recorded there instead; if one of them is listed twice, the place is visited again.

## Main definitions

* `Placed` — a schema with its place.
* `Step.typeName?` — the type name under which a step is taken.

## Main results

* `Logs.record` — the node of a schema is recorded after the schemas inside.
* `Logging.run` — **all requests of a run are confined**, so that the answers are recorded.
-/

namespace ApiBinding

open Resolution

/-- The schema stands at the steps from an entry that is not closed. -/
structure Placed (config : Config) (d : Document) (stack : List Frame) (e : Entry)
    (base : List Step) (s : Schema) : Prop where
  opened : e.Open stack
  begins : ∃ root, d.Begins config e root ∧ root.descend? base = some s

section Rules

variable {config : Config} {d : Document} {stack : List Frame} {given : List Node}
  {R : Site → Prop} {e : Entry} {base : List Step} {s t : Schema} {α β : Type}

theorem Placed.child (h : Placed config d stack e base s) {step : Step}
    (ht : s.child? step = some t) : Placed config d stack e (base ++ [step]) t := by
  obtain ⟨root, hroot, hs⟩ := h.begins
  exact ⟨h.opened, root, hroot, Schema.descend?_concat hs ht⟩

/-- Regions beyond different first steps. -/
theorem splits_under {S S₁ S₂ : Option Step → Prop} (he : e.Open stack) (h₁ : ∀ o, S₁ o → S o)
    (h₂ : ∀ o, S₂ o → S o) (h : ∀ o, S₁ o → ¬ S₂ o) :
    Splits config d stack (Site.Under e base S) (Site.Under e base S₁) (Site.Under e base S₂) where
  left _ hσ := hσ.mono h₁
  right _ hσ := hσ.mono h₂
  opened σ hσ := hσ.1 ▸ he
  apart σ hσ hσ' := by
    obtain ⟨o, ho, ho'⟩ := hσ.meet hσ'
    exact absurd ho' (h o ho)

/-! ### Nodes that are made -/

/-- Work that neither opens nor keeps anything, on nodes that are given. -/
theorem logs_alike {work : Resolution α} {nodes : α → List Node}
    (h : ∀ s, Ends work s (fun a t => s.Alike t ∧ nodes a ⊆ given) fun _ _ => True) :
    Logs config d (Tracks config d stack) stack given R work nodes := fun s L hs hgiven _ =>
  (h s).mono_ok fun _ _ hend => ⟨L, hs.alike hend.1, .refl L, fun m hm => hgiven m (hend.2 hm)⟩

theorem logs_report {findings : List Diagnostic} :
    Logs config d (Tracks config d stack) stack given R (report findings) fun _ => [] :=
  logs_alike fun _ => ⟨report_alike, List.nil_subset _⟩

/-- The parts of a node are those of its body. -/
theorem logs_issue {body : Body} {name description : Option String} {default : Option Json}
    (h : body.shape.parts ⊆ given) :
    Logs config d (Tracks config d stack) stack given R (issue body name description default)
      fun n => n.shape.parts :=
  logs_alike fun _ => ⟨issue_alike, h⟩

/-- More nodes are recorded, from what is known of the result. -/
theorem Logs.imp {T : Session → Ledger → Prop} {work : Resolution α} {nodes nodes' : α → List Node}
    {P : α → Prop} (h : Logs config d T stack given R work nodes)
    (hwork : ∀ s, Ends work s (fun a _ => P a) fun _ _ => True)
    (hP : ∀ a L, P a → (∀ m ∈ nodes a, m.Recorded L) → ∀ m ∈ nodes' a, m.Recorded L) :
    Logs config d T stack given R work nodes' := fun s L hs hgiven hvacant =>
  ((h s L hs hgiven hvacant).and (hwork s)).mono (fun a _ hend => hend.1.imp
    fun L' hL' => ⟨hL'.1, hL'.2.1, hP a L' hend.2 hL'.2.2⟩) fun _ _ _ => trivial

/-- The parts of a node that is recorded are recorded. -/
theorem Logs.parts {T : Session → Ledger → Prop} {work : Resolution Node}
    (h : Logs config d T stack given R work fun n => [n]) :
    Logs config d T stack given R work fun n => n.shape.parts :=
  h.imp (P := fun _ => True) (fun s => by unfold Ends; split <;> trivial) fun n L _ hn =>
    (hn n (List.mem_singleton_self n)).parts

/-- A node without a model of its own is recorded if its parts are. -/
theorem Logs.plain {T : Session → Ledger → Prop} {work : Resolution Node}
    (h : Logs config d T stack given R work fun n => n.shape.parts)
    (hwork : ∀ s, Ends work s (fun n _ => n.shape.getsModel = false) fun _ _ => True) :
    Logs config d T stack given R work fun n => [n] :=
  h.imp hwork fun n L hshape hparts m hm => by
    rw [List.mem_singleton] at hm
    subst hm
    exact Node.recorded_of_parts hshape hparts

theorem logs_issuePlain {shape : Shape Node} (hshape : shape.getsModel = false)
    (h : shape.parts ⊆ given) :
    Logs config d (Tracks config d stack) stack given R (issuePlain shape) fun n => [n] :=
  (logs_issue h).plain fun _ => hshape

/-- **A node is recorded after its parts**, at the place from which the steps into the region
lead. -/
theorem Logs.record {work : Resolution Node} {S : Option Step → Prop} (he : e.Open stack)
    (h : Logs config d (Tracks config d stack) stack given
      (Site.Under e base fun o => o ≠ none ∧ S o) work fun n => n.shape.parts)
    (hmade : ∀ s, Ends work s (fun n _ => n.Inline → S none ∧ d.MadeAt config ⟨e, base⟩ n)
      fun _ _ => True) :
    Logs config d (Tracks config d stack) stack given (Site.Under e base S) work fun n => [n] := by
  intro s L hs hgiven hvacant
  have hinner := h s L hs hgiven (hvacant.mono fun σ hσ => hσ.mono fun _ ho => ho.2)
  refine (hinner.and (hmade s)).mono (fun n t hend => ?_) fun _ _ _ => trivial
  obtain ⟨⟨L', ht, hgrows, hparts⟩, hn⟩ := hend
  have hgrows' : L.Grows config d stack (Site.Under e base S) L' :=
    hgrows.mono fun σ hσ => hσ.mono fun _ ho => ho.2
  by_cases hinline : n.Inline
  · obtain ⟨hS, hmadeAt⟩ := hn hinline
    -- The node's own place is not in the region of its parts, so it is vacant still.
    have hsplit : Splits config d stack (Site.Under e base S)
        (Site.Under e base fun o => o ≠ none ∧ S o) (Site.Under e base (· = none)) :=
      splits_under he (fun _ ho => ho.2) (fun o ho => ho ▸ hS) fun _ ho => ho.1
    have hfree : L'.Vacant config d (· = ⟨e, base⟩) :=
      ((hvacant.mono hsplit.right).grows hsplit hgrows).mono fun σ hσ => hσ ▸ Site.under_base rfl
    have hmem : (⟨e, base⟩, n) ∈ (⟨e, base⟩, n) :: L' := List.mem_cons_self
    refine ⟨_, ht.record hmadeAt he hfree, hgrows'.trans ⟨List.subset_cons_self _ _, ?_⟩, ?_⟩
    · intro x hx
      rcases List.mem_cons.1 hx with rfl | hx
      · exact .inr (.inl (Site.under_base hS))
      · exact .inl hx
    · intro m hm
      rw [List.mem_singleton] at hm
      subst hm
      exact Node.recorded_iff.2 ⟨fun _ => ⟨_, hmem⟩, fun k hk =>
        (hparts k hk).mono (List.subset_cons_self _ _)⟩
  · refine ⟨L', ht, hgrows', fun m hm => ?_⟩
    rw [List.mem_singleton] at hm
    subst hm
    exact Node.recorded_iff.2 ⟨fun h => absurd h hinline, hparts⟩

theorem logs_ofExcept {x : Except CompileError α} {nodes : α → List Node}
    (h : ∀ a, x = .ok a → nodes a ⊆ given) :
    Logs config d (Tracks config d stack) stack given R (ofExcept x) nodes :=
  logs_alike fun s => ends_ofExcept.2 ⟨fun a ha => ⟨.refl s, h a ha⟩, fun _ _ => trivial⟩

theorem Resolution.each_eq_eachFrom (work : α → Resolution β) :
    ∀ (xs : List α) (k : Nat), each work xs = eachFrom (fun _ => work) k xs
  | [], _ => rfl
  | _ :: rest, k => by rw [each, eachFrom, each_eq_eachFrom work rest (k + 1)]

end Rules

/-! ### Objects and arrays -/

/-- The type name under which a schema is left by a first step; the place itself is that of an
object. -/
def Step.typeName? : Option Step → Option String
  | none => some "object"
  | some (.property _) => some "object"
  | some .additional => some "object"
  | some .items => some "array"
  | some _ => none

/-- The first steps under a type name. -/
def Step.Under (typeName : String) (o : Option Step) : Prop :=
  o ≠ none ∧ Step.typeName? o = some typeName

theorem Document.Supplies.brings {d : Document} {follow : Follow} (h : d.Supplies follow)
    (r : Request) :
    Brings (fun _ => True) (fun _ _ => True) (follow r) fun n _ => d.Arises r n :=
  h.steady.brings fun s _ => (h.ends r s).mono_ok fun _ _ hn => ⟨trivial, hn⟩

section Schemas

variable {config : Config} {d : Document} {follow : Follow} {stack : List Frame}
  {given : List Node} {e : Entry} {base : List Step} {s t : Schema} {location : String}

/-- A schema directly inside is resolved beyond its step. -/
theorem Logging.child (h : Logging config d follow) (hplace : Placed config d stack e base s)
    {step : Step} (ht : s.child? step = some t) {spine : Bool}
    (hled : Led config d stack (.schema t location none spine)) :
    Logs config d (Tracks config d stack) stack given (Site.Under e base (· = some step))
      (follow (.schema t location none spine)) fun n => [n] := by
  have hinner := hplace.child ht
  obtain ⟨root, hroot, hs⟩ := hinner.begins
  have hlocated : Located config d stack (Site.Under e (base ++ [step]) fun _ => True)
      (.schema t location none spine) := by
    exact .schema hinner.opened hroot hs fun hbody => absurd hbody.1 (by simp)
  exact (h stack _ _ hled hlocated).mono (List.nil_subset _) (fun _ hσ => hσ.child)
    fun _ => List.Subset.refl _

theorem Logging.object (h : Logging config d follow) (hplace : Placed config d stack e base s)
    (hled : ∀ t, ObjectPart s t → ∀ l, Led config d stack (.schema t l none false)) :
    Logs config d (Tracks config d stack) stack given (Site.Under e base (Step.Under "object"))
      (Follow.object follow s location) Shape.parts := by
  have hproperties : Logs config d (Tracks config d stack) stack given
      (Site.Under e base fun o => ∃ i, o = some (.property i))
      (each (Follow.propertyNode follow location) s.properties) fun es =>
        es.flatMap fun property => [property.2] := by
    rw [each_eq_eachFrom _ _ 0]
    refine (logs_eachFrom (R := fun i => Site.Under e base (· = some (.property i)))
      (fun _ _ hσ => hσ.1 ▸ hplace.opened) (fun i j σ hij hσ hσ' => ?_) s.properties 0
      fun i p hi => ?_).mono (List.Subset.refl _)
      (fun _ ⟨i, _, hσ⟩ => hσ.mono fun _ ho => ⟨i, ho⟩) fun _ => List.Subset.refl _
    · obtain ⟨o, ho, ho'⟩ := hσ.meet hσ'
      simp_all
    · have hchild : s.child? (.property (0 + i)) = some p.2 := by
        rw [Nat.zero_add, Schema.child?, hi]
        rfl
      have hpart := hled p.2 (.property (List.mem_of_getElem? hi))
      exact (h.child hplace hchild (hpart _)).into fun _ => List.subset_append_left _ _
  have hadditional : ∀ given, Logs config d (Tracks config d stack) stack given
      (Site.Under e base (· = some .additional)) (Follow.additionalNode follow s location)
      Option.toList := by
    intro given
    unfold Follow.additionalNode
    split
    · exact logs_pure (by simp)
    · exact logs_pure (by simp)
    · exact (logs_issuePlain rfl (by simp [Shape.parts])).into fun _ => by simp
    · rename_i inner hinner
      exact (h.child hplace (Schema.child?_additional hinner)
        (hled inner (.additional hinner) _)).into fun _ => by simp
  refine hproperties.bind (splits_under hplace.opened ?_ ?_ ?_) fun es =>
    (hadditional _).into fun additional => ?_
  · rintro o ⟨i, rfl⟩
    exact ⟨by simp, rfl⟩
  · rintro o rfl
    exact ⟨by simp, rfl⟩
  · rintro o ⟨i, rfl⟩
    simp
  · intro m hm
    rcases Shape.mem_parts_object.1 hm with ⟨property, hproperty, rfl⟩ | hm
    · refine List.mem_append_right _ (List.mem_append_left _ ?_)
      exact List.mem_flatMap.2 ⟨property, hproperty, List.mem_singleton_self _⟩
    · exact List.mem_append_left _ (Option.mem_toList.2 hm)

theorem Logging.array (h : Logging config d follow) (hplace : Placed config d stack e base s)
    (hled : ∀ t, s.items = some t → ∀ l, Led config d stack (.schema t l none false)) :
    Logs config d (Tracks config d stack) stack given (Site.Under e base (Step.Under "array"))
      (Follow.array follow s location) Shape.parts := by
  unfold Follow.array
  split
  · rename_i items hitems
    have hchild : s.child? .items = some items := hitems
    refine ((h.child hplace hchild (hled items hitems _)).mono (List.Subset.refl _)
      (fun _ hσ => hσ.mono ?_) fun _ => List.Subset.refl _).into fun _ =>
        List.subset_append_left _ _
    rintro o rfl
    exact ⟨by simp, rfl⟩
  · exact (logs_issuePlain rfl (by simp [Shape.parts])).into fun _ => List.subset_append_left _ _

/-! ### Type names -/

/-- A schema is resolved under a type name in the region of that name. -/
theorem Logging.typed (h : Logging config d follow) (hplace : Placed config d stack e base s)
    {typeName : String}
    (hobject : typeName = "object" → ∀ t, ObjectPart s t → ∀ l,
      Led config d stack (.schema t l none false))
    (harray : typeName = "array" → ∀ t, s.items = some t → ∀ l,
      Led config d stack (.schema t l none false)) :
    Logs config d (Tracks config d stack) stack given (Site.Under e base (Step.Under typeName))
      (Follow.typed follow typeName s location) Shape.parts := by
  unfold Follow.typed
  split
  · exact logs_pure (by simp [Shape.parts])
  · exact logs_pure (by simp [Shape.parts])
  · exact logs_pure (by simp [Shape.parts])
  · exact logs_pure (by simp [Shape.parts])
  · exact h.object hplace (hobject rfl)
  · exact h.array hplace (harray rfl)
  · exact logs_pure (by simp [Shape.parts])

/-- A type name that is listed decides which schemas inside are resolved. -/
theorem Logging.typedName (h : Logging config d follow) (hplace : Placed config d stack e base s)
    {typeName : String} (hmem : typeName ∈ s.typeNames)
    (hled : ∀ t, PlainPart s t → ∀ l, Led config d stack (.schema t l none false)) :
    Logs config d (Tracks config d stack) stack given (Site.Under e base (Step.Under typeName))
      (Follow.typed follow typeName s location) Shape.parts := by
  have hne : s.typeNames ≠ [] := List.ne_nil_of_mem hmem
  refine h.typed hplace (fun hname t ht => hled t (.object ?_ ht))
    fun hname t ht => hled t (.items ?_ ht)
  · unfold Schema.readsObject
    subst hname
    split <;> simp_all
  · unfold Schema.readsItems
    subst hname
    split <;> simp_all

theorem Logging.untyped (h : Logging config d follow) (hplace : Placed config d stack e base s)
    (hnames : s.typeNames = [])
    (hled : ∀ t, PlainPart s t → ∀ l, Led config d stack (.schema t l none false)) :
    Logs config d (Tracks config d stack) stack given (Site.Under e base (· ≠ none))
      (Follow.untyped follow s location) Shape.parts := by
  have heq : Follow.untyped follow s location =
      if s.isNullType then pure .null
      else if s.declaresObject then Follow.object follow s location
      else if s.items.isSome then Follow.array follow s location
      else pure .any := rfl
  rw [heq]
  by_cases hnull : s.isNullType
  · simp only [hnull, if_true]
    exact logs_pure (by simp [Shape.parts])
  by_cases hdecl : s.declaresObject
  · simp only [hnull, hdecl, if_true, if_false, Bool.false_eq_true]
    have hreads : s.readsObject := by simp [Schema.readsObject, hnames, hnull, hdecl]
    exact (h.object hplace fun t ht => hled t (.object hreads ht)).mono (List.Subset.refl _)
      (fun _ hσ => hσ.mono fun _ ho => ho.1) fun _ => List.Subset.refl _
  by_cases hitems : s.items.isSome
  · simp only [hnull, hdecl, hitems, if_true, if_false, Bool.false_eq_true]
    have hreads : s.readsItems := by simp [Schema.readsItems, hnames, hnull, hdecl, hitems]
    exact (h.array hplace fun t ht => hled t (.items hreads ht)).mono (List.Subset.refl _)
      (fun _ hσ => hσ.mono fun _ ho => ho.1) fun _ => List.Subset.refl _
  · simp only [hnull, hdecl, hitems, if_false, Bool.false_eq_true]
    exact logs_pure (by simp [Shape.parts])

/-- With one type name at most, the schemas inside are resolved beyond their steps. -/
theorem Logging.plainShape (h : Logging config d follow) (hplace : Placed config d stack e base s)
    (hnames : s.typeNames.length ≤ 1)
    (hled : ∀ t, PlainPart s t → ∀ l, Led config d stack (.schema t l none false)) :
    Logs config d (Tracks config d stack) stack given (Site.Under e base (· ≠ none))
      (Follow.plainShape follow s location) Shape.parts := by
  unfold Follow.plainShape
  rcases hlist : s.typeNames with _ | ⟨single, _ | ⟨second, rest⟩⟩
  · exact h.untyped hplace hlist hled
  · exact (h.typedName hplace (by simp [hlist]) hled).mono (List.Subset.refl _)
      (fun _ hσ => hσ.mono fun _ ho => ho.1) fun _ => List.Subset.refl _
  · simp [hlist] at hnames

/-- The shape for several type names is a union without tags. -/
theorem PlainFrom.union {Q : Request → Node → Prop} {shape : Shape Node} (h : PlainFrom Q s shape)
    (hnames : 1 < s.typeNames.length) : ∃ variants, shape = .union variants .untagged := by
  unfold PlainFrom at h
  split at h
  · simp_all
  · simp_all
  · exact h.imp fun _ hvariants => hvariants.1

/-- The shape for a type name gets a model only if it is that of an object. -/
theorem TypedFrom.object {Q : Request → Node → Prop} {typeName : String} {shape : Shape Node}
    (h : TypedFrom Q s typeName shape) (hshape : shape.getsModel) :
    typeName = "object" ∧ ObjectFrom Q s shape := by
  unfold TypedFrom at h
  split at h
  · simp [h, Shape.getsModel] at hshape
  · simp [h, Shape.getsModel] at hshape
  · simp [h, Shape.getsModel] at hshape
  · simp [h, Shape.getsModel] at hshape
  · exact ⟨rfl, h⟩
  · obtain ⟨n, rfl, -⟩ := h
    simp [Shape.getsModel] at hshape
  · simp [h, Shape.getsModel] at hshape

theorem Follow.plainShape_several (h : 1 < s.typeNames.length) :
    Follow.plainShape follow s location = (do
      let variants ← eachFrom
        (fun _ name => do issuePlain (← Follow.typed follow name s location)) 0 s.typeNames
      return .union variants .untagged) := by
  unfold Follow.plainShape
  split
  · simp_all
  · simp_all
  · rw [Resolution.each_eq_eachFrom _ _ 0]

/-- The node for one of several type names is recorded at the place of the schema if it is that of
an object. -/
theorem Logging.listedName (h : Logging config d follow) (hsupplies : d.Supplies follow)
    (hplace : Placed config d stack e base s) (hform : s.form none false = .plain)
    (hnames : 1 < s.typeNames.length)
    (hled : ∀ t, PlainPart s t → ∀ l, Led config d stack (.schema t l none false))
    {name : String} (hmem : name ∈ s.typeNames) :
    Logs config d (Tracks config d stack) stack given
      (Site.Under e base fun o => Step.typeName? o = some name)
      (do issuePlain (← Follow.typed follow name s location)) fun v => [v] := by
  obtain ⟨root, hroot, hs⟩ := hplace.begins
  refine Logs.record hplace.opened ?_ fun t => ?_
  · exact (h.typedName hplace hmem hled).bind splits_left fun shape =>
      logs_issue (List.subset_append_left _ _)
  · have hshape : Brings (fun _ => True) (fun _ _ => True)
        (Follow.typed follow name s location) fun shape _ => TypedFrom d.Arises s name shape :=
      brings_typed (Q := fun r n _ => d.Arises r n) (fun _ _ _ _ => trivial)
        (fun _ _ _ _ h _ => h) (fun _ _ _ _ => hsupplies.brings _)
        fun _ _ _ _ => hsupplies.brings _
    rw [ends_bind]
    refine (hshape t trivial).mono_ok fun shape u hu hinline => ?_
    obtain ⟨rfl, hobject⟩ := hu.2.2.object hinline.shape
    exact ⟨rfl, hinline, root, s, hroot, hs, .listed hform hmem hnames hobject⟩

/-- With several type names, each is resolved in its own region. -/
theorem Logging.listedShape (h : Logging config d follow) (hsupplies : d.Supplies follow)
    (hplace : Placed config d stack e base s) (hform : s.form none false = .plain)
    (hnames : 1 < s.typeNames.length)
    (hled : ∀ t, PlainPart s t → ∀ l, Led config d stack (.schema t l none false)) :
    Logs config d (Tracks config d stack) stack given (Site.Under e base fun _ => True)
      (Follow.plainShape follow s location) Shape.parts := by
  obtain ⟨root, hroot, hs⟩ := hplace.begins
  rw [Follow.plainShape_several hnames]
  refine ((logs_eachFrom (R := fun i σ => ∃ name, s.typeNames[i]? = some name ∧
    Site.Under e base (fun o => Step.typeName? o = some name) σ) ?_ ?_ s.typeNames 0
    fun i name hi => ?_).mono (List.Subset.refl _) ?_ fun _ => List.Subset.refl _).into
      fun vs m hm => List.mem_append_left _ (List.mem_flatMap.2 ⟨m, hm, List.mem_singleton_self m⟩)
  · rintro i σ ⟨name, -, hσ⟩
    exact hσ.1 ▸ hplace.opened
  · -- Where two regions meet, a type name is listed twice.
    rintro i j ⟨_, _⟩ hij ⟨name, hi, hσ⟩ ⟨name', hj, hσ'⟩
    obtain ⟨o, ho, ho'⟩ := hσ.meet hσ'
    obtain rfl : name = name' := by simpa [ho] using ho'
    obtain ⟨rfl, tail, rfl, -⟩ := hσ
    refine .listed hroot hs fun hnodup => hij ?_
    exact (List.getElem?_inj (List.getElem?_eq_some_iff.1 hi).1 hnodup).1 (hi.trans hj.symm)
  · rw [Nat.zero_add]
    have hmem := List.mem_of_getElem? hi
    exact (h.listedName hsupplies hplace hform hnames hled hmem).mono (List.Subset.refl _)
      (fun σ hσ => ⟨name, hi, hσ⟩) fun _ => List.Subset.refl _
  · rintro σ ⟨i, -, name, -, hσ⟩
    exact hσ.mono fun _ _ => trivial

/-! ### Unions and compositions -/

/-- The step to a member of a union. -/
def UnionKeyword.step : UnionKeyword → Nat → Step
  | .oneOf, index => .oneOf index
  | .anyOf, index => .anyOf index

theorem UnionKeyword.step_inj {keyword : UnionKeyword} {i j : Nat}
    (h : keyword.step i = keyword.step j) : i = j := by
  cases keyword <;> simpa [step] using h

/-- The members of a union are those of its keyword. -/
theorem Schema.child?_member {name : Option String} {spine : Bool} {keyword : UnionKeyword}
    {members : List Schema} (hform : s.form name spine = .union keyword members) (index : Nat) :
    s.child? (keyword.step index) = members[index]? := by
  cases Schema.formed_of_eq hform <;> rfl

/-- The members of a union are resolved beyond their steps. -/
theorem Logging.union (h : Logging config d follow) (hplace : Placed config d stack e base s)
    {keyword : UnionKeyword} {members : List Schema} {name : Option String}
    (hmembers : ∀ i, s.child? (keyword.step i) = members[i]?)
    (hled : ∀ m ∈ members, ∀ l, Led config d stack (.schema m l none false)) :
    Logs config d (Tracks config d stack) stack given (Site.Under e base (· ≠ none))
      (Follow.union follow d s keyword members location name) fun n => n.shape.parts := by
  have hvariants : Logs config d (Tracks config d stack) stack given
      (Site.Under e base (· ≠ none)) (eachFrom (Follow.variant follow d s keyword location) 0
        members) fun vs => vs.flatMap fun v => [v.node] := by
    refine (logs_eachFrom (R := fun i => Site.Under e base (· = some (keyword.step i)))
      (fun _ _ hσ => hσ.1 ▸ hplace.opened) (fun i j σ hij hσ hσ' => ?_) members 0
      fun i m hi => ?_).mono (List.Subset.refl _) ?_ fun _ => List.Subset.refl _
    · obtain ⟨o, ho, ho'⟩ := hσ.meet hσ'
      rw [ho, Option.some.injEq] at ho'
      exact absurd (UnionKeyword.step_inj ho') hij
    · rw [Nat.zero_add]
      exact (h.child hplace ((hmembers i).trans hi) (hled m (List.mem_of_getElem? hi) _)).into
        fun _ => List.subset_append_left _ _
    · rintro σ ⟨i, -, hσ⟩
      exact hσ.mono fun _ ho => by simp [ho]
  refine hvariants.bind splits_left fun variants => ?_
  have hclassified : ∀ R, Logs config d (Tracks config d stack) stack
      (variants.flatMap (fun v => [v.node]) ++ given) R
      (ofExcept (classify keyword variants s.discriminator location)) fun classified =>
        classified.1.shape.parts := by
    refine fun R => logs_ofExcept fun classified hclassify m hm => ?_
    obtain ⟨v, hv, rfl⟩ := Traits.Sound.mem_parts_classify hclassify hm
    exact List.mem_append_left _ (List.mem_flatMap.2 ⟨v, hv, List.mem_singleton_self _⟩)
  refine (hclassified _).bind splits_left fun classified => ?_
  exact logs_report.bind splits_left fun _ => logs_issue fun m hm => by simp [hm]

/-- Fragments that are no references are resolved beyond their steps. -/
theorem Logging.fragmentNode (h : Logging config d follow) (hplace : Placed config d stack e base s)
    {spine : Bool} {i : Nat} {f : Schema} (hi : s.allOf[i]? = some f)
    (hreference : ∀ p, f.reference = some p → ∀ l, Led config d stack (.fragment p l spine))
    (hinline : f.reference = none → ∀ l, Led config d stack (.schema f l none spine)) :
    Logs config d (Tracks config d stack) stack given (Site.Under e base (· = some (.allOf i)))
      (Follow.fragmentNode follow location spine i f) fun n => n.shape.parts := by
  unfold Follow.fragmentNode
  refine Logs.parts ?_
  split
  · rename_i p hp
    exact (h stack _ _ (hreference p hp _) .fragment).mono (List.nil_subset _)
      (fun _ hσ => hσ.elim) fun _ => List.Subset.refl _
  · rename_i hp
    have hchild : s.child? (.allOf i) = some f := hi
    exact h.child hplace hchild (hinline hp _)

/-- The fragment that a composition adds itself. -/
theorem Logging.ownFragment (h : Logging config d follow) (hplace : Placed config d stack e base s)
    (hled : s.addsFragment → ∀ t, ObjectPart s t → ∀ l,
      Led config d stack (.schema t l none false)) :
    Logs config d (Tracks config d stack) stack given (Site.Under e base (Step.Under "object"))
      (Follow.ownFragment follow s location) fun own => own.flatMap fun n => n.shape.parts := by
  unfold Follow.ownFragment
  split
  · exact logs_pure (by simp)
  · rename_i hadds
    have hadds' : s.addsFragment := by
      rwa [Schema.addsFragment, Bool.not_eq_true', ← Bool.not_eq_true]
    refine (h.object hplace (hled hadds')).bind splits_left fun shape => ?_
    have hown : ∀ R, Logs config d (Tracks config d stack) stack (shape.parts ++ given) R
        (issuePlain shape) fun n => n.shape.parts := fun _ =>
      logs_issue (List.subset_append_left _ _)
    exact (hown _).into fun n => by simp

/-- The parts of a composition are those of its fragments. -/
theorem Logging.flatten (h : Logging config d follow) (hplace : Placed config d stack e base s)
    {name : Option String} {spine : Bool}
    (hreference : ∀ f ∈ s.allOf, ∀ p, f.reference = some p → ∀ l,
      Led config d stack (.fragment p l spine))
    (hinline : ∀ f ∈ s.allOf, f.reference = none → ∀ l,
      Led config d stack (.schema f l none spine))
    (hown : s.addsFragment → ∀ t, ObjectPart s t → ∀ l,
      Led config d stack (.schema t l none false)) :
    Logs config d (Tracks config d stack) stack given (Site.Under e base (· ≠ none))
      (Follow.flatten follow s location name spine) fun n => n.shape.parts := by
  have hfragments : Logs config d (Tracks config d stack) stack given
      (Site.Under e base fun o => ∃ i, o = some (.allOf i))
      (eachFrom (Follow.fragmentNode follow location spine) 0 s.allOf) fun ns =>
        ns.flatMap fun n => n.shape.parts := by
    refine (logs_eachFrom (R := fun i => Site.Under e base (· = some (.allOf i)))
      (fun _ _ hσ => hσ.1 ▸ hplace.opened) (fun i j σ hij hσ hσ' => ?_) s.allOf 0
      fun i f hi => ?_).mono (List.Subset.refl _) ?_ fun _ => List.Subset.refl _
    · obtain ⟨o, ho, ho'⟩ := hσ.meet hσ'
      simp_all
    · rw [Nat.zero_add]
      have hf := List.mem_of_getElem? hi
      exact h.fragmentNode hplace hi (hreference f hf) (hinline f hf)
    · rintro σ ⟨i, -, hσ⟩
      exact hσ.mono fun _ ho => ⟨i, ho⟩
  have hsplit : Splits config d stack (Site.Under e base (· ≠ none))
      (Site.Under e base fun o => ∃ i, o = some (.allOf i))
      (Site.Under e base (Step.Under "object")) := by
    refine splits_under hplace.opened ?_ (fun _ ho => ho.1) ?_
    · rintro o ⟨i, rfl⟩
      simp
    · rintro o ⟨i, rfl⟩ ⟨-, hname⟩
      simp [Step.typeName?] at hname
  refine hfragments.bind hsplit fun fragments => ?_
  refine (h.ownFragment hplace hown).bind splits_left fun own => ?_
  refine logs_report.bind splits_left fun _ => logs_issue fun m hm => ?_
  obtain ⟨f, hf, hm⟩ := parts_mergeFragments hm
  simp only [List.nil_append, List.mem_append, List.mem_flatMap] at hf ⊢
  rcases hf with hf | hf
  · exact .inr (.inl ⟨f, hf, hm⟩)
  · exact .inl ⟨f, hf, hm⟩

/-! ### Schemas -/

/-- A reference is recorded if its target is. -/
theorem logs_referring {R : Site → Prop} {target : Node} {name : Option String}
    (h : target ∈ given) :
    Logs config d (Tracks config d stack) stack given R (Follow.referring target s name)
      fun n => [n] := by
  unfold Follow.referring
  split
  · exact logs_pure fun m hm => List.mem_singleton.1 hm ▸ h
  · exact (logs_issue (by simpa [Shape.parts] using h)).plain fun _ => rfl

/-- What is built for a schema is built from answers at moments of runs. -/
theorem Document.Supplies.built (h : d.Supplies follow) {name : Option String} {spine : Bool}
    (t : Session) :
    Ends (Follow.schema follow d s location name spine) t
      (fun n _ => Built d d.Arises s location name spine n) fun _ _ => True := by
  have hbrings : Brings (fun _ => True) (fun _ _ => True)
      (Follow.schema follow d s location name spine) _ :=
    Follow.schema_brings (Q := fun r n _ => d.Arises r n) (fun _ _ _ _ => trivial)
      (fun _ _ _ _ h _ => h) (fun _ _ _ _ _ _ _ _ _ => trivial) fun r _ => h.brings r
  exact (hbrings t trivial).mono_ok fun _ _ hn => hn.2.2

/-- A node of its own is recorded at the place of the schema, after the schemas inside. -/
theorem Logs.own (hsupplies : d.Supplies follow) (hplace : Placed config d stack e base s)
    {name : Option String} {spine : Bool} (hname : Site.IsBody ⟨e, base⟩ → name.isSome)
    (hown : s.Own name spine)
    (h : Logs config d (Tracks config d stack) stack given (Site.Under e base (· ≠ none))
      (Follow.schema follow d s location name spine) fun n => n.shape.parts) :
    Logs config d (Tracks config d stack) stack given (Site.Under e base fun _ => True)
      (Follow.schema follow d s location name spine) fun n => [n] := by
  obtain ⟨root, hroot, hs⟩ := hplace.begins
  refine Logs.record hplace.opened (h.mono (List.Subset.refl _) (fun _ hσ => hσ.mono
    fun _ ho => ⟨ho, trivial⟩) fun _ => List.Subset.refl _) fun t => ?_
  refine (hsupplies.built t).mono_ok fun n u hbuilt hinline => ⟨trivial, hinline, root, s, hroot,
    hs, ?_⟩
  obtain ⟨body, hannotated⟩ := hbuilt.annotated hown
  obtain rfl : name = none := hannotated.name.symm.trans hinline.name
  exact .whole (fun hbody => absurd (hname hbody) (by simp)) hown hbuilt

/-- What is built for several type names gets no model. -/
theorem Built.getsModel_several {Q : Request → Node → Prop} {name : Option String} {spine : Bool}
    {n : Node} (h : Built d Q s location name spine n) (hform : s.form name spine = .plain)
    (hnames : 1 < s.typeNames.length) : n.shape.getsModel = false := by
  rw [Built, hform] at h
  obtain ⟨shape, hshape, hn⟩ := h
  obtain ⟨variants, rfl⟩ := hshape.union hnames
  rw [hn.shape]
  rfl

/-- Several type names make a union without tags, which is not recorded itself. -/
theorem Logging.several (h : Logging config d follow) (hsupplies : d.Supplies follow)
    (hplace : Placed config d stack e base s) {name : Option String} {spine : Bool}
    (hform : s.form name spine = .plain) (hnames : 1 < s.typeNames.length)
    (hled : ∀ t, PlainPart s t → ∀ l, Led config d stack (.schema t l none false)) :
    Logs config d (Tracks config d stack) stack given (Site.Under e base fun _ => True)
      (Follow.schema follow d s location name spine) fun n => [n] := by
  refine Logs.plain ?_ fun t => (hsupplies.built t).mono_ok fun n u hbuilt =>
    hbuilt.getsModel_several hform hnames
  rw [Follow.schema_eq, hform]
  exact (h.listedShape hsupplies hplace (Schema.form_of_plain hform none false) hnames hled).bind
    splits_left fun shape => logs_issue (List.subset_append_left _ _)

/-- **The node of a schema is recorded**, at the place of the schema if it is one of its own. -/
theorem Logging.schema (h : Logging config d follow) (hsupplies : d.Supplies follow)
    (hplace : Placed config d stack e base s) {name : Option String} {spine : Bool}
    (hname : Site.IsBody ⟨e, base⟩ → name.isSome)
    (hled : Led config d stack (.schema s location name spine)) :
    Logs config d (Tracks config d stack) stack given (Site.Under e base fun _ => True)
      (Follow.schema follow d s location name spine) fun n => [n] := by
  have hreference : ∀ {p l}, Leads s name spine (.reference p l false) →
      Logs config d (Tracks config d stack) stack given (Site.Under e base fun _ => True)
        (follow (.reference p l false)) fun n => [n] := fun hleads =>
    (h stack _ _ (hled.leads hleads) .reference).mono (List.nil_subset _) (fun _ hσ => hσ.elim)
      fun _ => List.Subset.refl _
  cases hform : s.form name spine with
  | reference p =>
    rw [Follow.schema_eq, hform]
    exact (hreference (.reference hform)).bind splits_left fun _ => logs_referring (by simp)
  | wrapper p =>
    rw [Follow.schema_eq, hform]
    exact (hreference (.wrapper hform)).bind splits_left fun _ => logs_referring (by simp)
  | composition =>
    refine Logs.own hsupplies hplace hname ⟨by simp [hform], by simp [hform]⟩ ?_
    rw [Follow.schema_eq, hform]
    refine h.flatten hplace ?_ ?_ ?_
    · exact fun f hf p hp l => hled.leads (.fragment hform hf hp)
    · exact fun f hf hp l => hled.leads (.inline hform hf hp)
    · exact fun ha t ht l => hled.leads (.own hform ha ht)
  | union keyword members =>
    refine Logs.own hsupplies hplace hname ⟨by simp [hform], by simp [hform]⟩ ?_
    rw [Follow.schema_eq, hform]
    exact h.union hplace (Schema.child?_member hform) fun m hm l =>
      hled.leads (.member hform hm)
  | literals values =>
    refine Logs.own hsupplies hplace hname ⟨by simp [hform], by simp [hform]⟩ ?_
    rw [Follow.schema_eq, hform]
    exact logs_issue (by simp [parts_literals])
  | plain =>
    have hpart : ∀ t, PlainPart s t → ∀ l, Led config d stack (.schema t l none false) :=
      fun t ht l => hled.leads (.plain hform ht)
    rcases Nat.lt_or_ge 1 s.typeNames.length with hseveral | hone
    · exact h.several hsupplies hplace hform hseveral hpart
    · refine Logs.own hsupplies hplace hname ⟨by simp [hform], by simp [hform]⟩ ?_
      rw [Follow.schema_eq, hform]
      exact (h.plainShape hplace hone hpart).bind splits_left fun shape =>
        logs_issue (List.subset_append_left _ _)

/-! ### Runs -/

/-- One step is confined if the requests that it leads to are. -/
theorem Logging.step (h : Logging config d follow)
    (hhold : (passageClaims d).accounts.Hold d follow) (hsupplies : d.Supplies follow) :
    Logging config d (Follow.step follow d) := by
  intro stack R r hled hlocated
  cases hlocated with
  | @reference p location link =>
    intro s L hs _ _
    refine (h.reference hhold hsupplies.steady hs (hled.asked p false ⟨rfl, rfl⟩) hled.parts
      fun q hq => hled.reaching q hq p false ⟨rfl, rfl⟩).mono_ok fun n t hend => ?_
    exact hend.imp fun L' hL' => ⟨hL'.1, hL'.2.1, fun m hm => List.mem_singleton.1 hm ▸ hL'.2.2⟩
  | fragment =>
    intro s L hs _ _
    refine (h.fragment hhold hsupplies.steady hs hled).mono_ok fun n t hend => ?_
    exact hend.imp fun L' hL' => ⟨hL'.1, hL'.2.1, fun m hm => List.mem_singleton.1 hm ▸ hL'.2.2⟩
  | schema he hroot hs hname => exact h.schema hsupplies ⟨he, _, hroot, hs⟩ hname hled

/-- Where fewer requests are answered, no more is recorded. -/
theorem Follow.Restricts.logging {restricted : Follow} (h : restricted.Restricts follow)
    (hfollow : Logging config d follow) : Logging config d restricted := by
  intro stack R r hled hlocated s L hs hgiven hvacant
  rcases h r s with hsame | hinterrupted
  · have hends := hfollow stack R r hled hlocated s L hs hgiven hvacant
    unfold Ends at hends ⊢
    rwa [hsame]
  · exact (ends_of_error hinterrupted).2 trivial

/-- **All requests of a run are confined.** -/
theorem Logging.run (depth : Nat) : Logging config d (d.guarded depth) := by
  -- A step is confined if, besides, the claims about passages hold of the answers.
  have hrun : Logging config d (d.guarded depth) ∧
      (passageClaims d).accounts.Hold d (d.guarded depth) :=
    Document.guarded_induct
      (P := fun follow => Logging config d follow ∧ (passageClaims d).accounts.Hold d follow)
      (fun h hfollow => ⟨h.logging hfollow.1, h.meets (fun _ _ _ => trivial) hfollow.2⟩)
      ⟨fun _ _ _ _ _ _ _ _ _ _ => trivial, fun _ _ _ => trivial⟩
      (fun _ hsupplies hfollow => ⟨hfollow.1.step hfollow.2 hsupplies,
        hfollow.2.step (fun _ _ => trivial) (passageClaims_sound d).accounts hsupplies.steady⟩)
      depth
  exact hrun.1

end Schemas

end ApiBinding
