import ApiBinding.Proofs.Resolver.Requests

/-!
# Steps and runs

What a step does is said by rules of one form: if the requests that the step leads to
have answers of some kind, then the step ends in a certain way.  A run is made of
steps, so a promise about answers that every step keeps is kept by every run.

## Main definitions

* `Brings` — work that leads from sessions with an invariant to later ones.
* `Steady` — answers leave the open pointers and the kept nodes of components as they are.
* `Meets` — answers to the requests that meet a condition end as promised.

## Main results

* `Follow.schema_brings`, `Follow.reference_ends`, `Follow.enter_ends`,
  `Follow.fragment_ends` — the rules of the steps.
* `Document.follow_steady` — runs are steady.
* `Document.follow_meets` — a promise that every step keeps is kept by every run.
-/

namespace ApiBinding

open Resolution

/-! ### Steps -/

/-- Merge the fragments of a composition. -/
def Follow.flatten (follow : Follow) (s : Schema) (location : String) (name : Option String)
    (spine : Bool) : Resolution Node := do
  let fragments ← eachFrom (Follow.fragmentNode follow location spine) 0 s.allOf
  let own ← Follow.ownFragment follow s location
  report (mergeFragments (fragments ++ own) location).2
  annotate (mergeFragments (fragments ++ own) location).1 s name

/-- The step on a schema, by the keyword that decides. -/
def Follow.formed (follow : Follow) (d : Document) (s : Schema) (location : String)
    (name : Option String) (spine : Bool) : Form → Resolution Node
  | .reference p => do
    let target ← follow (.reference p location false)
    Follow.referring target s name
  | .wrapper p => do
    let target ← follow (.reference p (location ++ "/allOf/0") false)
    Follow.referring target s none
  | .composition => Follow.flatten follow s location name spine
  | .union keyword members => Follow.union follow d s keyword members location name
  | .literals values => annotate (Follow.literals values) s name
  | .plain => do
    let shape ← Follow.plainShape follow s location
    annotate ⟨shape, false⟩ s name

theorem Follow.schema_eq (follow : Follow) (d : Document) (s : Schema) (location : String)
    (name : Option String) (spine : Bool) :
    Follow.schema follow d s location name spine =
      Follow.formed follow d s location name spine (s.form name spine) := by
  unfold Follow.schema Schema.form Follow.composition
  cases s.reference with
  | some p => rfl
  | none =>
    by_cases ha : s.allOf.isEmpty
    · by_cases ho : s.oneOf.isEmpty
      · by_cases hy : s.anyOf.isEmpty
        · cases he : s.enumeration <;> cases hc : s.constant <;>
            simp [ha, ho, hy, Follow.formed]
        · simp [ha, ho, hy, Follow.formed]
      · simp [ha, ho, Follow.formed]
    · cases hw : Follow.wrapped? s name spine <;> simp [ha, Follow.formed, Follow.flatten]

section Steps

variable {follow : Follow} {d : Document} {I : Session → Prop}
  {E : Interruption → Session → Prop} {α β : Type}

/-- The work leads from a session with `I` to a later one with `I`, in which its result
meets `Q`. -/
def Brings (I : Session → Prop) (E : Interruption → Session → Prop) (work : Resolution α)
    (Q : α → Session → Prop) : Prop :=
  ∀ t, I t → Ends work t (fun a u => I u ∧ t.Later u ∧ Q a u) E

/-- What holds of a session also holds of later ones. -/
def Lasting (Q : Session → Prop) : Prop := ∀ t u, Q t → t.Later u → Q u

theorem brings_pure {a : α} {Q : α → Session → Prop} (h : ∀ t, Q a t) :
    Brings I E (pure a) Q := fun t ht => ⟨ht, .refl t, h t⟩

theorem Brings.bind {work : Resolution α} {f : α → Resolution β} {Q : α → Session → Prop}
    {R : β → Session → Prop} (h : Brings I E work Q)
    (hf : ∀ a, ∀ t, I t → Q a t → Ends (f a) t (fun b u => I u ∧ t.Later u ∧ R b u) E) :
    Brings I E (work >>= f) R := by
  intro t ht
  rw [ends_bind]
  refine (h t ht).mono_ok fun a u ⟨hu, htu, ha⟩ => ?_
  exact (hf a u hu ha).mono_ok fun b v ⟨hv, huv, hb⟩ => ⟨hv, htu.trans huv, hb⟩

theorem Brings.mono {work : Resolution α} {Q R : α → Session → Prop} (h : Brings I E work Q)
    (hqr : ∀ a t, Q a t → R a t) : Brings I E work R := fun t ht =>
  (h t ht).mono_ok fun a u ⟨hu, htu, ha⟩ => ⟨hu, htu, hqr a u ha⟩

/-- A result that is a function of an earlier result. -/
theorem Brings.map {work : Resolution α} {f : α → β} {Q : α → Session → Prop}
    {R : β → Session → Prop} (h : Brings I E work Q) (hqr : ∀ a t, Q a t → R (f a) t) :
    Brings I E (work >>= fun a => pure (f a)) R :=
  h.bind fun a t ht ha => ⟨ht, .refl t, hqr a t ha⟩

theorem brings_eachFrom {work : Nat → α → Resolution β} {Q : α → β → Session → Prop}
    (hQ : ∀ a b, Lasting (Q a b)) :
    ∀ (xs : List α) (index : Nat), (∀ a ∈ xs, ∀ i, Brings I E (work i a) (Q a)) →
      Brings I E (eachFrom work index xs) fun bs u => List.Forall₂ (fun a b => Q a b u) xs bs
  | [], _, _ => brings_pure fun _ => .nil
  | a :: rest, index, h => by
    refine (h a (.head _) index).bind fun b t ht hb => ?_
    have hrest := brings_eachFrom hQ rest (index + 1) fun a' ha' => h a' (.tail _ ha')
    rw [ends_bind]
    exact (hrest t ht).mono_ok fun bs u ⟨hu, htu, hbs⟩ =>
      ⟨hu, htu, .cons (hQ a b t u hb htu) hbs⟩

theorem brings_each {work : α → Resolution β} {Q : α → β → Session → Prop}
    (hQ : ∀ a b, Lasting (Q a b)) :
    ∀ (xs : List α), (∀ a ∈ xs, Brings I E (work a) (Q a)) →
      Brings I E (each work xs) fun bs u => List.Forall₂ (fun a b => Q a b u) xs bs
  | [], _ => brings_pure fun _ => .nil
  | a :: rest, h => by
    refine (h a (.head _)).bind fun b t ht hb => ?_
    have hrest := brings_each hQ rest fun a' ha' => h a' (.tail _ ha')
    rw [ends_bind]
    exact (hrest t ht).mono_ok fun bs u ⟨hu, htu, hbs⟩ =>
      ⟨hu, htu, .cons (hQ a b t u hb htu) hbs⟩


/-! ### Nodes that are made on the way -/

variable {Q : Request → Node → Session → Prop}

theorem brings_issue (hI : ∀ t u, t.Alike u → I t → I u) {body : Body}
    {name description : Option String} {default : Option Json} :
    Brings I E (issue body name description default) fun n _ =>
      n.shape = body.shape ∧ n.nullable = body.nullable ∧ n.name = name ∧
        n.description = description ∧ n.default = default := fun t ht =>
  ⟨hI t _ issue_alike ht, issue_alike.later, rfl, rfl, rfl, rfl, rfl⟩

theorem brings_issuePlain (hI : ∀ t u, t.Alike u → I t → I u) {shape : Shape Node} :
    Brings I E (issuePlain shape) fun n _ => n.shape = shape ∧ n.Bare :=
  (brings_issue hI).mono fun _ _ ⟨hs, hnullable, hname, hdescription, hdefault⟩ =>
    ⟨hs, hname, hdefault, hdescription, hnullable⟩

theorem brings_annotate (hI : ∀ t u, t.Alike u → I t → I u) {body : Body} {s : Schema}
    {name : Option String} :
    Brings I E (annotate body s name) fun n _ => Annotated body s name n :=
  (brings_issue hI).mono fun _ _ ⟨hs, hn, hm, hd, hf⟩ => ⟨hs, hn, hm, hd, hf⟩

theorem brings_report (hI : ∀ t u, t.Alike u → I t → I u) {findings : List Diagnostic} :
    Brings I E (report findings) fun _ _ => True := fun t ht =>
  ⟨hI t _ report_alike ht, report_alike.later, trivial⟩

/-! ### Objects, arrays and type names -/

section Inner

variable {s : Schema}

theorem brings_propertyNode {location : String} {p : String × Schema}
    (hp : ∀ l, Brings I E (follow (.schema p.2 l none false)) (Q (.schema p.2 l none false))) :
    Brings I E (Follow.propertyNode follow location p) fun e u =>
      e.1 = p.1 ∧ Answers (fun r n => Q r n u) p.2 e.2 :=
  (hp _).map fun _ _ h => ⟨rfl, _, h⟩

theorem brings_additionalNode (hI : ∀ t u, t.Alike u → I t → I u) {location : String}
    (hp : ∀ t, s.additional = some (.schema t) →
      ∀ l, Brings I E (follow (.schema t l none false)) (Q (.schema t l none false))) :
    Brings I E (Follow.additionalNode follow s location) fun additional u =>
      AdditionalFrom (fun r n => Q r n u) s.additional additional := by
  unfold Follow.additionalNode
  cases ha : s.additional with
  | none => exact brings_pure fun _ => rfl
  | some additional =>
    cases additional with
    | permitted value =>
      cases value with
      | false => exact brings_pure fun _ => rfl
      | true => exact (brings_issuePlain hI).map fun n _ h => ⟨n, rfl, h⟩
    | schema t => exact (hp t ha _).map fun n _ h => ⟨n, rfl, _, h⟩

theorem brings_object (hI : ∀ t u, t.Alike u → I t → I u) (hQ : ∀ r n, Lasting (Q r n))
    {location : String} (hp : ∀ t, ObjectPart s t →
      ∀ l, Brings I E (follow (.schema t l none false)) (Q (.schema t l none false))) :
    Brings I E (Follow.object follow s location) fun shape u =>
      ObjectFrom (fun r n => Q r n u) s shape := by
  have hprops : Brings I E (each (Follow.propertyNode follow location) s.properties)
      fun es u => List.Forall₂ (fun (p : String × Schema) e =>
        e.1 = p.1 ∧ Answers (fun r n => Q r n u) p.2 e.2) s.properties es :=
    brings_each (Q := fun (p : String × Schema) (e : String × Node) u =>
        e.1 = p.1 ∧ Answers (fun r n => Q r n u) p.2 e.2)
      (fun p e t u h htu => ⟨h.1, h.2.mono fun r n h => hQ r n t u h htu⟩)
      s.properties fun p hmem => brings_propertyNode (hp p.2 (.property hmem))
  refine hprops.bind fun es t ht hes => ?_
  have hadd : Brings I E (Follow.additionalNode follow s location) _ :=
    brings_additionalNode hI fun t ha => hp t (.additional ha)
  rw [ends_bind]
  refine (hadd t ht).mono_ok
    fun additional u ⟨hu, htu, ha⟩ => ⟨hu, htu, es, additional, rfl, ?_, ha⟩
  exact hes.imp fun p e h => ⟨h.1, h.2.mono fun r n h => hQ r n t u h htu⟩

theorem brings_array (hI : ∀ t u, t.Alike u → I t → I u) {location : String}
    (hp : ∀ t, s.items = some t →
      ∀ l, Brings I E (follow (.schema t l none false)) (Q (.schema t l none false))) :
    Brings I E (Follow.array follow s location) fun shape u =>
      ArrayFrom (fun r n => Q r n u) s shape := by
  unfold Follow.array ArrayFrom
  cases hi : s.items with
  | none => exact (brings_issuePlain hI).map fun n _ h => ⟨n, rfl, h⟩
  | some t => exact (hp t hi _).map fun n _ h => ⟨n, rfl, _, h⟩

theorem brings_typed (hI : ∀ t u, t.Alike u → I t → I u) (hQ : ∀ r n, Lasting (Q r n))
    {typeName location : String}
    (hobject : typeName = "object" → ∀ t, ObjectPart s t →
      ∀ l, Brings I E (follow (.schema t l none false)) (Q (.schema t l none false)))
    (harray : typeName = "array" → ∀ t, s.items = some t →
      ∀ l, Brings I E (follow (.schema t l none false)) (Q (.schema t l none false))) :
    Brings I E (Follow.typed follow typeName s location) fun shape u =>
      TypedFrom (fun r n => Q r n u) s typeName shape := by
  unfold Follow.typed TypedFrom
  split
  · exact brings_pure fun _ => rfl
  · exact brings_pure fun _ => rfl
  · exact brings_pure fun _ => rfl
  · exact brings_pure fun _ => rfl
  · exact brings_object hI hQ (hobject rfl)
  · exact brings_array hI (harray rfl)
  · exact brings_pure fun _ => by simp_all

theorem brings_untyped (hI : ∀ t u, t.Alike u → I t → I u) (hQ : ∀ r n, Lasting (Q r n))
    {location : String} (hnames : s.typeNames = []) (hp : ∀ t, PlainPart s t →
      ∀ l, Brings I E (follow (.schema t l none false)) (Q (.schema t l none false))) :
    Brings I E (Follow.untyped follow s location) fun shape u =>
      UntypedFrom (fun r n => Q r n u) s shape := by
  have heq : Follow.untyped follow s location =
      if s.isNullType then pure .null
      else if s.declaresObject then Follow.object follow s location
      else if s.items.isSome then Follow.array follow s location
      else pure .any := rfl
  rw [heq]
  unfold UntypedFrom
  by_cases hnull : s.isNullType
  · simpa only [hnull, if_true] using brings_pure fun _ => rfl
  by_cases hdecl : s.declaresObject
  · simp only [hnull, hdecl, if_true, if_false, Bool.false_eq_true]
    exact brings_object hI hQ fun t ht =>
      hp t (.object (by simp [Schema.readsObject, hnames, hnull, hdecl]) ht)
  by_cases hitems : s.items.isSome
  · simp only [hnull, hdecl, hitems, if_true, if_false, Bool.false_eq_true]
    exact brings_array hI fun t ht =>
      hp t (.items (by simp [Schema.readsItems, hnames, hnull, hdecl, hitems]) ht)
  · simpa only [hnull, hdecl, hitems, if_false, Bool.false_eq_true] using brings_pure fun _ => rfl

/-- The type names that a schema lists decide which of its parts are resolved. -/
theorem brings_typedName (hI : ∀ t u, t.Alike u → I t → I u) (hQ : ∀ r n, Lasting (Q r n))
    {typeName location : String} (hmem : typeName ∈ s.typeNames) (hp : ∀ t, PlainPart s t →
      ∀ l, Brings I E (follow (.schema t l none false)) (Q (.schema t l none false))) :
    Brings I E (Follow.typed follow typeName s location) fun shape u =>
      TypedFrom (fun r n => Q r n u) s typeName shape := by
  have hne : s.typeNames ≠ [] := List.ne_nil_of_mem hmem
  refine brings_typed hI hQ (fun h t ht => hp t (.object ?_ ht)) fun h t ht => hp t (.items ?_ ht)
  · unfold Schema.readsObject
    subst h
    split <;> simp_all
  · unfold Schema.readsItems
    subst h
    split <;> simp_all

theorem brings_plainShape (hI : ∀ t u, t.Alike u → I t → I u) (hQ : ∀ r n, Lasting (Q r n))
    {location : String} (hp : ∀ t, PlainPart s t →
      ∀ l, Brings I E (follow (.schema t l none false)) (Q (.schema t l none false))) :
    Brings I E (Follow.plainShape follow s location) fun shape u =>
      PlainFrom (fun r n => Q r n u) s shape := by
  unfold Follow.plainShape PlainFrom
  rcases hnames : s.typeNames with _ | ⟨single, _ | ⟨second, rest⟩⟩
  · exact brings_untyped hI hQ hnames hp
  · exact brings_typedName hI hQ (by simp [hnames]) hp
  · have heach : Brings I E
        (each (fun name => do issuePlain (← Follow.typed follow name s location))
          (single :: second :: rest))
        fun vs u => List.Forall₂ (fun name (v : Node) =>
          TypedFrom (fun r n => Q r n u) s name v.shape ∧ v.Bare)
          (single :: second :: rest) vs := by
      refine brings_each (Q := fun name (v : Node) u =>
        TypedFrom (fun r n => Q r n u) s name v.shape ∧ v.Bare)
        (fun name v t u h htu => h.imp_left fun h => h.mono fun r n h => hQ r n t u h htu) _
        fun name hmem => ?_
      refine (brings_typedName hI hQ (by rw [hnames]; exact hmem) hp).bind fun shape t ht h => ?_
      refine (brings_issuePlain (E := E) hI t ht).mono_ok fun v u ⟨hu, htu, hv, hbare⟩ =>
        ⟨hu, htu, ?_, hbare⟩
      rw [hv]
      exact h.mono fun r n h => hQ r n t u h htu
    exact heach.map fun vs u hvs => ⟨vs, rfl, hvs⟩

/-! ### Compositions, unions and references -/

theorem brings_referring (hI : ∀ t u, t.Alike u → I t → I u) {target : Node}
    {name : Option String} :
    Brings I E (Follow.referring target s name) fun n _ => RefersTo target s name n := by
  unfold Follow.referring RefersTo Schema.passes
  split
  · exact brings_pure fun _ => rfl
  · exact brings_annotate hI

theorem brings_fragmentNode {location : String} {spine : Bool} {index : Nat} {f : Schema}
    (hreference : ∀ p, f.reference = some p →
      ∀ l, Brings I E (follow (.fragment p l spine)) (Q (.fragment p l spine)))
    (hinline : f.reference = none →
      ∀ l, Brings I E (follow (.schema f l none spine)) (Q (.schema f l none spine))) :
    Brings I E (Follow.fragmentNode follow location spine index f) fun n u =>
      FragmentFrom (fun r n => Q r n u) spine f n := by
  unfold Follow.fragmentNode FragmentFrom
  cases hf : f.reference with
  | some p => exact (hreference p hf _).mono fun n u h => ⟨_, h⟩
  | none => exact (hinline hf _).mono fun n u h => ⟨_, h⟩

theorem brings_ownFragment (hI : ∀ t u, t.Alike u → I t → I u) (hQ : ∀ r n, Lasting (Q r n))
    {location : String} (hp : s.addsFragment → ∀ t, ObjectPart s t →
      ∀ l, Brings I E (follow (.schema t l none false)) (Q (.schema t l none false))) :
    Brings I E (Follow.ownFragment follow s location) fun own u =>
      OwnFrom (fun r n => Q r n u) s own := by
  unfold Follow.ownFragment OwnFrom
  by_cases ha : s.addsFragment
  · have hempty : (s.properties.isEmpty && s.required.isEmpty) = false := by
      simpa only [Schema.addsFragment, Bool.not_eq_true'] using ha
    rw [hempty]
    simp only [ha, if_true, Bool.false_eq_true, if_false]
    refine (brings_object hI hQ (hp ha)).bind fun shape t ht h => ?_
    rw [ends_bind]
    refine (brings_issuePlain (E := E) hI t ht).mono_ok fun n u ⟨hu, htu, hn, hbare⟩ =>
      ⟨hu, htu, n, rfl, ?_, hbare⟩
    rw [hn]
    exact h.mono fun r n h => hQ r n t u h htu
  · have hempty : (s.properties.isEmpty && s.required.isEmpty) = true := by
      simpa only [Schema.addsFragment, Bool.not_eq_true', Bool.not_eq_false] using ha
    rw [hempty]
    simp only [ha, if_true, if_false, Bool.false_eq_true]
    exact brings_pure fun _ => rfl

/-- A composition has gone through its fragments and then through the one that it adds itself. -/
theorem Follow.exists_of_flatten {location : String} {name : Option String} {spine : Bool}
    {u v : Session} {n : Node} (h : Follow.flatten follow s location name spine u = .ok n v) :
    ∃ fragments w own w',
      eachFrom (Follow.fragmentNode follow location spine) 0 s.allOf u = .ok fragments w ∧
      Follow.ownFragment follow s location w = .ok own w' ∧
      n.shape = (mergeFragments (fragments ++ own) location).1.shape ∧
      v.diagnostics = w'.diagnostics ++ (mergeFragments (fragments ++ own) location).2 := by
  obtain ⟨fragments, w, hfragments, h⟩ := exists_of_bind h
  obtain ⟨own, w', hown, h⟩ := exists_of_bind h
  -- The node is made at once, and without a finding.
  cases h
  exact ⟨fragments, w, own, w', hfragments, hown, rfl, rfl⟩

theorem brings_flatten (hI : ∀ t u, t.Alike u → I t → I u) (hQ : ∀ r n, Lasting (Q r n))
    {location : String} {name : Option String} {spine : Bool}
    (hreference : ∀ f ∈ s.allOf, ∀ p, f.reference = some p →
      ∀ l, Brings I E (follow (.fragment p l spine)) (Q (.fragment p l spine)))
    (hinline : ∀ f ∈ s.allOf, f.reference = none →
      ∀ l, Brings I E (follow (.schema f l none spine)) (Q (.schema f l none spine)))
    (hown : s.addsFragment → ∀ t, ObjectPart s t →
      ∀ l, Brings I E (follow (.schema t l none false)) (Q (.schema t l none false))) :
    Brings I E (Follow.flatten follow s location name spine) fun n u =>
      ∃ fragments own, List.Forall₂ (FragmentFrom (fun r n => Q r n u) spine) s.allOf fragments ∧
        OwnFrom (fun r n => Q r n u) s own ∧
        Annotated (mergeFragments (fragments ++ own) location).1 s name n := by
  have hfragments : Brings I E
      (eachFrom (Follow.fragmentNode follow location spine) 0 s.allOf) fun ns u =>
        List.Forall₂ (FragmentFrom (fun r n => Q r n u) spine) s.allOf ns :=
    brings_eachFrom (Q := fun f n u => FragmentFrom (fun r n => Q r n u) spine f n)
      (fun f n t u h htu => h.mono fun r n h => hQ r n t u h htu)
      s.allOf 0 fun f hf _ => brings_fragmentNode (hreference f hf) (hinline f hf)
  refine hfragments.bind fun fragments t ht hfs => ?_
  rw [ends_bind]
  refine (brings_ownFragment (E := E) hI hQ hown t ht).mono_ok fun own u ⟨hu, htu, ho⟩ => ?_
  have hrest : Brings I E
      (do
        report (mergeFragments (fragments ++ own) location).2
        annotate (mergeFragments (fragments ++ own) location).1 s name)
      fun n _ => Annotated (mergeFragments (fragments ++ own) location).1 s name n :=
    (brings_report hI).bind fun _ v hv _ => brings_annotate hI v hv
  exact (hrest u hu).mono_ok fun n v ⟨hv, huv, hn⟩ =>
    ⟨hv, htu.trans huv, fragments, own,
      hfs.imp fun f n h => h.mono fun r n h => hQ r n t v h (htu.trans huv),
      ho.mono fun r n h => hQ r n u v h huv, hn⟩

/-- Variants fail to have tags only if one of them has none. -/
theorem tagsOf_error {discriminator : Discriminator} {location : String} {cause : CompileError} :
    ∀ {variants : List Variant} {index : Nat},
      tagsOf discriminator location index variants = .error cause →
      ∃ variant, cause = .missingDiscriminator location variant discriminator.propertyName
  | [], _, h => by simp [tagsOf] at h
  | v :: rest, index, h => by
    unfold tagsOf at h
    split at h
    · simp only [Except.error.injEq] at h
      exact ⟨_, h.symm⟩
    · cases hrest : tagsOf discriminator location (index + 1) rest with
      | ok tags => simp [hrest, Except.map] at h
      | error c =>
        simp only [hrest, Except.map, Except.error.injEq] at h
        exact tagsOf_error (h ▸ hrest)

/-- A union fails to be classified only if it is tagged and a variant has no tag. -/
theorem classify_error {keyword : UnionKeyword} {variants : List Variant}
    {discriminator : Option Discriminator} {location : String} {cause : CompileError}
    (h : classify keyword variants discriminator location = .error cause) :
    keyword = .oneOf ∧ ∃ d variant, discriminator = some d ∧
      cause = .missingDiscriminator location variant d.propertyName := by
  unfold classify taggingOf at h
  cases discriminator with
  | none => simp [Except.map] at h
  | some d =>
    cases keyword with
    | anyOf => simp [Except.map] at h
    | oneOf =>
      simp only at h
      cases ht : tagsOf d location 0 (variants.filter fun v => !v.node.shape.isNull) with
      | ok tags => simp [ht, Except.map] at h
      | error c =>
        simp only [ht, Except.map, Except.error.injEq] at h
        obtain ⟨variant, hvariant⟩ := tagsOf_error (h ▸ ht)
        exact ⟨rfl, d, variant, rfl, hvariant⟩

theorem brings_union (hI : ∀ t u, t.Alike u → I t → I u) (hQ : ∀ r n, Lasting (Q r n))
    {location : String} {name : Option String} {keyword : UnionKeyword} {members : List Schema}
    (hE : ∀ t variants cause, List.Forall₂ (VariantFrom d (fun r n => Q r n t) s) members variants →
      classify keyword variants s.discriminator location = .error cause → I t →
      E (.rejected cause) t)
    (hp : ∀ m ∈ members,
      ∀ l, Brings I E (follow (.schema m l none false)) (Q (.schema m l none false))) :
    Brings I E (Follow.union follow d s keyword members location name) fun n u =>
      ∃ variants body findings,
        List.Forall₂ (VariantFrom d (fun r n => Q r n u) s) members variants ∧
        classify keyword variants s.discriminator location = .ok (body, findings) ∧
        Annotated body s name n := by
  have hvariants : Brings I E
      (eachFrom (Follow.variant follow d s keyword location) 0 members) fun vs u =>
        List.Forall₂ (VariantFrom d (fun r n => Q r n u) s) members vs :=
    brings_eachFrom (Q := fun m v u => VariantFrom d (fun r n => Q r n u) s m v)
      (fun m v t u h htu => ⟨h.node.mono fun r n h => hQ r n t u h htu, h.component, h.declared⟩)
      members 0 fun m hm index => (hp m hm _).map fun n u h => ⟨⟨_, h⟩, rfl, rfl⟩
  refine hvariants.bind fun variants t ht hvs => ?_
  rw [ends_bind, ends_ofExcept]
  refine ⟨fun (body, findings) hc => ?_, fun cause hc => ?_⟩
  · have hrest : Brings I E
        (do
          report findings
          annotate body s name)
        fun n _ => Annotated body s name n :=
      (brings_report hI).bind fun _ v hv _ => brings_annotate hI v hv
    refine (hrest t ht).mono_ok fun n u ⟨hu, htu, hn⟩ =>
      ⟨hu, htu, variants, body, findings, ?_, hc, hn⟩
    exact hvs.imp fun m v h =>
      ⟨h.node.mono fun r n h => hQ r n t u h htu, h.component, h.declared⟩
  · exact hE t variants cause hvs hc ht

/-- **A step on a schema**, from the answers to the requests that the schema leads to. -/
theorem Follow.schema_brings (hI : ∀ t u, t.Alike u → I t → I u) (hQ : ∀ r n, Lasting (Q r n))
    {location : String} {name : Option String} {spine : Bool}
    (hE : ∀ t keyword members variants cause, s.form name spine = .union keyword members →
      List.Forall₂ (VariantFrom d (fun r n => Q r n t) s) members variants →
      classify keyword variants s.discriminator location = .error cause → I t →
      E (.rejected cause) t)
    (hfollow : ∀ r, Leads s name spine r → Brings I E (follow r) (Q r)) :
    Brings I E (Follow.schema follow d s location name spine) fun n u =>
      Built d (fun r n => Q r n u) s location name spine n := by
  rw [Follow.schema_eq]
  unfold Built
  cases hform : s.form name spine with
  | reference p =>
    refine (hfollow _ (.reference hform)).bind fun target t ht h => ?_
    exact (brings_referring hI t ht).mono_ok fun n u ⟨hu, htu, hn⟩ =>
      ⟨hu, htu, target, ⟨_, hQ _ _ t u h htu⟩, hn⟩
  | wrapper p =>
    refine (hfollow _ (.wrapper hform)).bind fun target t ht h => ?_
    exact (brings_referring hI t ht).mono_ok fun n u ⟨hu, htu, hn⟩ =>
      ⟨hu, htu, target, ⟨_, hQ _ _ t u h htu⟩, hn⟩
  | composition =>
    exact brings_flatten hI hQ (fun f hf p hp _ => hfollow _ (.fragment hform hf hp))
      (fun f hf hr _ => hfollow _ (.inline hform hf hr))
      fun ha t ht _ => hfollow _ (.own hform ha ht)
  | union keyword members =>
    exact brings_union hI hQ
      (fun t variants cause => hE t keyword members variants cause hform)
      fun m hm _ => hfollow _ (.member hform hm)
  | literals values => exact brings_annotate hI
  | plain =>
    refine (brings_plainShape hI hQ fun t ht _ => hfollow _ (.plain hform ht)).bind
      fun shape t ht h => ?_
    refine (brings_annotate hI t ht).mono_ok fun n u ⟨hu, htu, hn⟩ =>
      ⟨hu, htu, shape, h.mono fun r n h => hQ r n t u h htu, hn⟩

end Inner

/-! ### References -/

section References

variable {s : Session} {ok : Node → Session → Prop} {pointer location : String}

theorem Follow.expand_ends {target : Target} {link fresh : Bool}
    (h : Ends (follow (.schema target.schema pointer
        (if target.isComponent then some target.component else none) true))
      { s with stack := ⟨pointer, link, fresh⟩ :: s.stack }
      (fun n t => ok n { t with stack := s.stack }) fun e t => E e { t with stack := s.stack }) :
    Ends (Follow.expand follow pointer target link fresh) s ok E :=
  ends_within.2 h

/-- The node that was found, or else the expansion. -/
def Follow.foundOr (expansion : Resolution Node) : Option Node → Resolution Node
  | some node => pure node
  | none => expansion

theorem Follow.enter_eq {target : Target} {link : Bool} :
    Follow.enter follow pointer location target link = (do
      let found ← Follow.partOf follow target location
      let node ← Follow.foundOr (Follow.expand follow pointer target link false) found
      remember pointer node
      return node) := by
  unfold Follow.enter
  congr 1
  funext found
  cases found <;> rfl

/-- A pointer that is neither kept nor open: the node of a part is looked up in the node of
its component, if that is not open; in all other cases the pointer is expanded. -/
theorem Follow.enter_ends {target : Target} {link : Bool}
    (hexpand : ∀ t, (target.isComponent ∨ s.inProgress (Pointer.component target.component)) →
      t = s → Ends (Follow.expand follow pointer target link false) t
        (fun n u => ok n { u with cache := Table.insert u.cache pointer n }) E)
    (hroot : ¬ target.isComponent → ¬ s.inProgress (Pointer.component target.component) →
      Ends (follow (.reference (Pointer.component target.component) location false)) s
        (fun root t =>
          (∀ n, root.at? target.steps = some n →
            ok n { t with cache := Table.insert t.cache pointer n }) ∧
          (root.at? target.steps = none →
            Ends (Follow.expand follow pointer target link false) t
              (fun n u => ok n { u with cache := Table.insert u.cache pointer n }) E)) E) :
    Ends (Follow.enter follow pointer location target link) s ok E := by
  have hrest : ∀ (found : Option Node) (t : Session),
      (∀ n, found = some n → ok n { t with cache := Table.insert t.cache pointer n }) →
      (found = none → Ends (Follow.expand follow pointer target link false) t
        (fun n u => ok n { u with cache := Table.insert u.cache pointer n }) E) →
      Ends (do
        let node ← Follow.foundOr (Follow.expand follow pointer target link false) found
        remember pointer node
        return node) t ok E := by
    intro found t hsome hnone
    cases found with
    | some n => exact hsome n rfl
    | none =>
      rw [ends_bind]
      exact (hnone rfl).mono_ok fun n u h => h
  rw [Follow.enter_eq]
  unfold Follow.partOf
  -- Only a part of a component that is not open is looked up in the node of the component.
  by_cases hc : target.isComponent
  · simp only [hc, if_true]
    exact hrest none s (by simp) fun _ => hexpand s (.inl hc) rfl
  · by_cases hp : s.inProgress (Pointer.component target.component)
    · simp only [hc, if_false, Bool.false_eq_true]
      rw [ends_bind, ends_bind, ends_get]
      simp only [hp, if_true]
      exact hrest none s (by simp) fun _ => hexpand s (.inr hp) rfl
    · simp only [hc, if_false, Bool.false_eq_true]
      rw [ends_bind, ends_bind, ends_get]
      simp only [hp, if_false, Bool.false_eq_true]
      rw [ends_bind]
      exact (hroot hc hp).mono_ok fun root t h => hrest _ t h.1 h.2

/-- A plain reference: a node that is kept, a back reference, an error, or a pointer that is
entered. -/
theorem Follow.reference_ends {link : Bool}
    (hfault : ∀ cause, d.target pointer location = .error cause → E (.rejected cause) s)
    (hkept : ∀ n, Table.get? s.cache pointer = some n → ok n s)
    (hback : ∀ target, d.target pointer location = .ok target → s.inProgress pointer →
      target.isComponent → Ends (Follow.backReference target) s ok E)
    (hcycle : ∀ target, d.target pointer location = .ok target → s.inProgress pointer →
      ¬ target.isComponent → E (.rejected (.unrepresentableCycle pointer)) s)
    (henter : ∀ target, d.target pointer location = .ok target →
      Table.get? s.cache pointer = none → ¬ s.inProgress pointer →
      Ends (Follow.enter follow pointer location target link) s ok E) :
    Ends (Follow.reference follow d pointer location link) s ok E := by
  unfold Follow.reference
  rw [ends_bind, ends_ofExcept]
  refine ⟨fun target ht => ?_, hfault⟩
  rw [ends_bind, ends_get]
  cases hg : Table.get? s.cache pointer with
  | some n => exact hkept n hg
  | none =>
    by_cases hp : s.inProgress pointer
    · simp only [hp, if_true]
      split
      · exact hback target ht hp ‹_›
      · exact hcycle target ht hp ‹_›
    · simp only [hp, if_false, Bool.false_eq_true]
      exact henter target ht hg hp

/-- A reference with an answer has a target. -/
theorem Follow.reference_target {link : Bool} :
    Ends (Follow.reference follow d pointer location link) s
      (fun _ _ => ∃ t, d.target pointer location = .ok t) fun _ _ => True := by
  unfold Follow.reference
  rw [ends_bind, ends_ofExcept]
  refine ⟨fun t ht => ?_, fun _ _ => trivial⟩
  unfold Ends
  split
  · exact ⟨t, ht⟩
  · trivial

/-- A fragment: a pointer on the chain of the composition is an error, an open one is
expanded once more, and any other is a plain reference. -/
theorem Follow.fragment_ends {spine : Bool}
    (hfault : ∀ cause, d.target pointer location = .error cause → E (.rejected cause) s)
    (hcyclic : spine → pointer ∈ s.compositionChain →
      E (.rejected (.cyclicComposition (Follow.cycleChain s.compositionChain pointer))) s)
    (hfresh : s.inProgress pointer → s.inFreshProgress pointer →
      E (.rejected (.unrepresentableCycle pointer)) s)
    (hagain : ∀ target, d.target pointer location = .ok target →
      (spine → pointer ∉ s.compositionChain) → s.inProgress pointer →
      ¬ s.inFreshProgress pointer → Ends (Follow.expand follow pointer target spine true) s ok E)
    (hplain : (spine → pointer ∉ s.compositionChain) → ¬ s.inProgress pointer →
      Ends (Follow.reference follow d pointer location spine) s ok E) :
    Ends (Follow.fragment follow d pointer location spine) s ok E := by
  unfold Follow.fragment
  rw [ends_bind, ends_ofExcept]
  refine ⟨fun target ht => ?_, hfault⟩
  rw [ends_bind, ends_get]
  split
  · rename_i h
    rw [Bool.and_eq_true, List.contains_iff_mem] at h
    exact hcyclic h.1 h.2
  · rename_i h
    have hchain : spine → pointer ∉ s.compositionChain := by
      intro hs hm
      exact h (by rw [Bool.and_eq_true, List.contains_iff_mem]; exact ⟨hs, hm⟩)
    split
    · rename_i hp
      split
      · exact hfresh hp ‹_›
      · exact hagain target ht hchain hp ‹_›
    · exact hplain hchain ‹_›

end References

end Steps

/-! ### Runs -/

/-- Answers leave the open pointers as they are, lose nothing that was kept, and leave the nodes of
whole components as they are. -/
def Steady (follow : Follow) : Prop :=
  ∀ r s, Ends (follow r) s (fun _ t => s.Later t) fun _ t => s.Later t

/-- What steady answers bring. -/
theorem Steady.brings {follow : Follow} (hsteady : Steady follow) {I : Session → Prop}
    {E : Interruption → Session → Prop} {r : Request} {Q : Node → Session → Prop}
    (h : ∀ t, I t → Ends (follow r) t (fun n u => I u ∧ Q n u) E) :
    Brings I E (follow r) Q := fun t ht =>
  ((h t ht).and (hsteady r t)).mono (fun _ _ ⟨⟨hu, hq⟩, hl⟩ => ⟨hu, hl, hq⟩) fun _ _ he => he.1

section Runs

variable {follow : Follow} {d : Document}

/-- What is expanded is not kept, unless it is open already. -/
theorem Steady.expand (h : Steady follow) {s t : Session} {pointer : String} {target : Target}
    {link fresh : Bool} (hst : s.Later t)
    (hfree : ∀ c, Pointer.Whole pointer c → ¬ s.inProgress pointer →
      Table.get? s.cache pointer = none) :
    Ends (Follow.expand follow pointer target link fresh) t (fun _ u => s.Later u)
      fun _ u => s.Later u :=
  Follow.expand_ends ((h _ _).mono (fun _ _ hu => hst.pop hu hfree) fun _ _ hu => hst.pop hu hfree)

theorem Steady.enter (h : Steady follow) {s : Session} {pointer location : String}
    {target : Target} {link : Bool} (hnone : Table.get? s.cache pointer = none) :
    Ends (Follow.enter follow pointer location target link) s (fun _ t => s.Later t)
      fun _ t => s.Later t := by
  refine Follow.enter_ends (fun t _ hts => ?_) fun _ _ => ?_
  · subst hts
    exact (h.expand (.refl _) fun _ _ _ => hnone).mono_ok fun n u hu => hu.remember hnone n
  · refine (h _ _).mono_ok fun root t ht => ⟨fun n _ => ht.remember hnone n, fun _ => ?_⟩
    exact (h.expand ht fun _ _ _ => hnone).mono_ok fun n u hu => hu.remember hnone n

theorem Steady.reference (h : Steady follow) {s : Session} {pointer location : String}
    {link : Bool} :
    Ends (Follow.reference follow d pointer location link) s (fun _ t => s.Later t)
      fun _ t => s.Later t :=
  Follow.reference_ends (fun _ _ => .refl s) (fun _ _ => .refl s)
    (fun _ _ _ _ => issue_alike.later) (fun _ _ _ _ => .refl s) fun _ _ hnone _ => h.enter hnone

theorem Steady.step (h : Steady follow) : Steady (Follow.step follow d) := by
  intro r s
  cases r with
  | reference pointer location link => exact h.reference
  | fragment pointer location spine =>
    exact Follow.fragment_ends (fun _ _ => .refl s) (fun _ _ => .refl s) (fun _ _ => .refl s)
      (fun _ _ _ hprogress _ => h.expand (.refl s) fun _ _ hno => absurd hprogress hno)
      fun _ _ => h.reference
  | schema schema location name spine =>
    have hfollow : ∀ r, Brings (fun u => s.Later u) (fun _ u => s.Later u) (follow r)
        fun _ _ => True := fun r t ht =>
      (h r t).mono (fun _ u hu => ⟨ht.trans hu, hu, trivial⟩) fun _ u hu => ht.trans hu
    exact (Follow.schema_brings (Q := fun _ _ _ => True) (fun t u htu ht => ht.trans htu.later)
      (fun _ _ _ _ _ _ => trivial) (fun _ _ _ _ _ _ _ _ ht => ht) (fun r _ => hfollow r) s
      (.refl s)).mono_ok
        fun n u hu => hu.1

/-- **Runs are steady**, however they end. -/
theorem Document.follow_steady (d : Document) : ∀ depth, Steady (d.follow depth)
  | 0, _, s => Session.Later.refl s
  | depth + 1, r, s => (d.follow_steady depth).step r s

/-- Answers to the requests that meet `pre` end as `ok` and `err` say. -/
def Meets (follow : Follow) (pre : Request → Session → Prop)
    (ok : Request → Session → Node → Session → Prop)
    (err : Request → Session → Interruption → Session → Prop) : Prop :=
  ∀ r s, pre r s → Ends (follow r) s (ok r s) (err r s)

/-- **A promise that every step keeps is kept by every run.** -/
theorem Document.follow_meets {d : Document} {pre : Request → Session → Prop}
    {ok : Request → Session → Node → Session → Prop}
    {err : Request → Session → Interruption → Session → Prop}
    (hbase : ∀ r s, pre r s → err r s .exhausted s)
    (hstep : ∀ follow, Steady follow → Meets follow pre ok err →
      Meets (Follow.step follow d) pre ok err) :
    ∀ depth, Meets (d.follow depth) pre ok err
  | 0, r, s, h => hbase r s h
  | depth + 1, r, s, h =>
    hstep (d.follow depth) (d.follow_steady depth) (Document.follow_meets hbase hstep depth) r s h

/-- The bound on the number of steps leaves room for one. -/
theorem Document.stepBound_pos (n : Nat) : 0 < Document.stepBound n :=
  Nat.mul_pos (by omega) (by omega)

/-- Resolving a pointer is a plain reference, answered from a run. -/
theorem Document.resolve_eq (d : Document) (pointer : String) :
    ∃ depth, d.resolve pointer = Follow.reference (d.follow depth) d pointer pointer false := by
  obtain ⟨depth, hdepth⟩ := Nat.exists_eq_succ_of_ne_zero
    (Nat.ne_of_gt (Document.stepBound_pos d.size))
  refine ⟨depth, ?_⟩
  unfold Document.resolve
  rw [hdepth]
  rfl

end Runs

end ApiBinding
