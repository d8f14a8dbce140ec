import ApiBinding.Proofs.Document.References
import ApiBinding.Proofs.Resolver.Reordering

/-!
# The search for a declaration

The declaration of a property is searched for in unresolved schemas, through references to whole
components and through the fragments of compositions.  References and compositions may lead back to
where the search has been, so the components that were looked at are remembered, in one list for the
whole search: a component that was looked at for one fragment is not looked at again for the next.
Nothing is missed by that, since whatever a component leads to has been looked at by the time the
search ends, or is still waiting.

## Main definitions

* `Document.ReachesSchema` — the schemas that one comes to from a schema.
* `Document.Search`, `Document.Search.Step`, `Document.Search.Run` — the search, step by step.
* `Document.Search.Covers` — all that has been looked at leads to what has been or will be.
* `Document.Search.Orderly` — what holds at every point of the search of a component.

## Main results

* `Document.exists_run` — the look-up of a declaration is a run of the search.
* `Document.Search.Step.covers` — a step keeps track of everything.
* `Document.declaration?_isSome_iff` — a declaration is found iff one can be reached.
* `Document.declaration_complete` — **the search ends, looks at no component twice, and finds a
  declaration iff there is one.**
-/

namespace ApiBinding

namespace Document

variable {d : Document} {property : String}

/-! ### What can be reached -/

/-- The schemas that one comes to from a schema.  From a reference to a whole component one comes to
the schema of the component only: what is written beside the reference is not looked at.  Any other
schema is reached itself, and one comes on from it to its fragments. -/
inductive ReachesSchema (d : Document) : Schema → Schema → Prop where
  | here {s : Schema} (h : wholeReference? s = none) : ReachesSchema d s s
  | component {s t u : Schema} {name : String} (h : wholeReference? s = some name)
      (ht : d.schema? name = some t) (hu : ReachesSchema d t u) : ReachesSchema d s u
  | fragment {s f u : Schema} (h : wholeReference? s = none) (hf : f ∈ s.allOf)
      (hu : ReachesSchema d f u) : ReachesSchema d s u

/-! ### The search, step by step -/

/-- A search that is under way. -/
structure Search where
  /-- The schemas that are to be looked at. -/
  pending : List Schema
  /-- The components that were looked at. -/
  seen : List String

namespace Search

/-- One step of the search for a property; a component that is looked at is named. -/
inductive Step (d : Document) (property : String) : Search → Option String → Search → Prop where
  /-- A component that was looked at before is left out. -/
  | again {s : Schema} {rest : List Schema} {seen : List String} {name : String}
      (h : wholeReference? s = some name) (hseen : name ∈ seen) :
      Step d property ⟨s :: rest, seen⟩ none ⟨rest, seen⟩
  /-- So is a reference to a component that does not exist. -/
  | missing {s : Schema} {rest : List Schema} {seen : List String} {name : String}
      (h : wholeReference? s = some name) (hseen : name ∉ seen) (ht : d.schema? name = none) :
      Step d property ⟨s :: rest, seen⟩ none ⟨rest, seen⟩
  /-- The schema of a component takes the place of the reference. -/
  | follow {s t : Schema} {rest : List Schema} {seen : List String} {name : String}
      (h : wholeReference? s = some name) (hseen : name ∉ seen) (ht : d.schema? name = some t) :
      Step d property ⟨s :: rest, seen⟩ (some name) ⟨t :: rest, name :: seen⟩
  /-- The fragments take the place of a composition that does not declare the property itself. -/
  | descend {s : Schema} {rest : List Schema} {seen : List String}
      (h : wholeReference? s = none) (hown : Table.get? s.properties property = none) :
      Step d property ⟨s :: rest, seen⟩ none ⟨lastFragments s rest, seen⟩

/-- Steps one after the other. -/
inductive Run (d : Document) (property : String) :
    Search → List (Option String) → Search → Prop where
  | done {q : Search} : Run d property q [] q
  | step {q q' last : Search} {move : Option String} {moves : List (Option String)}
      (hstep : Step d property q move q') (hrest : Run d property q' moves last) :
      Run d property q (move :: moves) last

/-- The search is at its end: nothing is pending, or the next schema declares the property. -/
inductive Ends (property : String) : Search → Option Schema → Prop where
  | nothing {seen : List String} : Ends property ⟨[], seen⟩ none
  | found {s own : Schema} {rest : List Schema} {seen : List String} (h : wholeReference? s = none)
      (hown : Table.get? s.properties property = some own) :
      Ends property ⟨s :: rest, seen⟩ (some own)

/-- The components that are looked at in the course of steps. -/
def followed (moves : List (Option String)) : List String := moves.filterMap id

@[simp] theorem followed_nil : followed [] = [] := rfl

@[simp] theorem followed_none (moves : List (Option String)) :
    followed (none :: moves) = followed moves := rfl

@[simp] theorem followed_some (name : String) (moves : List (Option String)) :
    followed (some name :: moves) = name :: followed moves := rfl

variable {q q' last : Search} {move : Option String} {moves : List (Option String)}

/-- A step does not change what is found. -/
theorem Step.declaration?_eq (h : Step d property q move q') :
    d.declaration? property q.pending q.seen = d.declaration? property q'.pending q'.seen := by
  cases h with
  | again hname hseen =>
    rw [declaration?_cons, hname]
    simp only [hseen, if_true]
  | missing hname hseen ht =>
    rw [declaration?_cons, hname]
    simp only [hseen, if_false, ht]
  | follow hname hseen ht =>
    rw [declaration?_cons, hname]
    simp only [hseen, if_false, ht]
  | descend hname hown =>
    rw [declaration?_cons, hname]
    simp only [hown]

theorem Run.declaration?_eq (h : Run d property q moves last) :
    d.declaration? property q.pending q.seen =
      d.declaration? property last.pending last.seen := by
  induction h with
  | done => rfl
  | step hstep _ ih => exact hstep.declaration?_eq.trans ih

/-- A step and what follows it are a run. -/
theorem Step.exists_run (hstep : Step d property q move q')
    (h : ∃ moves last, Run d property q' moves last ∧
      last.Ends property (d.declaration? property q'.pending q'.seen)) :
    ∃ moves last, Run d property q moves last ∧
      last.Ends property (d.declaration? property q.pending q.seen) := by
  obtain ⟨moves, last, hrun, hends⟩ := h
  exact ⟨move :: moves, last, .step hstep hrun, hstep.declaration?_eq ▸ hends⟩

end Search

/-- **The look-up of a declaration is a run of the search**, and its answer is what the search ends
with. -/
theorem exists_run (d : Document) (property : String) (schemas : List Schema)
    (seen : List String) : ∃ moves last, Search.Run d property ⟨schemas, seen⟩ moves last ∧
      last.Ends property (d.declaration? property schemas seen) := by
  induction schemas, seen using declaration?.induct d property with
  | case1 seen =>
    refine ⟨[], _, .done, ?_⟩
    rw [declaration?]
    exact .nothing
  | case2 s rest seen name hname hseen ih => exact Search.Step.exists_run (.again hname hseen) ih
  | case3 s rest seen name hname hseen t ht ih =>
    exact Search.Step.exists_run (.follow hname hseen ht) ih
  | case4 s rest seen name hname hseen ht ih =>
    exact Search.Step.exists_run (.missing hname hseen ht) ih
  | case5 s rest seen hname own hown =>
    refine ⟨[], _, .done, ?_⟩
    rw [declaration?_cons, hname, hown]
    exact .found hname hown
  | case6 s rest seen hname hown ih => exact Search.Step.exists_run (.descend hname hown) ih

namespace Search

variable {q q' last : Search} {move : Option String} {moves : List (Option String)}

/-! ### An end, and no component twice -/

/-- What is left to look at: a component that was not looked at weighs more than all schemas. -/
def weight (d : Document) (q : Search) : Nat :=
  d.unseen q.seen * (d.size + 1) + Schema.sizeList q.pending

theorem Step.weight_lt (h : Step d property q move q') : q'.weight d < q.weight d := by
  unfold weight
  cases h with
  | @again s _ _ _ hname hseen =>
    have := s.size_pos
    simp only [Schema.sizeList]
    omega
  | @missing s _ _ _ hname hseen ht =>
    have := s.size_pos
    simp only [Schema.sizeList]
    omega
  | follow hname hseen ht =>
    have hunseen := Nat.mul_le_mul_right (d.size + 1)
      (unseen_cons_lt (mem_componentNames ht) hseen)
    have hsize := size_le_of_schema? ht
    rw [Nat.succ_mul] at hunseen
    simp only [Schema.sizeList]
    omega
  | @descend s _ _ hname hown =>
    have := s.size_eq
    simp only [Schema.sizeList, lastFragments, Schema.sizeList_append, Schema.sizeList_reverse]
    omega

theorem Run.length_add_weight_le (h : Run d property q moves last) :
    moves.length + last.weight d ≤ q.weight d := by
  induction h with
  | done => simp
  | step hstep _ ih =>
    have := hstep.weight_lt
    rw [List.length_cons]
    omega

theorem Step.seen_eq (h : Step d property q move q') : q'.seen = move.toList ++ q.seen := by
  cases h <;> rfl

theorem Step.nodup (h : Step d property q move q') (hq : q.seen.Nodup) : q'.seen.Nodup := by
  cases h with
  | again | missing | descend => exact hq
  | follow hname hseen ht => exact List.nodup_cons.2 ⟨hseen, hq⟩

theorem Step.mem_componentNames {name : String} (h : Step d property q (some name) q') :
    name ∈ d.componentNames := by
  cases h with
  | follow hname hseen ht => exact Document.mem_componentNames ht

/-- The components that were looked at are those that steps have followed. -/
theorem Run.seen_eq (h : Run d property q moves last) :
    last.seen = (followed moves).reverse ++ q.seen := by
  induction h with
  | done => rfl
  | @step _ _ _ move moves hstep _ ih =>
    rw [ih, hstep.seen_eq]
    cases move <;> simp

theorem Run.nodup (h : Run d property q moves last) (hq : q.seen.Nodup) : last.seen.Nodup := by
  induction h with
  | done => exact hq
  | step hstep _ ih => exact ih (hstep.nodup hq)

theorem Run.followed_subset (h : Run d property q moves last) :
    followed moves ⊆ d.componentNames := by
  induction h with
  | done => exact List.nil_subset _
  | @step _ _ _ move moves hstep _ ih =>
    cases move with
    | none => exact ih
    | some name => exact List.cons_subset.2 ⟨hstep.mem_componentNames, ih⟩

/-! ### What is found can be reached -/

/-- What is pending after a step can be reached from what was pending before it. -/
theorem Step.reaches (h : Step d property q move q') {s u : Schema} (hs : s ∈ q'.pending)
    (hu : ReachesSchema d s u) : ∃ s ∈ q.pending, ReachesSchema d s u := by
  cases h with
  | again | missing => exact ⟨s, .tail _ hs, hu⟩
  | @follow r t rest seen name hname hseen ht =>
    rcases List.mem_cons.1 hs with rfl | hrest
    · exact ⟨r, .head _, .component hname ht hu⟩
    · exact ⟨s, .tail _ hrest, hu⟩
  | @descend r rest seen hname hown =>
    rcases List.mem_append.1 hs with hf | hrest
    · exact ⟨r, .head _, .fragment hname (List.mem_reverse.1 hf) hu⟩
    · exact ⟨s, .tail _ hrest, hu⟩

theorem Run.reaches (h : Run d property q moves last) {s u : Schema} (hs : s ∈ last.pending)
    (hu : ReachesSchema d s u) : ∃ s ∈ q.pending, ReachesSchema d s u := by
  induction h with
  | done => exact ⟨s, hs, hu⟩
  | step hstep _ ih =>
    obtain ⟨s', hs', hu'⟩ := ih hs
    exact hstep.reaches hs' hu'

/-! ### What can be reached is found -/

/-- All that has been looked at leads only to what has been looked at or is pending, and declares
the property nowhere. -/
structure Covers (d : Document) (property : String) (done : List Schema) (q : Search) : Prop where
  undeclared : ∀ s ∈ done, wholeReference? s = none → Table.get? s.properties property = none
  fragments : ∀ s ∈ done, wholeReference? s = none → ∀ f ∈ s.allOf, f ∈ done ∨ f ∈ q.pending
  references : ∀ s ∈ done, ∀ name, wholeReference? s = some name →
    name ∈ q.seen ∨ d.schema? name = none
  components : ∀ name ∈ q.seen, ∀ t, d.schema? name = some t → t ∈ done ∨ t ∈ q.pending

/-- The next schema is looked at: what it leads to is pending from now on, and so is what a newly
followed component stands for. -/
theorem Covers.look {done rest : List Schema} {s : Schema} {seen : List String}
    (h : Covers d property done ⟨s :: rest, seen⟩) (hrest : rest ⊆ q'.pending)
    (hseen : seen ⊆ q'.seen)
    (hown : wholeReference? s = none →
      Table.get? s.properties property = none ∧ s.allOf ⊆ q'.pending)
    (href : ∀ name, wholeReference? s = some name → name ∈ q'.seen ∨ d.schema? name = none)
    (hnew : ∀ name ∈ q'.seen, name ∉ seen → ∀ t, d.schema? name = some t → t ∈ q'.pending) :
    Covers d property (s :: done) q' := by
  -- What was looked at or pending still is, the next schema on the other side.
  have moved : ∀ {t : Schema}, t ∈ done ∨ t ∈ s :: rest → t ∈ s :: done ∨ t ∈ q'.pending := by
    rintro t (hdone | hpending)
    · exact .inl (.tail _ hdone)
    · rcases List.mem_cons.1 hpending with rfl | htail
      · exact .inl (.head _)
      · exact .inr (hrest htail)
  constructor
  case undeclared =>
    intro t ht hwhole
    rcases List.mem_cons.1 ht with rfl | hdone
    · exact (hown hwhole).1
    · exact h.undeclared t hdone hwhole
  case fragments =>
    intro t ht hwhole f hf
    rcases List.mem_cons.1 ht with rfl | hdone
    · exact .inr ((hown hwhole).2 hf)
    · exact moved (h.fragments t hdone hwhole f hf)
  case references =>
    intro t ht name hwhole
    rcases List.mem_cons.1 ht with rfl | hdone
    · exact href name hwhole
    · exact (h.references t hdone name hwhole).imp_left fun hmem => hseen hmem
  case components =>
    intro name hname t ht
    by_cases hold : name ∈ seen
    · exact moved (h.components name hold t ht)
    · exact .inr (hnew name hname hold t ht)

/-- The next schema is a reference to a whole component. -/
theorem Covers.look_reference {done rest : List Schema} {s : Schema} {seen : List String}
    {name : String} (h : Covers d property done ⟨s :: rest, seen⟩)
    (hname : wholeReference? s = some name) (hrest : rest ⊆ q'.pending) (hseen : seen ⊆ q'.seen)
    (href : name ∈ q'.seen ∨ d.schema? name = none)
    (hnew : ∀ name ∈ q'.seen, name ∉ seen → ∀ t, d.schema? name = some t → t ∈ q'.pending) :
    Covers d property (s :: done) q' := by
  refine h.look hrest hseen ?_ ?_ hnew
  · intro hwhole
    simp [hname] at hwhole
  · intro other hother
    exact Option.some.inj (hname.symm.trans hother) ▸ href

/-- **A step keeps track of everything**: it moves the first pending schema to those looked at. -/
theorem Step.covers {done : List Schema} (hstep : Step d property q move q')
    (h : Covers d property done q) :
    ∃ s, Covers d property (s :: done) q' ∧ ∀ t ∈ q.pending, t = s ∨ t ∈ q'.pending := by
  have next : ∀ {s : Schema} {rest pending : List Schema}, rest ⊆ pending →
      ∀ t ∈ s :: rest, t = s ∨ t ∈ pending := fun hsub t ht =>
    (List.mem_cons.1 ht).imp_right fun hrest => hsub hrest
  cases hstep with
  | @again s rest seen name hname hseen =>
    refine ⟨s, h.look_reference hname (List.Subset.refl _) (List.Subset.refl _) (.inl hseen) ?_,
      next (List.Subset.refl _)⟩
    exact fun other hother hnot => absurd hother hnot
  | @missing s rest seen name hname hseen ht =>
    refine ⟨s, h.look_reference hname (List.Subset.refl _) (List.Subset.refl _) (.inr ht) ?_,
      next (List.Subset.refl _)⟩
    exact fun other hother hnot => absurd hother hnot
  | @follow s t rest seen name hname hseen ht =>
    refine ⟨s, h.look_reference hname (List.subset_cons_self _ _) (List.subset_cons_self _ _)
      (.inl (.head _)) ?_, next (List.subset_cons_self _ _)⟩
    intro other hother hnot u hu
    rcases List.mem_cons.1 hother with rfl | hold
    · exact Option.some.inj (ht.symm.trans hu) ▸ .head _
    · exact absurd hold hnot
  | @descend s rest seen hname hown =>
    refine ⟨s, h.look (List.subset_append_right _ _) (List.Subset.refl _) ?_ ?_ ?_,
      next (List.subset_append_right _ _)⟩
    · exact fun _ => ⟨hown, fun f hf => List.mem_append_left _ (List.mem_reverse.2 hf)⟩
    · intro name hwhole
      simp [hname] at hwhole
    · exact fun other hother hnot => absurd hother hnot

theorem Run.covers {done : List Schema} (hrun : Run d property q moves last)
    (h : Covers d property done q) :
    ∃ done', Covers d property done' last ∧
      ∀ s, s ∈ done ∨ s ∈ q.pending → s ∈ done' ∨ s ∈ last.pending := by
  induction hrun generalizing done with
  | done => exact ⟨done, h, fun s hs => hs⟩
  | step hstep _ ih =>
    obtain ⟨s, hcovers, hnext⟩ := hstep.covers h
    obtain ⟨done', hlast, hkept⟩ := ih hcovers
    refine ⟨done', hlast, fun t ht => hkept t ?_⟩
    rcases ht with hdone | hpending
    · exact .inl (.tail _ hdone)
    · exact (hnext t hpending).imp_left fun heq => List.mem_cons.2 (.inl heq)

/-- With nothing pending, nothing that can be reached declares the property. -/
theorem Covers.undeclared_of_reaches {done : List Schema} {seen : List String} {s u : Schema}
    (h : Covers d property done ⟨[], seen⟩) (hu : ReachesSchema d s u) (hs : s ∈ done) :
    Table.get? u.properties property = none := by
  induction hu with
  | here hwhole => exact h.undeclared _ hs hwhole
  | component hwhole ht _ ih =>
    rcases h.references _ hs _ hwhole with hseen | hmissing
    · exact ih ((h.components _ hseen _ ht).resolve_right List.not_mem_nil)
    · rw [ht] at hmissing
      contradiction
  | fragment hwhole hf _ ih =>
    exact ih ((h.fragments _ hs hwhole _ hf).resolve_right List.not_mem_nil)

end Search

/-! ### The answer -/

/-- What is found is declared by a schema that can be reached. -/
theorem exists_reaches_of_declaration? {schemas : List Schema} {seen : List String} {own : Schema}
    (h : d.declaration? property schemas seen = some own) :
    ∃ s ∈ schemas, ∃ u, ReachesSchema d s u ∧ Table.get? u.properties property = some own := by
  obtain ⟨moves, last, hrun, hends⟩ := exists_run d property schemas seen
  rw [h] at hends
  cases hends with
  | @found u _ rest seen hwhole hown =>
    obtain ⟨s, hs, hu⟩ := hrun.reaches (s := u) (.head _) (.here hwhole)
    exact ⟨s, hs, u, hu, hown⟩

/-- If nothing is found, no schema that can be reached declares the property.  A component may be
left out from the start only if its schema is one of those that are searched. -/
theorem undeclared_of_declaration?_eq_none {schemas : List Schema} {seen : List String}
    (hseen : ∀ name ∈ seen, ∀ t, d.schema? name = some t → t ∈ schemas)
    (h : d.declaration? property schemas seen = none) {s u : Schema} (hs : s ∈ schemas)
    (hu : ReachesSchema d s u) : Table.get? u.properties property = none := by
  obtain ⟨moves, last, hrun, hends⟩ := exists_run d property schemas seen
  have hstart : Search.Covers d property [] ⟨schemas, seen⟩ :=
    { undeclared := by simp
      fragments := by simp
      references := by simp
      components := fun name hname t ht => .inr (hseen name hname t ht) }
  obtain ⟨done, hcovers, hkept⟩ := hrun.covers hstart
  rw [h] at hends
  cases hends with
  | nothing =>
    exact hcovers.undeclared_of_reaches hu ((hkept s (.inr hs)).resolve_right List.not_mem_nil)

/-- **A declaration is found iff one can be reached.** -/
theorem declaration?_isSome_iff {schemas : List Schema} {seen : List String}
    (hseen : ∀ name ∈ seen, ∀ t, d.schema? name = some t → t ∈ schemas) :
    (d.declaration? property schemas seen).isSome ↔
      ∃ s ∈ schemas, ∃ u, ReachesSchema d s u ∧ property ∈ Table.keys u.properties := by
  constructor
  · intro h
    obtain ⟨own, hown⟩ := Option.isSome_iff_exists.1 h
    obtain ⟨s, hs, u, hu, hget⟩ := exists_reaches_of_declaration? hown
    exact ⟨s, hs, u, hu, Table.mem_keys (Table.mem_of_get? hget)⟩
  · rintro ⟨s, hs, u, hu, hkey⟩
    rw [Option.isSome_iff_ne_none]
    intro hnone
    obtain ⟨own, hown⟩ := Table.exists_get? hkey
    rw [undeclared_of_declaration?_eq_none hseen hnone hs hu] at hown
    contradiction

/-- A schema that is searched by itself, with nothing looked at before. -/
theorem declaration?_alone_isSome_iff {s : Schema} :
    (d.declaration? property [s] []).isSome ↔
      ∃ u, ReachesSchema d s u ∧ property ∈ Table.keys u.properties := by
  rw [declaration?_isSome_iff (by simp)]
  simp

/-- A component is searched with its own name among those looked at. -/
theorem declaration?_component_isSome_iff {component : String} {root : Schema}
    (hroot : d.schema? component = some root) :
    (d.declaration? property [root] [component]).isSome ↔
      ∃ s, ReachesSchema d root s ∧ property ∈ Table.keys s.properties := by
  have hseen : ∀ name ∈ [component], ∀ t, d.schema? name = some t → t ∈ [root] := by
    intro name hname t ht
    rw [List.mem_singleton.1 hname, hroot] at ht
    exact List.mem_singleton.2 (Option.some.inj ht).symm
  rw [declaration?_isSome_iff hseen]
  simp

/-- At every point of the search for a component the rest of it finds a declaration iff one of the
pending schemas has one when it is searched by itself, with nothing looked at before. -/
theorem Search.Run.isSome_iff_exists {component : String} {root : Schema} {q : Search}
    {moves : List (Option String)} (hroot : d.schema? component = some root)
    (h : Search.Run d property ⟨[root], [component]⟩ moves q) :
    (d.declaration? property q.pending q.seen).isSome ↔
      ∃ s ∈ q.pending, (d.declaration? property [s] []).isSome := by
  constructor
  · intro hfound
    obtain ⟨own, hown⟩ := Option.isSome_iff_exists.1 hfound
    obtain ⟨s, hs, u, hu, hget⟩ := exists_reaches_of_declaration? hown
    have hkey := Table.mem_keys (Table.mem_of_get? hget)
    exact ⟨s, hs, declaration?_alone_isSome_iff.2 ⟨u, hu, hkey⟩⟩
  · rintro ⟨s, hs, hfound⟩
    obtain ⟨u, hu, hkey⟩ := declaration?_alone_isSome_iff.1 hfound
    -- Whatever is reached from here is reached from the component.
    obtain ⟨r, hr, hru⟩ := h.reaches hs hu
    rw [List.mem_singleton.1 hr] at hru
    have hwhole := (declaration?_component_isSome_iff hroot).2 ⟨u, hru, hkey⟩
    rwa [h.declaration?_eq] at hwhole

/-- A discriminator is undeclared iff no declaration is found. -/
theorem declaredTag_eq_undeclared_iff {component : String} {root : Schema}
    (hroot : d.schema? component = some root) :
    d.declaredTag component property = .undeclared ↔
      ¬ (d.declaration? property [root] [component]).isSome := by
  have hdeclared : ∀ value : Option Json, DeclaredTag.ofLiteral? value ≠ .undeclared := by
    rintro (_ | value) <;> simp [DeclaredTag.ofLiteral?]
  unfold declaredTag
  simp only [hroot]
  cases d.declaration? property [root] [component] with
  | none => simp
  | some declared => simp [hdeclared]

/-- What holds at every point of the search of a component. -/
structure Search.Orderly (d : Document) (property component : String)
    (moves : List (Option String)) (q : Search) : Prop where
  /-- The search is bounded by the document. -/
  bounded : moves.length ≤ d.componentNames.length * (d.size + 1)
  /-- No component is looked at twice, nor is the one that the search began with. -/
  once : (component :: Search.followed moves).Nodup
  known : Search.followed moves ⊆ d.componentNames
  /-- The components that were looked at hide nothing from what is pending. -/
  unhidden : (d.declaration? property q.pending q.seen).isSome ↔
    ∃ s ∈ q.pending, (d.declaration? property [s] []).isSome

theorem Search.Run.orderly {component : String} {root : Schema} {q : Search}
    {moves : List (Option String)} (hroot : d.schema? component = some root)
    (h : Search.Run d property ⟨[root], [component]⟩ moves q) :
    q.Orderly d property component moves where
  bounded := by
    have hlength := h.length_add_weight_le
    have hsize := size_le_of_schema? hroot
    -- The component itself is not to be looked at again, which pays for its schema.
    have hunseen : d.unseen [component] + 1 ≤ d.componentNames.length :=
      Nat.lt_of_lt_of_le (unseen_cons_lt (mem_componentNames hroot) List.not_mem_nil)
        (List.countP_le_length)
    have hweight := Nat.mul_le_mul_right (d.size + 1) hunseen
    rw [Nat.succ_mul] at hweight
    simp only [Search.weight, Schema.sizeList] at hlength
    omega
  once := by
    have hnodup := h.nodup (List.nodup_singleton component)
    rw [h.seen_eq] at hnodup
    simpa using List.nodup_reverse.2 hnodup
  known := h.followed_subset
  unhidden := h.isSome_iff_exists hroot

/-- **The search for the declaration of a property in a component comes to an end, looks at no
component twice, and misses nothing**, whatever leads in a circle: it finds a declaration iff a
schema that can be reached has one, and what it finds is such a declaration. -/
theorem declaration_complete {component : String} {root : Schema}
    (hroot : d.schema? component = some root) (property : String) :
    (∃ moves last, Search.Run d property ⟨[root], [component]⟩ moves last ∧
      last.Ends property (d.declaration? property [root] [component])) ∧
    (∀ moves q, Search.Run d property ⟨[root], [component]⟩ moves q →
      q.Orderly d property component moves) ∧
    (∀ own, d.declaration? property [root] [component] = some own →
      ∃ s, ReachesSchema d root s ∧ Table.get? s.properties property = some own) ∧
    ((d.declaration? property [root] [component]).isSome ↔
      ∃ s, ReachesSchema d root s ∧ property ∈ Table.keys s.properties) ∧
    (d.declaredTag component property = .undeclared ↔
      ¬ ∃ s, ReachesSchema d root s ∧ property ∈ Table.keys s.properties) := by
  have hfound : (d.declaration? property [root] [component]).isSome ↔
      ∃ s, ReachesSchema d root s ∧ property ∈ Table.keys s.properties :=
    declaration?_component_isSome_iff hroot
  refine ⟨exists_run d property _ _, fun moves q hrun => hrun.orderly hroot, ?_, hfound, ?_⟩
  · intro own hown
    obtain ⟨s, hs, u, hu, hget⟩ := exists_reaches_of_declaration? hown
    exact ⟨u, List.mem_singleton.1 hs ▸ hu, hget⟩
  · rw [declaredTag_eq_undeclared_iff hroot, hfound]

/-- A schema that is nothing but a reference to a component. -/
def shelterLink (component : String) : Schema where
  reference := some ("#/components/schemas/" ++ component)

/-- A dog is tagged, and in two ways a pet. -/
def shelterDog : Schema where
  allOf := [shelterLink "Tagged", { allOf := [shelterLink "Pet"] }, shelterLink "Pet"]

def shelterTagged : Schema where
  properties := [("kind", {})]

/-- Every pet is a dog, and every dog is a pet. -/
def shelter : Document where
  components.schemas :=
    [("Dog", shelterDog), ("Pet", { allOf := [shelterLink "Dog"] }), ("Tagged", shelterTagged)]

/-- Pets lead back to dogs and are looked at once; the tag behind them is found. -/
theorem declaration_complete_shelter :
    shelter.schema? "Dog" = some shelterDog ∧
    ∃ moves, Search.Run shelter "kind" ⟨[shelterDog], ["Dog"]⟩ moves
        ⟨[shelterTagged], ["Tagged", "Pet", "Dog"]⟩ ∧
      Search.followed moves = ["Pet", "Tagged"] ∧
      Search.Orderly shelter "kind" "Dog" moves ⟨[shelterTagged], ["Tagged", "Pet", "Dog"]⟩ ∧
      (shelter.declaration? "kind" [shelterDog] ["Dog"]).isSome ∧
      shelter.declaredTag "Dog" "kind" ≠ .undeclared := by
  have hdog : shelter.schema? "Dog" = some shelterDog := rfl
  have hlink : wholeReference? (shelterLink "Dog") = some "Dog" ∧
      wholeReference? (shelterLink "Pet") = some "Pet" ∧
      wholeReference? (shelterLink "Tagged") = some "Tagged" := by
    decide +kernel
  obtain ⟨hdogs, hpets, htags⟩ := hlink
  have hrun : Search.Run shelter "kind" ⟨[shelterDog], ["Dog"]⟩
      [none, some "Pet", none, none, none, none, some "Tagged"]
      ⟨[shelterTagged], ["Tagged", "Pet", "Dog"]⟩ := by
    refine .step (.descend rfl rfl) ?_
    refine .step (.follow hpets (by decide) rfl) ?_
    refine .step (.descend rfl rfl) ?_
    refine .step (.again hdogs (by decide)) ?_
    refine .step (.descend rfl rfl) ?_
    refine .step (.again hpets (by decide)) ?_
    exact .step (.follow htags (by decide) rfl) .done
  have htagged : ReachesSchema shelter shelterDog shelterTagged :=
    .fragment rfl (.head _) (.component htags rfl (.here rfl))
  obtain ⟨-, horderly, -, hfound, htag⟩ := declaration_complete hdog "kind"
  have hreached : ∃ s, ReachesSchema shelter shelterDog s ∧ "kind" ∈ Table.keys s.properties :=
    ⟨shelterTagged, htagged, .head _⟩
  exact ⟨hdog, _, hrun, rfl, horderly _ _ hrun, hfound.2 hreached,
    fun hundeclared => htag.1 hundeclared hreached⟩

end Document

end ApiBinding
