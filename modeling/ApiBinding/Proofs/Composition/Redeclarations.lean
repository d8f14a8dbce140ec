import ApiBinding.Proofs.Composition.Agreement
import ApiBinding.Proofs.Composition.Laws
import ApiBinding.Proofs.Composition.Sameness
import ApiBinding.Proofs.Document.RoundTrip

/-!
# Redeclarations

A composition reports a property that two fragments declare differently.  It compares nodes, and not
the schemas that they were made from.  Two nodes of one schema that is coherent say the same, but
one of them may only name a component where the other one spells it out; then a redeclaration by the
same schema is reported all the same.  Where no component is named in this way, it is not.

## Main definitions

* `Follow.Merges` — the nodes that a composition merges in a run, and what it reports.
* `Document.DeclaresOnlyAs` — all fragments that declare the property do so by the same schema.

## Main results

* `mergeFragments_conflict` — a conflict is found where two nodes of a property are not the same.
* `declaringAnswers_derives` — a property has a node of the schema that declares it.
* `composition_conflict` — **a redeclaration by the same schema is reported only if a component
  stands in it.**
-/

namespace ApiBinding

/-! ### What is found -/

theorem eq_of_append_cons {α : Type} {x : α} {as bs cs ds : List α} (hcs : x ∉ cs) (hds : x ∉ ds)
    (h : as ++ x :: cs = bs ++ x :: ds) : as = bs := by
  rcases List.append_eq_append_iff.1 h with ⟨more, rfl, hmore⟩ | ⟨more, rfl, hmore⟩
  · cases more with
    | nil => simp
    | cons y more =>
      obtain ⟨-, rfl⟩ := List.cons.inj hmore
      simp at hcs
  · cases more with
    | nil => simp
    | cons y more =>
      obtain ⟨-, rfl⟩ := List.cons.inj hmore
      simp at hds

theorem space_notMem_toString (n : Nat) : ' ' ∉ (toString n).toList := by
  intro h
  rw [Nat.toString_eq_ofList_toDigits, String.toList_ofList] at h
  have hdigit := Nat.isDigit_of_mem_toDigits (by omega) (by omega) h
  simp [Char.isDigit] at hdigit

namespace ObjectParts

variable {location key key' : String} {index index' : Nat}

/-- The finding tells which property it is about. -/
theorem conflict_inj (h : conflict location key index = conflict location key' index') :
    key = key' := by
  have hspaced : ∀ (key : String) (index : Nat), "property `" ++ key ++
      "` is redeclared by fragment " ++ toString index =
        "property `" ++ key ++ "` is redeclared by fragment" ++ " " ++ toString index := by
    intro key index
    rw [show "` is redeclared by fragment " = "` is redeclared by fragment" ++ " " from rfl,
      ← String.append_assoc]
  have hmessage := (String.append_left_inj _).1 (congrArg Diagnostic.message h)
  rw [hspaced, hspaced] at hmessage
  have hlists : ∀ (before number : String), (before ++ " " ++ number).toList =
      before.toList ++ ' ' :: number.toList := by simp
  -- The number of the fragment stands after the last space.
  have hbefore := eq_of_append_cons (space_notMem_toString index) (space_notMem_toString index')
    ((hlists _ _).symm.trans ((congrArg String.toList hmessage).trans (hlists _ _)))
  exact (String.append_right_inj _).1 ((String.append_left_inj _).1 (String.toList_inj.1 hbefore))

end ObjectParts

section Findings

variable {location key : String} {index : Nat} {nodes earlier : List Node} {n : Node}

/-- A conflict about a declaration is one with the latest declaration before. -/
theorem conflict_of_findingAbout {declared : List (String × Node)} {declaration : String × Node}
    {place : Nat}
    (h : ObjectParts.conflict location key index ∈
      findingAbout location place declared declaration) :
    declaration.1 = key ∧
      ∃ latest, Table.latest? declared key = some latest ∧ ¬ latest.same declaration.2 := by
  unfold findingAbout at h
  split at h
  · rename_i latest hlatest
    split at h
    · simp at h
    · rename_i hdiffers
      obtain rfl := ObjectParts.conflict_inj (List.mem_singleton.1 h)
      exact ⟨rfl, latest, hlatest, by simpa using hdiffers⟩
  · simp at h

/-- What is declared latest is the property of one of the fragments. -/
theorem exists_of_latest? (hkeys : ∀ m ∈ nodes, (ObjectParts.declaredKeys m).Nodup) {k : Node}
    (h : Table.latest? (declarationsOf nodes) key = some k) :
    ∃ m ∈ nodes, Table.get? m.shape.properties key = some k := by
  have hmem := List.mem_reverse.1 (Table.mem_of_get? h)
  obtain ⟨m, hm, hk⟩ := List.mem_flatMap.1 hmem
  exact ⟨m, hm, (Table.get?_eq_some_iff (hkeys m hm)).2 hk⟩

/-- A conflict about a fragment is one with a fragment before. -/
theorem conflict_of_findingsAbout (hearlier : ∀ m ∈ earlier, (ObjectParts.declaredKeys m).Nodup)
    (hn : (ObjectParts.declaredKeys n).Nodup)
    (h : ObjectParts.conflict location key index ∈ findingsAbout location earlier n) :
    ∃ m ∈ earlier, ∃ k k', Table.get? m.shape.properties key = some k ∧
      Table.get? n.shape.properties key = some k' ∧ ¬ k.same k' := by
  unfold findingsAbout at h
  split at h
  · rename_i properties required additional hshape
    obtain ⟨⟨declared, declaration⟩, hmem, h⟩ := List.mem_flatMap.1 h
    obtain ⟨after, hproperties⟩ := mem_withEarlier.1 hmem
    obtain ⟨rfl, latest, hlatest, hdiffers⟩ := conflict_of_findingAbout h
    rw [ObjectParts.declaredKeys, hshape, Shape.properties] at hn
    have hfound : Table.get? properties declaration.1 = some declaration.2 :=
      (Table.get?_eq_some_iff hn).2 (by simp [hproperties])
    -- The fragment itself declares the property only once.
    have hnone : Table.latest? declared declaration.1 = none := by
      have hapart : (Table.keys declared ++ declaration.1 :: Table.keys after).Nodup := by
        simpa [hproperties, Table.keys] using hn
      obtain ⟨hdeclared, -, hapart⟩ := List.nodup_append.1 hapart
      rw [Table.latest?_of_nodup hdeclared,
        Table.get?_eq_none fun hmem => hapart _ hmem _ (.head _) rfl]
    rw [Table.latest?_append, hnone, Option.none_or] at hlatest
    obtain ⟨m, hm, hk⟩ := exists_of_latest? hearlier hlatest
    exact ⟨m, hm, latest, declaration.2, hk, by rw [hshape]; exact hfound, hdiffers⟩
  · simp at h
  · simp [ObjectParts.conflict, ObjectParts.nonObject, Diagnostic.warning] at h

/-- **A conflict is found where two nodes of a property are not the same.** -/
theorem mergeFragments_conflict (hkeys : ∀ m ∈ nodes, (ObjectParts.declaredKeys m).Nodup)
    (h : ObjectParts.conflict location key index ∈ (mergeFragments nodes location).2) :
    ∃ m ∈ nodes, ∃ m' ∈ nodes, ∃ k k', Table.get? m.shape.properties key = some k ∧
      Table.get? m'.shape.properties key = some k' ∧ ¬ k.same k' := by
  by_cases hone : OneSpeaks nodes
  · simp [mergeFragments_of_oneSpeaks hone] at h
  · rw [mergeFragments_of_not_oneSpeaks hone, mergeObjects_eq] at h
    obtain ⟨⟨before, m'⟩, hmem, hconflict⟩ := List.mem_flatMap.1 h
    obtain ⟨after, rfl⟩ := mem_withEarlier.1 hmem
    have hbefore : ∀ m ∈ before, (ObjectParts.declaredKeys m).Nodup := fun m hm =>
      hkeys m (List.mem_append_left _ hm)
    obtain ⟨m, hm, k, k', hk, hk', hdiffers⟩ :=
      conflict_of_findingsAbout hbefore (hkeys m' (by simp)) hconflict
    exact ⟨m, List.mem_append_left _ hm, m', by simp, k, k', hk, hk', hdiffers⟩

end Findings

/-! ### What is merged -/

/-- The nodes that a composition merges in a run: those of its fragments, and that of the fragment
it adds itself, if any.  What is found about them is reported last. -/
inductive Follow.Merges (follow : Follow) (s : Schema) (location : String) (spine : Bool)
    (u v : Session) : List Node → Prop where
  | intro {fragments own : List Node} {w w' : Session}
      (hfragments : Resolution.eachFrom (Follow.fragmentNode follow location spine) 0 s.allOf u =
        .ok fragments w)
      (hown : Follow.ownFragment follow s location w = .ok own w')
      (hv : v.diagnostics =
        w'.diagnostics ++ (mergeFragments (fragments ++ own) location).2) :
      Merges follow s location spine u v (fragments ++ own)

/-- All fragments that declare the property declare it by the schema, and so does the composition
itself. -/
def Document.DeclaresOnlyAs (d : Document) (s : Schema) (spine : Bool) (key : String)
    (t : Schema) : Prop :=
  ∃ declared, DeclaresAll d key spine s.allOf declared ∧
    ∀ o ∈ declared ++ [Table.get? s.properties key], ∀ u, o = some u → u = t

section Runs

variable {d : Document} {s t : Schema} {location key : String} {name : Option String}
  {spine : Bool} {depth : Nat} {u v : Session} {n : Node} {r : Request}

/-- The nodes that a composition merges are derived. -/
theorem Deriving.merges (hu : Deriving d (.schema s location name spine) u)
    (hform : s.form name spine = .composition)
    (hn : d.follow (depth + 1) (.schema s location name spine) u = .ok n v) :
    ∃ fragments own, (d.follow depth).Merges s location spine u v (fragments ++ own) ∧
      List.Forall₂ (FragmentFrom d.Derives spine) s.allOf fragments ∧ OwnFrom d.Derives s own := by
  have hfollow : ∀ r, Leads s name spine r →
      Brings (fun t => t.Derived d ∧ t.stack = u.stack) (fun _ _ => True) (d.follow depth r)
        fun n _ => d.Derives r n := fun r hlead t ⟨ht, hstack⟩ =>
    ((Derivable.run depth r t ⟨ht, hstack ▸ hu.reaching.leads hlead⟩).and
      (d.follow_steady depth r t)).mono
        (fun n w ⟨⟨hw, hn, _⟩, hlater⟩ => ⟨⟨hw, hlater.stack.trans hstack⟩, hlater, hn⟩)
        fun _ _ _ => trivial
  have hrun : Follow.flatten (d.follow depth) s location name spine u = .ok n v := by
    rwa [Document.follow, Follow.step, Follow.schema_eq, hform] at hn
  obtain ⟨fragments, w, own, w', hfragments, hown, -, hfound⟩ := Follow.exists_of_flatten hrun
  have hfragmentsFrom := (brings_eachFrom (Q := fun f n _ => FragmentFrom d.Derives spine f n)
    (fun _ _ _ _ h _ => h) s.allOf 0 (fun f hf _ =>
      brings_fragmentNode (Q := fun r n _ => d.Derives r n)
        (fun p hp _ => hfollow _ (.fragment hform hf hp))
        fun hr _ => hfollow _ (.inline hform hf hr)) u ⟨hu.kept, rfl⟩).of_ok hfragments
  have hownFrom := (brings_ownFragment (Q := fun r n _ => d.Derives r n)
    (fun t u htu ht => ⟨ht.1.alike htu, htu.stack.trans ht.2⟩) (fun _ _ _ _ h _ => h)
      (fun hadds t ht _ => hfollow _ (.own hform hadds ht)) w hfragmentsFrom.1).of_ok hown
  exact ⟨fragments, own, .intro hfragments hown hfound, hfragmentsFrom.2.2, hownFrom.2.2⟩

/-- **A property has a node of the schema that declares it.** -/
theorem declaringAnswers_derives (d : Document) (key : String) :
    DeclaringAnswers d (Answers d.Derives) key d.Derives := by
  have hlifts : ∀ r n, d.Derives r n → d.Lifts (fun s name spine n =>
      ∀ o, Declares d key s name spine o → DeclaredThrough (Answers d.Derives) key o n) r n :=
    fun r n h => h.induct fun s location name spine n h o ho => h.declaredThrough
      ⟨fun ⟨place, hn⟩ => ⟨place, hn.1⟩, fun hn hp ht ho => hn.2.of_fragment hp ht _ ho,
        fun hn ho => hn.2.of_schema _ ho⟩ ho
  exact ⟨id, fun hn hp ht ho => (hlifts _ _ hn).of_fragment hp ht _ ho,
    fun hn ho => (hlifts _ _ hn).of_schema _ ho⟩

/-- The nodes of the property are nodes of the schema by which alone it is declared. -/
theorem Document.DeclaresOnlyAs.answers (h : d.DeclaresOnlyAs s spine key t)
    (hkeys : (Table.keys s.properties).Nodup) {fragments own : List Node}
    (hfragments : List.Forall₂ (FragmentFrom d.Derives spine) s.allOf fragments)
    (hown : OwnFrom d.Derives s own) {m k : Node} (hm : m ∈ fragments ++ own)
    (hk : Table.get? m.shape.properties key = some k) : ApiBinding.Answers d.Derives t k := by
  obtain ⟨declared, hdeclared, honly⟩ := h
  have hfound : ∃ o ∈ declared ++ [Table.get? s.properties key],
      DeclaredThrough (ApiBinding.Answers d.Derives) key o m := by
    rcases List.mem_append.1 hm with hm | hm
    · have hthrough := (declaringAnswers_derives d key).fragments hdeclared hfragments
      obtain ⟨o, ho, hthrough⟩ := forall₂_exists hthrough.flip hm
      exact ⟨o, List.mem_append_left _ ho, hthrough⟩
    · rcases hown.declaredThrough key (fun _ _ => id) hkeys with ⟨n, rfl, hthrough⟩ | ⟨rfl, -⟩
      · obtain rfl := List.mem_singleton.1 hm
        exact ⟨_, by simp, hthrough⟩
      · simp at hm
  obtain ⟨o, ho, hthrough⟩ := hfound
  obtain ⟨u, rfl, hanswers⟩ := exists_of_rel_some (hk ▸ hthrough.found)
  exact honly _ ho u rfl ▸ hanswers

/-- **A redeclaration by the same schema is reported only if a component stands in it.**

A composition is merged during a run, and all that declare a property in it declare it by one
schema, which belongs to a coherent set.  If a conflict about the property is found among the merged
nodes, at whatever moment and after whatever runs, then a component whose name suffices stands in
one of its nodes. -/
theorem composition_conflict {cut : String → Bool} {V : Schema → Prop} {s₀ : Session}
    {query : Query} (hd : d.Regular) (hV : Coherent d cut V) (hs : s.Regular) (hused : d.Used s₀)
    (hmoment : d.Moment (Document.stepBound (query.size d)) query.request s₀
      (.schema s location name spine) u)
    (hform : s.form name spine = .composition)
    (hn : d.follow (depth + 1) (.schema s location name spine) u = .ok n v) :
    ∃ nodes, (d.follow depth).Merges s location spine u v nodes ∧
      ∀ key t, d.DeclaresOnlyAs s spine key t → V t → ∀ index,
        ObjectParts.conflict location key index ∈ (mergeFragments nodes location).2 →
        ∃ m ∈ nodes, ∃ k c, Table.get? m.shape.properties key = some k ∧ cut c ∧ k.Holds c := by
  have hready := (Deriving.of_used hused.derived hused).moment hmoment
  obtain ⟨fragments, own, hmerges, hfragments, hown⟩ := hready.merges hform hn
  refine ⟨_, hmerges, fun key t honly ht index hconflict => ?_⟩
  have hbodies : ∀ c body, d.schema? c = some body → body.Regular := fun c body hbody =>
    hd.schemas _ (Table.mem_of_get? hbody)
  have htidy := tidy_fragments hs hfragments hown fun r m hm hr => hm.tidy hbodies hr
  obtain ⟨m, hm, m', hm', k, k', hk, hk', hdiffers⟩ :=
    mergeFragments_conflict (fun m hm => (htidy m hm).shape.self.1) hconflict
  have hkeys := hs.keywords.properties
  obtain ⟨place, hderives⟩ := honly.answers hkeys hfragments hown hm hk
  obtain ⟨place', hderives'⟩ := honly.answers hkeys hfragments hown hm' hk'
  -- Both nodes are derived from the one schema, whatever was kept or open for each of them.
  have hread : k.reading cut = k'.reading cut :=
    ((hderives.readsAlike hV).of_schema.self ht place' false k' rfl hderives').1
  by_contra hno
  have hnothing : ∀ m ∈ fragments ++ own, ∀ k, Table.get? m.shape.properties key = some k →
      ∀ c, cut c → ¬ k.Holds c := fun m hm k hk c hc hholds => hno ⟨m, hm, k, c, hk, hc, hholds⟩
  -- Where no component stands, the nodes are spelled out, and they say the same.
  rw [k.reading_eq_unnamed (hnothing m hm k hk), k'.reading_eq_unnamed (hnothing m' hm' k' hk')]
    at hread
  exact hdiffers (Node.same_of_reading k k' ((htidy m hm).inside (Node.inside_of_get? hk)) hread)

end Runs

/-- The breed of a pet. -/
def breed : Schema where
  enumeration := some [.string "poodle", .string "siamese"]

/-- A reference to breeds. -/
def toBreed : Schema where
  reference := some "#/components/schemas/Breed"

/-- A reference to persons. -/
def toPerson : Schema where
  reference := some "#/components/schemas/Person"

/-- A pet has a breed and an owner. -/
def pet : Schema where
  properties := [("breed", toBreed), ("owner", toPerson)]

/-- A person has a pet. -/
def person : Schema where
  properties := [("pet", { reference := some "#/components/schemas/Pet" })]

/-- A dog is a pet, and it is said once more what a pet has. -/
def dog : Schema where
  allOf := [{ reference := some "#/components/schemas/Pet" }, pet]

/-- Persons, pets and dogs. -/
def kennel : Document where
  components.schemas := [("Person", person), ("Pet", pet), ("Dog", dog), ("Breed", breed)]

theorem kennel_regular : kennel.Regular :=
  Document.ofTree?_toJson_iff.1 (by rfl)

/-- The schemas of breeds are coherent: their only reference is one to a component that ends. -/
theorem kennel_coherent : Coherent kennel (fun _ => false) fun s => s = toBreed ∨ s = breed := by
  refine Coherent.of_uncomposed (fun s hs => ?_) (fun s t hs ht => ?_) fun s p hs hr => ?_
  · rcases hs with rfl | rfl <;> exact ⟨rfl, rfl, by decide⟩
  · rcases hs with rfl | rfl <;> cases ht <;> simp_all [toBreed, breed]
  · have hwhole : Pointer.Whole "#/components/schemas/Breed" "Breed" := by decide +kernel
    have hform : breed.form (some "Breed") true =
        .literals [.string "poodle", .string "siamese"] := rfl
    have hends : kennel.Terminates "#/components/schemas/Breed" :=
      Document.terminates_of_whole hwhole rfl ((LeafOf.literals hform).terminates rfl)
    rcases hs with rfl | rfl
    · obtain rfl := Option.some.inj hr
      exact .component hwhole rfl (.inr rfl) hends.not_cyclic
    · simp [breed] at hr

/-- All that declare a property of a dog declare it as it is declared for a pet. -/
theorem kennel_declares {key : String} {t : Schema} (ht : Table.get? pet.properties key = some t) :
    kennel.DeclaresOnlyAs dog true key t := by
  have hwhole : Pointer.Whole "#/components/schemas/Pet" "Pet" := by decide +kernel
  have hpet : pet.PlainObject := ⟨rfl, rfl, rfl, rfl, rfl, rfl, .inr ⟨rfl, rfl, rfl⟩⟩
  have hkeys : (Table.keys pet.properties).Nodup := by decide
  refine ⟨_, .reference rfl hwhole rfl (.object hpet hkeys)
    (.inline rfl (.object hpet hkeys) .nil), fun o ho u hu => ?_⟩
  subst hu
  have hnone : Table.get? dog.properties key = none := rfl
  simp only [hnone, ht, List.cons_append, List.nil_append, List.mem_cons, List.not_mem_nil,
    Option.some.injEq, reduceCtorEq, or_false, or_self] at ho
  exact ho

/-- The session in which a dog is open, and nothing else. -/
def dogOpen : Session where
  stack := [⟨"#/components/schemas/Dog", false, false⟩]

/-- In a run for a dog, its schema is asked for when nothing else is open. -/
theorem kennel_moment :
    kennel.Moment (Document.stepBound ((Query.component "Dog").size kennel))
      (Query.component "Dog").request {}
      (.schema dog "#/components/schemas/Dog" (some "Dog") true) dogOpen := by
  have hsteps : Document.stepBound ((Query.component "Dog").size kennel) ≠ 0 := by decide +kernel
  obtain ⟨depth, hdepth⟩ := Nat.exists_eq_add_one_of_ne_zero hsteps
  have hpointer : Pointer.component "Dog" = "#/components/schemas/Dog" := by decide +kernel
  have hwhole : Pointer.Whole "#/components/schemas/Dog" "Dog" := by decide +kernel
  rw [hdepth, Query.request, hpointer]
  exact .inside (makes_component hwhole rfl rfl Bool.false_ne_true) .start

/-- No conflict is found about the breed of a dog. -/
theorem composition_conflict_kennel : ∃ n v nodes,
    kennel.follow 20 (.schema dog "#/components/schemas/Dog" (some "Dog") true) dogOpen =
        .ok n v ∧
      (kennel.follow 19).Merges dog "#/components/schemas/Dog" true dogOpen v nodes ∧
      ∀ index, ObjectParts.conflict "#/components/schemas/Dog" "breed" index ∉
        (mergeFragments nodes "#/components/schemas/Dog").2 := by
  have hrun : yields
      (kennel.follow 20 (.schema dog "#/components/schemas/Dog" (some "Dog") true)) dogOpen
      (fun _ => true) = true := by
    decide +kernel
  obtain ⟨n, v, hn, -⟩ := exists_of_yields hrun
  have hdog : dog.Regular := kennel_regular.schemas ("Dog", dog) (by simp [kennel])
  obtain ⟨nodes, hmerges, hconflict⟩ :=
    composition_conflict kennel_regular kennel_coherent hdog .start kennel_moment rfl hn
  refine ⟨n, v, nodes, hn, hmerges, fun index hfound => ?_⟩
  obtain ⟨m, -, k, c, -, hc, -⟩ :=
    hconflict "breed" toBreed (kennel_declares rfl) (.inl rfl) index hfound
  simp at hc

/-- **After a person, a conflict is reported about the owner of a dog**, although all that declare
it do so by the same reference: the pet was resolved while the person was open, so its owner is a
back reference, and that of the dog is the finished person. -/
theorem kennel_conflicts : ¬ ∀ (d : Document) (c : String) (body t : Schema) (s₀ v : Session)
    (n : Node) (key : String) (index : Nat), d.Regular → d.Used s₀ → d.schema? c = some body →
    body.form (some c) true = .composition → d.DeclaresOnlyAs body true key t →
    (Query.component c).work d s₀ = .ok n v →
    ObjectParts.conflict (Pointer.component c) key index ∈ v.diagnostics →
    ObjectParts.conflict (Pointer.component c) key index ∈ s₀.diagnostics := by
  intro hsilent
  have hruns : yields (do
      let _ ← (Query.component "Person").work kennel
      let before ← get
      let _ ← (Query.component "Dog").work kennel
      let after ← get
      return (before.diagnostics, after.diagnostics)) ({} : Session)
      (fun (before, after) => before.isEmpty &&
        after.contains (ObjectParts.conflict (Pointer.component "Dog") "owner" 1)) = true := by
    decide +kernel
  obtain ⟨⟨before, after⟩, u, hruns, hfound⟩ := exists_of_yields hruns
  obtain ⟨person, s₀, hperson, hruns⟩ := exists_of_bind hruns
  obtain ⟨_, _, hget, hruns⟩ := exists_of_bind hruns
  cases hget
  obtain ⟨n, _, hdog, hruns⟩ := exists_of_bind hruns
  cases hruns
  simp only [Bool.and_eq_true, List.isEmpty_iff, List.contains_iff_mem] at hfound
  have hbefore := hsilent kennel "Dog" dog toPerson s₀ u n "owner" 1 kennel_regular
    (.run (.component "Person") .start hperson) rfl rfl (kennel_declares rfl) hdog hfound.2
  simp [hfound.1] at hbefore

end ApiBinding
