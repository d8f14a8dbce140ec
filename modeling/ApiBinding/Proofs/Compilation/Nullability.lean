import ApiBinding.Proofs.Compilation.Faults
import ApiBinding.Proofs.Composition.Outlines
import ApiBinding.Proofs.Resolver.BackReferences

/-!
# Back references and `null`

A back reference is made while the node of its component does not exist, so it can only say of
the component what the unresolved schema says: whether a flag or a type name admits `null`.  The
finished node admits `null` for other reasons as well, and then a use of the component inside its
own cycle has another type than a use from outside.

## Main definitions

* `Schema.Rests` — the pointers whose nodes a schema is made from.

## Main results

* `Realm.induct` — induction along compositions.
* `exists_outline` — what the node of a component admits can be read off every description that
  compiles.
* `backReference_nullable` — **when a back reference admits `null` and when the component does.**
* `lists_types` — a component that admits `null` where a back reference to it does not.
-/

namespace ApiBinding

/-! ### Induction along compositions -/

/-- The pointers whose nodes a schema is made from: the one that it only refers to, if it is no
component, and its fragments. -/
inductive Schema.Rests (s : Schema) (name : Option String) (spine : Bool) (p : String) : Prop where
  | reference (hform : s.form name spine = .reference p) (hname : name = none)
  | wrapper (hform : s.form name spine = .wrapper p)
  | fragment {f : Schema} (hform : s.form name spine = .composition) (hf : f ∈ s.allOf)
      (hp : f.reference = some p)

section Induction

variable {d : Document} {V : SchemaSet} {P : Schema → Option String → Bool → Prop}

/-- The pointer leads to a component with the property. -/
def LeadsTo (d : Document) (P : Schema → Option String → Bool → Prop) (p : String) : Prop :=
  ∃ c t, Pointer.Whole p c ∧ d.schema? c = some t ∧ P t (some c) true

/-- The property carries over from what a schema is made from to the schema. -/
def Inherited (d : Document) (V : SchemaSet) (P : Schema → Option String → Bool → Prop) : Prop :=
  ∀ s name spine, V s name spine → (∀ p, s.Rests name spine p → LeadsTo d P p) →
    (∀ f ∈ s.allOf, s.form name spine = .composition → f.reference = none → P f none spine) →
    P s name spine

/-- Inline fragments are smaller, so only the references among the fragments matter. -/
theorem Inherited.of_fragments (hP : Inherited d V P) (hV : Realm d V) {s : Schema}
    {name : Option String} {spine : Bool} (hs : V s name spine)
    (hreference : ∀ p, s.reference = some p → name = none → LeadsTo d P p)
    (hfragments : ∀ p, FragmentOf p s → LeadsTo d P p) : P s name spine := by
  refine hP s name spine hs (fun p hp => ?_) fun f hf hform hr => ?_
  · cases hp with
    | reference hform hname =>
      cases Schema.formed_of_eq hform with
      | reference hr => exact hreference p hr hname
    | wrapper hform =>
      cases Schema.formed_of_eq hform with
      | wrapper hr hw =>
        obtain ⟨⟨only, hall, honly⟩, -⟩ := Schema.wrapped?_eq_some hw
        exact hfragments p (.direct hr (by simp [hall]) honly)
    | fragment hform hf hr =>
      exact hfragments p (.direct (Schema.form_composition hform).1 hf hr)
  · have hin : V f none spine := hV _ _ _ (.schema _ "" none spine) hs (.inline hform hf hr)
    exact hP.of_fragments hV hin (by simp [hr]) fun p hp =>
      hfragments p (.inline (Schema.form_composition hform).1 hf hp)
termination_by s.size
decreasing_by exact (Schema.Inside.allOf hf).size_lt

/-- **Induction along compositions**, in a realm in which no composition goes on for ever. -/
theorem Realm.induct (hV : Realm d V) (hg : ∀ c s, d.schema? c = some s → d.Grounded c)
    (hP : Inherited d V P) {s : Schema} {name : Option String} {spine : Bool}
    (hs : V s name spine) : P s name spine := by
  -- For components the induction is on how far they are from those without fragments.
  have hcomponent : ∀ c, d.Grounded c → ∀ t, d.schema? c = some t → V t (some c) true →
      P t (some c) true := by
    intro c hc
    induction hc with
    | intro c _ ih =>
      intro t ht hVt
      refine hP.of_fragments hV hVt (fun _ _ hname => by simp at hname) fun p hp => ?_
      obtain ⟨c', t', rfl, ht', hVt'⟩ := hV.entered hVt hp
      have hwhole := Pointer.whole_component c'
      exact ⟨c', t', hwhole, ht', ih c' ⟨t, _, ht, hp, hwhole⟩ t' ht' hVt'⟩
  have hentered : ∀ p, Entered d V p → LeadsTo d P p := by
    rintro _ ⟨c, t, rfl, ht, hVt⟩
    exact ⟨c, t, Pointer.whole_component c, ht, hcomponent c (hg c t ht) t ht hVt⟩
  refine hP.of_fragments hV hs (fun p hr hname => hentered p ?_) fun p hp =>
    hentered p (hV.entered hs hp)
  exact hV _ _ _ (.reference p "" false) hs (.reference (by simp [Schema.form, hr]))

end Induction

/-! ### Every component has an outline -/

section Outlines

variable {d : Document} {V : SchemaSet}

/-- Whether a schema is a leaf can be told from what it is made from. -/
theorem leafOf_inherited : Inherited d V fun s name spine => ∃ b, LeafOf d s name spine b := by
  intro s name spine _ hrests hinline
  cases hform : s.form name spine with
  | reference p =>
    cases name with
    | some name => exact ⟨_, .named hform⟩
    | none =>
      obtain ⟨c, t, hp, ht, b, hb⟩ := hrests p (.reference hform rfl)
      exact ⟨_, .reference hform hp ht hb⟩
  | wrapper p =>
    obtain ⟨c, t, hp, ht, b, hb⟩ := hrests p (.wrapper hform)
    exact ⟨_, .wrapper hform hp ht hb⟩
  | composition =>
    -- With properties of its own the schema is an object, and its fragments do not matter.
    by_cases hadds : s.addsFragment
    · exact ⟨_, .object hform hadds⟩
    · obtain ⟨bs, hbs⟩ := exists_leavesOf (fun f hf p hp => hrests p (.fragment hform hf hp))
        fun f hf => hinline f hf hform
      exact ⟨_, .composition hform hadds hbs⟩
  | union keyword members => exact ⟨_, .union hform⟩
  | literals values => exact ⟨_, .literals hform⟩
  | plain => exact ⟨_, .plain hform⟩

/-- The outlines of fragments, one after the other. -/
theorem exists_outlinesOf : ∀ {fs : List Schema},
    (∀ f ∈ fs, ∀ p, f.reference = some p →
      LeadsTo d (fun t name _ => ∃ o, OutlineOf d t name o) p) →
    (∀ f ∈ fs, f.reference = none → ∃ o, OutlineOf d f none o) → ∃ os, OutlinesOf d fs os
  | [], _, _ => ⟨[], .nil⟩
  | f :: rest, hreference, hinline => by
    obtain ⟨os, hos⟩ := exists_outlinesOf (fun f hf => hreference f (.tail _ hf))
      fun f hf => hinline f (.tail _ hf)
    cases hr : f.reference with
    | some p =>
      obtain ⟨c, t, hp, ht, o, ho⟩ := hreference f (.head _) p hr
      exact ⟨o :: os, .reference hr hp ht ho hos⟩
    | none =>
      obtain ⟨o, ho⟩ := hinline f (.head _) hr
      exact ⟨o :: os, .inline hr ho hos⟩

/-- The outline of a schema can be told from what it is made from and from the leaves that its
members are. -/
theorem outlineOf_inherited
    (hleaf : ∀ s, V s none false → ∃ b, LeafOf d s none false b) (hV : Realm d V) :
    Inherited d V fun s name spine =>
      spine → (s.reference.isSome → name.isSome) → ∃ o, OutlineOf d s name o := by
  intro s name spine hs hrests hinline hspine hname
  subst hspine
  cases hform : s.form name true with
  | reference p =>
    cases Schema.formed_of_eq hform with
    | reference hr =>
      obtain ⟨c, rfl⟩ := Option.isSome_iff_exists.1 (hname (by simp [hr]))
      exact ⟨_, .named hform⟩
  | wrapper p =>
    cases Schema.formed_of_eq hform with
    | wrapper _ hw => exact absurd (Schema.wrapped?_eq_some hw).2.2.2 (by simp)
  | composition =>
    by_cases hadds : s.addsFragment
    · exact ⟨_, .record hform hadds⟩
    · have hreference : ∀ f ∈ s.allOf, ∀ p, f.reference = some p →
          LeadsTo d (fun t name _ => ∃ o, OutlineOf d t name o) p := fun f hf p hp => by
        obtain ⟨c, t, hwhole, ht, ho⟩ := hrests p (.fragment hform hf hp)
        exact ⟨c, t, hwhole, ht, ho rfl fun _ => rfl⟩
      obtain ⟨os, hos⟩ := exists_outlinesOf hreference
        fun f hf hr => hinline f hf hform hr rfl (by simp [hr])
      exact ⟨_, .composition hform hadds hos⟩
  | union keyword members =>
    obtain ⟨bs, hbs⟩ := exists_forall₂ fun m hm =>
      hleaf m (hV _ _ _ (.schema m "" none false) hs (.member hform hm))
    exact ⟨_, .union hform hbs⟩
  | literals values => exact ⟨_, .literals hform⟩
  | plain =>
    by_cases hobject : s.PlainObject
    · exact ⟨_, .object hobject⟩
    · exact ⟨_, .plain hform hobject⟩

/-- In a description that compiles no composition goes on for ever. -/
theorem grounded_of_compile {config : Config} {compilation : Compilation}
    (hc : compile config d = .ok compilation) {c : String} {s : Schema}
    (hs : d.schema? c = some s) : d.Grounded c := by
  have h := compile_grounded config d
  rw [hc] at h
  exact h c (Document.mem_componentNames hs)

/-- It is known of every schema of a description that compiles whether it is a leaf, if all pointers
address whole components. -/
theorem exists_leafOf {config : Config} {compilation : Compilation}
    (hc : compile config d = .ok compilation) (hw : d.WholeReferences config) {s : Schema}
    {name : Option String} {spine : Bool} (hs : d.Visits config s name spine) :
    ∃ b, LeafOf d s name spine b :=
  ((compile_sound hc).realm hw).induct (fun _ _ => grounded_of_compile hc) leafOf_inherited hs

/-- **Every component of a description that compiles has an outline**, if all pointers address
whole components. -/
theorem exists_outline {config : Config} {compilation : Compilation}
    (hc : compile config d = .ok compilation) (hw : d.WholeReferences config) {c : String}
    {s : Schema} (hs : d.schema? c = some s) : ∃ o, OutlineOf d s (some c) o := by
  have hrealm := (compile_sound hc).realm hw
  have hinherited := outlineOf_inherited (fun _ hs => exists_leafOf hc hw hs) hrealm
  exact hrealm.induct (fun _ _ => grounded_of_compile hc) hinherited
    (Document.Visits.component hs .here) rfl fun _ => rfl

end Outlines

/-! ### Back references and components -/

section Types

variable {naming : NamingConfig} {w : Workbench} {c model : String}

/-- The type of a back reference is the model of the component, optional if the back reference
admits `null`. -/
theorem Typing.nodeType_backRef {m : Node} (hshape : m.shape = .backRef c) (hname : m.name = none)
    (hmodel : w.registry.componentModel? c = some model) (hint location : String) :
    (nodeType naming m hint location w).1 = .orNull (.reference model) m.nullable := by
  obtain ⟨serial, shape, nullable, name, description, default⟩ := m
  obtain rfl : shape = .backRef c := hshape
  obtain rfl : name = none := hname
  have hrun : componentModel? c w = (some model, w) := congrArg (·, w) hmodel
  simp [nodeType, shapeType, bind, StateT.bind, pure_apply, hrun, TypeRef.orNull]

/-- The type of the node of a component is the model of the component, optional if the node admits
`null`. -/
theorem Typing.nodeType_component {n : Node} (hname : n.name = some c)
    (hmodel : w.registry.componentModel? c = some model) (hint location : String) :
    (nodeType naming n hint location w).1 = .orNull (.reference model) n.nullable := by
  obtain ⟨serial, shape, nullable, name, description, default⟩ := n
  obtain rfl : name = some c := hname
  have hrun : componentModel? c w = (some model, w) := congrArg (·, w) hmodel
  simp [nodeType, bind, StateT.bind, pure_apply, hrun, TypeRef.orNull]

end Types

/-- **When a back reference admits `null`, and when the component does.**

A back reference to a component admits `null` if and only if the unresolved schema of the component
says so itself, by a flag or a type name.  Then the finished node of the component admits `null`,
too.  The finished node admits `null` if and only if its outline does; so the two agree unless it
is only by a list of values, a member of a union, or a fragment that the component admits `null`.

Uses inside the cycle and outside of it have the model of the component as their type, which is
optional where the back reference admits `null`, or the finished node does.  The outline can be
read off every description that compiles and addresses whole components only. -/
theorem backReference_nullable {d : Document} {c : String} {s : Schema} {m n : Node}
    (hs : d.schema? c = some s) (hm : d.RefersBack c m) (hn : d.Finishes c n) :
    m.shape = .backRef c ∧ m.nullable = s.isNullable ∧ (m.nullable → n.nullable) ∧
    (∀ o, OutlineOf d s (some c) o →
      n.nullable = o.nullable ∧ (m.nullable = n.nullable ↔ (o.nullable → s.isNullable))) ∧
    (∀ naming (w : Workbench) model, w.registry.componentModel? c = some model →
      ∀ hint location,
        (Typing.nodeType naming m hint location w).1 = .orNull (.reference model) m.nullable ∧
        (Typing.nodeType naming n hint location w).1 = .orNull (.reference model) n.nullable) ∧
    ∀ config compilation, compile config d = .ok compilation → d.WholeReferences config →
      ∃ o, OutlineOf d s (some c) o := by
  obtain ⟨serial, rfl⟩ := hm.eq hs
  have houtlined : Outlined d s (some c) true n :=
    (outlineClaims_sound d).finishes (fun _ => id) hn s hs
  refine ⟨rfl, rfl, houtlined.nullable rfl, fun o ho => ?_,
    fun naming w model hmodel hint location =>
    ⟨Typing.nodeType_backRef rfl rfl hmodel hint location,
      Typing.nodeType_component (houtlined.named c rfl) hmodel hint location⟩,
    fun config compilation hc hw => exists_outline hc hw hs⟩
  -- The outline speaks of the finished node; the flag of the schema speaks of the back reference.
  have hnullable : n.nullable = o.nullable :=
    congrArg Outline.nullable (houtlined.outline rfl o ho)
  rw [← hnullable]
  exact ⟨rfl, fun hagree h => hagree.trans h, fun h =>
    Bool.eq_iff_iff.2 ⟨houtlined.nullable rfl, h⟩⟩

/-- The empty list. -/
def emptyList : Schema where
  declaredType := some (.single "null")

/-- A reference to a list. -/
def listReference : Schema where
  reference := some "#/components/schemas/List"

/-- A cell of a list, with the rest of the list. -/
def listCell : Schema where
  declaredType := some (.single "object")
  properties := [("next", listReference)]

/-- A list is empty or a cell. -/
def listOrNull : Schema where
  oneOf := [emptyList, listCell]

/-- Lists, and holders of lists. -/
def lists : Document where
  components.schemas :=
    [("List", listOrNull),
     ("Holder", { declaredType := some (.single "object")
                  properties := [("list", listReference)] })]

/-- The session in which the list is open and some nodes have been made. -/
def listOpen (issued : Nat) : Session where
  stack := [⟨"#/components/schemas/List", false, false⟩]
  issued := issued

/-- From a list, the cell refers back to the list. -/
theorem lists_moment (depth : Nat) :
    lists.Moment (depth + 5) (Query.component "List").request {}
      (.reference "#/components/schemas/List" "#/components/schemas/List/oneOf/1/properties/next"
        false) (listOpen 1) := by
  have hlist : Pointer.Whole "#/components/schemas/List" "List" := by decide +kernel
  have hrequest : (Query.component "List").request =
      .reference "#/components/schemas/List" "#/components/schemas/List" false := by
    have hpointer : Pointer.component "List" = "#/components/schemas/List" := by decide +kernel
    rw [Query.request, hpointer]
  rw [hrequest]
  refine .inside (makes_component hlist rfl rfl Bool.false_ne_true) ?_
  -- The first member has been answered when the second one is asked for.
  have hmember : Makes lists (lists.follow (depth + 3))
      (.schema listOrNull "#/components/schemas/List" (some "List") true) (listOpen 0)
      (.schema listCell "#/components/schemas/List/oneOf/1" none false) (listOpen 1) := by
    intro answer e hq hothers
    have hfirst : answer (.schema emptyList "#/components/schemas/List/oneOf/0" none false)
        (listOpen 0) = .ok ⟨0, .null, false, none, none, none⟩ (listOpen 1) := by
      rw [hothers _ _ (by simp [listOpen])]
      rfl
    have hvariant : Follow.variant answer lists listOrNull .oneOf "#/components/schemas/List" 0
        emptyList (listOpen 0) =
          .ok ⟨⟨0, .null, false, none, none, none⟩, none, none⟩ (listOpen 1) := bind_of_ok hfirst
    have hsecond : Follow.variant answer lists listOrNull .oneOf "#/components/schemas/List" 1
        listCell (listOpen 1) = .error e (listOpen 1) := bind_of_error hq
    refine ⟨listOpen 1, bind_of_error (f := _) ?_⟩
    exact (bind_of_ok hvariant).trans (bind_of_error (bind_of_error hsecond))
  refine .inside hmember ?_
  have hproperty : Makes lists (lists.follow (depth + 2))
      (.schema listCell "#/components/schemas/List/oneOf/1" none false) (listOpen 1)
      (.schema listReference "#/components/schemas/List/oneOf/1/properties/next" none false)
      (listOpen 1) := by
    refine makes_of_ends fun answer e hq => ?_
    simp [Follow.step, Follow.schema, Follow.plainShape, Follow.typed, Schema.typeNames,
      Follow.object, Resolution.each, Follow.propertyNode, listCell]
    exact hq.mono_ok fun _ _ h => h.elim
  refine .inside hproperty ?_
  exact .inside (makes_reference rfl) .start

/-- The cell refers back to the list, and does not admit `null`. -/
theorem lists_refersBack :
    lists.RefersBack "List" ⟨1, .backRef "List", false, none, none, none⟩ := by
  have hdepth : Document.stepBound ((Query.component "List").size lists) = 295 + 5 := by
    decide +kernel
  have hmoment := lists_moment 295
  rw [← hdepth] at hmoment
  have hanswer : lists.follow 1 (.reference "#/components/schemas/List"
      "#/components/schemas/List/oneOf/1/properties/next" false) (listOpen 1) =
        .ok ⟨1, .backRef "List", false, none, none, none⟩ (listOpen 2) := rfl
  exact .intro .start hmoment (by decide +kernel) ⟨_, .head _, rfl⟩ hanswer

/-- The list admits `null`. -/
theorem lists_finishes : ∃ n, lists.Finishes "List" n ∧ n.nullable = true := by
  have hrun : ∃ n t, (Query.component "List").work lists {} = .ok n t ∧
      Table.get? t.cache "#/components/schemas/List" = some n ∧ n.nullable = true :=
    ⟨_, _, rfl, rfl, rfl⟩
  obtain ⟨n, t, hn, hkept, hnullable⟩ := hrun
  exact ⟨n, ⟨t, _, .run _ .start hn, by decide +kernel, hkept⟩, hnullable⟩

/-- The outline of a list: one member of the union is `null`. -/
theorem lists_outline : OutlineOf lists listOrNull (some "List") ⟨false, false, true⟩ := by
  have hmembers : List.Forall₂ (fun m b => LeafOf lists m none false b) [emptyList, listCell]
      [some ⟨.null, false⟩, none] := .cons (.plain rfl) (.cons (.plain rfl) .nil)
  exact .union rfl hmembers

/-- The list admits `null` by a member of its union, so a back reference to it does not. -/
theorem backReference_nullable_lists : ∃ m n, lists.RefersBack "List" m ∧
    lists.Finishes "List" n ∧ m.nullable = false ∧ n.nullable = true := by
  obtain ⟨n, hn, -⟩ := lists_finishes
  obtain ⟨-, hm, -, houtline, -⟩ := backReference_nullable (s := listOrNull) rfl lists_refersBack hn
  exact ⟨_, n, lists_refersBack, hn, hm, (houtline _ lists_outline).1⟩

/-- **A component that admits `null`, and a back reference to it that does not.**  So the field of a
holder is optional, and the field inside the list is not. -/
theorem lists_types : (∃ m n, lists.RefersBack "List" m ∧ lists.Finishes "List" n ∧
      m.nullable ≠ n.nullable) ∧
    ∃ c, compile {} lists = .ok c ∧
      c.interface.models.map (fun m => (m.name, m.body.types)) =
        [("List", [.reference "ListOption1"]), ("Holder", [.optional (.reference "List")]),
          ("ListOption1", [.reference "List"])] := by
  obtain ⟨n, hn, hnullable⟩ := lists_finishes
  refine ⟨⟨_, n, lists_refersBack, hn, by simp [hnullable]⟩, ?_⟩
  obtain ⟨c, hc⟩ := compile_eq_ok {} lists (by decide +kernel)
  have hmodels : (compile {} lists).toOption.map
      (fun c => c.interface.models.map fun m => (m.name, m.body.types)) =
        some [("List", [.reference "ListOption1"]), ("Holder", [.optional (.reference "List")]),
          ("ListOption1", [.reference "List"])] := by
    decide +kernel
  rw [hc] at hmodels
  exact ⟨c, hc, Option.some.inj hmodels⟩

end ApiBinding
