import ApiBinding.Proofs.Compilation.Order
import ApiBinding.Proofs.Composition.Tags
import Mathlib.Data.List.Permutation

/-!
# Tags and the order of components

The order of components decides which components are open when a union is resolved.  From the
union itself, all its members are finished.  From a component that leads back to the union, the
member that refers to the component gets its tag from the unresolved schema.  So the tags do not
depend on the order if and only if no such member wavers between two tags.

## Main definitions

* `Document.HasTags` — the tags of the union of a component, as it is compiled.
* `Wavers` — the tag of a member depends on whether its component is open.

## Main results

* `compile_claims_first` — the node of a component that stands first, and the nodes of what it
  refers to.
* `compile_tags` — **how far the order of components decides the tags of a union.**
* `wrapped_tags` — two orders of one description with different tags.
-/

namespace ApiBinding

/-! ### The model of a tagged union -/

theorem Typing.length_memberTypes (naming : NamingConfig) :
    ∀ (nodes : List Node) (index : Nat) (hint location : String) (w : Workbench),
      ((memberTypes naming index nodes hint location) w).1.length = nodes.length
  | [], _, _, _, _ => rfl
  | node :: rest, index, hint, location, w => by
    have h := length_memberTypes naming rest (index + 1) hint location
      (nodeType naming node (optionHint hint index) location w).2
    exact congrArg (· + 1) h

theorem Typing.tagVariants_tag {types : List TypeRef} {tags : List String}
    (h : types.length = tags.length) :
    (tagVariants types tags).map UnionVariant.tag = tags.map some := by
  refine List.ext_getElem? fun i => ?_
  simp only [tagVariants, List.getElem?_map, List.getElem?_zipIdx]
  by_cases hi : i < types.length
  · simp [List.getElem?_eq_getElem hi, List.getElem?_eq_getElem (h ▸ hi)]
  · simp [List.getElem?_eq_none (Nat.le_of_not_lt hi),
      List.getElem?_eq_none (h ▸ Nat.le_of_not_lt hi)]

/-- The model of a tagged union has its tags. -/
theorem MadeFrom.tagged {naming : NamingConfig} {property : String} {tags : List String}
    {body : ModelBody} (h : MadeFrom naming (fun n => n.TaggedAs property tags) body) :
    ∃ variants, body = .union variants (some property) ∧
      variants.map UnionVariant.tag = tags.map some := by
  obtain ⟨n, name, location, w, ⟨nodes, hshape, hlength⟩, rfl⟩ := h
  refine ⟨Typing.tagVariants ((Typing.memberTypes naming 0 nodes name location) w).1 tags, ?_,
    Typing.tagVariants_tag ?_⟩
  · unfold Typing.modelBody
    simp only [hshape, reduceCtorEq, false_and, if_false]
    rfl
  · rw [Typing.length_memberTypes, hlength]

/-- The model of the component is a union with the tags. -/
def UnionTags (models : List Model) (component property : String) (tags : List String) : Prop :=
  ∃ m variants, ModelOf models component m ∧ m.body = .union variants (some property) ∧
    variants.map UnionVariant.tag = tags.map some

theorem UnionTags.unique {models : List Model} {component property : String}
    {tags tags' : List String} (h : UnionTags models component property tags)
    (h' : UnionTags models component property tags') : tags = tags' := by
  obtain ⟨m, variants, hm, hbody, htags⟩ := h
  obtain ⟨m', variants', hm', hbody', htags'⟩ := h'
  rw [hm.unique m' hm'.mem hm'.sourceName, hbody, ModelBody.union.injEq] at hbody'
  rw [← hbody'.1, htags] at htags'
  exact List.map_injective_iff.2 (Option.some_injective _) htags'

/-- The description compiles, and the union of the component has the tags. -/
def Document.HasTags (config : Config) (d : Document) (component property : String)
    (tags : List String) : Prop :=
  ∃ c, compile config d = .ok c ∧ UnionTags c.interface.models component property tags

theorem Document.HasTags.unique {config : Config} {d : Document} {component property : String}
    {tags tags' : List String} (h : d.HasTags config component property tags)
    (h' : d.HasTags config component property tags') : tags = tags' := by
  obtain ⟨c, hc, htags⟩ := h
  obtain ⟨c', hc', htags'⟩ := h'
  rw [hc, Except.ok.injEq] at hc'
  exact htags.unique (hc' ▸ htags')

/-! ### The component that stands first -/

/-- A component that is kept has the kept node. -/
theorem Document.resolveComponent_kept {d : Document} {c : String} {s : Session} {n : Node}
    (hstack : s.stack = []) (hn : Table.get? s.cache (Pointer.component c) = some n) :
    Ends (d.resolveComponent c) s (fun m _ => m = n) fun _ _ => True := by
  obtain ⟨depth, heq⟩ := d.resolve_eq (Pointer.component c)
  have hno : ¬ s.inProgress (Pointer.component c) := by
    rw [Session.inProgress_iff]
    exact Claims.not_openIn_nil hstack _
  unfold Document.resolveComponent
  rw [heq]
  refine Follow.reference_ends (fun _ _ => trivial) (fun m hm => ?_)
    (fun _ _ hprogress => absurd hprogress hno) (fun _ _ _ _ => trivial) fun _ _ hnone => ?_
  · exact (Option.some.inj (hm.symm.trans hn))
  · simp [hn] at hnone

/-- The component refers to the other one, directly or on a way. -/
def Document.Reaches (d : Document) (c b : String) : Prop :=
  Relation.ReflTransGen d.Refers (Pointer.component c) (Pointer.component b)

/-- A session in which components have been resolved, the given one first. -/
structure FirstDone (K : Claims) (d : Document) (c : String) (done : List String) (s : Session) :
    Prop where
  stack : s.stack = []
  shut : s.Shut d
  empty : done = [] → s.cache = []
  kept : done ≠ [] → ∀ b, d.Reaches c b →
    ∃ n, Table.get? s.cache (Pointer.component b) = some n ∧ K.component b n

/-- What is claimed of the nodes of components if the given one is resolved first. -/
structure FirstClaims (K : Claims) (d : Document) (c : String) (body : Schema) (b : String)
    (n : Node) : Prop where
  reached : d.Reaches c b → K.component b n
  first : b = c → ∃ opened : String → Prop, (∀ q, opened q ↔ q = Pointer.component c) ∧
    K.schema opened body (some c) true n

section First

variable {config : Config} {d d' : Document} {K : Claims} {c : String}

-- What is known of the end of a resolution is not to be unfolded to the resolution itself.
attribute [local irreducible] Ends

theorem FirstDone.alike {done : List String} {s t : Session} (h : FirstDone K d c done s)
    (hst : s.Alike t) : FirstDone K d c done t where
  stack := hst.stack.trans h.stack
  shut := h.shut.alike hst
  empty hdone := hst.cache.trans (h.empty hdone)
  kept hdone b hb := by
    rw [hst.cache]
    exact h.kept hdone b hb

/-- What is kept stays so. -/
theorem FirstDone.retains {done done' : List String} {s t : Session} (h : FirstDone K d c done s)
    (hdone : done ≠ []) (hdone' : done' ≠ []) (hst : s.Later t) (hshut : t.Shut d)
    (ht : t.Retains s.cache) : FirstDone K d c done' t where
  stack := hst.stack.trans h.stack
  shut := hshut
  empty hnil := absurd hnil hdone'
  kept _ b hb := by
    obtain ⟨n, hn, hclaim⟩ := h.kept hdone b hb
    exact ⟨n, (ht _ b n (Pointer.whole_component b) hn).1, hclaim⟩

theorem FirstDone.retained {done : List String} {s : Session} (h : FirstDone K d c done s) :
    s.Retains s.cache :=
  fun _ _ _ _ hn => ⟨hn, Claims.not_openIn_nil h.stack _⟩

/-- The component that stands first is resolved; everything that it refers to is kept then. -/
theorem FirstDone.start (hK : K.Sound d) (hbase : ∀ q, K.base q → q = Pointer.component c)
    {V : SchemaSet} (hV : Realm d V) (hentered : Entered d V (Pointer.component c))
    {body : Schema} (hbody : d.schema? c = some body) {s : Session}
    (h : FirstDone K d c [] s) :
    Ends (d.resolveComponent c) s
      (fun n t => FirstDone K d c [c] t ∧ FirstClaims K d c body c n) fun _ _ => True := by
  have hcache := h.empty rfl
  have hnone : Table.get? s.cache (Pointer.component c) = none := by simp [hcache]
  have hkept : K.Kept s := fun p c n _ hn => by simp [hcache] at hn
  have hsettles := d.follow_settles hV (Document.stepBound d.size)
    (.reference (Pointer.component c) (Pointer.component c) false) s ⟨hentered, h.shut⟩
  have hfirst := hK.resolveFirst hbase hkept h.stack hnone hbody
  refine ((hfirst.and hsettles).and (d.resolve_ends (Pointer.component c) s)).mono
    (fun n t ⟨⟨⟨ht, hn, hopened⟩, hshut, hsettled⟩, hlater⟩ => ⟨?_, fun _ => hn, fun _ => hopened⟩)
    fun _ _ _ => trivial
  have hstack : t.stack = [] := hlater.stack.trans h.stack
  have hkeeps : t.Keeps (Pointer.component c) := by
    cases hsettled with
    | kept hkept => exact hkept
    | opened hopened => exact absurd hopened (Claims.not_openIn_nil h.stack _)
  refine ⟨hstack, hshut, fun hnil => absurd hnil (List.cons_ne_nil _ _), fun _ b hb => ?_⟩
  obtain ⟨n, hn⟩ := Option.isSome_iff_exists.1 (hshut.reaches hV hstack hkeeps hentered hb)
  exact ⟨n, hn, (ht _ b n (Pointer.whole_component b) hn).1⟩

/-- A later component is not the one that stands first. -/
theorem ne_first {names rest done rest' : List String} {b : String} (hnodup : names.Nodup)
    (hnames : names = c :: rest) (hsplit : names = done ++ b :: rest') (hdone : done ≠ []) :
    b ≠ c := by
  rintro rfl
  have hmem : b ∈ done := by
    cases done with
    | nil => exact absurd rfl hdone
    | cons a before =>
      rw [hnames, List.cons_append, List.cons.injEq] at hsplit
      exact hsplit.1 ▸ .head _
  rw [hsplit, List.nodup_append] at hnodup
  exact hnodup.2.2 b hmem b (.head _) rfl

/-- A later component is resolved.  If the first one refers to it, it is kept already. -/
theorem FirstDone.later {V : SchemaSet} (hV : Realm d V) {b : String} {body : Schema}
    (hentered : Entered d V (Pointer.component b)) (hbc : b ≠ c) {done : List String}
    {s : Session} (h : FirstDone K d c done s) (hdone : done ≠ []) :
    Ends (d.resolveComponent b) s
      (fun n t => FirstDone K d c (b :: done) t ∧ FirstClaims K d c body b n)
      fun _ _ => True := by
  have hsettles := d.follow_settles hV (Document.stepBound d.size)
    (.reference (Pointer.component b) (Pointer.component b) false) s ⟨hentered, h.shut⟩
  have hretains := d.follow_retains s.cache (Document.stepBound d.size)
    (.reference (Pointer.component b) (Pointer.component b) false) s h.retained
  have hclaims : Ends (d.resolveComponent b) s (fun n _ => FirstClaims K d c body b n)
      fun _ _ => True := by
    by_cases hreach : d.Reaches c b
    · obtain ⟨n, hn, hclaim⟩ := h.kept hdone b hreach
      exact (Document.resolveComponent_kept h.stack hn).mono_ok fun m _ hm =>
        ⟨fun _ => hm ▸ hclaim, fun h => absurd h hbc⟩
    · exact ends_trivial (fun _ _ => ⟨fun h => absurd h hreach, fun h => absurd h hbc⟩)
        fun _ _ => trivial
  refine (((hsettles.and hretains).and hclaims).and
    (d.resolve_ends (Pointer.component b) s)).mono
    (fun n t ⟨⟨⟨⟨hshut, _⟩, ht⟩, hn⟩, hlater⟩ => ⟨?_, hn⟩) fun _ _ _ => trivial
  exact h.retains hdone (List.cons_ne_nil _ _) hlater hshut ht

/-- A schema of an operation is resolved. -/
theorem FirstDone.operation {V : SchemaSet} (hV : Realm d V) {t : Schema} {location : String}
    (hvisits : V t none false) {done : List String} {s : Session} (h : FirstDone K d c done s)
    (hdone : done ≠ []) :
    Ends (d.resolveSchema t location) s (fun _ u => FirstDone K d c done u) fun _ _ => True := by
  have hsettles := d.follow_settles hV (Document.stepBound (d.size + t.size))
    (.schema t location none false) s ⟨hvisits, h.shut⟩
  have hretains := d.follow_retains s.cache (Document.stepBound (d.size + t.size))
    (.schema t location none false) s h.retained
  exact ((hsettles.and hretains).and (d.resolveSchema_ends t location s)).mono
    (fun n u ⟨⟨⟨hshut, _⟩, hu⟩, hlater⟩ => h.retains hdone hdone hlater hshut hu)
    fun _ _ _ => trivial

/-- **The component that stands first is resolved while nothing else is open**, and what it
refers to is resolved while it is open. -/
theorem compile_claims_first (hK : K.Sound d) (hbase : ∀ q, K.base q → q = Pointer.component c)
    (hw : d.WholeReferences config) (hd : d'.Reorders d) {rest : List String}
    (hnames : d'.componentNames = c :: rest) {compilation : Compilation}
    (hcompile : compile config d' = .ok compilation) {body : Schema}
    (hbody : d.schema? c = some body) :
    Compiled config d' (FirstClaims K d c body) (fun _ => True) compilation := by
  have hs : d.Sound config := hd.symm.sound (compile_sound hcompile)
  have hrealm := hs.realm hw
  have hentered : ∀ b ∈ d'.componentNames, Entered d (d.Visits config) (Pointer.component b) := by
    intro b hb
    obtain ⟨t, ht⟩ := Document.schema?_of_mem (hd.mem_componentNames.1 hb)
    exact ⟨b, t, rfl, ht, .component ht .here⟩
  have hruns := compile_ends config d' (J := FirstDone K d c) (E := fun _ => True)
    (P := FirstClaims K d c body) (R := fun _ => True) (fun _ _ _ hst h => h.alike hst)
    ⟨rfl, .empty rfl, fun _ => rfl, fun h => absurd rfl h⟩ ?_ ?_ fun _ _ _ _ _ => trivial
  · simpa only [hcompile] using hruns
  · rintro done b rest' hsplit s hdone
    have hb : b ∈ d'.componentNames := by simp [hsplit]
    rw [hd.agrees.resolveComponent_eq]
    cases done with
    | nil =>
      rw [hnames, List.reverse_nil, List.nil_append, List.cons.injEq] at hsplit
      obtain ⟨rfl, -⟩ := hsplit
      exact hdone.start hK hbase hrealm (hentered c hb) hbody
    | cons last before =>
      have hbc : b ≠ c := ne_first hd.symm.nodup hnames hsplit (by simp)
      exact hdone.later hrealm (hentered b hb) hbc (List.cons_ne_nil _ _)
  · intro t ht location s hdone
    rw [hd.uses_eq] at ht
    rw [hd.agrees.resolveSchema_eq]
    have hvisits : d.Visits config t none false := .operation ht .here
    exact (hdone.operation hrealm hvisits (by simp [hnames])).mono_ok fun _ _ hu => ⟨hu, trivial⟩

end First

/-! ### Tags that waver -/

/-- The tag of a member depends on whether its component is open, and the component leads back
to the union. -/
structure Wavers (d : Document) (D : Discriminator) (union : String)
    (e : Schema × Option String) (component : String) : Prop where
  leads : ∃ p q, e.1.OnlyRefers p ∧ Pointer.Whole p component ∧ Pointer.Whole q union ∧
    Relation.ReflTransGen d.Refers p q
  tag : e.2 ≠ none
  differs : d.openTag D e.1 component ≠ e.2

section Union

variable {config : Config} {d d' : Document} {D : Discriminator} {U : String} {s : Schema}
  {tagged : List (Schema × Option String)}

/-- If open components make no difference, the members have the tags of their finished nodes. -/
theorem picks_eq {opened : String → Prop} {picks : List (Option String)}
    (h : List.Forall₂ (Pick d D opened) tagged picks)
    (hsame : ∀ e ∈ tagged, ∀ p c, e.1.OnlyRefers p → Pointer.Whole p c → opened p → e.2 ≠ none →
      d.openTag D e.1 c = e.2) : picks = tagged.map Prod.snd := by
  induction h with
  | nil => rfl
  | @cons e pick rest picks hpick _ ih =>
    have hrest := ih fun e he => hsame e (.tail _ he)
    have hfirst : pick = e.2 := by
      by_cases hopened : ∃ p c, e.1.OnlyRefers p ∧ Pointer.Whole p c ∧ opened p
      · obtain ⟨p, c, hp, hc, hopened⟩ := hopened
        by_cases hnone : e.2 = none
        · rw [hpick.none_iff.2 hnone, hnone]
        · rw [hpick.opened p c hp hc hopened hnone, hsame e (.head _) p c hp hc hopened hnone]
      · exact hpick.closed fun p c hp hc ho => hopened ⟨p, c, hp, hc, ho⟩
    rw [hfirst, hrest, List.map_cons]

/-- Members that have tags and those that have none are the same for both lists of tags. -/
theorem eq_of_filterMap_eq {picks tags : List (Option String)}
    (h : List.Forall₂ (fun pick tag : Option String => pick = none ↔ tag = none) picks tags)
    (heq : picks.filterMap id = tags.filterMap id) : picks = tags := by
  induction h with
  | nil => rfl
  | @cons pick tag _ _ hiff _ ih =>
    cases pick with
    | none =>
      rw [hiff.1 rfl] at heq ⊢
      rw [ih heq]
    | some x =>
      cases tag with
      | none => simp at hiff
      | some y =>
        have heq : x :: _ = y :: _ := heq
        rw [List.cons.injEq] at heq
        rw [heq.1, ih heq.2]

/-- A union declares no properties. -/
theorem Declares.eq_none {property : String} {name : Option String} {spine : Bool}
    {o : Option Schema} (h : Declares d property s name spine o)
    (hform : s.form name spine = .union .oneOf (tagged.map Prod.fst)) : o = none := by
  cases h with
  | object hs => simp [hs.form_eq] at hform
  | propertyless => rfl
  | composition hcomposition => simp [hcomposition] at hform

/-- A member that refers to the union itself is mapped, so it has one tag. -/
theorem Tagged.openTag_self {m : Schema} {tag : Option String} (h : Tagged d D m tag)
    (hne : tag ≠ none) {p : String} (hp : m.OnlyRefers p) (hwhole : Pointer.Whole p U)
    (hU : d.schema? U = some s) (hs : TaggedUnion d s (some U) true D tagged) :
    d.openTag D m U = tag := by
  cases h with
  | null => exact absurd rfl hne
  | mapped _ _ hc htag => rw [Document.openTag, hc, tagFor_mapped htag]
  | inline hform => exact absurd hp (hform p)
  | @target q c t b declared tag hform _ hq ht _ _ h htag =>
    obtain rfl := hform.unique hp
    obtain rfl := hq.unique hwhole
    rw [hU, Option.some.injEq] at ht
    subst ht
    cases h with
    | undeclared =>
      have hmapped : (Document.wholeReference? m).bind (mappedTag? D) = some tag := by
        simpa [tagFor, declaredTag?] using htag
      rw [Document.openTag, tagFor, hmapped, Option.some_or]
    | declared h => simpa using h.eq_none hs.form

/-- The tags of a union, as it is compiled. -/
theorem Compiled.hasTags {P : String → Node → Prop} {R : Schema → Prop} {c : Compilation}
    (h : Compiled config d' P R c) (hd : d'.Reorders d) (hcompile : compile config d' = .ok c)
    (hU : d.schema? U = some s) {property : String} :
    ∃ n, P U n ∧ ∀ tags, n.TaggedAs property tags → d'.HasTags config U property tags := by
  obtain ⟨m, hm, n, name, location, w, hn, hbody⟩ :=
    h.model U (hd.mem_componentNames.2 (Document.mem_componentNames hU))
  refine ⟨n, hn, fun tags htags => ⟨c, hcompile, m, ?_⟩⟩
  obtain ⟨variants, hvariants, heq⟩ := MadeFrom.tagged ⟨n, name, location, w, htags, hbody⟩
  exact ⟨variants, hm, hvariants, heq⟩

/-- In every order, the tags of a union are the ones that its members have. -/
theorem TaggedUnion.hasPicks (hs : TaggedUnion d s (some U) true D tagged)
    (hU : d.schema? U = some s) (hd : d'.Reorders d) {c : Compilation}
    (hcompile : compile config d' = .ok c) :
    ∃ opened picks q, Pointer.Whole q U ∧ (∀ p, opened p → Relation.ReflTransGen d.Refers p q) ∧
      List.Forall₂ (Pick d D opened) tagged picks ∧
      d'.HasTags config U D.propertyName (picks.filterMap id) := by
  have hclaims := hd.compile_claims config (tagClaims_sound d fun _ => False) fun _ => id
  simp only [Claims.Compile, hcompile] at hclaims
  obtain ⟨n, hn, hhas⟩ := hclaims.hasTags hd hcompile hU
  obtain ⟨-, opened, q, hq, hframed, hpicks⟩ := hn s hU
  obtain ⟨picks, hpicks, htags⟩ := hpicks D tagged hs
  exact ⟨opened, picks, q, hq, hframed.leads, hpicks, hhas _ htags⟩

/-- Without a member that wavers, the union has the tags of the finished nodes in every order. -/
theorem TaggedUnion.hasTags (hs : TaggedUnion d s (some U) true D tagged)
    (hU : d.schema? U = some s) (hno : ∀ e ∈ tagged, ∀ c, ¬ Wavers d D U e c)
    (hd : d'.Reorders d) {c : Compilation} (hcompile : compile config d' = .ok c) :
    d'.HasTags config U D.propertyName (tagged.filterMap Prod.snd) := by
  obtain ⟨opened, picks, q, hq, hleads, hpicks, htags⟩ := hs.hasPicks hU hd hcompile
  rw [picks_eq hpicks ?_, List.filterMap_map] at htags
  · exact htags
  · intro e he p c hp hc hopened htag
    by_contra hdiffers
    exact hno e he c ⟨⟨p, q, hp, hc, hq, hleads p hopened⟩, htag, hdiffers⟩

/-- If the union stands first, it has the tags of the finished nodes. -/
theorem TaggedUnion.hasTags_first (hs : TaggedUnion d s (some U) true D tagged)
    (hU : d.schema? U = some s) (hw : d.WholeReferences config) (hd : d'.Reorders d)
    {rest : List String} (hnames : d'.componentNames = U :: rest) {c : Compilation}
    (hcompile : compile config d' = .ok c) :
    d'.HasTags config U D.propertyName (tagged.filterMap Prod.snd) := by
  have hclaims := compile_claims_first (tagClaims_sound d fun _ => False) (fun _ => False.elim) hw
    hd hnames hcompile hU
  obtain ⟨n, hn, hhas⟩ := hclaims.hasTags hd hcompile hU
  obtain ⟨opened, hiff, -, -, hpicks⟩ := hn.first rfl
  obtain ⟨picks, hpicks, htags⟩ := hpicks D tagged hs
  refine hhas _ ?_
  rw [picks_eq hpicks ?_, List.filterMap_map] at htags
  · exact htags
  · intro e he p c hp hc hopened htag
    rw [(hiff p).1 hopened] at hp hc
    obtain rfl := (Pointer.whole_component U).unique hc
    exact (hs.tag e he).openTag_self htag hp (Pointer.whole_component U) hU hs

/-- If a component stands first that leads to the union, the component is open when the union is
resolved. -/
theorem TaggedUnion.hasTags_open (hs : TaggedUnion d s (some U) true D tagged)
    (hU : d.schema? U = some s) (hw : d.WholeReferences config) (hd : d'.Reorders d) {b : String}
    (hb : d.Reaches b U) (hbody : b ∈ d.componentNames)
    {rest : List String} (hnames : d'.componentNames = b :: rest) {c : Compilation}
    (hcompile : compile config d' = .ok c) :
    ∃ opened picks, opened (Pointer.component b) ∧ List.Forall₂ (Pick d D opened) tagged picks ∧
      d'.HasTags config U D.propertyName (picks.filterMap id) := by
  obtain ⟨body, hbody⟩ := Document.schema?_of_mem hbody
  have hclaims := compile_claims_first (tagClaims_sound d fun q => q = Pointer.component b)
    (fun _ => id) hw hd hnames hcompile hbody
  obtain ⟨n, hn, hhas⟩ := hclaims.hasTags hd hcompile hU
  obtain ⟨-, opened, q, hq, hframed, hpicks⟩ := hn.reached hb s hU
  obtain ⟨picks, hpicks, htags⟩ := hpicks D tagged hs
  exact ⟨opened, picks, hframed.base _ rfl, hpicks, hhas _ htags⟩

/-- The member of a union that wavers refers to another component, which leads to the union. -/
theorem Wavers.reaches (hs : TaggedUnion d s (some U) true D tagged) (hU : d.schema? U = some s)
    (hsound : d.Sound config) (hw : d.WholeReferences config) {e : Schema × Option String}
    (he : e ∈ tagged) {b : String} (h : Wavers d D U e b) :
    b ∈ d.componentNames ∧ d.Reaches b U ∧ e.1.OnlyRefers (Pointer.component b) := by
  obtain ⟨p, q, hp, hb, hq, hreach⟩ := h.leads
  have hrealm := hsound.realm hw
  have hmember : Leads s (some U) true (.schema e.1 "" none false) :=
    .member hs.form (List.mem_map_of_mem he)
  have hvisits : d.Visits config e.1 none false :=
    (Document.Visits.component hU .here).leads hmember
  have hlead : Leads e.1 none false (.reference p "" false) := by
    rcases hp with hp | hp
    · exact .reference hp
    · exact .wrapper hp
  have hentered : Entered d (d.Visits config) p := hrealm _ _ _ _ hvisits hlead
  have hunion := hentered.reaches hrealm hreach
  obtain ⟨b', t, rfl, ht, -⟩ := hentered
  obtain rfl := (Pointer.whole_component b').unique hb
  obtain ⟨U', _, rfl, -, -⟩ := hunion
  obtain rfl := (Pointer.whole_component U').unique hq
  exact ⟨Document.mem_componentNames ht, hreach, hp⟩

/-- **Two orders have different tags if a member wavers**: the one in which its component stands
first, and the one in which the union does. -/
theorem TaggedUnion.tags_differ (hs : TaggedUnion d s (some U) true D tagged)
    (hU : d.schema? U = some s) (hw : d.WholeReferences config) (hn : d.componentNames.Nodup)
    {e : Schema × Option String} (he : e ∈ tagged) {b : String} (h : Wavers d D U e b) :
    ∃ d₁ d₂ : Document, d₁.Reorders d ∧ d₂.Reorders d ∧ ∀ tags,
      d₁.HasTags config U D.propertyName tags → ¬ d₂.HasTags config U D.propertyName tags := by
  by_cases hsound : d.Sound config
  · obtain ⟨hb, hreach, hp⟩ := h.reaches hs hU hsound hw he
    obtain ⟨d₁, rest₁, hd₁, hnames₁⟩ := d.exists_first hn hb
    obtain ⟨d₂, rest₂, hd₂, hnames₂⟩ := d.exists_first hn (Document.mem_componentNames hU)
    refine ⟨d₁, d₂, hd₁, hd₂, fun tags h₁ h₂ => h.differs ?_⟩
    obtain ⟨c₁, hc₁, -⟩ := id h₁
    obtain ⟨c₂, hc₂, -⟩ := id h₂
    obtain ⟨opened, picks, hopened, hpicks, hpicked⟩ :=
      hs.hasTags_open hU hw hd₁ hreach hb hnames₁ hc₁
    have hfinished := hs.hasTags_first hU hw hd₂ hnames₂ hc₂
    have heq : picks.filterMap id = (tagged.map Prod.snd).filterMap id := by
      rw [List.filterMap_map, ← h₁.unique hpicked, h₂.unique hfinished]
      rfl
    have hsame : picks = tagged.map Prod.snd := by
      refine eq_of_filterMap_eq ?_ heq
      rw [List.forall₂_map_right_iff]
      exact hpicks.flip.imp fun _ _ hpick => hpick.none_iff
    rw [hsame, List.forall₂_map_right_iff, List.forall₂_same] at hpicks
    exact ((hpicks e he).opened _ b hp (Pointer.whole_component b) hopened h.tag).symm
  · refine ⟨d, d, .refl hn, .refl hn, fun tags h₁ => ?_⟩
    obtain ⟨c, hc, -⟩ := h₁
    exact absurd (compile_sound hc) hsound

/-- **How far the order of components decides the tags of a union.**  If no member wavers, then
the union has the tags of the finished nodes in every order that compiles.  If all pointers
address whole components and every order compiles, then all orders have the same tags if and only
if no member wavers. -/
theorem compile_tags (hU : d.schema? U = some s) (hs : TaggedUnion d s (some U) true D tagged) :
    ((∀ e ∈ tagged, ∀ b, ¬ Wavers d D U e b) →
      ∀ d' : Document, d'.Reorders d → (∃ c, compile config d' = .ok c) →
        d'.HasTags config U D.propertyName (tagged.filterMap Prod.snd)) ∧
    (d.WholeReferences config → d.componentNames.Nodup →
      (∀ d' : Document, d'.Reorders d → ∃ c, compile config d' = .ok c) →
      ((∀ d₁ d₂ : Document, d₁.Reorders d → d₂.Reorders d → ∀ tags,
          d₁.HasTags config U D.propertyName tags → d₂.HasTags config U D.propertyName tags) ↔
        ∀ e ∈ tagged, ∀ b, ¬ Wavers d D U e b)) := by
  refine ⟨fun hno d' hd ⟨c, hc⟩ => hs.hasTags hU hno hd hc, fun hw hn hall => ⟨?_, ?_⟩⟩
  · intro hsame e he b hwavers
    obtain ⟨d₁, d₂, hd₁, hd₂, hdiffer⟩ := hs.tags_differ hU hw hn he hwavers
    obtain ⟨c₁, hc₁⟩ := hall d₁ hd₁
    obtain ⟨opened, picks, q, -, -, -, htags⟩ := hs.hasPicks hU hd₁ hc₁
    exact hdiffer _ htags (hsame d₁ d₂ hd₁ hd₂ _ htags)
  · intro hno d₁ d₂ hd₁ hd₂ tags htags
    obtain ⟨c₁, hc₁⟩ := hall d₁ hd₁
    obtain ⟨c₂, hc₂⟩ := hall d₂ hd₂
    rw [htags.unique (hs.hasTags hU hno hd₁ hc₁)]
    exact hs.hasTags hU hno hd₂ hc₂

end Union

/-! ### A member whose property is wrapped -/

/-- The kinds of expressions. -/
def operationKind : Schema where
  enumeration := some [.string "binop"]

/-- An operation, which declares its kind with the given schema. -/
def operation (kind : Schema) : Schema where
  properties := [("kind", kind), ("left", { reference := some "#/components/schemas/Expr" })]

/-- A reference to the operation. -/
def toOperation : Schema where
  reference := some "#/components/schemas/BinOp"

/-- Expressions are told apart by their kind. -/
def expression : Schema where
  oneOf := [toOperation]
  discriminator := some ⟨"kind", []⟩

/-- Expressions and operations refer to each other. -/
def expressions (kind : Schema) : Document where
  components.schemas :=
    [("Expr", expression), ("BinOp", operation kind), ("Kind", operationKind)]

/-- The same with the operation first. -/
def expressionsReversed (kind : Schema) : Document where
  components.schemas :=
    [("BinOp", operation kind), ("Expr", expression), ("Kind", operationKind)]

/-- The kind as a reference. -/
def plainKind : Schema where
  reference := some "#/components/schemas/Kind"

/-- The kind, wrapped in a composition. -/
def wrappedKind : Schema where
  allOf := [plainKind]

/-- The kind of an operation is the one that the finished node of the operation declares. -/
theorem expressions_tagged {kind : Schema} {b : Option LeafBody}
    (hkind : LeafOf (expressions kind) kind none false b)
    (hb : b.bind LeafBody.literal? = some (.string "binop")) :
    TaggedUnion (expressions kind) expression (some "Expr") true ⟨"kind", []⟩
      [(toOperation, some "binop")] := by
  have hwhole : Pointer.Whole "#/components/schemas/BinOp" "BinOp" := by decide +kernel
  have hobject : (operation kind).PlainObject :=
    ⟨rfl, rfl, rfl, rfl, rfl, rfl, .inr ⟨rfl, rfl, rfl⟩⟩
  have hdeclares : Declares (expressions kind) "kind" (operation kind) (some "BinOp") true
      (some kind) := .object hobject (by simp [operation])
  have hfinished : (expressions kind).Finished "kind" (operation kind) (some "BinOp") true
      (.literal (.string "binop")) := by
    have h := Document.Finished.declared hdeclares hkind
    rwa [hb] at h
  have hleaf : LeafOf (expressions kind) (operation kind) (some "BinOp") true none := .plain rfl
  refine ⟨rfl, rfl, fun e he => ?_⟩
  rw [List.mem_singleton] at he
  subst he
  exact .target (.inl rfl) (by decide) hwhole rfl hleaf (by decide) hfinished (by decide +kernel)

/-- All orders compile if each one does. -/
theorem Document.Reorders.compile_of_forall {config : Config} {d d' : Document} (hd : d'.Reorders d)
    (h : ∀ schemas ∈ d.components.schemas.permutations',
      (compile config ⟨d.paths, ⟨schemas⟩⟩).isOk) : ∃ c, compile config d' = .ok c := by
  have hmem := h _ (List.mem_permutations'.2 hd.schemas)
  obtain ⟨paths, ⟨schemas⟩⟩ := d'
  obtain rfl : paths = d.paths := hd.paths
  exact compile_eq_ok config _ hmem

/-- If the kind is a reference, its value is found in the unresolved schema as well, so operations
have one tag in every order. -/
theorem compile_tags_plain : (expressions plainKind).WholeReferences {} ∧
    (expressions plainKind).componentNames.Nodup ∧
    (∀ d' : Document, d'.Reorders (expressions plainKind) → ∃ c, compile {} d' = .ok c) ∧
    (∀ d' : Document, d'.Reorders (expressions plainKind) →
      d'.HasTags {} "Expr" "kind" ["binop"]) ∧
    ∀ d₁ d₂ : Document, d₁.Reorders (expressions plainKind) →
      d₂.Reorders (expressions plainKind) → ∀ tags, d₁.HasTags {} "Expr" "kind" tags →
        d₂.HasTags {} "Expr" "kind" tags := by
  have hw : (expressions plainKind).WholeReferences {} :=
    Document.wholeReferences_of_references rfl (by decide +kernel)
  have hn : (expressions plainKind).componentNames.Nodup := by decide
  have hall : ∀ d' : Document, d'.Reorders (expressions plainKind) → ∃ c, compile {} d' = .ok c :=
    fun d' hd => hd.compile_of_forall (by decide +kernel)
  have hwhole : Pointer.Whole "#/components/schemas/Kind" "Kind" := by decide +kernel
  have hkind : LeafOf (expressions plainKind) plainKind none false _ :=
    .reference rfl hwhole rfl (.literals rfl)
  obtain ⟨htags, horders⟩ :=
    @compile_tags {} (expressions plainKind) _ _ _ _ rfl (expressions_tagged hkind rfl)
  have hsteady : ∀ e ∈ [(toOperation, some "binop")], ∀ b,
      ¬ Wavers (expressions plainKind) ⟨"kind", []⟩ "Expr" e b := by
    rintro e he b ⟨⟨p, -, hp, hb, -⟩, -, hdiffers⟩
    rw [List.mem_singleton] at he
    subst he
    -- The member refers to the operation, whose unresolved schema leads to the same value.
    obtain rfl : "#/components/schemas/BinOp" = p := Schema.OnlyRefers.unique (.inl rfl) hp
    obtain rfl : "BinOp" = b := Pointer.Whole.unique (by decide +kernel) hb
    exact hdiffers (by decide +kernel)
  exact ⟨hw, hn, hall, fun d' hd => htags hsteady d' hd (hall d' hd),
    (horders hw hn hall).2 hsteady⟩

/-- **The order of components decides the tags of a union.**  The kind is wrapped in a composition,
which the search in unresolved schemas does not look into: from the operation, which is open then,
the union gets the name of the component as its tag. -/
theorem wrapped_tags : (expressionsReversed wrappedKind).Reorders (expressions wrappedKind) ∧
    (expressions wrappedKind).HasTags {} "Expr" "kind" ["binop"] ∧
    (expressionsReversed wrappedKind).HasTags {} "Expr" "kind" ["BinOp"] := by
  have hreorders : (expressionsReversed wrappedKind).Reorders (expressions wrappedKind) :=
    ⟨rfl, List.Perm.swap _ _ _, by decide⟩
  have hw : (expressions wrappedKind).WholeReferences {} :=
    Document.wholeReferences_of_references rfl (by decide +kernel)
  have hwhole : Pointer.Whole "#/components/schemas/Kind" "Kind" := by decide +kernel
  have hkind : LeafOf (expressions wrappedKind) wrappedKind none false _ :=
    .wrapper rfl hwhole rfl (.literals rfl)
  have htagged := expressions_tagged hkind rfl
  have hreach : (expressions wrappedKind).Reaches "BinOp" "Expr" := by
    have hpart : ObjectPart (operation wrappedKind)
        ("left", ({ reference := some "#/components/schemas/Expr" } : Schema)).2 :=
      .property (.tail _ (.head _))
    have hproperty : Leads (operation wrappedKind) (some "BinOp") true (.schema _ "" none false) :=
      .plain rfl (.object rfl hpart)
    have hmention : Mentions (operation wrappedKind) (some "BinOp") true
        (Pointer.component "Expr") false :=
      ⟨_, _, _, .reference _ "" _, .inside hproperty .here, .reference rfl, rfl⟩
    exact .single (.mention rfl hmention)
  obtain ⟨c, hc⟩ := compile_eq_ok {} (expressions wrappedKind) (by decide +kernel)
  obtain ⟨c', hc'⟩ := compile_eq_ok {} (expressionsReversed wrappedKind) (by decide +kernel)
  have hfirst := htagged.hasTags_first rfl hw (.refl (by decide)) rfl hc
  obtain ⟨opened, picks, hopened, hpicks, htags⟩ :=
    htagged.hasTags_open rfl hw hreorders hreach (by decide) rfl hc'
  refine ⟨hreorders, hfirst, ?_⟩
  cases hpicks with
  | cons hpick hrest =>
    cases hrest
    have hopen := hpick.opened "#/components/schemas/BinOp" "BinOp" (.inl rfl) (by decide +kernel)
      hopened (by decide)
    have htag : (expressions wrappedKind).openTag ⟨"kind", []⟩ toOperation "BinOp" =
      some "BinOp" := by decide +kernel
    rw [hopen, htag] at htags
    exact htags

end ApiBinding
