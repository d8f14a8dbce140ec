import ApiBinding.Proofs.Composition.Overrides
import Mathlib.Data.List.Infix

/-!
# The laws of merging

What fragments are merged to is said at once, without going through them: the declarations of all
fragments stand one after the other, and a key counts where it stands first and as it is declared
last.  A finding is made about each fragment from what stands before it.

Merging is flat: fragments that were merged before count as if they stood there themselves.

## Main definitions

* `withEarlier` — the elements of a list, each with those before it.
* `declarationsOf` — the declarations of fragments.
* `speaking`, `OneSpeaks` — which fragments count, and when no object is made from them.
* `findingsAbout` — the findings about a fragment that stands after others.

## Main results

* `ObjectParts.addFragments_ofFragments` — the object that fragments make.
* `mergeFragments_eq` — **what fragments are merged to, and what is found about them.**
* `mergeFragments_nested` — **merging is flat.**
-/

namespace ApiBinding

/-! ### Lists with what comes before -/

/-- The elements of a list, each with those before it. -/
def withEarlier {α : Type} (xs : List α) : List (List α × α) := xs.inits.zip xs

theorem withEarlier_cons {α : Type} (x : α) (xs : List α) :
    withEarlier (x :: xs) = ([], x) :: (withEarlier xs).map fun e => (x :: e.1, e.2) := by
  rw [withEarlier, List.inits_cons, List.zip_cons_cons, List.zip_map_left]
  rfl

theorem mem_withEarlier {α : Type} {xs before : List α} {x : α} :
    (before, x) ∈ withEarlier xs ↔ ∃ after, xs = before ++ x :: after := by
  induction xs generalizing before with
  | nil => simp [withEarlier]
  | cons y ys ih =>
    rw [withEarlier_cons, List.mem_cons, List.mem_map]
    constructor
    · rintro (heq | ⟨⟨earlier, x'⟩, hmem, heq⟩)
      · obtain ⟨rfl, rfl⟩ := Prod.mk.injEq .. ▸ heq
        exact ⟨ys, rfl⟩
      · obtain ⟨rfl, rfl⟩ := Prod.mk.injEq .. ▸ heq
        obtain ⟨after, rfl⟩ := ih.1 hmem
        exact ⟨after, rfl⟩
    · rintro ⟨after, heq⟩
      cases before with
      | nil =>
        rw [List.nil_append, List.cons.injEq] at heq
        exact .inl (by rw [heq.1])
      | cons z earlier =>
        rw [List.cons_append, List.cons.injEq] at heq
        obtain ⟨rfl, rfl⟩ := heq
        exact .inr ⟨(earlier, x), ih.2 ⟨after, rfl⟩, rfl⟩

/-! ### The object that fragments make -/

/-- The declarations of fragments, one after the other. -/
def declarationsOf (fragments : List Node) : List (String × Node) :=
  fragments.flatMap fun f => f.shape.properties

/-- The finding, if any, about a declaration that stands after others. -/
def findingAbout (location : String) (index : Nat) (earlier : List (String × Node))
    (declaration : String × Node) : List Diagnostic :=
  match Table.latest? earlier declaration.1 with
  | some latest =>
    if latest.same declaration.2 then [] else [ObjectParts.conflict location declaration.1 index]
  | none => []

/-- The findings about a fragment that stands after others: for an object, those about its
declarations, in their order; for any other fragment that says something, that it is no object. -/
def findingsAbout (location : String) (earlier : List Node) (f : Node) : List Diagnostic :=
  match f.shape with
  | .object properties _ _ => (withEarlier properties).flatMap fun (declared, declaration) =>
      findingAbout location earlier.length (declarationsOf earlier ++ declared) declaration
  | .any => []
  | _ => [ObjectParts.nonObject location earlier.length]

namespace ObjectParts

variable {location : String}

/-- The object that fragments make. -/
def ofFragments (fragments : List Node) : ObjectParts where
  properties := Table.ofEntries (declarationsOf fragments)
  required := distinct (fragments.flatMap requiredNames)
  additional := lastOf (fragments.map fun f => f.shape.additional?)

theorem addProperties_ofEntries (index : Nat) (properties : List (String × Node)) :
    ∀ earlier : List (String × Node),
      addProperties location index (Table.ofEntries earlier) properties =
        (Table.ofEntries (earlier ++ properties),
          (withEarlier properties).flatMap fun (declared, declaration) =>
            findingAbout location index (earlier ++ declared) declaration) := by
  induction properties with
  | nil => intro earlier; simp [addProperties, withEarlier]
  | cons e rest ih =>
    intro earlier
    obtain ⟨key, node⟩ := e
    have hfinding : redeclaration location index (Table.ofEntries earlier) key node =
        findingAbout location index earlier (key, node) := by
      unfold redeclaration findingAbout
      cases hlatest : Table.latest? earlier key <;> simp [Table.get?_ofEntries, hlatest]
    rw [addProperties, hfinding, ← Table.ofEntries_concat earlier (key, node), ih, withEarlier_cons]
    simp [List.flatMap_map]

/-- One more fragment. -/
theorem addFragment_ofFragments (earlier : List Node) (f : Node) :
    (ofFragments earlier).addFragment location earlier.length f =
      (ofFragments (earlier ++ [f]), findingsAbout location earlier f) := by
  have hnext : ofFragments (earlier ++ [f]) =
      { properties := Table.ofEntries (declarationsOf earlier ++ f.shape.properties)
        required := extendNew (ofFragments earlier).required (requiredNames f)
        additional := f.shape.additional?.or (ofFragments earlier).additional } := by
    simp only [ofFragments, declarationsOf, List.flatMap_append, List.flatMap_singleton,
      List.map_append, List.map_singleton, lastOf_concat, distinct, extendNew_append]
  rw [hnext, addFragment, findingsAbout]
  cases hshape : f.shape with
  | object properties required additional =>
    simp only [Shape.properties, Shape.additional?, requiredNames, hshape]
    rw [show (ofFragments earlier).properties = Table.ofEntries (declarationsOf earlier) from rfl,
      addProperties_ofEntries]
  | _ => simp [Shape.properties, Shape.additional?, requiredNames, hshape, ofFragments]

/-- **The object that fragments make**, and the findings about them. -/
theorem addFragments_ofFragments (fragments : List Node) :
    ∀ earlier : List Node,
      addFragments location earlier.length (ofFragments earlier) fragments =
        (ofFragments (earlier ++ fragments),
          (withEarlier fragments).flatMap fun (before, f) =>
            findingsAbout location (earlier ++ before) f) := by
  induction fragments with
  | nil => intro earlier; simp [addFragments, withEarlier]
  | cons f rest ih =>
    intro earlier
    have hrest := ih (earlier ++ [f])
    rw [List.length_append, List.length_singleton] at hrest
    rw [addFragments, addFragment_ofFragments]
    simp only [hrest, withEarlier_cons, List.flatMap_cons, List.flatMap_map, List.append_assoc,
      List.singleton_append, List.append_nil]

end ObjectParts

theorem mergeObjects_eq (fragments : List Node) (location : String) :
    mergeObjects fragments location =
      ((ObjectParts.ofFragments fragments).toBody,
        (withEarlier fragments).flatMap fun (before, f) => findingsAbout location before f) := by
  have hrun : ObjectParts.addFragments location 0 (ObjectParts.ofFragments []) fragments = _ :=
    ObjectParts.addFragments_ofFragments fragments []
  simp only [List.nil_append] at hrun
  rw [mergeObjects, show ({} : ObjectParts) = ObjectParts.ofFragments [] from rfl, hrun]

/-! ### What fragments are merged to -/

/-- The fragments that say something. -/
def speaking (fragments : List Node) : List Node := fragments.filter fun f => !f.shape.isAny

/-- No fragment is an object, and at most one of them says anything. -/
def OneSpeaks (fragments : List Node) : Prop :=
  (∀ f ∈ fragments, ¬ f.shape.isObject) ∧ (speaking fragments).length ≤ 1

instance (fragments : List Node) : Decidable (OneSpeaks fragments) :=
  inferInstanceAs (Decidable (_ ∧ _))

theorem mergeFragments_of_oneSpeaks {fragments : List Node} (h : OneSpeaks fragments)
    (location : String) : mergeFragments fragments location =
      (((speaking fragments).head?.map Node.body).getD ⟨.any, false⟩, []) := by
  obtain ⟨hnone, hone⟩ := h
  have hany : ¬ fragments.any fun f => f.shape.isObject := fun hany => by
    obtain ⟨f, hf, hobject⟩ := List.any_eq_true.1 hany
    exact hnone f hf hobject
  rw [mergeFragments, if_neg hany, ← speaking]
  rcases hspeaking : speaking fragments with _ | ⟨only, _ | ⟨second, rest⟩⟩
  · rfl
  · rfl
  · simp [hspeaking] at hone

theorem mergeFragments_of_not_oneSpeaks {fragments : List Node} (h : ¬ OneSpeaks fragments)
    (location : String) : mergeFragments fragments location = mergeObjects fragments location := by
  rw [mergeFragments]
  split
  · rfl
  · rename_i hany
    have hnone : ∀ f ∈ fragments, ¬ f.shape.isObject := fun f hf hobject =>
      hany (List.any_eq_true.2 ⟨f, hf, hobject⟩)
    rw [← speaking]
    rcases hspeaking : speaking fragments with _ | ⟨only, _ | ⟨second, rest⟩⟩
    · exact absurd ⟨hnone, by simp [hspeaking]⟩ h
    · exact absurd ⟨hnone, by simp [hspeaking]⟩ h
    · rfl

/-- **What fragments are merged to, and what is found about them.**

Without an object among the fragments, the only one that says anything is the result, or there is
none, and nothing is found.  Otherwise the result is an object that does not admit `null`.  Its keys
are those of all objects among the fragments, in order of first occurrence, and each of them has the
node with which it was declared last; so are the required names, and the node for further keys is
that of the last fragment that has one.  There is a finding about each declaration of a key whose
latest declaration before is different, and about each fragment that is neither an object nor
silent, in the order of fragments and declarations. -/
theorem mergeFragments_eq (fragments : List Node) (location : String) :
    if OneSpeaks fragments then
      mergeFragments fragments location =
        (((speaking fragments).head?.map Node.body).getD ⟨.any, false⟩, [])
    else
      ∃ properties : Table String Node, mergeFragments fragments location =
        (⟨.object properties (distinct (fragments.flatMap ObjectParts.requiredNames))
            (lastOf (fragments.map fun f => f.shape.additional?)), false⟩,
          (withEarlier fragments).flatMap fun (before, f) => findingsAbout location before f) ∧
        Table.keys properties = distinct (fragments.flatMap ObjectParts.declaredKeys) ∧
        ∀ key, Table.get? properties key = Table.latest? (declarationsOf fragments) key := by
  split
  · exact mergeFragments_of_oneSpeaks ‹_› location
  · rw [mergeFragments_of_not_oneSpeaks ‹_›, mergeObjects_eq]
    refine ⟨(ObjectParts.ofFragments fragments).properties, rfl, ?_, Table.get?_ofEntries _⟩
    have hkeys : Table.keys (declarationsOf fragments) =
        fragments.flatMap ObjectParts.declaredKeys := List.map_flatMap
    exact hkeys ▸ Table.keys_ofEntries (declarationsOf fragments)

/-! ### Fragments that were merged before -/

section Nested

variable {pre xs post : List Node} {m : Node} {location : String}

theorem Shape.additional?_of_not_isObject {shape : Shape Node} (h : ¬ shape.isObject) :
    shape.additional? = none := by
  cases shape <;> simp_all [Shape.isObject, Shape.additional?]

theorem ObjectParts.requiredNames_of_not_isObject {n : Node} (h : ¬ n.shape.isObject) :
    requiredNames n = [] := by
  unfold requiredNames
  cases hshape : n.shape <;> simp_all [Shape.isObject]

/-- Fragments without an object among them contribute nothing. -/
theorem ObjectParts.ofFragments_of_not_isObject (h : ∀ f ∈ xs, ¬ f.shape.isObject) :
    ofFragments xs = {} := by
  have hdeclared : declarationsOf xs = [] :=
    List.flatMap_eq_nil_iff.2 fun f hf => Shape.properties_of_not_isObject (h f hf)
  have hrequired : xs.flatMap requiredNames = [] :=
    List.flatMap_eq_nil_iff.2 fun f hf => requiredNames_of_not_isObject (h f hf)
  have hadditional : lastOf (xs.map fun f => f.shape.additional?) = none := by
    refine lastOf_eq_none fun o ho => ?_
    obtain ⟨f, hf, rfl⟩ := List.mem_map.1 ho
    exact Shape.additional?_of_not_isObject (h f hf)
  rw [ofFragments, hdeclared, hrequired, hadditional]
  rfl

theorem ObjectParts.ofFragments_singleton (m : Node) :
    ofFragments [m] = ⟨Table.ofEntries m.shape.properties, distinct (requiredNames m),
      m.shape.additional?⟩ := by
  simp [ofFragments, declarationsOf, lastOf]

/-- What is merged without an object is no object, and anything else is one. -/
theorem isObject_merged (hm : m.body = (mergeFragments xs location).1) :
    m.shape.isObject ↔ ¬ OneSpeaks xs := by
  have hshape : m.shape = (mergeFragments xs location).1.shape := congrArg Body.shape hm
  by_cases h : OneSpeaks xs
  · refine iff_of_false ?_ (not_not.2 h)
    rw [hshape, mergeFragments_of_oneSpeaks h]
    cases hhead : (speaking xs).head? with
    | none => simp [Shape.isObject]
    | some only => exact h.1 only (List.mem_of_mem_filter (List.mem_of_head? hhead))
  · refine iff_of_true ?_ h
    rw [hshape, mergeFragments_of_not_oneSpeaks h]
    rfl

/-- What a node makes of itself is what fragments make that were merged to it. -/
theorem ObjectParts.ofFragments_singleton_merged
    (hm : m.body = (mergeFragments xs location).1) : ofFragments [m] = ofFragments xs := by
  by_cases h : OneSpeaks xs
  · -- Neither the fragments nor what they are merged to is an object.
    have hobject : ¬ m.shape.isObject := fun hobject => (isObject_merged hm).1 hobject h
    rw [ofFragments_of_not_isObject h.1, ofFragments_of_not_isObject (by simpa using hobject)]
  · -- The table and the list of names have been made already, so they stay as they are.
    rw [mergeFragments_of_not_oneSpeaks h, mergeObjects_eq] at hm
    have hshape : m.shape = .object (ofFragments xs).properties (ofFragments xs).required
        (ofFragments xs).additional := congrArg Body.shape hm
    rw [ofFragments_singleton, requiredNames, hshape]
    congr 1
    · exact Table.ofEntries_eq (Table.nodup_ofEntries _)
    · exact distinct_of_nodup (nodup_distinct _)

/-- Fragments can be replaced by others that make the same object. -/
theorem ObjectParts.ofFragments_congr {ys : List Node} (h : ofFragments ys = ofFragments xs) :
    ofFragments (pre ++ ys ++ post) = ofFragments (pre ++ xs ++ post) := by
  have happend : ∀ fs gs : List Node,
      declarationsOf (fs ++ gs) = declarationsOf fs ++ declarationsOf gs :=
    fun fs gs => List.flatMap_append
  have hdeclared : Table.ofEntries (declarationsOf ys) = Table.ofEntries (declarationsOf xs) :=
    congrArg ObjectParts.properties h
  have hrequired : distinct (ys.flatMap requiredNames) = distinct (xs.flatMap requiredNames) :=
    congrArg ObjectParts.required h
  have hadditional : lastOf (ys.map fun f => f.shape.additional?) =
      lastOf (xs.map fun f => f.shape.additional?) := congrArg ObjectParts.additional h
  rw [ofFragments, ofFragments]
  congr 1
  · rw [happend, happend, ← Table.ofEntries_nested, hdeclared, Table.ofEntries_nested, ← happend,
      ← happend]
  · rw [List.flatMap_append, List.flatMap_append, ← distinct_nested, hrequired, distinct_nested,
      List.flatMap_append, List.flatMap_append]
  · simp only [List.map_append, lastOf_append, hadditional]

/-- What was merged before says what the fragments say. -/
theorem OneSpeaks.speaking_merged (h : OneSpeaks xs)
    (hm : m.body = (mergeFragments xs location).1) :
    (speaking [m]).map Node.body = (speaking xs).map Node.body := by
  rw [mergeFragments_of_oneSpeaks h] at hm
  have hshape : m.shape =
      (((speaking xs).head?.map Node.body).getD ⟨.any, false⟩).shape := congrArg Body.shape hm
  rcases hspeaking : speaking xs with _ | ⟨only, _ | ⟨second, rest⟩⟩
  · rw [hspeaking] at hshape
    have hsilent : m.shape.isAny = true := by rw [hshape]; rfl
    simp [speaking, hsilent]
  · have honly : only ∈ speaking xs := hspeaking ▸ List.mem_singleton_self only
    rw [hspeaking] at hm hshape
    have hspeaks : m.shape.isAny = false := by
      rw [hshape]
      exact Bool.not_eq_true' _ ▸ (List.mem_filter.1 honly).2
    have hkept : speaking [m] = [m] := List.filter_cons_of_pos (by simp [hspeaks])
    rw [hkept]
    exact congrArg (· :: []) hm
  · simpa [hspeaking] using h.2

end Nested

/-- **Merging is flat**: fragments that were merged before, whatever the annotations of their node,
count as if they stood there themselves. -/
theorem mergeFragments_nested (pre xs post : List Node) (inner : Node)
    (location location' : String) :
    (mergeFragments (pre ++ [{ inner with
        shape := (mergeFragments xs location').1.shape
        nullable := (mergeFragments xs location').1.nullable }] ++ post) location).1 =
      (mergeFragments (pre ++ xs ++ post) location).1 := by
  generalize hm : ({ inner with
    shape := (mergeFragments xs location').1.shape
    nullable := (mergeFragments xs location').1.nullable } : Node) = m
  have hbody : m.body = (mergeFragments xs location').1 := hm ▸ rfl
  have hobjects : ObjectParts.ofFragments (pre ++ [m] ++ post) =
      ObjectParts.ofFragments (pre ++ xs ++ post) :=
    ObjectParts.ofFragments_congr (ObjectParts.ofFragments_singleton_merged hbody)
  have hisObject := isObject_merged hbody
  by_cases h : OneSpeaks xs
  · -- What speaks is the same, and there is an object among the one list or the other.
    have hspeaking : (speaking (pre ++ [m] ++ post)).map Node.body =
        (speaking (pre ++ xs ++ post)).map Node.body := by
      have happend : ∀ fs gs : List Node, speaking (fs ++ gs) = speaking fs ++ speaking gs :=
        fun fs gs => List.filter_append ..
      simp only [happend, List.map_append, h.speaking_merged hbody]
    have hlength := congrArg List.length hspeaking
    rw [List.length_map, List.length_map] at hlength
    have hone : OneSpeaks (pre ++ [m] ++ post) ↔ OneSpeaks (pre ++ xs ++ post) := by
      have hm : ¬ m.shape.isObject := fun hobject => hisObject.1 hobject h
      simp only [OneSpeaks, hlength, List.forall_mem_append, List.forall_mem_singleton]
      exact and_congr_left fun _ => and_congr_left fun _ => and_congr_right fun _ =>
        iff_of_true hm h.1
    by_cases hall : OneSpeaks (pre ++ xs ++ post)
    · rw [mergeFragments_of_oneSpeaks hall, mergeFragments_of_oneSpeaks (hone.2 hall)]
      simp only [← List.head?_map, hspeaking]
    · rw [mergeFragments_of_not_oneSpeaks hall, mergeFragments_of_not_oneSpeaks (hone.not.2 hall),
        mergeObjects_eq, mergeObjects_eq, hobjects]
  · -- An object was made from the fragments, and an object is made of all.
    have hmerged : ¬ OneSpeaks (pre ++ [m] ++ post) := fun hone =>
      hone.1 m (by simp) (hisObject.2 h)
    have hall : ¬ OneSpeaks (pre ++ xs ++ post) := fun hone => by
      refine h ⟨fun f hf => hone.1 f (by simp [hf]), Nat.le_trans ?_ hone.2⟩
      exact ((List.sublist_append_right pre xs).trans (List.sublist_append_left _ post)).filter _
        |>.length_le
    rw [mergeFragments_of_not_oneSpeaks hmerged, mergeFragments_of_not_oneSpeaks hall,
      mergeObjects_eq, mergeObjects_eq, hobjects]

end ApiBinding
