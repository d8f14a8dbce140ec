import ApiBinding.Proofs.Composition.Declarations
import ApiBinding.Proofs.Resolver.Recording

/-!
# What a composition declares itself

The properties, required names and further keys that a composition declares itself are its last
fragment, if there are properties or required names among them: what they say counts, whatever the
other fragments say.  A schema for further keys alone is left out.  With it, an object would have
had that schema for further keys, and anything else would have become an object.

## Main definitions

* `Follow.MakesFragments`, `Follow.MakesObject` — the two parts of a composition, in a run.
* `Node.Overrides` — what an object declares counts in a shape.
* `Shape.extended` — a shape with a schema for further keys.

## Main results

* `mergeFragments_overrides` — the last of merged fragments counts.
* `mergeFragments_bare` — a last fragment without properties and required names.
* `Document.Attained.flattens` — a composition of a run is merged from answers at moments of runs.
* `composition_own` — **what a composition declares itself counts, but for further keys alone.**
-/

namespace ApiBinding

/-- The node for further keys; none for shapes that are no objects. -/
def Shape.additional? {ν : Type} : Shape ν → Option ν
  | .object _ _ additional => additional
  | _ => none

/-- The object with a node for further keys in place of the one it has, if there is one.  Other
shapes are replaced by an object. -/
def Shape.extended {ν : Type} (additional : Option ν) : Shape ν → Shape ν
  | .object properties required old => .object properties required (additional.or old)
  | _ => .object [] [] additional

/-- What an object declares counts in a shape. -/
structure Node.Overrides (own n : Node) : Prop where
  object : n.shape.isObject
  property : (ObjectParts.declaredKeys own).Nodup → ∀ key m,
    Table.get? own.shape.properties key = some m → Table.get? n.shape.properties key = some m
  required : ∀ name ∈ ObjectParts.requiredNames own, name ∈ ObjectParts.requiredNames n
  additional : ∀ m, own.shape.additional? = some m → n.shape.additional? = some m

/-! ### The last fragment -/

namespace ObjectParts

variable {location : String}

/-- Fragments that are no objects contribute nothing. -/
theorem addFragments_of_not_isObject :
    ∀ (nodes : List Node) (index : Nat) (parts : ObjectParts),
      (∀ n ∈ nodes, ¬ n.shape.isObject) → (addFragments location index parts nodes).1 = parts
  | [], _, _, _ => rfl
  | n :: rest, index, parts, h => by
    have hn : (parts.addFragment location index n).1 = parts := by
      have hshape := h n (.head _)
      unfold addFragment
      cases hn : n.shape <;> simp_all [Shape.isObject]
    rw [addFragments]
    simp only [hn]
    exact addFragments_of_not_isObject rest _ _ fun m hm => h m (.tail _ hm)

end ObjectParts

section Merge

variable {nodes : List Node} {own : Node} (location : String)

/-- **The last of merged fragments counts.** -/
theorem mergeFragments_overrides (h : own.shape.isObject) {n : Node}
    (hn : n.shape = (mergeFragments (nodes ++ [own]) location).1.shape) : own.Overrides n := by
  rw [mergeFragments_concat location h] at hn
  generalize (ObjectParts.addFragments location 0 {} nodes).1 = parts at hn
  refine ⟨?_, fun hkeys key m hm => ?_, fun name hname => ?_, fun m hm => ?_⟩
  · rw [hn]
    rfl
  · rw [hn]
    show Table.get? (parts.addFragment location nodes.length own).1.properties key = some m
    rw [ObjectParts.get?_addFragment hkeys, hm, Option.some_or]
  · rw [ObjectParts.requiredNames, hn]
    show name ∈ (parts.addFragment location nodes.length own).1.required
    rw [ObjectParts.required_addFragment]
    exact mem_extendNew.2 (.inr hname)
  · rw [hn]
    cases hshape : own.shape with
    | object properties required additional =>
      rw [hshape] at hm
      show (parts.addFragment location nodes.length own).1.additional = some m
      rw [ObjectParts.addFragment, hshape]
      show additional.or parts.additional = some m
      rw [show additional = some m from hm, Option.some_or]
    | _ => simp [hshape, Shape.isObject] at h

/-- **A last fragment without properties and required names** only replaces the node for further
keys of an object, and makes an object of anything else. -/
theorem mergeFragments_bare {additional : Option Node} (h : own.shape = .object [] [] additional) :
    (mergeFragments (nodes ++ [own]) location).1.shape =
      (mergeFragments nodes location).1.shape.extended additional := by
  have hadd : ∀ parts : ObjectParts,
      (parts.addFragment location nodes.length own).1.toBody.shape =
        parts.toBody.shape.extended additional := fun parts => by
    rw [ObjectParts.addFragment, h]
    rfl
  rw [mergeFragments_concat location (by rw [h]; rfl), hadd]
  unfold mergeFragments
  split
  · rfl
  · rename_i hany
    have hnone : ∀ n ∈ nodes, ¬ n.shape.isObject := fun n hn hobject =>
      hany (List.any_eq_true.2 ⟨n, hn, hobject⟩)
    rw [ObjectParts.addFragments_of_not_isObject nodes _ _ hnone]
    split
    · simp [ObjectParts.toBody, Shape.extended]
    · rename_i only honly
      have honly := hnone only (List.mem_of_mem_filter (honly ▸ List.mem_singleton_self only))
      unfold Node.body
      cases hshape : only.shape <;>
        simp_all [ObjectParts.toBody, Shape.extended, Shape.isObject]
    · rw [mergeObjects]
      simp only [ObjectParts.addFragments_of_not_isObject nodes _ _ hnone]

end Merge

/-! ### Compositions -/

/-- From a session on, the fragments of a composition are answered, one after the other. -/
def Follow.MakesFragments (follow : Follow) (s : Schema) (location : String) (spine : Bool)
    (u : Session) (fragments : List Node) (w : Session) : Prop :=
  Resolution.eachFrom (Follow.fragmentNode follow location spine) 0 s.allOf u = .ok fragments w

/-- In the session, the object that the schema declares itself is made. -/
def Follow.MakesObject (follow : Follow) (s : Schema) (location : String) (w : Session)
    (own : Node) : Prop :=
  ∃ w', Follow.object follow s location w = .ok own.shape w'

section Compositions

variable {d : Document} {s : Schema} {location : String} {name : Option String} {spine : Bool}
  {depth : Nat} {u v w : Session} {n own : Node} {follow : Follow}

theorem Schema.addsFragment_iff : s.addsFragment ↔ s.properties ≠ [] ∨ s.required ≠ [] := by
  simp [Schema.addsFragment, ← imp_iff_not_or]

/-- Without properties and required names, the object has nothing but a node for further keys. -/
theorem Follow.MakesObject.bare (h : follow.MakesObject s location w own)
    (hproperties : s.properties = []) (hrequired : s.required = []) :
    ∃ additional, own.shape = .object [] [] additional := by
  obtain ⟨w', h⟩ := h
  simp only [Follow.object, hproperties, hrequired, Resolution.each, pure_bind] at h
  obtain ⟨additional, w₁, -, h⟩ := exists_of_bind h
  exact ⟨additional, (EStateM.Result.ok.inj h).1.symm⟩

/-- The fragment that a composition adds is the object that it declares itself. -/
theorem Follow.exists_of_ownFragment {nodes : List Node} {w' : Session} (hadds : s.addsFragment)
    (h : Follow.ownFragment follow s location w = .ok nodes w') :
    ∃ own, nodes = [own] ∧ follow.MakesObject s location w own := by
  have hempty : ¬ (s.properties.isEmpty && s.required.isEmpty) := by
    rwa [Schema.addsFragment, Bool.not_eq_true', ← Bool.not_eq_true] at hadds
  rw [Follow.ownFragment, if_neg hempty] at h
  obtain ⟨shape, w₁, hobject, h⟩ := exists_of_bind h
  obtain ⟨own, w₂, hissued, h⟩ := exists_of_bind h
  cases hissued
  cases h
  exact ⟨_, rfl, _, hobject⟩

/-- **A composition of a run** is merged from answers at moments of runs. -/
theorem Document.Attained.flattens
    (h : d.Attained (depth + 1) (.schema s location name spine) u)
    (hform : s.form name spine = .composition)
    (hn : d.follow (depth + 1) (.schema s location name spine) u = .ok n v) :
    ∃ fragments w own w', (d.follow depth).MakesFragments s location spine u fragments w ∧
      Follow.ownFragment (d.follow depth) s location w = .ok own w' ∧
      List.Forall₂ (FragmentFrom d.Arises spine) s.allOf fragments ∧ OwnFrom d.Arises s own ∧
      n.shape = (mergeFragments (fragments ++ own) location).1.shape := by
  have hrun : Follow.flatten (d.follow depth) s location name spine u = .ok n v := by
    rwa [Document.follow, Follow.step, Follow.schema_eq, hform] at hn
  obtain ⟨fragments, w, own, w', hfragments, hown, hshape, -⟩ := Follow.exists_of_flatten hrun
  -- All requests on the way are made by the run, so the restricted resolver answers them alike.
  have hmakes : ∀ q t, ComesTo (fun follow => Follow.flatten follow s location name spine)
      (d.follow depth) u q t → Makes d (d.follow depth) (.schema s location name spine) u q t := by
    intro q t hq answer e he hothers
    rw [Follow.step, Follow.schema_eq, hform]
    exact hq answer e he hothers
  have hinquiry : Inquiry (fun _ => False) fun follow =>
      Resolution.eachFrom (Follow.fragmentNode follow location spine) 0 s.allOf :=
    Follow.fragments_inquiry s.allOf location spine
  have hownInquiry : Inquiry (fun _ => False) fun follow =>
      Follow.ownFragment follow s location := Follow.ownFragment_inquiry s location
  have hfragments' := (h.congr hinquiry fun q t hq => hmakes q t hq.bind).trans hfragments
  have hown' := (h.congr hownInquiry fun q t hq =>
    hmakes q t (hinquiry.comesTo_bind hfragments hq.bind)).trans hown
  have hsupplies := d.supplies_guarded depth
  have hfragmentsFrom := (brings_eachFrom (Q := fun f n _ => FragmentFrom d.Arises spine f n)
    (fun _ _ _ _ h _ => h) s.allOf 0 (fun f _ _ =>
      brings_fragmentNode (Q := fun r n _ => d.Arises r n)
        (fun p _ _ => hsupplies.brings _) fun _ _ => hsupplies.brings _) u trivial).of_ok
    hfragments'
  have hownFrom := (brings_ownFragment (Q := fun r n _ => d.Arises r n)
    (fun _ _ _ _ => trivial) (fun _ _ _ _ h _ => h)
      (fun _ _ _ _ => hsupplies.brings _) w trivial).of_ok hown'
  exact ⟨fragments, w, own, w', hfragments, hown, hfragmentsFrom.2.2, hownFrom.2.2, hshape⟩

/-- **What a composition declares itself counts, but for further keys alone.**  During a run, a
composition first has its fragments answered.  If it has properties or requires some, its node is
merged from them and, as the last one, the object that the run then makes of its own keywords.  If
not, the node is merged from the fragments alone, and the object that its own keywords make would
have made this difference: an object would have had the node for further keys that the composition
declares, and anything else would have become an object. -/
theorem composition_own (h : d.Attained (depth + 1) (.schema s location name spine) u)
    (hform : s.form name spine = .composition)
    (hn : d.follow (depth + 1) (.schema s location name spine) u = .ok n v) :
    ∃ fragments w, (d.follow depth).MakesFragments s location spine u fragments w ∧
      List.Forall₂ (FragmentFrom d.Arises spine) s.allOf fragments ∧
      (s.properties ≠ [] ∨ s.required ≠ [] →
        ∃ own, (d.follow depth).MakesObject s location w own ∧ ObjectFrom d.Arises s own.shape ∧
          n.shape = (mergeFragments (fragments ++ [own]) location).1.shape ∧ own.Overrides n) ∧
      (s.properties = [] → s.required = [] →
        n.shape = (mergeFragments fragments location).1.shape ∧
        ∀ own, (d.follow depth).MakesObject s location w own →
          ∃ additional, own.shape = .object [] [] additional ∧
            (mergeFragments (fragments ++ [own]) location).1.shape =
              n.shape.extended additional) := by
  obtain ⟨fragments, w, own, w', hrun, hown, hfragments, hownFrom, hshape⟩ := h.flattens hform hn
  refine ⟨fragments, w, hrun, hfragments, fun hdeclares => ?_, fun hproperties hrequired => ?_⟩
  · have hadds : s.addsFragment := Schema.addsFragment_iff.2 hdeclares
    obtain ⟨own, rfl, hmakes⟩ := Follow.exists_of_ownFragment hadds hown
    rw [OwnFrom, if_pos hadds] at hownFrom
    obtain ⟨m, hm, hobject, -⟩ := hownFrom
    obtain rfl := List.singleton_inj.1 hm
    have hisObject : own.shape.isObject := by
      obtain ⟨_, _, hobject, -⟩ := hobject
      rw [hobject]
      rfl
    exact ⟨own, hmakes, hobject, hshape, mergeFragments_overrides location hisObject hshape⟩
  · have hadds : ¬ s.addsFragment := fun hadds =>
      (Schema.addsFragment_iff.1 hadds).elim (· hproperties) (· hrequired)
    rw [OwnFrom, if_neg hadds] at hownFrom
    rw [hownFrom, List.append_nil] at hshape
    refine ⟨hshape, fun own hmakes => ?_⟩
    obtain ⟨additional, hbare⟩ := hmakes.bare hproperties hrequired
    exact ⟨additional, hbare, by rw [mergeFragments_bare location hbare, hshape]⟩

end Compositions

/-- Labels are texts by any key. -/
def labels : Schema where
  properties := [("x", { declaredType := some (.single "string") })]
  additional := some (.schema { declaredType := some (.single "string") })

/-- Labels, but the values of further keys are numbers. -/
def counts : Schema where
  allOf := [{ reference := some "#/components/schemas/Labels" }]
  additional := some (.schema { declaredType := some (.single "integer") })

/-- Labels and counts. -/
def tally : Document where
  components.schemas := [("Labels", labels), ("Counts", counts)]

/-- Labels, but all of their values are numbers. -/
def totals : Schema where
  allOf := [{ reference := some "#/components/schemas/Labels" }]
  properties := [("x", { declaredType := some (.single "integer") })]
  additional := some (.schema { declaredType := some (.single "integer") })

/-- Labels and totals. -/
def audit : Document where
  components.schemas := [("Labels", labels), ("Totals", totals)]

/-- The session in which a component is open, and nothing else. -/
def openOnly (component : String) : Session where
  stack := [⟨Pointer.component component, false, false⟩]

/-- A run for counts asks for their body first. -/
theorem tally_attained : tally.Attained 299
    (.schema counts (Pointer.component "Counts") (some "Counts") true) (openOnly "Counts") :=
  Document.attained_component .start rfl rfl Bool.false_ne_true (by decide +kernel)

/-- A run for totals asks for their body first. -/
theorem audit_attained : audit.Attained 373
    (.schema totals (Pointer.component "Totals") (some "Totals") true) (openOnly "Totals") :=
  Document.attained_component .start rfl rfl Bool.false_ne_true (by decide +kernel)

/-- A scalar of the kind is there. -/
def Node.isScalar? (kind : ScalarKind) (n : Option Node) : Bool :=
  n.any fun m => Node.sameShape m.shape (.scalar kind none)

/-- Counts are merged from labels alone, which the numbers would have extended.  Totals are merged
from labels, whose property is a text, and from numbers, which count for the property and for
further keys. -/
theorem composition_own_tally :
    (∃ fragments w n v, tally.follow 299
        (.schema counts (Pointer.component "Counts") (some "Counts") true) (openOnly "Counts") =
          .ok n v ∧
      (tally.follow 298).MakesFragments counts (Pointer.component "Counts") true (openOnly "Counts")
        fragments w ∧
      n.shape = (mergeFragments fragments (Pointer.component "Counts")).1.shape ∧
      ∀ own, (tally.follow 298).MakesObject counts (Pointer.component "Counts") w own →
        ∃ additional, own.shape = .object [] [] additional ∧
          (mergeFragments (fragments ++ [own]) (Pointer.component "Counts")).1.shape =
            n.shape.extended additional) ∧
    ∃ fragments w n v own, audit.follow 373
        (.schema totals (Pointer.component "Totals") (some "Totals") true) (openOnly "Totals") =
          .ok n v ∧
      (audit.follow 372).MakesFragments totals (Pointer.component "Totals") true (openOnly "Totals")
        fragments w ∧
      (∃ f ∈ fragments, Node.isScalar? .string (Table.get? f.shape.properties "x")) ∧
      (audit.follow 372).MakesObject totals (Pointer.component "Totals") w own ∧
      n.shape = (mergeFragments (fragments ++ [own]) (Pointer.component "Totals")).1.shape ∧
      own.Overrides n ∧ Node.isScalar? .integer (Table.get? n.shape.properties "x") ∧
      Node.isScalar? .integer n.shape.additional? := by
  have hcounts : yields (tally.follow 299
      (.schema counts (Pointer.component "Counts") (some "Counts") true)) (openOnly "Counts")
      (fun _ => true) = true := by
    decide +kernel
  have htotals : yields (audit.follow 373
      (.schema totals (Pointer.component "Totals") (some "Totals") true)) (openOnly "Totals")
      (fun n => Node.isScalar? .integer (Table.get? n.shape.properties "x") &&
        Node.isScalar? .integer n.shape.additional?) = true := by
    decide +kernel
  have hlabels : yields (Resolution.eachFrom
      (Follow.fragmentNode (audit.follow 372) (Pointer.component "Totals") true) 0 totals.allOf)
      (openOnly "Totals") (fun fragments => fragments.any fun f =>
        Node.isScalar? .string (Table.get? f.shape.properties "x")) = true := by
    decide +kernel
  constructor
  · obtain ⟨n, v, hn, -⟩ := exists_of_yields hcounts
    obtain ⟨fragments, w, hfragments, -, -, h⟩ := composition_own tally_attained rfl hn
    exact ⟨fragments, w, n, v, hn, hfragments, h rfl rfl⟩
  · obtain ⟨n, v, hn, hnumbers⟩ := exists_of_yields htotals
    obtain ⟨fragments, w, hfragments, -, h, -⟩ := composition_own audit_attained rfl hn
    obtain ⟨own, hown, -, hshape, hoverrides⟩ := h (.inl (by simp [totals]))
    obtain ⟨hproperty, hfurther⟩ := (Bool.and_eq_true _ _).mp hnumbers
    obtain ⟨found, u, hfound, htext⟩ := exists_of_yields hlabels
    obtain ⟨rfl, -⟩ := EStateM.Result.ok.inj (hfound.symm.trans hfragments)
    obtain ⟨f, hf, htext⟩ := List.any_eq_true.1 htext
    exact ⟨found, w, n, v, own, hn, hfragments, ⟨f, hf, htext⟩, hown, hshape, hoverrides, hproperty,
      hfurther⟩

@[simp] theorem Shape.additional?_extended {ν : Type} (shape : Shape ν) (a : ν) :
    (shape.extended (some a)).additional? = some a := by
  cases shape <;> rfl

/-- **A schema for further keys that a composition declares alone does not count.** -/
theorem tally_further_keys : ¬ ∀ (d : Document) (depth : Nat) (s : Schema) (location : String)
    (name : Option String) (spine : Bool) (u v : Session) (n : Node),
    d.Attained (depth + 1) (.schema s location name spine) u →
    s.form name spine = .composition → s.declaresObject →
    d.follow (depth + 1) (.schema s location name spine) u = .ok n v →
    ∃ fragments w own, (d.follow depth).MakesFragments s location spine u fragments w ∧
      (d.follow depth).MakesObject s location w own ∧
      n.shape = (mergeFragments (fragments ++ [own]) location).1.shape := by
  intro hmerged
  have htexts : yields (tally.follow 299
      (.schema counts (Pointer.component "Counts") (some "Counts") true)) (openOnly "Counts")
      (fun n => n.shape.additional?.any fun m => !Node.isScalar? .integer (some m)) = true := by
    decide +kernel
  have hnumbers : yields (do
      let _ ← Resolution.eachFrom
        (Follow.fragmentNode (tally.follow 298) (Pointer.component "Counts") true) 0 counts.allOf
      Follow.object (tally.follow 298) counts (Pointer.component "Counts")) (openOnly "Counts")
      (fun own => own.additional?.any fun m => Node.isScalar? .integer (some m)) = true := by
    decide +kernel
  obtain ⟨n, v, hn, htext⟩ := exists_of_yields htexts
  obtain ⟨fragments, w, own, hfragments, ⟨w', hown⟩, hshape⟩ :=
    hmerged tally 298 counts _ _ true _ v n tally_attained rfl rfl hn
  obtain ⟨shape, _, hobject, hnumber⟩ := exists_of_yields hnumbers
  rw [bind_of_ok hfragments, hown] at hobject
  obtain ⟨rfl, -⟩ := EStateM.Result.ok.inj hobject
  -- The values of further keys are numbers by the last fragment, and texts by the run.
  obtain ⟨m, hm, hnumber⟩ := (Option.any_eq_true _ _).1 hnumber
  obtain ⟨additional, hbare⟩ := Follow.MakesObject.bare ⟨w', hown⟩ rfl rfl
  obtain rfl : additional = some m := by rwa [hbare] at hm
  rw [hshape, mergeFragments_bare _ hbare, Shape.additional?_extended] at htext
  simp [hnumber] at htext

end ApiBinding
