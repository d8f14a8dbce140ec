import ApiBinding.Endpoint.Signature
import ApiBinding.Proofs.Endpoint.Templates
import ApiBinding.Proofs.Tables

/-!
# Valid operations

An operation is checked in several rounds, and the first fault that is found is its fault.  What
all rounds ask for together can be said without them: which parameters apply, and how they fit the
names in braces.

## Main definitions

* `effectiveParameters` — the parameters that apply to an operation.
* `Operation.Valid` — what is asked of an operation.
* `Arranged` — parameters in call order.

## Main results

* `mergeParameters_eq` — the parameters that are merged are those that apply.
* `signatureOf_isOk_iff` — an operation has a signature iff it is valid.
* `signatureOf_repeated` — what an operation that declares a parameter twice is reported for.
* `signatureOf_arranged` — its signature has the parameters that apply, in call order.
-/

namespace ApiBinding

/-! ### The parameters that apply -/

/-- The parameter itself, or the one with its name and location that takes its place. -/
def Parameter.overriddenBy (own : List Parameter) (p : Parameter) : Parameter :=
  (own.find? fun q => q.key = p.key).getD p

/-- The parameters that apply to an operation: those of the path, each replaced if the operation
declares it again, and then the other ones of the operation. -/
def effectiveParameters (shared own : List Parameter) : List Parameter :=
  shared.map (Parameter.overriddenBy own) ++
    own.filter fun p => !(shared.map Parameter.key).contains p.key

section Effective

variable {shared own : List Parameter} {p : Parameter}

theorem Parameter.overriddenBy_key (own : List Parameter) (p : Parameter) :
    (p.overriddenBy own).key = p.key := by
  unfold overriddenBy
  cases h : own.find? fun q => q.key = p.key with
  | none => rfl
  | some q => simpa using List.find?_some h

/-- The name and location of every parameter are kept; those of the path come first. -/
theorem effectiveParameters_keys (shared own : List Parameter) :
    (effectiveParameters shared own).map Parameter.key =
      shared.map Parameter.key ++
        (own.map Parameter.key).filter fun k => !(shared.map Parameter.key).contains k := by
  have hshared : (shared.map (Parameter.overriddenBy own)).map Parameter.key =
      shared.map Parameter.key := by
    rw [List.map_map]
    exact List.map_congr_left fun p _ => p.overriddenBy_key own
  rw [effectiveParameters, List.map_append, hshared, List.filter_map]
  rfl

/-- No name and location apply twice. -/
theorem effectiveParameters_nodup (hs : (shared.map Parameter.key).Nodup)
    (ho : (own.map Parameter.key).Nodup) :
    ((effectiveParameters shared own).map Parameter.key).Nodup := by
  rw [effectiveParameters_keys]
  refine List.Nodup.append hs (ho.filter _) fun k hk hk' => ?_
  simp only [List.mem_filter, List.contains_eq_mem, Bool.not_eq_true', decide_eq_false_iff_not]
    at hk'
  exact hk'.2 hk

/-- A name and location apply if they are declared on one of the levels. -/
theorem mem_effectiveParameters_keys {k : String × String} :
    k ∈ (effectiveParameters shared own).map Parameter.key ↔
      k ∈ shared.map Parameter.key ∨ k ∈ own.map Parameter.key := by
  rw [effectiveParameters_keys, List.mem_append, List.mem_filter]
  by_cases hk : k ∈ shared.map Parameter.key <;> simp [hk]

theorem keys_keyed (ps : List Parameter) :
    Table.keys (ps.map fun p => (p.key, p)) = ps.map Parameter.key := by
  rw [Table.keys, List.map_map]
  rfl

/-- What is found under the key of a parameter. -/
theorem get?_keyed (own : List Parameter) (k : String × String) :
    Table.get? (own.map fun p => (p.key, p)) k = own.find? fun p => p.key = k := by
  induction own with
  | nil => rfl
  | cons p rest ih =>
    rw [List.map_cons, Table.get?_cons, List.find?_cons]
    by_cases h : p.key = k <;> simp [h, ih]

theorem find?_key_eq_some_iff (ho : (own.map Parameter.key).Nodup) {k : String × String} :
    (own.find? fun q => q.key = k) = some p ↔ p ∈ own ∧ p.key = k := by
  rw [← get?_keyed, Table.get?_eq_some_iff (by rwa [keys_keyed]), List.mem_map]
  constructor
  · rintro ⟨q, hq, heq⟩
    rw [Prod.mk.injEq] at heq
    exact heq.2 ▸ ⟨hq, heq.1⟩
  · rintro ⟨hp, hkey⟩
    exact ⟨p, hp, by rw [hkey]⟩

/-- The parameters of the operation apply, and those of the path that it does not declare
again. -/
theorem mem_effectiveParameters (ho : (own.map Parameter.key).Nodup) :
    p ∈ effectiveParameters shared own ↔
      p ∈ own ∨ p ∈ shared ∧ p.key ∉ own.map Parameter.key := by
  have hnone : ∀ k, (own.find? fun q => q.key = k) = none ↔ k ∉ own.map Parameter.key := by
    intro k
    simp [List.find?_eq_none]
  unfold effectiveParameters
  rw [List.mem_append, List.mem_map, List.mem_filter, List.contains_eq_mem, Bool.not_eq_true',
    decide_eq_false_iff_not]
  constructor
  · rintro (⟨q, hq, rfl⟩ | ⟨hp, -⟩)
    · unfold Parameter.overriddenBy
      cases hf : own.find? fun q' => q'.key = q.key with
      | some q' => exact .inl ((find?_key_eq_some_iff ho).1 hf).1
      | none => exact .inr ⟨hq, (hnone _).1 hf⟩
    · exact .inl hp
  · rintro (hp | ⟨hp, hnot⟩)
    · by_cases hshared : p.key ∈ shared.map Parameter.key
      · obtain ⟨q, hq, hkey⟩ := List.mem_map.1 hshared
        refine .inl ⟨q, hq, ?_⟩
        rw [Parameter.overriddenBy, (find?_key_eq_some_iff ho).2 ⟨hp, hkey.symm⟩, Option.getD_some]
      · exact .inr ⟨hp, hshared⟩
    · refine .inl ⟨p, hp, ?_⟩
      rw [Parameter.overriddenBy, (hnone _).2 hnot, Option.getD_none]

/-- **The parameters that are merged are those that apply.** -/
theorem mergeParameters_eq (hs : (shared.map Parameter.key).Nodup)
    (ho : (own.map Parameter.key).Nodup) :
    mergeParameters shared own = effectiveParameters shared own := by
  unfold mergeParameters effectiveParameters
  rw [List.map_append, Table.ofEntries_append (by rwa [keys_keyed]) (by rwa [keys_keyed]),
    Table.values, List.map_append, keys_keyed]
  congr 1
  · rw [List.map_map, List.map_map]
    refine List.map_congr_left fun p _ => ?_
    simp only [Function.comp, get?_keyed, Parameter.overriddenBy]
  · have hvalue : (Prod.snd ∘ fun p : Parameter => (p.key, p)) = id := rfl
    rw [List.filter_map, List.map_map, hvalue, List.map_id]
    refine List.filter_congr fun p _ => ?_
    simp only [Function.comp, List.contains_eq_mem, decide_not]

end Effective

/-! ### The rounds of a check -/

section Rounds

variable {p : Parameter} {ps : List Parameter} {template : PathTemplate}

theorem firstRepeated_eq_none_iff (ps : List Parameter) :
    ∀ seen, firstRepeated seen ps = none ↔
      (ps.map Parameter.key).Nodup ∧ ∀ p ∈ ps, p.key ∉ seen := by
  induction ps with
  | nil => simp [firstRepeated]
  | cons p rest ih =>
    intro seen
    rw [firstRepeated]
    split
    · rename_i hseen
      simp [hseen]
    · rename_i hseen
      rw [ih]
      simp only [List.mem_cons, not_or, List.map_cons, List.nodup_cons, List.mem_map, not_exists,
        not_and, forall_eq_or_imp, hseen, not_false_eq_true, true_and]
      constructor
      · rintro ⟨hnodup, hrest⟩
        exact ⟨⟨fun q hq => (hrest q hq).1, hnodup⟩, fun q hq => (hrest q hq).2⟩
      · rintro ⟨⟨hne, hnodup⟩, hrest⟩
        exact ⟨hnodup, fun q hq => ⟨hne q hq, hrest q hq⟩⟩

/-- A list of parameters has no fault if it repeats none. -/
theorem repetitionFault?_eq_none_iff (scope : String) (ps : List Parameter) :
    repetitionFault? scope ps = none ↔ (ps.map Parameter.key).Nodup := by
  rw [repetitionFault?, Option.map_eq_none_iff, firstRepeated_eq_none_iff]
  simp

/-- The list declares the name twice in one location. -/
def Repeats (ps : List Parameter) (name : String) : Prop :=
  ∃ location, [(name, location), (name, location)].Sublist (ps.map Parameter.key)

theorem firstRepeated_sublist : ∀ {ps : List Parameter} {seen : List (String × String)},
    firstRepeated seen ps = some p →
      p.key ∈ seen ∧ p ∈ ps ∨ [p.key, p.key].Sublist (ps.map Parameter.key)
  | [], _, h => by simp [firstRepeated] at h
  | q :: rest, seen, h => by
    rw [firstRepeated] at h
    split at h
    · rename_i hseen
      obtain rfl := Option.some.inj h
      exact .inl ⟨hseen, .head _⟩
    · rcases firstRepeated_sublist h with ⟨hmem, hp⟩ | hrest
      · rcases List.mem_cons.1 hmem with heq | hmem
        · -- The parameter that was seen last is the one that is repeated.
          have hsingle := List.singleton_sublist.2 (List.mem_map_of_mem (f := Parameter.key) hp)
          rw [List.map_cons, ← heq]
          exact .inr (hsingle.cons_cons _)
        · exact .inl ⟨hmem, .tail _ hp⟩
      · exact .inr (hrest.cons _)

/-- The fault of a list of parameters names one that it repeats. -/
theorem repetitionFault?_eq_some {scope : String} {fault : OperationFault}
    (h : repetitionFault? scope ps = some fault) :
    ∃ name, fault = .duplicateParameter name scope ∧ Repeats ps name := by
  obtain ⟨p, hp, rfl⟩ := Option.map_eq_some_iff.1 h
  rcases firstRepeated_sublist hp with ⟨hmem, -⟩ | hsublist
  · simp at hmem
  · exact ⟨p.name, rfl, p.location, hsublist⟩

theorem Parameter.inPath_eq (p : Parameter) : p.inPath = decide (p.location = "path") := by
  unfold inPath place declaredPlace? ParameterPlace.words
  simp only [Table.get?_cons, Table.get?_nil]
  by_cases hpath : "path" = p.location
  · simp [hpath]
  · simp only [hpath, if_false, Ne.symm hpath, decide_false]
    split
    · rfl
    · split <;> rfl

theorem pathFault?_eq_none_iff : pathFault? template p = none ↔
    (p.location = "path" → p.required = true ∧ p.name ∈ template.placeholders) := by
  unfold pathFault?
  rw [p.inPath_eq]
  by_cases hlocation : p.location = "path"
  · by_cases hrequired : p.required = true <;> simp [hlocation, hrequired]
  · simp [hlocation]

/-- The parameters that are bound to names are parameters in the path with these names. -/
theorem bindPlaceholders_ok : ∀ {names : List String} {bound : List Parameter},
    bindPlaceholders ps names = .ok bound →
      bound.map Parameter.name = names ∧ ∀ p ∈ bound, p ∈ ps ∧ p.location = "path"
  | [], bound, h => by
    rw [bindPlaceholders, Except.ok.injEq] at h
    subst h
    simp
  | name :: rest, bound, h => by
    rw [bindPlaceholders] at h
    split at h
    · rename_i p hp
      cases hrest : bindPlaceholders ps rest with
      | error fault => simp [hrest, Except.map] at h
      | ok more =>
        rw [hrest, Except.map, Except.ok.injEq] at h
        subst h
        obtain ⟨hnames, hmore⟩ := bindPlaceholders_ok hrest
        have hfound := List.find?_some hp
        simp only [p.inPath_eq, Bool.and_eq_true, decide_eq_true_eq, beq_iff_eq] at hfound
        refine ⟨by rw [List.map_cons, hnames, hfound.2], fun q hq => ?_⟩
        rcases List.mem_cons.1 hq with rfl | hq
        · exact ⟨List.mem_of_find?_eq_some hp, hfound.1⟩
        · exact hmore q hq
    · simp at h

/-- All names are bound if each of them is the name of a parameter in the path. -/
theorem bindPlaceholders_isOk_iff (ps : List Parameter) (names : List String) :
    (∃ bound, bindPlaceholders ps names = .ok bound) ↔
      ∀ name ∈ names, ∃ p ∈ ps, p.location = "path" ∧ p.name = name := by
  induction names with
  | nil => simp [bindPlaceholders]
  | cons name rest ih =>
    rw [bindPlaceholders, List.forall_mem_cons, ← ih]
    cases hp : ps.find? fun p => p.inPath && p.name == name with
    | none =>
      have hnone : ¬ ∃ p ∈ ps, p.location = "path" ∧ p.name = name := by
        rintro ⟨p, hmem, hlocation, hname⟩
        have hnot := List.find?_eq_none.1 hp p hmem
        simp [p.inPath_eq, hlocation, hname] at hnot
      simp [hnone]
    | some p =>
      have hfound := List.find?_some hp
      simp only [p.inPath_eq, Bool.and_eq_true, decide_eq_true_eq, beq_iff_eq] at hfound
      have hsome : ∃ p ∈ ps, p.location = "path" ∧ p.name = name :=
        ⟨p, List.mem_of_find?_eq_some hp, hfound⟩
      simp only [hsome, true_and]
      cases bindPlaceholders ps rest <;> simp [Except.map]

end Rounds

/-! ### Valid operations -/

/-- What is asked of an operation of a path. -/
structure Operation.Valid (path : String) (item : PathItem) (op : Operation) : Prop where
  /-- All names in braces can be placeholders. -/
  placeholders : ∀ name ∈ PathTemplate.namesOf path, name ≠ "" ∧ '/' ∉ name.toList
  /-- The path declares no parameter twice. -/
  shared : (item.parameters.map Parameter.key).Nodup
  /-- The operation declares no parameter twice. -/
  own : (op.parameters.map Parameter.key).Nodup
  /-- The parameters in the path are required and have a placeholder. -/
  named : ∀ p ∈ effectiveParameters item.parameters op.parameters, p.location = "path" →
    p.required = true ∧ p.name ∈ PathTemplate.namesOf path
  /-- Every placeholder has a parameter. -/
  bound : ∀ name ∈ PathTemplate.namesOf path,
    ∃ p ∈ effectiveParameters item.parameters op.parameters, p.location = "path" ∧ p.name = name

/-- Whether an operation is valid can be computed. -/
instance (path : String) (item : PathItem) (op : Operation) : Decidable (op.Valid path item) :=
  decidable_of_iff
    ((∀ name ∈ PathTemplate.namesOf path, name ≠ "" ∧ '/' ∉ name.toList) ∧
      (item.parameters.map Parameter.key).Nodup ∧ (op.parameters.map Parameter.key).Nodup ∧
      (∀ p ∈ effectiveParameters item.parameters op.parameters, p.location = "path" →
        p.required = true ∧ p.name ∈ PathTemplate.namesOf path) ∧
      ∀ name ∈ PathTemplate.namesOf path,
        ∃ p ∈ effectiveParameters item.parameters op.parameters,
          p.location = "path" ∧ p.name = name)
    ⟨fun ⟨h₁, h₂, h₃, h₄, h₅⟩ => ⟨h₁, h₂, h₃, h₄, h₅⟩,
      fun ⟨h₁, h₂, h₃, h₄, h₅⟩ => ⟨h₁, h₂, h₃, h₄, h₅⟩⟩

section Valid

variable {path : String} {template : PathTemplate} {item : PathItem} {op : Operation}

/-- Parameters that are known to be distinct have a signature iff they fit the placeholders. -/
theorem orderParameters_isOk_iff (template : PathTemplate) (ps : List Parameter) :
    (∃ s, orderParameters template ps = .ok s) ↔
      (∀ p ∈ ps, p.location = "path" → p.required = true ∧ p.name ∈ template.placeholders) ∧
        ∀ name ∈ template.placeholders, ∃ p ∈ ps, p.location = "path" ∧ p.name = name := by
  rw [← bindPlaceholders_isOk_iff]
  unfold orderParameters
  cases hfault : ps.findSome? (pathFault? template) with
  | some fault =>
    obtain ⟨p, hp, hpfault⟩ := List.exists_of_findSome?_eq_some hfault
    have hnot : ¬ ∀ p ∈ ps, p.location = "path" →
        p.required = true ∧ p.name ∈ template.placeholders := by
      intro hall
      rw [pathFault?_eq_none_iff.2 (hall p hp)] at hpfault
      simp at hpfault
    simp [hnot]
  | none =>
    have hall : ∀ p ∈ ps, p.location = "path" →
        p.required = true ∧ p.name ∈ template.placeholders := fun p hp =>
      pathFault?_eq_none_iff.1 (List.findSome?_eq_none_iff.1 hfault p hp)
    refine Iff.trans ?_ (and_iff_right hall).symm
    cases bindPlaceholders ps template.placeholders <;> simp [Except.map]

/-- **An operation has a signature iff it is valid.** -/
theorem signatureOf_isOk_iff (h : PathTemplate.ofPath path = .ok template) (item : PathItem)
    (op : Operation) : (∃ s, signatureOf template item op = .ok s) ↔ op.Valid path item := by
  unfold signatureOf
  -- The checks in the order in which they are made; each fault breaks one condition.
  cases hinvalid : template.invalid with
  | some group =>
    have hnot : ¬ op.Valid path item := fun hvalid => by
      rw [(PathTemplate.invalid_eq_none_iff h).2 hvalid.placeholders] at hinvalid
      simp at hinvalid
    simp [hnot]
  | none =>
    have hnames := (PathTemplate.invalid_eq_none_iff h).1 hinvalid
    have hplaceholders := PathTemplate.placeholders_eq h hinvalid
    cases hfault : (repetitionFault? "path-level parameters" item.parameters).or
        (repetitionFault? "operation parameters" op.parameters) with
    | some fault =>
      have hnot : ¬ op.Valid path item := fun hvalid => by
        rw [(repetitionFault?_eq_none_iff _ _).2 hvalid.shared,
          (repetitionFault?_eq_none_iff _ _).2 hvalid.own] at hfault
        simp at hfault
      simp [hnot]
    | none =>
      rw [Option.or_eq_none_iff, repetitionFault?_eq_none_iff,
        repetitionFault?_eq_none_iff] at hfault
      obtain ⟨hshared, hown⟩ := hfault
      simp only [orderParameters_isOk_iff, mergeParameters_eq hshared hown, hplaceholders,
        mem_distinct]
      exact ⟨fun ⟨hnamed, hbound⟩ => ⟨hnames, hshared, hown, hnamed, hbound⟩,
        fun hvalid => ⟨hvalid.named, hvalid.bound⟩⟩

/-- An operation that declares a parameter twice on one of its levels has this fault, unless its
path has a name in braces that cannot be a placeholder. -/
theorem signatureOf_repeated (h : template.invalid = none)
    (hrepeated : ¬ ((item.parameters.map Parameter.key).Nodup ∧
      (op.parameters.map Parameter.key).Nodup)) :
    ∃ scope ps name, (scope, ps) ∈ [("path-level parameters", item.parameters),
        ("operation parameters", op.parameters)] ∧ Repeats ps name ∧
      signatureOf template item op = .error (.duplicateParameter name scope) := by
  unfold signatureOf
  rw [h]
  dsimp only
  cases hshared : repetitionFault? "path-level parameters" item.parameters with
  | some fault =>
    obtain ⟨name, rfl, hname⟩ := repetitionFault?_eq_some hshared
    exact ⟨_, _, name, .head _, hname, rfl⟩
  | none =>
    cases hown : repetitionFault? "operation parameters" op.parameters with
    | some fault =>
      obtain ⟨name, rfl, hname⟩ := repetitionFault?_eq_some hown
      exact ⟨_, _, name, .tail _ (.head _), hname, rfl⟩
    | none =>
      exact absurd ⟨(repetitionFault?_eq_none_iff _ _).1 hshared,
        (repetitionFault?_eq_none_iff _ _).1 hown⟩ hrepeated

/-! ### Call order -/

/-- The parameters in call order: those in the path as they stand there, then the required and
then the optional ones as they are declared. -/
structure Arranged (path : String) (declared ordered : List Parameter) : Prop where
  blocks : ∃ inPath : List Parameter,
    ordered = inPath ++
        declared.filter (fun p => p.location ≠ "path" ∧ p.required = true) ++
        declared.filter (fun p => p.location ≠ "path" ∧ p.required = false) ∧
      inPath.map Parameter.name = distinct (PathTemplate.namesOf path) ∧
      ∀ p ∈ inPath, p.location = "path" ∧ p.required = true
  perm : ordered.Perm declared

/-- The parameters in the path, in another order. -/
theorem bound_perm {names : List String} {ps bound : List Parameter}
    (hps : (ps.map Parameter.key).Nodup) (hnames : names.Nodup)
    (hnamed : ∀ p ∈ ps, p.location = "path" → p.name ∈ names)
    (hbound : bound.map Parameter.name = names)
    (hmem : ∀ p ∈ bound, p ∈ ps ∧ p.location = "path") :
    bound.Perm (ps.filter fun p => p.location = "path") := by
  have hnodup : bound.Nodup := List.Nodup.of_map Parameter.name (hbound ▸ hnames)
  refine (List.perm_ext_iff_of_nodup hnodup ((List.Nodup.of_map _ hps).filter _)).2 fun p => ?_
  rw [List.mem_filter, decide_eq_true_eq]
  refine ⟨fun hp => hmem p hp, fun ⟨hp, hlocation⟩ => ?_⟩
  -- The parameter that is bound to the name of `p` has the key of `p`, so it is `p`.
  obtain ⟨q, hq, hname⟩ := List.mem_map.1 (hbound ▸ hnamed p hp hlocation)
  obtain ⟨hqmem, hqlocation⟩ := hmem q hq
  have hkey : q.key = p.key := by rw [Parameter.key, Parameter.key, hname, hqlocation, hlocation]
  exact List.inj_on_of_nodup_map hps hqmem hp hkey ▸ hq

/-- A signature has the path parameters first, and then the other ones in two blocks. -/
theorem orderParameters_ok {ps : List Parameter} {s : Signature}
    (h : orderParameters template ps = .ok s) :
    ∃ inPath, bindPlaceholders ps template.placeholders = .ok inPath ∧
      s = { ordered := inPath ++ (ps.filter fun p => !p.inPath).filter (·.required) ++
              (ps.filter fun p => !p.inPath).filter (fun p => !p.required)
            reclassified := ps.filter fun p => p.declaredPlace?.isNone } := by
  unfold orderParameters at h
  split at h
  · simp at h
  · cases hbind : bindPlaceholders ps template.placeholders with
    | error fault => simp [hbind, Except.map] at h
    | ok inPath =>
      rw [hbind, Except.map, Except.ok.injEq] at h
      exact ⟨inPath, rfl, h.symm⟩

/-- An operation that has a signature has the one of the parameters that apply. -/
theorem orderParameters_of_signatureOf (h : PathTemplate.ofPath path = .ok template) {s : Signature}
    (hs : signatureOf template item op = .ok s) :
    orderParameters template (effectiveParameters item.parameters op.parameters) = .ok s := by
  have hvalid := (signatureOf_isOk_iff h item op).1 ⟨s, hs⟩
  unfold signatureOf at hs
  rwa [(PathTemplate.invalid_eq_none_iff h).2 hvalid.placeholders,
    (repetitionFault?_eq_none_iff _ _).2 hvalid.shared,
    (repetitionFault?_eq_none_iff _ _).2 hvalid.own,
    mergeParameters_eq hvalid.shared hvalid.own] at hs

/-- The parameters that ask for a place that does not exist are those that apply. -/
theorem signatureOf_reclassified (h : PathTemplate.ofPath path = .ok template) {s : Signature}
    (hs : signatureOf template item op = .ok s) :
    s.reclassified = (effectiveParameters item.parameters op.parameters).filter
      fun p => p.declaredPlace?.isNone := by
  obtain ⟨inPath, -, rfl⟩ := orderParameters_ok (orderParameters_of_signatureOf h hs)
  rfl

/-- **The signature of an operation has the parameters that apply, in call order.** -/
theorem signatureOf_arranged (h : PathTemplate.ofPath path = .ok template) {s : Signature}
    (hs : signatureOf template item op = .ok s) :
    Arranged path (effectiveParameters item.parameters op.parameters) s.ordered := by
  have hvalid := (signatureOf_isOk_iff h item op).1 ⟨s, hs⟩
  have hinvalid := (PathTemplate.invalid_eq_none_iff h).2 hvalid.placeholders
  replace hs := orderParameters_of_signatureOf h hs
  have hnodup := effectiveParameters_nodup hvalid.shared hvalid.own
  have hnamed := hvalid.named
  generalize effectiveParameters item.parameters op.parameters = declared at hs hnodup hnamed ⊢
  obtain ⟨inPath, hbind, rfl⟩ := orderParameters_ok hs
  rw [PathTemplate.placeholders_eq h hinvalid] at hbind
  obtain ⟨hnames, hmem⟩ := bindPlaceholders_ok hbind
  have hothers : declared.filter (fun p => !p.inPath) =
      declared.filter fun p => p.location ≠ "path" :=
    List.filter_congr fun p _ => by simp [p.inPath_eq]
  rw [hothers]
  have hbound := bound_perm hnodup (nodup_distinct _)
    (fun p hp hlocation => mem_distinct.2 (hnamed p hp hlocation).2) hnames hmem
  refine ⟨⟨inPath, ?_, hnames, fun p hp =>
    ⟨(hmem p hp).2, (hnamed p (hmem p hp).1 (hmem p hp).2).1⟩⟩, ?_⟩
  · simp only [List.filter_filter]
    congr 1
    · congr 1
      exact List.filter_congr fun p _ => by simp [Bool.and_comm]
    · exact List.filter_congr fun p _ => by simp [Bool.and_comm]
  · -- The two blocks behind the path parameters are the other parameters.
    have hblocks := List.filter_append_perm (fun p : Parameter => p.required)
      (declared.filter fun p => p.location ≠ "path")
    have hsplit := List.filter_append_perm (fun p : Parameter => decide (p.location = "path"))
      declared
    rw [List.append_assoc]
    refine (hbound.append hblocks).trans ?_
    simpa using hsplit

end Valid

end ApiBinding
