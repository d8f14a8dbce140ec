import ApiBinding.Proofs.Compilation.Responses

/-!
# Where parameters are sent

A parameter is sent under its name in one of three places.  Declared parameters are told apart by
their names and locations, and a level that declares a name twice in one location makes the
operation invalid.  But every location that is no place stands for the query; so a name that is
declared for several such locations is sent several times.

## Main definitions

* `Parameter.target`, `EndpointParameter.target` — the name and the place.
* `DeclaredOperation.locationsOf` — the locations in which a name is declared for a place.
* `Endpoint.Sends` — how often an endpoint sends what its operation declares.

## Main results

* `Endpoint.Implements.sends` — a name is sent in a place once for each location.
* `compile_sent` — **how often names are sent, and what is reported about it.**
-/

namespace ApiBinding

open Build

/-! ### Names and places -/

/-- The place that a location stands for. -/
def ParameterPlace.ofLocation (location : String) : ParameterPlace :=
  (Table.get? words location).getD .query

/-- All locations but two stand for the query. -/
theorem ParameterPlace.eq_name_of_ofLocation {location : String}
    (h : ofLocation location ≠ .query) : location = (ofLocation location).name := by
  unfold ofLocation at h ⊢
  cases hplace : Table.get? words location with
  | none => simp [hplace] at h
  | some place =>
    have hmem := Table.mem_of_get? hplace
    simp only [words, List.mem_cons, Prod.mk.injEq, List.not_mem_nil, or_false] at hmem
    rcases hmem with ⟨rfl, rfl⟩ | ⟨rfl, rfl⟩ | ⟨rfl, rfl⟩ <;> rfl

/-- The name under which a declared parameter is sent, and the place. -/
def Parameter.target (p : Parameter) : String × ParameterPlace := (p.name, p.place)

/-- The name under which a parameter is sent, and the place. -/
def EndpointParameter.target (p : EndpointParameter) : String × ParameterPlace :=
  (p.wireName, p.place)

/-- The locations of the parameters that are sent under a name in a place. -/
theorem mem_locations_iff {ps : List Parameter} {target : String × ParameterPlace}
    {location : String} :
    location ∈ (ps.filter fun p => p.target = target).map Parameter.location ↔
      (target.1, location) ∈ ps.map Parameter.key ∧
        ParameterPlace.ofLocation location = target.2 := by
  simp only [List.mem_map, List.mem_filter, decide_eq_true_eq]
  constructor
  · rintro ⟨p, ⟨hp, rfl⟩, rfl⟩
    exact ⟨⟨p, hp, rfl⟩, rfl⟩
  · rintro ⟨⟨p, hp, hkey⟩, hplace⟩
    obtain ⟨hname, rfl⟩ := Prod.mk.inj hkey
    exact ⟨p, ⟨hp, Prod.ext hname hplace⟩, rfl⟩

/-! ### How often a name is sent -/

/-- The levels on which an operation declares parameters, in the words of findings. -/
def DeclaredOperation.levels (o : DeclaredOperation) : List (String × List Parameter) :=
  [("path-level parameters", o.item.parameters), ("operation parameters", o.op.parameters)]

/-- The locations in which a name is declared for a place, on either level. -/
def DeclaredOperation.locationsOf (o : DeclaredOperation) (target : String × ParameterPlace) :
    List String :=
  distinct (((o.item.parameters ++ o.op.parameters).filter fun p => p.target = target).map
    Parameter.location)

/-- How often the endpoint sends what its operation declares. -/
structure Endpoint.Sends (e : Endpoint) (o : DeclaredOperation) : Prop where
  path : e.path = o.path
  method : e.method = o.method
  /-- A name is sent in a place once for each location in which it is declared for this place. -/
  count : ∀ target, (e.parameters.map EndpointParameter.target).count target =
    (o.locationsOf target).length
  /-- In the path and in headers no name is sent twice. -/
  elsewhere : ∀ name place, place ≠ .query →
    (e.parameters.map EndpointParameter.target).count (name, place) ≤ 1
  /-- Nothing is sent twice iff no name is declared for the query in two locations. -/
  once_iff : (e.parameters.map EndpointParameter.target).Nodup ↔
    ∀ p ∈ o.parameters, ∀ q ∈ o.parameters, p.name = q.name → p.place = .query →
      q.place = .query → p.location = q.location

section Sends

variable {o : DeclaredOperation} {e : Endpoint}

theorem mem_locationsOf_iff {target : String × ParameterPlace} {location : String} :
    location ∈ o.locationsOf target ↔ (target.1, location) ∈ o.parameters.map Parameter.key ∧
      ParameterPlace.ofLocation location = target.2 := by
  rw [DeclaredOperation.locationsOf, mem_distinct, mem_locations_iff, List.map_append,
    List.mem_append, DeclaredOperation.parameters, mem_effectiveParameters_keys]

/-- The parameters that apply and are sent under a name in a place stand in the locations in which
the name is declared for the place. -/
theorem locationsOf_perm (ho : o.Valid) (target : String × ParameterPlace) :
    ((o.parameters.filter fun p => p.target = target).map Parameter.location).Perm
      (o.locationsOf target) := by
  have hkeys : (o.parameters.map Parameter.key).Nodup := effectiveParameters_nodup ho.shared ho.own
  have hnodup :
      ((o.parameters.filter fun p => p.target = target).map Parameter.location).Nodup := by
    refine (List.nodup_map_iff_inj_on ((List.Nodup.of_map _ hkeys).filter _)).2 ?_
    intro p hp q hq hlocation
    simp only [List.mem_filter, decide_eq_true_eq] at hp hq
    have hname : p.target.1 = q.target.1 := by rw [hp.2, hq.2]
    exact List.inj_on_of_nodup_map hkeys hp.1 hq.1 (Prod.ext hname hlocation)
  refine (List.perm_ext_iff_of_nodup hnodup (nodup_distinct _)).2 fun location => ?_
  exact mem_locations_iff.trans mem_locationsOf_iff.symm

/-- **A name is sent in a place once for each location** in which it is declared for this place. -/
theorem Endpoint.Implements.sends (h : e.Implements o) (ho : o.Valid) : e.Sends o := by
  have hkeys : (o.parameters.map Parameter.key).Nodup := effectiveParameters_nodup ho.shared ho.own
  obtain ⟨ordered, harranged, hparameters⟩ := h.parameters
  have hsame : ordered.map Parameter.target = e.parameters.map EndpointParameter.target :=
    map_eq_of_forall₂ hparameters fun p q hpq => Prod.ext hpq.wireName.symm hpq.place.symm
  have htargets : (e.parameters.map EndpointParameter.target).Perm
      (o.parameters.map Parameter.target) := hsame ▸ harranged.perm.map _
  have hcount : ∀ target, (e.parameters.map EndpointParameter.target).count target =
      (o.locationsOf target).length := by
    intro target
    have hfilter : (o.parameters.filter fun p => p.target == target) =
        o.parameters.filter fun p => p.target = target :=
      List.filter_congr fun p _ => Bool.eq_iff_iff.2 (by simp)
    rw [htargets.count_eq, ← (locationsOf_perm ho target).length_eq, List.length_map, ← hfilter,
      List.count, List.countP_map, List.countP_eq_length_filter]
    rfl
  refine ⟨h.path, h.method, hcount, fun name place hplace => ?_, ?_⟩
  · -- There is one location for each place other than the query.
    have hlocation : o.locationsOf (name, place) ⊆ [place.name] := by
      intro location hmem
      obtain ⟨-, rfl⟩ := mem_locationsOf_iff.1 hmem
      exact List.mem_singleton.2 (ParameterPlace.eq_name_of_ofLocation hplace)
    rw [hcount]
    exact (List.subperm_of_subset (nodup_distinct _) hlocation).length_le
  · rw [htargets.nodup_iff, List.nodup_map_iff_inj_on (List.Nodup.of_map _ hkeys)]
    constructor
    · intro hinj p hp q hq hname hpq hqq
      rw [hinj p hp q hq (Prod.ext hname (hpq.trans hqq.symm))]
    · intro hquery p hp q hq htarget
      obtain ⟨hname, hplace⟩ := Prod.mk.inj htarget
      refine List.inj_on_of_nodup_map hkeys hp hq (Prod.ext hname ?_)
      by_cases hpq : p.place = .query
      · exact hquery p hp q hq hname hpq (hplace ▸ hpq)
      · have hqq : q.place ≠ .query := hplace ▸ hpq
        calc p.location = p.place.name := ParameterPlace.eq_name_of_ofLocation hpq
          _ = q.place.name := congrArg ParameterPlace.name hplace
          _ = q.location := (ParameterPlace.eq_name_of_ofLocation hqq).symm

end Sends

/-! ### Findings about places -/

/-- What holds whatever the result and the findings are. -/
theorem Reports.walks {α : Type} {work : Build α} {P : Diagnostic → Prop}
    {Q : α → List Diagnostic → Prop} (h : Reports P work) (hQ : ∀ a more, Q a more) :
    Walks work Q := fun w =>
  ((returns_any work).walks h w).mono_ok fun a _ ⟨more, hmore, _⟩ => ⟨more, hmore, hQ a more⟩

/-- What is known of the findings is known together with what the registry becomes. -/
theorem Build.Gives.walks {α : Type} {I : Workspace → Prop} {work : Build α}
    {R : Registry → α → Prop} {Q : α → List Diagnostic → Prop} (h : Gives I work R)
    (hwalks : Walks work Q) : Records I work fun _ a more => Q a more := by
  intro w hw
  unfold Ends
  cases hrun : work w with
  | error e w' => trivial
  | ok a w' =>
    obtain ⟨hw', hextends, -⟩ := (h w hw).of_ok hrun
    obtain ⟨more, hmore, ha⟩ := (hwalks w).of_ok hrun
    exact ⟨hw', hextends, more, hmore, fun _ _ => ha⟩

/-- The operations are among those that the findings are about. -/
theorem Tabled.exists_of_valid {R : DeclaredOperation → Endpoint → List Diagnostic → Prop}
    {os : List DeclaredOperation} {es : List Endpoint} {fs : List Diagnostic}
    {o : DeclaredOperation} (h : Tabled R os es fs) (ho : o ∈ os) (hvalid : o.Valid) :
    ∃ e more, R o e more ∧ more ⊆ fs := by
  induction h with
  | nil => simp at ho
  | skipped hinvalid _ _ ih =>
    rcases List.mem_cons.1 ho with rfl | ho
    · exact absurd hvalid hinvalid
    · obtain ⟨e, more, he, hmore⟩ := ih ho
      exact ⟨e, more, he, List.subset_cons_of_subset _ hmore⟩
  | @made _ e' more' os es fs _ he' _ ih =>
    rcases List.mem_cons.1 ho with rfl | ho
    · exact ⟨e', more', he', List.subset_append_left _ _⟩
    · obtain ⟨e, more, he, hmore⟩ := ih ho
      exact ⟨e, more, he, List.subset_append_of_subset_right _ hmore⟩

section Places

variable {config : Config} {d : Document}

/-- The parameters that ask for a place that does not exist are reported before anything else. -/
theorem buildEndpoint_unsupported (callables : NameScope) (path : String) (method : HttpMethod)
    (op : Operation) (signature : Signature) (location : String) :
    Walks (buildEndpoint d config callables path method op signature location) fun _ more =>
      signature.reclassified.map (unsupportedLocation location) ⊆ more := by
  have hreport : Walks (Build.report (signature.reclassified.map (unsupportedLocation location)))
      fun _ more => more = signature.reclassified.map (unsupportedLocation location) :=
    fun _ => ⟨_, rfl, rfl⟩
  refine hreport.bind fun _ ms hms => ?_
  subst hms
  refine Reports.walks (P := Diagnostic.IsWarning) ?_ fun _ _ => List.subset_append_left _ _
  exact (reports_typing (Typing.warns_allocate _ _ _ _)).warns.bind fun _ =>
    (EndpointContext.parameters_reports _ _ _).warns.bind fun _ =>
      (EndpointContext.requestBody_reports _ _).warns.bind fun _ =>
        (EndpointContext.responses_reports _ _ _).bind fun _ => reports_pure _

/-- A parameter of an operation that asks for a place that does not exist is reported. -/
theorem DeclaredOperation.builds_unsupported {o : DeclaredOperation}
    (ho : o ∈ d.declaredOperations) :
    o.Builds config d fun _ o _ more => ∀ p ∈ o.parameters, p.declaredPlace? = none →
      unsupportedLocation o.location p ∈ more := by
  intro template signature callables htemplate hsignature
  have hgives : Gives (Closing config d [])
      (buildEndpoint d config callables o.path o.method o.op signature o.location)
      fun r found => found.1.Typed config d r :=
    gives_buildEndpoint fun s hs => DeclaredOperation.uses ho htemplate hsignature hs
  have hrecords := hgives.walks (buildEndpoint_unsupported _ _ _ _ _ _)
  refine hrecords.mono fun _ _ more hmore p hp hnone => hmore (List.mem_map_of_mem ?_)
  rw [signatureOf_reclassified htemplate hsignature]
  exact List.mem_filter.2 ⟨hp, by simp [hnone]⟩

end Places

/-! ### Clients -/

/-- An operation that declares a parameter twice on one level is left out, and reported for such a
parameter. -/
theorem Accounted.repeated {os : List DeclaredOperation} {es : List Endpoint}
    {fs : List Diagnostic} (h : Accounted os es fs) {o : DeclaredOperation} (ho : o ∈ os)
    (hnames : ∀ name ∈ PathTemplate.namesOf o.path, name ≠ "" ∧ '/' ∉ name.toList)
    (hrepeated : ∃ level ∈ o.levels, ¬ (level.2.map Parameter.key).Nodup) :
    ¬ o.Valid ∧ ∃ level ∈ o.levels, ∃ name, Repeats level.2 name ∧
      skippedOperation o.path o.method o.location (.duplicateParameter name level.1) ∈ fs := by
  have hnot : ¬ ((o.item.parameters.map Parameter.key).Nodup ∧
      (o.op.parameters.map Parameter.key).Nodup) := by
    simpa [DeclaredOperation.levels, imp_iff_not_or] using hrepeated
  have hinvalid : ¬ o.Valid := fun hvalid => hnot ⟨hvalid.shared, hvalid.own⟩
  obtain ⟨f, hf, template, fault, htemplate, hfault, rfl⟩ :=
    forall₂_exists h.invalid (List.mem_filter.2 ⟨ho, by simpa using hinvalid⟩)
  obtain ⟨scope, ps, name, hlevel, hname, herror⟩ := signatureOf_repeated
    ((PathTemplate.invalid_eq_none_iff htemplate).2 hnames) hnot
  obtain rfl : fault = .duplicateParameter name scope := Except.error.inj (hfault.symm.trans herror)
  exact ⟨hinvalid, (scope, ps), hlevel, name, hname, List.mem_of_mem_filter hf⟩

/-- **How often names are sent, and what is reported about it.**  The endpoint of a valid operation
sends a name in a place once for each location in which it is declared for this place, so it sends
nothing twice but in the query.  Every location that is no place is reported; and an operation that
declares a name twice in one location, on one level, is left out. -/
theorem compile_sent {config : Config} {d : Document} {c : Compilation}
    (h : compile config d = .ok c) :
    List.Forall₂ (fun o e => e.Sends o) (d.declaredOperations.filter fun o => o.Valid)
      c.interface.endpoints ∧
    (∀ o ∈ d.declaredOperations, o.Valid → ∀ p ∈ o.parameters, p.declaredPlace? = none →
      unsupportedLocation o.location p ∈ c.diagnostics) ∧
    ∀ o ∈ d.declaredOperations,
      (∀ name ∈ PathTemplate.namesOf o.path, name ≠ "" ∧ '/' ∉ name.toList) →
      (∃ level ∈ o.levels, ¬ (level.2.map Parameter.key).Nodup) →
      ¬ o.Valid ∧ ∃ level ∈ o.levels, ∃ name, Repeats level.2 name ∧
        skippedOperation o.path o.method o.location (.duplicateParameter name level.1) ∈
          c.diagnostics := by
  have haccounted := compile_accounted h
  obtain ⟨w, hw⟩ := compile_final h
  obtain ⟨before, after, hfindings, -, htabled⟩ :=
    compile_builds hw h fun o ho => DeclaredOperation.builds_unsupported ho
  refine ⟨?_, fun o ho hvalid p hp hnone => ?_, fun o ho => haccounted.repeated ho⟩
  · refine ((List.forall₂_and_left _ _).2 ⟨fun o ho => ?_, haccounted.valid⟩).imp
      fun o e ⟨hvalid, he⟩ => he.sends hvalid
    simpa using (List.mem_filter.1 ho).2
  · obtain ⟨e, more, hmore, hsub⟩ := htabled.exists_of_valid ho hvalid
    rw [hfindings]
    exact List.mem_append_right _ (hsub (hmore p hp hnone))

/-- A page number in a location. -/
def pageIn (location : String) : Parameter where
  name := "page"
  location := location

/-- A page number in the query and in a header, twice in the query, and in the query and a
cookie. -/
def pagesItem : PathItem where
  get := some { parameters := [pageIn "query", pageIn "header"] }
  put := some { parameters := [pageIn "query", pageIn "query"] }
  post := some { parameters := [pageIn "query", pageIn "cookie"] }

/-- A description of these operations. -/
def pages : Document where
  paths := [("/pages", pagesItem)]

/-- An operation of the item. -/
def pagesOperation (method : HttpMethod) (parameters : List Parameter) : DeclaredOperation :=
  ⟨"/pages", pagesItem, method, { parameters := parameters }⟩

theorem pages_operations : pages.declaredOperations =
    [pagesOperation .get [pageIn "query", pageIn "header"],
     pagesOperation .put [pageIn "query", pageIn "query"],
     pagesOperation .post [pageIn "query", pageIn "cookie"]] := rfl

theorem pages_valid : (pages.declaredOperations.filter fun o => o.Valid) =
    [pagesOperation .get [pageIn "query", pageIn "header"],
     pagesOperation .post [pageIn "query", pageIn "cookie"]] := by
  have hget : (pagesOperation .get [pageIn "query", pageIn "header"]).Valid := by decide +kernel
  have hput : ¬ (pagesOperation .put [pageIn "query", pageIn "query"]).Valid := by decide +kernel
  have hpost : (pagesOperation .post [pageIn "query", pageIn "cookie"]).Valid := by decide +kernel
  simp [pages_operations, hget, hput, hpost]

/-- The page number that is also sent in a header is sent once in the query; the cookie is sent in
the query as well, and is reported; and the operation that declares the number twice in the query
is left out. -/
theorem compile_sent_pages : ∃ c e₁ e₂, compile {} pages = .ok c ∧
    c.interface.endpoints = [e₁, e₂] ∧
    (e₁.parameters.map EndpointParameter.target).count ("page", .query) = 1 ∧
    (e₂.parameters.map EndpointParameter.target).count ("page", .query) = 2 ∧
    unsupportedLocation "#/paths/~1pages/post" (pageIn "cookie") ∈ c.diagnostics ∧
    ∃ level ∈ (pagesOperation .put [pageIn "query", pageIn "query"]).levels, ∃ name,
      Repeats level.2 name ∧ skippedOperation "/pages" .put "#/paths/~1pages/put"
        (.duplicateParameter name level.1) ∈ c.diagnostics := by
  obtain ⟨c, hc⟩ := compile_eq_ok {} pages (by decide +kernel)
  obtain ⟨hsends, hreported, hskipped⟩ := compile_sent hc
  rw [pages_valid] at hsends
  obtain ⟨e₁, rest, he₁, hrest, hendpoints⟩ := List.forall₂_cons_left_iff.1 hsends
  obtain ⟨e₂, last, he₂, hlast, rfl⟩ := List.forall₂_cons_left_iff.1 hrest
  rw [List.forall₂_nil_left_iff.1 hlast] at hendpoints
  have hpost : pagesOperation .post [pageIn "query", pageIn "cookie"] ∈
      pages.declaredOperations := .tail _ (.tail _ (.head _))
  have hput := hskipped (pagesOperation .put [pageIn "query", pageIn "query"]) (.tail _ (.head _))
    (by decide +kernel) (by decide +kernel)
  refine ⟨c, e₁, e₂, hc, hendpoints, ?_, ?_, ?_, hput.2⟩
  · rw [he₁.count]
    decide +kernel
  · rw [he₂.count]
    decide +kernel
  · exact hreported _ hpost (by decide +kernel) (pageIn "cookie") (.tail _ (.head _))
      (by decide +kernel)

/-- **A page number that is sent twice in the query**: it is declared for the query and for a
cookie, and the operation is not left out. -/
theorem pages_sent_twice : ∃ c e, compile {} pages = .ok c ∧ e ∈ c.interface.endpoints ∧
    e.path = "/pages" ∧ e.method = .post ∧
    e.parameters.map EndpointParameter.target = [("page", .query), ("page", .query)] ∧
    ¬ (e.parameters.map EndpointParameter.target).Nodup ∧
    ∀ fault, skippedOperation "/pages" .post "#/paths/~1pages/post" fault ∉ c.diagnostics := by
  obtain ⟨c, hc⟩ := compile_eq_ok {} pages (by decide +kernel)
  have hendpoints : (compile {} pages).toOption.map (fun c => c.interface.endpoints.map fun e =>
      (e.path, e.method, e.parameters.map EndpointParameter.target)) =
        some [("/pages", .get, [("page", .query), ("page", .header)]),
          ("/pages", .post, [("page", .query), ("page", .query)])] := by
    decide +kernel
  have hskipped : (compile {} pages).toOption.map (fun c =>
      (c.diagnostics.filter fun f => f.severity = .error).map Diagnostic.location) =
        some ["#/paths/~1pages/put"] := by
    decide +kernel
  rw [hc] at hendpoints hskipped
  have hsent : c.interface.endpoints.map (fun e =>
      (e.path, e.method, e.parameters.map EndpointParameter.target)) =
        [("/pages", .get, [("page", .query), ("page", .header)]),
          ("/pages", .post, [("page", .query), ("page", .query)])] := Option.some.inj hendpoints
  have herrors : (c.diagnostics.filter fun f => f.severity = .error).map Diagnostic.location =
      ["#/paths/~1pages/put"] := Option.some.inj hskipped
  obtain ⟨e₁, rest, hlist, -, hrest⟩ := List.map_eq_cons_iff.1 hsent
  obtain ⟨e, rfl, he⟩ := List.map_eq_singleton_iff.1 hrest
  obtain ⟨hpath, hmethod, htargets⟩ : e.path = "/pages" ∧ e.method = .post ∧
      e.parameters.map EndpointParameter.target = [("page", .query), ("page", .query)] := by
    simpa using he
  refine ⟨c, e, hc, hlist ▸ .tail _ (.head _), hpath, hmethod, htargets, by simp [htargets],
    fun fault hfault => ?_⟩
  have hplace : "#/paths/~1pages/post" ∈
      (c.diagnostics.filter fun f => f.severity = .error).map Diagnostic.location :=
    List.mem_map.2 ⟨_, List.mem_filter.2 ⟨hfault, rfl⟩, rfl⟩
  rw [herrors] at hplace
  exact absurd hplace (by decide)

end ApiBinding
