import ApiBinding.Proofs.Client.RoundTrip
import ApiBinding.Proofs.Compilation.Closure
import ApiBinding.Proofs.Compilation.Operations
import ApiBinding.Proofs.Resolver.Values

/-!
# Clients that are written and read back

The values that a client shows are values of the description, and the statuses of its responses are
those that were read from the keys of the description.  So a client loses nothing when it is
written, unless one of its defaults is `null`, which is taken for a missing one when it is read
back.  A description that was read has no such default, and a client that was read has none either.

## Main results

* `compile_valued` — what is said of the defaults in a description holds in its client.
* `compile_reads_back_iff` — **a client is read back as it was if and only if none of its defaults
  is `null`.**
* `interface_reads_back` — this, and **clients of descriptions that were read, and clients that are
  read, are read back as they were.**
-/

namespace ApiBinding

section Writing

variable {config : Config} {d : Document} {D : Option Json → Prop}

/-! ### Models -/

/-- What is said of the defaults in a node holds in the body of its model. -/
theorem BodyOf.valued {r : Registry} {n : Node} {body : ModelBody} (h : BodyOf r n body)
    (hn : n.Valued D) : body.Valued D := by
  have hshape := Node.Has.shape hn
  cases h with
  | object hobject hne hfields hadditional =>
    rw [hobject] at hshape
    intro f hf
    obtain ⟨property, hproperty, hfield⟩ := forall₂_exists hfields.flip hf
    have hpart := hshape.parts property.2 (Shape.mem_parts_object.2 (.inl ⟨_, hproperty, rfl⟩))
    rw [hfield.default]
    exact hpart.default
  | enumeration henumeration hvalues =>
    intro m hm
    exact hshape.self _ henumeration m.value (hvalues ▸ List.mem_map_of_mem hm)
  | union => trivial
  | otherName => trivial

/-! ### Endpoints -/

open Build

/-- The statuses of a table of responses are distinct, and they have a written form. -/
def ProperStatuses (responses : Table StatusKey (Option TypeRef)) : Prop :=
  (Table.keys responses).Nodup ∧ ∀ key ∈ Table.keys responses, key.Valid

theorem ProperStatuses.insert {responses : Table StatusKey (Option TypeRef)}
    (h : ProperStatuses responses) {text : String} {status : StatusKey}
    (hstatus : StatusKey.ofText? text = some status) (body : Option TypeRef) :
    ProperStatuses (Table.insert responses status body) := by
  refine ⟨?_, fun key hkey => ?_⟩
  · rw [Table.keys_insert_eq_addNew]
    exact nodup_addNew h.1 status
  · rw [Table.keys_insert_eq_addNew, mem_addNew] at hkey
    rcases hkey with hkey | rfl
    · exact h.2 key hkey
    · exact StatusKey.valid_of_ofText? hstatus

/-- The responses of an endpoint are entered under distinct statuses that were read. -/
theorem EndpointContext.responses_proper (ctx : EndpointContext) :
    ∀ (rs : List (String × Response)) (found : Table StatusKey (Option TypeRef)),
      ProperStatuses found → Returns (ctx.responses found rs) ProperStatuses
  | [], _, hfound => returns_pure hfound
  | (key, response) :: rest, found, hfound => by
    unfold responses
    cases hkey : StatusKey.ofText? key with
    | none => exact (returns_any _).bind fun _ _ => responses_proper ctx rest found hfound
    | some status =>
      exact (returns_any _).bind fun type _ =>
        responses_proper ctx rest _ (hfound.insert hkey type)

/-- **What is said of the defaults in a signature holds in the endpoint** of the operation. -/
theorem buildEndpoint_valued (hD : D none) {signature : Signature} (callables : NameScope)
    (path : String) (method : HttpMethod) (op : Operation) (location : String)
    (hsignature : ∀ p ∈ signature.ordered, p.Valued D) :
    Returns (buildEndpoint d config callables path method op signature location) fun made =>
      made.1.Valued D := by
  unfold buildEndpoint
  refine (returns_any _).bind fun _ _ => (returns_any _).bind fun named _ => ?_
  let ctx : EndpointContext := ⟨d, config, location, camelHint named.1⟩
  refine (ctx.parameters_implemented signature.ordered _).bind fun parameters hparameters => ?_
  refine (returns_any _).bind fun body _ => ?_
  refine (ctx.responses_proper op.responses [] ⟨List.nodup_nil, nofun⟩).bind
    fun responses hresponses => returns_pure ⟨fun e he => ?_, hresponses.1, hresponses.2⟩
  obtain ⟨p, hp, himplemented⟩ := forall₂_exists hparameters.flip he
  have hvalued := hsignature p hp
  rw [himplemented.default]
  cases hdefault : p.default with
  | some v =>
    rw [Option.some_or, ← hdefault]
    exact hvalued.default
  | none =>
    -- Without a default of its own the parameter has that of its schema.
    cases hschema : p.schema with
    | none => exact hD
    | some s => exact (hvalued.schema s hschema).values.default

/-- The parameters of a signature are parameters of the path or of the operation. -/
theorem valued_of_signatureOf {path : String} {template : PathTemplate} {item : PathItem}
    {method : HttpMethod} {op : Operation} {signature : Signature} (hitem : item.Valued D)
    (hop : item.operation? method = some op) (hpath : PathTemplate.ofPath path = .ok template)
    (h : signatureOf template item op = .ok signature) :
    ∀ p ∈ signature.ordered, p.Valued D := by
  have hvalid := (signatureOf_isOk_iff hpath item op).1 ⟨signature, h⟩
  intro p hp
  have hdeclared := (signatureOf_arranged hpath h).perm.mem_iff.1 hp
  rcases (mem_effectiveParameters hvalid.own).1 hdeclared with hp | ⟨hp, -⟩
  · exact (hitem.operations method op hop).parameters p hp
  · exact hitem.parameters p hp

theorem pathEndpoints_valued (hD : D none) {path : String} {template : PathTemplate}
    (hpath : PathTemplate.ofPath path = .ok template) {item : PathItem} (hitem : item.Valued D) :
    ∀ (operations : List (HttpMethod × Operation)) (callables : NameScope),
      (∀ e ∈ operations, item.operation? e.1 = some e.2) →
        Returns (pathEndpoints d config path item template callables operations) fun made =>
          ∀ e ∈ made.1, e.Valued D
  | [], _, _ => returns_pure (by simp)
  | (method, op) :: rest, callables, h => by
    have hrest := fun callables => pathEndpoints_valued hD hpath hitem rest callables
      fun e he => h e (.tail _ he)
    have hop : item.operation? method = some op := h _ (.head _)
    unfold pathEndpoints
    cases hsignature : signatureOf template item op with
    | error fault => exact (returns_any _).bind fun _ _ => hrest callables
    | ok signature =>
      have hparameters := valued_of_signatureOf hitem hop hpath hsignature
      refine (buildEndpoint_valued hD callables path method op _ hparameters).bind
        fun made hmade => (hrest made.2).bind fun more hmore => returns_pure fun e he => ?_
      rcases List.mem_cons.1 he with rfl | he
      · exact hmade
      · exact hmore e he

/-- The operations of a path are those that are declared for its methods. -/
theorem PathItem.operation?_of_mem {item : PathItem} {e : HttpMethod × Operation}
    (he : e ∈ item.operations) : item.operation? e.1 = some e.2 := by
  obtain ⟨method, -, hop⟩ := List.mem_filterMap.1 he
  obtain ⟨op, hdeclared, rfl⟩ := Option.map_eq_some_iff.1 hop
  exact hdeclared

theorem tableEndpoints_valued (hD : D none) :
    ∀ (paths : List (String × PathItem)) (callables : NameScope),
      (∀ e ∈ paths, e.2.Valued D) →
        Returns (tableEndpoints d config callables paths) fun made => ∀ e ∈ made, e.Valued D
  | [], _, _ => returns_pure (by simp)
  | (path, item) :: rest, callables, h => by
    have htemplate : Returns (Build.ofExcept (PathTemplate.ofPath path)) fun template =>
        PathTemplate.ofPath path = .ok template := by
      intro w _
      unfold Build.ofExcept
      rw [ends_resolving, Resolution.ends_ofExcept]
      exact ⟨fun t ht => ⟨trivial, ht⟩, fun _ _ => trivial⟩
    unfold tableEndpoints
    refine htemplate.bind fun template hpath => ?_
    refine (pathEndpoints_valued hD hpath (h _ (.head _)) item.operations callables
      fun e he => PathItem.operation?_of_mem he).bind fun made hmade => ?_
    refine (tableEndpoints_valued hD rest made.2 fun e he => h e (.tail _ he)).bind
      fun more hmore => returns_pure fun e he => ?_
    rcases List.mem_append.1 he with he | he
    · exact hmade e he
    · exact hmore e he

/-! ### Clients -/

/-- The schema that is picked stands under its media type. -/
theorem mem_of_selectMedia {preferred : List String} {content : Table String MediaType}
    {media : String} {s : Schema} (h : selectMedia preferred content = some (media, s)) :
    ∃ m, (media, m) ∈ content ∧ m.schema = some s := by
  unfold selectMedia at h
  dsimp only at h
  rcases Option.or_eq_some_iff.1 h with h | ⟨-, h⟩
  · obtain ⟨wanted, -, h⟩ := List.exists_of_findSome?_eq_some h
    simp only [Option.bind_eq_bind, Option.bind_eq_some_iff, Option.pure_def, Option.some.injEq,
      Prod.mk.injEq] at h
    obtain ⟨m, hm, s', hs', rfl, rfl⟩ := h
    exact ⟨m, Table.mem_of_get? hm, hs'⟩
  · obtain ⟨e, he, h⟩ := List.exists_of_findSome?_eq_some h
    obtain ⟨s', hs', heq⟩ := Option.map_eq_some_iff.1 h
    rw [Prod.mk.injEq] at heq
    exact ⟨e.2, heq.1 ▸ he, heq.2 ▸ hs'⟩

/-- What is said of the defaults in a description holds in the schemas that its operations use. -/
theorem Document.Valued.uses (hd : d.Valued D) {s : Schema} (hs : d.Uses config s) :
    s.Valued D := by
  obtain ⟨path, item, template, hmem, hpath, method, op, signature, hop, hsignature, huses⟩ := hs
  have hitem := hd.paths _ hmem
  have hdeclared := PathItem.operation?_of_mem hop
  have hvalued := hitem.operations method op hdeclared
  have hmedia : ∀ {content : Table String MediaType} {media : String} {s : Schema},
      (∀ e ∈ content, e.2.Valued D) →
        selectMedia config.media.preferred content = some (media, s) → s.Valued D := by
    intro content media s hcontent hm
    obtain ⟨m, hmem, hs⟩ := mem_of_selectMedia hm
    exact hcontent _ hmem s hs
  cases huses with
  | parameter hp hs =>
    exact (valued_of_signatureOf hitem hdeclared hpath hsignature _ hp).schema _ hs
  | request hb hm => exact hmedia (hvalued.request _ hb) hm
  | response hr _ hm => exact hmedia (hvalued.responses _ hr) hm

/-- **What is said of the defaults in a description holds in its client.** -/
theorem compile_valued {c : Compilation} (hD : D none) (hd : d.Valued D)
    (h : compile config d = .ok c) : c.interface.Valued D := by
  obtain ⟨w, hfinal⟩ := compile_final h
  refine ⟨fun m hm => ?_, ?_⟩
  · obtain ⟨n, hn, hbody⟩ := hfinal.body hm
    exact hbody.valued (hn.modelled.has (describedValues_sound hD hd) fun s hs => hd.uses hs)
  · have hrun : Returns (compileAll config d) fun endpoints => ∀ e ∈ endpoints, e.Valued D :=
      (returns_any _).bind fun _ _ => tableEndpoints_valued hD d.paths _ hd.paths
    exact ((hrun {} trivial).of_ok hfinal.run).2

/-- **A client is read back as it was if and only if none of its defaults is `null`.** -/
theorem compile_reads_back_iff {c : Compilation} (hd : d.Valued Json.Keyed)
    (h : compile config d = .ok c) :
    Interface.ofTree? (Tree.ofJson c.interface.toJson) = some c.interface ↔
      some .null ∉ c.interface.defaults :=
  Interface.ofTree?_toJson_iff.trans (Interface.writable_iff (compile_valued Json.keyed_none hd h))

/-- **Clients are read back as they were, unless a default is `null`.**  The client that is compiled
from a description, whose values have no object with equal keys, is read back if and only if none
of its defaults is `null`.  Every client that is compiled from a description that was read is read
back, and so is every client that was itself read, from whatever it was. -/
theorem interface_reads_back :
    (∀ (config : Config) (d : Document) (c : Compilation), d.Valued Json.Keyed →
      compile config d = .ok c →
        (Interface.ofTree? (Tree.ofJson c.interface.toJson) = some c.interface ↔
          some .null ∉ c.interface.defaults)) ∧
    (∀ (config : Config) (t : Tree) (d : Document) (c : Compilation),
      Document.ofTree? t = some d → compile config d = .ok c →
        Interface.ofTree? (Tree.ofJson c.interface.toJson) = some c.interface) ∧
    ∀ (t : Tree) (i : Interface), Interface.ofTree? t = some i →
      Interface.ofTree? (Tree.ofJson i.toJson) = some i := by
  refine ⟨fun config d c hd hc => compile_reads_back_iff hd hc, fun config t d c ht hc => ?_,
    fun t i hi => ?_⟩
  · exact Interface.ofTree?_toJson
      (compile_valued Json.definite_none (Document.valued_of_ofTree? ht) hc)
  · exact Interface.ofTree?_toJson (Interface.writable_of_ofTree? hi)

end Writing

/-- A description with a default, an enumeration of other values than strings, and a response with
an empty body. -/
def writtenDescription : Tree :=
  .object
    [("components", .object [("schemas", .object
      [("Level", .object
        [("enum", .array [.object [("low", .number (.integer 1))], .array [.null]])]),
       ("Box", .object [("properties", .object [("size", .object
         [("type", .string "integer"), ("default", .number (.integer 3))])])])])]),
     ("paths", .object [("/boxes", .object [("get", .object [("responses", .object
       [("404", .object []),
        ("2xx", .object [("content", .object [("application/json", .object
          [("schema", .object [("$ref", .string "#/components/schemas/Box")])])])])])])])])]

/-- A client whose parts are written in other ways than the one in which they are shown. -/
def writtenClient : Tree :=
  .object
    [("operations", .array []), ("version", .invalid),
     ("models", .array [.array [.string "Box", .null, .null,
       .object [("target", .object [("of", .object [("kind", .string "any")]),
         ("kind", .string "list")]), ("kind", .string "alias")]]])]

/-- The size of a box, which is missing by default: the default is `null`. -/
def missingSize : Schema where
  declaredType := some (.single "integer")
  default := some .null

/-- A box with a size. -/
def sizedBox : Schema where
  declaredType := some (.single "object")
  properties := [("size", missingSize)]

/-- Boxes that have a size. -/
def sizedBoxes : Document where
  components.schemas := [("Box", sizedBox)]

/-- The values in the description of boxes are no objects. -/
theorem sizedBoxes_keyed : sizedBoxes.Valued Json.Keyed := by
  have hsize : missingSize.Valued Json.Keyed :=
    Schema.valued_of_inside ⟨fun v hv => Option.some.inj hv ▸ trivial, nofun, nofun⟩
      fun t ht => by cases ht <;> simp_all [missingSize]
  refine ⟨fun e he => ?_, by simp [sizedBoxes]⟩
  obtain rfl := List.mem_singleton.1 he
  refine Schema.valued_of_inside ⟨Json.keyed_none, nofun, nofun⟩ fun t ht => ?_
  cases ht with
  | property hp =>
    rw [(Prod.mk.inj (List.mem_singleton.1 hp)).2]
    exact hsize
  | _ => simp_all [sizedBox]

/-- The client shows the default of a size. -/
theorem sizedBoxes_default {c : Compilation} (hc : compile {} sizedBoxes = .ok c) :
    some .null ∈ c.interface.defaults := by
  have hrun : (compile {} sizedBoxes).toOption.any (fun c =>
      c.interface.defaults.any fun o => o.any Json.isNull) = true := by
    decide +kernel
  rw [hc, Except.toOption, Option.any_some] at hrun
  obtain ⟨o, ho, hnull⟩ := List.any_eq_true.1 hrun
  obtain ⟨v, rfl, hv⟩ := (Option.any_eq_true _ _).1 hnull
  cases v with
  | null => exact ho
  | _ => cases hv

/-- Clients of boxes are not read back as they were, since a size is `null` by default.  The client
of a description that was read is, and so is a client that was read. -/
theorem interface_reads_back_written :
    (∃ c, sizedBoxes.Valued Json.Keyed ∧ compile {} sizedBoxes = .ok c ∧
      some .null ∈ c.interface.defaults ∧
      Interface.ofTree? (Tree.ofJson c.interface.toJson) ≠ some c.interface) ∧
    (∃ d c, Document.ofTree? writtenDescription = some d ∧ compile {} d = .ok c ∧
      c.interface.endpoints.map (fun e => Table.keys e.responses) = [[.code 404, .range 2]] ∧
      Interface.ofTree? (Tree.ofJson c.interface.toJson) = some c.interface) ∧
    ∃ i, Interface.ofTree? writtenClient = some i ∧ i.modelNames = ["Box"] ∧
      Interface.ofTree? (Tree.ofJson i.toJson) = some i := by
  have hread : (Document.ofTree? writtenDescription).map (fun d => (compile {} d).toOption.map
      fun c => c.interface.endpoints.map fun e => Table.keys e.responses) =
        some (some [[.code 404, .range 2]]) := by decide +kernel
  have hclient : (Interface.ofTree? writtenClient).map Interface.modelNames = some ["Box"] := by
    decide +kernel
  refine ⟨?_, ?_, ?_⟩
  · obtain ⟨c, hc⟩ := compile_eq_ok {} sizedBoxes (by decide +kernel)
    have hnull := sizedBoxes_default hc
    exact ⟨c, sizedBoxes_keyed, hc, hnull, fun h =>
      (interface_reads_back.1 {} sizedBoxes c sizedBoxes_keyed hc).1 h hnull⟩
  · obtain ⟨d, hd, hcompile⟩ := Option.map_eq_some_iff.1 hread
    obtain ⟨c, hc, hkeys⟩ := Option.map_eq_some_iff.1 hcompile
    cases hok : compile {} d with
    | error e => simp [hok, Except.toOption] at hc
    | ok c' =>
      rw [hok, Except.toOption, Option.some.injEq] at hc
      subst hc
      exact ⟨d, c', hd, hok, hkeys, interface_reads_back.2.1 {} _ d c' hd hok⟩
  · obtain ⟨i, hi, hnames⟩ := Option.map_eq_some_iff.1 hclient
    exact ⟨i, hi, hnames, interface_reads_back.2.2 _ i hi⟩

/-- **Not every client that is compiled is read back as it was**: a default that is `null` is taken
for a missing one. -/
theorem sizedBoxes_lose_default : ¬ ∀ (config : Config) (d : Document) (c : Compilation),
    d.Valued Json.Keyed → compile config d = .ok c →
      Interface.ofTree? (Tree.ofJson c.interface.toJson) = some c.interface := by
  intro hread
  obtain ⟨c, hc⟩ := compile_eq_ok {} sizedBoxes (by decide +kernel)
  exact (compile_reads_back_iff sizedBoxes_keyed hc).1 (hread {} sizedBoxes c sizedBoxes_keyed hc)
    (sizedBoxes_default hc)

end ApiBinding
