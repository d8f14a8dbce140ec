import ApiBinding.Proofs.Document.Addresses
import ApiBinding.Proofs.Text.Replacing

/-!
# Pointers to components

A token is escaped by two replacements, of the tildes and then of the slashes, and it is read by
two replacements that take them back.  Of each pair, the first puts in nothing that the second
looks for, so that both together come to one pass over the token.  Reading undoes escaping for
every token, and the pointer to a component tells its name, whatever tildes and slashes the name
has.

## Main results

* `Pointer.escapeChars_eq_replaceAll`, `Pointer.unescapeChars_eq_replaceAll` — one pass and two.
* `Pointer.unescape_escape`, `Pointer.slash_notMem_escape` — escaping is undone and leaves no
  slash.
* `Pointer.component_injective` — components of different names have different pointers.
* `Pointer.componentName?_component` — which names are read from the pointers to components.
* `Document.target_component` — what the pointer to a component addresses.
* `Document.pointers_lossless` — **pointers to components lose nothing.**
-/

namespace ApiBinding

namespace Pointer

/-! ### Two passes -/

/-- Escaping replaces the tildes first and then the slashes. -/
theorem escapeChars_eq_replaceAll (cs : List Char) :
    escapeChars cs = replaceAll ['/'] ['~', '1'] (replaceAll ['~'] ['~', '0'] cs) := by
  induction cs using escapeChars.induct with
  | case1 => simp [escapeChars, replaceAll]
  | case2 rest ih => simp [escapeChars, replaceAll, ih]
  | case3 rest ih => simp [escapeChars, replaceAll, ih]
  | case4 c rest htilde hslash ih =>
    rw [escapeChars, ih]
    · simp [replaceAll, Ne.symm htilde, Ne.symm hslash]
    · exact htilde
    · exact hslash

/-- Reading replaces the escaped slashes first and then the escaped tildes. -/
theorem unescapeChars_eq_replaceAll (cs : List Char) :
    unescapeChars cs = replaceAll ['~', '0'] ['~'] (replaceAll ['~', '1'] ['/'] cs) := by
  induction cs using unescapeChars.induct with
  | case1 => simp [unescapeChars, replaceAll]
  | case2 rest ih => simp [unescapeChars, replaceAll, ih]
  | case3 rest ih => simp [unescapeChars, replaceAll, ih]
  | case4 c rest hzero hone ih =>
    have hslash : ¬ ['~', '1'] <+: c :: rest := by
      rintro ⟨tail, htail⟩
      obtain ⟨hc, hrest⟩ := List.cons.inj htail
      exact hone tail hc.symm hrest.symm
    -- A zero behind the tilde was there before the slashes were put in.
    have htilde : ¬ ['~', '0'] <+: c :: replaceAll ['~', '1'] ['/'] rest := by
      rintro ⟨tail, htail⟩
      obtain ⟨hc, hrest⟩ := List.cons.inj htail
      obtain ⟨behind, hbehind⟩ := exists_of_replaceAll_eq_cons (by decide) hrest.symm
      exact hzero behind hc.symm hbehind
    rw [unescapeChars, replaceAll_cons hslash, replaceAll_cons htilde, ih]
    · exact hzero
    · exact hone

/-- The other order of reading would make a slash of a tilde and a one. -/
example :
    replaceAll ['~', '1'] ['/'] (replaceAll ['~', '0'] ['~'] (escapeChars ['~', '1'])) = ['/'] := by
  cbv

theorem escape_eq_replace (token : String) :
    escape token = (token.replace '~' "~0").replace '/' "~1" := by
  rw [← String.toList_inj, toList_replace_char, toList_replace_char, escape,
    String.toList_ofList, escapeChars_eq_replaceAll]
  rfl

theorem unescape_eq_replace (part : String) :
    unescape part = (part.replace "~1" "/").replace "~0" "~" := by
  rw [← String.toList_inj, toList_replace_string (by decide), toList_replace_string (by decide),
    unescape, String.toList_ofList, unescapeChars_eq_replaceAll]
  rfl

/-! ### Escaping and reading -/

theorem unescape_escape (token : String) : unescape (escape token) = token := by
  simp [unescape, escape, unescapeChars_escapeChars]

theorem slash_notMem_escape (token : String) : '/' ∉ (escape token).toList := by
  simpa [escape] using slash_notMem_escapeChars token.toList

theorem escapeChars_eq_nil_iff {cs : List Char} : escapeChars cs = [] ↔ cs = [] := by
  constructor
  · intro h
    rw [← unescapeChars_escapeChars cs, h, unescapeChars]
  · rintro rfl
    rfl

/-! ### Components -/

theorem component_injective : Function.Injective component := by
  intro name name' h
  have hescaped : escape name = escape name' := by simpa [component] using h
  exact escape_injective hescaped

/-- The name of a component is read from its pointer, unless it is empty. -/
theorem componentName?_component (name : String) :
    componentName? (component name) = if name = "" then none else some name := by
  have hslash := slash_notMem_escapeChars name.toList
  simp [componentName?, afterRoot?_component, unescapeChars_escapeChars, hslash,
    escapeChars_eq_nil_iff]

end Pointer

namespace Document

variable {d : Document}

/-- The pointer to a component addresses the component as a whole, or nothing. -/
theorem target_component (name location : String) :
    d.target (Pointer.component name) location =
      match d.schema? name with
      | some s => .ok ⟨name, [], s⟩
      | none => .error (.brokenReference (Pointer.component name) location) := by
  have htokens : Pointer.tokens? (Pointer.component name) = some (name, []) :=
    Pointer.whole_component name
  unfold target
  rw [htokens]
  cases hs : d.schema? name <;> simp [hs, Schema.at?]

/-- **Pointers to components lose nothing.**  Escaping, the replacement of tildes and then of
slashes, is undone by reading and leaves no slash; so the pointer to a component addresses the
schema of that component as a whole, differs from the pointers to all other components, and tells
the name of the component if there is one to tell. -/
theorem pointers_lossless (d : Document) :
    (∀ token : String,
      Pointer.escape token = (token.replace '~' "~0").replace '/' "~1" ∧
      Pointer.unescape token = (token.replace "~1" "/").replace "~0" "~" ∧
      Pointer.unescape (Pointer.escape token) = token ∧
      '/' ∉ (Pointer.escape token).toList) ∧
    (∀ name ∈ d.componentNames, ∃ s, d.schema? name = some s ∧
      ∀ location, d.target (Pointer.component name) location = .ok ⟨name, [], s⟩) ∧
    (∀ name name' : String, name ≠ name' → Pointer.component name ≠ Pointer.component name') ∧
    (∀ name : String, name ≠ "" →
      Pointer.componentName? (Pointer.component name) = some name) := by
  refine ⟨fun token => ?_, fun name hname => ?_, fun name name' hne => ?_, fun name hne => ?_⟩
  · exact ⟨Pointer.escape_eq_replace token, Pointer.unescape_eq_replace token,
      Pointer.unescape_escape token, Pointer.slash_notMem_escape token⟩
  · obtain ⟨s, hs⟩ := schema?_of_mem hname
    exact ⟨s, hs, fun location => by rw [target_component, hs]⟩
  · exact fun h => hne (Pointer.component_injective h)
  · rw [Pointer.componentName?_component, if_neg hne]

/-- Components whose names are easily taken for one another. -/
def crossroads : Document where
  components.schemas :=
    [("", { title := some "nothing" }), ("/", { title := some "slash" }),
      ("~1", { title := some "escaped slash" }), ("~01", { title := some "escaped twice" })]

theorem pointers_lossless_crossroads :
    "~01" ∈ crossroads.componentNames ∧
    Pointer.component "~01" = "#/components/schemas/~001" ∧
    (∃ s, crossroads.schema? "~01" = some s ∧ s.title = some "escaped twice" ∧
      crossroads.target "#/components/schemas/~001" "#" = .ok ⟨"~01", [], s⟩) ∧
    Pointer.component "~1" ≠ Pointer.component "/" ∧
    Pointer.componentName? (Pointer.component "~01") = some "~01" := by
  obtain ⟨-, haddressed, hdistinct, hname⟩ := pointers_lossless crossroads
  have hmem : "~01" ∈ crossroads.componentNames := by decide
  have hpointer : Pointer.component "~01" = "#/components/schemas/~001" := by decide +kernel
  obtain ⟨s, hs, htarget⟩ := haddressed "~01" hmem
  refine ⟨hmem, hpointer, ⟨s, hs, ?_, hpointer ▸ htarget "#"⟩, hdistinct _ _ (by decide),
    hname _ (by decide)⟩
  obtain rfl : { title := some "escaped twice" } = s := Option.some.inj hs
  rfl

end Document

end ApiBinding
