import ApiBinding.Endpoint.PathTemplate

/-!
# The names in braces

A path is read from left to right, with the group that is open as the state.  If it is well
formed, then what is read is what a reader sees in it: every opening brace starts a name, and
the name ends at the next closing brace.

## Main definitions

* `bracedNames` — the names in braces of a text.
* `PathTemplate.namesOf` — the names in braces of a path.

## Main results

* `PathTemplate.groups_eq` — what is read are the names in braces.
* `PathTemplate.invalid_eq_none_iff`, `PathTemplate.placeholders_eq` — the template of a path.
-/

namespace ApiBinding

/-- The names in braces of a text, from left to right: what stands between an opening brace and
the next closing one. -/
def bracedNames : List Char → List (List Char)
  | [] => []
  | c :: rest =>
    if c = '\x7b' then rest.takeWhile (· ≠ '\x7d') :: bracedNames rest else bracedNames rest

namespace PathTemplate

/-- The names in braces of a path. -/
def namesOf (path : String) : List String := (bracedNames path.toList).map String.ofList

/-- What is read after a group has begun: the rest of its name, and then the names that
follow. -/
theorem groups_eq_aux (text : List Char) :
    (∀ names, groups none text = .ok names → names = bracedNames text) ∧
      ∀ begun names, groups (some begun) text = .ok names →
        names = (begun ++ text.takeWhile (· ≠ '\x7d')) :: bracedNames text := by
  -- Outside of braces and inside of them at once: each half needs the other for the rest.
  induction text with
  | nil =>
    refine ⟨fun names h => ?_, fun begun names h => ?_⟩
    · simpa [groups, bracedNames] using h.symm
    · simp [groups] at h
  | cons c rest ih =>
    obtain ⟨ihout, ihin⟩ := ih
    refine ⟨fun names h => ?_, fun begun names h => ?_⟩
    · rw [groups] at h
      rw [bracedNames]
      split at h
      · rename_i hopen
        rw [if_pos hopen]
        exact ihin [] names h
      · rename_i hopen
        rw [if_neg hopen]
        split at h
        · simp at h
        · exact ihout names h
    · rw [groups] at h
      split at h
      · simp at h
      · rename_i hopen
        rw [bracedNames, if_neg hopen]
        split at h
        · -- The closing brace ends the name.
          rename_i hclose
          cases hmore : groups none rest with
          | error fault => simp [hmore, Except.map] at h
          | ok more =>
            rw [hmore, Except.map, Except.ok.injEq] at h
            rw [← h, ← ihout more hmore, hclose]
            simp
        · rename_i hclose
          rw [ihin _ names h]
          simp [hclose]

/-- **What is read are the names in braces**, if the text is well formed. -/
theorem groups_eq {text : List Char} {names : List (List Char)}
    (h : groups none text = .ok names) : names = bracedNames text :=
  (groups_eq_aux text).1 names h

variable {path : String} {template : PathTemplate}

theorem ofPath_eq (h : ofPath path = .ok template) :
    template = ofGroups (bracedNames path.toList) := by
  unfold ofPath at h
  split at h
  · rename_i rest hpath
    split at h
    · rename_i names hnames
      rw [hpath, ← groups_eq hnames]
      simpa using h.symm
    · simp at h
  · simp at h

theorem isName_iff {name : List Char} : isName name = true ↔ name ≠ [] ∧ '/' ∉ name := by
  simp [isName]

/-- The template has no group that is no placeholder iff all names in braces are filled and
free of slashes. -/
theorem invalid_eq_none_iff (h : ofPath path = .ok template) :
    template.invalid = none ↔ ∀ name ∈ namesOf path, name ≠ "" ∧ '/' ∉ name.toList := by
  rw [ofPath_eq h]
  simp [ofGroups, namesOf, isName_iff]

/-- The placeholders of a template with no other groups are the distinct names in braces. -/
theorem placeholders_eq (h : ofPath path = .ok template) (hvalid : template.invalid = none) :
    template.placeholders = distinct (namesOf path) := by
  rw [ofPath_eq h] at hvalid ⊢
  have hnames : ∀ name ∈ bracedNames path.toList, isName name = true := by
    simpa [ofGroups] using hvalid
  unfold ofGroups namesOf
  rw [List.filter_eq_self.2 hnames]

end PathTemplate

end ApiBinding
