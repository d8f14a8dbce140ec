import ApiBinding.Proofs.Endpoint.Templates
import ApiBinding.Proofs.Tables

/-!
# The grammar of path templates

A path template is a sequence of parts: text without braces, and names in braces.  A text that is
no such sequence breaks off at one of its braces, or at its end: behind some parts stands a closing
brace, or a group that is open meets a second opening brace or the end.  One of the two is the case
for every text, and the reader, which goes through the characters one by one, answers accordingly.

## Main definitions

* `PathTemplate.Part`, `PathTemplate.Consists` — the parts of a template.
* `PathTemplate.Breaks` — how a text is no sequence of parts.
* `PathTemplate.Describes` — what a template says about the names in braces.

## Main results

* `PathTemplate.consists_or_breaks` — every text consists of parts or breaks.
* `PathTemplate.groups_eq_ok_iff`, `PathTemplate.groups_eq_error_iff` — the reader and the grammar.
* `PathTemplate.ofPath_eq_error_iff` — which fault is reported.
* `PathTemplate.ofPath_grammar` — **which paths are templates, and what is read from them.**
-/

namespace ApiBinding

namespace PathTemplate

/-! ### Parts -/

/-- No brace occurs in the text. -/
def BraceFree (text : List Char) : Prop := '\x7b' ∉ text ∧ '\x7d' ∉ text

instance (text : List Char) : Decidable (BraceFree text) :=
  inferInstanceAs (Decidable (_ ∧ _))

/-- A part of a template. -/
inductive Part where
  /-- Text outside of braces. -/
  | literal (text : List Char)
  /-- A name in braces. -/
  | group (name : List Char)

namespace Part

/-- The part as it is written. -/
def chars : Part → List Char
  | .literal text => text
  | .group name => '\x7b' :: name ++ ['\x7d']

/-- What is written in the part, without the braces of a group. -/
def inner : Part → List Char
  | .literal text => text
  | .group name => name

/-- The name of a group. -/
def name? : Part → Option (List Char)
  | .literal _ => none
  | .group name => some name

end Part

/-- The text consists of the parts, one after the other, and there are no further braces. -/
structure Consists (text : List Char) (parts : List Part) : Prop where
  eq : text = parts.flatMap Part.chars
  free : ∀ part ∈ parts, BraceFree part.inner

/-- The names of the groups, from left to right. -/
def groupNames (parts : List Part) : List (List Char) := parts.filterMap Part.name?

/-- The text is no sequence of parts: behind some parts, a brace does not fit, or the text ends too
early. -/
inductive Breaks : PathFault → List Char → Prop where
  | nested {text name : List Char} {parts : List Part} (rest : List Char)
      (htext : Consists text parts) (hname : BraceFree name) :
      Breaks .nestedBrace (text ++ '\x7b' :: name ++ '\x7b' :: rest)
  | unmatched {text : List Char} {parts : List Part} (rest : List Char)
      (htext : Consists text parts) : Breaks .unmatchedBrace (text ++ '\x7d' :: rest)
  | unclosed {text name : List Char} {parts : List Part}
      (htext : Consists text parts) (hname : BraceFree name) :
      Breaks .unclosedBrace (text ++ '\x7b' :: name)

theorem consists_literal {text : List Char} (h : BraceFree text) :
    Consists text [.literal text] := by
  refine ⟨by simp [Part.chars], fun part hpart => ?_⟩
  exact List.mem_singleton.1 hpart ▸ h

theorem consists_group {name : List Char} (h : BraceFree name) :
    Consists ('\x7b' :: name ++ ['\x7d']) [.group name] := by
  refine ⟨by simp [Part.chars], fun part hpart => ?_⟩
  exact List.mem_singleton.1 hpart ▸ h

theorem Consists.append {text more : List Char} {parts others : List Part}
    (h : Consists text parts) (hmore : Consists more others) :
    Consists (text ++ more) (parts ++ others) := by
  refine ⟨by rw [h.eq, hmore.eq, List.flatMap_append], fun part hpart => ?_⟩
  rcases List.mem_append.1 hpart with hpart | hpart
  · exact h.free part hpart
  · exact hmore.free part hpart

/-- A text that breaks, breaks behind further parts too. -/
theorem Breaks.append {fault : PathFault} {text more : List Char} {parts : List Part}
    (h : Consists text parts) (hmore : Breaks fault more) : Breaks fault (text ++ more) := by
  cases hmore with
  | nested rest htext hname =>
    have hbreaks := Breaks.nested rest (h.append htext) hname
    simpa using hbreaks
  | unmatched rest htext =>
    have hbreaks := Breaks.unmatched rest (h.append htext)
    simpa using hbreaks
  | unclosed htext hname =>
    have hbreaks := Breaks.unclosed (h.append htext) hname
    simpa using hbreaks

/-- A text is free of braces, or it can be split at its first brace. -/
theorem split_at_brace (text : List Char) : BraceFree text ∨
    ∃ front brace rest, BraceFree front ∧ (brace = '\x7b' ∨ brace = '\x7d') ∧
      text = front ++ brace :: rest := by
  induction text with
  | nil => exact .inl ⟨by simp, by simp⟩
  | cons c rest ih =>
    by_cases hc : c = '\x7b' ∨ c = '\x7d'
    · exact .inr ⟨[], c, rest, ⟨by simp, by simp⟩, hc, rfl⟩
    · rw [not_or] at hc
      have hcons : ∀ {front : List Char}, BraceFree front → BraceFree (c :: front) := by
        rintro front ⟨hopen, hclose⟩
        exact ⟨by simp [Ne.symm hc.1, hopen], by simp [Ne.symm hc.2, hclose]⟩
      rcases ih with hfree | ⟨front, brace, tail, hfree, hbrace, rfl⟩
      · exact .inl (hcons hfree)
      · exact .inr ⟨c :: front, brace, tail, hcons hfree, hbrace, rfl⟩

/-- **Every text consists of parts, or it breaks.** -/
theorem consists_or_breaks (text : List Char) :
    (∃ parts, Consists text parts) ∨ ∃ fault, Breaks fault text := by
  -- By the length of the text: what stands behind the first group is shorter.
  induction hlength : text.length using Nat.strongRecOn generalizing text with
  | ind n ih =>
    rcases split_at_brace text with hfree | ⟨front, brace, rest, hfront, rfl | rfl, rfl⟩
    · exact .inl ⟨_, consists_literal hfree⟩
    · rcases split_at_brace rest with hname | ⟨name, brace, tail, hname, rfl | rfl, rfl⟩
      · exact .inr ⟨_, .unclosed (consists_literal hfront) hname⟩
      · have hbreaks := Breaks.nested tail (consists_literal hfront) hname
        exact .inr ⟨_, by simpa using hbreaks⟩
      · have hparts := (consists_literal hfront).append (consists_group hname)
        have htext : front ++ '\x7b' :: (name ++ '\x7d' :: tail) =
            front ++ ('\x7b' :: name ++ ['\x7d']) ++ tail := by simp
        have hshorter : tail.length < n := by
          rw [← hlength]
          simp only [List.length_append, List.length_cons]
          omega
        rw [htext]
        rcases ih _ hshorter tail rfl with ⟨parts, htail⟩ | ⟨fault, htail⟩
        · exact .inl ⟨_, hparts.append htail⟩
        · exact .inr ⟨fault, htail.append hparts⟩
    · exact .inr ⟨_, .unmatched rest (consists_literal hfront)⟩

/-! ### The reader -/

theorem groups_literal {text : List Char} (h : BraceFree text) (rest : List Char) :
    groups none (text ++ rest) = groups none rest := by
  induction text with
  | nil => rfl
  | cons c text ih =>
    simp only [BraceFree, List.mem_cons, not_or] at h
    rw [List.cons_append, groups, if_neg (Ne.symm h.1.1), if_neg (Ne.symm h.2.1)]
    exact ih ⟨h.1.2, h.2.2⟩

theorem groups_name {name : List Char} (h : BraceFree name) (begun rest : List Char) :
    groups (some begun) (name ++ rest) = groups (some (begun ++ name)) rest := by
  induction name generalizing begun with
  | nil => simp
  | cons c name ih =>
    simp only [BraceFree, List.mem_cons, not_or] at h
    rw [List.cons_append, groups, if_neg (Ne.symm h.1.1), if_neg (Ne.symm h.2.1),
      ih ⟨h.1.2, h.2.2⟩, List.append_assoc]
    rfl

/-- A part is read as its name, if it has one. -/
theorem groups_part {part : Part} (h : BraceFree part.inner) (rest : List Char) :
    groups none (part.chars ++ rest) = (groups none rest).map (part.name?.toList ++ ·) := by
  cases part with
  | literal text =>
    have hliteral : groups none (text ++ rest) = groups none rest := groups_literal h rest
    rw [Part.chars, hliteral]
    cases groups none rest <;> rfl
  | group name =>
    have hname := groups_name h [] ('\x7d' :: rest)
    rw [Part.inner, List.nil_append] at hname
    have htext : Part.chars (.group name) ++ rest = '\x7b' :: (name ++ '\x7d' :: rest) := by
      simp [Part.chars]
    rw [htext, groups, if_pos rfl, hname, groups, if_neg (by decide), if_pos rfl]
    rfl

/-- **Parts are read as the names of their groups**, whatever follows. -/
theorem groups_consists {text : List Char} {parts : List Part} (h : Consists text parts)
    (rest : List Char) :
    groups none (text ++ rest) = (groups none rest).map (groupNames parts ++ ·) := by
  obtain ⟨rfl, hfree⟩ := h
  induction parts with
  | nil =>
    rw [List.flatMap_nil, List.nil_append]
    cases groups none rest <;> rfl
  | cons part parts ih =>
    rw [List.flatMap_cons, List.append_assoc, groups_part (hfree part (.head _)),
      ih fun other hother => hfree other (.tail _ hother)]
    cases groups none rest with
    | error fault => rfl
    | ok names =>
      cases part <;> rfl

theorem groups_of_breaks {text : List Char} {fault : PathFault} (h : Breaks fault text) :
    groups none text = .error fault := by
  cases h with
  | @nested text name parts rest htext hname =>
    rw [List.append_assoc, groups_consists htext, List.cons_append, groups, if_pos rfl,
      groups_name hname, groups, if_pos rfl]
    rfl
  | unmatched rest htext =>
    rw [groups_consists htext, groups, if_neg (by decide), if_pos rfl]
    rfl
  | @unclosed text name parts htext hname =>
    have hopen := groups_name hname [] []
    rw [List.append_nil] at hopen
    rw [groups_consists htext, groups, if_pos rfl, hopen, groups]
    rfl

/-- **What is read are the names of the groups**, and this is so for the texts that consist of
parts only. -/
theorem groups_eq_ok_iff {text : List Char} {names : List (List Char)} :
    groups none text = .ok names ↔ ∃ parts, Consists text parts ∧ names = groupNames parts := by
  have hread : ∀ {parts}, Consists text parts → groups none text = .ok (groupNames parts) := by
    intro parts hparts
    have h := groups_consists hparts []
    rw [List.append_nil] at h
    simpa [groups, Except.map] using h
  constructor
  · intro h
    rcases consists_or_breaks text with ⟨parts, hparts⟩ | ⟨fault, hbreaks⟩
    · rw [hread hparts, Except.ok.injEq] at h
      exact ⟨parts, hparts, h.symm⟩
    · simp [groups_of_breaks hbreaks] at h
  · rintro ⟨parts, hparts, rfl⟩
    exact hread hparts

/-- **The fault that is found is the one by which the text breaks.** -/
theorem groups_eq_error_iff {text : List Char} {fault : PathFault} :
    groups none text = .error fault ↔ Breaks fault text := by
  constructor
  · intro h
    rcases consists_or_breaks text with ⟨parts, hparts⟩ | ⟨fault', hbreaks⟩
    · simp [groups_eq_ok_iff.2 ⟨parts, hparts, rfl⟩] at h
    · rw [groups_of_breaks hbreaks, Except.error.injEq] at h
      exact h ▸ hbreaks
  · exact groups_of_breaks

/-! ### The template of a path -/

/-- A name that can be a placeholder: it is not empty, and no slash occurs in it. -/
def ProperName (name : String) : Prop := name ≠ "" ∧ '/' ∉ name.toList

instance (name : String) : Decidable (ProperName name) :=
  inferInstanceAs (Decidable (_ ∧ _))

/-- What a template says about the names in braces: which of them can be placeholders, each of them
once in order of first occurrence; and the first one that cannot, in its braces. -/
structure Describes (template : PathTemplate) (names : List String) : Prop where
  placeholders : FirstOccurrences (names.filter (ProperName ·)) template.placeholders
  invalid_none : template.invalid = none ↔ ∀ name ∈ names, ProperName name
  invalid_some : ∀ shown, template.invalid = some shown ↔
    ∃ before name after, names = before ++ name :: after ∧ (∀ other ∈ before, ProperName other) ∧
      ¬ ProperName name ∧ shown = "\x7b" ++ name ++ "\x7d"

theorem properName_ofList {name : List Char} :
    ProperName (String.ofList name) ↔ isName name = true := by
  rw [isName_iff, ProperName, String.toList_ofList, ne_eq, ne_eq, String.ofList_eq_empty_iff]

theorem ofGroups_describes (names : List (List Char)) :
    (ofGroups names).Describes (names.map String.ofList) := by
  have hplaceholders : (ofGroups names).placeholders =
      distinct ((names.map String.ofList).filter (ProperName ·)) := by
    have hproper : (fun name => decide (ProperName name)) ∘ String.ofList = isName := by
      funext name
      simp [properName_ofList]
    rw [List.filter_map, hproper]
    rfl
  have hinvalid : (ofGroups names).invalid =
      ((names.map String.ofList).find? fun name => ¬ ProperName name).map
        fun name => "\x7b" ++ name ++ "\x7d" := by
    have hproper : (fun name => decide (¬ ProperName name)) ∘ String.ofList =
        fun name => !isName name := by
      funext name
      simp [properName_ofList]
    have hshown : (fun name => "\x7b" ++ name ++ "\x7d") ∘ String.ofList =
        fun name => String.ofList ('\x7b' :: name ++ ['\x7d']) := by
      funext name
      apply String.toList_injective
      simp
    rw [List.find?_map, hproper, Option.map_map, hshown]
    rfl
  refine ⟨hplaceholders ▸ firstOccurrences_distinct _, ?_, fun shown => ?_⟩
  · rw [hinvalid, Option.map_eq_none_iff, List.find?_eq_none]
    simp
  · rw [hinvalid, Option.map_eq_some_iff]
    constructor
    · rintro ⟨name, hname, rfl⟩
      obtain ⟨hnot, before, after, hnames, hbefore⟩ := List.find?_eq_some_iff_append.1 hname
      exact ⟨before, name, after, hnames, by simpa using hbefore, by simpa using hnot, rfl⟩
    · rintro ⟨before, name, after, hnames, hbefore, hnot, rfl⟩
      refine ⟨name, List.find?_eq_some_iff_append.2 ⟨?_, before, after, hnames, ?_⟩, rfl⟩
      · simpa using hnot
      · simpa using hbefore

variable {path : String} {template : PathTemplate}

/-- The template of a path, from what is read. -/
theorem ofPath_eq_ite (path : String) : ofPath path =
    if path.toList.head? = some '/' then
      match groups none path.toList with
      | .ok names => .ok (ofGroups names)
      | .error fault => .error (.malformedPath path fault)
    else .error (.malformedPath path .noLeadingSlash) := by
  unfold ofPath
  split
  · rename_i rest hpath
    have hhead : path.toList.head? = some '/' := by simp [hpath]
    rw [if_pos hhead]
    cases hgroups : groups none ('/' :: rest) <;> simp only [hpath, hgroups]
  · rename_i hother
    refine (if_neg fun h => ?_).symm
    obtain ⟨rest, hpath⟩ := List.head?_eq_some_iff.1 h
    exact hother rest hpath

theorem ofPath_eq_ok_iff : ofPath path = .ok template ↔
    path.toList.head? = some '/' ∧
      ∃ parts, Consists path.toList parts ∧ template = ofGroups (groupNames parts) := by
  rw [ofPath_eq_ite]
  by_cases hslash : path.toList.head? = some '/'
  · rw [if_pos hslash]
    cases hread : groups none path.toList with
    | ok names =>
      obtain ⟨parts, hparts, rfl⟩ := groups_eq_ok_iff.1 hread
      constructor
      · intro h
        exact ⟨hslash, parts, hparts, (Except.ok.inj h).symm⟩
      · rintro ⟨-, others, hothers, rfl⟩
        have hsame := groups_eq_ok_iff.2 ⟨others, hothers, rfl⟩
        rw [hread, Except.ok.injEq] at hsame
        rw [hsame]
    | error fault =>
      constructor
      · intro h
        simp at h
      · rintro ⟨-, parts, hparts, -⟩
        simp [groups_eq_ok_iff.2 ⟨parts, hparts, rfl⟩] at hread
  · simp [hslash]

/-- **The fault of a path that is no template**: it does not begin with a slash, or it breaks. -/
theorem ofPath_eq_error_iff {cause : CompileError} : ofPath path = .error cause ↔
    ∃ fault, cause = .malformedPath path fault ∧
      (path.toList.head? ≠ some '/' ∧ fault = .noLeadingSlash ∨
        path.toList.head? = some '/' ∧ Breaks fault path.toList) := by
  rw [ofPath_eq_ite]
  by_cases hslash : path.toList.head? = some '/'
  · rw [if_pos hslash]
    simp only [← groups_eq_error_iff]
    cases hread : groups none path.toList with
    | ok names => simp [hslash]
    | error fault => simp [hslash, eq_comm]
  · simp [hslash, eq_comm]

/-- **The grammar of path templates.**  A path is a template iff it begins with a slash and consists
of text without braces and of names in braces; then its placeholders are the proper names among
them, and the first other name is reported. -/
theorem ofPath_grammar (path : String) :
    ((∃ template, ofPath path = .ok template) ↔
        path.toList.head? = some '/' ∧ ∃ parts, Consists path.toList parts) ∧
      ∀ template parts, ofPath path = .ok template → Consists path.toList parts →
        template.Describes ((groupNames parts).map String.ofList) := by
  refine ⟨?_, fun template parts h hparts => ?_⟩
  · constructor
    · rintro ⟨template, h⟩
      obtain ⟨hslash, parts, hparts, -⟩ := ofPath_eq_ok_iff.1 h
      exact ⟨hslash, parts, hparts⟩
    · rintro ⟨hslash, parts, hparts⟩
      exact ⟨_, ofPath_eq_ok_iff.2 ⟨hslash, parts, hparts, rfl⟩⟩
  · obtain ⟨hslash, -⟩ := ofPath_eq_ok_iff.1 h
    -- The parts are not unique, but what is read from them is.
    have hsame := ofPath_eq_ok_iff.2 ⟨hslash, parts, hparts, rfl⟩
    rw [h, Except.ok.injEq] at hsame
    exact hsame ▸ ofGroups_describes _

/-- The parts of a path to the toys of a pet, with a repeated name, groups side by side, and two
groups whose names are not proper. -/
def toyParts : List Part :=
  [.literal "/".toList, .group "pet".toList, .literal "/toys".toList, .group "toy".toList,
    .group "pet".toList, .group "a/b".toList, .literal "/".toList, .group [],
    .group "size".toList]

/-- The parts, written out. -/
def toyPath : String :=
  "/\x7bpet\x7d/toys\x7btoy\x7d\x7bpet\x7d\x7ba/b\x7d/\x7b\x7d\x7bsize\x7d"

/-- Three placeholders, and the first of the other groups. -/
theorem ofPath_grammar_toys : ∃ template,
    ofPath toyPath = .ok template ∧ Consists toyPath.toList toyParts ∧
      template.placeholders = ["pet", "toy", "size"] ∧
      template.invalid = some "\x7ba/b\x7d" ∧
      template.Describes ((groupNames toyParts).map String.ofList) := by
  have hread : ofPath toyPath = .ok ⟨["pet", "toy", "size"], some "\x7ba/b\x7d"⟩ := by
    cbv
  have hparts : Consists toyPath.toList toyParts := ⟨by decide +kernel, by decide +kernel⟩
  exact ⟨_, hread, hparts, rfl, rfl, (ofPath_grammar toyPath).2 _ _ hread hparts⟩

end PathTemplate

end ApiBinding
