import Mathlib.Data.List.Basic

/-!
# Replacing in texts

Every occurrence of a pattern in a text is replaced, from left to right.  Where two occurrences
overlap, the first one counts, and what was put in is not looked at again.  On the characters of a
text this is one recursion.  The library's own replacement looks for the pattern first and then
puts the pieces together; both come to the same.

## Main definitions

* `replaceAll` — the characters of a text with every occurrence of a pattern replaced.
* `MatchesOnly` — a pattern of the library that stands for one text.

## Main results

* `replaceAll_append`, `replaceAll_skip` — an occurrence is replaced; where none begins, nothing
  changes.
* `exists_of_replaceAll_eq_cons` — a first character that was not put in stood there before.
* `toList_replace` — **the library's replacement of a pattern that stands for one text.**
* `toList_replace_char`, `toList_replace_string` — for a character, and for a text.
-/

namespace ApiBinding

open String String.Slice.Pattern String.Slice.Pattern.Model

/-! ### Characters -/

/-- Every occurrence of a pattern replaced, from left to right.  The pattern is not empty. -/
def replaceAll (pattern replacement : List Char) : List Char → List Char
  | [] => []
  | c :: rest =>
    if pattern <+: c :: rest then
      replacement ++ replaceAll pattern replacement (rest.drop (pattern.length - 1))
    else c :: replaceAll pattern replacement rest
termination_by cs => cs.length
decreasing_by all_goals simp only [List.length_drop, List.length_cons]; omega

section

variable {pattern replacement : List Char}

theorem replaceAll_nil : replaceAll pattern replacement [] = [] := by
  rw [replaceAll]

/-- A pattern that the text begins with is replaced. -/
theorem replaceAll_append (h : pattern ≠ []) (cs : List Char) :
    replaceAll pattern replacement (pattern ++ cs) =
      replacement ++ replaceAll pattern replacement cs := by
  obtain ⟨p, ps, rfl⟩ := List.exists_cons_of_ne_nil h
  have hbegins : p :: ps <+: p :: (ps ++ cs) := List.prefix_append (p :: ps) cs
  rw [List.cons_append, replaceAll, if_pos hbegins]
  simp

theorem replaceAll_cons {c : Char} {cs : List Char} (h : ¬ pattern <+: c :: cs) :
    replaceAll pattern replacement (c :: cs) = c :: replaceAll pattern replacement cs := by
  rw [replaceAll, if_neg h]

/-- As long as the pattern does not begin, nothing changes. -/
theorem replaceAll_skip {front : List Char} (cs : List Char)
    (h : ∀ later, later <:+ front → later ≠ [] → ¬ pattern <+: later ++ cs) :
    replaceAll pattern replacement (front ++ cs) =
      front ++ replaceAll pattern replacement cs := by
  induction front with
  | nil => rfl
  | cons c front ih =>
    have hhead : ¬ pattern <+: c :: (front ++ cs) := h _ List.suffix_rfl (List.cons_ne_nil _ _)
    have htail := ih fun later hlater => h later (hlater.trans (List.suffix_cons c front))
    rw [List.cons_append, replaceAll_cons hhead, htail, List.cons_append]

/-- A first character that the replacement does not begin with stood there before. -/
theorem exists_of_replaceAll_eq_cons {r c : Char} {rs cs tail : List Char} (hc : c ≠ r)
    (h : replaceAll pattern (r :: rs) cs = c :: tail) : ∃ rest, cs = c :: rest := by
  cases cs with
  | nil =>
    rw [replaceAll_nil] at h
    contradiction
  | cons first rest =>
    rw [replaceAll] at h
    split at h
    · exact absurd (List.cons.inj h).1.symm hc
    · exact ⟨rest, by rw [(List.cons.inj h).1]⟩

end

/-! ### The search of the library -/

/-- A pattern matches one text and nothing else, and it does so wherever the text stands. -/
structure MatchesOnly {ρ : Type} (pattern : ρ) [PatternModel pattern] (text : String) : Prop where
  text_of_matches : ∀ {t : String}, PatternModel.Matches pattern t → t = text
  matchesAt : ∀ {s : Slice} {p : s.Pos} {front rest : String},
    p.Splits front (text ++ rest) → MatchesAt pattern p

theorem matchesOnly_char (c : Char) : MatchesOnly c (singleton c) where
  text_of_matches h := h
  matchesAt h := Char.matchesAt_iff_splits.2 ⟨_, _, h⟩

theorem matchesOnly_string (text : String) : MatchesOnly text text where
  text_of_matches h := h
  matchesAt h := ForwardStringSearcher.matchesAt_iff_splits.2 ⟨_, _, h⟩

/-- What is done with one step of a search: a match is replaced, all else is kept. -/
def replaceStep (s : Slice) (replacement done : String) : SearchStep s → String
  | .matched .. => done ++ replacement.toSlice
  | .rejected start stop => done ++ s.slice! start stop

section

variable {ρ : Type} {pattern : ρ} [PatternModel pattern] {text : String}

/-- Where a search found no match, the text does not begin. -/
theorem MatchesOnly.not_begins (hp : MatchesOnly pattern text) {s : Slice} {p q : s.Pos}
    (hfree : ∀ r, p ≤ r → r < q → ¬ MatchesAt pattern r) {before between after : String}
    (hstart : p.Splits before (between ++ after)) (hstop : q.Splits (before ++ between) after)
    {later : List Char} (hlater : later <:+ between.toList) (hne : later ≠ []) :
    ¬ text.toList <+: later ++ after.toList := by
  rintro ⟨tail, htail⟩
  obtain ⟨earlier, hearlier⟩ := hlater
  have hbetween : between = ofList earlier ++ ofList later := by
    rw [← toList_inj]
    simp [hearlier]
  have htext : ofList later ++ after = text ++ ofList tail := by
    rw [← toList_inj]
    simp [htail]
  -- The place inside the piece at which the text would begin.
  obtain ⟨r, hr⟩ : ∃ r : s.Pos, r.Splits (before ++ ofList earlier) (ofList later ++ after) := by
    have hcopy : s.copy = (before ++ ofList earlier) ++ (ofList later ++ after) := by
      rw [hstart.eq_append, hbetween]
      simp only [append_assoc]
    exact ⟨_, Slice.Pos.splits_ofEqAppend hcopy⟩
  have hle : p ≤ r :=
    (hstart.le_iff_exists_eq_append hr).2 ⟨ofList earlier, rfl, by rw [hbetween, append_assoc]⟩
  have hlt : r < q :=
    (hr.lt_iff_exists_eq_append hstop).2
      ⟨ofList later, by simpa using hne, by rw [hbetween, append_assoc], rfl⟩
  rw [htext] at hr
  exact hfree r hle hlt (hp.matchesAt hr)

/-- From any point on, the pieces of a search are put together to the text with every occurrence
replaced. -/
theorem MatchesOnly.foldl_replaceStep (hp : MatchesOnly pattern text) (hne : text ≠ "")
    (replacement : String) {s : Slice} {p : s.Pos} {steps : List (SearchStep s)}
    (h : IsValidSearchFrom pattern p steps) {front rest : String} (hsplits : p.Splits front rest)
    (done : String) :
    (steps.foldl (replaceStep s replacement) done).toList =
      done.toList ++ replaceAll text.toList replacement.toList rest.toList := by
  induction h generalizing front rest done with
  | endPos =>
    have hrest : rest = "" := (Slice.splits_endPos_iff.1 hsplits).2
    simp [hrest, replaceAll_nil]
  | @matched steps p q hmatch _ ih =>
    have htext : (s.slice p q hmatch.le).copy = text := hp.text_of_matches hmatch.matches_slice
    obtain ⟨before, after, hstart, hstop⟩ := Slice.copy_slice_eq_iff_splits.1 ⟨hmatch.le, htext⟩
    have hrest : rest = text ++ after := hsplits.eq_right hstart
    rw [List.foldl_cons, ih hstop, hrest, toList_append, replaceAll_append (by simpa using hne)]
    simp [replaceStep]
  | @mismatched steps p q hlt hfree _ ih =>
    have hle : p ≤ q := Std.le_of_lt hlt
    obtain ⟨before, after, hstart, hstop⟩ := Slice.copy_slice_eq_iff_splits.1 ⟨hle, rfl⟩
    have hrest : rest = (s.slice p q hle).copy ++ after := hsplits.eq_right hstart
    rw [List.foldl_cons, ih hstop, hrest, toList_append,
      replaceAll_skip _ fun later => hp.not_begins hfree hstart hstop]
    simp [replaceStep, ← Slice.slice_eq_slice! (h := hle)]

/-- **The library replaces every occurrence of a pattern that stands for one text.** -/
theorem toList_replace {σ : Slice → Type} [ToForwardSearcher pattern σ]
    [∀ s, Std.Iterator (σ s) Id (SearchStep s)] [∀ s, Std.Iterators.Finite (σ s) Id]
    [∀ s, Std.IteratorLoop (σ s) Id Id] [∀ s, Std.LawfulIteratorLoop (σ s) Id Id]
    [LawfulToForwardSearcherModel pattern] (hp : MatchesOnly pattern text) (hne : text ≠ "")
    (s replacement : String) :
    (s.replace pattern replacement).toList =
      replaceAll text.toList replacement.toList s.toList := by
  have hvalid : IsValidSearchFrom pattern s.toSlice.startPos
      (ToForwardSearcher.toSearcher pattern s.toSlice).toList :=
    LawfulToForwardSearcherModel.isValidSearchFrom_toList s.toSlice
  have hfold := hp.foldl_replaceStep hne replacement hvalid (Slice.splits_startPos _) ""
  have hreplace : s.replace pattern replacement =
      (ToForwardSearcher.toSearcher pattern s.toSlice).toList.foldl
        (replaceStep s.toSlice replacement) "" := by
    unfold String.replace Slice.replace
    rw [← Std.Iter.foldl_toList]
    congr
    funext done step
    cases step <;> rfl
  rw [hreplace, hfold]
  simp

end

theorem toList_replace_char (c : Char) (s replacement : String) :
    (s.replace c replacement).toList = replaceAll [c] replacement.toList s.toList := by
  have h : (s.replace c replacement).toList =
      replaceAll (singleton c).toList replacement.toList s.toList :=
    toList_replace (matchesOnly_char c) (by simp) s replacement
  simpa using h

theorem toList_replace_string {pattern : String} (h : pattern ≠ "") (s replacement : String) :
    (s.replace pattern replacement).toList =
      replaceAll pattern.toList replacement.toList s.toList :=
  have := ForwardStringSearcher.lawfulToForwardSearcherModel h
  toList_replace (matchesOnly_string pattern) h s replacement

end ApiBinding
