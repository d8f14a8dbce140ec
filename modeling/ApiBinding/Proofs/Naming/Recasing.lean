import ApiBinding.Proofs.Naming.Identifiers

/-!
# Names that are recased again

A name in small letters is made once more from the name itself.  What was put into the name when it
was made, underscores between the words, before a leading digit and behind a reserved word, is
taken for breaks between words and is lost; and since a small word is not cut, the words that are
left are the words that the name was made from.  So all that was put into the name is put into it
again, at the same places.

## Main definitions

* `SmallWord` — words of small letters and digits, which are not cut.
* `snakeWords` — the words of a name in small letters, by its raw name.

## Main results

* `textWords_intercalate` — small words that are joined by underscores are found again.
* `textWords_identifierOf` — the words of a name are the words that it was made from.
* `identifierOf_idempotent` — **a name in small letters is its own name.**
-/

namespace ApiBinding

/-! ### Characters -/

theorem isAlphanumeric_of_isAlphanum {c : Char} (h : c.isAlphanum) : isAlphanumeric c := by
  rwa [isAlphanumeric_of_ascii (toNat_lt_of_isAlphanum h)]

theorem isAlphanumeric_underscore : isAlphanumeric '_' = false := by decide +kernel

/-- The small letter of a letter is no capital. -/
theorem isUpper_toLower {c : Char} (h : c.isAlphanum) : c.toLower.isUpper = false :=
  forall_ascii (P := fun c => c.isAlphanum → c.toLower.isUpper = false) (by decide +kernel)
    (toNat_lt_of_isAlphanum h) h

theorem toLower_of_not_isUpper {c : Char} (h : c.isAlphanum) (hsmall : c.isUpper = false) :
    c.toLower = c :=
  forall_ascii (P := fun c => c.isAlphanum → c.isUpper = false → c.toLower = c) (by decide +kernel)
    (toNat_lt_of_isAlphanum h) h hsmall

/-! ### Small words -/

/-- A word of small letters and digits. -/
structure SmallWord (w : List Char) : Prop where
  ne_nil : w ≠ []
  alphanum : ∀ c ∈ w, c.isAlphanum
  small : ∀ c ∈ w, c.isUpper = false

/-- In a word of ASCII letters and digits, each letter becomes small. -/
theorem lowerWord_eq_map {w : List Char} (h : ∀ c ∈ w, c.isAlphanum) :
    lowerWord w = w.map Char.toLower := by
  fun_induction lowerWord w with
  | case1 => rfl
  | case2 => exact absurd (h 'Σ' (.head _)) (by decide)
  | case3 c rest hsigma ih =>
    have hascii := toNat_lt_of_isAlphanum (h c (.head _))
    rw [toLowercase_of_ascii hascii, ih fun x hx => h x (.tail _ hx)]
    rfl

theorem smallWord_lowerWord {w : List Char} (hne : w ≠ []) (h : ∀ c ∈ w, c.isAlphanum) :
    SmallWord (lowerWord w) := by
  refine ⟨?_, lowerWord_alphanum h, ?_⟩
  · rw [lowerWord_eq_map h]
    simpa using hne
  · intro c hc
    rw [lowerWord_eq_map h] at hc
    obtain ⟨x, hx, rfl⟩ := List.mem_map.1 hc
    exact isUpper_toLower (h x hx)

namespace SmallWord

variable {w : List Char}

/-- A small word is small already. -/
theorem lowerWord_eq (h : SmallWord w) : lowerWord w = w := by
  have hsame : ∀ c ∈ w, c.toLower = c := fun c hc =>
    toLower_of_not_isUpper (h.alphanum c hc) (h.small c hc)
  rw [lowerWord_eq_map h.alphanum, List.map_congr_left hsame, List.map_id']

theorem isUppercase_eq (h : SmallWord w) : ∀ c ∈ w, isUppercase c = false := by
  intro c hc
  rw [isUppercase_of_ascii (toNat_lt_of_isAlphanum (h.alphanum c hc))]
  exact h.small c hc

end SmallWord

/-! ### Cutting -/

/-- No word is cut where no capital is. -/
theorem scanWords_of_small {mode : WordMode} {word cs : List Char}
    (h : ∀ c ∈ cs, isUppercase c = false) : scanWords mode word cs = [word ++ cs] := by
  fun_induction scanWords mode word cs with
  | case1 => simp
  | case2 => rfl
  | case3 mode word c next rest hbreak ih =>
    simp [h next (.tail _ (.head _))] at hbreak
  | case4 mode word c next rest hbreak hlast ih =>
    simp [h c (.head _)] at hlast
  | case5 mode word c next rest hbreak hlast ih =>
    rw [ih fun x hx => h x (.tail _ hx), List.append_assoc]
    rfl

/-- No word is empty: a word begins with a character, and a mode is one of a character read. -/
theorem ne_nil_of_mem_scanWords {mode : WordMode} {word cs w : List Char}
    (hword : cs = [] → word ≠ []) (hmode : mode ≠ .boundary → word ≠ []) :
    w ∈ scanWords mode word cs → w ≠ [] := by
  fun_induction scanWords mode word cs with
  | case1 mode word =>
    intro hw
    exact List.mem_singleton.1 hw ▸ hword rfl
  | case2 mode word c =>
    intro hw
    simp [List.mem_singleton.1 hw]
  | case3 mode word c next rest hbreak ih =>
    intro hw
    rcases List.mem_cons.1 hw with rfl | hw
    · simp
    · exact ih (by simp) (by simp) hw
  | case4 mode word c next rest hbreak hlast ih =>
    intro hw
    rcases List.mem_cons.1 hw with rfl | hw
    · exact hmode (by simp [hlast.1])
    · exact ih (by simp) (by simp) hw
  | case5 mode word c next rest hbreak hlast ih =>
    exact ih (by simp) (by simp)

theorem ne_nil_of_mem_textWords {cs w : List Char} (h : w ∈ textWords cs) : w ≠ [] := by
  obtain ⟨run, hrun, hw⟩ := List.mem_flatMap.1 h
  have hne : run ≠ [] := by simpa using (List.mem_filter.1 hrun).2
  exact ne_nil_of_mem_scanWords (fun hnil => absurd hnil hne) (by simp) hw

/-! ### Words between underscores -/

theorem cutRuns_of_alphanumeric {w : List Char} (h : ∀ c ∈ w, isAlphanumeric c)
    (cs : List Char) : cutRuns (w ++ cs) = (w ++ (cutRuns cs).1, (cutRuns cs).2) := by
  induction w with
  | nil => rfl
  | cons c rest ih =>
    rw [List.cons_append, cutRuns, ih fun x hx => h x (.tail _ hx)]
    simp [h c (.head _)]

theorem cutRuns_underscore (cs : List Char) :
    cutRuns ('_' :: cs) = ([], (cutRuns cs).1 :: (cutRuns cs).2) := by
  rw [cutRuns]
  simp [isAlphanumeric_underscore]

/-- An underscore at the beginning is no part of a word. -/
theorem textWords_underscore (cs : List Char) : textWords ('_' :: cs) = textWords cs := by
  simp [textWords, pieces, cutRuns_underscore]

/-- An underscore at the end is no part of a word. -/
theorem textWords_concat_underscore (cs : List Char) :
    textWords (cs ++ ['_']) = textWords cs := by
  have hcut : cutRuns (cs ++ ['_']) = ((cutRuns cs).1, (cutRuns cs).2 ++ [[]]) := by
    induction cs with
    | nil => simp [cutRuns, isAlphanumeric_underscore]
    | cons c rest ih =>
      rw [List.cons_append, cutRuns, cutRuns, ih]
      dsimp only
      split <;> rfl
  rw [textWords, pieces, hcut, ← List.cons_append, List.filter_append]
  simp [textWords, pieces]

/-- A small word before an underscore, or at the end, is one word. -/
theorem SmallWord.textWords_append {w : List Char} (h : SmallWord w) (cs : List Char) :
    textWords (w ++ '_' :: cs) = w :: textWords cs := by
  have hcut : cutRuns (w ++ '_' :: cs) = (w, (cutRuns cs).1 :: (cutRuns cs).2) := by
    rw [cutRuns_of_alphanumeric (fun c hc => isAlphanumeric_of_isAlphanum (h.alphanum c hc)),
      cutRuns_underscore, List.append_nil]
  have hpieces : pieces (w ++ '_' :: cs) = w :: pieces cs := by
    simp [pieces, hcut, h.ne_nil]
  rw [textWords, hpieces, List.flatMap_cons, scanWords_of_small h.isUppercase_eq]
  rfl

/-- **Small words that are joined by underscores are found again.** -/
theorem textWords_intercalate :
    ∀ {ws : List (List Char)}, (∀ w ∈ ws, SmallWord w) → textWords (['_'].intercalate ws) = ws
  | [], _ => rfl
  | [w], h => by
    have hw := (h w (.head _)).textWords_append []
    rw [textWords_concat_underscore] at hw
    rw [List.intercalate_singleton, hw]
    rfl
  | w :: v :: rest, h => by
    rw [List.intercalate_cons_cons, List.append_assoc, List.singleton_append,
      (h w (.head _)).textWords_append, textWords_intercalate fun u hu => h u (.tail _ hu)]

/-! ### The words of a name -/

/-- The words of a raw name, in small letters. -/
def smallWords (raw : String) : List (List Char) :=
  (textWords (blankOut raw.toList)).map lowerWord

theorem smallWord_placeholder : SmallWord Case.snake.placeholder.toList where
  ne_nil := by decide +kernel
  alphanum := List.all_eq_true.1 (by decide +kernel)
  small := fun c hc => by
    have hsmall : Case.snake.placeholder.toList.all (fun c => !c.isUpper) := by decide +kernel
    simpa using List.all_eq_true.1 hsmall c hc

/-- The words of a name in small letters: those of the raw name, or the placeholder if there are
none. -/
def snakeWords (raw : String) : List (List Char) :=
  if smallWords raw = [] then [Case.snake.placeholder.toList] else smallWords raw

theorem smallWord_of_mem_smallWords {raw : String} {w : List Char} (h : w ∈ smallWords raw) :
    SmallWord w := by
  obtain ⟨x, hx, rfl⟩ := List.mem_map.1 h
  exact smallWord_lowerWord (ne_nil_of_mem_textWords hx) fun c hc => textWords_alphanum hx hc

theorem smallWord_of_mem_snakeWords {raw : String} {w : List Char} (h : w ∈ snakeWords raw) :
    SmallWord w := by
  unfold snakeWords at h
  split at h
  · exact List.mem_singleton.1 h ▸ smallWord_placeholder
  · exact smallWord_of_mem_smallWords h

theorem snakeWords_ne_nil (raw : String) : snakeWords raw ≠ [] := by
  unfold snakeWords
  split
  · simp
  · assumption

/-- A name in small letters is its words, joined by underscores, with an underscore before a
leading digit. -/
theorem plainIdentifier_snake (raw : String) : plainIdentifier .snake raw =
    String.ofList (guardDigit (['_'].intercalate (snakeWords raw))) := by
  have hrecased : Case.snake.apply (blankOut raw.toList) = ['_'].intercalate (smallWords raw) := rfl
  have hwords : textWords (['_'].intercalate (smallWords raw)) = smallWords raw :=
    textWords_intercalate fun w => smallWord_of_mem_smallWords
  unfold plainIdentifier snakeWords
  dsimp only
  rw [hrecased]
  by_cases hnil : smallWords raw = []
  · rw [if_pos hnil, hnil]
    rfl
  · -- Where there is a word, there is a letter or a digit.
    have hne : ['_'].intercalate (smallWords raw) ≠ [] := fun hempty =>
      hnil (by rw [← hwords, hempty]; rfl)
    rw [if_neg hnil, if_neg (by simpa using hne)]

/-! ### Names that are recased again -/

theorem textWords_guardDigit (cs : List Char) : textWords (guardDigit cs) = textWords cs := by
  cases cs with
  | nil => rfl
  | cons c rest =>
    rw [guardDigit]
    split
    · exact textWords_underscore (c :: rest)
    · rfl

theorem isIdentifierChar_of_start {c : Char} (h : isIdentifierStart c) : isIdentifierChar c := by
  simp only [isIdentifierStart, isIdentifierChar, Char.isAlphanum, Bool.or_eq_true] at h ⊢
  exact h.imp_left .inl

/-- Nothing in an identifier is a foreign character. -/
theorem blankOut_of_identifier {name : String} (h : isIdentifier name) :
    blankOut name.toList = name.toList := by
  have hchars : ∀ c ∈ name.toList, isIdentifierChar c := by
    unfold isIdentifier at h
    intro c hc
    split at h
    · simp at h
    · rename_i x rest hname
      rw [Bool.and_eq_true, List.all_eq_true] at h
      rw [hname] at hc
      rcases List.mem_cons.1 hc with rfl | hc
      · exact isIdentifierChar_of_start h.1
      · exact h.2 c hc
  unfold blankOut
  have hsame : ∀ c ∈ name.toList, (if isIdentifierChar c then c else ' ') = c := fun c hc =>
    if_pos (hchars c hc)
  rw [List.map_congr_left hsame, List.map_id']

/-- **The words of a name are the words that it was made from**, whatever was put into it. -/
theorem textWords_identifierOf (naming : NamingConfig) (raw : String) :
    textWords (identifierOf .snake naming raw).toList = snakeWords raw := by
  have hplain : textWords (plainIdentifier .snake raw).toList = snakeWords raw := by
    rw [plainIdentifier_snake, String.toList_ofList, textWords_guardDigit,
      textWords_intercalate fun w => smallWord_of_mem_snakeWords]
  unfold identifierOf
  dsimp only
  split
  · rw [String.toList_append, ← hplain]
    exact textWords_concat_underscore _
  · exact hplain

theorem snakeWords_identifierOf (naming : NamingConfig) (raw : String) :
    snakeWords (identifierOf .snake naming raw) = snakeWords raw := by
  have hsmall : (snakeWords raw).map lowerWord = snakeWords raw := by
    have hsame : ∀ w ∈ snakeWords raw, lowerWord w = w := fun w hw =>
      (smallWord_of_mem_snakeWords hw).lowerWord_eq
    rw [List.map_congr_left hsame, List.map_id']
  have hwords : smallWords (identifierOf .snake naming raw) = snakeWords raw := by
    rw [smallWords, blankOut_of_identifier (identifierOf_isIdentifier .snake naming raw),
      textWords_identifierOf, hsmall]
  rw [snakeWords, hwords, if_neg (snakeWords_ne_nil raw)]

/-- A name in small letters is made from its words. -/
theorem plainIdentifier_identifierOf (naming : NamingConfig) (raw : String) :
    plainIdentifier .snake (identifierOf .snake naming raw) = plainIdentifier .snake raw := by
  rw [plainIdentifier_snake, snakeWords_identifierOf, ← plainIdentifier_snake]

/-- **A name in small letters is its own name**, whatever the raw name and the reserved words: the
words of the name are those of the raw name in small letters, or the placeholder, and what was put
between, before and behind them is put there again. -/
theorem identifierOf_idempotent (naming : NamingConfig) (raw : String) :
    identifierOf .snake naming (identifierOf .snake naming raw) = identifierOf .snake naming raw ∧
      textWords (identifierOf .snake naming raw).toList = snakeWords raw := by
  refine ⟨?_, textWords_identifierOf naming raw⟩
  rw [identifierOf, plainIdentifier_identifierOf]
  rfl

/-- Capitals are not found again: the words of `ABC` were three. -/
example : identifierOf .upperCamel {} "a b c" = "ABC" ∧
    identifierOf .upperCamel {} "ABC" = "Abc" := by decide +kernel

end ApiBinding
