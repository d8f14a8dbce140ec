import ApiBinding.Proofs.Naming.Numbering

/-!
# Names and reserved words

An identifier is compared with the reserved words once.  What is put behind it afterwards, an
underscore or a number, makes another word of it, which is not compared again.  No keyword has such
an ending, so a name that is given is never a keyword; but it may be one of the further words that
the configuration reserves.

## Main definitions

* `NamingConfig.Unchecked` — words of the form that a name has after it was compared.
* `NamingConfig.Spares` — what holds of a name with regard to the reserved words.

## Main results

* `KeywordSet.isAlpha_of_mem` — keywords are made of letters.
* `identifierOf_reserved_iff` — when the identifier of a raw name is reserved.
* `namesGiven_spare` — **which reserved words may be given as names, and when none is.**
-/

namespace ApiBinding

/-! ### Reserved words -/

/-- Keywords are made of letters, in all languages. -/
theorem KeywordSet.isAlpha_of_mem (set : KeywordSet) :
    ∀ word ∈ set.keywords, ∀ c ∈ word.toList, c.isAlpha := by
  have hall : set.keywords.all fun word => word.toList.all Char.isAlpha := by
    cases set <;> decide +kernel
  simpa only [List.all_eq_true] using hall

namespace NamingConfig

variable {naming : NamingConfig} {case : Case} {word : String}

theorem reserves_iff : naming.reserves word ↔
    word ∈ naming.extraReserved ∨ ∃ set ∈ naming.keywords, word ∈ set.keywords := by
  simp [reserves]

/-- Words of the form that a name has after it was compared with the reserved words: a reserved
word with an underscore behind it, or anything with a number from 2 on behind it. -/
inductive Unchecked (naming : NamingConfig) (case : Case) : String → Prop where
  | escaped {word : String} (hword : naming.reserves word) : Unchecked naming case (word ++ "_")
  | numbered {base : String} {n : Nat} (hn : 2 ≤ n) :
      Unchecked naming case (NameScope.numbered case base n)

/-- Such a word ends with an underscore or a digit. -/
theorem Unchecked.ending (h : naming.Unchecked case word) :
    ∃ front c, word.toList = front ++ [c] ∧ (c = '_' ∨ c.isDigit) := by
  cases h with
  | @escaped word hword => exact ⟨word.toList, '_', String.toList_append, .inl rfl⟩
  | @numbered base n hn =>
    have hne : Nat.toDigits 10 n ≠ [] := Nat.toDigits_ne_nil
    have hlast : ((Nat.toDigits 10 n).getLast hne).isDigit :=
      Nat.isDigit_of_mem_toDigits (by omega) (by omega) (List.getLast_mem hne)
    have hdigits : (toString n).toList =
        (Nat.toDigits 10 n).dropLast ++ [(Nat.toDigits 10 n).getLast hne] := by
      rw [Nat.toString_eq_ofList_toDigits, String.toList_ofList, List.dropLast_append_getLast]
    cases case with
    | snake =>
      refine ⟨(base ++ "_").toList ++ (Nat.toDigits 10 n).dropLast, _, ?_, .inr hlast⟩
      rw [NameScope.numbered, String.toList_append, hdigits, List.append_assoc]
    | upperCamel =>
      refine ⟨base.toList ++ (Nat.toDigits 10 n).dropLast, _, ?_, .inr hlast⟩
      rw [NameScope.numbered, String.toList_append, hdigits, List.append_assoc]

/-- Such a word is no keyword. -/
theorem Unchecked.notMem_keywords (h : naming.Unchecked case word) (set : KeywordSet) :
    word ∉ set.keywords := by
  intro hword
  obtain ⟨front, c, hchars, hc⟩ := h.ending
  have halpha := set.isAlpha_of_mem word hword c (by simp [hchars])
  have hnot : ∀ c : Char, c.isAlpha → c ≠ '_' ∧ ¬ c.isDigit := by
    intro c hc
    have hascii := toNat_lt_of_isAlphanum (c := c) (by simp [Char.isAlphanum, hc])
    exact forall_ascii (P := fun c => c.isAlpha → c ≠ '_' ∧ ¬ c.isDigit) (by decide +kernel)
      hascii hc
  rcases hc with rfl | hc
  · exact (hnot _ halpha).1 rfl
  · exact (hnot c halpha).2 hc

/-- The name is no keyword, and if it is one of the further words, it is one that was not
compared. -/
structure Spares (naming : NamingConfig) (case : Case) (name : String) : Prop where
  keyword : ∀ set ∈ naming.keywords, name ∉ set.keywords
  further : name ∈ naming.extraReserved → naming.Unchecked case name

theorem Unchecked.spares (h : naming.Unchecked case word) : naming.Spares case word :=
  ⟨fun set _ => h.notMem_keywords set, fun _ => h⟩

/-- A word that is not reserved is neither. -/
theorem spares_of_not_reserves (h : ¬ naming.reserves word) : naming.Spares case word := by
  rw [reserves_iff, not_or] at h
  exact ⟨fun set hset hword => h.2 ⟨set, hset, hword⟩, fun hword => absurd hword h.1⟩

/-- If no further word has the form of one that was not compared, the name is not reserved. -/
theorem Spares.not_reserves (h : naming.Spares case word)
    (hfurther : ∀ word ∈ naming.extraReserved, ¬ naming.Unchecked case word) :
    ¬ naming.reserves word := by
  rw [reserves_iff]
  rintro (hword | ⟨set, hset, hword⟩)
  · exact hfurther word hword (h.further hword)
  · exact h.keyword set hset hword

end NamingConfig

/-! ### Identifiers -/

variable {naming : NamingConfig} {case : Case}

theorem identifierOf_spares (case : Case) (naming : NamingConfig) (raw : String) :
    naming.Spares case (identifierOf case naming raw) := by
  unfold identifierOf
  dsimp only
  split
  · rename_i hreserved
    exact (NamingConfig.Unchecked.escaped hreserved).spares
  · rename_i hfree
    exact NamingConfig.spares_of_not_reserves hfree

/-- **When the identifier of a raw name is reserved**: the word with the underscore is, too. -/
theorem identifierOf_reserved_iff (raw : String) :
    naming.reserves (identifierOf case naming raw) ↔
      naming.reserves (plainIdentifier case raw) ∧
        plainIdentifier case raw ++ "_" ∈ naming.extraReserved := by
  unfold identifierOf
  dsimp only
  split
  · rename_i hreserved
    have hunchecked : naming.Unchecked case (plainIdentifier case raw ++ "_") := .escaped hreserved
    have hkeyword := hunchecked.notMem_keywords
    simp [NamingConfig.reserves_iff, hkeyword, hreserved]
  · rename_i hfree
    simp [hfree]

/-! ### Names that are given -/

/-- The answer to a request is an identifier, or has a number. -/
theorem Answered.spares {given : List String} {raw : String} {answer : String × Bool}
    (h : Answered case naming given raw answer) : naming.Spares case answer.1 := by
  cases h with
  | plain _ => exact identifierOf_spares case naming raw
  | numbered _ hn _ _ => exact (NamingConfig.Unchecked.numbered hn).spares

namespace NameScope

theorem spares_of_mem_namesGiven {name : String} (raws : List String) : ∀ scope : NameScope,
    name ∈ namesGiven naming scope raws → naming.Spares scope.case name := by
  induction raws with
  | nil => simp [namesGiven, answers]
  | cons raw rest ih =>
    intro scope hname
    rw [namesGiven_cons, List.mem_cons] at hname
    rcases hname with rfl | hname
    · exact (scope.allocate_answered naming raw).spares
    · exact ih (scope.take _) hname

/-- **Which reserved words may be given as names, and when none is.**  No name is a keyword of a
language that is to be avoided.  A name may be a further word only if that is a reserved word with
an underscore or has a number; it is no reserved word at all if there is no such further word. -/
theorem namesGiven_spare (naming : NamingConfig) (case : Case) :
    (∀ raw, naming.Spares case (identifierOf case naming raw) ∧
      (naming.reserves (identifierOf case naming raw) ↔
        naming.reserves (plainIdentifier case raw) ∧
          plainIdentifier case raw ++ "_" ∈ naming.extraReserved)) ∧
    (∀ raws, ∀ name ∈ namesGiven naming { case } raws, naming.Spares case name) ∧
    (∀ requests, ∀ name ∈ (allocateNames naming { case } requests).1, naming.Spares case name) ∧
    ((∀ word ∈ naming.extraReserved, ¬ naming.Unchecked case word) →
      (∀ raw, ¬ naming.reserves (identifierOf case naming raw)) ∧
      (∀ raws, ∀ name ∈ namesGiven naming { case } raws, ¬ naming.reserves name) ∧
      ∀ requests, ∀ name ∈ (allocateNames naming { case } requests).1,
        ¬ naming.reserves name) := by
  have hgiven : ∀ raws, ∀ name ∈ namesGiven naming { case } raws, naming.Spares case name :=
    fun raws name => spares_of_mem_namesGiven raws _
  have hnames : ∀ requests, ∀ name ∈ (allocateNames naming { case } requests).1,
      naming.Spares case name := by
    intro requests name hname
    rw [allocateNames_eq] at hname
    exact hgiven _ name hname
  exact ⟨fun raw => ⟨identifierOf_spares case naming raw, identifierOf_reserved_iff raw⟩, hgiven,
    hnames, fun hfurther => ⟨fun raw => (identifierOf_spares case naming raw).not_reserves hfurther,
      fun raws name hname => (hgiven raws name hname).not_reserves hfurther,
      fun requests name hname => (hnames requests name hname).not_reserves hfurther⟩⟩

/-- Two further words, neither with an underscore nor with a number at its end. -/
def courtesy : NamingConfig where
  extraReserved := ["client", "lambda"]

/-- None of these words is given, nor any keyword. -/
theorem namesGiven_spare_courtesy :
    (∀ word ∈ courtesy.extraReserved, ¬ courtesy.Unchecked .snake word) ∧
    namesGiven courtesy { case := .snake } ["Client", "lambda", "client"] =
      ["client_", "lambda_", "client__2"] ∧
    ∀ name ∈ namesGiven courtesy { case := .snake } ["Client", "lambda", "client"],
      ¬ courtesy.reserves name := by
  have hfurther : ∀ word ∈ courtesy.extraReserved, ¬ courtesy.Unchecked .snake word := by
    intro word hword h
    obtain ⟨front, c, hchars, hc⟩ := h.ending
    have hlast : ∀ word ∈ courtesy.extraReserved,
        word.toList.getLast? = some 't' ∨ word.toList.getLast? = some 'a' := by decide +kernel
    have hletter : c = 't' ∨ c = 'a' := by simpa [hchars] using hlast word hword
    rcases hletter with rfl | rfl <;> exact absurd hc (by decide)
  exact ⟨hfurther, by decide +kernel, ((namesGiven_spare courtesy .snake).2.2.2 hfurther).2.1 _⟩

/-- Two further words that have the form of names with an underscore and with a number. -/
def trap : NamingConfig where
  extraReserved := ["type_", "user_2"]

/-- **Reserved words are given as names**, one with an underscore and one with a number. -/
theorem trap_given :
    identifierOf .snake trap "type" = "type_" ∧ trap.reserves "type_" ∧
    namesGiven trap { case := .snake } ["user", "User", "type"] = ["user", "user_2", "type_"] ∧
    trap.reserves "user_2" := by
  decide +kernel

end NameScope

end ApiBinding
