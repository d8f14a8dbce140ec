import ApiBinding.Naming.Scope

/-!
# Names are identifiers

Whatever text a raw name contains, its identifier is made of ASCII letters, digits and
underscores, is not empty and does not begin with a digit.  Characters outside ASCII are gone
before the text is cut into words, so the tables for letter case are consulted for ASCII
characters only, and these have ASCII characters as their other case.

* `isIdentifier` — whether a name matches `[A-Za-z_][A-Za-z0-9_]*`.
* `textWords_alphanum` — the words of a text without foreign characters are ASCII words.
* `identifierOf_isIdentifier`, `numbered_isIdentifier` — **names are identifiers**, with a number
  at the end or not.
-/

namespace ApiBinding

/-- A character that an identifier may begin with. -/
def isIdentifierStart (c : Char) : Bool := c.isAlpha || c == '_'

/-- Whether a name matches `[A-Za-z_][A-Za-z0-9_]*`. -/
def isIdentifier (name : String) : Bool :=
  match name.toList with
  | [] => false
  | c :: rest => isIdentifierStart c && rest.all isIdentifierChar

/-! ### ASCII characters -/

/-- What holds of the first 128 characters holds of every ASCII character. -/
theorem forall_ascii {P : Char → Prop} (h : ∀ n : Fin 128, P (Char.ofNat n)) {c : Char}
    (hc : c.toNat < 0x80) : P c := by
  have hn := h ⟨c.toNat, hc⟩
  rwa [Char.ofNat_toNat] at hn

theorem toNat_lt_of_isAlphanum {c : Char} (h : c.isAlphanum) : c.toNat < 0x80 := by
  unfold Char.isAlphanum Char.isAlpha Char.isUpper Char.isLower Char.isDigit at h
  simp only [Bool.or_eq_true, Bool.and_eq_true, decide_eq_true_eq, UInt32.le_iff_toNat_le,
    ge_iff_le] at h
  change c.val.toNat < 128
  rcases h with (⟨-, hle⟩ | ⟨-, hle⟩) | ⟨-, hle⟩
  · exact Nat.lt_of_le_of_lt hle (by decide)
  · exact Nat.lt_of_le_of_lt hle (by decide)
  · exact Nat.lt_of_le_of_lt hle (by decide)

/-- The small letter of a letter is one, and digits stay. -/
theorem isAlphanum_toLower {c : Char} (h : c.isAlphanum) : c.toLower.isAlphanum :=
  forall_ascii (P := fun c => c.isAlphanum → c.toLower.isAlphanum) (by decide +kernel)
    (toNat_lt_of_isAlphanum h) h

/-- The capital of a letter is one, and digits stay. -/
theorem isAlphanum_toUpper {c : Char} (h : c.isAlphanum) : c.toUpper.isAlphanum :=
  forall_ascii (P := fun c => c.isAlphanum → c.toUpper.isAlphanum) (by decide +kernel)
    (toNat_lt_of_isAlphanum h) h

/-! ### Words -/

/-- A run consists of letters and numbers of the text. -/
theorem mem_cutRuns {cs run : List Char} {c : Char} (hc : c ∈ run) :
    run ∈ (cutRuns cs).1 :: (cutRuns cs).2 → c ∈ cs ∧ isAlphanumeric c := by
  induction cs generalizing run with
  | nil =>
    intro hrun
    rw [List.mem_singleton.1 hrun] at hc
    simp [cutRuns] at hc
  | cons x rest ih =>
    rw [cutRuns]
    dsimp only
    split
    · rename_i hx
      intro hrun
      rcases List.mem_cons.1 hrun with rfl | hrun
      · rcases List.mem_cons.1 hc with rfl | hc
        · exact ⟨.head _, hx⟩
        · exact (ih hc (.head _)).imp_left (.tail _)
      · exact (ih hc (.tail _ hrun)).imp_left (.tail _)
    · intro hrun
      rcases List.mem_cons.1 hrun with rfl | hrun
      · simp at hc
      · exact (ih hc hrun).imp_left (.tail _)

/-- A word consists of what was read before and of characters of the run. -/
theorem mem_scanWords {mode : WordMode} {word cs w : List Char} {c : Char} (hc : c ∈ w) :
    w ∈ scanWords mode word cs → c ∈ word ∨ c ∈ cs := by
  fun_induction scanWords mode word cs with
  | case1 mode word =>
    intro hw
    exact .inl (List.mem_singleton.1 hw ▸ hc)
  | case2 mode word x =>
    intro hw
    rw [List.mem_singleton.1 hw, List.mem_append] at hc
    exact hc
  | case3 mode word x next rest hbreak ih =>
    intro hw
    rcases List.mem_cons.1 hw with rfl | hw
    · rw [List.mem_append, List.mem_singleton] at hc
      exact hc.imp_right fun (heq : c = x) => heq ▸ .head _
    · rcases ih hw with h | h
      · simp at h
      · exact .inr (.tail _ h)
  | case4 mode word x next rest hbreak hlast ih =>
    intro hw
    rcases List.mem_cons.1 hw with rfl | hw
    · exact .inl hc
    · rcases ih hw with h | h
      · exact .inr (List.mem_singleton.1 h ▸ .head _)
      · exact .inr (.tail _ h)
  | case5 mode word x next rest hbreak hlast ih =>
    intro hw
    rcases ih hw with h | h
    · rw [List.mem_append, List.mem_singleton] at h
      exact h.imp_right fun (heq : c = x) => heq ▸ .head _
    · exact .inr (.tail _ h)

theorem mem_textWords {cs w : List Char} {c : Char} (hw : w ∈ textWords cs) (hc : c ∈ w) :
    c ∈ cs ∧ isAlphanumeric c := by
  obtain ⟨run, hrun, hw⟩ := List.mem_flatMap.1 hw
  rcases mem_scanWords hc hw with h | h
  · simp at h
  · exact mem_cutRuns h (List.mem_filter.1 hrun).1

/-- **The words of a text without foreign characters are ASCII words.** -/
theorem textWords_alphanum {cs w : List Char} {c : Char} (hw : w ∈ textWords (blankOut cs))
    (hc : c ∈ w) : c.isAlphanum := by
  obtain ⟨hmem, halphanumeric⟩ := mem_textWords hw hc
  obtain ⟨x, -, rfl⟩ := List.mem_map.1 hmem
  split at halphanumeric
  · rename_i hx
    rw [if_pos hx]
    unfold isIdentifierChar at hx
    rcases Bool.or_eq_true _ _ ▸ hx with hx | hx
    · exact hx
    · rw [beq_iff_eq] at hx
      rw [hx] at halphanumeric
      exact absurd halphanumeric (by decide +kernel)
  · exact absurd halphanumeric (by decide +kernel)

/-! ### Recased words -/

theorem lowerWord_alphanum {w : List Char} (h : ∀ c ∈ w, c.isAlphanum) :
    ∀ c ∈ lowerWord w, c.isAlphanum := by
  fun_induction lowerWord w with
  | case1 => exact h
  | case2 => exact absurd (h 'Σ' (.head _)) (by decide)
  | case3 x rest hsigma ih =>
    intro c hc
    have hx := h x (.head _)
    rw [toLowercase_of_ascii (toNat_lt_of_isAlphanum hx)] at hc
    rcases List.mem_cons.1 hc with rfl | hc
    · exact isAlphanum_toLower hx
    · exact ih (fun c hc => h c (.tail _ hc)) c hc

theorem capitalizeWord_alphanum {w : List Char} (h : ∀ c ∈ w, c.isAlphanum) :
    ∀ c ∈ capitalizeWord w, c.isAlphanum := by
  cases w with
  | nil => exact h
  | cons x rest =>
    intro c hc
    have hx := h x (.head _)
    rw [capitalizeWord, toUppercase_of_ascii (toNat_lt_of_isAlphanum hx)] at hc
    rcases List.mem_cons.1 hc with rfl | hc
    · exact isAlphanum_toUpper hx
    · exact lowerWord_alphanum (fun c hc => h c (.tail _ hc)) c hc

theorem mem_intercalate {α : Type} {sep : List α} {a : α} :
    ∀ {ws : List (List α)}, a ∈ sep.intercalate ws → a ∈ sep ∨ ∃ w ∈ ws, a ∈ w
  | [], h => by simp at h
  | [w], h => .inr ⟨w, .head _, by simpa using h⟩
  | w :: v :: rest, h => by
    rw [List.intercalate_cons_of_ne_nil (by simp), List.mem_append, List.mem_append] at h
    rcases h with (h | h) | h
    · exact .inr ⟨w, .head _, h⟩
    · exact .inl h
    · exact (mem_intercalate h).imp_right fun ⟨u, hu, ha⟩ => ⟨u, .tail _ hu, ha⟩

/-- A recased text without foreign characters consists of identifier characters. -/
theorem Case.apply_identifier (case : Case) (cs : List Char) :
    ∀ c ∈ case.apply (blankOut cs), isIdentifierChar c := by
  intro c hc
  cases case with
  | snake =>
    rcases mem_intercalate hc with h | ⟨w, hw, h⟩
    · rw [List.mem_singleton.1 h]
      rfl
    · obtain ⟨v, hv, rfl⟩ := List.mem_map.1 hw
      have hsmall := lowerWord_alphanum (fun c hc => textWords_alphanum hv hc) c h
      simp [isIdentifierChar, hsmall]
  | upperCamel =>
    obtain ⟨w, hw, h⟩ := List.mem_flatMap.1 hc
    have hcapital := capitalizeWord_alphanum (fun c hc => textWords_alphanum hw hc) c h
    simp [isIdentifierChar, hcapital]

/-! ### Identifiers -/

theorem isIdentifier_append {name more : String} (h : isIdentifier name)
    (hmore : ∀ c ∈ more.toList, isIdentifierChar c) : isIdentifier (name ++ more) := by
  unfold isIdentifier at h ⊢
  rw [String.toList_append]
  split at h
  · simp at h
  · rename_i c rest heq
    rw [Bool.and_eq_true, List.all_eq_true] at h
    rw [heq, List.cons_append, Bool.and_eq_true, List.all_eq_true]
    refine ⟨h.1, fun x hx => ?_⟩
    rcases List.mem_append.1 hx with hx | hx
    · exact h.2 x hx
    · exact hmore x hx

theorem underscore_isIdentifierChar : ∀ c ∈ "_".toList, isIdentifierChar c := by
  simp [isIdentifierChar]

theorem guardDigit_isIdentifier {cs : List Char} (hne : cs ≠ [])
    (h : ∀ c ∈ cs, isIdentifierChar c) : isIdentifier (String.ofList (guardDigit cs)) := by
  cases cs with
  | nil => exact absurd rfl hne
  | cons c rest =>
    have hc := h c (.head _)
    have hrest : rest.all isIdentifierChar :=
      List.all_eq_true.2 fun x hx => h x (.tail _ hx)
    rw [guardDigit]
    by_cases hdigit : c.isDigit
    · rw [if_pos hdigit]
      simpa [isIdentifier, isIdentifierStart, hc] using hrest
    · rw [if_neg hdigit]
      -- An identifier character that is no digit may stand at the beginning.
      have hstart : isIdentifierStart c := by
        simpa [isIdentifierStart, isIdentifierChar, Char.isAlphanum, hdigit] using hc
      simpa [isIdentifier, hstart] using hrest

theorem plainIdentifier_isIdentifier (case : Case) (raw : String) :
    isIdentifier (plainIdentifier case raw) := by
  unfold plainIdentifier
  dsimp only
  split
  · cases case <;> decide
  · rename_i hne
    exact guardDigit_isIdentifier (by simpa using hne) (case.apply_identifier _)

/-- **The identifier of a raw name is an identifier**, whatever the raw name. -/
theorem identifierOf_isIdentifier (case : Case) (reserved : NamingConfig) (raw : String) :
    isIdentifier (identifierOf case reserved raw) := by
  unfold identifierOf
  dsimp only
  split
  · exact isIdentifier_append (plainIdentifier_isIdentifier case raw) underscore_isIdentifierChar
  · exact plainIdentifier_isIdentifier case raw

/-- **A number at the end makes an identifier of an identifier.** -/
theorem numbered_isIdentifier (case : Case) {base : String} (h : isIdentifier base) (n : Nat) :
    isIdentifier (NameScope.numbered case base n) := by
  have hdigits : ∀ c ∈ (toString n).toList, isIdentifierChar c := by
    intro c hc
    rw [Nat.toString_eq_ofList_toDigits, String.toList_ofList] at hc
    have hdigit := Nat.isDigit_of_mem_toDigits (by omega) (by omega) hc
    simp [isIdentifierChar, Char.isAlphanum, hdigit]
  cases case with
  | snake => exact isIdentifier_append (isIdentifier_append h underscore_isIdentifierChar) hdigits
  | upperCamel => exact isIdentifier_append h hdigits

end ApiBinding
