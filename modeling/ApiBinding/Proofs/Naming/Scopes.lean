import ApiBinding.Proofs.Naming.Identifiers
import Mathlib.Data.List.Perm.Subperm
import Mathlib.Data.List.Nodup

/-!
# Names are distinct

A name that is handed out was free, and is taken from then on.  So names that are handed out one
after the other in a scope differ from each other.

* `NameScope.freeNumber_free` — some number makes a name free.
* `NameScope.Hands` — names that are handed out in a scope, one after the other.
* `allocateName_fresh` — **a name that is handed out is a free identifier.**
-/

namespace ApiBinding

/-- The names are identifiers and differ from each other. -/
structure DistinctIdentifiers (names : List String) : Prop where
  nodup : names.Nodup
  identifier : ∀ name ∈ names, isIdentifier name

namespace NameScope

theorem toString_injective {m n : Nat} (h : toString m = toString n) : m = n := by
  rw [Nat.toString_eq_ofList_toDigits, Nat.toString_eq_ofList_toDigits, String.ofList_inj] at h
  rw [← @Nat.ofDigitChars_ten_toDigits m, h, Nat.ofDigitChars_ten_toDigits]

/-- Different numbers make different names. -/
theorem numbered_injective (case : Case) (base : String) :
    Function.Injective (numbered case base) := by
  intro m n h
  cases case with
  | snake => exact toString_injective (String.append_right_inj _ |>.1 h)
  | upperCamel => exact toString_injective (String.append_right_inj _ |>.1 h)

/-- **Some number makes a name free**: there are more numbers to try than names taken. -/
theorem freeNumber_free (scope : NameScope) (base : String) :
    numbered scope.case base (scope.freeNumber base) ∉ scope.taken := by
  unfold freeNumber
  cases hfound : ((List.range (scope.taken.length + 1)).map (· + 2)).find?
      (fun n => numbered scope.case base n ∉ scope.taken) with
  | some n => simpa using List.find?_some hfound
  | none =>
    have htaken : ((List.range (scope.taken.length + 1)).map (· + 2)).map
        (numbered scope.case base) ⊆ scope.taken := by
      intro name hname
      obtain ⟨n, hn, rfl⟩ := List.mem_map.1 hname
      simpa using List.find?_eq_none.1 hfound n hn
    have hnodup : (((List.range (scope.taken.length + 1)).map (· + 2)).map
        (numbered scope.case base)).Nodup :=
      (List.nodup_range.map fun m n h => Nat.add_right_cancel h).map
        (numbered_injective scope.case base)
    have hlength := (List.subperm_of_subset hnodup htaken).length_le
    simp only [List.length_map, List.length_range] at hlength
    omega

end NameScope

/-- **A name that is handed out is a free identifier**, and it is taken from then on. -/
theorem allocateName_fresh (reserved : NamingConfig) (scope : NameScope) (raw location : String) :
    (allocateName reserved scope raw location).1 ∉ scope.taken ∧
      isIdentifier (allocateName reserved scope raw location).1 ∧
      (allocateName reserved scope raw location).2.1 =
        scope.take (allocateName reserved scope raw location).1 := by
  have hbase := identifierOf_isIdentifier scope.case reserved raw
  unfold allocateName NameScope.allocate
  dsimp only
  split
  · exact ⟨scope.freeNumber_free _, numbered_isIdentifier scope.case hbase _, rfl⟩
  · rename_i hfree
    exact ⟨hfree, hbase, rfl⟩

/-! ### Names that are handed out one after the other -/

/-- Take names, one after the other. -/
def NameScope.takeAll (scope : NameScope) (names : List String) : NameScope :=
  names.foldl NameScope.take scope

/-- The names can be handed out in the scope, one after the other. -/
inductive NameScope.Hands : NameScope → List String → Prop where
  | nil {scope : NameScope} : Hands scope []
  | cons {scope : NameScope} {name : String} {names : List String} (hfree : name ∉ scope.taken)
      (hname : isIdentifier name) (h : Hands (scope.take name) names) : Hands scope (name :: names)

namespace NameScope.Hands

variable {scope : NameScope} {names more : List String}

/-- No name that is handed out was taken before. -/
theorem free (h : scope.Hands names) : ∀ name ∈ names, name ∉ scope.taken := by
  induction h with
  | nil => simp
  | @cons scope name names hfree hname h ih =>
    intro other hother
    rcases List.mem_cons.1 hother with rfl | hother
    · exact hfree
    · exact fun htaken => ih other hother (.tail _ htaken)

/-- **Names that are handed out are distinct identifiers.** -/
theorem distinct (h : scope.Hands names) : DistinctIdentifiers names := by
  induction h with
  | nil => exact ⟨.nil, by simp⟩
  | @cons scope name names hfree hname h ih =>
    refine ⟨List.nodup_cons.2 ⟨fun hmem => ?_, ih.nodup⟩,
      List.forall_mem_cons.2 ⟨hname, ih.identifier⟩⟩
    exact h.free name hmem (.head _)

/-- More names are handed out behind them. -/
theorem append (h : scope.Hands names) (hmore : (scope.takeAll names).Hands more) :
    scope.Hands (names ++ more) := by
  induction h with
  | nil => exact hmore
  | cons hfree hname h ih => exact .cons hfree hname (ih hmore)

end NameScope.Hands

end ApiBinding
