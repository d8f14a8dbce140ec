import ApiBinding.Proofs.Naming.Scopes
import Mathlib.Data.Nat.Init

/-!
# Numbers behind names

Who asks for a name in a scope gets the identifier of the raw name, or, if that was given before,
the identifier with the lowest number from 2 on that was not.  Which number is free is found by
trying one after the other; this comes to an end, since only the names that were given stand in the
way.

## Main definitions

* `NameScope.Search` — numbers are tried one after the other.
* `Answered` — the answer to a request, after other names were given.
* `NameScope.answers`, `allocateNames` — requests for names, one after the other, without and with
  findings.

## Main results

* `NameScope.search_freeNumber` — **the search ends**, after at most one try more than names were
  given.
* `NameScope.answers_append` — the first answers do not depend on the requests that follow.
* `NameScope.answers_lowest` — **what is answered to requests, whatever they are.**
-/

namespace ApiBinding

namespace NameScope

variable {scope : NameScope} {base : String} {n m : Nat}

/-! ### The search for a number -/

/-- Numbers are tried one after the other, from the first number on, until one makes the name
free, which is the second number. -/
inductive Search (scope : NameScope) (base : String) : Nat → Nat → Prop where
  | free {n : Nat} (hfree : numbered scope.case base n ∉ scope.taken) : Search scope base n n
  | taken {n m : Nat} (htaken : numbered scope.case base n ∈ scope.taken)
      (hrest : Search scope base (n + 1) m) : Search scope base n m

/-- The search ends at the lowest number that makes the name free. -/
theorem search_iff : scope.Search base n m ↔
    n ≤ m ∧ numbered scope.case base m ∉ scope.taken ∧
      ∀ k, n ≤ k → k < m → numbered scope.case base k ∈ scope.taken := by
  constructor
  · intro h
    induction h with
    | free hfree => exact ⟨Nat.le_refl _, hfree, fun k hk hlt => absurd hlt (by omega)⟩
    | @taken n m htaken _ ih =>
      obtain ⟨hle, hfree, hlowest⟩ := ih
      refine ⟨by omega, hfree, fun k hk hlt => ?_⟩
      rcases Nat.eq_or_lt_of_le hk with rfl | hk
      · exact htaken
      · exact hlowest k hk hlt
  · rintro ⟨hle, hfree, hlowest⟩
    -- Downwards from the end: every number before it is taken.
    induction hle using Nat.decreasingInduction with
    | self => exact .free hfree
    | of_succ k hk ih =>
      exact .taken (hlowest k (Nat.le_refl _) hk) (ih fun j hj => hlowest j (by omega))

/-- **The search from 2 on ends at the free number**, which is not higher than there are names
taken, and two. -/
theorem search_freeNumber (scope : NameScope) (base : String) :
    scope.Search base 2 (scope.freeNumber base) ∧
      scope.freeNumber base ≤ scope.taken.length + 2 := by
  have hfree := scope.freeNumber_free base
  have hbound : ∃ k, scope.freeNumber base = k + 2 ∧ k ≤ scope.taken.length ∧
      ∀ j < k, numbered scope.case base (j + 2) ∈ scope.taken := by
    unfold freeNumber at hfree ⊢
    rw [List.find?_map] at hfree ⊢
    cases hfound : (List.range (scope.taken.length + 1)).find?
        ((fun n => decide (numbered scope.case base n ∉ scope.taken)) ∘ (· + 2)) with
    | none =>
      rw [hfound] at hfree
      have htaken := List.find?_eq_none.1 hfound 0 (by simp)
      exact absurd hfree (by simpa using htaken)
    | some k =>
      obtain ⟨-, hk, hlowest⟩ := List.find?_range_eq_some.1 hfound
      refine ⟨k, rfl, by simpa [Nat.lt_succ_iff] using hk, fun j hj => ?_⟩
      simpa using hlowest j hj
  obtain ⟨k, hk, hle, hlowest⟩ := hbound
  refine ⟨search_iff.2 ⟨by omega, hfree, fun j hj hlt => ?_⟩, by omega⟩
  have hj' := hlowest (j - 2) (by omega)
  rwa [Nat.sub_add_cancel hj] at hj'

end NameScope

/-! ### Requests for names -/

/-- The answer to a request for a name, after other names were given: the identifier of the raw
name if it was not given, and else the identifier with the lowest number from 2 on that was not.
The flag says whether there is a number. -/
inductive Answered (case : Case) (naming : NamingConfig) (given : List String) (raw : String) :
    String × Bool → Prop where
  | plain (hfree : identifierOf case naming raw ∉ given) :
      Answered case naming given raw (identifierOf case naming raw, false)
  | numbered {n : Nat} (htaken : identifierOf case naming raw ∈ given) (hn : 2 ≤ n)
      (hfree : NameScope.numbered case (identifierOf case naming raw) n ∉ given)
      (hlowest : ∀ k, 2 ≤ k → k < n →
        NameScope.numbered case (identifierOf case naming raw) k ∈ given) :
      Answered case naming given raw
        (NameScope.numbered case (identifierOf case naming raw) n, true)

/-- What is answered depends on which names were given, and not on their order. -/
theorem Answered.congr {case : Case} {naming : NamingConfig} {given given' : List String}
    {raw : String} {answer : String × Bool} (h : Answered case naming given raw answer)
    (hgiven : ∀ name, name ∈ given ↔ name ∈ given') : Answered case naming given' raw answer := by
  cases h with
  | plain hfree => exact .plain fun htaken => hfree ((hgiven _).2 htaken)
  | numbered htaken hn hfree hlowest =>
    exact .numbered ((hgiven _).1 htaken) hn (fun h => hfree ((hgiven _).2 h))
      fun k hk hlt => (hgiven _).1 (hlowest k hk hlt)

namespace NameScope

variable {naming : NamingConfig} {scope : NameScope} {raw : String} {raws more : List String}

/-- The name that is given is taken from then on, and nothing else changes. -/
theorem allocate_scope (scope : NameScope) (naming : NamingConfig) (raw : String) :
    (scope.allocate naming raw).2.2 = scope.take (scope.allocate naming raw).1 := by
  unfold allocate
  dsimp only
  split <;> rfl

/-- A request is answered after the names that are taken. -/
theorem allocate_answered (scope : NameScope) (naming : NamingConfig) (raw : String) :
    Answered scope.case naming scope.taken raw
      ((scope.allocate naming raw).1, (scope.allocate naming raw).2.1) := by
  unfold allocate
  dsimp only
  split
  · rename_i htaken
    obtain ⟨hn, hfree, hlowest⟩ := search_iff.1 (scope.search_freeNumber _).1
    exact .numbered htaken hn hfree hlowest
  · rename_i hfree
    exact .plain hfree

/-! ### Requests one after the other -/

/-- The answers to requests for names, one after the other. -/
def answers (naming : NamingConfig) : NameScope → List String → List (String × Bool)
  | _, [] => []
  | scope, raw :: rest =>
    let (name, suffixed, scope) := scope.allocate naming raw
    (name, suffixed) :: answers naming scope rest

/-- The names that are given. -/
def namesGiven (naming : NamingConfig) (scope : NameScope) (raws : List String) : List String :=
  (answers naming scope raws).map Prod.fst

theorem answers_cons (scope : NameScope) (raw : String) (rest : List String) :
    answers naming scope (raw :: rest) =
      ((scope.allocate naming raw).1, (scope.allocate naming raw).2.1) ::
        answers naming (scope.take (scope.allocate naming raw).1) rest := by
  rw [← allocate_scope]
  rfl

theorem namesGiven_cons (scope : NameScope) (raw : String) (rest : List String) :
    namesGiven naming scope (raw :: rest) = (scope.allocate naming raw).1 ::
      namesGiven naming (scope.take (scope.allocate naming raw).1) rest := by
  rw [namesGiven, answers_cons]
  rfl

/-- **The first answers do not depend on the requests that follow**, which are answered in the
scope without the names that were given. -/
theorem answers_append (raws more : List String) : ∀ scope : NameScope,
    answers naming scope (raws ++ more) = answers naming scope raws ++
      answers naming (scope.takeAll (namesGiven naming scope raws)) more := by
  induction raws with
  | nil => exact fun scope => rfl
  | cons raw rest ih =>
    intro scope
    rw [List.cons_append, answers_cons, ih, answers_cons, namesGiven_cons]
    rfl

theorem takeAll_case (names : List String) : ∀ scope : NameScope,
    (scope.takeAll names).case = scope.case := by
  induction names with
  | nil => exact fun scope => rfl
  | cons name rest ih => exact fun scope => ih (scope.take name)

/-- The names that are taken are those that were, and those that are given. -/
theorem mem_taken_takeAll {name : String} (names : List String) : ∀ scope : NameScope,
    name ∈ (scope.takeAll names).taken ↔ name ∈ scope.taken ∨ name ∈ names := by
  induction names with
  | nil => simp [takeAll]
  | cons first rest ih =>
    intro scope
    have hrest := ih (scope.take first)
    rw [takeAll, List.foldl_cons, ← takeAll, hrest, take, List.mem_cons, List.mem_cons]
    tauto

/-- Names that are given are handed out one after the other. -/
theorem namesGiven_hands (raws : List String) : ∀ scope : NameScope,
    scope.Hands (namesGiven naming scope raws) := by
  induction raws with
  | nil => exact fun scope => .nil
  | cons raw rest ih =>
    intro scope
    obtain ⟨hfree, hname, -⟩ := allocateName_fresh naming scope raw ""
    rw [namesGiven_cons]
    exact .cons hfree hname (ih _)

/-- A request is answered after the names that were given to the earlier ones. -/
theorem answers_split (case : Case) (naming : NamingConfig) (before : List String) (raw : String)
    (after : List String) : ∃ answer later,
      answers naming { case } (before ++ raw :: after) =
        answers naming { case } before ++ answer :: later ∧
      Answered case naming (namesGiven naming { case } before) raw answer := by
  let scope : NameScope := { case }
  have hanswered := allocate_answered (scope.takeAll (scope.namesGiven naming before)) naming raw
  rw [takeAll_case] at hanswered
  have hsplit : answers naming scope (before ++ raw :: after) = answers naming scope before ++
      answers naming (scope.takeAll (namesGiven naming scope before)) (raw :: after) :=
    answers_append before (raw :: after) scope
  rw [answers_cons] at hsplit
  exact ⟨_, _, hsplit, hanswered.congr fun name => by simp [mem_taken_takeAll, scope]⟩

end NameScope

/-! ### Findings -/

/-- Names for raw names at their places, one after the other, and the findings about them. -/
def allocateNames (naming : NamingConfig) :
    NameScope → List (String × String) → List String × List Diagnostic
  | _, [] => ([], [])
  | scope, (raw, location) :: rest =>
    let (name, scope, findings) := allocateName naming scope raw location
    let (names, more) := allocateNames naming scope rest
    (name :: names, findings ++ more)

/-- The findings about the answers that have a number, one for each. -/
def collisions (requests : List (String × String)) (as : List (String × Bool)) :
    List Diagnostic :=
  ((requests.zip as).filter fun e => e.2.2).map fun e => collision e.1.1 e.2.1 e.1.2

/-- The names are those of the answers, and what is reported are the answers with a number. -/
theorem allocateNames_eq (naming : NamingConfig) : ∀ (requests : List (String × String))
    (scope : NameScope), allocateNames naming scope requests =
      (scope.namesGiven naming (requests.map Prod.fst),
        collisions requests (scope.answers naming (requests.map Prod.fst)))
  | [], _ => rfl
  | (raw, location) :: rest, scope => by
    rw [List.map_cons, NameScope.namesGiven_cons, NameScope.answers_cons]
    rw [allocateNames, allocateName]
    dsimp only
    rw [NameScope.allocate_scope, allocateNames_eq naming rest]
    cases hflag : (scope.allocate naming raw).2.1 <;> simp [collisions]

/-- **What is answered to requests for names in one scope.**  The names differ from each other.
Each of them is the identifier of its raw name, or the one with the lowest number that was not given
to an earlier request; later requests change nothing, and exactly the names with a number are
reported.  To find the number, one after the other is tried, and this ends. -/
theorem NameScope.answers_lowest (case : Case) (naming : NamingConfig) :
    (∀ raws, (namesGiven naming { case } raws).Nodup) ∧
    (∀ before raw after, ∃ answer later,
      answers naming { case } (before ++ raw :: after) =
        answers naming { case } before ++ answer :: later ∧
      Answered case naming (namesGiven naming { case } before) raw answer) ∧
    (∀ requests, allocateNames naming { case } requests =
      (namesGiven naming { case } (requests.map Prod.fst),
        collisions requests (answers naming { case } (requests.map Prod.fst)))) ∧
    ∀ (scope : NameScope) (base : String), scope.Search base 2 (scope.freeNumber base) ∧
      scope.freeNumber base ≤ scope.taken.length + 2 :=
  ⟨fun raws => (namesGiven_hands raws _).distinct.nodup, answers_split case naming,
    fun requests => allocateNames_eq naming requests _, search_freeNumber⟩

/-- A number that somebody has as part of a name is left out. -/
example : NameScope.answers {} { case := .upperCamel } ["pet2", "pet", "Pet", "PET"] =
    [("Pet2", false), ("Pet", false), ("Pet3", true), ("Pet4", true)] := by
  decide +kernel

end ApiBinding
