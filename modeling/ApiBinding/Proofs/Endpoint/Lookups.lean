import ApiBinding.Client.Endpoint
import ApiBinding.Proofs.Tables

/-!
# Answers for observed statuses

The keys of declared responses are more or less narrow: a status, a class of a hundred statuses, or
all statuses.  For an observed status the narrowest key with an entry is to answer.  The class of a
status is kept in eight bits, and there are more classes than that among the statuses of sixteen
bits: they come round again every 25600 statuses.

## Main definitions

* `StatusKey.Covers` — the statuses that a key is declared for.
* `StatusKey.Reaches` — the statuses for which a key is asked.
* `Endpoint.Selects` — the narrowest of the keys that reach a status, with its entry.

## Main results

* `Endpoint.responseEntry?_eq_some_iff` — the entry that answers is the one that is selected.
* `Endpoint.responseFor_selects` — **what is answered for every status, and for which statuses the
  classes are right.**
-/

namespace ApiBinding

namespace StatusKey

/-! ### Keys and statuses -/

/-- The statuses that a key is declared for. -/
def Covers : StatusKey → Nat → Prop
  | .code value, status => value = status
  | .range hundreds, status => 100 * hundreds ≤ status ∧ status < 100 * hundreds + 100
  | .default, _ => True

/-- The statuses for which a key is asked: those it covers, but the classes come round again. -/
def Reaches : StatusKey → Nat → Prop
  | .range hundreds, status => (range hundreds).Covers (status % 25600)
  | key, status => key.Covers status

/-- How many statuses a key is for: one, a class of them, or all. -/
def breadth : StatusKey → Nat
  | .code _ => 0
  | .range _ => 1
  | .default => 2

/-- The keys that are asked for a status, the narrowest one first. -/
def asked (code : UInt16) : List StatusKey :=
  [.code code.toNat, .range (Endpoint.statusClass code), .default]

/-- The class of a status is right up to its eight bits. -/
theorem statusClass_eq (code : UInt16) :
    Endpoint.statusClass code = code.toNat % 25600 / 100 := by
  have hdiv : (code / 100).toNat = code.toNat / 100 := UInt16.toNat_div code 100
  rw [Endpoint.statusClass, UInt16.toNat_toUInt8, hdiv]
  omega

/-- The keys that are asked for a status are those that reach it. -/
theorem mem_asked_iff {code : UInt16} {key : StatusKey} :
    key ∈ asked code ↔ key.Reaches code.toNat := by
  cases key with
  | code value => simp [asked, Reaches, Covers]
  | range hundreds =>
    simp only [asked, Reaches, Covers, List.mem_cons, range.injEq, reduceCtorEq, List.not_mem_nil,
      false_or, or_false, statusClass_eq]
    omega
  | default => simp [asked, Reaches, Covers]

theorem asked_pairwise (code : UInt16) :
    (asked code).Pairwise fun key key' => key.breadth < key'.breadth := by
  simp [asked, breadth]

/-- Every key reaches the statuses that it covers and no others, as long as the classes have not
come round. -/
theorem reaches_iff_covers_iff (status : Nat) :
    (∀ key : StatusKey, key.Reaches status ↔ key.Covers status) ↔ status < 25600 := by
  constructor
  · intro h
    have hclass : 100 * (status % 25600 / 100) ≤ status ∧
        status < 100 * (status % 25600 / 100) + 100 :=
      (h (.range (status % 25600 / 100))).1 (by simp only [Reaches, Covers]; omega)
    omega
  · intro hstatus key
    cases key with
    | range hundreds => rw [Reaches, Nat.mod_eq_of_lt hstatus]
    | code value => exact Iff.rfl
    | default => exact Iff.rfl

end StatusKey

namespace Endpoint

variable {e : Endpoint} {code : UInt16} {key : StatusKey} {entry : Option TypeRef}

/-! ### Selected entries -/

/-- The key reaches the status and holds the entry, and no declared key that reaches it is
narrower. -/
structure Selects (e : Endpoint) (status : Nat) (key : StatusKey) (entry : Option TypeRef) :
    Prop where
  holds : Table.get? e.responses key = some entry
  reaches : key.Reaches status
  narrowest : ∀ other ∈ Table.keys e.responses, other.Reaches status →
    key.breadth ≤ other.breadth

theorem responseEntry?_eq (e : Endpoint) (code : UInt16) :
    e.responseEntry? code = (StatusKey.asked code).findSome? (Table.get? e.responses) := by
  unfold responseEntry? StatusKey.asked
  simp only [List.findSome?_cons, List.findSome?_nil]
  cases Table.get? e.responses (.code code.toNat) <;>
    cases Table.get? e.responses (.range (statusClass code)) <;>
      cases Table.get? e.responses .default <;> rfl

/-- **The entry that answers for a status is the one that is selected.** -/
theorem responseEntry?_eq_some_iff :
    e.responseEntry? code = some entry ↔ ∃ key, e.Selects code.toNat key entry := by
  have hsorted := StatusKey.asked_pairwise code
  rw [responseEntry?_eq, List.findSome?_eq_some_iff]
  constructor
  · rintro ⟨before, key, after, hasked, hkey, hbefore⟩
    refine ⟨key, hkey, StatusKey.mem_asked_iff.1 (hasked ▸ by simp),
      fun other hother hreaches => ?_⟩
    -- A key that is declared and reaches the status is asked, and not before this one.
    have hmem := StatusKey.mem_asked_iff.2 hreaches
    rw [hasked, List.mem_append, List.mem_cons] at hmem
    rcases hmem with hmem | rfl | hmem
    · obtain ⟨entry', hentry'⟩ := Table.exists_get? hother
      rw [hbefore other hmem] at hentry'
      simp at hentry'
    · exact Nat.le_refl _
    · rw [hasked, List.pairwise_append, List.pairwise_cons] at hsorted
      exact Nat.le_of_lt (hsorted.2.1.1 other hmem)
  · rintro ⟨key, hkey⟩
    obtain ⟨before, after, hasked⟩ := List.append_of_mem (StatusKey.mem_asked_iff.2 hkey.reaches)
    refine ⟨before, key, after, hasked, hkey.holds, fun other hother => ?_⟩
    rw [hasked, List.pairwise_append] at hsorted
    have hnarrower : other.breadth < key.breadth := hsorted.2.2 other hother key (.head _)
    have hreaches : other.Reaches code.toNat :=
      StatusKey.mem_asked_iff.1 (hasked ▸ List.mem_append_left _ hother)
    -- So it holds no entry: it would be a declared key that is narrower.
    cases hentry' : Table.get? e.responses other with
    | none => rfl
    | some entry' =>
      have hle := hkey.narrowest other (Table.mem_keys (Table.mem_of_get? hentry')) hreaches
      omega

/-- No entry answers for a status iff no declared key reaches it. -/
theorem responseEntry?_eq_none_iff : e.responseEntry? code = none ↔
    ∀ key ∈ Table.keys e.responses, ¬ key.Reaches code.toNat := by
  rw [responseEntry?_eq, List.findSome?_eq_none_iff]
  constructor
  · intro h key hkey hreaches
    obtain ⟨entry, hentry⟩ := Table.exists_get? hkey
    rw [h key (StatusKey.mem_asked_iff.2 hreaches)] at hentry
    simp at hentry
  · intro h key hasked
    exact Table.get?_eq_none fun hkey => h key hkey (StatusKey.mem_asked_iff.1 hasked)

/-- **What is answered for every status.**  It is the entry of the narrowest declared key that
reaches the status; a status is unmapped iff no declared key does.  Keys reach the statuses that
they cover iff the status is below 25600. -/
theorem responseFor_selects (e : Endpoint) (code : UInt16) :
    (∀ type, e.responseFor code = .body type ↔
      ∃ key, e.Selects code.toNat key (some type)) ∧
    (e.responseFor code = .empty ↔ ∃ key, e.Selects code.toNat key none) ∧
    (e.responseFor code = .unmapped ↔
      ∀ key ∈ Table.keys e.responses, ¬ key.Reaches code.toNat) ∧
    ((∀ key : StatusKey, key.Reaches code.toNat ↔ key.Covers code.toNat) ↔
      code.toNat < 25600) := by
  simp only [← responseEntry?_eq_some_iff, ← responseEntry?_eq_none_iff, responseFor]
  refine ⟨fun type => ?_, ?_, ?_, StatusKey.reaches_iff_covers_iff code.toNat⟩ <;>
    rcases e.responseEntry? code with _ | _ | type <;> simp

/-- An endpoint with a text for the class 2, nothing for one of its statuses, and a model for all
others. -/
def bakery : Endpoint where
  name := "bake"
  operationId := none
  method := .get
  path := "/bread"
  parameters := []
  requestBody := none
  requestBodyRequired := false
  responses := [(.default, some (.reference "Problem")), (.range 2, some (.scalar .string)),
    (.code 204, none)]
  deprecated := false
  summary := none
  description := none

/-- The status of its own has no body, another one of the class has the text, and one of another
class has the model; all keys that reach them cover them. -/
theorem responseFor_selects_bakery :
    (∃ key, bakery.Selects 204 key none) ∧
    (∃ key, bakery.Selects 299 key (some (.scalar .string))) ∧
    (∃ key, bakery.Selects 300 key (some (.reference "Problem"))) ∧
    ∀ key : StatusKey, key.Reaches 299 ↔ key.Covers 299 :=
  ⟨(responseFor_selects bakery 204).2.1.1 (by decide),
    ((responseFor_selects bakery 299).1 _).1 (by decide),
    ((responseFor_selects bakery 300).1 _).1 (by decide),
    (responseFor_selects bakery 299).2.2.2.2 (by decide)⟩

/-- **A class answers for a status outside of it**: 25800 is answered with the text of the class 2,
though only the key of all statuses covers it. -/
theorem responseFor_wraps :
    bakery.responseFor 25800 = .body (.scalar .string) ∧
    Table.get? bakery.responses (.range 2) = some (some (.scalar .string)) ∧
    ¬ (StatusKey.range 2).Covers 25800 ∧
    (∀ key ∈ Table.keys bakery.responses, key.Covers 25800 → key = .default) ∧
    Table.get? bakery.responses .default = some (some (.reference "Problem")) := by
  refine ⟨by decide, by decide, by simp [StatusKey.Covers], ?_, by decide⟩
  simp [bakery, StatusKey.Covers]

end Endpoint

end ApiBinding
