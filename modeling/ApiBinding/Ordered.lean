/-!
# Tables and lists that remember insertion order

Every keyed table of a document keeps the order in which its keys were first
written, and every answer shows that order.  A table is a list of pairs; a key
that is entered again keeps its place and takes the new value.  A list of
distinct elements grows at its end, by elements that are not in it yet.

## Main definitions

* `Table κ α` — pairs in order of first entry.
* `Table.get?`, `Table.insert`, `Table.ofEntries` — lookup, entry, and the table
  of a list of pairs.
* `addNew`, `extendNew`, `distinct` — lists without repetition, in order of
  first occurrence.
-/

namespace ApiBinding

/-- Key–value pairs in the order in which the keys were first entered. -/
abbrev Table (κ α : Type) : Type := List (κ × α)

namespace Table

variable {κ α β : Type}

/-- The keys, in table order. -/
def keys (t : Table κ α) : List κ := t.map Prod.fst

/-- The values, in table order. -/
def values (t : Table κ α) : List α := t.map Prod.snd

/-- Decode every value, keeping keys and order; fails if one value fails. -/
def mapM? (f : α → Option β) : Table κ α → Option (Table κ β)
  | [] => some []
  | (k, v) :: rest => do
    let w ← f v
    let more ← mapM? f rest
    return (k, w) :: more

/-- Change every value, keeping keys and order. -/
def mapValues (f : α → β) (t : Table κ α) : Table κ β := t.map fun e => (e.1, f e.2)

@[simp] theorem keys_nil : keys ([] : Table κ α) = [] := rfl

@[simp] theorem keys_cons (e : κ × α) (rest : Table κ α) :
    keys (e :: rest) = e.1 :: keys rest := rfl

variable [DecidableEq κ]

/-- The value stored under a key. -/
def get? : Table κ α → κ → Option α
  | [], _ => none
  | (k, v) :: rest, key => if k = key then some v else get? rest key

/-- Enter a value: a key that is present keeps its place, a new key goes last. -/
def insert : Table κ α → κ → α → Table κ α
  | [], key, value => [(key, value)]
  | (k, v) :: rest, key, value =>
    if k = key then (k, value) :: rest else (k, v) :: insert rest key value

/-- The table that results from entering the pairs one after the other. -/
def ofEntries (entries : List (κ × α)) : Table κ α :=
  entries.foldl (fun t e => Table.insert t e.1 e.2) []

@[simp] theorem get?_nil (key : κ) : get? ([] : Table κ α) key = none := rfl

@[simp] theorem get?_cons (k key : κ) (v : α) (rest : Table κ α) :
    get? ((k, v) :: rest) key = if k = key then some v else get? rest key := rfl

/-- What was entered last under a key is what is found there. -/
theorem get?_insert (t : Table κ α) (key k : κ) (value : α) :
    get? (insert t key value) k = if key = k then some value else get? t k := by
  induction t with
  | nil => rfl
  | cons e rest ih =>
    obtain ⟨k', v⟩ := e
    by_cases h : k' = key
    · subst h
      by_cases hk : k' = k <;> simp [insert, hk]
    · by_cases hk : k' = k
      · subst hk
        simp [insert, h, Ne.symm h]
      · simp [insert, h, hk, ih]

/-- Entering a key that is present leaves the keys alone; a new key goes last. -/
theorem keys_insert (t : Table κ α) (key : κ) (value : α) :
    keys (insert t key value) = if key ∈ keys t then keys t else keys t ++ [key] := by
  induction t with
  | nil => simp [insert]
  | cons e rest ih =>
    obtain ⟨k, v⟩ := e
    by_cases h : k = key
    · subst h
      simp [insert]
    · simp only [insert, h, if_false, keys_cons, ih, List.mem_cons, Ne.symm h, false_or]
      split <;> simp

end Table

/-! ### Lists without repetition -/

section Distinct

variable {α : Type} [DecidableEq α]

/-- Append an element unless the list has it already. -/
def addNew (seen : List α) (a : α) : List α := if a ∈ seen then seen else seen ++ [a]

/-- Append, in order, the elements that the list does not have yet. -/
def extendNew (seen xs : List α) : List α := xs.foldl addNew seen

/-- The elements of a list in order of first occurrence. -/
def distinct (xs : List α) : List α := extendNew [] xs

@[simp] theorem extendNew_nil (seen : List α) : extendNew seen [] = seen := rfl

@[simp] theorem extendNew_cons (seen : List α) (a : α) (xs : List α) :
    extendNew seen (a :: xs) = extendNew (addNew seen a) xs := rfl

theorem mem_addNew {seen : List α} {a b : α} : b ∈ addNew seen a ↔ b ∈ seen ∨ b = a := by
  unfold addNew
  split
  · constructor
    · exact Or.inl
    · rintro (h | rfl) <;> assumption
  · simp

theorem mem_extendNew {seen xs : List α} {b : α} :
    b ∈ extendNew seen xs ↔ b ∈ seen ∨ b ∈ xs := by
  induction xs generalizing seen with
  | nil => simp
  | cons a xs ih => rw [extendNew_cons, ih, mem_addNew, List.mem_cons, or_assoc]

theorem mem_distinct {xs : List α} {a : α} : a ∈ distinct xs ↔ a ∈ xs := by
  simp [distinct, mem_extendNew]

end Distinct

end ApiBinding
