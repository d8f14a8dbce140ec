import ApiBinding.Ordered
import Mathlib.Data.List.Induction
import Mathlib.Data.List.Nodup
import Mathlib.Data.List.Perm.Basic

/-!
# Tables and lists without repetition

If the keys of a table are distinct, the table is what its lookup says, and entering distinct keys
changes it in two ways: the values of the keys that it has are replaced where they stand, and the
other keys are appended.

## Main results

* `Table.get?_eq_some_iff`, `Table.get?_perm` — lookup in a table with distinct keys.
* `Table.foldl_insert`, `Table.ofEntries_append` — the table after distinct keys are entered.
* `Table.keys_ofEntries`, `Table.get?_ofEntries` — the table of a list in which keys are repeated.
* `nodup_distinct`, `prefix_distinct`, `pairwise_distinct`, `firstOccurrences_distinct` — lists of
  distinct elements.
-/

namespace ApiBinding

namespace Table

variable {κ α : Type} [DecidableEq κ] {t t' : Table κ α} {k : κ} {a : α}

/-! ### Lookup -/

omit [DecidableEq κ] in
theorem mem_keys {e : κ × α} (h : e ∈ t) : e.1 ∈ Table.keys t := List.mem_map_of_mem h

/-- What is found in a table is one of its pairs. -/
theorem mem_of_get? (h : Table.get? t k = some a) : (k, a) ∈ t := by
  induction t with
  | nil => simp at h
  | cons e rest ih =>
    obtain ⟨k', a'⟩ := e
    rw [Table.get?_cons] at h
    split at h
    · rename_i hk
      rw [hk, Option.some.inj h]
      exact .head _
    · exact .tail _ (ih h)

/-- What is not among the keys is not found. -/
theorem get?_eq_none (h : k ∉ Table.keys t) : Table.get? t k = none := by
  cases hk : Table.get? t k with
  | none => rfl
  | some a => exact absurd (mem_keys (mem_of_get? hk)) h

/-- What is found after every value is changed. -/
theorem get?_mapValues {β : Type} (f : α → β) (t : Table κ α) (k : κ) :
    get? (mapValues f t) k = (get? t k).map f := by
  induction t with
  | nil => rfl
  | cons e rest ih =>
    obtain ⟨k', a⟩ := e
    by_cases hk : k' = k <;> simp [mapValues, hk] at ih ⊢
    exact ih

omit [DecidableEq κ] in
@[simp] theorem keys_mapValues {β : Type} (f : α → β) (t : Table κ α) :
    keys (mapValues f t) = keys t := by
  simp [keys, mapValues]

/-- A key is found. -/
theorem exists_get? (h : k ∈ Table.keys t) : ∃ a, Table.get? t k = some a := by
  induction t with
  | nil => simp [Table.keys] at h
  | cons e rest ih =>
    obtain ⟨k', a'⟩ := e
    rw [Table.get?_cons]
    split
    · exact ⟨a', rfl⟩
    · rename_i hk
      exact ih ((List.mem_cons.1 h).resolve_left fun heq => hk heq.symm)

/-- The pairs of a table whose keys are distinct say what its lookup says. -/
theorem get?_eq_some_iff (h : (Table.keys t).Nodup) : Table.get? t k = some a ↔ (k, a) ∈ t := by
  induction t with
  | nil => simp
  | cons e rest ih =>
    obtain ⟨k', a'⟩ := e
    simp only [Table.keys_cons, List.nodup_cons] at h
    rw [Table.get?_cons, List.mem_cons]
    by_cases hk : k' = k
    · subst hk
      have hnot : (k', a) ∉ rest := fun hmem => h.1 (mem_keys hmem)
      simp [hnot, eq_comm]
    · simp [hk, ih h.2, Ne.symm hk]

theorem get?_perm (hperm : t'.Perm t) (h : (Table.keys t).Nodup) (k : κ) :
    Table.get? t' k = Table.get? t k := by
  have h' : (Table.keys t').Nodup := (hperm.map Prod.fst).nodup_iff.2 h
  refine Option.ext fun a => ?_
  rw [get?_eq_some_iff h', get?_eq_some_iff h, hperm.mem_iff]

/-! ### Entry -/

/-- A key is entered as a new element is appended. -/
theorem keys_insert_eq_addNew (t : Table κ α) (k : κ) (a : α) :
    Table.keys (Table.insert t k a) = addNew (Table.keys t) k := Table.keys_insert t k a

theorem mem_insert {e : κ × α} : e ∈ Table.insert t k a → e = (k, a) ∨ e ∈ t := by
  induction t with
  | nil => simp [Table.insert]
  | cons entry rest ih =>
    rw [Table.insert]
    split
    · rename_i hk
      intro he
      rcases List.mem_cons.1 he with rfl | he
      · exact .inl (by rw [hk])
      · exact .inr (.tail _ he)
    · intro he
      rcases List.mem_cons.1 he with rfl | he
      · exact .inr (.head _)
      · exact (ih he).imp_right (.tail _)

/-- A key that is found stands somewhere; entering it again changes the value there. -/
theorem insert_of_get? (h : Table.get? t k = some a) :
    ∃ before after, t = before ++ (k, a) :: after ∧
      ∀ b, Table.insert t k b = before ++ (k, b) :: after := by
  induction t with
  | nil => simp at h
  | cons e rest ih =>
    obtain ⟨k', a'⟩ := e
    rw [Table.get?_cons] at h
    by_cases hk : k' = k
    · rw [if_pos hk, Option.some.injEq] at h
      subst hk h
      exact ⟨[], rest, rfl, fun b => by simp [Table.insert]⟩
    · rw [if_neg hk] at h
      obtain ⟨before, after, hrest, hinsert⟩ := ih h
      exact ⟨(k', a') :: before, after, by rw [hrest]; rfl, fun b => by
        rw [Table.insert, if_neg hk, hinsert b]
        rfl⟩

/-- The value of a key in a table with distinct keys is replaced; a new key goes last. -/
theorem insert_eq (h : (Table.keys t).Nodup) (k : κ) (a : α) :
    Table.insert t k a =
      if k ∈ Table.keys t then t.map fun e => (e.1, if e.1 = k then a else e.2)
      else t ++ [(k, a)] := by
  induction t with
  | nil => rfl
  | cons e rest ih =>
    obtain ⟨k', a'⟩ := e
    simp only [Table.keys_cons, List.nodup_cons] at h
    rw [Table.insert, Table.keys_cons]
    by_cases hk : k' = k
    · subst hk
      have hsame : ∀ e ∈ rest, (e.1, if e.1 = k' then a else e.2) = e := by
        intro e he
        have hne : e.1 ≠ k' := fun heq => h.1 (heq ▸ mem_keys he)
        rw [if_neg hne]
      rw [if_pos rfl, if_pos (.head _), List.map_cons, if_pos rfl, List.map_congr_left hsame,
        List.map_id']
    · rw [if_neg hk, ih h.2]
      by_cases hmem : k ∈ Table.keys rest <;> simp [hk, hmem, Ne.symm hk]

end Table

/-! ### Lists without repetition -/

section Distinct

variable {α : Type} [DecidableEq α] {seen xs ys : List α}

/-- Two lists are appended one after the other. -/
theorem extendNew_append (seen xs ys : List α) :
    extendNew seen (xs ++ ys) = extendNew (extendNew seen xs) ys := by
  unfold extendNew
  exact List.foldl_append

theorem nodup_addNew (h : seen.Nodup) (a : α) : (addNew seen a).Nodup := by
  unfold addNew
  split
  · exact h
  · rename_i hnot
    exact List.Nodup.append h (List.nodup_singleton a) (by simpa using hnot)

theorem nodup_extendNew (xs : List α) :
    ∀ {seen : List α}, seen.Nodup → (extendNew seen xs).Nodup := by
  induction xs with
  | nil => exact id
  | cons a rest ih => exact fun h => ih (nodup_addNew h a)

theorem nodup_distinct (xs : List α) : (distinct xs).Nodup := nodup_extendNew xs .nil

/-- New elements without repetition are appended as they are. -/
theorem extendNew_of_nodup :
    ∀ {seen xs : List α}, (seen ++ xs).Nodup → extendNew seen xs = seen ++ xs
  | seen, [], _ => (List.append_nil seen).symm
  | seen, a :: rest, h => by
    have hnew : a ∉ seen := fun hmem => (List.nodup_append.1 h).2.2 a hmem a (.head _) rfl
    have hsplit : seen ++ a :: rest = seen ++ [a] ++ rest := List.append_cons seen a rest
    rw [extendNew_cons, addNew, if_neg hnew, hsplit]
    exact extendNew_of_nodup (hsplit ▸ h)

/-- A list without repetition is the list of its distinct elements. -/
theorem distinct_of_nodup (h : xs.Nodup) : distinct xs = xs := extendNew_of_nodup h

/-- What is there already stays where it is. -/
theorem prefix_extendNew (xs : List α) : ∀ seen : List α, seen <+: extendNew seen xs := by
  induction xs with
  | nil => exact fun seen => List.prefix_rfl
  | cons a rest ih =>
    intro seen
    have hadd : seen <+: addNew seen a := by
      unfold addNew
      split
      · exact List.prefix_rfl
      · exact List.prefix_append seen [a]
    exact hadd.trans (ih _)

/-- The distinct elements of a longer list begin with those of the shorter one. -/
theorem prefix_distinct (h : xs <+: ys) : distinct xs <+: distinct ys := by
  obtain ⟨more, rfl⟩ := h
  unfold distinct
  rw [extendNew_append]
  exact prefix_extendNew more _

/-- **Distinct elements stand in order of first occurrence**: of two of them, the first one occurs
at a place up to which the second one does not. -/
theorem pairwise_distinct (xs : List α) :
    (distinct xs).Pairwise fun a b =>
      ∃ before after, xs = before ++ a :: after ∧ b ∉ before ++ [a] := by
  induction xs using List.reverseRecOn with
  | nil => exact .nil
  | append_singleton xs x ih =>
    have hstep : distinct (xs ++ [x]) = addNew (distinct xs) x := extendNew_append [] xs [x]
    have hold : (distinct xs).Pairwise fun a b =>
        ∃ before after, xs ++ [x] = before ++ a :: after ∧ b ∉ before ++ [a] := by
      refine ih.imp fun ⟨before, after, hxs, hnot⟩ => ⟨before, after ++ [x], ?_, hnot⟩
      rw [hxs, List.append_assoc, List.cons_append]
    rw [hstep, addNew]
    split
    · exact hold
    · rename_i hnew
      refine List.pairwise_append.2 ⟨hold, List.pairwise_singleton _ _, fun a ha b hb => ?_⟩
      -- The new element occurs nowhere before.
      rw [List.mem_singleton] at hb
      subst hb
      rw [mem_distinct] at ha hnew
      obtain ⟨before, after, hxs⟩ := List.append_of_mem ha
      refine ⟨before, after ++ [b], by rw [hxs, List.append_assoc, List.cons_append], fun hb => ?_⟩
      refine hnew ?_
      rw [hxs, List.append_cons]
      exact List.mem_append_left _ hb

/-- The second list has the elements of the first one, each of them once, in the order in which
they first occur there. -/
structure FirstOccurrences (xs ys : List α) : Prop where
  mem_iff : ∀ a, a ∈ ys ↔ a ∈ xs
  nodup : ys.Nodup
  ordered : ys.Pairwise fun a b =>
    ∃ before after, xs = before ++ a :: after ∧ b ∉ before ++ [a]

theorem firstOccurrences_distinct (xs : List α) : FirstOccurrences xs (distinct xs) :=
  ⟨fun _ => mem_distinct, nodup_distinct xs, pairwise_distinct xs⟩

end Distinct

/-! ### Tables of distinct entries -/

namespace Table

variable {κ α : Type} [DecidableEq κ]

/-- **Distinct keys are entered**: those that are there take the new value, the others go last, in
their order. -/
theorem foldl_insert (entries : List (κ × α)) :
    ∀ {t : Table κ α}, (Table.keys t).Nodup → (Table.keys entries).Nodup →
      entries.foldl (fun t e => Table.insert t e.1 e.2) t =
        (t.map fun e => (e.1, (Table.get? entries e.1).getD e.2)) ++
          entries.filter fun e => e.1 ∉ Table.keys t := by
  induction entries with
  | nil =>
    intro t _ _
    simp
  | cons e rest ih =>
    intro t ht hentries
    obtain ⟨k, a⟩ := e
    simp only [Table.keys_cons, List.nodup_cons] at hentries
    obtain ⟨hk, hrest⟩ := hentries
    have hnodup : (Table.keys (Table.insert t k a)).Nodup := by
      rw [keys_insert_eq_addNew]
      exact nodup_addNew ht k
    rw [List.foldl_cons, ih hnodup hrest, Table.insert_eq ht]
    -- The first entry replaces a value of the table, or it is the first of those that go last.
    by_cases hmem : k ∈ Table.keys t
    · have hkeys :
          Table.keys (t.map fun e => (e.1, if e.1 = k then a else e.2)) = Table.keys t := by
        simp [Table.keys]
      rw [if_pos hmem, hkeys, List.map_map, List.filter_cons_of_neg (by simpa using hmem)]
      congr 1
      refine List.map_congr_left fun e he => ?_
      by_cases hek : e.1 = k
      · -- The key is not entered a second time.
        simp [hek, get?_eq_none hk]
      · simp [hek, Ne.symm hek]
    · rw [if_neg hmem, List.map_append, List.filter_cons_of_pos (by simpa using hmem),
        List.append_assoc]
      congr 1
      · refine List.map_congr_left fun e he => ?_
        have hek : k ≠ e.1 := fun heq => hmem (heq ▸ mem_keys he)
        simp [hek]
      · have hlater : ∀ e ∈ rest, e.1 ≠ k := fun e he heq => hk (heq ▸ mem_keys he)
        simp only [List.map_cons, List.map_nil, get?_eq_none hk, Option.getD_none,
          List.singleton_append, List.cons.injEq, true_and]
        refine List.filter_congr fun e he => ?_
        have hkeys : Table.keys (t ++ [(k, a)]) = Table.keys t ++ [k] := by simp [Table.keys]
        simp [hkeys, hlater e he]

/-- Distinct entries are a table. -/
theorem ofEntries_eq {entries : List (κ × α)} (h : (Table.keys entries).Nodup) :
    Table.ofEntries entries = entries := by
  unfold ofEntries
  rw [foldl_insert entries (t := []) List.nodup_nil h]
  simp

/-- **A table from two lists of distinct entries.** -/
theorem ofEntries_append {xs ys : List (κ × α)} (hx : (Table.keys xs).Nodup)
    (hy : (Table.keys ys).Nodup) :
    Table.ofEntries (xs ++ ys) = (xs.map fun e => (e.1, (Table.get? ys e.1).getD e.2)) ++
      ys.filter fun e => e.1 ∉ Table.keys xs := by
  have hfirst : xs.foldl (fun t e => Table.insert t e.1 e.2) [] = xs := ofEntries_eq hx
  unfold ofEntries
  rw [List.foldl_append, hfirst, foldl_insert ys hx hy]

end Table

/-! ### Tables of entries with repeated keys -/

namespace Table

variable {κ α : Type} [DecidableEq κ]

/-- A table with distinct keys is what its keys and its lookup say. -/
theorem ext_get? {t u : Table κ α} (ht : (Table.keys t).Nodup) (hkeys : Table.keys t = Table.keys u)
    (hget : ∀ k, Table.get? t k = Table.get? u k) : t = u := by
  induction t generalizing u with
  | nil =>
    cases u with
    | nil => rfl
    | cons e rest => simp at hkeys
  | cons e rest ih =>
    cases u with
    | nil => simp at hkeys
    | cons e' rest' =>
      obtain ⟨k, a⟩ := e
      obtain ⟨k', a'⟩ := e'
      simp only [Table.keys_cons, List.cons.injEq] at hkeys
      obtain ⟨rfl, hrest⟩ := hkeys
      rw [Table.keys_cons, List.nodup_cons] at ht
      have hhead : a = a' := by simpa using hget k
      subst hhead
      congr 1
      refine ih ht.2 hrest fun key => ?_
      by_cases hk : k = key
      · subst hk
        rw [get?_eq_none ht.1, get?_eq_none (hrest ▸ ht.1)]
      · simpa [hk] using hget key

/-- The value that is entered last under a key. -/
def latest? (entries : List (κ × α)) (k : κ) : Option α := Table.get? entries.reverse k

theorem get?_append (t u : Table κ α) (k : κ) :
    Table.get? (t ++ u) k = (Table.get? t k).or (Table.get? u k) := by
  induction t with
  | nil => rfl
  | cons e rest ih =>
    obtain ⟨k', a⟩ := e
    rw [List.cons_append, get?_cons, get?_cons, ih]
    split <;> rfl

@[simp] theorem latest?_nil (k : κ) : latest? ([] : List (κ × α)) k = none := rfl

theorem latest?_append (xs ys : List (κ × α)) (k : κ) :
    latest? (xs ++ ys) k = (latest? ys k).or (latest? xs k) := by
  rw [latest?, List.reverse_append, get?_append]
  rfl

/-- If keys are distinct, each of them is entered once. -/
theorem latest?_of_nodup {t : Table κ α} (h : (Table.keys t).Nodup) (k : κ) :
    latest? t k = Table.get? t k :=
  get?_perm t.reverse_perm h k

theorem ofEntries_concat (entries : List (κ × α)) (e : κ × α) :
    Table.ofEntries (entries ++ [e]) = Table.insert (Table.ofEntries entries) e.1 e.2 := by
  unfold ofEntries
  rw [List.foldl_append]
  rfl

/-- The keys of a table stand in the order in which they were first entered. -/
theorem keys_ofEntries (entries : List (κ × α)) :
    Table.keys (Table.ofEntries entries) = distinct (Table.keys entries) := by
  induction entries using List.reverseRecOn with
  | nil => rfl
  | append_singleton entries e ih =>
    have hkeys : Table.keys (entries ++ [e]) = Table.keys entries ++ [e.1] := by simp [Table.keys]
    rw [ofEntries_concat, keys_insert_eq_addNew, ih, hkeys]
    exact (extendNew_append [] (Table.keys entries) [e.1]).symm

theorem nodup_ofEntries (entries : List (κ × α)) : (Table.keys (Table.ofEntries entries)).Nodup :=
  keys_ofEntries entries ▸ nodup_distinct _

/-- What is found in a table was entered last. -/
theorem get?_ofEntries (entries : List (κ × α)) (k : κ) :
    Table.get? (Table.ofEntries entries) k = latest? entries k := by
  induction entries using List.reverseRecOn with
  | nil => rfl
  | append_singleton entries e ih =>
    obtain ⟨k', a⟩ := e
    rw [ofEntries_concat, get?_insert, latest?_append, ih]
    by_cases hk : k' = k <;> simp [latest?, hk]

end Table

section Distinct

variable {α : Type} [DecidableEq α]

/-- Elements that are appended count where they occur first. -/
theorem extendNew_distinct (seen xs : List α) :
    extendNew seen (distinct xs) = extendNew seen xs := by
  induction xs using List.reverseRecOn with
  | nil => rfl
  | append_singleton xs x ih =>
    have hstep : distinct (xs ++ [x]) = addNew (distinct xs) x := extendNew_append [] xs [x]
    have hlast : extendNew seen (xs ++ [x]) = addNew (extendNew seen xs) x :=
      extendNew_append seen xs [x]
    rw [hstep, hlast, addNew]
    split
    · rename_i hmem
      rw [ih, addNew, if_pos (mem_extendNew.2 (.inr (mem_distinct.1 hmem)))]
    · rw [extendNew_append, ih]
      rfl

theorem distinct_nested (pre xs post : List α) :
    distinct (pre ++ distinct xs ++ post) = distinct (pre ++ xs ++ post) := by
  simp only [distinct, extendNew_append]
  rw [← distinct, ← distinct, extendNew_distinct]

end Distinct

/-- A table that was entered before counts like its entries. -/
theorem Table.ofEntries_nested {κ α : Type} [DecidableEq κ] (pre xs post : List (κ × α)) :
    Table.ofEntries (pre ++ Table.ofEntries xs ++ post) = Table.ofEntries (pre ++ xs ++ post) := by
  refine ext_get? (nodup_ofEntries _) ?_ fun k => ?_
  · have hkeys : ∀ t u : Table κ α, Table.keys (t ++ u) = Table.keys t ++ Table.keys u := by
      simp [Table.keys]
    simp only [keys_ofEntries, hkeys, distinct_nested]
  · simp only [get?_ofEntries, latest?_append, latest?_of_nodup (nodup_ofEntries xs)]

end ApiBinding
