/-
Tables keyed by numbers, such as step ids and pattern indexes. Each key has one entry, and the
entries stay in the order in which their keys came in.

`get?` is the view of a table: `get?_insert`, `get?_insertNew` and `get?_filterKeys` say what each
operation does to it, and `get?_eq_some_iff` that it reads off the entries.
-/

namespace Munch

structure IdMap (α : Type) where
  entries : List (Int × α)
  nodup_keys : (entries.map (·.1)).Nodup

namespace IdMap

variable {α : Type}

def keys (m : IdMap α) : List Int :=
  m.entries.map (·.1)

def size (m : IdMap α) : Nat :=
  m.entries.length

def get? (m : IdMap α) (key : Int) : Option α :=
  (m.entries.find? (·.1 == key)).map (·.2)

def contains (m : IdMap α) (key : Int) : Bool :=
  m.entries.any (·.1 == key)

theorem contains_iff_mem_keys {m : IdMap α} {key : Int} :
    m.contains key = true ↔ key ∈ m.keys := by
  simp [contains, keys]

def empty : IdMap α := ⟨[], .nil⟩

/-- The entries with the value of one key replaced. -/
def replace (key : Int) (value : α) (entries : List (Int × α)) : List (Int × α) :=
  entries.map fun e => if e.1 == key then (key, value) else e

theorem map_fst_replace (key : Int) (value : α) (entries : List (Int × α)) :
    (replace key value entries).map (·.1) = entries.map (·.1) := by
  induction entries with
  | nil => rfl
  | cons e es ih =>
    by_cases h : e.1 = key
    · simpa [replace, h] using ih
    · simpa [replace, h] using ih

theorem nodup_append_key {m : IdMap α} {key : Int} (value : α) (h : ¬m.contains key = true) :
    ((m.entries ++ [(key, value)]).map (·.1)).Nodup := by
  have hk : key ∉ m.entries.map (·.1) := fun hm => h (contains_iff_mem_keys.2 hm)
  rw [List.map_append, List.nodup_append]
  exact ⟨m.nodup_keys, by simp, fun a ha b hb => by
    simp only [List.map_cons, List.map_nil, List.mem_singleton] at hb
    exact fun hab => hk (hb ▸ hab ▸ ha)⟩

/-- Replaces the value of the key, or adds the key behind all others. -/
def insert (m : IdMap α) (key : Int) (value : α) : IdMap α :=
  if h : m.contains key = true then
    ⟨replace key value m.entries, map_fst_replace key value m.entries ▸ m.nodup_keys⟩
  else ⟨m.entries ++ [(key, value)], nodup_append_key value h⟩

/-- Adds the key behind all others, unless it is there already. -/
def insertNew (m : IdMap α) (key : Int) (value : α) : IdMap α :=
  if h : m.contains key = true then m
  else ⟨m.entries ++ [(key, value)], nodup_append_key value h⟩

/-- The table of the entries; of several for one key the last counts. -/
def ofList (entries : List (Int × α)) : IdMap α :=
  entries.foldl (fun m e => m.insert e.1 e.2) empty

/-- The entries whose key passes the test. -/
def filterKeys (test : Int → Bool) (m : IdMap α) : IdMap α :=
  ⟨m.entries.filter fun e => test e.1,
    (List.Sublist.map _ List.filter_sublist).nodup m.nodup_keys⟩

@[simp] theorem get?_empty (key : Int) : (empty : IdMap α).get? key = none := rfl

theorem find?_replace_self {key : Int} (value : α) {entries : List (Int × α)}
    (h : entries.any (·.1 == key) = true) :
    (replace key value entries).find? (·.1 == key) = some (key, value) := by
  induction entries with
  | nil => simp at h
  | cons e es ih =>
    by_cases he : e.1 = key
    · simp [replace, he]
    · have h' : es.any (·.1 == key) = true := by simpa [he] using h
      simpa [replace, he] using ih h'

theorem find?_replace_other {key other : Int} (value : α) (entries : List (Int × α))
    (h : other ≠ key) :
    (replace key value entries).find? (·.1 == other) = entries.find? (·.1 == other) := by
  induction entries with
  | nil => rfl
  | cons e es ih =>
    by_cases he : e.1 = key
    · have hk : ¬key = other := fun hk => h hk.symm
      simpa [replace, he, List.find?_cons, hk] using ih
    · have hc : replace key value (e :: es) = e :: replace key value es := by simp [replace, he]
      rw [hc, List.find?_cons, List.find?_cons, ih]

theorem isSome_get? (m : IdMap α) (key : Int) : (m.get? key).isSome = m.contains key := by
  rw [get?, Option.isSome_map, contains, Bool.eq_iff_iff, List.find?_isSome, List.any_eq_true]

theorem get?_append {m : IdMap α} {key : Int} (value : α) (h : ¬m.contains key = true)
    (other : Int) :
    (⟨m.entries ++ [(key, value)], nodup_append_key value h⟩ : IdMap α).get? other =
      if other = key then some value else m.get? other := by
  simp only [get?, List.find?_append]
  by_cases hk : other = key
  · have hnone : m.entries.find? (·.1 == key) = none :=
      List.find?_eq_none.2 fun e he hek => h (List.any_eq_true.2 ⟨e, he, hek⟩)
    simp [hk, hnone]
  · have hk' : ¬key = other := fun e => hk e.symm
    simp [hk, hk']

theorem get?_insert (m : IdMap α) (key : Int) (value : α) (other : Int) :
    (m.insert key value).get? other = if other = key then some value else m.get? other := by
  by_cases h : m.contains key = true
  · simp only [insert, h, dite_true, get?]
    by_cases hk : other = key
    · subst hk
      rw [find?_replace_self value h]
      simp
    · rw [find?_replace_other value m.entries hk]
      simp [hk]
  · rw [insert, dif_neg h, get?_append value h]

theorem get?_insertNew (m : IdMap α) (key : Int) (value : α) (other : Int) :
    (m.insertNew key value).get? other =
      if other = key ∧ m.get? key = none then some value else m.get? other := by
  by_cases h : m.contains key = true
  · have hs : m.get? key ≠ none := by
      rw [← isSome_get?] at h
      exact fun hn => by simp [hn] at h
    simp [insertNew, h, hs]
  · have hs : m.get? key = none := by
      rw [← isSome_get?] at h
      simpa using h
    rw [insertNew, dif_neg h, get?_append value h]
    simp [hs]

theorem get?_filterKeys (test : Int → Bool) (m : IdMap α) (key : Int) :
    (m.filterKeys test).get? key = if test key = true then m.get? key else none := by
  simp only [get?, filterKeys]
  induction m.entries with
  | nil => simp
  | cons e es ih =>
    by_cases he : e.1 = key
    · by_cases ht : test key = true
      · simp [he, ht]
      · simpa [he, ht] using ih
    · by_cases ht : test e.1 = true
      · simpa [he, ht, List.find?_cons] using ih
      · simpa [he, ht, List.find?_cons] using ih

theorem get?_eq_some_iff {m : IdMap α} {key : Int} {value : α} :
    m.get? key = some value ↔ (key, value) ∈ m.entries := by
  have hn := m.nodup_keys
  simp only [get?]
  generalize m.entries = entries at hn
  induction entries with
  | nil => simp
  | cons e es ih =>
    simp only [List.map_cons, List.nodup_cons] at hn
    by_cases he : e.1 = key
    · subst he
      simp only [List.find?_cons, beq_self_eq_true, Option.map_some, Option.some.injEq,
        List.mem_cons]
      constructor
      · rintro rfl
        exact .inl rfl
      · rintro (h | h)
        · rw [← h]
        · exact absurd (List.mem_map.2 ⟨_, h, rfl⟩) hn.1
    · have he' : ¬(key, value) = e := fun h => he (h ▸ rfl)
      rw [List.mem_cons, List.find?_cons_of_neg (by simpa using he)]
      exact (ih hn.2).trans (by simp [he'])

theorem entries_foldl_insert (m : IdMap α) (entries : List (Int × α))
    (h : ((m.entries ++ entries).map (·.1)).Nodup) :
    (entries.foldl (fun m e => m.insert e.1 e.2) m).entries = m.entries ++ entries := by
  induction entries generalizing m with
  | nil => simp
  | cons e es ih =>
    have hk : ¬m.contains e.1 = true := fun hc => by
      rw [List.map_append, List.nodup_append] at h
      exact h.2.2 e.1 (contains_iff_mem_keys.1 hc) e.1 (by simp) rfl
    have he : (m.insert e.1 e.2).entries = m.entries ++ [e] := by rw [insert, dif_neg hk]
    rw [List.foldl_cons, ih, he, List.append_assoc, List.singleton_append]
    rw [he, List.append_assoc]
    exact h

/-- Entries with different keys stay as they are. -/
theorem entries_ofList {entries : List (Int × α)} (h : (entries.map (·.1)).Nodup) :
    (ofList entries).entries = entries := by
  simpa [ofList, empty] using entries_foldl_insert empty entries (by simpa [empty] using h)

end IdMap

end Munch
