/-
What the entries of a table are after one was set, or added that was not there yet.
-/
import Munch.Table.IdMap

namespace Munch

theorem ne_none_of_le {α : Type} {o o' : Option α} (h : ∀ a, o = some a → o' = some a)
    (ho : o ≠ none) : o' ≠ none := by
  obtain ⟨a, ha⟩ := Option.ne_none_iff_exists'.1 ho
  rw [h a ha]
  exact Option.some_ne_none a

namespace IdMap

variable {α : Type} {m : IdMap α} {key other : Int} {value a : α}

theorem contains_iff : m.contains key = true ↔ m.get? key ≠ none := by
  rw [← isSome_get?, Option.isSome_iff_ne_none]

theorem mem_keys : key ∈ m.keys ↔ m.get? key ≠ none := by
  rw [← contains_iff_mem_keys, contains_iff]

theorem length_keys (m : IdMap α) : m.keys.length = m.size :=
  List.length_map _

/-- A new entry leaves the others as they are. -/
theorem get?_insertNew_of_some (h : m.get? other = some a) :
    (m.insertNew key value).get? other = some a := by
  rw [get?_insertNew]
  split
  · next hk =>
    rw [hk.1, hk.2] at h
    cases h
  · exact h

theorem get?_insertNew_eq_some (h : (m.insertNew key value).get? other = some a) :
    m.get? other = some a ∨ other = key ∧ a = value ∧ m.get? key = none := by
  rw [get?_insertNew] at h
  split at h
  · next hk => exact .inr ⟨hk.1, (Option.some.inj h).symm, hk.2⟩
  · exact .inl h

theorem get?_insertNew_self : (m.insertNew key value).get? key ≠ none := by
  rw [get?_insertNew]
  split
  · exact Option.some_ne_none value
  · next hk => exact fun hn => hk ⟨rfl, hn⟩

theorem get?_insert_self : (m.insert key value).get? key = some value := by
  rw [get?_insert, if_pos rfl]

theorem get?_insert_of_ne (h : other ≠ key) : (m.insert key value).get? other = m.get? other := by
  rw [get?_insert, if_neg h]

theorem get?_insert_eq_some (h : (m.insert key value).get? other = some a) :
    other = key ∧ a = value ∨ other ≠ key ∧ m.get? other = some a := by
  rw [get?_insert] at h
  split at h
  · next hk => exact .inl ⟨hk, (Option.some.inj h).symm⟩
  · next hk => exact .inr ⟨hk, h⟩

/-- A table is the table of its entries. -/
theorem ofList_entries (m : IdMap α) : ofList m.entries = m := by
  have hentries := entries_ofList m.nodup_keys
  cases hm : ofList m.entries
  cases m
  simpa [hm] using hentries

/-- A new entry comes behind all others. -/
theorem entries_insert_of_none (h : m.get? key = none) :
    (m.insert key value).entries = m.entries ++ [(key, value)] := by
  rw [insert, dif_neg fun hc => contains_iff.1 hc h]

theorem filterKeys_filterKeys (test : Int → Bool) (m : IdMap α) :
    (m.filterKeys test).filterKeys test = m.filterKeys test := by
  simp [filterKeys, List.filter_filter]

theorem get?_insert_ne_none (h : m.get? other ≠ none) : (m.insert key value).get? other ≠ none := by
  rw [get?_insert]
  split
  · exact Option.some_ne_none value
  · exact h

end IdMap

end Munch
