/-
The least number of a set as an option, which is absent if the set is empty.
-/

namespace Munch

/-- The option holds the least of the numbers, or there is none. -/
def Least (S : Int → Prop) : Option Int → Prop
  | none => ∀ i, ¬ S i
  | some k => S k ∧ ∀ i, S i → k ≤ i

theorem Least.congr {S T : Int → Prop} {o : Option Int} (h : Least S o) (hST : ∀ i, S i ↔ T i) :
    Least T o := by
  cases o with
  | none => exact fun i hi => h i ((hST i).2 hi)
  | some k => exact ⟨(hST k).1 h.1, fun i hi => h.2 i ((hST i).2 hi)⟩

/-- It is enough to look at some of the numbers if every other one is above one of them. -/
theorem Least.of_subset {S T : Int → Prop} {o : Option Int} (h : Least T o) (hTS : ∀ i, T i → S i)
    (hle : ∀ i, S i → ∃ j, T j ∧ j ≤ i) : Least S o := by
  cases o with
  | none =>
    intro i hi
    obtain ⟨j, hj, -⟩ := hle i hi
    exact h j hj
  | some k =>
    refine ⟨hTS k h.1, fun i hi => ?_⟩
    obtain ⟨j, hj, hji⟩ := hle i hi
    exact Int.le_trans (h.2 j hj) hji

theorem least_self (o : Option Int) : Least (fun k => o = some k) o := by
  cases o with
  | none => simp [Least]
  | some k => exact ⟨rfl, fun i hi => by simp_all⟩

theorem Least.eq_some {o : Option Int} {k : Int} (h : Least (fun i => i = k) o) : o = some k := by
  cases o with
  | none => exact absurd rfl (h k)
  | some i => exact congrArg some h.1

theorem Least.unique {S : Int → Prop} {o o' : Option Int} (h : Least S o) (h' : Least S o') :
    o = o' := by
  cases o with
  | none =>
    cases o' with
    | none => rfl
    | some k => exact absurd h'.1 (h k)
  | some k =>
    cases o' with
    | none => exact absurd h.1 (h' k)
    | some l => exact congrArg some (Int.le_antisymm (h.2 l h'.1) (h'.2 k h.1))

theorem least_min? (xs : List Int) : Least (· ∈ xs) xs.min? := by
  cases hm : xs.min? with
  | none => simp [List.min?_eq_none_iff.1 hm, Least]
  | some k => exact List.min?_eq_some_iff.1 hm

end Munch
