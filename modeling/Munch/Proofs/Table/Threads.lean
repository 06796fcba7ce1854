/-
What the steps that are followed side by side do on a byte.
-/
import Munch.Table.Threads

namespace Munch

namespace Table

variable {table : Table} {active : List StepId} {b : UInt8} {t : Transition}

theorem mem_taken : t ∈ table.taken active b ↔ ∃ s ∈ active, ∃ cases,
    table.steps.get? s = some cases ∧ ∃ c ∈ cases, c.range.contains b.toNat = true ∧ c.transition = t := by
  unfold taken
  rw [List.mem_flatMap]
  refine exists_congr fun s => and_congr_right fun _ => ?_
  cases table.steps.get? s with
  | none => simp
  | some cases => simp [and_assoc]

@[simp] theorem following_append (ts us : List Transition) :
    following (ts ++ us) = following ts ++ following us := List.filterMap_append

@[simp] theorem accepted_append (ts us : List Transition) :
    accepted (ts ++ us) = accepted ts ++ accepted us := List.filterMap_append

@[simp] theorem following_go (s : StepId) (conditions : List Condition) :
    following [.go s conditions] = [s] := rfl

@[simp] theorem following_accept (k : PatternIndex) : following [.accept k] = [] := rfl

@[simp] theorem accepted_go (s : StepId) (conditions : List Condition) :
    accepted [.go s conditions] = [] := rfl

@[simp] theorem accepted_accept (k : PatternIndex) : accepted [.accept k] = [k] := rfl

theorem mem_following {ts : List Transition} {s : StepId} :
    s ∈ following ts ↔ ∃ conditions, .go s conditions ∈ ts := by
  unfold following
  rw [List.mem_filterMap]
  constructor
  · intro h
    obtain ⟨t, ht, hs⟩ := h
    cases t with
    | accept => cases hs
    | go target conditions =>
      obtain rfl := Option.some.inj hs
      exact ⟨conditions, ht⟩
  · intro h
    obtain ⟨conditions, ht⟩ := h
    exact ⟨_, ht, rfl⟩

theorem mem_accepted {ts : List Transition} {k : PatternIndex} :
    k ∈ accepted ts ↔ .accept k ∈ ts := by
  unfold accepted
  rw [List.mem_filterMap]
  constructor
  · intro h
    obtain ⟨t, ht, hk⟩ := h
    cases t with
    | go => cases hk
    | accept => exact Option.some.inj hk ▸ ht
  · exact fun h => ⟨_, h, rfl⟩

/-! Where the same transitions are taken, the same steps follow and the same patterns are accepted. -/

theorem mem_following_congr {ts us : List Transition} (h : ∀ t, t ∈ ts ↔ t ∈ us) (s : StepId) :
    s ∈ following ts ↔ s ∈ following us := by
  simp only [mem_following, h]

theorem mem_accepted_congr {ts us : List Transition} (h : ∀ t, t ∈ ts ↔ t ∈ us)
    (k : PatternIndex) : k ∈ accepted ts ↔ k ∈ accepted us := by
  simp only [mem_accepted, h]

theorem following_eq_nil_congr {ts us : List Transition} (h : ∀ t, t ∈ ts ↔ t ∈ us) :
    following ts = [] ↔ following us = [] := by
  simp only [List.eq_nil_iff_forall_not_mem, mem_following_congr h]

end Table

end Munch
