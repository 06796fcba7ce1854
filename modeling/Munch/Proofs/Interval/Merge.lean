/-
What merging and complementing do to the integers that a list of intervals covers. `covers_merge`
and `covers_complement` give the covered integers, `isSpaced_merge` and `isSpaced_complement` the
canonical form: the intervals come in ascending order with a gap between neighbours. A list in that
form is not changed (`merge_eq_self`).
-/
import Munch.Interval.Merge

namespace Munch.Interval

variable {r s : Interval} {rs : List Interval} {n lo hi : Int}

/-- The interval is not empty and lies between the bounds. -/
def Within (lo hi : Int) (r : Interval) : Prop :=
  lo ≤ r.lo ∧ r.lo ≤ r.hi ∧ r.hi ≤ hi

instance (lo hi : Int) (r : Interval) : Decidable (Within lo hi r) :=
  inferInstanceAs (Decidable (_ ∧ _ ∧ _))

/-- In ascending order, with an uncovered integer between two intervals. -/
def IsSpaced (rs : List Interval) : Prop :=
  rs.Pairwise fun r s => r.hi + 1 < s.lo

@[simp] theorem contains_iff : r.contains n = true ↔ r.lo ≤ n ∧ n ≤ r.hi := by
  simp [contains]

theorem covers_iff : covers rs n = true ↔ ∃ r ∈ rs, r.lo ≤ n ∧ n ≤ r.hi := by
  simp [covers]

@[simp] theorem covers_nil : covers [] n = false := rfl

@[simp] theorem covers_cons :
    covers (r :: rs) n = true ↔ (r.lo ≤ n ∧ n ≤ r.hi) ∨ covers rs n = true := by
  simp [covers]

theorem covers_perm {rs' : List Interval} (h : rs.Perm rs') : covers rs n = covers rs' n := by
  rw [Bool.eq_iff_iff, covers_iff, covers_iff]
  simp only [h.mem_iff]

theorem le_total (r s : Interval) : le r s = true ∨ le s r = true := by
  simp only [le, Bool.or_eq_true, Bool.and_eq_true, decide_eq_true_eq, beq_iff_eq]
  omega

theorem le_trans (r s t : Interval) (h : le r s = true) (h' : le s t = true) : le r t = true := by
  simp only [le, Bool.or_eq_true, Bool.and_eq_true, decide_eq_true_eq, beq_iff_eq] at *
  omega

theorem lo_le_of_le (h : le r s = true) : r.lo ≤ s.lo := by
  simp only [le, Bool.or_eq_true, Bool.and_eq_true, decide_eq_true_eq, beq_iff_eq] at h
  omega

/-- Sorted intervals come in the order of their lower bounds. -/
theorem pairwise_lo_sort (rs : List Interval) : (sort le rs).Pairwise fun r s => r.lo ≤ s.lo :=
  (pairwise_sort le_total le_trans rs).imp lo_le_of_le

/-! ## Merging -/

/-- The two are ascending and so is what follows: still so when they have been joined. -/
theorem pairwise_lo_join (h : (r :: s :: rs).Pairwise fun r s => r.lo ≤ s.lo) :
    ((⟨r.lo, max r.hi s.hi⟩ : Interval) :: rs).Pairwise fun r s => r.lo ≤ s.lo := by
  rw [List.pairwise_cons] at h
  exact List.pairwise_cons.2 ⟨fun t ht => h.1 t (by simp [ht]), (List.pairwise_cons.1 h.2).2⟩

theorem covers_joinSorted (h : (r :: rs).Pairwise fun r s => r.lo ≤ s.lo) :
    covers (joinSorted r rs) n = covers (r :: rs) n := by
  induction rs generalizing r with
  | nil => rfl
  | cons s rest ih =>
    have hs := (List.pairwise_cons.1 h).1 s (by simp)
    rw [joinSorted]
    split
    · rw [Bool.eq_iff_iff, covers_cons, covers_cons, ih (List.pairwise_cons.1 h).2]
    · -- the two overlap or touch, so that nothing is left out in between
      rw [ih (pairwise_lo_join h), Bool.eq_iff_iff, covers_cons, covers_cons, covers_cons,
        ← or_assoc]
      refine or_congr_left ?_
      simp only
      omega

theorem lo_le_of_mem_joinSorted (h : (r :: rs).Pairwise fun r s => r.lo ≤ s.lo) :
    ∀ s ∈ joinSorted r rs, r.lo ≤ s.lo := by
  induction rs generalizing r with
  | nil => simp [joinSorted]
  | cons s rest ih =>
    have hs := (List.pairwise_cons.1 h).1 s (by simp)
    rw [joinSorted]
    split
    · intro t ht
      rcases List.mem_cons.1 ht with rfl | ht
      · exact Int.le_refl _
      · exact Int.le_trans hs (ih (List.pairwise_cons.1 h).2 t ht)
    · exact ih (pairwise_lo_join h)

theorem isSpaced_joinSorted (h : (r :: rs).Pairwise fun r s => r.lo ≤ s.lo) :
    IsSpaced (joinSorted r rs) := by
  induction rs generalizing r with
  | nil => simp [joinSorted, IsSpaced]
  | cons s rest ih =>
    rw [joinSorted]
    split
    · next hgap =>
      have h' := (List.pairwise_cons.1 h).2
      exact List.pairwise_cons.2
        ⟨fun t ht => Int.lt_of_lt_of_le hgap (lo_le_of_mem_joinSorted h' t ht), ih h'⟩
    · exact ih (pairwise_lo_join h)

/-- What holds of all intervals, and of any two of them joined, holds of what comes out. -/
theorem forall_joinSorted {P : Interval → Prop}
    (hjoin : ∀ r s, P r → P s → P ⟨r.lo, max r.hi s.hi⟩) (h : ∀ s ∈ r :: rs, P s) :
    ∀ s ∈ joinSorted r rs, P s := by
  induction rs generalizing r with
  | nil => exact h
  | cons s rest ih =>
    have hr := h r (by simp)
    have hs := h s (by simp)
    rw [joinSorted]
    split
    · intro t ht
      rcases List.mem_cons.1 ht with rfl | ht
      · exact hr
      · exact ih (fun t ht => h t (by simp [ht])) t ht
    · refine ih fun t ht => ?_
      rcases List.mem_cons.1 ht with rfl | ht
      · exact hjoin r s hr hs
      · exact h t (by simp [ht])

/-- Merging covers the same integers, whatever the list. -/
theorem covers_merge (rs : List Interval) (n : Int) : covers (merge rs) n = covers rs n := by
  have hp := pairwise_lo_sort rs
  rw [merge, ← covers_perm (sort_perm le rs)]
  split
  · next hs => rw [hs]
  · next r rest hs => rw [hs] at hp ⊢; exact covers_joinSorted hp

theorem isSpaced_merge (rs : List Interval) : IsSpaced (merge rs) := by
  have hp := pairwise_lo_sort rs
  rw [merge]
  split
  · exact .nil
  · next r rest hs => rw [hs] at hp; exact isSpaced_joinSorted hp

theorem forall_merge {P : Interval → Prop} (hjoin : ∀ r s, P r → P s → P ⟨r.lo, max r.hi s.hi⟩)
    (h : ∀ r ∈ rs, P r) : ∀ r ∈ merge rs, P r := by
  rw [merge]
  split
  · simp
  · next r rest hs =>
    exact forall_joinSorted hjoin fun s hs' => h s (mem_sort.1 (hs ▸ hs'))

theorem within_merge (h : ∀ r ∈ rs, Within lo hi r) : ∀ r ∈ merge rs, Within lo hi r := by
  refine forall_merge (fun r s hr hs => ?_) h
  simp only [Within] at *
  omega

/-- No empty intervals come from such as are not empty. -/
theorem le_of_mem_merge (h : ∀ r ∈ rs, r.lo ≤ r.hi) : ∀ r ∈ merge rs, r.lo ≤ r.hi := by
  refine forall_merge (fun r s hr _ => ?_) h
  exact Int.le_trans hr (Int.le_max_left r.hi s.hi)

theorem joinSorted_eq_self (h : IsSpaced (r :: rs)) : joinSorted r rs = r :: rs := by
  induction rs generalizing r with
  | nil => rfl
  | cons s rest ih =>
    have hrest := List.pairwise_cons.1 h
    rw [joinSorted, if_pos (hrest.1 s (by simp)), ih hrest.2]

/-- Merging does not change what is merged already. -/
theorem merge_eq_self (h : IsSpaced rs) (hle : ∀ r ∈ rs, r.lo ≤ r.hi) : merge rs = rs := by
  have hsorted : rs.Pairwise fun r s => le r s = true := by
    refine h.imp_of_mem fun {r s} hr _ hrs => ?_
    have := hle r hr
    simp only [le, Bool.or_eq_true, decide_eq_true_eq]
    exact .inl (by omega)
  rw [merge, sort_eq_self hsorted]
  cases rs with
  | nil => rfl
  | cons r rest => exact joinSorted_eq_self h

/-! ## Complements -/

/-- The gaps from `start` on are what is not covered there. -/
theorem covers_gapsFrom {start : Int} (hs : IsSpaced rs) (hw : ∀ r ∈ rs, Within start maxByte r) :
    covers (gapsFrom start rs) n = true ↔ start ≤ n ∧ n ≤ maxByte ∧ ¬covers rs n = true := by
  induction rs generalizing start with
  | nil =>
    rw [gapsFrom]
    split
    · simp
    · simp only [covers_nil, Bool.false_eq_true, not_false_eq_true, and_true, false_iff]
      omega
  | cons r rest ih =>
    rw [IsSpaced, List.pairwise_cons] at hs
    have hr := hw r (by simp)
    have hw' : ∀ s ∈ rest, Within (r.hi + 1) maxByte s := fun s hmem =>
      ⟨Int.le_of_lt (hs.1 s hmem), (hw s (by simp [hmem])).2⟩
    -- behind the first interval nothing of the rest is covered
    have hlow : covers rest n = true → r.hi < n := fun hc => by
      obtain ⟨s, hmem, hlo, -⟩ := covers_iff.1 hc
      have := (hw' s hmem).1
      omega
    simp only [Within] at hr
    rw [gapsFrom]
    split
    · rw [covers_cons, covers_cons, ih hs.2 hw']
      grind
    · rw [covers_cons, ih hs.2 hw']
      grind

theorem isSpaced_gapsFrom {start : Int} (hs : IsSpaced rs)
    (hw : ∀ r ∈ rs, Within start maxByte r) :
    IsSpaced (gapsFrom start rs) ∧ ∀ r ∈ gapsFrom start rs, Within start maxByte r := by
  induction rs generalizing start with
  | nil =>
    rw [gapsFrom]
    split
    · next h => exact ⟨by simp [IsSpaced], by simpa [Within] using h⟩
    · exact ⟨.nil, by simp⟩
  | cons r rest ih =>
    rw [IsSpaced, List.pairwise_cons] at hs
    have hr := hw r (by simp)
    obtain ⟨hsp, hwi⟩ := @ih (r.hi + 1) hs.2 fun s hmem =>
      ⟨Int.le_of_lt (hs.1 s hmem), (hw s (by simp [hmem])).2⟩
    simp only [Within] at hr hwi ⊢
    rw [gapsFrom]
    split
    · refine ⟨List.pairwise_cons.2 ⟨fun t ht => ?_, hsp⟩, fun t ht => ?_⟩
      · have := hwi t ht
        simp only
        omega
      · rcases List.mem_cons.1 ht with rfl | ht
        · simp only
          omega
        · have := hwi t ht
          omega
    · refine ⟨hsp, fun t ht => ?_⟩
      have := hwi t ht
      omega

/-- The complement covers the bytes that the list does not. -/
theorem covers_complement (h : ∀ r ∈ rs, Within minByte maxByte r) :
    covers (complement rs) n = true ↔ minByte ≤ n ∧ n ≤ maxByte ∧ ¬covers rs n = true := by
  rw [complement, covers_gapsFrom (isSpaced_merge rs) (within_merge h), covers_merge]

theorem isSpaced_complement (h : ∀ r ∈ rs, Within minByte maxByte r) :
    IsSpaced (complement rs) ∧ ∀ r ∈ complement rs, Within minByte maxByte r :=
  isSpaced_gapsFrom (isSpaced_merge rs) (within_merge h)

end Munch.Interval
