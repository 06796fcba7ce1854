/-
Stable sorting by insertion. `sort le xs` puts `xs` in the order `le`; elements that are equal in
that order stay as they were. `sortDistinct` also drops repeated elements.

`sort_perm` and `pairwise_sort` pin down `sort` up to the order of equal elements, `mem_sortDistinct`
and `pairwise_sortDistinct` pin down `sortDistinct`.
-/

namespace Munch

variable {α : Type}

/-- Puts `x` in front of the first element that is not below it. -/
def insertSorted (le : α → α → Bool) (x : α) : List α → List α
  | [] => [x]
  | y :: ys => if le x y then x :: y :: ys else y :: insertSorted le x ys

/-- The list in the order `le`, equal elements in their old order. -/
def sort (le : α → α → Bool) : List α → List α
  | [] => []
  | x :: xs => insertSorted le x (sort le xs)

/-- The different elements of a list of integers, in ascending order. -/
def sortDistinct (xs : List Int) : List Int :=
  sort (· ≤ ·) xs.eraseDups

theorem insertSorted_perm (le : α → α → Bool) (x : α) (ys : List α) :
    (insertSorted le x ys).Perm (x :: ys) := by
  induction ys with
  | nil => exact .refl _
  | cons y ys ih =>
    by_cases h : le x y = true
    · simp [insertSorted, h]
    · simpa [insertSorted, h] using (ih.cons y).trans (.swap x y ys)

theorem sort_perm (le : α → α → Bool) (xs : List α) : (sort le xs).Perm xs := by
  induction xs with
  | nil => exact .refl _
  | cons x xs ih => exact (insertSorted_perm le x _).trans (ih.cons x)

theorem mem_sort {le : α → α → Bool} {x : α} {xs : List α} : x ∈ sort le xs ↔ x ∈ xs :=
  (sort_perm le xs).mem_iff

theorem pairwise_insertSorted {le : α → α → Bool} (total : ∀ a b, le a b = true ∨ le b a = true)
    (trans : ∀ a b c, le a b = true → le b c = true → le a c = true) (x : α) {ys : List α}
    (h : ys.Pairwise (le · · = true)) : (insertSorted le x ys).Pairwise (le · · = true) := by
  induction ys with
  | nil => simp [insertSorted]
  | cons y ys ih =>
    rw [List.pairwise_cons] at h
    by_cases hxy : le x y = true
    · rw [insertSorted, if_pos hxy, List.pairwise_cons, List.pairwise_cons]
      refine ⟨fun z hz => ?_, h⟩
      rcases List.mem_cons.1 hz with rfl | hz
      · exact hxy
      · exact trans _ _ _ hxy (h.1 z hz)
    · rw [insertSorted, if_neg hxy, List.pairwise_cons]
      refine ⟨fun z hz => ?_, ih h.2⟩
      rcases List.mem_cons.1 ((insertSorted_perm le x ys).mem_iff.1 hz) with rfl | hz
      · exact (total _ _).resolve_left hxy
      · exact h.1 z hz

/-- A sorted list is in order, if the order is total. -/
theorem pairwise_sort {le : α → α → Bool} (total : ∀ a b, le a b = true ∨ le b a = true)
    (trans : ∀ a b c, le a b = true → le b c = true → le a c = true) (xs : List α) :
    (sort le xs).Pairwise (le · · = true) := by
  induction xs with
  | nil => exact .nil
  | cons x xs ih => exact pairwise_insertSorted total trans x ih

/-- What is in order stays as it is. -/
theorem sort_eq_self {le : α → α → Bool} {xs : List α} (h : xs.Pairwise (le · · = true)) :
    sort le xs = xs := by
  induction xs with
  | nil => rfl
  | cons x xs ih =>
    obtain ⟨hx, hxs⟩ := List.pairwise_cons.1 h
    rw [sort, ih hxs]
    cases xs with
    | nil => rfl
    | cons y ys => rw [insertSorted, if_pos (hx y (by simp))]

theorem nodup_eraseDups [BEq α] [LawfulBEq α] (xs : List α) : xs.eraseDups.Nodup := by
  generalize hn : xs.length = n
  induction n using Nat.strongRecOn generalizing xs with
  | _ n ih =>
    cases xs with
    | nil => simp
    | cons x xs =>
      rw [List.eraseDups_cons, List.nodup_cons]
      refine ⟨fun hx => by simp at hx, ih _ ?_ _ rfl⟩
      have := List.length_filter_le (fun b => !b == x) xs
      simp only [List.length_cons] at hn
      omega

/-- A list without repetitions is left as it is. -/
theorem eraseDups_eq_self [BEq α] [LawfulBEq α] {xs : List α} (h : xs.Nodup) :
    xs.eraseDups = xs := by
  induction xs with
  | nil => rfl
  | cons x xs ih =>
    obtain ⟨hnot, hnodup⟩ := List.nodup_cons.1 h
    have hfilter : xs.filter (fun y => !y == x) = xs :=
      List.filter_eq_self.2 fun y hy => by simpa using fun heq : y = x => hnot (heq ▸ hy)
    rw [List.eraseDups_cons, hfilter, ih hnodup]

/-- It is the same to leave elements out before or after repetitions are left out. -/
theorem eraseDups_filter [BEq α] [LawfulBEq α] (test : α → Bool) (xs : List α) :
    (xs.filter test).eraseDups = xs.eraseDups.filter test := by
  generalize hn : xs.length = n
  induction n using Nat.strongRecOn generalizing xs with
  | _ n ih =>
    cases xs with
    | nil => rfl
    | cons x xs =>
      have hlt : (xs.filter fun y => !y == x).length < n := by
        have := List.length_filter_le (fun y => !y == x) xs
        simp only [List.length_cons] at hn
        omega
      have hrest : ((xs.filter test).filter fun y => !y == x).eraseDups =
          (xs.filter fun y => !y == x).eraseDups.filter test := by
        rw [← ih _ hlt _ rfl, List.filter_filter, List.filter_filter]
        simp only [Bool.and_comm]
      rw [List.eraseDups_cons, List.filter_cons, List.filter_cons, ← hrest]
      split
      · rw [List.eraseDups_cons]
      · next hx =>
        refine congrArg _ (List.filter_eq_self.2 fun y hy => ?_).symm
        have hy := (List.mem_filter.1 hy).2
        simpa using fun heq : y = x => hx (heq ▸ hy)

/-- Repetitions may be left out on both sides first. -/
theorem eraseDups_append_eraseDups [BEq α] [LawfulBEq α] (xs ys : List α) :
    (xs.eraseDups ++ ys.eraseDups).eraseDups = (xs ++ ys).eraseDups := by
  rw [List.eraseDups_append, List.eraseDups_append, eraseDups_eq_self (nodup_eraseDups xs),
    List.removeAll, List.removeAll, eraseDups_filter, eraseDups_filter,
    eraseDups_eq_self (nodup_eraseDups ys)]
  refine congrArg _ (List.filter_congr fun y _ => ?_)
  rw [Bool.eq_iff_iff]
  simp

theorem mem_sortDistinct {x : Int} {xs : List Int} : x ∈ sortDistinct xs ↔ x ∈ xs := by
  rw [sortDistinct, mem_sort, List.mem_eraseDups]

theorem nodup_sortDistinct (xs : List Int) : (sortDistinct xs).Nodup :=
  (sort_perm _ _).nodup_iff.2 (nodup_eraseDups xs)

/-- The different elements come in strictly ascending order. -/
theorem pairwise_sortDistinct (xs : List Int) : (sortDistinct xs).Pairwise (· < ·) := by
  have hle : (sortDistinct xs).Pairwise (fun a b => decide (a ≤ b) = true) :=
    pairwise_sort (fun a b => by simp; omega) (fun a b c => by simp; omega) _
  refine (hle.and (nodup_sortDistinct xs)).imp fun {a b} h => ?_
  have := h.1
  have := h.2
  simp only [decide_eq_true_eq] at *
  omega

end Munch
