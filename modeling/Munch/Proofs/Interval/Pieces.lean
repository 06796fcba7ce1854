/-
Pieces cover what they were cut from, and have nothing in common. The bounds of the intervals cut the
integers into stretches, none of which holds a bound inside (`mem_between`), so an interval holds all
of a piece or nothing of it (`includes_of_mem_pieces`). Intervals that lie apart already are their own
pieces (`pieces_eq_self`).
-/
import Mathlib.Data.List.Nodup
import Mathlib.Data.List.Pairwise
import Mathlib.Data.List.Sort
import Munch.Interval.Pieces
import Munch.Proofs.Interval.Merge

namespace Munch.Interval

variable {r s : Interval} {rs ss : List Interval} {bs : List Int} {a b n : Int}

@[simp] theorem includes_iff : r.includes s = true ↔ r.lo ≤ s.lo ∧ s.hi ≤ r.hi := by
  simp [includes]

theorem mem_bounds : b ∈ bounds rs ↔ ∃ r ∈ rs, b = r.lo ∨ b = r.hi + 1 := by
  simp [bounds, mem_sortDistinct]

/-- A stretch between bounds starts and ends at bounds and has none inside. -/
theorem mem_between (hs : bs.Pairwise (· < ·)) (h : s ∈ between bs) :
    s.lo ≤ s.hi ∧ s.lo ∈ bs ∧ s.hi + 1 ∈ bs ∧ ∀ b ∈ bs, b ≤ s.lo ∨ s.hi < b := by
  induction bs with
  | nil => cases h
  | cons x bs ih =>
    cases bs with
    | nil => cases h
    | cons y bs =>
      obtain ⟨hx, hs⟩ := List.pairwise_cons.1 hs
      have hxy : x < y := hx y (by simp)
      rw [between, List.mem_cons] at h
      rcases h with rfl | h
      · refine ⟨by simp only; omega, by simp, by simp, fun b hb => ?_⟩
        simp only
        rcases List.mem_cons.1 hb with rfl | hb
        · omega
        · rcases List.mem_cons.1 hb with rfl | hb
          · omega
          · have := (List.pairwise_cons.1 hs).1 b hb
            omega
      · obtain ⟨hle, hlo, hhi, hb⟩ := ih hs h
        refine ⟨hle, List.mem_cons_of_mem _ hlo, List.mem_cons_of_mem _ hhi, fun b hmem => ?_⟩
        rcases List.mem_cons.1 hmem with rfl | hmem
        · have := hx s.lo hlo
          omega
        · exact hb b hmem

/-- Every integer from one bound up to another lies in a stretch. -/
theorem exists_mem_between (hs : bs.Pairwise (· < ·)) (ha : a ∈ bs) (hb : b ∈ bs) (han : a ≤ n)
    (hnb : n < b) : ∃ s ∈ between bs, s.lo ≤ n ∧ n ≤ s.hi := by
  induction bs generalizing a with
  | nil => cases ha
  | cons x bs ih =>
    obtain ⟨hx, hs⟩ := List.pairwise_cons.1 hs
    cases bs with
    | nil =>
      simp only [List.mem_singleton] at ha hb
      omega
    | cons y bs =>
      rw [between]
      have hxa : x ≤ a := by
        rcases List.mem_cons.1 ha with rfl | ha
        · omega
        · exact Int.le_of_lt (hx a ha)
      have hb' : b ∈ y :: bs := by
        rcases List.mem_cons.1 hb with rfl | hb
        · omega
        · exact hb
      by_cases hny : n < y
      · exact ⟨⟨x, y - 1⟩, by simp, by simp only; omega, by simp only; omega⟩
      · obtain ⟨s, hs, hn⟩ := ih hs List.mem_cons_self hb' (by omega)
        exact ⟨s, List.mem_cons_of_mem _ hs, hn⟩

theorem pairwise_between (hs : bs.Pairwise (· < ·)) :
    (between bs).Pairwise fun r s => r.hi < s.lo := by
  induction bs with
  | nil => exact .nil
  | cons x bs ih =>
    cases bs with
    | nil => exact .nil
    | cons y bs =>
      obtain ⟨-, hs⟩ := List.pairwise_cons.1 hs
      rw [between]
      refine List.pairwise_cons.2 ⟨fun s hmem => ?_, ih hs⟩
      obtain ⟨-, hlo, -, -⟩ := mem_between hs hmem
      simp only
      rcases List.mem_cons.1 hlo with hlo | hlo
      · omega
      · have := (List.pairwise_cons.1 hs).1 s.lo hlo
        omega

/-- No piece is empty, and no two have anything in common. -/
theorem pairwise_pieces (rs : List Interval) : (pieces rs).Pairwise fun r s => r.hi < s.lo :=
  (pairwise_between (pairwise_sortDistinct _)).filter _

/-- Of two different intervals of a list in order, one stands before the other. -/
theorem rel_or_rel_of_pairwise {R : Interval → Interval → Prop} (h : rs.Pairwise R) (hr : r ∈ rs)
    (hs : s ∈ rs) (hne : r ≠ s) : R r s ∨ R s r := by
  have : Std.Symm fun r s => R r s ∨ R s r := ⟨fun _ _ => Or.symm⟩
  have hapart := h.imp fun {r s} hrs => (Or.inl hrs : R r s ∨ R s r)
  exact hapart.forall hr hs hne

/-- Different pieces have nothing in common. -/
theorem apart_of_mem_pieces (hr : r ∈ pieces rs) (hs : s ∈ pieces rs) (hne : r ≠ s) :
    r.hi < s.lo ∨ s.hi < r.lo :=
  rel_or_rel_of_pairwise (pairwise_pieces rs) hr hs hne

theorem le_of_mem_pieces (h : s ∈ pieces rs) : s.lo ≤ s.hi :=
  (mem_between (pairwise_sortDistinct _) (List.mem_filter.1 h).1).1

/-- An interval that holds an integer of a stretch holds all of it. -/
theorem includes_of_mem_between (hr : r ∈ rs) (hs : s ∈ between (bounds rs))
    (hsn : s.lo ≤ n ∧ n ≤ s.hi) (hrn : r.lo ≤ n ∧ n ≤ r.hi) : r.includes s = true := by
  obtain ⟨-, -, -, hb⟩ := mem_between (pairwise_sortDistinct _) hs
  have hlo := hb r.lo (mem_bounds.2 ⟨r, hr, .inl rfl⟩)
  have hhi := hb (r.hi + 1) (mem_bounds.2 ⟨r, hr, .inr rfl⟩)
  rw [includes_iff]
  omega

theorem includes_of_mem_pieces (hr : r ∈ rs) (hs : s ∈ pieces rs) (hsn : s.lo ≤ n ∧ n ≤ s.hi)
    (hrn : r.lo ≤ n ∧ n ≤ r.hi) : r.includes s = true :=
  includes_of_mem_between hr (List.mem_filter.1 hs).1 hsn hrn

/-- Every integer of an interval lies in a piece of it. -/
theorem exists_mem_cut (hr : r ∈ rs) (hrn : r.lo ≤ n ∧ n ≤ r.hi) :
    ∃ s ∈ r.cut (pieces rs), s.lo ≤ n ∧ n ≤ s.hi := by
  obtain ⟨s, hs, hsn⟩ := exists_mem_between (pairwise_sortDistinct _)
    (mem_bounds.2 ⟨r, hr, .inl rfl⟩) (mem_bounds.2 ⟨r, hr, .inr rfl⟩) hrn.1
    (Int.lt_add_one_of_le hrn.2)
  have hinc := includes_of_mem_between hr hs hsn hrn
  exact ⟨s, List.mem_filter.2 ⟨List.mem_filter.2 ⟨hs, List.any_eq_true.2 ⟨r, hr, hinc⟩⟩, hinc⟩, hsn⟩

/-! ## Intervals that lie apart -/

/-- A piece of intervals that lie apart is one of them, as no bound lies inside of another one. -/
theorem mem_of_mem_pieces (h : rs.Pairwise fun r s => r.hi < s.lo) (hle : ∀ r ∈ rs, r.lo ≤ r.hi)
    (hs : s ∈ pieces rs) : s ∈ rs := by
  obtain ⟨hbetween, hin⟩ := List.mem_filter.1 hs
  obtain ⟨r, hr, hrs⟩ := List.any_eq_true.1 hin
  rw [includes_iff] at hrs
  obtain ⟨hne, hlo, hhi, -⟩ := mem_between (pairwise_sortDistinct _) hbetween
  obtain ⟨t, ht, htlo⟩ := mem_bounds.1 hlo
  obtain ⟨u, hu, huhi⟩ := mem_bounds.1 hhi
  have htle := hle t ht
  have hule := hle u hu
  have hslo : s.lo = r.lo := by
    by_cases hrt : r = t
    · subst hrt
      omega
    · have := rel_or_rel_of_pairwise h hr ht hrt
      omega
  have hshi : s.hi = r.hi := by
    by_cases hru : r = u
    · subst hru
      omega
    · have := rel_or_rel_of_pairwise h hr hu hru
      omega
  have heq : s = r := by
    cases s
    cases r
    exact congrArg₂ Interval.mk hslo hshi
  exact heq ▸ hr

/-- Intervals that lie apart stand in the one order there is for them. -/
theorem eq_of_mem_iff (hrs : rs.Pairwise fun r s => r.hi < s.lo) (hrle : ∀ r ∈ rs, r.lo ≤ r.hi)
    (hss : ss.Pairwise fun r s => r.hi < s.lo) (hsle : ∀ s ∈ ss, s.lo ≤ s.hi)
    (h : ∀ r, r ∈ rs ↔ r ∈ ss) : rs = ss := by
  have hlo {qs : List Interval} (hq : qs.Pairwise fun r s => r.hi < s.lo)
      (hqle : ∀ q ∈ qs, q.lo ≤ q.hi) : qs.Pairwise fun r s => r.lo < s.lo :=
    hq.imp_of_mem fun hr _ hrs => Int.lt_of_le_of_lt (hqle _ hr) hrs
  have : Std.Irrefl fun r s : Interval => r.lo < s.lo := ⟨fun r => Int.lt_irrefl r.lo⟩
  have : Std.Antisymm fun r s : Interval => r.lo < s.lo :=
    ⟨fun _ _ hrs hsr => absurd hrs (Int.lt_asymm hsr)⟩
  exact (hlo hrs hrle).eq_of_mem_iff (hlo hss hsle) h

/-- Intervals that lie apart are not cut. -/
theorem pieces_eq_self (h : rs.Pairwise fun r s => r.hi < s.lo) (hle : ∀ r ∈ rs, r.lo ≤ r.hi) :
    pieces rs = rs := by
  refine eq_of_mem_iff (pairwise_pieces rs) (fun _ => le_of_mem_pieces) h hle
    fun s => ⟨mem_of_mem_pieces h hle, fun hs => ?_⟩
  obtain ⟨t, ht, htlo⟩ := exists_mem_cut hs ⟨Int.le_refl _, hle s hs⟩
  have hpiece := (List.mem_filter.1 ht).1
  by_cases hst : s = t
  · exact hst ▸ hpiece
  · have := rel_or_rel_of_pairwise h hs (mem_of_mem_pieces h hle hpiece) hst
    have := hle s hs
    omega

/-- Such an interval is cut into nothing but itself. -/
theorem cut_eq_singleton (h : rs.Pairwise fun r s => r.hi < s.lo) (hle : ∀ r ∈ rs, r.lo ≤ r.hi)
    (hr : r ∈ rs) : r.cut rs = [r] := by
  have hinc : ∀ s ∈ rs, r.includes s = (s == r) := by
    intro s hs
    rw [Bool.eq_iff_iff, includes_iff, beq_iff_eq]
    constructor
    · intro hrs
      by_contra hne
      have := rel_or_rel_of_pairwise h hs hr hne
      have := hle s hs
      omega
    · rintro rfl
      exact ⟨Int.le_refl _, Int.le_refl _⟩
  have hnodup : rs.Nodup := h.imp_of_mem fun {r s} hr _ hrs heq => by
    have := hle r hr
    subst heq
    omega
  rw [cut, List.filter_congr hinc, List.filter_beq, List.count_eq_one_of_mem hnodup hr]
  rfl

end Munch.Interval
