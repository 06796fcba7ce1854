/-
Cutting intervals at their bounds is an exact partition. The pieces that are cut from an interval lie
next to each other and fill it from one end to the other (`tiles_cut`), so two intervals share whole
pieces and nothing else (`partitions_pieces`).
-/
import Munch.Proofs.Interval.Pieces

namespace Munch.Interval

variable {r s : Interval} {rs ps : List Interval} {lo hi n : Int}

/-- The intervals fill the integers from `lo` on up to and without `hi`: each starts where the one
before has ended. -/
def Tiles (lo hi : Int) : List Interval → Prop
  | [] => lo = hi
  | s :: ps => s.lo = lo ∧ s.lo ≤ s.hi ∧ Tiles (s.hi + 1) hi ps

theorem Tiles.le (h : Tiles lo hi ps) : lo ≤ hi := by
  induction ps generalizing lo with
  | nil => exact Int.le_of_eq h
  | cons s ps ih =>
    obtain ⟨rfl, hs, hrest⟩ := h
    have hle := ih hrest
    omega

/-- Tiles cover what they fill, and nothing else. -/
theorem Tiles.covers_iff (h : Tiles lo hi ps) : covers ps n = true ↔ lo ≤ n ∧ n < hi := by
  induction ps generalizing lo with
  | nil =>
    obtain rfl : lo = hi := h
    simp only [covers_nil, Bool.false_eq_true, false_iff]
    omega
  | cons s ps ih =>
    obtain ⟨rfl, hs, hrest⟩ := h
    have hle := hrest.le
    have hcovers := ih hrest
    rw [covers_cons, hcovers]
    omega

/-- Ascending intervals that cover an interval and stay inside of it are tiles of it. -/
theorem tiles_of_covers (hps : ps.Pairwise fun r s => r.hi < s.lo)
    (hin : ∀ s ∈ ps, lo ≤ s.lo ∧ s.lo ≤ s.hi ∧ s.hi ≤ hi)
    (hall : ∀ n, lo ≤ n → n ≤ hi → covers ps n = true) (hlo : lo ≤ hi + 1) :
    Tiles lo (hi + 1) ps := by
  induction ps generalizing lo with
  | nil =>
    by_contra hne
    have hcovers := hall lo (Int.le_refl _) (by simp only [Tiles] at hne; omega)
    simp at hcovers
  | cons s ps ih =>
    obtain ⟨hs, hps⟩ := List.pairwise_cons.1 hps
    obtain ⟨hlos, hle, hhi⟩ := hin s (by simp)
    have hstart : s.lo = lo := by
      rcases covers_cons.1 (hall lo (Int.le_refl _) (by omega)) with hlo | hrest
      · omega
      · obtain ⟨t, ht, htlo, -⟩ := Interval.covers_iff.1 hrest
        have := hs t ht
        omega
    refine ⟨hstart, hle, ih hps (fun t ht => ?_) (fun n hn hnhi => ?_) (by omega)⟩
    · have := hs t ht
      have := hin t (List.mem_cons_of_mem s ht)
      omega
    · rcases covers_cons.1 (hall n (by omega) hnhi) with hns | hrest
      · omega
      · exact hrest

theorem covers_pieces (rs : List Interval) (n : Int) : covers (pieces rs) n = covers rs n := by
  rw [Bool.eq_iff_iff, covers_iff, covers_iff]
  constructor
  · intro h
    obtain ⟨s, hs, hsn⟩ := h
    obtain ⟨r, hr, hrs⟩ := List.any_eq_true.1 (List.mem_filter.1 hs).2
    rw [includes_iff] at hrs
    exact ⟨r, hr, by omega, by omega⟩
  · intro h
    obtain ⟨r, hr, hrn⟩ := h
    obtain ⟨s, hs, hsn⟩ := exists_mem_cut hr hrn
    exact ⟨s, (List.mem_filter.1 hs).1, hsn⟩

theorem overlaps_eq_false_iff : r.overlaps s = false ↔ s.hi < r.lo ∨ r.hi < s.lo := by
  simp only [overlaps, Bool.and_eq_false_iff, decide_eq_false_iff_not]
  omega

/-- The pieces of an interval fill it. -/
theorem tiles_cut (hr : r ∈ rs) (hle : r.lo ≤ r.hi) :
    Tiles r.lo (r.hi + 1) (r.cut (pieces rs)) := by
  refine tiles_of_covers ((pairwise_pieces rs).filter _) (fun s hs => ?_) (fun n hlo hhi => ?_)
    (by omega)
  · obtain ⟨hpiece, hin⟩ := List.mem_filter.1 hs
    rw [includes_iff] at hin
    exact ⟨hin.1, le_of_mem_pieces hpiece, hin.2⟩
  · exact covers_iff.2 (exists_mem_cut hr ⟨hlo, hhi⟩)

/-- What is cut from a list that starts inside of the interval stands at its front. -/
theorem isPrefix_cut (hps : ps.Pairwise fun r s => r.hi < s.lo) (hle : ∀ s ∈ ps, s.lo ≤ s.hi)
    (hlo : ∀ s ∈ ps, r.lo ≤ s.lo) : r.cut ps <+: ps := by
  induction ps with
  | nil => exact List.prefix_rfl
  | cons s ps ih =>
    obtain ⟨hs, hps⟩ := List.pairwise_cons.1 hps
    rw [cut, List.filter_cons]
    split
    · refine List.cons_prefix_cons.2 ⟨rfl, ih hps (fun t ht => ?_) fun t ht => ?_⟩
      · exact hle t (List.mem_cons_of_mem s ht)
      · exact hlo t (List.mem_cons_of_mem s ht)
    · next hout =>
      -- it reaches beyond the interval, and the others lie behind it
      rw [includes_iff] at hout
      have hslo := hlo s (by simp)
      have hnone : ps.filter r.includes = [] := by
        rw [List.filter_eq_nil_iff]
        intro t ht hin
        rw [includes_iff] at hin
        have := hs t ht
        have := hle t (List.mem_cons_of_mem s ht)
        omega
      rw [hnone]
      exact List.nil_prefix

/-- What is cut from ascending intervals stands together. -/
theorem isInfix_cut (hps : ps.Pairwise fun r s => r.hi < s.lo) (hle : ∀ s ∈ ps, s.lo ≤ s.hi) :
    r.cut ps <:+: ps := by
  induction ps with
  | nil => exact List.infix_rfl
  | cons s ps ih =>
    have hps' := (List.pairwise_cons.1 hps).2
    have hle' : ∀ t ∈ ps, t.lo ≤ t.hi := fun t ht => hle t (List.mem_cons_of_mem s ht)
    by_cases hin : r.includes s = true
    · refine (isPrefix_cut hps hle fun t ht => ?_).isInfix
      rw [includes_iff] at hin
      rcases List.mem_cons.1 ht with rfl | ht
      · exact hin.1
      · have := (List.pairwise_cons.1 hps).1 t ht
        have := hle s (by simp)
        omega
    · have hcut : r.cut (s :: ps) = r.cut ps := List.filter_cons_of_neg hin
      rw [hcut]
      exact (ih hps' hle').trans (List.suffix_cons s ps).isInfix

/-- The pieces partition the intervals. -/
structure Partitions (ps rs : List Interval) : Prop where
  ascending : ps.Pairwise fun s t => s.hi < t.lo
  not_empty : ∀ s ∈ ps, s.lo ≤ s.hi
  covers : ∀ n, covers ps n = covers rs n
  /-- No piece lies across a bound of an interval. -/
  inside_or_apart : ∀ s ∈ ps, ∀ r ∈ rs, r.includes s = true ∨ r.overlaps s = false
  /-- The pieces of an interval are a run of pieces. -/
  consecutive : ∀ r ∈ rs, r.cut ps <:+: ps
  /-- They lie next to each other and fill the interval. -/
  tiles : ∀ r ∈ rs, Tiles r.lo (r.hi + 1) (r.cut ps)
  covers_cut : ∀ r ∈ rs, ∀ n, Interval.covers (r.cut ps) n = r.contains n
  equal_or_apart : ∀ r ∈ rs, ∀ r' ∈ rs, ∀ s ∈ r.cut ps, ∀ s' ∈ r'.cut ps,
    s = s' ∨ s.overlaps s' = false

/-- Intervals that are not empty are cut into an exact partition of them. -/
theorem partitions_pieces (hle : ∀ r ∈ rs, r.lo ≤ r.hi) : Partitions (pieces rs) rs where
  ascending := pairwise_pieces rs
  not_empty s hs := le_of_mem_pieces hs
  covers := covers_pieces rs
  inside_or_apart s hs r hr := by
    by_cases hapart : r.overlaps s = false
    · exact .inr hapart
    · rw [overlaps_eq_false_iff] at hapart
      have := le_of_mem_pieces hs
      have := hle r hr
      -- the greater one of the lower bounds lies in both
      exact .inl (includes_of_mem_pieces (n := max r.lo s.lo) hr hs (by omega) (by omega))
  consecutive r _ := isInfix_cut (pairwise_pieces rs) fun _ => le_of_mem_pieces
  tiles r hr := tiles_cut hr (hle r hr)
  covers_cut r hr n := by
    rw [Bool.eq_iff_iff, (tiles_cut hr (hle r hr)).covers_iff, contains_iff]
    omega
  equal_or_apart r _ r' _ s hs s' hs' := by
    by_cases heq : s = s'
    · exact .inl heq
    · have := apart_of_mem_pieces (List.mem_filter.1 hs).1 (List.mem_filter.1 hs').1 heq
      exact .inr (overlaps_eq_false_iff.2 (by omega))

/-- One interval inside another, one that touches it, one that reaches over its end, and a gap. -/
theorem partitions_pieces_nested :
    pieces [⟨98, 99⟩, ⟨97, 122⟩, ⟨120, 130⟩, ⟨131, 131⟩, ⟨140, 150⟩] =
      [⟨97, 97⟩, ⟨98, 99⟩, ⟨100, 119⟩, ⟨120, 122⟩, ⟨123, 130⟩, ⟨131, 131⟩, ⟨140, 150⟩] ∧
    (∀ r ∈ ([⟨98, 99⟩, ⟨97, 122⟩, ⟨120, 130⟩, ⟨131, 131⟩, ⟨140, 150⟩] : List Interval),
      r.lo ≤ r.hi) ∧
    Partitions (pieces [⟨98, 99⟩, ⟨97, 122⟩, ⟨120, 130⟩, ⟨131, 131⟩, ⟨140, 150⟩])
      [⟨98, 99⟩, ⟨97, 122⟩, ⟨120, 130⟩, ⟨131, 131⟩, ⟨140, 150⟩] := by
  have hle : ∀ r ∈ ([⟨98, 99⟩, ⟨97, 122⟩, ⟨120, 130⟩, ⟨131, 131⟩, ⟨140, 150⟩] : List Interval),
      r.lo ≤ r.hi := by decide
  exact ⟨by decide +kernel, hle, partitions_pieces hle⟩

end Munch.Interval
