/-
Merging is a canonical form of the sets of integers that lists of intervals cover. The intervals of
a merged list are the runs of covered integers that cannot be made longer (`IsMerged.mem_iff_isRun`),
so lists that cover the same integers have the same merge. Complements are merged, too, and the
complement of a complement is the merge (`canonical_merge`).
-/
import Munch.Proofs.Interval.Pieces

namespace Munch.Interval

variable {r s : Interval} {rs ss : List Interval} {n : Int}

/-- The form that merging gives: ascending, with a gap between neighbours, and nothing empty. -/
structure IsMerged (rs : List Interval) : Prop where
  not_empty : ∀ r ∈ rs, r.lo ≤ r.hi
  spaced : IsSpaced rs

/-- All integers of the interval are covered, and the two next to it are not. -/
structure IsRun (rs : List Interval) (r : Interval) : Prop where
  not_empty : r.lo ≤ r.hi
  covered : ∀ n, r.lo ≤ n → n ≤ r.hi → covers rs n = true
  starts : covers rs (r.lo - 1) = false
  stops : covers rs (r.hi + 1) = false

/-! ## Runs of covered integers -/

namespace IsRun

/-- Runs are a matter of what is covered, not of the intervals that cover it. -/
theorem congr (h : ∀ n, covers rs n = covers ss n) (hr : IsRun rs r) : IsRun ss r where
  not_empty := hr.not_empty
  covered n hlo hhi := (h n).symm.trans (hr.covered n hlo hhi)
  starts := (h _).symm.trans hr.starts
  stops := (h _).symm.trans hr.stops

/-- A run includes every run that it meets, as its own neighbours are not covered. -/
theorem includes (hr : IsRun rs r) (hs : IsRun rs s) (hrn : r.lo ≤ n ∧ n ≤ r.hi)
    (hsn : s.lo ≤ n ∧ n ≤ s.hi) : r.includes s = true := by
  rw [includes_iff]
  constructor
  · by_contra hlo
    have hcovered := hs.covered (r.lo - 1) (by omega) (by omega)
    exact Bool.false_ne_true (hr.starts.symm.trans hcovered)
  · by_contra hhi
    have hcovered := hs.covered (r.hi + 1) (by omega) (by omega)
    exact Bool.false_ne_true (hr.stops.symm.trans hcovered)

theorem unique (hr : IsRun rs r) (hs : IsRun rs s) (hrn : r.lo ≤ n ∧ n ≤ r.hi)
    (hsn : s.lo ≤ n ∧ n ≤ s.hi) : r = s := by
  obtain ⟨hlo, hhi⟩ := includes_iff.1 (hr.includes hs hrn hsn)
  obtain ⟨hlo', hhi'⟩ := includes_iff.1 (hs.includes hr hsn hrn)
  cases r
  cases s
  exact congrArg₂ Interval.mk (Int.le_antisymm hlo hlo') (Int.le_antisymm hhi' hhi)

end IsRun

namespace IsMerged

theorem pairwise (h : IsMerged rs) : rs.Pairwise fun r s => r.hi < s.lo :=
  h.spaced.imp fun {r _} hrs => Int.lt_trans (Int.lt_succ r.hi) hrs

theorem isRun (h : IsMerged rs) (hr : r ∈ rs) : IsRun rs r := by
  -- no other interval reaches the integers next to this one
  have hgap {n : Int} (hn : n = r.lo - 1 ∨ n = r.hi + 1) : covers rs n = false := by
    rw [← Bool.not_eq_true, covers_iff]
    rintro ⟨s, hs, hsn⟩
    have hle := h.not_empty r hr
    by_cases hrs : r = s
    · subst hrs
      omega
    · have := rel_or_rel_of_pairwise h.spaced hr hs hrs
      omega
  exact ⟨h.not_empty r hr, fun n hlo hhi => covers_iff.2 ⟨r, hr, hlo, hhi⟩, hgap (.inl rfl),
    hgap (.inr rfl)⟩

/-- The intervals of a merged list are the runs of the integers that it covers. -/
theorem mem_iff_isRun (h : IsMerged rs) : r ∈ rs ↔ IsRun rs r := by
  refine ⟨h.isRun, fun hr => ?_⟩
  have hlo := hr.covered r.lo (Int.le_refl _) hr.not_empty
  obtain ⟨s, hs, hslo⟩ := covers_iff.1 hlo
  obtain rfl := hr.unique (h.isRun hs) ⟨Int.le_refl _, hr.not_empty⟩ hslo
  exact hs

/-- What a merged list covers determines the list. -/
theorem eq_of_covers (hr : IsMerged rs) (hs : IsMerged ss)
    (h : ∀ n, covers rs n = covers ss n) : rs = ss := by
  refine eq_of_mem_iff hr.pairwise hr.not_empty hs.pairwise hs.not_empty fun r => ?_
  rw [hr.mem_iff_isRun, hs.mem_iff_isRun]
  exact ⟨.congr h, .congr fun n => (h n).symm⟩

end IsMerged

/-! ## Merges and complements -/

theorem isMerged_merge (h : ∀ r ∈ rs, r.lo ≤ r.hi) : IsMerged (merge rs) :=
  ⟨le_of_mem_merge h, isSpaced_merge rs⟩

theorem merge_eq_merge_iff (hr : ∀ r ∈ rs, r.lo ≤ r.hi) (hs : ∀ s ∈ ss, s.lo ≤ s.hi) :
    merge rs = merge ss ↔ ∀ n, covers rs n = covers ss n := by
  constructor
  · intro h n
    rw [← covers_merge rs, h, covers_merge]
  · intro h
    refine (isMerged_merge hr).eq_of_covers (isMerged_merge hs) fun n => ?_
    rw [covers_merge, covers_merge, h]

theorem isMerged_complement (h : ∀ r ∈ rs, Within minByte maxByte r) :
    IsMerged (complement rs) := by
  obtain ⟨hspaced, hwithin⟩ := isSpaced_complement h
  exact ⟨fun r hr => (hwithin r hr).2.1, hspaced⟩

theorem within_of_covers {lo hi : Int} (h : ∀ r ∈ rs, Within lo hi r) (hn : covers rs n = true) :
    lo ≤ n ∧ n ≤ hi := by
  obtain ⟨r, hr, hrn⟩ := covers_iff.1 hn
  have hwithin := h r hr
  exact ⟨Int.le_trans hwithin.1 hrn.1, Int.le_trans hrn.2 hwithin.2.2⟩

theorem covers_complement_complement (h : ∀ r ∈ rs, Within minByte maxByte r) :
    covers (complement (complement rs)) n = covers rs n := by
  rw [Bool.eq_iff_iff, covers_complement (isSpaced_complement h).2, covers_complement h]
  constructor
  · intro hn
    by_contra hnot
    exact hn.2.2 ⟨hn.1, hn.2.1, hnot⟩
  · intro hn
    -- only bytes are covered, so nothing is lost outside of them
    obtain ⟨hlo, hhi⟩ := within_of_covers h hn
    exact ⟨hlo, hhi, fun hnot => hnot.2.2 hn⟩

theorem complement_complement (h : ∀ r ∈ rs, Within minByte maxByte r) :
    complement (complement rs) = merge rs := by
  have hbytes := (isSpaced_complement h).2
  refine (isMerged_complement hbytes).eq_of_covers (isMerged_merge fun r hr => (h r hr).2.1)
    fun n => ?_
  rw [covers_complement_complement h, covers_merge]

/-- The intervals are the canonical form of what the others cover. -/
structure Merges (ms rs : List Interval) : Prop extends IsMerged ms where
  covers : ∀ n, Interval.covers ms n = Interval.covers rs n
  /-- There is one interval for each run of covered integers. -/
  mem_iff : ∀ r, r ∈ ms ↔ IsRun rs r

/-- The intervals are the canonical form of the bytes that the others leave out. -/
structure Complements (cs rs : List Interval) : Prop extends IsMerged cs where
  covers : ∀ n, Interval.covers cs n = true ↔
    (minByte ≤ n ∧ n ≤ maxByte) ∧ Interval.covers rs n = false
  merge_eq : merge cs = cs

theorem merges_merge (h : ∀ r ∈ rs, r.lo ≤ r.hi) : Merges (merge rs) rs where
  toIsMerged := isMerged_merge h
  covers := covers_merge rs
  mem_iff r := by
    rw [(isMerged_merge h).mem_iff_isRun]
    exact ⟨.congr (covers_merge rs), .congr fun n => (covers_merge rs n).symm⟩

theorem complements_complement (h : ∀ r ∈ rs, Within minByte maxByte r) :
    Complements (complement rs) rs where
  toIsMerged := isMerged_complement h
  covers n := by rw [covers_complement h, Bool.not_eq_true, and_assoc]
  merge_eq := merge_eq_self (isMerged_complement h).spaced (isMerged_complement h).not_empty

/-- **Intervals that are not empty have a canonical form.** Lists of them are merged to the same
intervals exactly if they cover the same integers. Among bytes the complement has that form, too, and
the complement of the complement is the merge. -/
theorem canonical_merge (hr : ∀ r ∈ rs, r.lo ≤ r.hi) (hs : ∀ s ∈ ss, s.lo ≤ s.hi) :
    Merges (merge rs) rs ∧
      (merge rs = merge ss ↔ ∀ n, covers rs n = covers ss n) ∧
      ((∀ r ∈ rs, Within minByte maxByte r) →
        Complements (complement rs) rs ∧ complement (complement rs) = merge rs) := by
  refine ⟨merges_merge hr, merge_eq_merge_iff hr hs, fun hbytes => ?_⟩
  exact ⟨complements_complement hbytes, complement_complement hbytes⟩

/-- Out of order, with an interval inside of another one, two that touch, gaps of one integer, and
both ends of the bytes. -/
theorem canonical_merge_bytes :
    let rs : List Interval :=
      [⟨32, 126⟩, ⟨0, 9⟩, ⟨97, 122⟩, ⟨12, 13⟩, ⟨10, 10⟩, ⟨128, 255⟩]
    let ss : List Interval := [⟨128, 255⟩, ⟨13, 13⟩, ⟨32, 126⟩, ⟨0, 10⟩, ⟨12, 12⟩, ⟨3, 10⟩]
    (∀ r ∈ rs, r.lo ≤ r.hi) ∧ (∀ s ∈ ss, s.lo ≤ s.hi) ∧
      (∀ r ∈ rs, Within minByte maxByte r) ∧
      merge rs = [⟨0, 10⟩, ⟨12, 13⟩, ⟨32, 126⟩, ⟨128, 255⟩] ∧
      complement rs = [⟨11, 11⟩, ⟨14, 31⟩, ⟨127, 127⟩] ∧
      Merges (merge rs) rs ∧
      (merge rs = merge ss ↔ ∀ n, covers rs n = covers ss n) ∧
      Complements (complement rs) rs ∧ complement (complement rs) = merge rs := by
  intro rs ss
  have hr : ∀ r ∈ rs, r.lo ≤ r.hi := by decide
  have hs : ∀ s ∈ ss, s.lo ≤ s.hi := by decide
  have hbytes : ∀ r ∈ rs, Within minByte maxByte r := by decide
  obtain ⟨hmerges, hiff, hcomplement⟩ := canonical_merge hr hs
  exact ⟨hr, hs, hbytes, by decide +kernel, by decide +kernel, hmerges, hiff, hcomplement hbytes⟩

end Munch.Interval
