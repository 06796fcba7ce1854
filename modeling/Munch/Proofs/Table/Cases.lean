/-
What cutting and tidying do to the cases of a step. Cut cases lead where the cases they were cut from
lead (`mem_transitions_cutCases`). Tidying puts cases in order and joins some of them, and each byte
still leads to the same place (`exists_mem_tidyCases`); cases with conditions stay as they are.
-/
import Munch.Proofs.Interval.Pieces
import Munch.Table.Cases

namespace Munch

variable {c d : Case} {cases rest : List Case} {t : Transition} {p : Interval} {n : Int}

/-- What happens on the number. -/
def transitionsAt (cases : List Case) (n : Int) : List Transition :=
  (cases.filter (·.range.contains n)).map (·.transition)

theorem mem_transitionsAt :
    t ∈ transitionsAt cases n ↔ ∃ c ∈ cases, c.range.contains n = true ∧ c.transition = t := by
  simp [transitionsAt, and_assoc]

theorem mem_transitionsAt_cons : t ∈ transitionsAt (c :: cases) n ↔
    c.range.contains n = true ∧ c.transition = t ∨ t ∈ transitionsAt cases n := by
  simp only [mem_transitionsAt, List.mem_cons, exists_eq_or_imp]

/-! ## Cutting -/

theorem mem_cutCases : c ∈ cutCases cases ↔ ∃ d ∈ cases,
    c.range ∈ d.range.cut (Interval.pieces (cases.map (·.range))) ∧ c.transition = d.transition := by
  unfold cutCases
  rw [List.mem_flatMap]
  refine exists_congr fun d => and_congr_right fun _ => ?_
  rw [List.mem_map]
  constructor
  · intro h
    obtain ⟨r, hr, rfl⟩ := h
    exact ⟨hr, rfl⟩
  · intro h
    exact ⟨c.range, h.1, by rw [← h.2]⟩

theorem mem_pieces_of_mem_cutCases (h : c ∈ cutCases cases) :
    c.range ∈ Interval.pieces (cases.map (·.range)) := by
  obtain ⟨d, -, hc, -⟩ := mem_cutCases.1 h
  exact (List.mem_filter.1 hc).1

/-- Two cut cases lie on the same numbers or on none in common. -/
theorem range_eq_of_overlaps (hc : c ∈ cutCases cases) (hd : d ∈ cutCases cases)
    (h : c.range.overlaps d.range = true) : c.range = d.range := by
  by_contra hne
  have hapart := Interval.apart_of_mem_pieces (mem_pieces_of_mem_cutCases hc)
    (mem_pieces_of_mem_cutCases hd) hne
  simp only [Interval.overlaps, Bool.and_eq_true, decide_eq_true_eq] at h
  omega

/-- On the numbers of a piece the cut cases of that piece do what all cases do. -/
theorem mem_transitions_cutCases (hp : p ∈ Interval.pieces (cases.map (·.range)))
    (hn : p.contains n = true) :
    t ∈ ((cutCases cases).filter (·.range == p)).map (·.transition) ↔ t ∈ transitionsAt cases n := by
  rw [Interval.contains_iff] at hn
  rw [mem_transitionsAt, List.mem_map]
  constructor
  · intro h
    obtain ⟨c, hc, rfl⟩ := h
    obtain ⟨hmem, hcp⟩ := List.mem_filter.1 hc
    obtain rfl := eq_of_beq hcp
    obtain ⟨d, hd, hcut, ht⟩ := mem_cutCases.1 hmem
    have hinc := Interval.includes_iff.1 (List.mem_filter.1 hcut).2
    exact ⟨d, hd, Interval.contains_iff.2 (by omega), ht.symm⟩
  · intro h
    obtain ⟨d, hd, hdn, rfl⟩ := h
    have hinc := Interval.includes_of_mem_pieces (List.mem_map_of_mem hd) hp hn
      (Interval.contains_iff.1 hdn)
    refine ⟨⟨p, d.transition⟩, List.mem_filter.2 ⟨mem_cutCases.2 ⟨d, hd, ?_, rfl⟩, by simp⟩, rfl⟩
    exact List.mem_filter.2 ⟨hp, hinc⟩

/-- Every number on which something happens lies in the piece of a cut case. -/
theorem exists_mem_cutCases (h : transitionsAt cases n ≠ []) :
    ∃ c ∈ cutCases cases, c.range.contains n = true := by
  obtain ⟨t, ht⟩ := List.exists_mem_of_ne_nil _ h
  obtain ⟨d, hd, hdn, rfl⟩ := mem_transitionsAt.1 ht
  obtain ⟨s, hs, hsn⟩ := Interval.exists_mem_cut (List.mem_map_of_mem hd)
    (Interval.contains_iff.1 hdn)
  exact ⟨⟨s, d.transition⟩, mem_cutCases.2 ⟨d, hd, hs, rfl⟩, Interval.contains_iff.2 hsn⟩

/-! ## Tidying -/

/-- One after the other, none of them empty. -/
def InOrder (cases : List Case) : Prop :=
  cases.Pairwise (fun c d => c.range.hi < d.range.lo) ∧ ∀ c ∈ cases, c.range.lo ≤ c.range.hi

theorem InOrder.tail (h : InOrder (c :: cases)) : InOrder cases :=
  ⟨(List.pairwise_cons.1 h.1).2, fun d hd => h.2 d (List.mem_cons_of_mem _ hd)⟩

/-- The order is one of the intervals alone. -/
theorem InOrder.congr {cases' : List Case} (h : InOrder cases)
    (hranges : cases'.map (·.range) = cases.map (·.range)) : InOrder cases' := by
  obtain ⟨hpair, hle⟩ := h
  have hpair' : (cases.map (·.range)).Pairwise fun p q => p.hi < q.lo := List.pairwise_map.2 hpair
  refine ⟨List.pairwise_map.1 (hranges ▸ hpair'), fun c hc => ?_⟩
  have hmem : c.range ∈ cases.map (·.range) := hranges ▸ List.mem_map_of_mem hc
  obtain ⟨d, hd, hdc⟩ := List.mem_map.1 hmem
  exact hdc ▸ hle d hd

/-- Joining two neighbours keeps the order. -/
theorem InOrder.join (h : InOrder (c :: d :: rest)) (t : Transition) :
    InOrder (⟨⟨c.range.lo, d.range.hi⟩, t⟩ :: rest) := by
  obtain ⟨hp, hne⟩ := h
  obtain ⟨hc, hp⟩ := List.pairwise_cons.1 hp
  have hcd := hc d (by simp)
  have hc' := hne c (by simp)
  have hd' := hne d (by simp)
  refine ⟨List.pairwise_cons.2 ⟨(List.pairwise_cons.1 hp).1, (List.pairwise_cons.1 hp).2⟩, ?_⟩
  intro e he
  rcases List.mem_cons.1 he with rfl | he
  · simp only
    omega
  · exact hne e (by simp [he])

theorem inOrder_joinCases (h : InOrder (c :: rest)) :
    InOrder (joinCases c rest) ∧ ∀ d ∈ joinCases c rest, c.range.lo ≤ d.range.lo := by
  induction rest generalizing c with
  | nil => exact ⟨h, by simp [joinCases]⟩
  | cons d rest ih =>
    rw [joinCases]
    split
    · exact ih (h.join d.transition)
    · obtain ⟨hrest, hlo⟩ := ih h.tail
      have hcd := (List.pairwise_cons.1 h.1).1 d (by simp)
      have hc := h.2 c (by simp)
      refine ⟨⟨List.pairwise_cons.2 ⟨fun e he => ?_, hrest.1⟩, fun e he => ?_⟩, fun e he => ?_⟩
      · have := hlo e he
        omega
      · rcases List.mem_cons.1 he with rfl | he
        · exact hc
        · exact hrest.2 e he
      · rcases List.mem_cons.1 he with rfl | he
        · exact Int.le_refl _
        · have := hlo e he
          omega

theorem mem_transitionsAt_joinCases (h : InOrder (c :: rest)) :
    t ∈ transitionsAt (joinCases c rest) n ↔ t ∈ transitionsAt (c :: rest) n := by
  induction rest generalizing c with
  | nil => rw [joinCases]
  | cons d rest ih =>
    rw [joinCases]
    split
    · next hjoin =>
      obtain ⟨htouch, hsame, -⟩ := hjoin
      have hc := h.2 c (by simp)
      have hd := h.2 d (by simp)
      rw [ih (h.join d.transition), mem_transitionsAt_cons, mem_transitionsAt_cons,
        mem_transitionsAt_cons, ← or_assoc, hsame, ← or_and_right]
      refine or_congr_left (and_congr_left' ?_)
      simp only [Interval.contains_iff]
      omega
    · rw [mem_transitionsAt_cons, mem_transitionsAt_cons, ih h.tail]

theorem mem_joinCases (h : d ∈ joinCases c rest) :
    d ∈ c :: rest ∨ d.transition.isConditional = false := by
  induction rest generalizing c with
  | nil => exact .inl h
  | cons e rest ih =>
    rw [joinCases] at h
    split at h
    · next hjoin =>
      rcases ih h with hd | hd
      · rcases List.mem_cons.1 hd with rfl | hd
        · exact .inr (by simpa using hjoin.2.2)
        · exact .inl (by simp [hd])
      · exact .inr hd
    · rcases List.mem_cons.1 h with rfl | h
      · exact .inl (by simp)
      · exact (ih h).imp_left (List.mem_cons_of_mem _)

/-- No two cases share a number, and none is empty. -/
def Apart (cases : List Case) : Prop :=
  cases.Pairwise (fun c d => c.range.hi < d.range.lo ∨ d.range.hi < c.range.lo) ∧
    ∀ c ∈ cases, c.range.lo ≤ c.range.hi

theorem inOrder_sort (h : Apart cases) :
    InOrder (sort (fun c d => Interval.le c.range d.range) cases) := by
  have hperm := sort_perm (fun c d : Case => Interval.le c.range d.range) cases
  have hle := pairwise_sort (fun c d : Case => Interval.le_total c.range d.range)
    (fun c d e => Interval.le_trans c.range d.range e.range) cases
  have hapart := (hperm.pairwise_iff fun h => h.symm).2 h.1
  refine ⟨(hle.and hapart).imp_of_mem fun {c d} hc hd hcd => ?_,
    fun c hc => h.2 c (hperm.mem_iff.1 hc)⟩
  have hlo := Interval.lo_le_of_le hcd.1
  have hd' := h.2 d (hperm.mem_iff.1 hd)
  omega

theorem transitionsAt_sort : t ∈ transitionsAt
    (sort (fun c d => Interval.le c.range d.range) cases) n ↔ t ∈ transitionsAt cases n := by
  simp only [mem_transitionsAt, (sort_perm _ cases).mem_iff]

theorem inOrder_tidyCases (h : Apart cases) : InOrder (tidyCases cases) := by
  have hsort := inOrder_sort h
  unfold tidyCases
  split
  · exact ⟨.nil, by simp⟩
  · next c rest heq => exact (inOrder_joinCases (heq ▸ hsort)).1

theorem mem_transitionsAt_tidyCases (h : Apart cases) :
    t ∈ transitionsAt (tidyCases cases) n ↔ t ∈ transitionsAt cases n := by
  have hsort := inOrder_sort h
  refine Iff.trans ?_ transitionsAt_sort
  unfold tidyCases
  split
  · next heq => rw [heq]
  · next c rest heq =>
    rw [heq] at hsort ⊢
    exact mem_transitionsAt_joinCases hsort

/-- A case with conditions is one that was there before. -/
theorem mem_tidyCases (h : c ∈ tidyCases cases) :
    c ∈ cases ∨ c.transition.isConditional = false := by
  unfold tidyCases at h
  split at h
  · cases h
  · next d rest heq =>
    refine (mem_joinCases h).imp_left fun hc => ?_
    exact ((sort_perm _ cases).mem_iff).1 (heq ▸ hc)

end Munch
