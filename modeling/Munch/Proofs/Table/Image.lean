/-
A renumbered table is the image of the old one under the numbers of its steps: nothing but names of steps
is changed, and in all places alike (`renamed_of_renumber`). The numbers are the one way to count the
steps from 0 on in ascending order (`Numbering.unique`).
-/
import Mathlib.Order.MinMax
import Munch.Proofs.Table.Numbered

namespace Munch

/-- The transition under other names of the steps. -/
def Transition.rename (f : StepId → StepId) : Transition → Transition
  | .go target conditions => .go (f target) (conditions.map fun c => { c with step := f c.step })
  | .accept index => .accept index

def Case.rename (f : StepId → StepId) (c : Case) : Case :=
  { c with transition := c.transition.rename f }

namespace Table

variable {t t' : Table} {f g : StepId → StepId} {s s' initial initial' : StepId} {c c' : Case}
  {tr tr' : Transition} {ids : List StepId}

/-- The table is the other one under the new names. -/
structure Renamed (f : StepId → StepId) (t t' : Table) : Prop where
  steps : ∀ s cases, t.steps.get? s = some cases →
    t'.steps.get? (f s) = some (cases.map (Case.rename f))
  ends : t'.ends.entries = t.ends.entries.map fun e => (f e.1, e.2)

/-- Counts the steps of a table from 0 on in ascending order. -/
structure Numbering (t : Table) (f : StepId → StepId) : Prop where
  increasing : ∀ s ∈ t.steps.keys, ∀ u ∈ t.steps.keys, s < u → f s < f u
  onto : ∀ k : Int, (∃ s ∈ t.steps.keys, f s = k) ↔ 0 ≤ k ∧ k < t.steps.size

/-- The number of a step among all steps in ascending order. -/
def number (t : Table) (s : StepId) : StepId :=
  t.ids.idxOf s

/-! ## The numbers -/

theorem rank_ids (hs : s ∈ t.ids) : rank t.ids s = .ok (t.number s) := by
  have hn : t.ids.Nodup := nodup_sortDistinct _
  obtain ⟨n, hlt, hs⟩ := List.getElem_of_mem hs
  rw [number, ← hs, rank_getElem hn hlt, hn.idxOf_getElem]

theorem eq_number_of_rank (h : rank t.ids s = .ok s') : s' = t.number s := by
  obtain ⟨n, -, hs⟩ := rank_eq_ok h
  exact Except.ok.inj (h.symm.trans (rank_ids (List.mem_of_getElem? hs)))

theorem Closed.mem_ids (h : t.Closed) : s ∈ t.ids ↔ s ∈ t.steps.keys := by
  rw [ids, mem_sortDistinct, List.mem_append]
  exact or_iff_left_of_imp (h.ends s)

theorem Closed.length_ids (h : t.Closed) : t.ids.length = t.steps.size := by
  have hperm : t.ids.Perm t.steps.keys :=
    (List.perm_ext_iff_of_nodup (nodup_sortDistinct _) t.steps.nodup_keys).2 fun _ => h.mem_ids
  rw [hperm.length_eq, IdMap.length_keys]

/-- Counting the steps is counting from 0 on. -/
theorem Numbering.map_ids (h : t.Numbering f) (ht : t.Closed) :
    t.ids.map f = (List.range t.steps.size).map Int.ofNat := by
  have hids : (t.ids.map f).Pairwise (· < ·) := by
    refine List.pairwise_map.2 ((pairwise_sortDistinct _).imp_of_mem fun {s u} hs hu hlt => ?_)
    exact h.increasing s (ht.mem_ids.1 hs) u (ht.mem_ids.1 hu) hlt
  have hrange : ((List.range t.steps.size).map Int.ofNat).Pairwise (· < ·) :=
    List.pairwise_map.2 (List.pairwise_lt_range.imp fun hlt => Int.ofNat_lt.2 hlt)
  refine hids.eq_of_mem_iff hrange fun {k} => ?_
  simp only [List.mem_map, ht.mem_ids, h.onto, List.mem_range]
  constructor
  · exact fun hk => ⟨k.toNat, by omega, Int.toNat_of_nonneg hk.1⟩
  · intro hk
    obtain ⟨n, hlt, rfl⟩ := hk
    exact ⟨Int.natCast_nonneg n, Int.ofNat_lt.2 hlt⟩

/-- There is one way to count the steps. -/
theorem Numbering.unique (hf : t.Numbering f) (hg : t.Numbering g) (ht : t.Closed)
    (hs : s ∈ t.steps.keys) : f s = g s :=
  List.map_inj_left.1 ((hf.map_ids ht).trans (hg.map_ids ht).symm) s (ht.mem_ids.2 hs)

theorem Closed.numbering (h : t.Closed) : t.Numbering t.number where
  increasing s hs u hu hlt := by
    have hn : t.ids.Nodup := nodup_sortDistinct _
    have hordered : t.ids.Pairwise (· < ·) := pairwise_sortDistinct _
    obtain ⟨i, hi, rfl⟩ := List.getElem_of_mem (h.mem_ids.2 hs)
    obtain ⟨j, hj, rfl⟩ := List.getElem_of_mem (h.mem_ids.2 hu)
    rw [number, number, hn.idxOf_getElem, hn.idxOf_getElem]
    rcases Nat.lt_trichotomy i j with hij | rfl | hji
    · exact Int.ofNat_lt.2 hij
    · exact absurd hlt (Int.lt_irrefl _)
    · have hback := List.pairwise_iff_getElem.1 hordered j i hj hi hji
      exact absurd hlt (Int.lt_asymm hback)
  onto k := by
    have hn : t.ids.Nodup := nodup_sortDistinct _
    rw [← h.length_ids]
    constructor
    · intro hk
      obtain ⟨s, hs, rfl⟩ := hk
      exact ⟨Int.natCast_nonneg _, Int.ofNat_lt.2 (List.idxOf_lt_length_of_mem (h.mem_ids.2 hs))⟩
    · intro hk
      have hlt : k.toNat < t.ids.length := by omega
      refine ⟨t.ids[k.toNat], h.mem_ids.1 (List.getElem_mem hlt), ?_⟩
      rw [number, hn.idxOf_getElem, Int.toNat_of_nonneg hk.1]

/-! ## The image -/

theorem rename_of_renumberTransition (h : renumberTransition t.ids tr = .ok tr') :
    tr' = tr.rename t.number := by
  cases tr with
  | accept index => exact (Except.ok.inj h).symm
  | go target conditions =>
    obtain ⟨target', conditions', rfl, htarget, hconds⟩ := renumberTransition_go h
    have hsame : List.Forall₂ (fun c c' : Condition => { c with step := t.number c.step } = c')
        conditions conditions' := hconds.imp fun c c' hc => by
      rw [← eq_number_of_rank hc.1, ← hc.2]
    rw [Transition.rename, eq_number_of_rank htarget, map_eq_of_forall₂ hsame]

theorem rename_of_renumberCase (h : renumberCase t.ids c = .ok c') : c.rename t.number = c' := by
  obtain ⟨hrange, htr⟩ := renumberCase_eq_ok h
  rw [Case.rename, ← rename_of_renumberTransition htr, ← hrange]

/-- A new table is the image of the old one. -/
theorem renamed_of_renumber (h : t.renumber (some initial) = .ok (t', initial')) :
    Renamed t.number t t' ∧ initial' = t.number initial := by
  obtain ⟨-, hends, hi⟩ := forall₂_of_renumber h
  refine ⟨⟨fun s cases hs => ?_, ?_⟩, eq_number_of_rank hi⟩
  · obtain ⟨s', cases', hrank, hcases, hs'⟩ := (renumbers_of_renumber h).1.steps s cases hs
    have hmap : cases.map (Case.rename t.number) = cases' :=
      map_eq_of_forall₂ ((forall₂_of_mapM hcases).imp fun _ _ hc => rename_of_renumberCase hc)
    rw [← eq_number_of_rank hrank, hs', hmap]
  · refine (map_eq_of_forall₂ (hends.imp fun e e' he => ?_)).symm
    obtain ⟨hrank, hindex⟩ := renumberEnd_eq_ok.1 he
    rw [← eq_number_of_rank hrank, ← hindex]

/-! ## Runs -/

/-- In a closed table a run never comes to a step that is missing. -/
theorem Closed.exists_run (h : t.Closed) (hs : s ∈ t.steps.keys) (last : Option Hit) (offset : Nat)
    (data : List UInt8) : ∃ hit, t.run s last offset data = .ok hit := by
  induction data generalizing s last offset with
  | nil => exact ⟨last, rfl⟩
  | cons b rest ih =>
    obtain ⟨cases, hcases⟩ := Option.ne_none_iff_exists'.1 (IdMap.mem_keys.1 hs)
    rw [run, hcases]
    dsimp only
    cases hf : cases.find? (·.range.contains b.toNat) with
    | none => exact ⟨last, rfl⟩
    | some c =>
      have hc := List.mem_of_find?_eq_some hf
      dsimp only
      cases ht : c.transition with
      | accept index => exact ⟨_, rfl⟩
      | go target conditions =>
        have htarget : target ∈ t.steps.keys :=
          h.leads s target ⟨c, ⟨cases, hcases, hc⟩, by simp [ht, Transition.steps]⟩
        dsimp only
        cases t.finished target conditions with
        | some index => exact ih htarget _ _
        | none => exact ih htarget _ _

theorem Closed.find_renumber (h : t.Closed) (hi : initial ∈ t.steps.keys)
    (ht : t.renumber (some initial) = .ok (t', initial')) (patterns : List String)
    (data : List UInt8) (start : Nat) :
    (⟨t', initial', patterns⟩ : Machine).find data start =
      (⟨t, initial, patterns⟩ : Machine).find data start := by
  obtain ⟨hnumbers, hrank⟩ := renumbers_of_renumber ht
  simp only [Machine.find, Machine.run]
  obtain ⟨hit, hrun⟩ := h.exists_run hi ((t.ends.get? initial).map (⟨·, start⟩)) start (data.drop start)
  rw [hnumbers.ends _ _ hrank, hrun]
  exact hnumbers.run_eq hrank hrun

/-- **Renumbering keeps everything but the names of steps.** -/
theorem Closed.renumber_image (h : t.Closed) (hi : initial ∈ t.steps.keys) :
    ∃ t' f, t.renumber (some initial) = .ok (t', f initial) ∧ t'.Numbered t.steps.size ∧
      t.Numbering f ∧ (∀ g, t.Numbering g → ∀ s ∈ t.steps.keys, g s = f s) ∧ Renamed f t t' ∧
      (∀ (patterns : List String) (data : List UInt8) (start : Nat),
        (⟨t', f initial, patterns⟩ : Machine).find data start =
          (⟨t, initial, patterns⟩ : Machine).find data start) ∧
      t'.renumber (some (f initial)) = .ok (t', f initial) := by
  obtain ⟨t', initial', ht⟩ := h.exists_renumber hi
  obtain ⟨hrenamed, rfl⟩ := renamed_of_renumber ht
  have hnumbered := numbered ht
  have hstart := mem_keys_of_rank ht (forall₂_of_renumber ht).2.2
  refine ⟨t', t.number, ht, h.length_ids ▸ hnumbered, h.numbering,
    fun g hg s hs => hg.unique h.numbering h hs, hrenamed, h.find_renumber hi ht,
    (closed_of_renumber ht).renumber_eq_self hnumbered hstart⟩

/-- Steps 2, 4 and 9 become 0, 1 and 2. -/
theorem Closed.renumber_image_gaps :
    let t : Table := ⟨⟨[(9, [⟨⟨97, 98⟩, .go 4 [⟨2, ⟨97, 98⟩⟩]⟩, ⟨⟨98, 99⟩, .go 9 []⟩]),
      (2, []), (4, [⟨⟨98, 98⟩, .accept 7⟩])], by decide⟩, ⟨[(4, 1), (2, 0)], by decide⟩⟩
    t.Closed ∧ (9 : StepId) ∈ t.steps.keys ∧
      ∃ t' f, t.renumber (some 9) = .ok (t', f 9) ∧ t'.Numbered 3 ∧ t.Numbering f ∧
        (∀ g, t.Numbering g → ∀ s ∈ t.steps.keys, g s = f s) ∧ Renamed f t t' ∧
        (∀ (patterns : List String) (data : List UInt8) (start : Nat),
          (⟨t', f 9, patterns⟩ : Machine).find data start =
            (⟨t, 9, patterns⟩ : Machine).find data start) ∧
        t'.renumber (some (f 9)) = .ok (t', f 9) := by
  intro t
  have hclosed : t.Closed := closed_of_entries (by decide +kernel) (by decide +kernel)
  have hi : (9 : StepId) ∈ t.steps.keys := by decide
  exact ⟨hclosed, hi, hclosed.renumber_image hi⟩

end Table

end Munch
