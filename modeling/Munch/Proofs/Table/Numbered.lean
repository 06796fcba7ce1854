/-
Tables whose steps are numbered from 0 on. Renumbering makes such a table of any (`numbered`), and
what holds of the old one holds of it under the new names: each case was a case before
(`exists_case`), the table is as consistent as it was (`Consistent.renumber`) and its steps can be
reached as before (`reachable_renumber`). It is left as it is when it is renumbered once more
(`Closed.renumber_eq_self`).
-/
import Mathlib.Data.List.Sort
import Mathlib.Logic.Relation
import Munch.Proofs.Table.Check
import Munch.Proofs.Table.Renumbering

namespace Munch.Table

variable {t t' : Table} {ids : List StepId} {s s' u initial initial' : StepId} {c c' : Case} {n : Nat}

/-- The steps are the numbers below `n`, in order. -/
def Numbered (t : Table) (n : Nat) : Prop :=
  t.steps.keys = (List.range n).map Int.ofNat

theorem rank_getElem (hn : ids.Nodup) (h : n < ids.length) : rank ids ids[n] = .ok n := by
  have hidx : ids.idxOf? ids[n] = some n := by
    refine List.idxOf?_eq_some_iff.2 ⟨h, rfl, fun j hj hjn => ?_⟩
    exact Nat.ne_of_lt hj (hn.getElem_inj_iff.1 hjn)
  rw [rank, hidx]

/-! ## A table that is numbered already -/

theorem Numbered.pairwise (h : t.Numbered n) : t.steps.keys.Pairwise (· < ·) := by
  rw [h, List.pairwise_map]
  exact List.pairwise_lt_range.imp fun hlt => Int.ofNat_lt.2 hlt

/-- Nothing but the steps is numbered. -/
theorem Numbered.ids_eq (h : t.Numbered n) (hends : ∀ s ∈ t.ends.keys, s ∈ t.steps.keys) :
    t.ids = t.steps.keys := by
  have : Std.Irrefl fun a b : Int => a < b := ⟨Int.lt_irrefl⟩
  have : Std.Antisymm fun a b : Int => a < b := ⟨fun _ _ hab hba => absurd hab (Int.lt_asymm hba)⟩
  refine (pairwise_sortDistinct _).eq_of_mem_iff h.pairwise fun s => ?_
  rw [mem_sortDistinct, List.mem_append]
  exact or_iff_left_of_imp (hends s)

theorem Numbered.size_eq (h : t.Numbered n) : t.steps.size = n := by
  have hlen := congrArg List.length h
  rwa [List.length_map, List.length_range, IdMap.length_keys] at hlen

theorem Numbered.lt_of_mem (h : t.Numbered n) (hs : s ∈ t.steps.keys) : s < n := by
  rw [show t.steps.keys = _ from h] at hs
  obtain ⟨k, hk, rfl⟩ := List.mem_map.1 hs
  exact Int.ofNat_lt.2 (List.mem_range.1 hk)

theorem Numbered.rank_eq (h : t.Numbered n) (hs : s ∈ t.steps.keys) :
    rank t.steps.keys s = .ok s := by
  have hnodup : t.steps.keys.Nodup := t.steps.nodup_keys
  obtain ⟨k, hk, rfl⟩ := List.getElem_of_mem hs
  rw [rank_getElem hnodup hk]
  simp [show t.steps.keys = _ from h]

theorem renumberTransition_eq_self {tr : Transition} (h : ∀ s ∈ tr.steps, rank ids s = .ok s) :
    renumberTransition ids tr = .ok tr := by
  cases tr with
  | accept index => rfl
  | go target conditions =>
    have hconds : conditions.mapM (renumberCondition ids) = .ok conditions :=
      mapM_eq_self fun d hd =>
        bind_eq_ok.2 ⟨d.step, h d.step (List.mem_cons_of_mem _ (List.mem_map_of_mem hd)), rfl⟩
    exact bind_eq_ok.2 ⟨target, h target List.mem_cons_self, bind_eq_ok.2 ⟨_, hconds, rfl⟩⟩

theorem Closed.renumberStep_eq_self (h : t.Closed) (hn : t.Numbered n)
    {e : StepId × List Case} (he : e ∈ t.steps.entries) :
    t.renumberStep t.steps.keys e.1 = .ok e := by
  have hcases : t.steps.get? e.1 = some e.2 := IdMap.get?_eq_some_iff.2 he
  refine renumberStep_eq_ok.2 ⟨hn.rank_eq (List.mem_map_of_mem he), ?_⟩
  rw [hcases, Option.getD_some]
  refine mapM_eq_self fun c hc => bind_eq_ok.2 ⟨c.transition, ?_, rfl⟩
  exact renumberTransition_eq_self fun u hu =>
    hn.rank_eq (h.leads e.1 u ⟨c, ⟨e.2, hcases, hc⟩, hu⟩)

/-- Renumbering does not change a table that is numbered. -/
theorem Closed.renumber_eq_self (h : t.Closed) (hn : t.Numbered n)
    (hi : initial ∈ t.steps.keys) : t.renumber (some initial) = .ok (t, initial) := by
  have hids := hn.ids_eq h.ends
  have hsteps : t.steps.keys.mapM (t.renumberStep t.steps.keys) = .ok t.steps.entries := by
    rw [IdMap.keys, List.mapM_map]
    exact mapM_eq_self fun e he => h.renumberStep_eq_self hn he
  have hends : t.ends.entries.mapM (renumberEnd t.steps.keys) = .ok t.ends.entries :=
    mapM_eq_self fun e he =>
      renumberEnd_eq_ok.2 ⟨hn.rank_eq (h.ends e.1 (List.mem_map_of_mem he)), rfl⟩
  have hne : t.steps.entries.isEmpty = false := by
    cases hempty : t.steps.entries with
    | nil => simp [IdMap.keys, hempty] at hi
    | cons e es => rfl
  rw [renumber]
  simp only [hids, hne, Bool.false_eq_true, if_false]
  refine bind_eq_ok.2 ⟨_, hsteps, bind_eq_ok.2 ⟨_, hends, bind_eq_ok.2 ⟨initial, hn.rank_eq hi, ?_⟩⟩⟩
  rw [IdMap.ofList_entries, IdMap.ofList_entries]
  rfl

theorem Consistent.renumber_eq_self (h : t.Consistent) (hn : t.Numbered n)
    (hi : initial ∈ t.steps.keys) : t.renumber (some initial) = .ok (t, initial) :=
  h.closed.renumber_eq_self hn hi

/-! ## Tables that can be renumbered -/

theorem exists_rank (hs : s ∈ ids) (hn : ids.Nodup) : ∃ n, rank ids s = .ok n := by
  obtain ⟨n, hlt, rfl⟩ := List.getElem_of_mem hs
  exact ⟨n, rank_getElem hn hlt⟩

theorem exists_renumberTransition {tr : Transition} (h : ∀ s ∈ tr.steps, ∃ n, rank ids s = .ok n) :
    ∃ tr', renumberTransition ids tr = .ok tr' := by
  cases tr with
  | accept index => exact ⟨_, rfl⟩
  | go target conditions =>
    obtain ⟨target', htarget⟩ := h target List.mem_cons_self
    have hcond (d : Condition) (hd : d ∈ conditions) : ∃ d', renumberCondition ids d = .ok d' := by
      obtain ⟨n, hn⟩ := h d.step (List.mem_cons_of_mem _ (List.mem_map_of_mem hd))
      exact ⟨_, bind_eq_ok.2 ⟨n, hn, rfl⟩⟩
    obtain ⟨conditions', hconds⟩ := exists_mapM hcond
    exact ⟨_, bind_eq_ok.2 ⟨target', htarget, bind_eq_ok.2 ⟨conditions', hconds, rfl⟩⟩⟩

/-- In a closed table every name is that of a step, so each gets a number. -/
theorem Closed.exists_renumber (h : t.Closed) (hi : initial ∈ t.steps.keys) :
    ∃ t' initial', t.renumber (some initial) = .ok (t', initial') := by
  have hrank (s : StepId) (hs : s ∈ t.steps.keys) : ∃ n, rank t.ids s = .ok n :=
    exists_rank (mem_sortDistinct.2 (List.mem_append_left _ hs)) (nodup_sortDistinct _)
  have hids (s : StepId) (hs : s ∈ t.ids) : s ∈ t.steps.keys :=
    (List.mem_append.1 (mem_sortDistinct.1 hs)).elim id (h.ends s)
  have hstep (s : StepId) (hs : s ∈ t.ids) : ∃ e, t.renumberStep t.ids s = .ok e := by
    obtain ⟨n, hn⟩ := hrank s (hids s hs)
    have hcase (c : Case) (hc : c ∈ (t.steps.get? s).getD []) :
        ∃ c', renumberCase t.ids c = .ok c' := by
      obtain ⟨cases, hcases⟩ := Option.ne_none_iff_exists'.1 (IdMap.mem_keys.1 (hids s hs))
      rw [hcases, Option.getD_some] at hc
      have hnames (u : StepId) (hu : u ∈ c.transition.steps) : ∃ n, rank t.ids u = .ok n :=
        hrank u (h.leads s u ⟨c, ⟨cases, hcases, hc⟩, hu⟩)
      obtain ⟨tr, htr⟩ := exists_renumberTransition hnames
      exact ⟨_, bind_eq_ok.2 ⟨tr, htr, rfl⟩⟩
    obtain ⟨cases, hcases⟩ := exists_mapM hcase
    exact ⟨(n, cases), renumberStep_eq_ok.2 ⟨hn, hcases⟩⟩
  have hend (e : StepId × PatternIndex) (he : e ∈ t.ends.entries) :
      ∃ e', renumberEnd t.ids e = .ok e' := by
    obtain ⟨n, hn⟩ := hrank e.1 (h.ends e.1 (List.mem_map_of_mem he))
    exact ⟨(n, e.2), renumberEnd_eq_ok.2 ⟨hn, rfl⟩⟩
  obtain ⟨steps, hsteps⟩ := exists_mapM hstep
  obtain ⟨ends, hends⟩ := exists_mapM hend
  obtain ⟨n, hn⟩ := hrank initial hi
  have hne : t.steps.entries.isEmpty = false := by
    cases hempty : t.steps.entries with
    | nil => simp [IdMap.keys, hempty] at hi
    | cons e es => rfl
  refine ⟨.mk (.ofList steps) (.ofList ends), n, ?_⟩
  rw [Table.renumber]
  simp only [hne, Bool.false_eq_true, if_false]
  exact bind_eq_ok.2 ⟨steps, hsteps, bind_eq_ok.2 ⟨ends, hends, bind_eq_ok.2 ⟨n, hn, rfl⟩⟩⟩

/-! ## What a new table has of the old one -/

theorem numbered (h : t.renumber (some initial) = .ok (t', initial')) :
    t'.Numbered t.ids.length := by
  obtain ⟨hsteps, -, -⟩ := forall₂_of_renumber h
  refine List.ext_getElem (by simp [IdMap.keys, hsteps.length_eq]) fun k hk hk' => ?_
  have hlt : k < t.ids.length := by simpa using hk'
  have hrank := (renumberStep_eq_ok.1 (hsteps.get hlt (hsteps.length_eq ▸ hlt))).1
  have heq := Except.ok.inj ((rank_getElem (nodup_sortDistinct _) hlt).symm.trans hrank)
  simpa [IdMap.keys] using heq.symm

/-- New numbers are steps of the new table. -/
theorem mem_keys_of_rank (h : t.renumber (some initial) = .ok (t', initial'))
    (hs : rank t.ids s = .ok s') : s' ∈ t'.steps.keys := by
  obtain ⟨k, rfl, hk⟩ := rank_eq_ok hs
  obtain ⟨hlt, -⟩ := List.getElem?_eq_some_iff.1 hk
  rw [show t'.steps.keys = _ from numbered h]
  exact List.mem_map_of_mem (List.mem_range.2 hlt)

/-- The cases of a new step are those of an old one, if that had any. -/
theorem exists_cases (h : t.renumber (some initial) = .ok (t', initial')) {cases' : List Case}
    (hs : t'.steps.get? s' = some cases') : ∃ s, rank t.ids s = .ok s' ∧
      List.Forall₂ (fun c c' => renumberCase t.ids c = .ok c') ((t.steps.get? s).getD []) cases' := by
  obtain ⟨s, -, hse⟩ := exists_of_mem_right (forall₂_of_renumber h).1 (IdMap.get?_eq_some_iff.1 hs)
  obtain ⟨hrank, hcases⟩ := renumberStep_eq_ok.1 hse
  exact ⟨s, hrank, forall₂_of_mapM hcases⟩

theorem exists_case (h : t.renumber (some initial) = .ok (t', initial'))
    (hc : t'.HasCase s' c') : ∃ s c, rank t.ids s = .ok s' ∧ t.HasCase s c ∧
      renumberCase t.ids c = .ok c' := by
  obtain ⟨cases', hs, hmem⟩ := hc
  obtain ⟨s, hrank, hcases⟩ := exists_cases h hs
  obtain ⟨c, hc, hcc⟩ := exists_of_mem_right hcases hmem
  cases hget : t.steps.get? s with
  | none => simp [hget] at hc
  | some cases => exact ⟨s, c, hrank, ⟨cases, hget, by simpa [hget] using hc⟩, hcc⟩

/-- A new case that goes on was an old one that went on. -/
theorem exists_go (h : t.renumber (some initial) = .ok (t', initial')) (hc : t'.HasCase s' c')
    {target' : StepId} {conditions' : List Condition} (ht : c'.transition = .go target' conditions') :
    ∃ s c target conditions, t.HasCase s c ∧ c.transition = .go target conditions ∧
      c'.range = c.range ∧ rank t.ids target = .ok target' ∧
      List.Forall₂ (fun d d' : Condition => rank t.ids d.step = .ok d'.step ∧ d'.range = d.range)
        conditions conditions' := by
  obtain ⟨s, c, -, hc, hcc⟩ := exists_case h hc
  obtain ⟨hrange, htr⟩ := renumberCase_eq_ok hcc
  cases htc : c.transition with
  | accept index =>
    rw [htc, ht] at htr
    cases htr
  | go target conditions =>
    rw [htc, ht] at htr
    obtain ⟨_, _, heq, htarget, hconds⟩ := renumberTransition_go htr
    obtain ⟨rfl, rfl⟩ := Transition.go.inj heq
    exact ⟨s, c, target, conditions, hc, htc, hrange, htarget, hconds⟩

theorem map_range_renumber {cases cases' : List Case}
    (h : List.Forall₂ (fun c c' => renumberCase ids c = .ok c') cases cases') :
    cases'.map (·.range) = cases.map (·.range) := by
  induction h with
  | nil => rfl
  | cons hc _ ih => rw [List.map_cons, List.map_cons, (renumberCase_eq_ok hc).1, ih]

/-- In a new table every name is that of a step. -/
theorem closed_of_renumber (h : t.renumber (some initial) = .ok (t', initial')) : t'.Closed where
  ends s' hs' := by
    obtain ⟨e', he', rfl⟩ := List.mem_map.1 hs'
    obtain ⟨e, -, hee⟩ := exists_of_mem_right (forall₂_of_renumber h).2.1 he'
    exact mem_keys_of_rank h (renumberEnd_eq_ok.1 hee).1
  leads s' u' hl := by
    obtain ⟨c', hc', hu'⟩ := hl
    cases ht' : c'.transition with
    | accept index => simp [ht', Transition.steps] at hu'
    | go target' conditions' =>
      obtain ⟨_, _, _, _, -, -, -, htarget, hconds⟩ := exists_go h hc' ht'
      rw [ht'] at hu'
      rcases List.mem_cons.1 hu' with rfl | hu'
      · exact mem_keys_of_rank h htarget
      · obtain ⟨d', hd', rfl⟩ := List.mem_map.1 hu'
        obtain ⟨_, -, hrank, -⟩ := exists_of_mem_right hconds hd'
        exact mem_keys_of_rank h hrank

/-- A consistent table stays so under new names. -/
theorem Consistent.renumber (ht : t.Consistent)
    (h : t.renumber (some initial) = .ok (t', initial')) : t'.Consistent where
  ends := (closed_of_renumber h).ends
  inOrder s' cases' hs' := by
    obtain ⟨s, -, hcases⟩ := exists_cases h hs'
    have hold : InOrder ((t.steps.get? s).getD []) := by
      cases hget : t.steps.get? s with
      | none => exact ⟨.nil, by simp⟩
      | some cases => exact ht.inOrder s cases hget
    exact hold.congr (map_range_renumber hcases)
  target s' c' target' conditions' hc' ht' :=
    (closed_of_renumber h).leads s' target' ⟨c', hc', by simp [ht', Transition.steps]⟩
  condition s' c' target' conditions' hc' ht' d' hd' := by
    obtain ⟨s, c, target, conditions, hc, htc, hrange, -, hconds⟩ := exists_go h hc' ht'
    obtain ⟨d, hd, hrank, hdrange⟩ := exists_of_mem_right hconds hd'
    obtain ⟨-, hend, hdc⟩ := ht.condition s c target conditions hc htc d hd
    refine ⟨mem_keys_of_rank h hrank, IdMap.mem_keys.2 ?_, (hdrange.trans hdc).trans hrange.symm⟩
    rw [(renumbers_of_renumber h).1.ends _ _ hrank]
    exact IdMap.mem_keys.1 hend

/-- What a step leads to has a number, and its number leads there. -/
theorem exists_leads (h : t.renumber (some initial) = .ok (t', initial'))
    (hs : rank t.ids s = .ok s') (hl : t.Leads s u) :
    ∃ u', rank t.ids u = .ok u' ∧ t'.Leads s' u' := by
  obtain ⟨c, ⟨cases, hcases, hc⟩, hu⟩ := hl
  obtain ⟨s₁, cases', hs₁, hmap, hcases'⟩ := (renumbers_of_renumber h).1.steps s cases hcases
  obtain rfl := Except.ok.inj (hs.symm.trans hs₁)
  obtain ⟨c', hc', hcc⟩ := exists_of_mem_left (forall₂_of_mapM hmap) hc
  have htr := (renumberCase_eq_ok hcc).2
  cases ht : c.transition with
  | accept index => simp [ht, Transition.steps] at hu
  | go target conditions =>
    rw [ht] at hu htr
    obtain ⟨target', conditions', ht', htarget, hconds⟩ := renumberTransition_go htr
    have hleads (u' : StepId) (hu' : u' ∈ (Transition.go target' conditions').steps) :
        t'.Leads s' u' := ⟨c', ⟨cases', hcases', hc'⟩, ht' ▸ hu'⟩
    rcases List.mem_cons.1 hu with rfl | hu
    · exact ⟨target', htarget, hleads target' List.mem_cons_self⟩
    · obtain ⟨d, hd, rfl⟩ := List.mem_map.1 hu
      obtain ⟨d', hd', hrank, -⟩ := exists_of_mem_left hconds hd
      exact ⟨d'.step, hrank, hleads d'.step (List.mem_cons_of_mem _ (List.mem_map_of_mem hd'))⟩

/-- Steps that can be reached can be reached under their numbers. -/
theorem reachable_renumber (h : t.renumber (some initial) = .ok (t', initial'))
    (hs : Relation.ReflTransGen t.Leads initial s) :
    ∃ s', rank t.ids s = .ok s' ∧ Relation.ReflTransGen t'.Leads initial' s' := by
  induction hs with
  | refl => exact ⟨initial', (forall₂_of_renumber h).2.2, .refl⟩
  | tail _ hl ih =>
    obtain ⟨s', hs', hreach⟩ := ih
    obtain ⟨u', hu', hl'⟩ := exists_leads h hs' hl
    exact ⟨u', hu', hreach.tail hl'⟩

end Munch.Table
