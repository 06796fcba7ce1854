/-
Renumbering changes the names of steps and nothing else. Different steps get different numbers, so
the renumbered table has the same cases and ends under the new names (`renumbers_of_renumber`), and a
run that returns on the old table returns the same on the new one (`Renumbers.run_eq`).
-/
import Munch.Machine.Basic
import Munch.Proofs.Answers
import Munch.Proofs.Table.IdMap

namespace Munch.Table

variable {t t' : Table} {ids : List StepId} {s s' initial initial' : StepId}

/-- What the new table has under the new numbers is what the old one had. -/
structure Renumbers (t : Table) (ids : List StepId) (t' : Table) : Prop where
  steps : ∀ s cases, t.steps.get? s = some cases → ∃ s' cases', rank ids s = .ok s' ∧
    cases.mapM (renumberCase ids) = .ok cases' ∧ t'.steps.get? s' = some cases'
  ends : ∀ s s', rank ids s = .ok s' → t'.ends.get? s' = t.ends.get? s

theorem rank_eq_ok (h : rank ids s = .ok s') : ∃ n : Nat, s' = n ∧ ids[n]? = some s := by
  unfold rank at h
  split at h
  · next n hn =>
    obtain ⟨hlt, hs, -⟩ := List.idxOf?_eq_some_iff.1 hn
    exact ⟨n, (Except.ok.inj h).symm, by rw [List.getElem?_eq_getElem hlt, hs]⟩
  · cases h

/-- Different steps have different numbers. -/
theorem rank_inj {a b : StepId} (ha : rank ids a = .ok s') (hb : rank ids b = .ok s') : a = b := by
  obtain ⟨m, rfl, hm⟩ := rank_eq_ok ha
  obtain ⟨n, hn, hn'⟩ := rank_eq_ok hb
  obtain rfl : m = n := by exact_mod_cast hn
  exact Option.some.inj (hm.symm.trans hn')

/-- New numbers do not occur twice if the old ones do not. -/
theorem nodup_of_rank {xs ys : List StepId}
    (h : List.Forall₂ (fun x y => rank ids x = .ok y) xs ys) (hn : xs.Nodup) : ys.Nodup := by
  induction h with
  | nil => exact .nil
  | cons hxy hrest ih =>
    rw [List.nodup_cons] at hn ⊢
    refine ⟨fun hmem => hn.1 ?_, ih hn.2⟩
    obtain ⟨x, hx, hxy'⟩ := exists_of_mem_right hrest hmem
    exact rank_inj hxy' hxy ▸ hx

theorem renumberStep_eq_ok {e : StepId × List Case} :
    t.renumberStep ids s = .ok e ↔ rank ids s = .ok e.1 ∧
      ((t.steps.get? s).getD []).mapM (renumberCase ids) = .ok e.2 := by
  unfold renumberStep
  simp only [bind_eq_ok]
  constructor
  · intro h
    obtain ⟨s', hs, cases, hcases, h⟩ := h
    obtain rfl := Except.ok.inj h
    exact ⟨hs, hcases⟩
  · exact fun h => ⟨e.1, h.1, e.2, h.2, rfl⟩

theorem renumberEnd_eq_ok {e e' : StepId × PatternIndex} :
    renumberEnd ids e = .ok e' ↔ rank ids e.1 = .ok e'.1 ∧ e'.2 = e.2 := by
  unfold renumberEnd
  rw [bind_eq_ok]
  constructor
  · intro h
    obtain ⟨s', hs, h⟩ := h
    obtain rfl := Except.ok.inj h
    exact ⟨hs, rfl⟩
  · intro h
    obtain ⟨hs, hk⟩ := h
    exact ⟨e'.1, hs, by rw [← hk]; rfl⟩

/-- The parts of a new table, in the order of the old one. -/
theorem forall₂_of_renumber (h : t.renumber (some initial) = .ok (t', initial')) :
    List.Forall₂ (fun s e => t.renumberStep t.ids s = .ok e) t.ids t'.steps.entries ∧
      List.Forall₂ (fun e e' => renumberEnd t.ids e = .ok e') t.ends.entries t'.ends.entries ∧
      rank t.ids initial = .ok initial' := by
  unfold renumber at h
  simp only at h
  split at h
  · cases h
  obtain ⟨steps, hsteps, h⟩ := bind_eq_ok.1 h
  obtain ⟨ends, hends, h⟩ := bind_eq_ok.1 h
  obtain ⟨i, hi, h⟩ := bind_eq_ok.1 h
  obtain ⟨rfl, rfl⟩ := Prod.mk.inj (Except.ok.inj h)
  have hsteps := forall₂_of_mapM hsteps
  have hends := forall₂_of_mapM hends
  have hnsteps : (steps.map (·.1)).Nodup := by
    have hranks : List.Forall₂ (fun s s' => rank t.ids s = .ok s') t.ids (steps.map (·.1)) :=
      List.forall₂_map_right_iff.2 (hsteps.imp fun s e he => (renumberStep_eq_ok.1 he).1)
    exact nodup_of_rank hranks (nodup_sortDistinct _)
  have hnends : (ends.map (·.1)).Nodup := by
    have hranks : List.Forall₂ (fun s s' => rank t.ids s = .ok s') t.ends.keys
        (ends.map (·.1)) := by
      refine List.forall₂_map_left_iff.2 (List.forall₂_map_right_iff.2 ?_)
      exact hends.imp fun e e' he => (renumberEnd_eq_ok.1 he).1
    exact nodup_of_rank hranks t.ends.nodup_keys
  rw [IdMap.entries_ofList hnsteps, IdMap.entries_ofList hnends]
  exact ⟨hsteps, hends, hi⟩

theorem renumbers_of_renumber (h : t.renumber (some initial) = .ok (t', initial')) :
    Renumbers t t.ids t' ∧ rank t.ids initial = .ok initial' := by
  obtain ⟨hsteps, hends, hi⟩ := forall₂_of_renumber h
  refine ⟨⟨fun s cases hs => ?_, fun s s' hs => Option.ext fun k => ?_⟩, hi⟩
  · have hkey : s ∈ t.steps.keys := IdMap.mem_keys.2 (by simp [hs])
    have hmem : s ∈ t.ids := mem_sortDistinct.2 (List.mem_append_left _ hkey)
    obtain ⟨e, he, hse⟩ := exists_of_mem_left hsteps hmem
    obtain ⟨hrank, hcases⟩ := renumberStep_eq_ok.1 hse
    rw [hs, Option.getD_some] at hcases
    exact ⟨e.1, e.2, hrank, hcases, IdMap.get?_eq_some_iff.2 he⟩
  · rw [IdMap.get?_eq_some_iff, IdMap.get?_eq_some_iff]
    constructor
    · intro he
      obtain ⟨⟨a, l⟩, hmem, hee⟩ := exists_of_mem_right hends he
      obtain ⟨hrank, rfl⟩ := renumberEnd_eq_ok.1 hee
      obtain rfl : a = s := rank_inj hrank hs
      exact hmem
    · intro he
      obtain ⟨⟨a, l⟩, hmem, hee⟩ := exists_of_mem_left hends he
      obtain ⟨hrank, rfl⟩ := renumberEnd_eq_ok.1 hee
      obtain rfl := Except.ok.inj (hs.symm.trans hrank)
      exact hmem

/-! ## Runs -/

theorem renumberCase_eq_ok {c c' : Case} (h : renumberCase ids c = .ok c') :
    c'.range = c.range ∧ renumberTransition ids c.transition = .ok c'.transition := by
  obtain ⟨tr, htr, h⟩ := bind_eq_ok.1 h
  obtain rfl := Except.ok.inj h
  exact ⟨rfl, htr⟩

theorem renumberTransition_go {target : StepId} {conditions : List Condition} {tr : Transition}
    (h : renumberTransition ids (.go target conditions) = .ok tr) :
    ∃ target' conditions', tr = .go target' conditions' ∧ rank ids target = .ok target' ∧
      List.Forall₂ (fun c c' : Condition => rank ids c.step = .ok c'.step ∧ c'.range = c.range)
        conditions conditions' := by
  obtain ⟨target', htarget, h⟩ := bind_eq_ok.1 h
  obtain ⟨conditions', hconds, h⟩ := bind_eq_ok.1 h
  refine ⟨target', conditions', (Except.ok.inj h).symm, htarget, ?_⟩
  refine (forall₂_of_mapM hconds).imp fun c c' hc => ?_
  obtain ⟨step, hstep, hc⟩ := bind_eq_ok.1 hc
  obtain rfl := Except.ok.inj hc
  exact ⟨hstep, rfl⟩

/-- The first case that holds a byte is the first one under the new numbers too. -/
theorem find?_renumber {cases cases' : List Case} (n : Int)
    (h : List.Forall₂ (fun c c' => renumberCase ids c = .ok c') cases cases') :
    cases.find? (·.range.contains n) = none ∧ cases'.find? (·.range.contains n) = none ∨
      ∃ c c', cases.find? (·.range.contains n) = some c ∧
        cases'.find? (·.range.contains n) = some c' ∧ renumberCase ids c = .ok c' := by
  induction h with
  | nil => exact .inl ⟨rfl, rfl⟩
  | @cons c c' _ _ hc _ ih =>
    have hrange := (renumberCase_eq_ok hc).1
    rw [List.find?_cons, List.find?_cons, hrange]
    cases c.range.contains n with
    | true => exact .inr ⟨c, c', rfl, rfl, hc⟩
    | false => exact ih

namespace Renumbers

theorem filterMap_ends (h : Renumbers t ids t') {xs ys : List StepId}
    (hxs : List.Forall₂ (fun x y => rank ids x = .ok y) xs ys) :
    ys.filterMap t'.ends.get? = xs.filterMap t.ends.get? := by
  induction hxs with
  | nil => rfl
  | cons hxy _ ih => rw [List.filterMap_cons, List.filterMap_cons, h.ends _ _ hxy, ih]

theorem finished_eq (h : Renumbers t ids t') {target target' : StepId}
    {conditions conditions' : List Condition} (ht : rank ids target = .ok target')
    (hc : List.Forall₂ (fun c c' : Condition => rank ids c.step = .ok c'.step) conditions
      conditions') :
    t'.finished target' conditions' = t.finished target conditions := by
  have hsteps : List.Forall₂ (fun x y => rank ids x = .ok y) (conditions.map (·.step))
      (conditions'.map (·.step)) :=
    List.forall₂_map_left_iff.2 (List.forall₂_map_right_iff.2 hc)
  simp only [finished, List.filterMap_append, h.filterMap_ends hsteps,
    h.filterMap_ends (.cons ht .nil)]

/-- A run that returns does so under the new numbers, with the same match. -/
theorem run_eq (h : Renumbers t ids t') (hs : rank ids s = .ok s') {last hit : Option Hit}
    {offset : Nat} {data : List UInt8} (hrun : t.run s last offset data = .ok hit) :
    t'.run s' last offset data = .ok hit := by
  induction data generalizing s s' last offset with
  | nil => exact hrun
  | cons b rest ih =>
    rw [Table.run] at hrun ⊢
    cases hcases : t.steps.get? s with
    | none =>
      rw [hcases] at hrun
      cases hrun
    | some cases =>
      obtain ⟨s₁, cases', hs₁, hmap, hcases'⟩ := h.steps s cases hcases
      obtain rfl := Except.ok.inj (hs.symm.trans hs₁)
      rw [hcases] at hrun
      rw [hcases']
      simp only at hrun ⊢
      rcases find?_renumber b.toNat (forall₂_of_mapM hmap) with ⟨hf, hf'⟩ | ⟨c, c', hf, hf', hc⟩
      · rw [hf] at hrun
        rw [hf']
        exact hrun
      · rw [hf] at hrun
        rw [hf']
        simp only at hrun ⊢
        have htr := (renumberCase_eq_ok hc).2
        cases ht : c.transition with
        | accept index =>
          rw [ht] at hrun htr
          rw [← Except.ok.inj htr]
          exact hrun
        | go target conditions =>
          rw [ht] at hrun htr
          obtain ⟨target', conditions', ht', htarget, hconds⟩ := renumberTransition_go htr
          rw [ht']
          simp only at hrun ⊢
          rw [h.finished_eq htarget (hconds.imp fun _ _ hc => hc.1)]
          cases hfin : t.finished target conditions with
          | none =>
            rw [hfin] at hrun
            exact ih htarget hrun
          | some index =>
            rw [hfin] at hrun
            exact ih htarget hrun

end Renumbers

end Munch.Table
