/-
What the check of a table is about. A table is consistent if the cases of its steps are in order and
lead to steps, and if each condition names a step that accepts and holds on just the bytes of its
case; then there is nothing to report (`Consistent.check_eq_ok`). `Leads` says which steps a step
names.
-/
import Munch.Proofs.Answers
import Munch.Proofs.Table.Cases
import Munch.Proofs.Table.IdMap
import Munch.Table.Check

namespace Munch.Table

variable {t : Table} {s : StepId} {c : Case} {cases : List Case}

/-- The case is one of the step's. -/
def HasCase (t : Table) (s : StepId) (c : Case) : Prop :=
  ∃ cases, t.steps.get? s = some cases ∧ c ∈ cases

/-- A case of the first step names the second one, as its target or in a condition. -/
def Leads (t : Table) (s u : StepId) : Prop :=
  ∃ c, t.HasCase s c ∧ u ∈ c.transition.steps

/-- Every step that is named is there: those that are accepted in, and those that cases lead to. -/
structure Closed (t : Table) : Prop where
  ends : ∀ s ∈ t.ends.keys, s ∈ t.steps.keys
  leads : ∀ s u, t.Leads s u → u ∈ t.steps.keys

theorem closed_of_entries (hends : ∀ s ∈ t.ends.keys, s ∈ t.steps.keys)
    (h : ∀ e ∈ t.steps.entries, ∀ c ∈ e.2, ∀ u ∈ c.transition.steps, u ∈ t.steps.keys) :
    t.Closed where
  ends := hends
  leads s u hl := by
    obtain ⟨c, ⟨cases, hs, hc⟩, hu⟩ := hl
    exact h (s, cases) (IdMap.get?_eq_some_iff.1 hs) c hc u hu

/-- A table without gaps and conflicts. -/
structure Consistent (t : Table) : Prop where
  ends : ∀ s ∈ t.ends.keys, s ∈ t.steps.keys
  inOrder : ∀ s cases, t.steps.get? s = some cases → InOrder cases
  target : ∀ s c target conditions, t.HasCase s c → c.transition = .go target conditions →
    target ∈ t.steps.keys
  condition : ∀ s c target conditions, t.HasCase s c → c.transition = .go target conditions →
    ∀ d ∈ conditions, d.step ∈ t.steps.keys ∧ d.step ∈ t.ends.keys ∧ d.range = c.range

theorem checkOverlap_eq_ok {later : List Case} (h : InOrder (c :: later)) :
    checkOverlap s c later = .ok () := by
  have hnone : later.find? (fun d => c.range.overlaps d.range) = none := by
    refine List.find?_eq_none.2 fun d hd => ?_
    have hlt := (List.pairwise_cons.1 h.1).1 d hd
    simp only [Interval.overlaps, Bool.and_eq_true, decide_eq_true_eq]
    omega
  rw [checkOverlap, hnone]
  rfl

theorem checkCases_eq_ok (h : InOrder cases)
    (ht : ∀ c ∈ cases, t.checkTransition s c = .ok ()) : t.checkCases s cases = .ok () := by
  induction cases with
  | nil => rfl
  | cons c later ih =>
    have hlater := ih h.tail fun d hd => ht d (by simp [hd])
    exact bind_eq_ok.2 ⟨(), checkOverlap_eq_ok h, bind_eq_ok.2 ⟨(), ht c (by simp), hlater⟩⟩

theorem checkTransition_of_checkCases (h : t.checkCases s cases = .ok ()) (hc : c ∈ cases) :
    t.checkTransition s c = .ok () := by
  induction cases with
  | nil => cases hc
  | cons d later ih =>
    obtain ⟨_, -, h⟩ := bind_eq_ok.1 h
    obtain ⟨_, hd, hlater⟩ := bind_eq_ok.1 h
    rcases List.mem_cons.1 hc with rfl | hc
    · exact hd
    · exact ih hlater hc

theorem mem_keys_of_checkTransition {u : StepId} (h : t.checkTransition s c = .ok ())
    (hu : u ∈ c.transition.steps) : u ∈ t.steps.keys := by
  unfold checkTransition at h
  cases ht : c.transition with
  | accept index => simp [ht, Transition.steps] at hu
  | go target conditions =>
    simp only [ht] at h hu
    split at h
    · next htarget =>
      rcases List.mem_cons.1 hu with rfl | hu
      · exact IdMap.contains_iff_mem_keys.1 htarget
      · obtain ⟨d, hd, rfl⟩ := List.mem_map.1 hu
        have hcond := eq_ok_of_forM h d hd
        unfold checkCondition at hcond
        split at hcond
        · cases hcond
        · next hboth =>
          simp only [Bool.not_eq_true, Bool.not_eq_false', Bool.and_eq_true] at hboth
          exact IdMap.contains_iff_mem_keys.1 hboth.2
    · cases h

/-- A table without conflicts has all steps that its cases lead to. -/
theorem mem_keys_of_check {u : StepId} (h : t.check = .ok ()) (hl : t.Leads s u) :
    u ∈ t.steps.keys := by
  obtain ⟨c, ⟨cases, hs, hc⟩, hu⟩ := hl
  obtain ⟨_, hsteps, -⟩ := bind_eq_ok.1 h
  have hcases := eq_ok_of_forM hsteps (s, cases) (IdMap.get?_eq_some_iff.1 hs)
  exact mem_keys_of_checkTransition (checkTransition_of_checkCases hcases hc) hu

namespace Consistent

theorem closed (h : t.Consistent) : t.Closed where
  ends := h.ends
  leads s u hl := by
    obtain ⟨c, hc, hu⟩ := hl
    cases ht : c.transition with
    | accept index => simp [ht, Transition.steps] at hu
    | go target conditions =>
      rw [ht] at hu
      rcases List.mem_cons.1 hu with rfl | hu
      · exact h.target s c u conditions hc ht
      · obtain ⟨d, hd, rfl⟩ := List.mem_map.1 hu
        exact (h.condition s c target conditions hc ht d hd).1

theorem checkTransition_eq_ok (h : t.Consistent) (hc : t.HasCase s c) :
    t.checkTransition s c = .ok () := by
  unfold checkTransition
  cases ht : c.transition with
  | accept => rfl
  | go target conditions =>
    have htarget := IdMap.contains_iff_mem_keys.2 (h.target s c target conditions hc ht)
    simp only [htarget, if_true]
    refine forM_eq_ok fun d hd => ?_
    obtain ⟨hstep, hend, hrange⟩ := h.condition s c target conditions hc ht d hd
    simp [checkCondition, IdMap.contains_iff_mem_keys.2 hstep,
      IdMap.contains_iff_mem_keys.2 hend, hrange]
    rfl

/-- The check has nothing to report. -/
theorem check_eq_ok (h : t.Consistent) : t.check = .ok () := by
  have hsteps : t.steps.entries.forM (fun e => t.checkCases e.1 e.2) = .ok () := by
    refine forM_eq_ok fun e he => ?_
    have hs : t.steps.get? e.1 = some e.2 := IdMap.get?_eq_some_iff.2 he
    exact checkCases_eq_ok (h.inOrder e.1 e.2 hs) fun c hc =>
      h.checkTransition_eq_ok ⟨e.2, hs, hc⟩
  refine bind_eq_ok.2 ⟨(), hsteps, forM_eq_ok fun s hs => ?_⟩
  rw [checkEnd, if_pos (IdMap.contains_iff_mem_keys.2 (h.ends s hs))]
  rfl

end Consistent

end Munch.Table
