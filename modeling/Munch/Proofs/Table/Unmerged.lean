/-
Tables whose steps are tidy already. Resolving one merges nothing, so a limit on merged steps does not
matter, and no steps come out but those that were there (`resolve_of_tidy`).
-/
import Munch.Proofs.Table.Limit
import Munch.Proofs.Table.Resolved

namespace Munch

namespace ResolutionM

variable {r r' r₁ : Resolution} {s : StepId} {cases : List Case}

/-- A tidy step comes out as it is, if it does. -/
theorem eq_of_resolveStep_tidy (h : ∀ s cases, r.steps.get? s = some cases → Tidy cases)
    (hstep : resolveStep s r = .ok cases r') : r' = r ∧ r.steps.get? s ≠ none := by
  obtain ⟨all, hs⟩ := exists_cases_of_resolveStep hstep
  rw [resolveStep_of_tidy hs (h s all hs)] at hstep
  cases hstep
  exact ⟨rfl, hs ▸ Option.some_ne_none cases⟩

/-- The work on the queue merges nothing, and what it resolves are steps that were there. -/
theorem explore_of_tidy {fuel : Nat} {seen queue : List StepId}
    (h : ∀ s cases, r.steps.get? s = some cases → Tidy cases)
    (hrun : explore fuel seen queue r = .ok () r₁) :
    r₁.merged = r.merged ∧
      ∀ s, r₁.resolved.get? s ≠ none → r.resolved.get? s ≠ none ∨ r.steps.get? s ≠ none := by
  induction fuel generalizing r seen queue with
  | zero =>
    cases hrun
    exact ⟨rfl, fun _ => .inl⟩
  | succ fuel ih =>
    cases queue with
    | nil =>
      cases hrun
      exact ⟨rfl, fun _ => .inl⟩
    | cons t queue =>
      cases hstep : resolveStep t r with
      | error e r' =>
        rw [explore_cons_error hstep] at hrun
        cases hrun
      | ok cases r' =>
        rw [explore_cons_ok hstep] at hrun
        obtain ⟨rfl, ht⟩ := eq_of_resolveStep_tidy h hstep
        obtain ⟨hmerged, hresolved⟩ :=
          ih (r := { r' with resolved := r'.resolved.insert t cases }) h hrun
        refine ⟨hmerged, fun s hs => (hresolved s hs).elim (fun hold => ?_) .inr⟩
        by_cases hst : s = t
        · exact .inr (hst ▸ ht)
        · exact .inl (IdMap.get?_insert_of_ne hst ▸ hold)

end ResolutionM

variable {raw : RawTable} {initial first : StepId} {table : Table} {limit : Option Int}

/-- A table of tidy steps is resolved under any limit, and has all the steps that come out. -/
theorem RawTable.resolve_of_tidy (h : ∀ s cases, raw.table.steps.get? s = some cases → Tidy cases)
    (hresolve : raw.resolve initial first none = .ok table) (hlimit : ∀ n ∈ limit, 0 ≤ n) :
    raw.resolve initial first limit = .ok table ∧
      ∀ s ∈ table.ids, raw.table.steps.get? s ≠ none := by
  obtain ⟨r, hrun⟩ := RawTable.resolve_eq_ok.1 hresolve
  obtain ⟨hfrom, rfl, -⟩ := ResolutionM.resolve_eq_ok.1 hrun
  obtain ⟨hmerged, hsteps⟩ := ResolutionM.explore_of_tidy (r := .ofRaw raw first none) h hfrom
  constructor
  · cases limit with
    | none => exact hresolve
    | some n =>
      obtain ⟨m, rfl⟩ := Int.eq_ofNat_of_zero_le (hlimit n rfl)
      have hcaps : ResolutionM.Caps m (ResolutionM.resolve initial) (.ofRaw raw first none) :=
        ResolutionM.resolve_caps initial
      have hroom : r.merged.length ≤ m := hmerged ▸ Nat.zero_le m
      exact RawTable.resolve_eq_ok.2 ⟨_, ((hcaps.cut rfl (Nat.zero_le m)).of_ok hrun).1 hroom⟩
  · intro s hs
    have hresolved : r.resolved.get? s ≠ none := by
      rcases List.mem_append.1 (mem_sortDistinct.1 hs) with hs | hs
      · exact IdMap.mem_keys.1 hs
      -- the end of a step comes out only with the step
      · have hend := IdMap.mem_keys.1 hs
        simp only [ResolutionM.resolvedTable, IdMap.get?_filterKeys] at hend
        split at hend
        · next hcontains => exact IdMap.contains_iff.1 hcontains
        · exact absurd rfl hend
    exact (hsteps s hresolved).resolve_left fun hold => hold rfl

end Munch
