/-
Resolving what is resolved already. A step comes out with tidy cases, and tidy cases are left as they
are, whatever may be merged (`tidy_resolveStep`, `resolveStep_of_tidy`). The work on the queue then
finds the same steps in the same order (`explore_again`), so that resolving a resolved table changes
nothing and merges nothing.
-/
import Munch.Proofs.Table.Check
import Munch.Proofs.Table.Resolve
import Munch.Proofs.Table.Upkeep

namespace Munch

open Resolution

namespace ResolutionM

variable {r r' r₁ q : Resolution} {s t : StepId} {cases out : List Case} {fuel : Nat}
  {done queue seen : List StepId}

/-! ## What comes out is tidy -/

theorem merge_extends (s t : StepId) (r : Resolution) :
    Ensures (merge s t) r (fun _ r' => Extends r r') fun _ _ => True := by
  rcases merge_cases s t r with ⟨u, -, heq⟩ | ⟨-, -, heq⟩ | ⟨-, n, -, -, heq⟩
  · exact .congr (x := pure u) heq (ensures_pure (.refl r))
  · refine .congr heq ((register_adds _ r).mono fun u r' hr' => ?_)
    obtain ⟨-, cases, ends, rfl⟩ := hr'
    exact ⟨fun e he => List.mem_append_left _ he, rfl⟩
  · exact .congr (x := throw _) heq (ensures_throw trivial)

/-- Without any condition on the table, what was merged and resolved stays. -/
theorem upkeep_extends : Upkeep (fun _ => True) (fun _ _ => True) fun _ => True where
  mono _ _ _ _ _ := trivial
  known _ _ _ _ := trivial
  goes _ _ _ _ _ _ _ _ _ _ := trivial
  merge r s t _ _ _ :=
    (merge_extends s t r).imp (fun _ _ hext => ⟨trivial, hext, trivial⟩) fun _ _ _ =>
      ⟨trivial, trivial⟩
  resolve _ _ _ _ _ := trivial
  noStep _ := trivial
  noAcceptingStep _ := trivial

theorem folding_extends :
    Folding (fun _ => True) (fun _ => True) (fun _ _ _ _ => True) fun _ _ => True where
  mono _ _ _ _ _ _ _ := trivial
  congr _ _ _ _ _ _ _ := trivial
  unconditional _ _ _ _ _ _ _ := trivial
  single _ _ _ _ := trivial
  combine _ _ _ _ _ _ _ _ _ :=
    (upkeep_extends.combine_keeps trivial (fun _ _ _ => trivial) fun _ _ _ => trivial).imp
      (fun _ _ h => ⟨trivial, h.2.1, trivial⟩) fun _ _ _ => trivial

/-- A step comes out with tidy cases, and none but itself is resolved. -/
theorem tidy_resolveStep (h : resolveStep s r = .ok cases r') :
    Tidy cases ∧ r'.resolved = r.resolved := by
  obtain ⟨all, hs⟩ := exists_cases_of_resolveStep h
  obtain ⟨-, hext, htidy, -⟩ :=
    Ensures.of_ok (folding_extends.resolveStep_ensures trivial hs fun _ _ => trivial) h
  exact ⟨htidy, hext.resolved⟩

/-! ## What is tidy stays -/

/-- Cases on different intervals are not combined. -/
theorem combineCases_of_nodup (hn : (cases.map (·.range)).Nodup) (hout : ∀ c ∈ out, c ∈ cases)
    (r : Resolution) : combineCases cases (out.map (·.range)) r = .ok out r := by
  induction out with
  | nil => rfl
  | cons c out ih =>
    have hc := hout c (by simp)
    have halone : cases.filter (·.range == c.range) = [c] := by
      have hsame : ∀ d ∈ cases, (d.range == c.range) = (d == c) := fun d hd => by
        have hinj : d.range = c.range ↔ d = c :=
          ⟨List.inj_on_of_nodup_map hn hd hc, congrArg _⟩
        rw [Bool.eq_iff_iff, beq_iff_eq, beq_iff_eq, hinj]
      rw [List.filter_congr hsame, List.filter_beq, List.count_eq_one_of_mem hn.of_map hc]
      rfl
    rw [List.map_cons, combineCases, halone]
    exact bind_run_eq_ok.2 ⟨c.transition, r, rfl,
      bind_run_eq_ok.2 ⟨out, r, ih fun d hd => hout d (by simp [hd]), rfl⟩⟩

/-- A step with tidy cases keeps them, and nothing is merged. -/
theorem resolveStep_of_tidy (hs : r.steps.get? s = some cases) (h : Tidy cases) :
    resolveStep s r = .ok cases r := by
  have hread : casesOf s r = .ok cases r := by
    obtain ⟨_, _, hread, rfl, rfl⟩ := (casesOf_ensures (E := fun _ _ => False) hs).exists_ok
    exact hread
  have hn : (cases.map (·.range)).Nodup := by
    refine List.pairwise_map.2 (h.inOrder.1.imp_of_mem fun {c d} hc _ hcd heq => ?_)
    have hle := h.inOrder.2 c hc
    rw [← heq] at hcd
    omega
  have hcombine := combineCases_of_nodup hn (fun c hc => hc) r
  refine bind_run_eq_ok.2 ⟨cases, r, hread, ?_⟩
  rw [cutCases_eq_self h.inOrder, eraseDups_eq_self hn]
  refine bind_run_eq_ok.2 ⟨cases, r, hcombine, ?_⟩
  rw [tidyCases_eq_self h]
  rfl

/-! ## The queue -/

/-- The steps that cases name and that were not seen. -/
def unseen (seen : List StepId) (cases : List Case) : List StepId :=
  (cases.flatMap (·.transition.steps)).eraseDups.filter (!seen.contains ·)

theorem mem_of_mem_unseen (h : t ∈ unseen seen cases) : ∃ c ∈ cases, t ∈ c.transition.steps :=
  List.mem_flatMap.1 (List.mem_eraseDups.1 (List.mem_filter.1 h).1)

/-- What is done is what is resolved, and nothing is queued twice. -/
structure Queued (done queue : List StepId) (r : Resolution) : Prop where
  nodup : (done ++ queue).Nodup
  done : ∀ s, s ∈ done ↔ r.resolved.get? s ≠ none

namespace Queued

theorem get?_head (h : Queued done (s :: queue) r) : r.resolved.get? s = none := by
  by_contra hs
  have hmem := (h.done s).2 hs
  exact (List.nodup_append.1 h.nodup).2.2 s hmem s (by simp) rfl

/-- One more step is done. -/
theorem next (h : Queued done (s :: queue) r) (hr' : r'.resolved = r.resolved) (cases : List Case) :
    Queued (done ++ [s]) (queue ++ unseen (done ++ s :: queue) cases)
      { r' with resolved := r'.resolved.insert s cases } where
  nodup := by
    have hn := nodup_append_fresh h.nodup (cases.flatMap (·.transition.steps))
    simpa [unseen] using hn
  done t := by
    show t ∈ done ++ [s] ↔ (r'.resolved.insert s cases).get? t ≠ none
    rw [List.mem_append, List.mem_singleton, h.done, hr', IdMap.get?_insert]
    by_cases ht : t = s
    · simp [ht]
    · simp [ht]

end Queued

/-- A round that went well: the first step of the queue was resolved, then the others were. -/
theorem explore_cons_eq_ok
    (h : explore (fuel + 1) (done ++ s :: queue) (s :: queue) r = .ok () r₁) :
    ∃ cases r', resolveStep s r = .ok cases r' ∧
      explore fuel (done ++ [s] ++ (queue ++ unseen (done ++ s :: queue) cases))
        (queue ++ unseen (done ++ s :: queue) cases)
        { r' with resolved := r'.resolved.insert s cases } = .ok () r₁ := by
  cases hstep : resolveStep s r with
  | ok cases r' =>
    rw [explore_cons_ok hstep] at h
    exact ⟨cases, r', rfl, by simpa [unseen] using h⟩
  | error e r' =>
    rw [explore_cons_error hstep] at h
    cases h

/-- What is resolved stays, and new steps come behind it. -/
theorem explore_resolved (h : explore fuel (done ++ queue) queue r = .ok () r₁)
    (hqueue : Queued done queue r) : r.resolved.entries <+: r₁.resolved.entries := by
  induction fuel generalizing r done queue with
  | zero =>
    cases h
    exact List.prefix_refl _
  | succ fuel ih =>
    cases queue with
    | nil =>
      cases h
      exact List.prefix_refl _
    | cons s queue =>
      obtain ⟨cases, r', hstep, h⟩ := explore_cons_eq_ok h
      obtain ⟨-, hr'⟩ := tidy_resolveStep hstep
      have hrest := ih h (hqueue.next hr' cases)
      rw [hr', IdMap.entries_insert_of_none hqueue.get?_head] at hrest
      exact (List.prefix_append _ _).trans hrest

/-- The first step of the queue is resolved for good. -/
theorem get?_resolved_of_explore {cases : List Case}
    (h : explore fuel (done ++ queue) queue
      { r' with resolved := r'.resolved.insert s cases } = .ok () r₁)
    (hqueue : Queued done queue { r' with resolved := r'.resolved.insert s cases }) :
    r₁.resolved.get? s = some cases := by
  have hmem := (explore_resolved h hqueue).subset
    (IdMap.get?_eq_some_iff.1 (IdMap.get?_insert_self (m := r'.resolved)))
  exact IdMap.get?_eq_some_iff.2 hmem

/-- No more steps are done than are resolved in the end. -/
theorem length_le_of_explore (h : explore fuel (done ++ queue) queue r = .ok () r₁)
    (hqueue : Queued done queue r) : done.length ≤ r₁.resolved.size := by
  have hsub : done ⊆ r.resolved.keys := fun s hs => IdMap.mem_keys.2 ((hqueue.done s).1 hs)
  have hle := (List.subperm_of_subset (List.nodup_append.1 hqueue.nodup).1 hsub).length_le
  have hprefix := (explore_resolved h hqueue).length_le
  rw [IdMap.length_keys] at hle
  exact Nat.le_trans hle hprefix

/-- If a resolution went well, and its steps lead to each other, then they are found again from
themselves with the same cases and in the same order. -/
theorem explore_again {fuel' : Nat} (h : explore fuel (done ++ queue) queue r = .ok () r₁)
    (hqueue : Queued done queue r) (hq : q.steps = r₁.resolved)
    (hresolved : ∀ s ∈ queue, r₁.resolved.get? s ≠ none)
    (hclosed : ∀ s cases, r₁.resolved.get? s = some cases → ∀ c ∈ cases,
      ∀ t ∈ c.transition.steps, r₁.resolved.get? t ≠ none)
    (hfuel : r₁.resolved.size ≤ done.length + fuel') :
    explore fuel' (done ++ queue) queue { q with resolved := r.resolved } =
      .ok () { q with resolved := r₁.resolved } := by
  induction fuel generalizing r done queue fuel' with
  | zero =>
    obtain rfl : r = r₁ := by
      cases h
      rfl
    cases queue with
    | nil => cases fuel' <;> rfl
    | cons s queue => exact absurd hqueue.get?_head (hresolved s (by simp))
  | succ fuel ih =>
    cases queue with
    | nil =>
      cases h
      cases fuel' <;> rfl
    | cons s queue =>
      obtain ⟨cases, r', hstep, h⟩ := explore_cons_eq_ok h
      obtain ⟨htidy, hr'⟩ := tidy_resolveStep hstep
      have hnext := hqueue.next hr' cases
      have hs := get?_resolved_of_explore h hnext
      cases fuel' with
      | zero =>
        have hlength := length_le_of_explore h hnext
        simp only [List.length_append, List.length_singleton] at hlength
        omega
      | succ fuel' =>
        have hstep' : resolveStep s { q with resolved := r.resolved } = .ok cases _ :=
          resolveStep_of_tidy (hq ▸ hs) htidy
        have hfuel : r₁.resolved.size ≤ (done ++ [s]).length + fuel' := by
          rw [List.length_append, List.length_singleton]
          omega
        have hrest := ih h hnext (fun t ht => ?_) hfuel
        · rw [explore_cons_ok hstep']
          rw [hr'] at hrest
          simpa [unseen] using hrest
        · rcases List.mem_append.1 ht with ht | ht
          · exact hresolved t (by simp [ht])
          · obtain ⟨c, hc, ht⟩ := mem_of_mem_unseen ht
            exact hclosed s cases hs c hc t ht

end ResolutionM

variable {raw : RawTable} {initial first : StepId} {limit : Option Int} {table : Table}

/-- The steps of a resolved table are found again from the table itself. -/
theorem ResolutionM.resolveFrom_again {r r₁ q : Resolution}
    (h : resolveFrom initial r = .ok () r₁) (hr : r.resolved = .empty)
    (hcheck : (resolvedTable r₁).check = .ok ()) (hq : q.steps = r₁.resolved)
    (hnew : q.resolved = .empty) :
    resolveFrom initial q = .ok () { q with resolved := r₁.resolved } := by
  have hqueue : Queued [] [initial] r := ⟨by simp, by simp [hr]⟩
  have hexplore : explore (stepBound r + 1) ([] ++ [initial]) [initial] r = .ok () r₁ := h
  obtain ⟨cases, r', hstep, hrest⟩ := explore_cons_eq_ok hexplore
  have hinitial := get?_resolved_of_explore hrest
    (hqueue.next (tidy_resolveStep hstep).2 cases)
  have hfuel : r₁.resolved.size ≤ ([] : List StepId).length + (stepBound q + 1) := by
    have hsize := r₁.resolved.length_keys
    have hsub : (⟨resolvedTable r₁, .empty, none⟩ : RawTable).table.steps.keys ⊆ q.steps.keys := by
      rw [hq]
      exact fun _ hs => hs
    have hbound := keys_length_le_stepBound hsub
    have hlt := Nat.lt_two_pow_self (n := r₁.resolved.keys.length)
    simp only [resolvedTable] at hbound
    omega
  have hagain := explore_again hexplore hqueue hq (fun s hs => ?_) (fun s cases hs c hc t ht => ?_)
    hfuel
  · rw [hr, ← hnew] at hagain
    exact hagain
  · rw [List.mem_singleton.1 hs, hinitial]
    exact Option.some_ne_none cases
  · exact IdMap.mem_keys.1 (Table.mem_keys_of_check hcheck ⟨c, ⟨cases, hs, hc⟩, ht⟩)

/-- **What is resolved stays resolved.** Once more from the same step a resolved table comes out as it
is, and nothing is merged. -/
theorem RawTable.resolve_resolved (h : raw.resolve initial first limit = .ok table)
    (acceptors : IdMap StepId) (start : Option StepId) (first' : StepId) (limit' : Option Int) :
    let again : RawTable := ⟨table, acceptors, start⟩
    again.resolve initial first' limit' = .ok table ∧
      ∃ r, (ResolutionM.resolve initial).run (.ofRaw again first' limit') = .ok table r ∧
        r.merged = [] ∧ r.nextStep = first' := by
  intro again
  obtain ⟨r₁, hrun⟩ := RawTable.resolve_eq_ok.1 h
  obtain ⟨hfrom, rfl, hcheck⟩ := ResolutionM.resolve_eq_ok.1 hrun
  have hagain := ResolutionM.resolveFrom_again (q := .ofRaw again first' limit') hfrom rfl hcheck
    rfl rfl
  have htable : ResolutionM.resolvedTable r₁ = ResolutionM.resolvedTable
      { Resolution.ofRaw again first' limit' with resolved := r₁.resolved } :=
    congrArg (Table.mk r₁.resolved) (IdMap.filterKeys_filterKeys _ _).symm
  have hrun' : ResolutionM.resolve initial (.ofRaw again first' limit') = .ok _ _ :=
    ResolutionM.resolve_eq_ok.2 ⟨hagain, htable, hcheck⟩
  exact ⟨RawTable.resolve_eq_ok.2 ⟨_, hrun'⟩, _, hrun', rfl, rfl⟩

/-- Step 8 was merged of 1 and 2. The second time there is no room for any merged step. -/
theorem RawTable.resolve_resolved_merged :
    let raw : RawTable := ⟨⟨⟨[(0, [⟨⟨97, 98⟩, .go 1 []⟩, ⟨⟨97, 97⟩, .go 2 []⟩, ⟨⟨97, 97⟩, .accept 1⟩]),
      (1, [⟨⟨97, 97⟩, .accept 1⟩]), (2, [⟨⟨98, 98⟩, .go 3 []⟩]), (3, []), (7, [])], by decide⟩,
      ⟨[(2, 1), (3, 0), (7, 2)], by decide⟩⟩, .empty, some 0⟩
    ∃ table, raw.resolve 0 8 none = .ok table ∧ table.steps.keys = [0, 8, 2, 1, 3] ∧
      let again : RawTable := ⟨table, .empty, some 0⟩
      again.resolve 0 9 (some 0) = .ok table ∧
        ∃ r, (ResolutionM.resolve 0).run (.ofRaw again 9 (some 0)) = .ok table r ∧
          r.merged = [] ∧ r.nextStep = 9 := by
  intro raw
  have hresolve : (raw.resolve 0 8 none).toOption.map (·.steps.keys) = some [0, 8, 2, 1, 3] := by
    decide +kernel
  obtain ⟨table, htable, hkeys⟩ := Option.map_eq_some_iff.1 hresolve
  have htable := toOption_eq_some.1 htable
  exact ⟨table, htable, hkeys, resolve_resolved htable .empty (some 0) 9 (some 0)⟩

end Munch
