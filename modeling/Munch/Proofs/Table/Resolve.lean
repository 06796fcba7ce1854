/-
Resolving all steps that can be reached. The queue holds every step that was named and not yet
resolved, each of them once. Different steps stand for different sets of raw steps, so there are only
finitely many (`length_le_stepBound`), and when the queue is empty every resolved step leads to
resolved ones and can be reached from the first one (`resolve_ensures`).
-/
import Mathlib.Algebra.Group.Nat.Defs
import Mathlib.Data.List.Sort
import Mathlib.Data.List.Sublists
import Munch.Proofs.Answers
import Munch.Proofs.Table.Check
import Munch.Proofs.Table.Combine

namespace Munch

namespace Resolution

variable {raw : RawTable} {first : StepId} {limit : Option Int} {r r' : Resolution}
  {seen done members : List StepId} {s : StepId}

/-- What is resolved leads to steps that were seen. -/
structure Explored (raw : RawTable) (first : StepId) (limit : Option Int) (seen done : List StepId)
    (r : Resolution) : Prop where
  sound : Sound raw first limit r
  nodup : seen.Nodup
  stands : ∀ s ∈ seen, ∃ members, r.Stands raw s members
  done : ∀ s, s ∈ done ↔ r.resolved.get? s ≠ none
  named : ∀ s cases, r.resolved.get? s = some cases →
    ∀ c ∈ cases, ∀ t ∈ c.transition.steps, t ∈ seen
  resolves : ∀ s cases, r.resolved.get? s = some cases →
    ∃ members, r.Stands raw s members ∧ Resolves raw r members cases

/-- What was seen is named by resolved steps, which themselves are reached so from the initial one. -/
def Reached (initial : StepId) (seen : List StepId) (r : Resolution) : Prop :=
  ∀ s ∈ seen, Relation.ReflTransGen (ResolutionM.resolvedTable r).Leads initial s

/-! ## How many steps there are -/

/-- The members of a step are some of all raw steps in ascending order. -/
theorem sublist_of_isMembers (h : raw.IsMembers members) :
    members.Sublist (sortDistinct raw.table.steps.keys) := by
  have hle {l : List Int} (hl : l.Pairwise (· < ·)) : l.Pairwise (· ≤ ·) := hl.imp Int.le_of_lt
  have hnodup : members.Nodup := h.ascending.imp Int.ne_of_lt
  refine List.sublist_of_subperm_of_pairwise (List.subperm_of_subset hnodup fun s hs => ?_)
    (hle h.ascending) (hle (pairwise_sortDistinct _))
  exact mem_sortDistinct.2 (IdMap.mem_keys.2 (h.isRaw s hs))

theorem length_le_of_stands (h : Sound raw first limit r) (hraw : raw.Resolvable first)
    (hn : seen.Nodup) (hs : ∀ s ∈ seen, ∃ members, r.Stands raw s members) :
    seen.length ≤ 2 ^ raw.table.steps.keys.length := by
  have hstands (s : StepId) (hmem : s ∈ seen) : r.Stands raw s (r.members s) := by
    obtain ⟨members, hms⟩ := hs s hmem
    exact (h.members_eq hraw.free hms).symm ▸ hms
  have hmap : (seen.map r.members).Nodup := hn.map_on fun s hsm t htm heq =>
    h.unique (hstands s hsm) (heq ▸ hstands t htm)
  have hsub : seen.map r.members ⊆ (sortDistinct raw.table.steps.keys).sublists := by
    intro ms hms
    obtain ⟨s, hsm, rfl⟩ := List.mem_map.1 hms
    exact List.mem_sublists.2 (sublist_of_isMembers (h.isMembers (hstands s hsm)))
  have hlen := (List.subperm_of_subset hmap hsub).length_le
  rw [List.length_map, List.length_sublists] at hlen
  refine Nat.le_trans hlen (Nat.pow_le_pow_right (by omega) ?_)
  exact (List.subperm_of_subset (nodup_sortDistinct _) fun s => mem_sortDistinct.1).length_le

theorem keys_length_le_stepBound (h : raw.table.steps.keys ⊆ r.steps.keys) :
    2 ^ raw.table.steps.keys.length ≤ ResolutionM.stepBound r := by
  refine Nat.le_trans (Nat.pow_le_pow_right (by omega) ?_) (Nat.le_add_left _ _)
  refine (List.subperm_of_subset raw.table.steps.nodup_keys fun s hs => ?_).length_le
  rw [List.mem_eraseDups, ResolutionM.named]
  simp only [List.append_assoc]
  exact List.mem_append_left _ (h hs)

end Resolution

/-! ## When a resolution returns -/

open Resolution

variable {raw : RawTable} {first s : StepId} {limit : Option Int} {r : Resolution}

/-- A raw table is resolved if the steps can be and the table of them passes the check. -/
theorem ResolutionM.resolve_eq_ok {initial : StepId} {r' : Resolution} {table : Table} :
    ResolutionM.resolve initial r = .ok table r' ↔
      resolveFrom initial r = .ok () r' ∧ table = resolvedTable r' ∧ table.check = .ok () := by
  refine bind_run_eq_ok.trans ⟨fun h => ?_, fun h => ?_⟩
  · obtain ⟨_, r₁, hfrom, h⟩ := h
    obtain ⟨_, _, hget, h⟩ := bind_run_eq_ok.1 h
    cases hget
    cases hcheck : (resolvedTable r₁).check with
    | ok u =>
      simp only [hcheck] at h
      cases h
      exact ⟨hfrom, rfl, hcheck⟩
    | error e =>
      simp only [hcheck] at h
      cases h
  · obtain ⟨hfrom, rfl, hcheck⟩ := h
    refine ⟨(), r', hfrom, bind_run_eq_ok.2 ⟨r', r', rfl, ?_⟩⟩
    simp only [hcheck]
    rfl

theorem RawTable.resolve_eq_ok {initial : StepId} {table : Table} :
    raw.resolve initial first limit = .ok table ↔
      ∃ r, ResolutionM.resolve initial (.ofRaw raw first limit) = .ok table r := by
  rw [RawTable.resolve, EStateM.run]
  cases ResolutionM.resolve initial (.ofRaw raw first limit) with
  | ok t r => simp
  | error e r => simp

/-! ## The steps that a transition names -/

theorem Combined.stands {range : Interval} {ts : List Transition} {t : Transition}
    (h : Combined raw r range ts t) (hraw : raw.Resolvable first) (hs : s ∈ t.steps) :
    ∃ members, r.Stands raw s members := by
  cases t with
  | accept => cases hs
  | go target conditions =>
    obtain ⟨members, htarget, -, hconds, -⟩ := h
    rcases List.mem_cons.1 hs with rfl | hs
    · exact ⟨members, htarget⟩
    · obtain ⟨c, hc, rfl⟩ := List.mem_map.1 hs
      obtain ⟨-, k, -, hk⟩ := hconds c hc
      exact ⟨[c.step], .inl ⟨hraw.ends c.step k hk, rfl⟩⟩

/-- No case is empty, so each does what some transitions do together. -/
theorem Resolves.exists_combined {members : List StepId} {cases : List Case} {c : Case}
    (h : Resolves raw r members cases) (hc : c ∈ cases) :
    ∃ ts, Combined raw r c.range ts c.transition := by
  have hlo : c.range.contains c.range.lo = true :=
    Interval.contains_iff.2 ⟨Int.le_refl _, h.inOrder.2 c hc⟩
  exact ⟨_, h.combined c hc _ hlo⟩

theorem Resolves.stands {members : List StepId} {cases : List Case} {c : Case}
    (h : Resolves raw r members cases) (hraw : raw.Resolvable first) (hc : c ∈ cases)
    (hs : s ∈ c.transition.steps) : ∃ members, r.Stands raw s members := by
  obtain ⟨ts, hcombined⟩ := h.exists_combined hc
  exact hcombined.stands hraw hs

/-! ## The queue -/

theorem Resolves.resolve {members : List StepId} {cases : List Case}
    (h : Resolves raw r members cases) (s : StepId) (others : List Case) :
    Resolves raw { r with resolved := r.resolved.insert s others } members cases :=
  ⟨h.inOrder, fun c hc n hn => h.combined c hc n hn, h.complete⟩

namespace Resolution

variable {seen done queue members : List StepId} {cases : List Case} {t : StepId}

theorem Sound.resolve (h : Sound raw first limit r) (s : StepId) (cases : List Case) :
    Sound raw first limit { r with resolved := r.resolved.insert s cases } :=
  { h with paired := { h.paired with } }

theorem Stands.resolve (h : r.Stands raw t members) (s : StepId) (cases : List Case) :
    Stands raw { r with resolved := r.resolved.insert s cases } t members := h

/-- One more step is resolved, and what it names for the first time was seen. -/
theorem Explored.step {r' : Resolution} {fresh : List StepId} (hraw : raw.Resolvable first)
    (h : Explored raw first limit seen done r) (hsound : Sound raw first limit r')
    (hext : Extends r r') (hs : r'.Stands raw s members) (hres : Resolves raw r' members cases)
    (hn : fresh.Nodup)
    (hfresh : ∀ t, t ∈ fresh ↔ (∃ c ∈ cases, t ∈ c.transition.steps) ∧ t ∉ seen) :
    Explored raw first limit (seen ++ fresh) (done ++ [s])
      { r' with resolved := r'.resolved.insert s cases } where
  sound := hsound.resolve s cases
  nodup := by
    refine List.nodup_append.2 ⟨h.nodup, hn, fun x hx y hy hxy => ?_⟩
    exact ((hfresh y).1 hy).2 (hxy ▸ hx)
  stands t ht := by
    rcases List.mem_append.1 ht with ht | ht
    · obtain ⟨ms, hms⟩ := h.stands t ht
      exact ⟨ms, (hms.mono hext).resolve s cases⟩
    · obtain ⟨⟨c, hc, hct⟩, -⟩ := (hfresh t).1 ht
      exact hres.stands hraw hc hct
  done t := by
    rw [List.mem_append, List.mem_singleton, h.done, hext.resolved, IdMap.get?_insert]
    by_cases hts : t = s
    · simp [hts]
    · simp [hts]
  named t others ht c hc u hu := by
    rcases IdMap.get?_insert_eq_some ht with ⟨-, rfl, -⟩ | ⟨-, ht⟩
    · by_cases hseen : u ∈ seen
      · exact List.mem_append_left _ hseen
      · exact List.mem_append_right _ ((hfresh u).2 ⟨⟨c, hc, hu⟩, hseen⟩)
    · exact List.mem_append_left _ (h.named t others (hext.resolved ▸ ht) c hc u hu)
  resolves t others ht := by
    rcases IdMap.get?_insert_eq_some ht with ⟨rfl, rfl⟩ | ⟨-, ht⟩
    · exact ⟨members, hs, hres.resolve t others⟩
    · obtain ⟨ms, hms, hr⟩ := h.resolves t others (hext.resolved ▸ ht)
      exact ⟨ms, (hms.mono hext).resolve s cases, (hr.mono hext).resolve s cases⟩

/-- What a step names that is resolved now was reached if the step was. -/
theorem Reached.step {initial : StepId} {r' : Resolution} {fresh : List StepId}
    (h : Reached initial seen r) (hext : Extends r r') (hmem : s ∈ seen)
    (hs : r.resolved.get? s = none) (hfresh : ∀ t ∈ fresh, ∃ c ∈ cases, t ∈ c.transition.steps) :
    Reached initial (seen ++ fresh) { r' with resolved := r'.resolved.insert s cases } := by
  have hkeep {t u : StepId} (ht : (ResolutionM.resolvedTable r).Leads t u) :
      (ResolutionM.resolvedTable { r' with resolved := r'.resolved.insert s cases }).Leads t u := by
    obtain ⟨c, ⟨others, hothers, hc⟩, hu⟩ := ht
    have hne : t ≠ s := by
      rintro rfl
      cases hs.symm.trans hothers
    refine ⟨c, ⟨others, ?_, hc⟩, hu⟩
    exact (IdMap.get?_insert_of_ne hne).trans (hext.resolved ▸ hothers)
  have hseen (t : StepId) (ht : t ∈ seen) : Relation.ReflTransGen (ResolutionM.resolvedTable
      { r' with resolved := r'.resolved.insert s cases }).Leads initial t :=
    Relation.ReflTransGen.mono (fun _ _ => hkeep) _ _ (h t ht)
  intro t ht
  rcases List.mem_append.1 ht with ht | ht
  · exact hseen t ht
  · obtain ⟨c, hc, hct⟩ := hfresh t ht
    exact (hseen s hmem).tail ⟨c, ⟨cases, IdMap.get?_insert_self, hc⟩, hct⟩

end Resolution

namespace ResolutionM

variable {done queue : List StepId} {initial : StepId}

theorem explore_ensures (hraw : raw.Resolvable first) (fuel : Nat)
    (h : Explored raw first limit (done ++ queue) done r)
    (hreached : Reached initial (done ++ queue) r)
    (hfuel : 2 ^ raw.table.steps.keys.length < done.length + fuel) :
    Ensures (explore fuel (done ++ queue) queue) r
      (fun _ r' => ∃ all, Explored raw first limit all all r' ∧ Reached initial all r' ∧
        ∀ s ∈ done ++ queue, s ∈ all)
      fun _ _ => limit ≠ none := by
  induction fuel generalizing r done queue with
  | zero =>
    have hle := length_le_of_stands h.sound hraw h.nodup h.stands
    rw [List.length_append] at hle
    omega
  | succ fuel ih =>
    cases queue with
    | nil =>
      rw [List.append_nil] at h hreached ⊢
      exact ensures_pure ⟨done, h, hreached, fun _ hs => hs⟩
    | cons s queue =>
      rw [explore]
      obtain ⟨members, hs⟩ := h.stands s (by simp)
      refine (resolveStep_ensures h.sound hraw hs).bind fun cases r' hr' => ?_
      obtain ⟨hsound, hext, hres⟩ := hr'
      refine ensures_modify_bind ?_
      dsimp only
      generalize hfresh : (cases.flatMap (·.transition.steps)).eraseDups.filter
        (!(done ++ s :: queue).contains ·) = fresh
      have hmem (t : StepId) : t ∈ fresh ↔
          (∃ c ∈ cases, t ∈ c.transition.steps) ∧ t ∉ done ++ s :: queue := by
        rw [← hfresh]
        simp
      have hn : fresh.Nodup := hfresh ▸ (nodup_eraseDups _).filter _
      have hnext := h.step hraw hsound hext (hs.mono hext) hres hn hmem
      -- What waits is not resolved yet, so no way that led to a step before is lost.
      have hwaits : r.resolved.get? s = none := by
        by_contra hdone
        exact (List.nodup_append.1 h.nodup).2.2 s ((h.done s).2 hdone) s (by simp) rfl
      have hreaches := hreached.step hext (by simp) hwaits fun t ht => ((hmem t).1 ht).1
      have hcons : done ++ s :: queue ++ fresh = done ++ [s] ++ (queue ++ fresh) := by simp
      rw [hcons] at hnext hreaches ⊢
      refine (ih hnext hreaches (by rw [List.length_append, List.length_singleton]; omega)).mono
        fun _ r'' hr'' => ?_
      obtain ⟨all, hall, hreached', hsub⟩ := hr''
      exact ⟨all, hall, hreached', fun t ht => hsub t (by simp at ht ⊢; tauto)⟩

end ResolutionM

/-! ## The resolved table -/

/-- Conditions hold on all bytes of their case, and their steps accept. -/
theorem Resolves.condition {members : List StepId} {cases : List Case} {c : Case}
    {target : StepId} {conditions : List Condition} {d : Condition}
    (h : Resolves raw r members cases) (hc : c ∈ cases) (ht : c.transition = .go target conditions)
    (hd : d ∈ conditions) : d.range = c.range ∧ ∃ k, raw.table.ends.get? d.step = some k := by
  obtain ⟨ts, hcombined⟩ := h.exists_combined hc
  rw [ht] at hcombined
  obtain ⟨-, -, -, hconds, -⟩ := hcombined
  obtain ⟨hrange, k, -, hk⟩ := hconds d hd
  exact ⟨hrange, k, hk⟩

namespace Resolution.Explored

open ResolutionM

variable {all : List StepId}

theorem ends_eq (h : Explored raw first limit all all r) (hs : s ∈ all) :
    (resolvedTable r).ends.get? s = r.ends.get? s := by
  rw [resolvedTable, IdMap.get?_filterKeys, if_pos (IdMap.contains_iff.2 ((h.done s).1 hs))]

theorem mem_keys (h : Explored raw first limit all all r) (hs : s ∈ all) :
    s ∈ (resolvedTable r).steps.keys :=
  IdMap.mem_keys.2 ((h.done s).1 hs)

/-- The resolved table has no gaps and no conflicts. -/
theorem consistent (h : Explored raw first limit all all r) (hraw : raw.Resolvable first) :
    (resolvedTable r).Consistent where
  ends s hs := by
    by_contra hn
    refine IdMap.mem_keys.1 hs ?_
    rw [resolvedTable, IdMap.get?_filterKeys, if_neg]
    exact fun hcontains => hn (IdMap.contains_iff_mem_keys.1 hcontains)
  inOrder s cases hs := by
    obtain ⟨members, -, hres⟩ := h.resolves s cases hs
    exact hres.inOrder
  target s c target conditions hc ht := by
    obtain ⟨cases, hcases, hc⟩ := hc
    exact h.mem_keys (h.named s cases hcases c hc target (ht ▸ List.mem_cons_self))
  condition s c target conditions hc ht d hd := by
    obtain ⟨cases, hcases, hc⟩ := hc
    obtain ⟨members, -, hres⟩ := h.resolves s cases hcases
    obtain ⟨hrange, k, hk⟩ := hres.condition hc ht hd
    have hmem : d.step ∈ all := h.named s cases hcases c hc d.step
      (ht ▸ List.mem_cons_of_mem _ (List.mem_map_of_mem hd))
    have hfree := hraw.free d.step (hraw.ends d.step k hk)
    refine ⟨h.mem_keys hmem, IdMap.mem_keys.2 ?_, hrange⟩
    rw [h.ends_eq hmem, h.sound.ends d.step hfree, hk]
    exact Option.some_ne_none k

end Resolution.Explored

theorem Resolution.sound_ofRaw (hraw : raw.Resolvable first) :
    Sound raw first limit (.ofRaw raw first limit) where
  acceptors := rfl
  maxSteps := rfl
  steps _ _ := rfl
  ends _ _ := rfl
  first_le := Int.le_refl _
  merged _ _ h := by cases h
  fresh s hs := by
    by_contra hn
    obtain ⟨k, hk⟩ := Option.ne_none_iff_exists'.1 hn
    exact Int.not_lt.2 hs (hraw.free s (hraw.ends s k hk))
  paired := .ofRaw
  nodup := .nil
  nodup_keys := .nil

/-- A resolution ends with a table whose steps are all resolved; without a limit it does end. -/
theorem ResolutionM.resolve_ensures {initial : StepId} (hraw : raw.Resolvable first)
    (hi : raw.table.steps.get? initial ≠ none) :
    Ensures (resolve initial) (.ofRaw raw first limit)
      (fun table r => ∃ all, Explored raw first limit all all r ∧ initial ∈ all ∧
        Reached initial all r ∧ table = resolvedTable r)
      fun _ _ => limit ≠ none := by
  have hstart : Explored raw first limit ([] ++ [initial]) [] (.ofRaw raw first limit) := by
    refine ⟨sound_ofRaw hraw, by simp, fun s hs => ?_, fun s => ?_, fun s cases hs => ?_,
      fun s cases hs => ?_⟩
    · obtain rfl : s = initial := by simpa using hs
      exact ⟨[s], .inl ⟨hi, rfl⟩⟩
    · simp [Resolution.ofRaw]
    · cases hs
    · cases hs
  have hreached : Reached initial ([] ++ [initial]) (.ofRaw raw first limit) := by
    intro s hs
    obtain rfl : s = initial := by simpa using hs
    exact .refl
  have hfuel : 2 ^ raw.table.steps.keys.length ≤ stepBound (.ofRaw raw first limit) :=
    keys_length_le_stepBound fun _ hs => hs
  have hexplore := explore_ensures hraw
    (stepBound (.ofRaw raw first limit) + 1) hstart hreached (by simp; omega)
  refine Ensures.bind (Q := fun _ r => ∃ all, Explored raw first limit all all r ∧ initial ∈ all ∧
    Reached initial all r) ?_ ?_
  · refine ensures_get_bind (hexplore.mono fun _ r h => ?_)
    obtain ⟨all, hall, hreached, hsub⟩ := h
    exact ⟨all, hall, hsub initial (by simp), hreached⟩
  · intro _ r h
    obtain ⟨all, hall, hmem, hreached⟩ := h
    refine ensures_get_bind ?_
    simp only [(hall.consistent hraw).check_eq_ok]
    exact ensures_pure ⟨all, hall, hmem, hreached, rfl⟩

end Munch
