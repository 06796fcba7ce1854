/-
Resolution ends, however the cases of a raw table overlap and go back to each other. A merged step
stands for at least two raw steps and no two stand for the same, so of `n` raw steps there are at
most `2 ^ n - n - 1` merged ones (`Bounded.length_merged`). Nothing is asked of what the table accepts
or of its conditions: a step that is named but missing ends the resolution with an error.

So the work on the queue comes to an end, and `resolveFrom` does all of it: `resolveFrom_works` says so
of every table, even if its cases go on at steps that it does not have.
-/
import Munch.Proofs.Table.Resolve
import Munch.Proofs.Table.Upkeep

namespace Munch

/-- The limit on merged steps was the reason to give up. -/
def Error.IsUnconverged : Error → Prop
  | .rejected ⟨.ambiguous (.unconverged _) _, _, _⟩ => True
  | _ => False

variable {raw : RawTable} {first : StepId} {limit : Option Int} {r r' : Resolution}
  {members : List StepId} {s t : StepId} {cases : List Case} {e : Error}

namespace RawTable

/-- Cases go on at steps of the table, and ids from `first` on are free. -/
structure Closed (raw : RawTable) (first : StepId) : Prop where
  goes : ∀ s cases c target conditions, raw.table.steps.get? s = some cases → c ∈ cases →
    c.transition = .go target conditions → raw.table.steps.get? target ≠ none
  free : ∀ s, raw.table.steps.get? s ≠ none → s < first

theorem closed_of_entries (h : ∀ e ∈ raw.table.steps.entries, e.1 < first ∧
    ∀ c ∈ e.2, ∀ s ∈ c.transition.steps, s ∈ raw.table.steps.keys) : raw.Closed first where
  goes s cases c target conditions hs hc ht := by
    obtain ⟨-, hgoes⟩ := h _ (IdMap.get?_eq_some_iff.1 hs)
    exact IdMap.mem_keys.1 (hgoes c hc target (by simp [ht, Transition.steps]))
  free s hs := by
    obtain ⟨cases, hcases⟩ := Option.ne_none_iff_exists'.1 hs
    exact (h _ (IdMap.get?_eq_some_iff.1 hcases)).1

/-- How many sets of at least two raw steps there are. -/
def mergeBound (raw : RawTable) : Nat :=
  2 ^ raw.table.steps.size - raw.table.steps.size - 1

/-- A transition that goes on at a raw step, if it goes on. -/
def GoesRaw (raw : RawTable) (t : Transition) : Prop :=
  ∀ target conditions, t = .go target conditions → raw.table.steps.get? target ≠ none

end RawTable

namespace Resolution

/-- Each merged step has an id and raw members of its own, and there are no steps beside the raw and
the merged ones. -/
structure Bounded (raw : RawTable) (first : StepId) (limit : Option Int) (r : Resolution) : Prop where
  maxSteps : r.maxSteps = limit
  first_le : first ≤ r.nextStep
  merged : ∀ members s, (members, s) ∈ r.merged →
    first ≤ s ∧ raw.IsMembers members ∧ members.length ≠ 1
  paired : r.Paired
  nodup_keys : (r.merged.map (·.1)).Nodup
  goes : ∀ s cases, r.steps.get? s = some cases → ∀ c ∈ cases, raw.GoesRaw c.transition
  known : ∀ s, r.steps.get? s ≠ none → ∃ members, r.Stands raw s members
  resolved : ∀ s, r.resolved.get? s ≠ none → ∃ members, r.Stands raw s members

/-! ## How many merged steps there are -/

/-- Sets of at least two raw steps are not all the sets of raw steps: the empty one and those of one
step are missing. -/
theorem length_le_mergeBound {sets : List (List StepId)} (hn : sets.Nodup)
    (h : ∀ members ∈ sets, raw.IsMembers members ∧ members.length ≠ 1) :
    sets.length ≤ raw.mergeBound := by
  have hkeys := raw.table.steps.nodup_keys
  have hsingle (s : StepId) (hs : s ∈ raw.table.steps.keys) : raw.IsMembers [s] :=
    ⟨List.pairwise_singleton _ s, by simp, by simpa using IdMap.mem_keys.1 hs⟩
  have hnodup : ([] :: raw.table.steps.keys.map ([·]) ++ sets).Nodup := by
    refine List.nodup_append.2 ⟨List.nodup_cons.2 ⟨by simp, ?_⟩, hn, ?_⟩
    · exact List.Nodup.map (fun _ _ heq => (List.cons.inj heq).1) hkeys
    · intro a ha members hmem heq
      obtain ⟨hmembers, hlength⟩ := h members hmem
      subst heq
      rcases List.mem_cons.1 ha with rfl | ha
      · exact hmembers.ne_nil rfl
      · obtain ⟨s, -, rfl⟩ := List.mem_map.1 ha
        exact hlength rfl
  have hsub : [] :: raw.table.steps.keys.map ([·]) ++ sets ⊆
      (sortDistinct raw.table.steps.keys).sublists := by
    intro members hmem
    rw [List.mem_sublists]
    simp only [List.cons_append, List.mem_cons, List.mem_append, List.mem_map] at hmem
    rcases hmem with rfl | ⟨s, hs, rfl⟩ | hmem
    · exact List.nil_sublist _
    · exact sublist_of_isMembers (hsingle s hs)
    · exact sublist_of_isMembers (h members hmem).1
  have hsorted : (sortDistinct raw.table.steps.keys).length ≤ raw.table.steps.keys.length :=
    (List.subperm_of_subset (nodup_sortDistinct _) fun s => mem_sortDistinct.1).length_le
  have hle := (List.subperm_of_subset hnodup hsub).length_le
  rw [List.length_sublists] at hle
  have hsize := raw.table.steps.length_keys
  have hpow := Nat.pow_le_pow_right (n := 2) (by decide) (hsize ▸ hsorted)
  simp only [List.length_append, List.length_cons, List.length_map, hsize] at hle
  unfold RawTable.mergeBound
  omega

namespace Bounded

theorem length_merged (h : Bounded raw first limit r) : r.merged.length ≤ raw.mergeBound := by
  rw [← List.length_map (·.1)]
  refine length_le_mergeBound h.nodup_keys fun members hmem => ?_
  obtain ⟨⟨_, s⟩, hs, rfl⟩ := List.mem_map.1 hmem
  exact (h.merged _ s hs).2

/-- There is room for one more set of members. -/
theorem length_lt (h : Bounded raw first limit r) (hm : raw.IsMembers members)
    (hlength : members.length ≠ 1) (hnew : ∀ s, (members, s) ∉ r.merged) :
    r.merged.length < raw.mergeBound := by
  have hnodup : (members :: r.merged.map (·.1)).Nodup := by
    refine List.nodup_cons.2 ⟨fun hmem => ?_, h.nodup_keys⟩
    obtain ⟨⟨_, s⟩, hs, rfl⟩ := List.mem_map.1 hmem
    exact hnew s hs
  have hall : ∀ ms ∈ members :: r.merged.map (·.1), raw.IsMembers ms ∧ ms.length ≠ 1 := by
    intro ms hmem
    rcases List.mem_cons.1 hmem with heq | hmem
    · exact heq ▸ ⟨hm, hlength⟩
    · obtain ⟨⟨_, s⟩, hs, rfl⟩ := List.mem_map.1 hmem
      exact (h.merged _ s hs).2
  have hle := length_le_mergeBound hnodup hall
  rwa [List.length_cons, List.length_map] at hle

theorem size_resolved (h : Bounded raw first limit r) :
    r.resolved.size ≤ 2 ^ raw.table.steps.size - 1 := by
  have hsub : r.resolved.keys ⊆ raw.table.steps.keys ++ r.merged.map (·.2) := by
    intro s hs
    obtain ⟨members, ⟨hs, -⟩ | hs⟩ := h.resolved s (IdMap.mem_keys.1 hs)
    · exact List.mem_append_left _ (IdMap.mem_keys.2 hs)
    · exact List.mem_append_right _ (List.mem_map.2 ⟨_, hs, rfl⟩)
  have hle : r.resolved.keys.length ≤ (raw.table.steps.keys ++ r.merged.map (·.2)).length :=
    (List.subperm_of_subset r.resolved.nodup_keys hsub).length_le
  rw [IdMap.length_keys, List.length_append, IdMap.length_keys, List.length_map] at hle
  have hmerged := h.length_merged
  have hlt := Nat.lt_two_pow_self (n := raw.table.steps.size)
  unfold RawTable.mergeBound at hmerged
  omega

theorem isMembers_members (h : Bounded raw first limit r) (hs : ∃ members, r.Stands raw s members) :
    raw.IsMembers (r.members s) := by
  rcases h.paired.members_cases s with ⟨heq, hnone⟩ | hmem
  · obtain ⟨members, ⟨hraw, rfl⟩ | hmem⟩ := hs
    · exact heq ▸ ⟨List.pairwise_singleton _ s, by simp, by simpa using hraw⟩
    · exact absurd hmem (hnone members)
  · exact (h.merged _ s hmem).2.1

theorem ofRaw (h : raw.Closed first) : Bounded raw first limit (.ofRaw raw first limit) where
  maxSteps := rfl
  first_le := Int.le_refl _
  merged _ _ h := by cases h
  paired := .ofRaw
  nodup_keys := .nil
  goes s cases hs c hc target conditions ht := h.goes s cases c target conditions hs hc ht
  known s hs := ⟨[s], .inl ⟨hs, rfl⟩⟩
  resolved s hs := absurd rfl hs

theorem announce (h : Bounded raw first limit r) (hm : raw.IsMembers members)
    (hlength : members.length ≠ 1) (hnew : ∀ s, (members, s) ∉ r.merged) :
    Bounded raw first limit (r.announce members) where
  maxSteps := h.maxSteps
  first_le := Int.le_trans h.first_le (Int.le_of_lt (Int.lt_succ _))
  merged ms t ht := by
    rcases List.mem_append.1 ht with ht | ht
    · exact h.merged ms t ht
    · obtain ⟨rfl, rfl⟩ := Prod.mk.inj (List.mem_singleton.1 ht)
      exact ⟨h.first_le, hm, hlength⟩
  paired := h.paired.announce members
  nodup_keys := by
    refine nodup_map_snoc h.nodup_keys fun hmem => ?_
    obtain ⟨⟨_, t⟩, ht, rfl⟩ := List.mem_map.1 hmem
    exact hnew t ht
  goes := h.goes
  known t ht := (h.known t ht).imp fun _ => Or.imp_right (List.mem_append_left _)
  resolved t ht := (h.resolved t ht).imp fun _ => Or.imp_right (List.mem_append_left _)

/-- The bounds hold when one more step that is known was resolved. -/
theorem resolve (h : Bounded raw first limit r)
    (hs : ∃ members, r.Stands raw s members) (cases : List Case) :
    Bounded raw first limit { r with resolved := r.resolved.insert s cases } :=
  { h with
    paired := { h.paired with }
    resolved := fun t ht => by
      by_cases hts : t = s
      · exact hts ▸ hs
      · exact h.resolved t (by rwa [IdMap.get?_insert_of_ne hts] at ht) }

end Bounded

end Resolution

/-! ## Merging and resolving within the bounds -/

namespace ResolutionM

open Resolution

/-- If merged steps are wanting, the limit is too low for all sets of steps. -/
def FailsLow (raw : RawTable) (limit : Option Int) (e : Error) : Prop :=
  e.IsUnconverged → ∃ n, limit = some n ∧ n < raw.mergeBound

theorem register_bounded (h : Bounded raw first limit r) (hm : raw.IsMembers members)
    (hlength : members.length ≠ 1) (hnew : ∀ s, (members, s) ∉ r.merged) :
    Keeps (Bounded raw first limit) (FailsLow raw limit) (register members) r
      fun s r' => ∃ members, r'.Stands raw s members := by
  refine ensures_register ?_
  have hannounced := h.announce hm hlength hnew
  refine (casesOfAll_reads hannounced.goes (fun _ => ⟨hannounced, False.elim⟩) members).bind
    fun cases r' hr' => ?_
  obtain ⟨rfl, hcases⟩ := hr'
  have hstands : (members, r.nextStep) ∈ (r.announce members).merged :=
    List.mem_append_right _ (List.mem_singleton_self _)
  refine ensures_modify_bind (ensures_pure ⟨{ hannounced with
    paired := { hannounced.paired with }
    goes := fun t others ht c hc => ?_
    known := fun t ht => ?_ },
    ⟨fun e he => List.mem_append_left _ he, rfl⟩, members, .inr hstands⟩)
  · rcases IdMap.get?_insert_eq_some ht with ⟨-, rfl⟩ | ⟨-, ht⟩
    · exact hcases c hc
    · exact h.goes t others ht c hc
  · by_cases hts : t = r.nextStep
    · exact ⟨members, .inr (hts ▸ hstands)⟩
    · exact hannounced.known t (by rwa [IdMap.get?_insert_of_ne hts] at ht)

theorem merge_bounded (h : Bounded raw first limit r) (hs : ∃ members, r.Stands raw s members)
    (ht : ∃ members, r.Stands raw t members) :
    Keeps (Bounded raw first limit) (FailsLow raw limit) (merge s t) r
      fun u r' => ∃ members, r'.Stands raw u members := by
  have hunion := isMembers_union (h.isMembers_members hs) (h.isMembers_members ht)
  rcases merge_cases s t r with ⟨u, hu, heq⟩ | ⟨hnone, -, heq⟩ | ⟨hnone, n, hn, hfull, heq⟩
  · refine .congr (x := pure u) heq (keeps_pure h ?_)
    rcases joint?_eq_some hu with ⟨-, rfl⟩ | hmem
    · exact hs
    · exact ⟨_, .inr hmem⟩
  · obtain ⟨hlength, hnew⟩ := joint?_eq_none hnone
    exact .congr heq (register_bounded h hunion hlength hnew)
  -- The limit is not reached as long as there is room for a set that was not merged.
  · obtain ⟨hlength, hnew⟩ := joint?_eq_none hnone
    have hroom := h.length_lt hunion hlength hnew
    refine .congr (x := throw _) heq (keeps_throw h fun _ => ⟨n, h.maxSteps ▸ hn, ?_⟩)
    omega

theorem bounded_upkeep (raw : RawTable) (first : StepId) (limit : Option Int) :
    Upkeep (Bounded raw first limit) (fun r s => ∃ members, r.Stands raw s members)
      (FailsLow raw limit) where
  mono _ _ _ hs hext := hs.imp fun _ hms => hms.mono hext
  known _ s hr hs := hr.known s hs
  goes _ s cases c target conditions hr hs hc ht :=
    ⟨[target], .inl ⟨hr.goes s cases hs c hc target conditions ht, rfl⟩⟩
  merge _ _ _ hr hs ht := merge_bounded hr hs ht
  resolve _ _ cases hr hs := hr.resolve hs cases
  noStep _ := False.elim
  noAcceptingStep _ := False.elim

/-! ## The fuel -/

/-- The table with an empty step for every id that it names. -/
def padded (raw : RawTable) : RawTable :=
  { raw with table.steps := .ofList ((named (.ofRaw raw 0 none)).eraseDups.map (·, [])) }

theorem keys_padded (raw : RawTable) :
    (padded raw).table.steps.keys = (named (.ofRaw raw 0 none)).eraseDups := by
  have hkeys {l : List StepId} : (l.map fun s => (s, ([] : List Case))).map (·.1) = l := by
    rw [List.map_map]
    exact List.map_id l
  rw [IdMap.keys, padded, IdMap.entries_ofList (hkeys ▸ nodup_eraseDups _), hkeys]

theorem get?_padded (hs : s ∈ named (.ofRaw raw 0 none)) :
    (padded raw).table.steps.get? s ≠ none := by
  rw [← IdMap.mem_keys, keys_padded]
  exact List.mem_eraseDups.2 hs

theorem bounded_padded (raw : RawTable) (first : StepId) (limit : Option Int) :
    Bounded (padded raw) first limit (.ofRaw raw first limit) where
  maxSteps := rfl
  first_le := Int.le_refl _
  merged _ _ h := by cases h
  paired := .ofRaw
  nodup_keys := .nil
  goes s cases hs c hc target conditions ht := by
    refine get?_padded ?_
    simp only [named, List.append_assoc]
    refine List.mem_append_right _ (List.mem_append_left _ ?_)
    exact List.mem_flatMap.2 ⟨_, IdMap.get?_eq_some_iff.1 hs, List.mem_flatMap.2
      ⟨c, hc, by simp [ht, Transition.steps]⟩⟩
  known s hs := by
    refine ⟨[s], .inl ⟨get?_padded ?_, rfl⟩⟩
    simp only [named, List.append_assoc]
    exact List.mem_append_left _ (IdMap.mem_keys.2 hs)
  resolved s hs := absurd rfl hs

/-- The work on the queue of a raw table ends, whatever the table is, and all of it is done. -/
theorem resolveFrom_works (raw : RawTable) (first : StepId) (limit : Option Int)
    (initial : StepId) :
    Works [initial] [initial] (.ofRaw raw first limit)
      (resolveFrom initial (.ofRaw raw first limit)) := by
  have hsize : (padded raw).table.steps.size = (named (.ofRaw raw first limit)).eraseDups.length :=
    (IdMap.length_keys _).symm.trans (congrArg List.length (keys_padded raw))
  have hbound : 2 ^ (padded raw).table.steps.size - 1 ≤ stepBound (.ofRaw raw first limit) := by
    rw [hsize]
    exact Nat.le_trans (Nat.sub_le _ 1) (Nat.le_add_left _ _)
  exact (bounded_upkeep (padded raw) first limit).resolveFrom_works
    (fun r hr => hr.size_resolved) (bounded_padded raw first limit) hbound initial

theorem resolveFrom_bounded (h : raw.Closed first)
    (hlimit : ∀ n ∈ limit, (raw.mergeBound : Int) ≤ n) (initial : StepId) :
    Ensures (resolveFrom initial) (.ofRaw raw first limit) (fun _ r => Bounded raw first limit r)
      fun e r => Bounded raw first limit r ∧ ¬e.IsUnconverged := by
  have hexplore := (bounded_upkeep raw first limit).explore_keeps
    (stepBound (.ofRaw raw first limit) + 1) [initial] [initial] (.ofRaw h)
  refine ensures_get_bind (hexplore.imp (fun _ _ hr => hr) fun e r hr => ⟨hr.1, fun he => ?_⟩)
  obtain ⟨n, hn, hlt⟩ := hr.2 he
  exact absurd (hlimit n hn) (Int.not_le.2 hlt)

end ResolutionM

/-! ## The check at the end -/

namespace Table

variable {table : Table}

theorem not_isUnconverged_of_checkTransition {c : Case}
    (h : table.checkTransition s c = .error e) : ¬e.IsUnconverged := by
  unfold checkTransition at h
  split at h
  · cases h
  · split at h
    · obtain ⟨d, -, hd⟩ := forM_eq_error h
      unfold checkCondition at hd
      split at hd
      · cases hd
        exact id
      · split at hd
        · cases hd
          exact id
        · cases hd
    · cases h
      exact id

theorem not_isUnconverged_of_checkCases (h : table.checkCases s cases = .error e) :
    ¬e.IsUnconverged := by
  induction cases with
  | nil => cases h
  | cons c later ih =>
    rcases bind_eq_error h with hoverlap | ⟨_, -, h⟩
    · unfold checkOverlap at hoverlap
      split at hoverlap
      · cases hoverlap
        exact id
      · cases hoverlap
    · rcases bind_eq_error h with htransition | ⟨_, -, hlater⟩
      · exact not_isUnconverged_of_checkTransition htransition
      · exact ih hlater

theorem not_isUnconverged_of_check (h : table.check = .error e) : ¬e.IsUnconverged := by
  rcases bind_eq_error h with hsteps | ⟨_, -, hends⟩
  · obtain ⟨entry, -, hentry⟩ := forM_eq_error hsteps
    exact not_isUnconverged_of_checkCases hentry
  · obtain ⟨step, -, hstep⟩ := forM_eq_error hends
    unfold checkEnd at hstep
    split at hstep
    · cases hstep
    · cases hstep
      exact id

end Table

/-- With room for all sets of steps, a resolution does not fail for want of merged steps. -/
theorem RawTable.not_isUnconverged_of_resolve {initial : StepId} (h : raw.Closed first)
    (hlimit : ∀ n ∈ limit, (raw.mergeBound : Int) ≤ n)
    (he : raw.resolve initial first limit = .error e) : ¬e.IsUnconverged := by
  have hresolve : Ensures (ResolutionM.resolve initial) (.ofRaw raw first limit)
      (fun _ _ => True) fun e _ => ¬e.IsUnconverged := by
    have hfrom := ResolutionM.resolveFrom_bounded h hlimit initial
    refine (hfrom.imp (fun _ _ h => h) fun _ _ h => h.2).bind fun _ r _ => ensures_get_bind ?_
    dsimp only
    split
    · exact ensures_pure trivial
    · next hcheck => exact ensures_throw (Table.not_isUnconverged_of_check hcheck)
  rw [RawTable.resolve, EStateM.run] at he
  split at he
  · cases he
  · next hrun =>
    obtain rfl := Except.error.inj he
    exact hresolve.of_error hrun

/-- Without a limit the work ends, with few enough merged steps and few enough steps in all; and with
a limit that these do not exceed it is not the limit that ends it. -/
theorem RawTable.resolve_stops (h : raw.Closed first) (initial : StepId) :
    ResolutionM.Works [initial] [initial] (.ofRaw raw first none)
        (ResolutionM.resolveFrom initial (.ofRaw raw first none)) ∧
      Ensures (ResolutionM.resolveFrom initial) (.ofRaw raw first none)
        (fun _ r => r.merged.length ≤ raw.mergeBound ∧
          r.resolved.size ≤ 2 ^ raw.table.steps.size - 1)
        (fun _ r => r.merged.length ≤ raw.mergeBound ∧
          r.resolved.size ≤ 2 ^ raw.table.steps.size - 1) ∧
      ∀ limit : Int, raw.mergeBound ≤ limit → ∀ e,
        raw.resolve initial first (some limit) = .error e → ¬e.IsUnconverged := by
  have hnone : ∀ n ∈ (none : Option Int), (raw.mergeBound : Int) ≤ n := by simp
  have hworks := ResolutionM.resolveFrom_works raw first none initial
  have hensures := ResolutionM.resolveFrom_bounded h hnone initial
  refine ⟨hworks, ?_, fun limit hlimit e he => ?_⟩
  · exact hensures.imp (fun _ r hr => ⟨hr.length_merged, hr.size_resolved⟩)
      fun _ r hr => ⟨hr.1.length_merged, hr.1.size_resolved⟩
  · exact not_isUnconverged_of_resolve h (by simpa using hlimit) he

/-- How many steps are merged and how many are resolved, if the resolution returns. -/
def ResolutionM.counts (initial : StepId) (r : Resolution) : Option (Nat × Nat) :=
  match resolveFrom initial r with
  | .ok _ r => some (r.merged.length, r.resolved.size)
  | .error _ _ => none

/-- Every set of steps is reached from the first step, which also goes back to itself. -/
theorem RawTable.resolve_stops_full :
    let raw : RawTable := ⟨⟨⟨[(0, [⟨⟨97, 103⟩, .go 0 []⟩, ⟨⟨98, 99⟩, .go 1 []⟩,
      ⟨⟨99, 100⟩, .go 2 []⟩, ⟨⟨120, 121⟩, .go 1 []⟩, ⟨⟨121, 122⟩, .go 2 []⟩]),
      (1, [⟨⟨97, 97⟩, .go 0 []⟩]), (2, [])], by decide⟩, .empty⟩, .empty, some 0⟩
    ∃ r, ResolutionM.Works [0] [0] (.ofRaw raw 3 none) (.ok () r) ∧ r.merged.length = 4 ∧
      r.resolved.size = 7 := by
  intro raw
  have hclosed : raw.Closed 3 := closed_of_entries (by decide +kernel)
  obtain ⟨hworks, -, -⟩ := resolve_stops hclosed 0
  have hcounts : ResolutionM.counts 0 (.ofRaw raw 3 none) = some (4, 7) := by decide +kernel
  rw [ResolutionM.counts] at hcounts
  cases hrun : ResolutionM.resolveFrom 0 (.ofRaw raw 3 none) with
  | error e r =>
    rw [hrun] at hcounts
    cases hcounts
  | ok u r =>
    rw [hrun] at hworks hcounts
    obtain ⟨hmerged, hsize⟩ := Prod.mk.inj (Option.some.inj hcounts)
    exact ⟨r, hworks, hmerged, hsize⟩

end Munch
