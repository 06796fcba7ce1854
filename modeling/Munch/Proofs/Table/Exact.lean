/-
A resolved step is exact. Whatever was called on a resolution before, and whether or not the calls named
steps that are there, the cases that a step comes out with are tidy, and on each number they do just
what all its cases do there together (`resolveStep_exact`). A target stands for all the targets, and the
conditions name the steps for accepted patterns, among them the lowest.
-/
import Munch.Proofs.Table.Upkeep

namespace Munch

open Table Resolution

/-- Goes on without conditions and below `first`, if it goes on. -/
def Transition.IsPlain (first : StepId) : Transition → Prop
  | .go target conditions => conditions = [] ∧ target < first
  | .accept _ => True

instance (first : StepId) : (t : Transition) → Decidable (t.IsPlain first)
  | .go target conditions => inferInstanceAs (Decidable (conditions = [] ∧ target < first))
  | .accept _ => inferInstanceAs (Decidable True)

/-- A raw table without conditions whose cases lead below `first`, as do the steps that accept on
arrival. -/
structure RawTable.Plain (raw : RawTable) (first : StepId) : Prop where
  cases : ∀ s cases, raw.table.steps.get? s = some cases → ∀ c ∈ cases, c.transition.IsPlain first
  ends : ∀ s, raw.table.ends.get? s ≠ none → s < first

variable {raw : RawTable} {first s t : StepId} {limit : Option Int} {r r' : Resolution}
  {members : List StepId} {all cases : List Case} {calls : List Call}

theorem RawTable.plain_of_entries
    (hcases : ∀ e ∈ raw.table.steps.entries, ∀ c ∈ e.2, c.transition.IsPlain first)
    (hends : ∀ s ∈ raw.table.ends.keys, s < first) : raw.Plain first where
  cases s cases hs := hcases (s, cases) (IdMap.get?_eq_some_iff.1 hs)
  ends s hs := hends s (IdMap.mem_keys.2 hs)

namespace Resolution

/-- What stays true of the resolution of a plain table under any calls, even of merged steps whose
members are not there. -/
structure Regular (raw : RawTable) (first : StepId) (r : Resolution) : Prop where
  acceptors : r.acceptors = raw.acceptors
  first_le : first ≤ r.nextStep
  merged : ∀ members s, (members, s) ∈ r.merged →
    (first ≤ s ∧ s < r.nextStep) ∧ members.Pairwise (· < ·) ∧ 2 ≤ members.length
  paired : r.Paired
  nodup : (r.merged.map (·.2)).Nodup
  nodup_keys : (r.merged.map (·.1)).Nodup
  cases : ∀ s cases, r.steps.get? s = some cases → ∀ c ∈ cases, c.transition.IsPlain first
  ends : ∀ s < first, r.ends.get? s = raw.table.ends.get? s
  accepted : ∀ s index, r.ends.get? s = some index → ∃ t, raw.table.ends.get? t = some index

namespace Regular

theorem ofRaw (hraw : raw.Plain first) : Regular raw first (.ofRaw raw first limit) where
  acceptors := rfl
  first_le := Int.le_refl _
  merged _ _ h := by cases h
  paired := .ofRaw
  nodup := .nil
  nodup_keys := .nil
  cases := hraw.cases
  ends _ _ := rfl
  accepted s _ hs := ⟨s, hs⟩

theorem resolve (h : Regular raw first r) (s : StepId) (cases : List Case) :
    Regular raw first { r with resolved := r.resolved.insert s cases } :=
  { h with paired := { h.paired with } }

theorem announce (h : Regular raw first r) (hm : members.Pairwise (· < ·))
    (hlength : 2 ≤ members.length) (hnew : ∀ s, (members, s) ∉ r.merged) :
    Regular raw first (r.announce members) :=
  { h with
    paired := h.paired.announce members
    first_le := Int.le_trans h.first_le (Int.le_of_lt (Int.lt_succ _))
    merged := fun ms t ht => by
      rcases List.mem_append.1 ht with ht | ht
      · obtain ⟨⟨hle, hlt⟩, hms⟩ := h.merged ms t ht
        exact ⟨⟨hle, Int.lt_trans hlt (Int.lt_succ _)⟩, hms⟩
      · obtain ⟨rfl, rfl⟩ := Prod.mk.inj (List.mem_singleton.1 ht)
        exact ⟨⟨h.first_le, Int.lt_succ _⟩, hm, hlength⟩
    nodup := by
      refine nodup_map_snoc h.nodup fun hmem => ?_
      obtain ⟨⟨ms, _⟩, he, rfl⟩ := List.mem_map.1 hmem
      exact absurd (h.merged ms _ he).1.2 (Int.lt_irrefl _)
    nodup_keys := by
      refine nodup_map_snoc h.nodup_keys fun hmem => ?_
      obtain ⟨⟨_, t⟩, he, rfl⟩ := List.mem_map.1 hmem
      exact hnew t he }

/-- What a step stands for is what `members` says. -/
theorem members_eq (h : Regular raw first r) (hs : StandsFor (· < first) r s members) :
    r.members s = members := by
  rcases h.paired.members_cases s with ⟨heq, hnone⟩ | hmem
  · rcases hs with ⟨-, rfl⟩ | hs
    · exact heq
    · exact absurd hs (hnone members)
  · rcases hs with ⟨hs, rfl⟩ | hs
    · exact absurd hs (Int.not_lt.2 (h.merged _ s hmem).1.1)
    · exact (Prod.mk.inj (List.inj_on_of_nodup_map h.nodup hmem hs rfl)).1

theorem ascending (h : Regular raw first r) (s : StepId) : (r.members s).Pairwise (· < ·) := by
  rcases h.paired.members_cases s with ⟨heq, -⟩ | hmem
  · exact heq ▸ List.pairwise_singleton _ s
  · exact (h.merged _ s hmem).2.1

theorem ne_nil (h : Regular raw first r) (s : StepId) : r.members s ≠ [] := by
  rcases h.paired.members_cases s with ⟨heq, -⟩ | hmem
  · exact heq ▸ List.cons_ne_nil s []
  · have hlength := (h.merged _ s hmem).2.2
    exact List.ne_nil_of_length_pos (by omega)

/-- No two steps stand for the same members. -/
theorem eq_of_members_eq (h : Regular raw first r) (heq : r.members s = r.members t) : s = t := by
  rcases h.paired.members_cases s with ⟨hs, -⟩ | hs
  · rcases h.paired.members_cases t with ⟨ht, -⟩ | ht
    · exact List.cons_eq_cons.1 (hs.symm.trans (heq.trans ht)) |>.1
    · have hlength := (h.merged _ t ht).2.2
      rw [← heq, hs] at hlength
      simp at hlength
  · rcases h.paired.members_cases t with ⟨ht, -⟩ | ht
    · have hlength := (h.merged _ s hs).2.2
      rw [heq, ht] at hlength
      simp at hlength
    · exact (Prod.mk.inj (List.inj_on_of_nodup_map h.nodup_keys hs ht heq)).2

end Regular

end Resolution

namespace ResolutionM

/-! ## Merging -/

theorem register_regular (h : Regular raw first r) (hm : members.Pairwise (· < ·))
    (hlength : 2 ≤ members.length) (hnew : ∀ s, (members, s) ∉ r.merged) :
    Keeps (Regular raw first) (fun _ => True) (register members) r
      fun s r' => (members, s) ∈ r'.merged := by
  refine ensures_register ?_
  have hannounced := h.announce hm hlength hnew
  refine (casesOfAll_reads hannounced.cases (fun _ => ⟨hannounced, trivial⟩) members).bind
    fun cases r' hr' => ?_
  obtain ⟨rfl, hcases⟩ := hr'
  refine ensures_modify_bind (ensures_pure ⟨{ hannounced with
    paired := { hannounced.paired with }
    cases := fun t others ht c hc => ?_
    ends := fun t ht => ?_
    accepted := fun t index ht => ?_ }, ⟨fun e he => List.mem_append_left _ he, rfl⟩,
    List.mem_append_right _ (List.mem_singleton_self _)⟩)
  · rcases IdMap.get?_insert_eq_some ht with ⟨-, rfl⟩ | ⟨-, ht⟩
    · exact hcases c hc
    · exact h.cases t others ht c hc
  · have hne : t ≠ r.nextStep := Int.ne_of_lt (Int.lt_of_lt_of_le ht h.first_le)
    refine Eq.trans ?_ (h.ends t ht)
    dsimp only
    split
    · exact IdMap.get?_insert_of_ne hne
    · rfl
  · dsimp only at ht
    split at ht
    · next lowest hmin =>
      rcases IdMap.get?_insert_eq_some ht with ⟨-, rfl⟩ | ⟨-, ht⟩
      · obtain ⟨m, -, hm⟩ := List.mem_filterMap.1 (List.min?_eq_some_iff.1 hmin).1
        exact h.accepted m index hm
      · exact h.accepted t index ht
    · exact h.accepted t index ht

/-- Two steps are merged at the step for the members of both. -/
theorem merge_regular (h : Regular raw first r) (s t : StepId) :
    Keeps (Regular raw first) (fun _ => True) (merge s t) r
      fun u r' => (∃ x, joined r s t = [x]) ∧ u = s ∨ (joined r s t, u) ∈ r'.merged := by
  rcases merge_cases s t r with ⟨u, hu, heq⟩ | ⟨hnone, -, heq⟩ | ⟨-, n, -, -, heq⟩
  · refine .congr (x := pure u) heq (keeps_pure h ?_)
    rcases joint?_eq_some hu with ⟨hone, rfl⟩ | hmem
    · exact .inl ⟨List.length_eq_one_iff.1 hone, rfl⟩
    · exact .inr hmem
  · obtain ⟨hlength, hnew⟩ := joint?_eq_none hnone
    have hpos : 0 < (joined r s t).length := by
      obtain ⟨x, hx⟩ := List.exists_mem_of_ne_nil _ (h.ne_nil s)
      exact List.length_pos_of_mem (mem_sortDistinct.2 (List.mem_append_left _ hx))
    have hascending : (joined r s t).Pairwise (· < ·) := pairwise_sortDistinct _
    have hregister := register_regular h hascending (by omega) hnew
    exact .congr heq (Ensures.mono hregister fun u r' hu => ⟨hu.1, hu.2.1, .inr hu.2.2⟩)
  · exact .congr (x := throw _) heq (keeps_throw h trivial)

/-- No call makes a resolution irregular. -/
theorem regular_upkeep (raw : RawTable) (first : StepId) :
    Upkeep (Regular raw first) (fun _ _ => True) fun _ => True where
  mono _ _ _ _ _ := trivial
  known _ _ _ _ := trivial
  goes _ _ _ _ _ _ _ _ _ _ := trivial
  merge _ s t hr _ _ := Ensures.mono (merge_regular hr s t) fun _ _ h => ⟨h.1, h.2.1, trivial⟩
  resolve _ s cases hr _ := hr.resolve s cases
  noStep _ := trivial
  noAcceptingStep _ := trivial

/-- In a regular resolution the steps below `first` stand for themselves. -/
theorem combining_regular (hraw : raw.Plain first) :
    Combining (Regular raw first) (· < first) raw.Accepts (Transition.IsPlain first)
      fun _ _ => True where
  plain _ _ h := h
  alone r s members h hs hms := (h.members_eq hms).symm.trans (h.members_eq (.inl ⟨hs, rfl⟩))
  acceptor r index h _ :=
    (acceptorOf_accepts h.acceptors h.ends hraw.ends fun s hs => h.accepted s index hs).imp
      (fun _ _ hs => hs) fun _ _ _ => trivial
  joins r s t members h hs ht _ := by
    have hjoined : joined r s t = sortDistinct (members ++ [t]) := by
      rw [joined, h.members_eq hs, h.members_eq (.inl ⟨ht, rfl⟩)]
    refine (merge_regular h s t).imp (fun u r' hu => ?_) fun _ _ _ => trivial
    obtain ⟨hr', hext, ⟨⟨x, hx⟩, rfl⟩ | hmem⟩ := hu
    · -- both stand for the same raw step
      have hsame : ∀ y ∈ members ++ [t], y = x := fun y hy => by
        simpa [← hjoined, hx] using mem_sortDistinct.2 hy
      obtain ⟨m, hm⟩ := List.exists_mem_of_ne_nil _ (h.members_eq hs ▸ h.ne_nil u)
      have htm : t = m := (hsame t (by simp)).trans (hsame m (by simp [hm])).symm
      refine ⟨hr', hext, members, hs.mono hext, fun y => ⟨.inl, fun hy => ?_⟩⟩
      rcases hy with hy | rfl
      · exact hy
      · exact htm ▸ hm
    · exact ⟨hr', hext, _, .inr hmem, fun y => by simp [hjoined, mem_sortDistinct]⟩

end ResolutionM

/-! ## Resolved cases -/

/-- The cases do on each number what all cases of a step do on it together. -/
structure Exact (raw : RawTable) (r : Resolution) (all cases : List Case) : Prop where
  tidy : Tidy cases
  covers : ∀ n, (∃ c ∈ cases, c.range.contains n = true) ↔ ∃ c ∈ all, c.range.contains n = true
  /-- Where no case goes on, the lowest pattern is accepted. -/
  accepts : ∀ c ∈ cases, ∀ n, c.range.contains n = true → following (transitionsAt all n) = [] →
    ∃ index, c.transition = .accept index ∧ Least (· ∈ accepted (transitionsAt all n)) (some index)
  /-- Otherwise the target is the one step for the members of all targets, and the conditions name
  steps of accepted patterns, among them that of the lowest. -/
  goes : ∀ c ∈ cases, ∀ n, c.range.contains n = true → following (transitionsAt all n) ≠ [] →
    ∃ target conditions, c.transition = .go target conditions ∧
      (∀ s, r.members s = sortDistinct ((following (transitionsAt all n)).flatMap r.members) ↔
        s = target) ∧
      (∀ d ∈ conditions, d.range = c.range ∧
        ∃ k ∈ accepted (transitionsAt all n), raw.Accepts k d.step) ∧
      ∀ k, Least (· ∈ accepted (transitionsAt all n)) (some k) →
        ∃ d ∈ conditions, raw.Accepts k d.step

/-- A step that stands for all targets is the only one that does. -/
theorem Resolution.Regular.members_eq_iff (h : Regular raw first r) {targets : List StepId}
    (htargets : ∀ x ∈ targets, x < first) (ht : StandsFor (· < first) r t members)
    (hmem : ∀ x, x ∈ members ↔ x ∈ targets) (s : StepId) :
    r.members s = sortDistinct (targets.flatMap r.members) ↔ s = t := by
  have halone : targets.flatMap r.members = targets := by
    rw [List.flatMap_congr fun x hx => h.members_eq (.inl ⟨htargets x hx, rfl⟩),
      List.flatMap_singleton']
  have hunion : r.members t = sortDistinct (targets.flatMap r.members) := by
    rw [halone]
    refine (h.ascending t).eq_of_mem_iff (pairwise_sortDistinct _) fun {x} => ?_
    rw [h.members_eq ht, mem_sortDistinct, hmem]
  constructor
  · exact fun heq => h.eq_of_members_eq (heq.trans hunion.symm)
  · intro heq
    rw [heq, hunion]

theorem Resolution.Regular.exact_of_combines (h : Regular raw first r) (htidy : Tidy cases)
    (hall : ∀ c ∈ all, c.transition.IsPlain first)
    (hcombines : ∀ c ∈ cases, ∀ n, c.range.contains n = true →
      Combines (· < first) raw.Accepts r c.range (transitionsAt all n) c.transition)
    (hcomplete : ∀ n, transitionsAt all n ≠ [] → ∃ c ∈ cases, c.range.contains n = true) :
    Exact raw r all cases where
  tidy := htidy
  covers n := by
    have hat : transitionsAt all n ≠ [] ↔ ∃ c ∈ all, c.range.contains n = true := by
      simp [transitionsAt]
    rw [← hat]
    refine ⟨fun hc => ?_, hcomplete n⟩
    obtain ⟨c, hc, hn⟩ := hc
    exact (hcombines c hc n hn).ne_nil
  accepts c hc n hn hnone := by
    have hdoes := hcombines c hc n hn
    cases ht : c.transition with
    | accept index =>
      rw [ht] at hdoes
      exact ⟨index, rfl, hdoes.2⟩
    | go target conditions =>
      rw [ht] at hdoes
      exact absurd hnone hdoes.1
  goes c hc n hn hsome := by
    have hdoes := hcombines c hc n hn
    cases ht : c.transition with
    | accept index =>
      rw [ht] at hdoes
      exact absurd hdoes.1 hsome
    | go target conditions =>
      rw [ht] at hdoes
      obtain ⟨-, ⟨members, hs, hmem⟩, hconditions, hlowest⟩ := hdoes
      refine ⟨target, conditions, rfl, h.members_eq_iff (fun x hx => ?_) hs hmem, hconditions,
        fun k hk => ?_⟩
      · obtain ⟨ds, hx⟩ := mem_following.1 hx
        obtain ⟨d, hd, -, heq⟩ := mem_transitionsAt.1 hx
        exact (heq ▸ hall d hd).2
      · obtain ⟨d, hd, l, hl, haccepts, hle⟩ := hlowest k hk.1
        exact ⟨d, hd, Int.le_antisymm hle (hk.2 l hl) ▸ haccepts⟩

/-- No calls make a resolution irregular, even if they name steps that are not there. -/
theorem Resolution.Regular.after (h : Regular raw first r) (calls : List Call) :
    Regular raw first (r.after calls) := by
  induction calls generalizing r with
  | nil => exact h
  | cons call calls ih =>
    exact ih ((ResolutionM.regular_upkeep raw first).answer h fun _ _ => trivial)

/-- **A resolved step is exact**, whatever was called before. -/
theorem Resolution.resolveStep_exact (hraw : raw.Plain first)
    (h : ResolutionM.resolveStep s ((ofRaw raw first limit).after calls) = .ok cases r') :
    ∃ all, ((ofRaw raw first limit).after calls).steps.get? s = some all ∧
      Exact raw r' all cases := by
  have hregular : Regular raw first ((ofRaw raw first limit).after calls) :=
    (Regular.ofRaw hraw).after calls
  obtain ⟨all, hs⟩ := ResolutionM.exists_cases_of_resolveStep h
  have hall := hregular.cases s all hs
  obtain ⟨hr', -, htidy, hcombines, hcomplete⟩ := Ensures.of_ok
    ((ResolutionM.combining_regular hraw).folding.resolveStep_ensures hregular hs hall) h
  exact ⟨all, hs, hr'.exact_of_combines htidy hall hcombines hcomplete⟩

/-- Step 4 was merged of 1 and 2 before, and two of the calls failed: there is no step 9, nor are there
any cases for a step that is merged of 40 and 41. -/
theorem Resolution.resolveStep_exact_merged :
    let raw : RawTable := ⟨⟨⟨[(0, [⟨⟨97, 97⟩, .go 1 []⟩]), (1, [⟨⟨97, 100⟩, .accept 1⟩,
      ⟨⟨99, 101⟩, .go 0 []⟩]), (2, [⟨⟨98, 99⟩, .accept 0⟩, ⟨⟨98, 99⟩, .go 3 []⟩]), (3, [])], by decide⟩,
      ⟨[(3, 0), (2, 0), (1, 1)], by decide⟩⟩, ⟨[(1, 1)], by decide⟩, some 0⟩
    let r := (ofRaw raw 4 (some 3)).after [.extend 9, .merge 1 2, .merge 40 41]
    let cases : List Case := [⟨⟨97, 97⟩, .accept 1⟩, ⟨⟨98, 98⟩, .go 3 [⟨2, ⟨98, 98⟩⟩]⟩,
      ⟨⟨99, 99⟩, .go 6 [⟨1, ⟨99, 99⟩⟩, ⟨2, ⟨99, 99⟩⟩]⟩, ⟨⟨100, 100⟩, .go 0 [⟨1, ⟨100, 100⟩⟩]⟩,
      ⟨⟨101, 101⟩, .go 0 []⟩]
    raw.Plain 4 ∧ ∃ r', ResolutionM.resolveStep 4 r = .ok cases r' ∧ r'.members 6 = [0, 3] ∧
      ∃ all, r.steps.get? 4 = some all ∧ Exact raw r' all cases := by
  intro raw r cases
  have hraw : raw.Plain 4 := RawTable.plain_of_entries (by decide +kernel) (by decide +kernel)
  have hrun : (match ResolutionM.resolveStep 4 r with
      | .ok out r' => some (out, r'.members 6)
      | .error _ _ => none) = some (cases, [0, 3]) := by decide +kernel
  cases h : ResolutionM.resolveStep 4 r with
  | error e r' =>
    rw [h] at hrun
    cases hrun
  | ok out r' =>
    rw [h] at hrun
    obtain ⟨rfl, hmembers⟩ := Prod.mk.inj (Option.some.inj hrun)
    exact ⟨hraw, r', rfl, hmembers, resolveStep_exact hraw h⟩

end Munch
