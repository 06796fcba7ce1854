/-
What steps stand for while a table is resolved. A raw step stands for itself, a merged one for its
members, which are raw; it has all their cases and the lowest of their ends. `Sound` says so of all
steps, and `merge_ensures` that a step for the members of two others is found or made.
-/
import Mathlib.Data.List.Nodup
import Munch.Proofs.Ensures
import Munch.Proofs.Table.Cases
import Munch.Proofs.Table.IdMap
import Munch.Table.Resolution

namespace Munch

theorem nodup_map_snoc {α β : Type} {f : α → β} {xs : List α} {x : α} (h : (xs.map f).Nodup)
    (hx : f x ∉ xs.map f) : ((xs ++ [x]).map f).Nodup := by
  rw [List.map_append, List.nodup_append]
  refine ⟨h, by simp, fun a ha b hb hab => hx ?_⟩
  rwa [hab, show b = f x by simpa using hb] at ha

namespace RawTable

/-- What a table has to be for its resolution: cases go on in the table and without conditions, and
every pattern that is accepted has a step. Ids from `first` on are free. -/
structure Resolvable (raw : RawTable) (first : StepId) : Prop where
  goes : ∀ s cases c target conditions, raw.table.steps.get? s = some cases → c ∈ cases →
    c.transition = .go target conditions →
    conditions = [] ∧ raw.table.steps.get? target ≠ none
  ends : ∀ s index, raw.table.ends.get? s = some index → raw.table.steps.get? s ≠ none
  accepting : ∀ s cases c index, raw.table.steps.get? s = some cases → c ∈ cases →
    c.transition = .accept index →
    (∃ step, raw.acceptors.get? index = some step ∧ raw.table.ends.get? step = some index) ∨
      raw.acceptors.get? index = none ∧ ∃ step, raw.table.ends.get? step = some index
  free : ∀ s, raw.table.steps.get? s ≠ none → s < first

/-- Ids from `first` on are free for merged steps. -/
def Free (raw : RawTable) (first : StepId) : Prop :=
  ∀ s, raw.table.steps.get? s ≠ none → s < first

/-- All cases of the steps. -/
def casesAll (raw : RawTable) (steps : List StepId) : List Case :=
  steps.flatMap fun s => (raw.table.steps.get? s).getD []

/-- The lowest pattern that one of the steps accepts. -/
def endOf (raw : RawTable) (steps : List StepId) : Option PatternIndex :=
  (steps.filterMap raw.table.ends.get?).min?

/-- Raw steps in ascending order, at least one. -/
structure IsMembers (raw : RawTable) (members : List StepId) : Prop where
  ascending : members.Pairwise (· < ·)
  ne_nil : members ≠ []
  isRaw : ∀ s ∈ members, raw.table.steps.get? s ≠ none

end RawTable

namespace Resolution

/-- A merged step and its members are looked up either way, and the next id is free. -/
structure Paired (r : Resolution) : Prop where
  lt_next : ∀ members s, (members, s) ∈ r.merged → s < r.nextStep
  get?_memberSets : ∀ members s,
    r.memberSets.get? s = some members ↔ (members, s) ∈ r.merged

/-- The members of a new step are written down before their cases are read. -/
def announce (r : Resolution) (members : List StepId) : Resolution :=
  { r with
    nextStep := r.nextStep + 1
    merged := r.merged ++ [(members, r.nextStep)]
    memberSets := r.memberSets.insert r.nextStep members }

@[simp] theorem nextStep_announce (r : Resolution) (members : List StepId) :
    (r.announce members).nextStep = r.nextStep + 1 := rfl

@[simp] theorem merged_announce (r : Resolution) (members : List StepId) :
    (r.announce members).merged = r.merged ++ [(members, r.nextStep)] := rfl

/-- The step stands for the members. -/
def Stands (raw : RawTable) (r : Resolution) (s : StepId) (members : List StepId) : Prop :=
  raw.table.steps.get? s ≠ none ∧ members = [s] ∨ (members, s) ∈ r.merged

/-- The raw steps are as they were, and merged ones have what their members have. -/
structure Sound (raw : RawTable) (first : StepId) (limit : Option Int) (r : Resolution) :
    Prop where
  acceptors : r.acceptors = raw.acceptors
  maxSteps : r.maxSteps = limit
  steps : ∀ s < first, r.steps.get? s = raw.table.steps.get? s
  ends : ∀ s < first, r.ends.get? s = raw.table.ends.get? s
  first_le : first ≤ r.nextStep
  merged : ∀ members s, (members, s) ∈ r.merged → first ≤ s ∧ s < r.nextStep ∧
    raw.IsMembers members ∧ members.length ≠ 1 ∧ r.steps.get? s = some (raw.casesAll members) ∧
    r.ends.get? s = raw.endOf members
  fresh : ∀ s, r.nextStep ≤ s → r.ends.get? s = none
  paired : r.Paired
  nodup : (r.merged.map (·.2)).Nodup
  nodup_keys : (r.merged.map (·.1)).Nodup

/-- What was merged stays merged. -/
structure Extends (r r' : Resolution) : Prop where
  merged : ∀ e ∈ r.merged, e ∈ r'.merged
  resolved : r'.resolved = r.resolved

theorem Extends.refl (r : Resolution) : Extends r r := ⟨fun _ h => h, rfl⟩

theorem Extends.trans {r r' r'' : Resolution} (h : Extends r r') (h' : Extends r' r'') :
    Extends r r'' :=
  ⟨fun e he => h'.merged e (h.merged e he), h'.resolved.trans h.resolved⟩

variable {raw : RawTable} {first s t : StepId} {limit : Option Int} {r r' : Resolution}
  {members : List StepId}

namespace Paired

theorem ofRaw : (Resolution.ofRaw raw first limit).Paired where
  lt_next _ _ h := by cases h
  get?_memberSets _ _ := ⟨nofun, nofun⟩

theorem announce (h : r.Paired) (members : List StepId) : (r.announce members).Paired where
  lt_next others s hs := by
    rcases List.mem_append.1 hs with hs | hs
    · exact Int.lt_trans (h.lt_next others s hs) (Int.lt_succ _)
    · obtain ⟨rfl, rfl⟩ := Prod.mk.inj (List.mem_singleton.1 hs)
      exact Int.lt_succ _
  get?_memberSets others s := by
    simp only [Resolution.announce, List.mem_append, List.mem_singleton, Prod.mk.injEq]
    by_cases hs : s = r.nextStep
    · have hnone : (others, r.nextStep) ∉ r.merged :=
        fun hmem => Int.lt_irrefl _ (h.lt_next others _ hmem)
      rw [hs, IdMap.get?_insert_self]
      simp only [hnone, false_or, and_true, Option.some.injEq, eq_comm]
    · rw [IdMap.get?_insert_of_ne hs]
      simp only [hs, and_false, or_false, h.get?_memberSets]

/-- A step that was not merged stands for itself. -/
theorem members_cases (h : r.Paired) (s : StepId) :
    (r.members s = [s] ∧ ∀ members, (members, s) ∉ r.merged) ∨ (r.members s, s) ∈ r.merged := by
  unfold Resolution.members
  cases hs : r.memberSets.get? s with
  | none =>
    refine .inl ⟨rfl, fun members hmem => ?_⟩
    rw [(h.get?_memberSets members s).2 hmem] at hs
    cases hs
  | some members => exact .inr ((h.get?_memberSets members s).1 hs)

end Paired

theorem Stands.mono (h : Stands raw r s members) (hr : Extends r r') : Stands raw r' s members :=
  h.imp_right (hr.merged _)

namespace Sound

theorem members_eq (h : Sound raw first limit r) (hfree : raw.Free first)
    (hs : Stands raw r s members) : r.members s = members := by
  rcases h.paired.members_cases s with ⟨heq, hnone⟩ | hmem
  · rcases hs with ⟨-, rfl⟩ | hs
    · exact heq
    · exact absurd hs (hnone members)
  · rcases hs with ⟨hs, rfl⟩ | hs
    · exact absurd (hfree s hs) (Int.not_lt.2 (h.merged _ s hmem).1)
    · exact (Prod.mk.inj (List.inj_on_of_nodup_map h.nodup hmem hs rfl)).1

theorem isMembers (h : Sound raw first limit r) (hs : Stands raw r s members) :
    raw.IsMembers members := by
  rcases hs with ⟨hs, rfl⟩ | hs
  · exact ⟨List.pairwise_singleton _ s, by simp, by simpa using hs⟩
  · exact (h.merged members s hs).2.2.1

theorem steps_eq (h : Sound raw first limit r) (hfree : raw.Free first)
    (hs : Stands raw r s members) : r.steps.get? s = some (raw.casesAll members) := by
  rcases hs with ⟨hs, rfl⟩ | hs
  · obtain ⟨cases, hcases⟩ := Option.ne_none_iff_exists'.1 hs
    rw [h.steps s (hfree s hs), hcases]
    simp [RawTable.casesAll, hcases]
  · exact (h.merged members s hs).2.2.2.2.1

theorem ends_eq (h : Sound raw first limit r) (hfree : raw.Free first)
    (hs : Stands raw r s members) : r.ends.get? s = raw.endOf members := by
  rcases hs with ⟨hs, rfl⟩ | hs
  · rw [h.ends s (hfree s hs), RawTable.endOf]
    cases he : raw.table.ends.get? s with
    | none => simp [he]
    | some k => simp [he]
  · exact (h.merged members s hs).2.2.2.2.2

/-- Steps that stand for the same members are the same. -/
theorem unique (h : Sound raw first limit r) (hs : Stands raw r s members)
    (ht : Stands raw r t members) : s = t := by
  rcases hs with ⟨-, rfl⟩ | hs
  · rcases ht with ⟨-, ht⟩ | ht
    · exact (List.cons.inj ht).1
    · exact absurd rfl (h.merged [s] t ht).2.2.2.1
  · rcases ht with ⟨-, rfl⟩ | ht
    · exact absurd rfl (h.merged [t] s hs).2.2.2.1
    · exact (Prod.mk.inj (List.inj_on_of_nodup_map h.nodup_keys hs ht rfl)).2

end Sound

end Resolution

namespace ResolutionM

open Resolution

variable {raw : RawTable} {first s t : StepId} {limit : Option Int} {r : Resolution}
  {members others : List StepId} {E : Error → Resolution → Prop}

/-- The members of two steps together. -/
theorem isMembers_union (h : raw.IsMembers members) (h' : raw.IsMembers others) :
    raw.IsMembers (sortDistinct (members ++ others)) where
  ascending := pairwise_sortDistinct _
  ne_nil := by
    obtain ⟨x, hx⟩ := List.exists_mem_of_ne_nil _ h.ne_nil
    exact List.ne_nil_of_mem (mem_sortDistinct.2 (List.mem_append_left others hx))
  isRaw x hx := by
    rcases List.mem_append.1 (mem_sortDistinct.1 hx) with hx | hx
    · exact h.isRaw x hx
    · exact h'.isRaw x hx

theorem eq_singleton {x : StepId} (h : raw.IsMembers members) (hx : ∀ y ∈ members, y = x) :
    members = [x] := by
  obtain ⟨hasc, hne, -⟩ := h
  match members with
  | [] => exact absurd rfl hne
  | [y] => rw [hx y (by simp)]
  | y :: z :: rest =>
    have hlt := (List.pairwise_cons.1 hasc).1 z (by simp)
    exact absurd ((hx y (by simp)).trans (hx z (by simp)).symm) (Int.ne_of_lt hlt)

theorem casesOf_ensures {cases : List Case} (h : r.steps.get? s = some cases) :
    Ensures (casesOf s) r (fun out r' => out = cases ∧ r' = r) E := by
  refine ensures_get_bind ?_
  simp only [h]
  exact ensures_pure ⟨rfl, rfl⟩

theorem casesOfAll_ensures
    (hsteps : ∀ s ∈ members, r.steps.get? s = raw.table.steps.get? s)
    (hraw : ∀ s ∈ members, raw.table.steps.get? s ≠ none) :
    Ensures (casesOfAll members) r (fun out r' => out = raw.casesAll members ∧ r' = r) E := by
  induction members with
  | nil => exact ensures_pure ⟨rfl, rfl⟩
  | cons s rest ih =>
    obtain ⟨cases, hcases⟩ := Option.ne_none_iff_exists'.1 (hraw s (by simp))
    refine (casesOf_ensures ((hsteps s (by simp)).trans hcases)).bind fun out r' h => ?_
    obtain ⟨rfl, rfl⟩ := h
    refine (ih (fun t ht => hsteps t (by simp [ht])) fun t ht => hraw t (by simp [ht])).bind
      fun more r' h => ?_
    obtain ⟨rfl, rfl⟩ := h
    exact ensures_pure ⟨by simp [RawTable.casesAll, hcases], rfl⟩

/-- What the new step accepts is what its members do. -/
theorem get?_ends_register (h : Sound raw first limit r) (hfree : raw.Free first)
    (hm : raw.IsMembers members) (t : StepId) :
    (match (members.filterMap r.ends.get?).min? with
      | some index => r.ends.insert r.nextStep index
      | none => r.ends).get? t =
      if t = r.nextStep then raw.endOf members else r.ends.get? t := by
  have hends : members.filterMap r.ends.get? = members.filterMap raw.table.ends.get? :=
    List.filterMap_congr fun s hs => h.ends s (hfree s (hm.isRaw s hs))
  rw [hends, RawTable.endOf]
  cases (members.filterMap raw.table.ends.get?).min? with
  | some index => exact IdMap.get?_insert _ _ _ _
  | none =>
    by_cases ht : t = r.nextStep
    · rw [if_pos ht, ht]
      exact h.fresh _ (Int.le_refl _)
    · rw [if_neg ht]

/-- Putting cases together changes nothing, and what holds of all cases of the steps holds of them. -/
theorem casesOfAll_reads {P : Case → Prop}
    (hP : ∀ s cases, r.steps.get? s = some cases → ∀ c ∈ cases, P c)
    (hE : ∀ s, E (.noStep s) r) (steps : List StepId) :
    Ensures (casesOfAll steps) r (fun cases r' => r' = r ∧ ∀ c ∈ cases, P c) E := by
  induction steps with
  | nil => exact ensures_pure ⟨rfl, by simp⟩
  | cons s steps ih =>
    have hcasesOf : Ensures (casesOf s) r (fun cases r' => r' = r ∧ ∀ c ∈ cases, P c) E := by
      refine ensures_get_bind ?_
      cases hs : r.steps.get? s with
      | some cases => exact ensures_pure ⟨rfl, hP s cases hs⟩
      | none => exact ensures_throw (hE s)
    refine hcasesOf.bind fun cases r' hr' => ?_
    obtain ⟨rfl, hcases⟩ := hr'
    refine ih.bind fun more r' hr' => ensures_pure ?_
    obtain ⟨rfl, hmore⟩ := hr'
    refine ⟨rfl, fun c hc => ?_⟩
    rcases List.mem_append.1 hc with hc | hc
    · exact hcases c hc
    · exact hmore c hc

/-- What follows once the members of a new step are written down. -/
theorem ensures_register {Q : StepId → Resolution → Prop}
    (h : Ensures (do
      let cases ← casesOfAll members
      modify fun r' =>
        let ends :=
          match (members.filterMap r'.ends.get?).min? with
          | some index => r'.ends.insert r.nextStep index
          | none => r'.ends
        { r' with steps := r'.steps.insert r.nextStep cases, ends := ends }
      return r.nextStep) (r.announce members) Q E) :
    Ensures (register members) r Q E :=
  ensures_get_bind (ensures_modify_bind (ensures_modify_bind (ensures_modify_bind h)))

/-- The new step has the next id, and what was there before stays. -/
theorem register_adds (members : List StepId) (r : Resolution) :
    Ensures (register members) r
      (fun s r' => s = r.nextStep ∧ ∃ cases ends, r' = { r.announce members with
        steps := r.steps.insert r.nextStep cases, ends := ends })
      fun _ _ => True := by
  refine ensures_register ?_
  refine (casesOfAll_reads (P := fun _ => True) (fun _ _ _ _ _ => trivial) (fun _ => trivial)
    members).bind fun cases r' hr' => ?_
  obtain ⟨rfl, -⟩ := hr'
  exact ensures_modify_bind (ensures_pure ⟨rfl, cases, _, rfl⟩)

theorem register_ensures (h : Sound raw first limit r) (hfree : raw.Free first)
    (hm : raw.IsMembers members) (hlen : members.length ≠ 1)
    (hnew : ∀ s, (members, s) ∉ r.merged) :
    Ensures (register members) r
      (fun s r' => Sound raw first limit r' ∧ Extends r r' ∧ Stands raw r' s members) E := by
  refine ensures_register ?_
  refine (casesOfAll_ensures (fun s hs => ?_) hm.isRaw).bind fun cases r₁ h₁ => ?_
  · exact h.steps s (hfree s (hm.isRaw s hs))
  obtain ⟨rfl, rfl⟩ := h₁
  have hends := get?_ends_register h hfree hm
  have hlt {t : StepId} (ht : t < first) : t ≠ r.nextStep :=
    Int.ne_of_lt (Int.lt_of_lt_of_le ht h.first_le)
  refine ensures_modify_bind (ensures_pure ⟨?_, ⟨fun e he => List.mem_append_left _ he, rfl⟩,
    .inr (List.mem_append_right _ (List.mem_singleton_self _))⟩)
  exact {
    acceptors := h.acceptors
    maxSteps := h.maxSteps
    steps := fun t ht => (IdMap.get?_insert_of_ne (hlt ht)).trans (h.steps t ht)
    ends := fun t ht => by
      refine (hends t).trans ?_
      rw [if_neg (hlt ht), h.ends t ht]
    first_le := Int.le_trans h.first_le (Int.le_of_lt (Int.lt_succ _))
    merged := fun ms t ht => by
      rcases List.mem_append.1 ht with ht | ht
      · obtain ⟨hle, hlt, hms, hlen, hsteps, hend⟩ := h.merged ms t ht
        refine ⟨hle, Int.lt_trans hlt (Int.lt_succ _), hms, hlen, ?_, ?_⟩
        · exact (IdMap.get?_insert_of_ne (Int.ne_of_lt hlt)).trans hsteps
        · refine (hends t).trans ?_
          rw [if_neg (Int.ne_of_lt hlt), hend]
      · obtain ⟨rfl, rfl⟩ := Prod.mk.inj (List.mem_singleton.1 ht)
        refine ⟨h.first_le, Int.lt_succ _, hm, hlen, IdMap.get?_insert_self, ?_⟩
        refine (hends _).trans ?_
        rw [if_pos rfl]
    fresh := fun t ht => by
      have hlt : r.nextStep < t := Int.lt_of_lt_of_le (Int.lt_succ _) ht
      refine (hends t).trans ?_
      rw [if_neg (Int.ne_of_gt hlt), h.fresh t (Int.le_of_lt hlt)]
    paired := { h.paired.announce members with }
    nodup := by
      refine nodup_map_snoc h.nodup fun hmem => ?_
      obtain ⟨⟨ms, _⟩, he, rfl⟩ := List.mem_map.1 hmem
      exact absurd (h.merged ms _ he).2.1 (Int.lt_irrefl _)
    nodup_keys := by
      refine nodup_map_snoc h.nodup_keys fun hmem => ?_
      obtain ⟨⟨_, t⟩, he, rfl⟩ := List.mem_map.1 hmem
      exact hnew t he }

/-- The members of two steps together. -/
def joined (r : Resolution) (s t : StepId) : List StepId :=
  sortDistinct (r.members s ++ r.members t)

/-- The step that stands for them, if there is one. -/
def joint? (r : Resolution) (s t : StepId) : Option StepId :=
  if (joined r s t).length = 1 then some s
  else (r.merged.find? (·.1 == joined r s t)).map (·.2)

theorem joint?_eq_some {u : StepId} (h : joint? r s t = some u) :
    (joined r s t).length = 1 ∧ u = s ∨ (joined r s t, u) ∈ r.merged := by
  unfold joint? at h
  split at h
  · next hone => exact .inl ⟨hone, (Option.some.inj h).symm⟩
  · obtain ⟨⟨found, u'⟩, hf, rfl⟩ := Option.map_eq_some_iff.1 h
    obtain rfl : found = joined r s t := by simpa using List.find?_some hf
    exact .inr (List.mem_of_find?_eq_some hf)

theorem joint?_eq_none (h : joint? r s t = none) :
    (joined r s t).length ≠ 1 ∧ ∀ u, (joined r s t, u) ∉ r.merged := by
  unfold joint? at h
  split at h
  · cases h
  · next hlen =>
    refine ⟨hlen, fun u hu => ?_⟩
    have := List.find?_eq_none.1 (Option.map_eq_none_iff.1 h) _ hu
    simp at this

theorem merge_of_joint {u : StepId} (h : joint? r s t = some u) : merge s t r = .ok u r := by
  show (if _ then _ else _ : ResolutionM StepId) r = _
  unfold joint? joined at h
  split at h
  · next hone =>
    rw [if_pos hone, Option.some.inj h]
    rfl
  · next hlen =>
    obtain ⟨e, he, rfl⟩ := Option.map_eq_some_iff.1 h
    rw [if_neg hlen, he]
    rfl

theorem merge_of_room (h : joint? r s t = none) (hroom : ∀ n ∈ r.maxSteps, r.merged.length < n) :
    merge s t r = register (joined r s t) r := by
  show (if _ then _ else _ : ResolutionM StepId) r = _
  unfold joint? joined at h
  split at h
  · cases h
  · next hlen =>
    rw [if_neg hlen, Option.map_eq_none_iff.1 h]
    cases hn : r.maxSteps with
    | none => rfl
    | some n =>
      have hlt := hroom n hn
      dsimp only
      rw [if_neg (by omega)]
      rfl

theorem merge_of_full {n : Int} (h : joint? r s t = none) (hn : r.maxSteps = some n)
    (hfull : n ≤ r.merged.length) : merge s t r = .error (.conflict s (.unconverged n)) r := by
  show (if _ then _ else _ : ResolutionM StepId) r = _
  unfold joint? joined at h
  split at h
  · cases h
  · next hlen =>
    rw [if_neg hlen, Option.map_eq_none_iff.1 h]
    simp only [hn, if_pos hfull]
    rfl

/-- A step for both is there, or it is made unless the limit is reached. -/
theorem merge_cases (s t : StepId) (r : Resolution) :
    (∃ u, joint? r s t = some u ∧ merge s t r = .ok u r) ∨
      joint? r s t = none ∧ (∀ n ∈ r.maxSteps, r.merged.length < n) ∧
        merge s t r = register (joined r s t) r ∨
      joint? r s t = none ∧ ∃ n, r.maxSteps = some n ∧ n ≤ r.merged.length ∧
        merge s t r = .error (.conflict s (.unconverged n)) r := by
  cases h : joint? r s t with
  | some u => exact .inl ⟨u, rfl, merge_of_joint h⟩
  | none =>
    by_cases hroom : ∀ n ∈ r.maxSteps, r.merged.length < n
    · exact .inr (.inl ⟨rfl, hroom, merge_of_room h hroom⟩)
    · obtain ⟨n, hn⟩ := not_forall.1 hroom
      obtain ⟨hn, hfull⟩ := Classical.not_imp.1 hn
      have hfull := Int.not_lt.1 hfull
      exact .inr (.inr ⟨rfl, n, hn, hfull, merge_of_full h hn hfull⟩)

theorem merge_ensures (h : Sound raw first limit r) (hfree : raw.Free first)
    (hs : Stands raw r s members) (ht : Stands raw r t others) :
    Ensures (merge s t) r
      (fun u r' => Sound raw first limit r' ∧ Extends r r' ∧
        Stands raw r' u (sortDistinct (members ++ others)))
      fun _ _ => limit ≠ none := by
  have hjoined : joined r s t = sortDistinct (members ++ others) := by
    rw [joined, h.members_eq hfree hs, h.members_eq hfree ht]
  have hunion := isMembers_union (h.isMembers hs) (h.isMembers ht)
  rw [← hjoined] at hunion ⊢
  rcases merge_cases s t r with ⟨u, hu, heq⟩ | ⟨hnone, -, heq⟩ | ⟨-, n, hn, -, heq⟩
  · refine .congr (x := pure u) heq (ensures_pure ⟨h, .refl r, ?_⟩)
    rcases joint?_eq_some hu with ⟨hone, rfl⟩ | hmem
    · obtain ⟨x, hx⟩ := List.length_eq_one_iff.1 hone
      have hsingle := eq_singleton (h.isMembers hs) fun y hy => by
        have hy : y ∈ joined r u t := hjoined ▸ mem_sortDistinct.2 (by simp [hy])
        simpa [hx] using hy
      exact hx ▸ hsingle ▸ hs
    · exact .inr hmem
  · obtain ⟨hlen, hnew⟩ := joint?_eq_none hnone
    exact .congr heq (register_ensures h hfree hunion hlen hnew)
  · refine .congr (x := throw _) heq (ensures_throw ?_)
    rw [← h.maxSteps, hn]
    exact Option.some_ne_none n

end ResolutionM

end Munch
