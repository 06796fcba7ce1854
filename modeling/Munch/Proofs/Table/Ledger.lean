/-
The books of a resolution. Whatever is asked of it and whether or not it has an answer, every merged
step stands for raw steps of its own, two at least, has all their cases and the lowest of their ends,
and the ids of the merged steps follow each other (`ledger_of_session`). So merging two steps always
comes to the one step that stands for the members of both, however these were merged before.
-/
import Munch.Proofs.Table.Converges
import Munch.Table.Session

namespace Munch

namespace Resolution

/-- The step that was made for the members. -/
def idOf? (r : Resolution) (members : List StepId) : Option StepId :=
  (r.merged.find? (·.1 == members)).map (·.2)

/-- The members that the step was made for. -/
def membersOf? (r : Resolution) (s : StepId) : Option (List StepId) :=
  r.memberSets.get? s

/-- Ids of merged steps start at `first` and follow each other, each stands for members of its own,
and the raw steps are as they were. -/
structure Ledger (raw : RawTable) (first : StepId) (r : Resolution) : Prop where
  ids : r.merged.map (·.2) = (List.range r.merged.length).map fun i : Nat => first + i
  nextStep : r.nextStep = first + r.merged.length
  inverse : ∀ members s, r.idOf? members = some s ↔ r.membersOf? s = some members
  isMembers : ∀ members s, (members, s) ∈ r.merged → raw.IsMembers members ∧ 2 ≤ members.length
  steps : ∀ members s, (members, s) ∈ r.merged → r.steps.get? s = some (raw.casesAll members)
  ends : ∀ members s, (members, s) ∈ r.merged → r.ends.get? s = raw.endOf members
  rawSteps : ∀ s < first, r.steps.get? s = raw.table.steps.get? s
  rawEnds : ∀ s < first, r.ends.get? s = raw.table.ends.get? s
  vacant : ∀ s, r.nextStep ≤ s → r.steps.get? s = none ∧ r.ends.get? s = none

/-- What stays true while a table is resolved that has no steps or ends from `first` on. -/
structure Booked (raw : RawTable) (first : StepId) (limit : Option Int) (r : Resolution) : Prop
    extends Sound raw first limit r where
  ids : r.merged.map (·.2) = (List.range r.merged.length).map fun i : Nat => first + i
  nextStep : r.nextStep = first + r.merged.length
  vacant : ∀ s, r.nextStep ≤ s → r.steps.get? s = none
  resolved : ∀ s, r.resolved.get? s ≠ none → ∃ members, r.Stands raw s members

variable {raw : RawTable} {first s t : StepId} {limit : Option Int} {r r' : Resolution}
  {members : List StepId} {calls : List Call}

theorem idOf?_eq_some (hn : (r.merged.map (·.1)).Nodup) :
    r.idOf? members = some s ↔ (members, s) ∈ r.merged := by
  rw [idOf?, Option.map_eq_some_iff]
  constructor
  · intro h
    obtain ⟨⟨found, u⟩, hf, rfl⟩ := h
    obtain rfl : found = members := by simpa using List.find?_some hf
    exact List.mem_of_find?_eq_some hf
  · intro h
    cases hf : r.merged.find? (·.1 == members) with
    | none => simpa using List.find?_eq_none.1 hf _ h
    | some e =>
      obtain rfl : e.1 = members := by simpa using List.find?_some hf
      have heq := List.inj_on_of_nodup_map hn (List.mem_of_find?_eq_some hf) h rfl
      exact ⟨e, rfl, congrArg Prod.snd heq⟩

/-- An integer of an interval is so far away from where that starts. -/
theorem exists_add_eq {a b : Int} {n : Nat} (hle : a ≤ b) (hlt : b < a + n) :
    ∃ i < n, a + (i : Int) = b :=
  ⟨(b - a).toNat, by omega, by omega⟩

namespace Booked

theorem ledger (h : Booked raw first limit r) : Ledger raw first r where
  ids := h.ids
  nextStep := h.nextStep
  inverse _ _ := (idOf?_eq_some h.nodup_keys).trans (h.paired.get?_memberSets _ _).symm
  isMembers members s hs := by
    obtain ⟨-, -, hm, hlen, -⟩ := h.merged members s hs
    have hpos := List.length_pos_iff.2 hm.ne_nil
    exact ⟨hm, by omega⟩
  steps members s hs := (h.merged members s hs).2.2.2.2.1
  ends members s hs := (h.merged members s hs).2.2.2.2.2
  rawSteps := h.steps
  rawEnds := h.ends
  vacant s hs := ⟨h.vacant s hs, h.fresh s hs⟩

/-- There are no steps but the raw ones and those that were made. -/
theorem exists_stands (h : Booked raw first limit r) (hs : r.steps.get? s ≠ none) :
    ∃ members, r.Stands raw s members := by
  by_cases hfirst : s < first
  · exact ⟨[s], .inl ⟨h.steps s hfirst ▸ hs, rfl⟩⟩
  · have hlt : s < r.nextStep := by
      by_contra hle
      exact hs (h.vacant s (Int.not_lt.1 hle))
    have hmem : s ∈ r.merged.map (·.2) := by
      obtain ⟨i, hi, rfl⟩ := exists_add_eq (Int.not_lt.1 hfirst) (h.nextStep ▸ hlt)
      rw [h.ids]
      exact List.mem_map.2 ⟨i, List.mem_range.2 hi, rfl⟩
    obtain ⟨⟨members, _⟩, hms, rfl⟩ := List.mem_map.1 hmem
    exact ⟨members, .inr hms⟩

theorem stands_members (h : Booked raw first limit r) (hclosed : raw.Closed first)
    (hs : r.steps.get? s ≠ none) : r.Stands raw s (r.members s) := by
  obtain ⟨members, hms⟩ := h.exists_stands hs
  exact (h.members_eq hclosed.free hms).symm ▸ hms

theorem ofRaw (hends : ∀ s, raw.table.ends.get? s ≠ none → s < first) (hclosed : raw.Closed first) :
    Booked raw first limit (.ofRaw raw first limit) where
  acceptors := rfl
  maxSteps := rfl
  steps _ _ := rfl
  ends _ _ := rfl
  first_le := Int.le_refl _
  merged _ _ h := by cases h
  fresh s hs := by
    by_contra hn
    exact Int.not_lt.2 hs (hends s hn)
  paired := .ofRaw
  nodup := .nil
  nodup_keys := .nil
  ids := rfl
  nextStep := (Int.add_zero first).symm
  vacant s hs := by
    by_contra hn
    exact Int.not_lt.2 hs (hclosed.free s hn)
  resolved s hs := absurd rfl hs

/-- The books are right when one more step was resolved. -/
theorem resolve (h : Booked raw first limit r) (hs : ∃ members, r.Stands raw s members)
    (cases : List Case) :
    Booked raw first limit { r with resolved := r.resolved.insert s cases } :=
  { h with
    paired := { h.paired with }
    resolved := fun t ht => by
      by_cases hts : t = s
      · exact hts ▸ hs
      · exact h.resolved t (by rwa [IdMap.get?_insert_of_ne hts] at ht) }

/-- A resolution with right books is within the bounds. -/
theorem bounded (h : Booked raw first limit r) (hclosed : raw.Closed first) :
    Bounded raw first limit r where
  maxSteps := h.maxSteps
  first_le := h.first_le
  merged members s hs := by
    obtain ⟨hle, -, hm, hlen, -⟩ := h.merged members s hs
    exact ⟨hle, hm, hlen⟩
  paired := h.paired
  nodup_keys := h.nodup_keys
  goes s cases hs c hc target conditions ht := by
    obtain ⟨members, hms⟩ := h.exists_stands (hs ▸ Option.some_ne_none cases)
    obtain rfl := Option.some.inj (hs.symm.trans (h.steps_eq hclosed.free hms))
    obtain ⟨u, hu, hc⟩ := List.mem_flatMap.1 hc
    cases hraw : raw.table.steps.get? u with
    | none => simp [hraw] at hc
    | some others =>
      rw [hraw] at hc
      exact hclosed.goes u others c target conditions hraw hc ht
  known s hs := h.exists_stands hs
  resolved := h.resolved

end Booked

end Resolution

namespace ResolutionM

open Resolution

variable {raw : RawTable} {first s t : StepId} {limit : Option Int} {r : Resolution}
  {members others : List StepId} {E : Error → Prop}

theorem register_booked (hclosed : raw.Closed first) (h : Booked raw first limit r)
    (hm : raw.IsMembers members) (hlen : members.length ≠ 1)
    (hnew : ∀ s, (members, s) ∉ r.merged) :
    Keeps (Booked raw first limit) E (register members) r fun s r' => r'.Stands raw s members := by
  have hsound := register_ensures (E := fun _ _ => False) h.toSound hclosed.free hm hlen hnew
  refine (hsound.and (register_adds members r)).imp (fun u r' hr' => ?_) fun _ _ he => he.1.elim
  obtain ⟨⟨hr', hext, hstands⟩, -, cases, ends, rfl⟩ := hr'
  refine ⟨{ hr' with ids := ?_, nextStep := ?_, vacant := fun s hs => ?_, resolved := fun s hs => ?_ },
    hext, hstands⟩
  · simp only [merged_announce, List.map_append, List.map_cons, List.map_nil, List.length_append,
      List.length_singleton, List.range_succ, h.ids, h.nextStep]
  · simp only [nextStep_announce, merged_announce, List.length_append, List.length_singleton,
      h.nextStep, Int.natCast_add, Int.add_assoc, Int.natCast_one]
  · have hlt : r.nextStep < s := hs
    refine (IdMap.get?_insert_of_ne (Int.ne_of_gt hlt)).trans (h.vacant s (Int.le_of_lt hlt))
  · exact (h.resolved s hs).imp fun _ => Or.imp_right (List.mem_append_left _)

theorem merge_booked (hclosed : raw.Closed first) (h : Booked raw first limit r)
    (hs : r.Stands raw s members) (ht : r.Stands raw t others) :
    Keeps (Booked raw first limit) (fun _ => True) (merge s t) r
      fun u r' => r'.Stands raw u (sortDistinct (members ++ others)) := by
  have hmerge := merge_ensures h.toSound hclosed.free hs ht
  rcases merge_cases s t r with ⟨u, -, heq⟩ | ⟨hnone, -, heq⟩ | ⟨-, n, -, -, heq⟩
  · exact .congr (x := pure u) heq (keeps_pure h (hmerge.of_ok heq).2.2)
  · obtain ⟨hlen, hnew⟩ := joint?_eq_none hnone
    have hjoined : joined r s t = sortDistinct (members ++ others) := by
      rw [joined, h.members_eq hclosed.free hs, h.members_eq hclosed.free ht]
    have hunion := isMembers_union (h.isMembers hs) (h.isMembers ht)
    rw [← hjoined] at hunion ⊢
    exact .congr heq (register_booked hclosed h hunion hlen hnew)
  · exact .congr (x := throw _) heq (keeps_throw h trivial)

theorem booked_upkeep (hclosed : raw.Closed first) :
    Upkeep (Booked raw first limit) (fun r s => ∃ members, r.Stands raw s members)
      (fun _ => True) where
  mono _ _ _ hs hext := hs.imp fun _ hms => hms.mono hext
  known _ _ hr hs := hr.exists_stands hs
  goes _ s cases c target conditions hr hs hc ht :=
    ⟨[target], .inl ⟨(hr.bounded hclosed).goes s cases hs c hc target conditions ht, rfl⟩⟩
  merge r s t hr hs ht := by
    obtain ⟨members, hs⟩ := hs
    obtain ⟨others, ht⟩ := ht
    exact Ensures.mono (merge_booked hclosed hr hs ht) fun u r' h => ⟨h.1, h.2.1, _, h.2.2⟩
  resolve _ _ cases hr hs := hr.resolve hs cases
  noStep _ := trivial
  noAcceptingStep _ := trivial

/-- Also a resolution that was used before does all the work on its queue. -/
theorem resolveFrom_works_of_booked (hclosed : raw.Closed first) (h : Booked raw first limit r)
    (initial : StepId) : Works [initial] [initial] r (resolveFrom initial r) := by
  have hbound : 2 ^ raw.table.steps.keys.length ≤ stepBound r := by
    refine keys_length_le_stepBound fun s hs => ?_
    have hraw := IdMap.mem_keys.1 hs
    exact IdMap.mem_keys.2 (h.steps s (hclosed.free s hraw) ▸ hraw)
  rw [IdMap.length_keys] at hbound
  have hup : Upkeep (Booked raw first limit) _ _ := booked_upkeep hclosed
  exact hup.resolveFrom_works (fun r hr => (hr.bounded hclosed).size_resolved) h
    (Nat.le_trans (Nat.sub_le _ 1) hbound) initial

end ResolutionM

namespace Resolution

variable {raw : RawTable} {first s t : StepId} {limit : Option Int} {r r' : Resolution}
  {call : Call} {calls : List Call}

theorem Booked.answer (hclosed : raw.Closed first) (h : Booked raw first limit r)
    (hcall : ∀ s ∈ call.steps, r.steps.get? s ≠ none) :
    Booked raw first limit (r.answer call).2 :=
  (ResolutionM.booked_upkeep hclosed).answer h fun s hs => h.exists_stands (hcall s hs)

theorem Booked.session (hclosed : raw.Closed first) (hs : Session r calls r')
    (h : Booked raw first limit r) : Booked raw first limit r' := by
  induction hs with
  | nil => exact h
  | cons hcall _ ih => exact ih (h.answer hclosed hcall)

/-- A merged step for both is found or made, and then it is the only one; or there is no room for it. -/
theorem Booked.merge (hclosed : raw.Closed first) (h : Booked raw first limit r)
    (hs : r.steps.get? s ≠ none) (ht : r.steps.get? t ≠ none) :
    (∃ u r', ResolutionM.merge s t r = .ok u r' ∧
        ∀ v, r'.Stands raw v (sortDistinct (r.members s ++ r.members t)) ↔ v = u) ∨
      (∀ v, ¬r.Stands raw v (sortDistinct (r.members s ++ r.members t))) ∧
        ∃ n, limit = some n ∧ n ≤ r.merged.length ∧
          ResolutionM.merge s t r = .error (.conflict s (.unconverged n)) r := by
  have hkeeps := ResolutionM.merge_booked hclosed h (h.stands_members hclosed hs)
    (h.stands_members hclosed ht)
  have hunique {u : StepId} {r' : Resolution} (heq : ResolutionM.merge s t r = .ok u r') :
      ∀ v, r'.Stands raw v (sortDistinct (r.members s ++ r.members t)) ↔ v = u := by
    obtain ⟨hr', -, hu⟩ := Ensures.of_ok hkeeps heq
    intro v
    constructor
    · exact fun hv => hr'.unique hv hu
    · intro heq
      exact heq ▸ hu
  have hunion := ResolutionM.isMembers_union (h.isMembers (h.stands_members hclosed hs))
    (h.isMembers (h.stands_members hclosed ht))
  rcases ResolutionM.merge_cases s t r with ⟨u, -, heq⟩ | ⟨hnone, -, heq⟩ | ⟨hnone, n, hn, hfull, heq⟩
  · exact .inl ⟨u, r, heq, hunique heq⟩
  · obtain ⟨hlen, hnew⟩ := ResolutionM.joint?_eq_none hnone
    have hregister := ResolutionM.register_booked (E := fun _ => False) hclosed h hunion hlen hnew
    obtain ⟨u, r', hok, -⟩ := (hregister.imp (fun _ _ hr' => hr') fun _ _ he => he.2).exists_ok
    exact .inl ⟨u, r', heq.trans hok, hunique (heq.trans hok)⟩
  · obtain ⟨hlen, hnew⟩ := ResolutionM.joint?_eq_none hnone
    refine .inr ⟨fun v hv => ?_, n, h.maxSteps ▸ hn, hfull, heq⟩
    rcases hv with ⟨-, hsingle⟩ | hmem
    · exact hlen (congrArg List.length hsingle)
    · exact hnew v hmem

/-- Whatever was called before, a resolution of the table does all the work on its queue. -/
theorem resolveFrom_works_of_session (hclosed : raw.Closed first)
    (hends : ∀ s, raw.table.ends.get? s ≠ none → s < first)
    (h : Session (.ofRaw raw first limit) calls r) (initial : StepId) :
    ResolutionM.Works [initial] [initial] r (ResolutionM.resolveFrom initial r) :=
  ResolutionM.resolveFrom_works_of_booked hclosed ((Booked.ofRaw hends hclosed).session hclosed h)
    initial

/-- **The books of a resolution are right after any calls.** Merging two steps comes to the one step
that stands for the members of both, or it fails because there is none and the limit is reached. -/
theorem ledger_of_session (hclosed : raw.Closed first)
    (hends : ∀ s, raw.table.ends.get? s ≠ none → s < first)
    (h : Session (.ofRaw raw first limit) calls r) :
    Ledger raw first r ∧
      ∀ s t, r.steps.get? s ≠ none → r.steps.get? t ≠ none →
        let members := sortDistinct (r.members s ++ r.members t)
        (∃ u r', ResolutionM.merge s t r = .ok u r' ∧ ∀ v, r'.Stands raw v members ↔ v = u) ∨
          (∀ v, ¬r.Stands raw v members) ∧ ∃ n, limit = some n ∧ n ≤ r.merged.length ∧
            ResolutionM.merge s t r = .error (.conflict s (.unconverged n)) r := by
  have hbooked := (Booked.ofRaw hends hclosed).session hclosed h
  exact ⟨hbooked.ledger, fun s t hs ht => hbooked.merge hclosed hs ht⟩

/-- Three steps are merged in two ways, with room for two merged steps only: the pair that was not
merged before finds no room, and the step for all three is found again. -/
theorem ledger_of_session_full :
    let raw : RawTable := ⟨⟨⟨[(0, [⟨⟨97, 98⟩, .go 1 []⟩, ⟨⟨97, 97⟩, .go 2 []⟩]),
      (1, [⟨⟨97, 97⟩, .accept 1⟩]), (2, [⟨⟨98, 98⟩, .go 3 []⟩]), (3, [])], by decide⟩,
      ⟨[(2, 1), (3, 0)], by decide⟩⟩, .empty, some 0⟩
    raw.Closed 4 ∧ (∀ s, raw.table.ends.get? s ≠ none → s < 4) ∧
      ∃ r, Session (.ofRaw raw 4 (some 2)) [.resolve 0, .merge 4 3, .merge 3 1, .merge 1 5] r ∧
        Ledger raw 4 r ∧ r.merged = [([1, 2], 4), ([1, 2, 3], 5)] ∧
        r.ends.get? 5 = some 0 := by
  intro raw
  have hclosed : raw.Closed 4 := RawTable.closed_of_entries (by decide +kernel)
  have hends : ∀ s, raw.table.ends.get? s ≠ none → s < 4 := by
    intro s hs
    have hlt : ∀ s ∈ raw.table.ends.keys, s < 4 := by decide +kernel
    exact hlt s (IdMap.mem_keys.2 hs)
  have hsession : Session (.ofRaw raw 4 (some 2))
      [.resolve 0, .merge 4 3, .merge 3 1, .merge 1 5] _ :=
    .cons (by decide +kernel) (.cons (by decide +kernel) (.cons (by decide +kernel)
      (.cons (by decide +kernel) .nil)))
  exact ⟨hclosed, hends, _, hsession, (ledger_of_session hclosed hends hsession).1,
    by decide +kernel, by decide +kernel⟩

end Resolution

end Munch
