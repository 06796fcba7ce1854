/-
A resolved table does what its raw table does. While the raw table is in several steps at once, the
resolved one is in the step that stands for them (`run_resolvedTable`), and with each byte both
finish the same pattern (`finished_eq`): it is kept as a transition that accepts, as a condition or as
an end of the target.
-/
import Munch.Proofs.Table.Resolve

namespace Munch

open Table Resolution ResolutionM

variable {raw : RawTable} {first s : StepId} {limit : Option Int} {r : Resolution}
  {all members active : List StepId}

/-- What active steps do on a byte is what all their cases do on it. -/
theorem mem_taken_iff {b : UInt8} {t : Transition} (h : ∀ x, x ∈ active ↔ x ∈ members) :
    t ∈ raw.table.taken active b ↔ t ∈ transitionsAt (raw.casesAll members) b.toNat := by
  rw [mem_taken, mem_transitionsAt]
  simp only [RawTable.casesAll, List.mem_flatMap, h]
  constructor
  · intro ht
    obtain ⟨s, hs, cases, hcases, c, hc, hct⟩ := ht
    exact ⟨c, ⟨s, hs, by simpa [hcases] using hc⟩, hct⟩
  · intro ht
    obtain ⟨c, ⟨s, hs, hc⟩, hct⟩ := ht
    cases hcases : raw.table.steps.get? s with
    | none => simp [hcases] at hc
    | some cases => exact ⟨s, hs, cases, hcases, c, by simpa [hcases] using hc, hct⟩

theorem mem_endOf {k : PatternIndex} :
    k ∈ members.filterMap raw.table.ends.get? ↔ ∃ s ∈ members, raw.table.ends.get? s = some k := by
  rw [List.mem_filterMap]

namespace Resolution.Explored

/-- What is finished on the way to the target is the lowest pattern that the raw table finishes. -/
theorem finished_eq {range : Interval} {ts : List Transition} {target : StepId}
    {conditions : List Condition} (h : Explored raw first limit all all r)
    (hraw : raw.Resolvable first) (hc : Combined raw r range ts (.go target conditions))
    (hnamed : ∀ t ∈ (Transition.go target conditions).steps, t ∈ all) :
    (resolvedTable r).finished target conditions =
      (accepted ts ++ (following ts).filterMap raw.table.ends.get?).min? := by
  obtain ⟨members, hs, hmem, hconds, hacc⟩ := hc
  have htarget : (resolvedTable r).ends.get? target = raw.endOf members :=
    (h.ends_eq (hnamed target (by simp [Transition.steps]))).trans (h.sound.ends_eq hraw.free hs)
  have hcond (c : Condition) (hc : c ∈ conditions) :
      (resolvedTable r).ends.get? c.step = raw.table.ends.get? c.step := by
    obtain ⟨-, k, -, hk⟩ := hconds c hc
    rw [h.ends_eq (hnamed c.step (List.mem_cons_of_mem _ (List.mem_map_of_mem hc)))]
    exact h.sound.ends c.step (hraw.free c.step (hraw.ends c.step k hk))
  have hfin (k : PatternIndex) :
      k ∈ (conditions.map (·.step) ++ [target]).filterMap (resolvedTable r).ends.get? ↔
        (∃ c ∈ conditions, raw.table.ends.get? c.step = some k) ∨ raw.endOf members = some k := by
    simp only [List.filterMap_append, List.mem_append, List.mem_filterMap, List.mem_map,
      List.mem_singleton, exists_exists_and_eq_and, exists_eq_left, htarget]
    refine or_congr_left (exists_congr fun c => and_congr_right fun hc => ?_)
    rw [hcond c hc]
  refine ((least_min? _).of_subset (fun k hk => ?_) fun k hk => ?_).unique (least_min? _)
  · rcases (hfin k).1 hk with ⟨c, hc, hck⟩ | hend
    · obtain ⟨-, l, hl, hcl⟩ := hconds c hc
      obtain rfl := Option.some.inj (hck.symm.trans hcl)
      exact List.mem_append_left _ hl
    · obtain ⟨s, hsm, hsk⟩ := mem_endOf.1 (List.min?_mem hend)
      exact List.mem_append_right _ (List.mem_filterMap.2 ⟨s, (hmem s).1 hsm, hsk⟩)
  · rcases List.mem_append.1 hk with hk | hk
    · obtain ⟨c, hc, l, hcl, hlk⟩ := hacc k hk
      exact ⟨l, (hfin l).2 (.inl ⟨c, hc, hcl⟩), hlk⟩
    · obtain ⟨s, hsm, hsk⟩ := List.mem_filterMap.1 hk
      have hin := mem_endOf.2 ⟨s, (hmem s).2 hsm, hsk⟩
      cases he : raw.endOf members with
      | none => simp [List.min?_eq_none_iff.1 he] at hin
      | some l => exact ⟨l, (hfin l).2 (.inr he), (List.min?_eq_some_iff.1 he).2 k hin⟩

/-- On a byte the step does what all active steps do together, or nothing if they do nothing. -/
theorem step_eq (h : Explored raw first limit all all r) (hraw : raw.Resolvable first)
    (hs : r.Stands raw s members) (hsall : s ∈ all) (hactive : ∀ x, x ∈ active ↔ x ∈ members)
    (b : UInt8) :
    ∃ cases, (resolvedTable r).steps.get? s = some cases ∧
      (cases.find? (·.range.contains b.toNat) = none ∧ raw.table.taken active b = [] ∨
        ∃ c, cases.find? (·.range.contains b.toNat) = some c ∧
          Combined raw r c.range (raw.table.taken active b) c.transition ∧
          ∀ t ∈ c.transition.steps, t ∈ all) := by
  obtain ⟨cases, hcases⟩ := Option.ne_none_iff_exists'.1 ((h.done s).1 hsall)
  obtain ⟨ms, hms, hres⟩ := h.resolves s cases hcases
  obtain rfl := (h.sound.members_eq hraw.free hms).symm.trans (h.sound.members_eq hraw.free hs)
  have htaken (t : Transition) : t ∈ raw.table.taken active b ↔
      t ∈ transitionsAt (raw.casesAll ms) b.toNat := mem_taken_iff hactive
  refine ⟨cases, hcases, ?_⟩
  cases hf : cases.find? (·.range.contains b.toNat) with
  | none =>
    refine .inl ⟨rfl, List.eq_nil_iff_forall_not_mem.2 fun t ht => ?_⟩
    obtain ⟨c, hc, hcb⟩ := hres.complete b.toNat (List.ne_nil_of_mem ((htaken t).1 ht))
    exact List.find?_eq_none.1 hf c hc hcb
  | some c =>
    have hc := List.mem_of_find?_eq_some hf
    have hcb : c.range.contains b.toNat = true := by simpa using List.find?_some hf
    refine .inr ⟨c, rfl, ?_, h.named s cases hcases c hc⟩
    exact (hres.combined c hc b.toNat hcb).congr fun t => (htaken t).symm

/-- From the step that stands for all active steps, both tables find the same. -/
theorem run_resolvedTable (h : Explored raw first limit all all r) (hraw : raw.Resolvable first)
    (hs : r.Stands raw s members) (hsall : s ∈ all) (hactive : ∀ x, x ∈ active ↔ x ∈ members)
    (last : Option Hit) (offset : Nat) (data : List UInt8) :
    (resolvedTable r).run s last offset data =
      .ok (raw.table.runThreads active last offset data) := by
  induction data generalizing s members active last offset with
  | nil => rfl
  | cons b rest ih =>
    obtain ⟨cases, hcases, hstep⟩ := h.step_eq hraw hs hsall hactive b
    rw [Table.run, runThreads]
    simp only [hcases]
    rcases hstep with ⟨hf, hnone⟩ | ⟨c, hf, hcombined, hnamed⟩
    · simp [hf, hnone, following, accepted]
    · simp only [hf]
      cases ht : c.transition with
      | accept index =>
        rw [ht] at hcombined
        obtain ⟨hnone, hleast⟩ := hcombined
        have hmin : (accepted (raw.table.taken active b)).min? = some index :=
          (least_min? _).unique hleast
        simp [hnone, hmin]
      | go target conditions =>
        rw [ht] at hcombined hnamed
        have htarget : target ∈ all := hnamed target (by simp [Transition.steps])
        simp only [h.finished_eq hraw hcombined hnamed]
        obtain ⟨members', hs', hmem, -⟩ := hcombined
        obtain ⟨x, hx⟩ := List.exists_mem_of_ne_nil _ (h.sound.isMembers hs').ne_nil
        have hgo : (following (raw.table.taken active b)).isEmpty = false := by
          rw [List.isEmpty_eq_false_iff]
          exact List.ne_nil_of_mem ((hmem x).1 hx)
        have hih := ih hs' htarget fun x => (hmem x).symm
        simp only [hgo, Bool.false_eq_true, if_false]
        cases (accepted (raw.table.taken active b) ++
          (following (raw.table.taken active b)).filterMap raw.table.ends.get?).min? with
        | none => exact hih last (offset + 1)
        | some index => exact hih (some ⟨index, offset + 1⟩) (offset + 1)

end Resolution.Explored

namespace RawTable

variable {initial : StepId} {table : Table}

theorem explored_of_resolve (hraw : raw.Resolvable first) (hi : raw.table.steps.get? initial ≠ none)
    (h : raw.resolve initial first limit = .ok table) :
    ∃ r all, Explored raw first limit all all r ∧ initial ∈ all ∧ Reached initial all r ∧
      table = resolvedTable r := by
  obtain ⟨r, heq⟩ := resolve_eq_ok.1 h
  exact ⟨r, (resolve_ensures hraw hi).of_ok heq⟩

theorem ends_of_resolve (hraw : raw.Resolvable first) (hi : raw.table.steps.get? initial ≠ none)
    (h : raw.resolve initial first limit = .ok table) :
    table.ends.get? initial = raw.table.ends.get? initial := by
  obtain ⟨r, all, hall, hmem, -, rfl⟩ := explored_of_resolve hraw hi h
  exact (hall.ends_eq hmem).trans (hall.sound.ends initial (hraw.free initial hi))

theorem run_of_resolve (hraw : raw.Resolvable first) (hi : raw.table.steps.get? initial ≠ none)
    (h : raw.resolve initial first limit = .ok table) (last : Option Hit) (offset : Nat)
    (data : List UInt8) :
    table.run initial last offset data =
      .ok (raw.table.runThreads [initial] last offset data) := by
  obtain ⟨r, all, hall, hmem, -, rfl⟩ := explored_of_resolve hraw hi h
  exact hall.run_resolvedTable hraw (.inl ⟨hi, rfl⟩) hmem (fun _ => Iff.rfl) last offset data

/-- Without a limit on merged steps a resolution returns. -/
theorem exists_resolve (hraw : raw.Resolvable first) (hi : raw.table.steps.get? initial ≠ none) :
    ∃ table, raw.resolve initial first none = .ok table := by
  have hnever : Ensures (ResolutionM.resolve initial) (.ofRaw raw first none) (fun _ _ => True)
      fun _ _ => False := (resolve_ensures hraw hi).imp (fun _ _ _ => trivial) fun _ _ h => h rfl
  obtain ⟨table, r, heq, -⟩ := hnever.exists_ok
  exact ⟨table, resolve_eq_ok.2 ⟨r, heq⟩⟩

/-- **A resolved table finds what its raw table finds.** -/
theorem find_resolve (raw : RawTable) (first initial : StepId) (hraw : raw.Resolvable first)
    (hi : raw.table.steps.get? initial ≠ none) :
    ∃ table, raw.resolve initial first none = .ok table ∧
      ∀ (patterns : List String) (data : List UInt8) (start : Nat),
        (⟨table, initial, patterns⟩ : Machine).find data start =
          .ok (raw.table.findThreads initial start (data.drop start)) := by
  obtain ⟨table, htable⟩ := exists_resolve hraw hi
  refine ⟨table, htable, fun patterns data start => ?_⟩
  rw [Machine.find, Machine.run, ends_of_resolve hraw hi htable]
  exact run_of_resolve hraw hi htable _ start _

/-- Steps 0 and 1 are active together after an `a`, and then `b` finishes 1 and goes on. -/
theorem find_resolve_overlap :
    let raw : RawTable := ⟨⟨⟨[(0, [⟨⟨97, 122⟩, .go 0 []⟩, ⟨⟨97, 97⟩, .go 1 []⟩]),
      (1, [⟨⟨98, 98⟩, .accept 1⟩]), (2, [])], by decide⟩, ⟨[(1, 0), (2, 1)], by decide⟩⟩,
      ⟨[(0, 1)], by decide⟩, some 0⟩
    ∃ table, raw.resolve 0 3 none = .ok table ∧
      ∀ (patterns : List String) (data : List UInt8) (start : Nat),
        (⟨table, 0, patterns⟩ : Machine).find data start =
          .ok (raw.table.findThreads 0 start (data.drop start)) := by
  refine find_resolve _ 3 0 ⟨fun s cases c target conditions hs hc ht => ?_,
    fun s index hs => ?_, fun s cases c index hs hc ht => ?_, fun s hs => ?_⟩ (by decide)
  · have hs := IdMap.get?_eq_some_iff.1 hs
    simp at hs
    rcases hs with ⟨rfl, rfl⟩ | ⟨rfl, rfl⟩ | ⟨rfl, rfl⟩
    · simp at hc
      rcases hc with rfl | rfl
      · cases ht
        decide
      · cases ht
        decide
    · simp at hc
      subst hc
      cases ht
    · cases hc
  · have hs := IdMap.get?_eq_some_iff.1 hs
    simp at hs
    rcases hs with ⟨rfl, rfl⟩ | ⟨rfl, rfl⟩
    · decide
    · decide
  · have hs := IdMap.get?_eq_some_iff.1 hs
    simp at hs
    rcases hs with ⟨rfl, rfl⟩ | ⟨rfl, rfl⟩ | ⟨rfl, rfl⟩
    · simp at hc
      rcases hc with rfl | rfl
      · cases ht
      · cases ht
    · simp at hc
      subst hc
      cases ht
      exact .inr ⟨by decide, 2, by decide⟩
    · cases hc
  · obtain ⟨cases, hcases⟩ := Option.ne_none_iff_exists'.1 hs
    have hs := IdMap.get?_eq_some_iff.1 hcases
    simp at hs
    rcases hs with ⟨rfl, rfl⟩ | ⟨rfl, rfl⟩ | ⟨rfl, rfl⟩
    · decide
    · decide
    · decide

end RawTable

end Munch
