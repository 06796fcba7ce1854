/-
What one case for several stands for. `Combined` says that a transition does what the raw transitions
do that are taken together: it goes on at a step that stands for all their targets, and its
conditions know the lowest pattern that is accepted on the way; only if none of them goes on it
accepts itself. A resolved step has such a case for each byte on which something happens
(`resolveStep_ensures`).
-/
import Munch.Proofs.Table.Combining

namespace Munch

open Table Resolution

variable {raw : RawTable} {first : StepId} {limit : Option Int} {r r' : Resolution}
  {range : Interval} {ts us : List Transition} {t u : Transition}

/-- A transition as raw tables have them. -/
def RawTable.IsRaw (raw : RawTable) : Transition → Prop
  | .go target conditions => conditions = [] ∧ raw.table.steps.get? target ≠ none
  | .accept index =>
    (∃ step, raw.acceptors.get? index = some step ∧ raw.table.ends.get? step = some index) ∨
      raw.acceptors.get? index = none ∧ ∃ step, raw.table.ends.get? step = some index

/-- The step that stands for the end of the pattern: the one that the table has for it, or else the
lowest that accepts it on arrival. -/
def RawTable.Accepts (raw : RawTable) (index : PatternIndex) (s : StepId) : Prop :=
  match raw.acceptors.get? index with
  | some step => s = step
  | none => Least (fun t => raw.table.ends.get? t = some index) (some s)

theorem RawTable.Accepts.ends_eq {index : PatternIndex} {s : StepId} (h : raw.Accepts index s)
    (hi : raw.IsRaw (.accept index)) : raw.table.ends.get? s = some index := by
  unfold RawTable.Accepts at h
  rcases hi with ⟨step, hs, hend⟩ | ⟨hnone, -⟩
  · rw [hs] at h
    exact h ▸ hend
  · rw [hnone] at h
    exact h.1

/-- The transition does what the raw ones do together on the bytes of the interval. -/
def Combined (raw : RawTable) (r : Resolution) (range : Interval) (ts : List Transition) :
    Transition → Prop
  | .accept index => following ts = [] ∧ Least (· ∈ accepted ts) (some index)
  | .go target conditions => ∃ members, r.Stands raw target members ∧
    (∀ s, s ∈ members ↔ s ∈ following ts) ∧
    (∀ c ∈ conditions, c.range = range ∧ ∃ k ∈ accepted ts, raw.table.ends.get? c.step = some k) ∧
    ∀ k ∈ accepted ts, ∃ c ∈ conditions, ∃ l, raw.table.ends.get? c.step = some l ∧ l ≤ k

namespace Combined

theorem mono (h : Combined raw r range ts t) (hr : Extends r r') : Combined raw r' range ts t := by
  cases t with
  | accept => exact h
  | go =>
    obtain ⟨members, hs, h⟩ := h
    exact ⟨members, hs.mono hr, h⟩

theorem congr (h : Combined raw r range ts t) (hmem : ∀ v, v ∈ ts ↔ v ∈ us) :
    Combined raw r range us t := by
  have hfollowing := mem_following_congr hmem
  have haccepted := mem_accepted_congr hmem
  cases t with
  | accept index =>
    obtain ⟨hnone, hleast⟩ := h
    exact ⟨(following_eq_nil_congr hmem).1 hnone, hleast.congr haccepted⟩
  | go target conditions => simpa only [Combined, hfollowing, haccepted] using h

end Combined

/-- What stands for raw steps and remembers steps that accept does what it is combined of. -/
theorem Combines.combined
    (h : Combines (fun s => raw.table.steps.get? s ≠ none)
      (fun k s => raw.table.ends.get? s = some k) r range ts t) : Combined raw r range ts t := by
  cases t with
  | accept index => exact h
  | go target conditions =>
    obtain ⟨-, ⟨members, hs, hmem⟩, hconds, hall⟩ := h
    refine ⟨members, hs, hmem, hconds, fun k hk => ?_⟩
    obtain ⟨c, hc, l, -, hcl⟩ := hall k hk
    exact ⟨c, hc, l, hcl⟩

namespace ResolutionM

variable {E : Error → Resolution → Prop}

/-- The raw steps come before the merged ones, so the lowest step that accepts a pattern is raw. -/
theorem acceptorOf_accepts {index : PatternIndex} (hacceptors : r.acceptors = raw.acceptors)
    (hends : ∀ s < first, r.ends.get? s = raw.table.ends.get? s)
    (hfree : ∀ s, raw.table.ends.get? s ≠ none → s < first)
    (hraw : ∀ s, r.ends.get? s = some index → ∃ t, raw.table.ends.get? t = some index) :
    Ensures (acceptorOf index) r (fun s r' => raw.Accepts index s ∧ r' = r) fun _ _ =>
      ∀ s, raw.table.ends.get? s ≠ some index := by
  refine ensures_get_bind ?_
  rw [hacceptors]
  unfold RawTable.Accepts
  cases hs : raw.acceptors.get? index with
  | some step => exact ensures_pure ⟨rfl, rfl⟩
  | none =>
    have hmem (t : StepId) : t ∈ (r.ends.entries.filter (·.2 == index)).map (·.1) ↔
        r.ends.get? t = some index := by
      rw [IdMap.get?_eq_some_iff, List.mem_map]
      constructor
      · intro h
        obtain ⟨⟨_, k⟩, he, rfl⟩ := h
        obtain ⟨hentry, hk⟩ := List.mem_filter.1 he
        obtain rfl : k = index := by simpa using hk
        exact hentry
      · exact fun h => ⟨(t, index), List.mem_filter.2 ⟨h, by simp⟩, rfl⟩
    have hkeep {t : StepId} (ht : raw.table.ends.get? t = some index) :
        r.ends.get? t = some index ∧ t < first := by
      have hlt := hfree t (ht ▸ Option.some_ne_none index)
      exact ⟨(hends t hlt).trans ht, hlt⟩
    simp only
    cases hm : ((r.ends.entries.filter (·.2 == index)).map (·.1)).min? with
    | none =>
      refine ensures_throw fun t ht => ?_
      have hin := (hmem t).2 (hkeep ht).1
      rw [List.min?_eq_none_iff.1 hm] at hin
      cases hin
    | some m =>
      obtain ⟨hmm, hmin⟩ := List.min?_eq_some_iff.1 hm
      have hend := (hmem m).1 hmm
      obtain ⟨t, ht⟩ := hraw m hend
      have hlt : m < first :=
        Int.lt_of_le_of_lt (hmin t ((hmem t).2 (hkeep ht).1)) (hkeep ht).2
      refine ensures_pure ⟨⟨(hends m hlt).symm.trans hend, fun u hu => ?_⟩, rfl⟩
      exact hmin u ((hmem u).2 (hkeep hu).1)

theorem acceptorOf_ensures {index : PatternIndex} (h : Sound raw first limit r)
    (hraw : raw.Resolvable first) (hi : raw.IsRaw (.accept index)) :
    Ensures (acceptorOf index) r
      (fun s r' => raw.table.ends.get? s = some index ∧ r' = r) E := by
  have hsome : ∃ s, raw.table.ends.get? s = some index := by
    rcases hi with ⟨s, -, hs⟩ | ⟨-, hs⟩
    · exact ⟨s, hs⟩
    · exact hs
  have hfree (s : StepId) (hs : raw.table.ends.get? s ≠ none) : s < first := by
    obtain ⟨k, hk⟩ := Option.ne_none_iff_exists'.1 hs
    exact hraw.free s (hraw.ends s k hk)
  refine (acceptorOf_accepts h.acceptors h.ends hfree fun _ _ => hsome).imp (fun s r' hs => ?_)
    fun _ _ he => ?_
  · exact ⟨hs.1.ends_eq hi, hs.2⟩
  · obtain ⟨s, hs⟩ := hsome
    exact absurd hs (he s)

/-- In a sound resolution a raw step stands for itself, and any two steps can be merged. -/
theorem combining_sound (hraw : raw.Resolvable first) :
    Combining (Sound raw first limit) (fun s => raw.table.steps.get? s ≠ none)
      (fun k s => raw.table.ends.get? s = some k) raw.IsRaw fun _ _ => limit ≠ none where
  plain _ _ h := h
  alone r s members h hs hms :=
    (h.members_eq hraw.free hms).symm.trans (h.members_eq hraw.free (.inl ⟨hs, rfl⟩))
  acceptor _ _ h hi := acceptorOf_ensures h hraw hi
  joins r s t members h hs ht _ := by
    refine (merge_ensures h hraw.free hs (.inl ⟨ht, rfl⟩)).mono fun u r' hu => ?_
    obtain ⟨hr', hext, hu⟩ := hu
    exact ⟨hr', hext, _, hu, fun x => by simp [mem_sortDistinct]⟩

end ResolutionM

/-! ## Resolved cases -/

/-- The cases do what those of the members do together. -/
structure Resolves (raw : RawTable) (r : Resolution) (members : List StepId) (cases : List Case) :
    Prop where
  inOrder : InOrder cases
  combined : ∀ c ∈ cases, ∀ n, c.range.contains n = true →
    Combined raw r c.range (transitionsAt (raw.casesAll members) n) c.transition
  complete : ∀ n, transitionsAt (raw.casesAll members) n ≠ [] →
    ∃ c ∈ cases, c.range.contains n = true

theorem Resolves.mono {members : List StepId} {cases : List Case}
    (h : Resolves raw r members cases) (hr : Extends r r') : Resolves raw r' members cases :=
  ⟨h.inOrder, fun c hc n hn => (h.combined c hc n hn).mono hr, h.complete⟩

theorem RawTable.Resolvable.isRaw {members : List StepId} {c : Case} (h : raw.Resolvable first)
    (hc : c ∈ raw.casesAll members) : raw.IsRaw c.transition := by
  obtain ⟨s, -, hs⟩ := List.mem_flatMap.1 hc
  cases hcases : raw.table.steps.get? s with
  | none => simp [hcases] at hs
  | some cases =>
    rw [hcases, Option.getD_some] at hs
    cases ht : c.transition with
    | go target conditions => exact h.goes s cases c target conditions hcases hs ht
    | accept index => exact h.accepting s cases c index hcases hs ht

theorem ResolutionM.resolveStep_ensures {s : StepId} {members : List StepId}
    (h : Sound raw first limit r) (hraw : raw.Resolvable first) (hs : Stands raw r s members) :
    Ensures (resolveStep s) r
      (fun cases r' => Sound raw first limit r' ∧ Extends r r' ∧ Resolves raw r' members cases)
      fun _ _ => limit ≠ none := by
  have hfolding : Folding (Sound raw first limit) _ _ _ := (combining_sound hraw).folding
  refine (hfolding.resolveStep_ensures h (h.steps_eq hraw.free hs) fun c hc => hraw.isRaw hc).mono
    fun cases r' hcases => ?_
  obtain ⟨hr', hext, htidy, hcombines, hcomplete⟩ := hcases
  exact ⟨hr', hext, htidy.inOrder, fun c hc n hn => (hcombines c hc n hn).combined, hcomplete⟩

end Munch
