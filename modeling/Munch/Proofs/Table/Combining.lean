/-
One transition for several that are taken on the same bytes. It goes on at a step that stands for all
their targets, and its conditions know the lowest pattern that is accepted on the way; only if none of
them goes on it accepts itself (`Combines`). What steps stand for and which step accepts a pattern is
left open here. Combining transitions one by one comes to that (`Combining.folding`), if merging comes
to a step for what both steps stand for.
-/
import Mathlib.Order.MinMax
import Munch.Proofs.Least
import Munch.Proofs.Table.Folding
import Munch.Proofs.Table.Threads

namespace Munch

open Table Resolution

variable {Base : StepId → Prop} {Accepts : PatternIndex → StepId → Prop} {r r' : Resolution}
  {range : Interval} {ts us : List Transition} {t u : Transition}

namespace Resolution

/-- The step stands for the members: for itself alone, or for those that it was merged of. -/
def StandsFor (Base : StepId → Prop) (r : Resolution) (s : StepId) (members : List StepId) : Prop :=
  Base s ∧ members = [s] ∨ (members, s) ∈ r.merged

theorem StandsFor.mono {s : StepId} {members : List StepId} (h : StandsFor Base r s members)
    (hr : Extends r r') : StandsFor Base r' s members :=
  h.imp_right (hr.merged _)

end Resolution

/-- The transition does what the others do together on the bytes of the interval. -/
def Combines (Base : StepId → Prop) (Accepts : PatternIndex → StepId → Prop) (r : Resolution)
    (range : Interval) (ts : List Transition) : Transition → Prop
  | .accept index => following ts = [] ∧ Least (· ∈ accepted ts) (some index)
  | .go target conditions => following ts ≠ [] ∧
    (∃ members, StandsFor Base r target members ∧ ∀ s, s ∈ members ↔ s ∈ following ts) ∧
    (∀ c ∈ conditions, c.range = range ∧ ∃ k ∈ accepted ts, Accepts k c.step) ∧
    ∀ k ∈ accepted ts, ∃ c ∈ conditions, ∃ l ∈ accepted ts, Accepts l c.step ∧ l ≤ k

theorem mem_joinConditions {cs ds : List Condition} {c : Condition} :
    c ∈ joinConditions cs ds ↔ c ∈ cs ∨ c ∈ ds := by
  unfold joinConditions
  induction ds generalizing cs with
  | nil => simp
  | cons d ds ih =>
    rw [List.foldl_cons, ih, List.mem_cons, ← or_assoc]
    refine or_congr_left ?_
    split
    · next hd =>
      have hd : d ∈ cs := List.contains_iff_mem.1 hd
      constructor
      · exact .inl
      · intro h
        rcases h with h | rfl
        · exact h
        · exact hd
    · simp

namespace Combines

theorem mono (h : Combines Base Accepts r range ts t) (hr : Extends r r') :
    Combines Base Accepts r' range ts t := by
  cases t with
  | accept => exact h
  | go =>
    obtain ⟨hne, ⟨members, hs, hmem⟩, h⟩ := h
    exact ⟨hne, ⟨members, hs.mono hr, hmem⟩, h⟩

theorem congr (h : Combines Base Accepts r range ts t) (hmem : ∀ v, v ∈ ts ↔ v ∈ us) :
    Combines Base Accepts r range us t := by
  have hfollowing := mem_following_congr hmem
  have haccepted := mem_accepted_congr hmem
  have hnil := following_eq_nil_congr hmem
  cases t with
  | accept index =>
    obtain ⟨hnone, hleast⟩ := h
    exact ⟨hnil.1 hnone, hleast.congr haccepted⟩
  | go target conditions => simpa only [Combines, hnil, ne_eq, hfollowing, haccepted] using h

/-- A transition stands for one at least. -/
theorem ne_nil (h : Combines Base Accepts r range ts t) : ts ≠ [] := by
  intro hnil
  subst hnil
  cases t with
  | accept index => exact absurd h.2.1 List.not_mem_nil
  | go target conditions => exact h.1 rfl

/-- Without conditions it does not matter which interval they would hold on. -/
theorem of_unconditional (h : Combines Base Accepts r range ts t) (ht : t.isConditional = false)
    (range' : Interval) : Combines Base Accepts r range' ts t := by
  cases t with
  | accept => exact h
  | go target conditions =>
    cases conditions with
    | nil =>
      obtain ⟨hne, hs, -, hall⟩ := h
      exact ⟨hne, hs, by simp, hall⟩
    | cons => cases ht

theorem accept (range : Interval) (index : PatternIndex) :
    Combines Base Accepts r range [.accept index] (.accept index) :=
  ⟨rfl, by simp [Least, accepted]⟩

variable {target target' s : StepId} {conditions : List Condition} {index index' : PatternIndex}

theorem go (range : Interval) (hs : Base target) :
    Combines Base Accepts r range [.go target []] (.go target []) :=
  ⟨by simp, ⟨[target], .inl ⟨hs, rfl⟩, by simp⟩, by simp, by simp⟩

/-- Both go on: together at a step for all of them. -/
theorem go_go {all : List StepId} (h : Combines Base Accepts r range ts (.go target conditions))
    (hs : StandsFor Base r' s all) (hx : ∀ x, x ∈ all ↔ x ∈ following ts ∨ x = target') :
    Combines Base Accepts r' range (ts ++ [.go target' []])
      (.go s (joinConditions conditions [])) := by
  obtain ⟨-, -, hconds, hall⟩ := h
  refine ⟨by simp, ⟨all, hs, by simpa using hx⟩, ?_, ?_⟩
  · simpa [joinConditions] using hconds
  · simpa [joinConditions] using hall

/-- The first goes on and remembers what the second accepts. -/
theorem go_accept (h : Combines Base Accepts r range ts (.go target conditions))
    (hs : Accepts index s) :
    Combines Base Accepts r range (ts ++ [.accept index])
      (.go target (joinConditions conditions [⟨s, range⟩])) := by
  obtain ⟨hne, htarget, hconds, hall⟩ := h
  refine ⟨by simpa using hne, by simpa using htarget, fun c hc => ?_, fun k hk => ?_⟩
  · rcases mem_joinConditions.1 hc with hc | hc
    · obtain ⟨hrange, k, hk, hck⟩ := hconds c hc
      exact ⟨hrange, k, by simp [hk], hck⟩
    · obtain rfl := List.mem_singleton.1 hc
      exact ⟨rfl, index, by simp, hs⟩
  · rw [accepted_append, accepted_accept, List.mem_append, List.mem_singleton] at hk
    rcases hk with hk | rfl
    · obtain ⟨c, hc, l, hl, hcl⟩ := hall k hk
      exact ⟨c, mem_joinConditions.2 (.inl hc), l, by simp [hl], hcl⟩
    · exact ⟨⟨s, range⟩, mem_joinConditions.2 (.inr (by simp)), k, by simp, hs, Int.le_refl k⟩

/-- The second goes on and remembers what the first accepts. -/
theorem accept_go (h : Combines Base Accepts r range ts (.accept index)) (htarget : Base target)
    (hs : Accepts index s) :
    Combines Base Accepts r range (ts ++ [.go target []])
      (.go target (joinConditions [] [⟨s, range⟩])) := by
  obtain ⟨hnone, hleast⟩ := h
  refine ⟨by simp, ⟨[target], .inl ⟨htarget, rfl⟩, fun x => ?_⟩, fun c hc => ?_, fun k hk => ?_⟩
  · simp [hnone]
  · obtain rfl : c = ⟨s, range⟩ := by simpa [mem_joinConditions] using hc
    exact ⟨rfl, index, by simpa using hleast.1, hs⟩
  · rw [accepted_append, accepted_go, List.append_nil] at hk ⊢
    exact ⟨⟨s, range⟩, mem_joinConditions.2 (.inr (by simp)), index, hleast.1, hs, hleast.2 k hk⟩

/-- Neither goes on: the lower pattern counts. -/
theorem accept_accept (h : Combines Base Accepts r range ts (.accept index)) :
    Combines Base Accepts r range (ts ++ [.accept index']) (.accept (min index index')) := by
  obtain ⟨hnone, hleast⟩ := h
  refine ⟨by simp [hnone], ?_, fun k hk => ?_⟩
  · show min index index' ∈ accepted (ts ++ [.accept index'])
    rw [accepted_append, accepted_accept, List.mem_append, List.mem_singleton]
    rcases min_choice index index' with hmin | hmin
    · exact .inl (hmin.symm ▸ hleast.1)
    · exact .inr hmin
  · rw [accepted_append, accepted_accept, List.mem_append, List.mem_singleton] at hk
    rcases hk with hk | rfl
    · exact Int.le_trans (Int.min_le_left index index') (hleast.2 k hk)
    · exact Int.min_le_right index k

end Combines

namespace ResolutionM

variable {Inv : Resolution → Prop} {Plain : Transition → Prop} {E : Error → Resolution → Prop}

/-- What combining plain transitions rests on: those that go on do so at steps that stand for
themselves, accepted patterns have a step, and a step is found or made for what a step stands for and
one more. -/
structure Combining (Inv : Resolution → Prop) (Base : StepId → Prop)
    (Accepts : PatternIndex → StepId → Prop) (Plain : Transition → Prop)
    (E : Error → Resolution → Prop) : Prop where
  plain : ∀ target conditions, Plain (.go target conditions) → conditions = [] ∧ Base target
  alone : ∀ r s members, Inv r → Base s → StandsFor Base r s members → members = [s]
  acceptor : ∀ r index, Inv r → Plain (.accept index) →
    Ensures (acceptorOf index) r (fun s r' => Accepts index s ∧ r' = r) E
  joins : ∀ r s t members, Inv r → StandsFor Base r s members → Base t → s ≠ t →
    Ensures (merge s t) r
      (fun u r' => Inv r' ∧ Extends r r' ∧ ∃ all, StandsFor Base r' u all ∧
        ∀ x, x ∈ all ↔ x ∈ members ∨ x = t) E

theorem combine_go (target target' : StepId) (conditions conditions' : List Condition) :
    combine range (.go target conditions) (.go target' conditions') =
      (if target = target' then pure target else merge target target') >>= fun v =>
        pure (.go v (joinConditions conditions conditions')) := by
  by_cases h : target = target'
  · simp only [combine, if_pos h]
  · simp only [combine, if_neg h]

namespace Combining

variable (h : Combining Inv Base Accepts Plain E)

include h

/-- A step for the members of a step together with one of the base. -/
theorem joining_ensures {s t : StepId} {members : List StepId} (hr : Inv r)
    (hs : StandsFor Base r s members) (ht : Base t) :
    Ensures (if s = t then pure s else merge s t) r
      (fun u r' => Inv r' ∧ Extends r r' ∧ ∃ all, StandsFor Base r' u all ∧
        ∀ x, x ∈ all ↔ x ∈ members ∨ x = t) E := by
  split
  · next heq =>
    subst heq
    obtain rfl := h.alone r s members hr ht hs
    exact ensures_pure ⟨hr, .refl r, [s], hs, by simp⟩
  · next hne => exact h.joins r s t members hr hs ht hne

theorem combine_ensures (hr : Inv r) (hts : ∀ v ∈ ts, Plain v) (hu : Plain u)
    (ht : Combines Base Accepts r range ts t) :
    Ensures (combine range t u) r
      (fun v r' => Inv r' ∧ Extends r r' ∧ Combines Base Accepts r' range (ts ++ [u]) v) E := by
  cases t with
  | go target conditions =>
    cases u with
    | go target' conditions' =>
      obtain ⟨rfl, htarget'⟩ := h.plain target' conditions' hu
      obtain ⟨-, ⟨members, hs, hmem⟩, -⟩ := id ht
      rw [combine_go]
      refine (h.joining_ensures hr hs htarget').bind fun v r' hv => ?_
      obtain ⟨hr', hext, all, hv, hall⟩ := hv
      exact ensures_pure ⟨hr', hext, ht.go_go hv fun x => (hall x).trans (or_congr_left (hmem x))⟩
    | accept index =>
      refine (h.acceptor r index hr hu).bind fun s r' hs => ?_
      obtain ⟨hs, rfl⟩ := hs
      exact ensures_pure ⟨hr, .refl r', ht.go_accept hs⟩
  | accept index =>
    cases u with
    | go target conditions =>
      obtain ⟨rfl, htarget⟩ := h.plain target conditions hu
      have hindex : Plain (.accept index) := hts _ (mem_accepted.1 ht.2.1)
      refine (h.acceptor r index hr hindex).bind fun s r' hs => ?_
      obtain ⟨hs, rfl⟩ := hs
      exact ensures_pure ⟨hr, .refl r', ht.accept_go htarget hs⟩
    | accept index' => exact ensures_pure ⟨hr, .refl r, ht.accept_accept⟩

/-- What is combined does what its parts do together. -/
theorem folding : Folding Inv Plain (Combines Base Accepts) E where
  mono _ _ _ _ _ ht hext := ht.mono hext
  congr _ _ _ _ _ ht hmem := ht.congr hmem
  unconditional _ _ range' _ _ ht hplain := ht.of_unconditional hplain range'
  single r range t ht := by
    cases t with
    | go target conditions =>
      obtain ⟨rfl, htarget⟩ := h.plain target conditions ht
      exact .go range htarget
    | accept index => exact .accept range index
  combine _ _ _ _ _ hr hts hu ht := h.combine_ensures hr hts hu ht

end Combining

end ResolutionM

end Munch
