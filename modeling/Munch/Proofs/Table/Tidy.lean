/-
Tidy lists of cases: in order, and with nothing left to join. Tidying makes such a list of any whose
cases lie apart (`tidy_tidyCases`), and neither cutting nor tidying changes it any more
(`cutCases_eq_self`, `tidyCases_eq_self`).
-/
import Mathlib.Data.List.Chain
import Mathlib.Data.List.Sort
import Munch.Proofs.Table.Cases

namespace Munch

/-- The second case goes on behind the first one with what that does. -/
def Joinable (c d : Case) : Prop :=
  c.range.hi + 1 = d.range.lo ∧ c.transition = d.transition ∧ d.transition.isConditional = false

/-- In order, and no two neighbours can be joined. -/
structure Tidy (cases : List Case) : Prop where
  inOrder : InOrder cases
  joined : cases.IsChain fun c d => ¬Joinable c d

variable {c d : Case} {cases rest : List Case}

/-! ## What tidying makes -/

/-- Joining starts with a case that starts as before and does the same. -/
theorem joinCases_eq_cons (c : Case) (rest : List Case) :
    ∃ d more, joinCases c rest = d :: more ∧ d.range.lo = c.range.lo ∧
      d.transition = c.transition := by
  induction rest generalizing c with
  | nil => exact ⟨c, [], rfl, rfl, rfl⟩
  | cons e rest ih =>
    rw [joinCases]
    split
    · next hjoin =>
      obtain ⟨d, more, heq, hlo, ht⟩ := ih ⟨⟨c.range.lo, e.range.hi⟩, e.transition⟩
      exact ⟨d, more, heq, hlo, ht.trans hjoin.2.1.symm⟩
    · exact ⟨c, _, rfl, rfl, rfl⟩

theorem joined_joinCases (c : Case) (rest : List Case) :
    (joinCases c rest).IsChain fun c d => ¬Joinable c d := by
  induction rest generalizing c with
  | nil => exact .singleton c
  | cons e rest ih =>
    rw [joinCases]
    split
    · exact ih _
    · next hjoin =>
      have hrest := ih e
      obtain ⟨d, more, heq, hlo, ht⟩ := joinCases_eq_cons e rest
      rw [heq] at hrest ⊢
      refine .cons_cons (fun hcd => hjoin ?_) hrest
      obtain ⟨htouch, hsame, hplain⟩ := hcd
      exact ⟨hlo ▸ htouch, ht ▸ hsame, by simpa [ht] using hplain⟩

theorem tidy_tidyCases (h : Apart cases) : Tidy (tidyCases cases) where
  inOrder := inOrder_tidyCases h
  joined := by
    unfold tidyCases
    split
    · exact .nil
    · exact joined_joinCases _ _

/-! ## What is tidy stays as it is -/

theorem joinCases_eq_self (h : (c :: rest).IsChain fun c d => ¬Joinable c d) :
    joinCases c rest = c :: rest := by
  induction rest generalizing c with
  | nil => rfl
  | cons d rest ih =>
    obtain ⟨hcd, hrest⟩ := List.isChain_cons_cons.1 h
    rw [joinCases, if_neg, ih hrest]
    intro hjoin
    exact hcd ⟨hjoin.1, hjoin.2.1, by simpa using hjoin.2.2⟩

theorem tidyCases_eq_self (h : Tidy cases) : tidyCases cases = cases := by
  obtain ⟨hpair, hle⟩ := h.inOrder
  have hsorted : cases.Pairwise fun c d => Interval.le c.range d.range = true := by
    refine hpair.imp_of_mem fun {c d} hc _ hcd => ?_
    have := hle c hc
    simp only [Interval.le, Bool.or_eq_true, decide_eq_true_eq]
    exact .inl (by omega)
  rw [tidyCases, sort_eq_self hsorted]
  cases cases with
  | nil => rfl
  | cons c rest => exact joinCases_eq_self h.joined

/-- Cases in order are not cut. -/
theorem cutCases_eq_self (h : InOrder cases) : cutCases cases = cases := by
  obtain ⟨hpair, hle⟩ := h
  have hpair : (cases.map (·.range)).Pairwise fun r s => r.hi < s.lo := List.pairwise_map.2 hpair
  have hle : ∀ r ∈ cases.map (·.range), r.lo ≤ r.hi := List.forall_mem_map.2 hle
  have hcut : ∀ c ∈ cases, (c.range.cut (cases.map (·.range))).map (⟨·, c.transition⟩) = [c] := by
    intro c hc
    rw [Interval.cut_eq_singleton hpair hle (List.mem_map_of_mem hc)]
    rfl
  rw [cutCases]
  simp only [Interval.pieces_eq_self hpair hle]
  rw [List.flatMap_congr hcut, List.flatMap_singleton']

end Munch
