/-
The longest match at the start of some data, with the lowest of the patterns that match so far.
Following the steps of a built table side by side finds it (`findThreads_longest`): after each byte
the lowest pattern is known that is finished with it, and the last one found is kept.
-/
import Munch.Proofs.Table.Runs

namespace Munch

/-- The hit is the longest match of what may be finished, or nothing is. -/
def Longest (F : List UInt8 → Int → Prop) (offset : Nat) (data : List UInt8) : Option Hit → Prop
  | none => ∀ u, u <+: data → ∀ k, ¬ F u k
  | some hit => ∃ u, u <+: data ∧ hit.stop = offset + u.length ∧ Least (F u) (some hit.index) ∧
    ∀ v, v <+: data → ∀ k, F v k → v.length ≤ u.length

namespace Longest

variable {F G : List UInt8 → Int → Prop} {offset : Nat} {u data : List UInt8} {last : Option Hit}
  {found : Option Int} {b : UInt8}

theorem congr (h : Longest F offset data last) (hFG : ∀ u k, F u k ↔ G u k) :
    Longest G offset data last := by
  have hFG' : F = G := funext fun u => funext fun k => propext (hFG u k)
  exact hFG' ▸ h

/-- Before the first byte. -/
theorem nil (h : Least (F []) found) : Longest F offset [] (found.map (⟨·, offset⟩)) := by
  cases found with
  | none =>
    intro u hu k
    obtain rfl := List.prefix_nil.1 hu
    exact h k
  | some k => exact ⟨[], List.prefix_rfl, rfl, h, fun v hv _ _ => hv.length_le⟩

/-- After one more byte. -/
theorem snoc (h : Longest F offset u last) (hf : Least (F (u ++ [b])) found) :
    Longest F offset (u ++ [b]) ((found.map (⟨·, offset + u.length + 1⟩)).or last) := by
  cases found with
  | some k =>
    exact ⟨u ++ [b], List.prefix_rfl, by simp [Nat.add_assoc], hf, fun v hv _ _ => hv.length_le⟩
  | none =>
    cases last with
    | none =>
      intro v hv k
      rcases List.prefix_concat_iff.1 hv with rfl | hv
      · exact hf k
      · exact h v hv k
    | some hit =>
      obtain ⟨w, hw, hstop, hleast, hmax⟩ := h
      refine ⟨w, hw.trans (List.prefix_append u [b]), hstop, hleast, fun v hv k hk => ?_⟩
      rcases List.prefix_concat_iff.1 hv with rfl | hv
      · exact absurd hk (hf k)
      · exact hmax v hv k hk

/-- Behind the last byte that matters. -/
theorem append (h : Longest F offset u last) (hnone : ∀ v, v ≠ [] → ∀ k, ¬ F (u ++ v) k)
    (rest : List UInt8) : Longest F offset (u ++ rest) last := by
  have hshort (v : List UInt8) (hv : v <+: u ++ rest) (k : Int) (hk : F v k) : v <+: u := by
    rcases List.prefix_or_prefix_of_prefix hv (List.prefix_append u rest) with hvu | huv
    · exact hvu
    · obtain ⟨w, rfl⟩ := huv
      by_cases hw : w = []
      · simp [hw]
      · exact absurd hk (hnone w hw k)
  cases last with
  | none => exact fun v hv k hk => h v (hshort v hv k hk) k hk
  | some hit =>
    obtain ⟨w, hw, hstop, hleast, hmax⟩ := h
    exact ⟨w, hw.trans (List.prefix_append u rest), hstop, hleast,
      fun v hv k hk => hmax v (hshort v hv k hk) k hk⟩

end Longest

namespace DraftM.Built

open Program Table

variable {p : Program} {d : Draft} {b : UInt8} {active : List StepId} {i : Nat}

/-- What is recorded for a byte is the lowest pattern that is finished with it. -/
theorem least_found (h : Built p d) (ha : Active d active) (b : UInt8) :
    Least (FinishesAny p active [b]) (accepted (d.table.taken active b) ++
      (following (d.table.taken active b)).filterMap d.table.ends.get?).min? := by
  have hiff (k : Int) : FinishesAny p active [b] k ↔ k ∈ accepted (d.table.taken active b) ∨
      ∃ i : Nat, ↑i ∈ following (d.table.taken active b) ∧ p.Ends i k := by
    rw [h.finishesAny_cons ha, h.finishesAny_nil (h.active_following b)]
    simp
  have hactive : Active d (following (d.table.taken active b)) := h.active_following b
  refine (least_min? _).of_subset (fun k hk => (hiff k).2 ?_) fun k hk => ?_
  · rcases List.mem_append.1 hk with hk | hk
    · exact .inl hk
    · obtain ⟨s, hs, hend⟩ := List.mem_filterMap.1 hk
      obtain ⟨i, rfl, hleast⟩ := h.least s k hend
      exact .inr ⟨i, hs, hleast.1⟩
  · rcases (hiff k).1 hk with hk | ⟨i, hi, hk⟩
    · exact ⟨k, List.mem_append_left _ hk, Int.le_refl k⟩
    · have hleast := h.least_ends (hactive i hi)
      cases he : d.ends.get? i with
      | none =>
        rw [he] at hleast
        exact absurd hk (hleast k)
      | some l =>
        rw [he] at hleast
        exact ⟨l, List.mem_append_right _ (List.mem_filterMap.2 ⟨i, hi, he⟩), hleast.2 k hk⟩

theorem runThreads_longest {F : List UInt8 → Int → Prop} {offset : Nat} {u : List UInt8}
    {last : Option Hit} (h : Built p d) (ha : Active d active)
    (hF : ∀ v, v ≠ [] → ∀ k, F (u ++ v) k ↔ FinishesAny p active v k)
    (hlast : Longest F offset u last) (data : List UInt8) :
    Longest F offset (u ++ data)
      (d.table.runThreads active last (offset + u.length) data) := by
  induction data generalizing u active last with
  | nil =>
    rw [List.append_nil]
    exact hlast
  | cons b rest ih =>
    have hfound := (h.least_found ha b).congr fun k => (hF [b] (by simp) k).symm
    have hnext := hlast.snoc hfound
    have hF' (v : List UInt8) (hv : v ≠ []) (k : Int) :
        F (u ++ [b] ++ v) k ↔ FinishesAny p (following (d.table.taken active b)) v k := by
      rw [List.append_assoc, hF _ (by simp), List.singleton_append, h.finishesAny_cons ha]
      simp [hv]
    have hcons : u ++ b :: rest = u ++ [b] ++ rest := by simp
    rw [hcons, runThreads]
    simp only
    split
    · next hempty =>
      refine hnext.append (fun v hv k hk => ?_) rest
      obtain ⟨i, hi, -⟩ := (hF' v hv k).1 hk
      rw [List.isEmpty_iff.1 hempty] at hi
      cases hi
    · have hlen : offset + u.length + 1 = offset + (u ++ [b]).length := by simp [Nat.add_assoc]
      rw [hlen] at hnext ⊢
      exact ih (h.active_following b) hF' hnext

/-- From one step on, the longest match of what the program finishes from there. -/
theorem findThreads_longest (h : Built p d) (hi : d.steps.get? i ≠ none) (offset : Nat)
    (data : List UInt8) :
    Longest (fun w k => FinishesFrom p i w k) offset data
      (d.table.findThreads i offset data) := by
  have ha : Active d [(i : Int)] := by simpa [Active] using hi
  have hsingle (w : List UInt8) (k : Int) :
      FinishesAny p [(i : Int)] w k ↔ FinishesFrom p i w k := by
    simp [FinishesAny]
  have hnil : Least (fun k => FinishesFrom p i [] k) (d.table.ends.get? i) := by
    refine (h.least_ends hi).congr fun k => ?_
    rw [← hsingle, h.finishesAny_nil ha]
    simp
  exact h.runThreads_longest (u := []) ha (fun v _ k => (hsingle v k).symm) (.nil hnil) data

end DraftM.Built

end Munch
