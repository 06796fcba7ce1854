/-
The runs of a raw table are those of the program. An active step stands for its position: it goes on
and accepts as the program does from there (`IsStep.finishesFrom_cons`), and what follows a byte are
again steps of the table, so the two finish the same patterns after every string
(`Built.finishes_iff`).
-/
import Mathlib.Order.Bounds.Defs
import Munch.Proofs.Table.Explore
import Munch.Proofs.Table.Threads

namespace Munch

variable {p : Program} {d : Draft} {i : Nat} {b : UInt8} {v w : List UInt8} {index : Int}
  {active : List StepId} {t : Transition} {table : Table}

namespace Program

/-- What is finished by a transition and the bytes behind it. -/
def FinishesBy (p : Program) (v : List UInt8) (index : Int) : Transition → Prop
  | .accept k => v = [] ∧ index = k
  | .go target _ => ∃ j : Nat, target = j ∧ FinishesFrom p j v index

theorem Goes.finishesFrom (h : p.Goes i t) : FinishesFrom p i v index ↔ p.FinishesBy v index t := by
  obtain ⟨j, inst, hj, hi, rfl⟩ := h
  obtain ⟨k, hk, hskip⟩ := follow_eq_ok_iff.1 hj
  obtain rfl := Goto.natCast_inj.1 hk
  rw [finishesFrom_skip hskip]
  cases inst with
  | accept last =>
    rw [finishesFrom_accept (.refl p j) hi, and_comm]
    rfl
  | save | split | look | char | span | oneOf | nop =>
    constructor
    · exact fun h => ⟨j, rfl, h⟩
    · intro h
      obtain ⟨j', hj', h⟩ := h
      obtain rfl : j = j' := by exact_mod_cast hj'
      exact h

theorem IsStep.finishesFrom_cons {cases : List Case} (h : p.IsStep i cases) :
    FinishesFrom p i (b :: v) index ↔
      ∃ c ∈ cases, c.range.contains b.toNat = true ∧ p.FinishesBy v index c.transition := by
  rw [h.settled.finishesFrom_cons]
  constructor
  · intro hrun
    obtain ⟨j, k, hj, ⟨inst, ranges, hi, hr, hb⟩, hk⟩ := hrun
    obtain ⟨r, hmem, hrb⟩ := List.any_eq_true.1 hb
    obtain ⟨t, ht⟩ := (h.drawn j hj).2 inst ranges k hi hr
    exact ⟨⟨r, t⟩, (h.mem_iff _).2 ⟨j, hj, inst, ranges, k, hi, hr, hmem, ht⟩, hrb,
      ht.finishesFrom.1 hk⟩
  · intro hcase
    obtain ⟨c, hc, hcb, hfin⟩ := hcase
    obtain ⟨j, hj, inst, ranges, next, hi, hr, hmem, ht⟩ := (h.mem_iff c).1 hc
    obtain ⟨m, inst', hm, hm', htr⟩ := ht
    obtain ⟨k, rfl, hskip⟩ := follow_eq_ok_iff.1 hm
    exact ⟨j, k, hj, ⟨inst, ranges, hi, hr, List.any_eq_true.2 ⟨c.range, hmem, hcb⟩⟩,
      Goes.finishesFrom ⟨m, inst', hm, hm', htr⟩ |>.2 hfin⟩

end Program

namespace DraftM

open Program Table

/-- All active steps are in the table. -/
def Active (d : Draft) (active : List StepId) : Prop := ∀ s ∈ active, d.steps.get? s ≠ none

/-- From one of the active steps the program reads the bytes and finishes the pattern. -/
def FinishesAny (p : Program) (active : List StepId) (w : List UInt8) (index : Int) : Prop :=
  ∃ i : Nat, ↑i ∈ active ∧ FinishesFrom p i w index

namespace Built

theorem exists_isStep (h : Built p d) (hs : d.steps.get? i ≠ none) :
    ∃ cases, d.steps.get? i = some cases ∧ p.IsStep i cases := by
  obtain ⟨cases, hcases⟩ := Option.ne_none_iff_exists'.1 hs
  obtain ⟨j, hj, hstep⟩ := h.toSound.isStep i cases hcases
  obtain rfl : i = j := by exact_mod_cast hj
  exact ⟨cases, hcases, hstep⟩

/-- The active steps after a byte. -/
theorem active_following (h : Built p d) (b : UInt8) :
    Active d (following (d.table.taken active b)) := by
  intro s hs
  obtain ⟨conditions, ht⟩ := mem_following.1 hs
  obtain ⟨r, -, cases, hcases, c, hc, -, hct⟩ := mem_taken.1 ht
  exact (h.closed r cases c s conditions hcases hc hct).2

theorem active_spread (h : Built p d) (ha : Active d active) (w : List UInt8) :
    Active d (d.table.spread active w) := by
  induction w generalizing active with
  | nil => exact ha
  | cons b w ih => exact ih (h.active_following b)

/-- A byte and what is finished behind it. -/
theorem finishesAny_cons (h : Built p d) (ha : Active d active) :
    FinishesAny p active (b :: v) index ↔
      v = [] ∧ index ∈ accepted (d.table.taken active b) ∨
        FinishesAny p (following (d.table.taken active b)) v index := by
  constructor
  · intro hrun
    obtain ⟨i, hi, hrun⟩ := hrun
    obtain ⟨cases, hcases, hstep⟩ := h.exists_isStep (ha i hi)
    obtain ⟨c, hc, hcb, hfin⟩ := hstep.finishesFrom_cons.1 hrun
    have hmem : c.transition ∈ d.table.taken active b :=
      mem_taken.2 ⟨i, hi, cases, hcases, c, hc, hcb, rfl⟩
    cases ht : c.transition with
    | accept k =>
      rw [ht] at hfin hmem
      obtain ⟨rfl, rfl⟩ := hfin
      exact .inl ⟨rfl, mem_accepted.2 hmem⟩
    | go target conditions =>
      rw [ht] at hfin hmem
      obtain ⟨j, rfl, hj⟩ := hfin
      exact .inr ⟨j, mem_following.2 ⟨conditions, hmem⟩, hj⟩
  · intro hcase
    have hback {t : Transition} (ht : t ∈ d.table.taken active b)
        (hfin : p.FinishesBy v index t) : FinishesAny p active (b :: v) index := by
      obtain ⟨s, hs, cases, hcases, c, hc, hcb, rfl⟩ := mem_taken.1 ht
      obtain ⟨i, rfl, hstep⟩ := h.toSound.isStep s cases hcases
      exact ⟨i, hs, hstep.finishesFrom_cons.2 ⟨c, hc, hcb, hfin⟩⟩
    rcases hcase with ⟨rfl, hk⟩ | ⟨j, hj, hrun⟩
    · exact hback (mem_accepted.1 hk) ⟨rfl, rfl⟩
    · obtain ⟨conditions, ht⟩ := mem_following.1 hj
      exact hback ht ⟨j, rfl, hrun⟩

theorem finishesAny_nil (h : Built p d) (ha : Active d active) :
    FinishesAny p active [] index ↔ ∃ i : Nat, ↑i ∈ active ∧ p.Ends i index := by
  refine exists_congr fun i => and_congr_right fun hi => ?_
  obtain ⟨cases, -, hstep⟩ := h.exists_isStep (ha i hi)
  exact hstep.settled.finishesFrom_nil

/-- The end of a step is the lowest pattern that is finished on arrival. -/
theorem least_ends (h : Built p d) (hs : d.steps.get? i ≠ none) :
    Least (p.Ends i) (d.ends.get? i) := by
  obtain ⟨cases, hcases, -⟩ := h.exists_isStep hs
  cases he : d.ends.get? i with
  | none => exact fun index hindex => h.ends i cases index hcases hindex he
  | some k =>
    obtain ⟨j, hj, hk⟩ := h.least i k he
    obtain rfl : i = j := by exact_mod_cast hj
    exact hk

/-- A pattern is finished with the last byte, or on arrival in a step that is active at the end. -/
theorem finishes_iff (h : Built p d) (ha : Active d active) :
    FinishesAny p active w index ↔
      (∃ u b, w = u ++ [b] ∧ .accept index ∈ d.table.taken
        (d.table.spread active u) b) ∨
      ∃ i : Nat, ↑i ∈ d.table.spread active w ∧ p.Ends i index := by
  induction w generalizing active with
  | nil =>
    rw [h.finishesAny_nil ha]
    simp [spread]
  | cons b w ih =>
    rw [h.finishesAny_cons ha, ih (h.active_following b), ← or_assoc]
    refine or_congr_left ?_
    rw [mem_accepted]
    constructor
    · intro hlast
      rcases hlast with ⟨rfl, hk⟩ | ⟨u, c, rfl, hk⟩
      · exact ⟨[], b, rfl, hk⟩
      · exact ⟨b :: u, c, rfl, hk⟩
    · intro hlast
      obtain ⟨u, c, hw, hk⟩ := hlast
      cases u with
      | nil =>
        obtain ⟨rfl, rfl⟩ := List.cons.inj hw
        exact .inl ⟨rfl, hk⟩
      | cons a u =>
        obtain ⟨rfl, rfl⟩ := List.cons.inj hw
        exact .inr ⟨u, c, rfl, hk⟩

end Built

end DraftM

/-- The table of an empty program is empty, and there is no step to start in. -/
theorem RawTable.ofProgram_of_empty (hempty : p.insts = #[]) :
    RawTable.ofProgram p = .ok ⟨⟨.empty, .empty⟩, .empty, none⟩ := by
  have hbuild : EStateM.run (DraftM.build p) Draft.empty = .ok none .empty := by
    unfold DraftM.build
    rw [hempty]
    rfl
  unfold RawTable.ofProgram
  rw [hbuild]
  rfl

theorem RawTable.of_ofProgram {raw : RawTable} (hne : p.insts ≠ #[])
    (h : RawTable.ofProgram p = .ok raw) :
    ∃ (d : Draft) (i : Nat), raw = ⟨d.table, d.acceptors, some i⟩ ∧
      p.skip p.entry = .ok i ∧ DraftM.Built p d ∧ d.steps.get? i ≠ none := by
  unfold RawTable.ofProgram at h
  cases hrun : EStateM.run (DraftM.build p) Draft.empty with
  | error e d => rw [hrun] at h; cases h
  | ok initial d =>
    rw [hrun] at h
    obtain ⟨i, rfl, hskip, hbuilt, hi⟩ := (DraftM.build_ensures p hne).of_ok hrun
    exact ⟨d, i, (Except.ok.inj h).symm, hskip, hbuilt, hi⟩

namespace RawTable

/-- The program and its raw table finish the same patterns: with the last byte, or on arrival in a
step that is active at the end. The end of such a step is the lowest pattern it finishes. -/
theorem ofProgram_finishes_iff {raw : RawTable} (hne : p.insts ≠ #[])
    (h : RawTable.ofProgram p = .ok raw) :
    ∃ initial, raw.initial = some initial ∧
      (∀ w index, p.Finishes w index ↔
        (∃ u b, w = u ++ [b] ∧ .accept index ∈ raw.table.taken (raw.table.spread [initial] u) b) ∨
        ∃ i : Nat, ↑i ∈ raw.table.spread [initial] w ∧
          ∃ j, p.Leads i j ∧ p.insts[j]? = some (.accept index)) ∧
      ∀ w, ∀ s ∈ raw.table.spread [initial] w, ∃ i : Nat, s = i ∧
        Least (fun index => ∃ j, p.Leads i j ∧ p.insts[j]? = some (.accept index))
          (raw.table.ends.get? s) := by
  obtain ⟨d, initial, rfl, hskip, hbuilt, hi⟩ := of_ofProgram hne h
  have ha : DraftM.Active d [(initial : Int)] := by simpa [DraftM.Active] using hi
  have hleads {w : List UInt8} {i : Nat} (his : ↑i ∈ d.table.spread [initial] w) (index : Int) :
      (∃ j, p.Leads i j ∧ p.insts[j]? = some (.accept index)) ↔ p.Ends i index := by
    obtain ⟨cases, -, hstep⟩ := hbuilt.exists_isStep (hbuilt.active_spread ha w i his)
    exact hstep.settled.leads_accept_iff
  refine ⟨initial, rfl, fun w index => ?_, fun w s hs => ?_⟩
  · have hstart : p.Finishes w index ↔ DraftM.FinishesAny p [(initial : Int)] w index := by
      refine (Program.finishesFrom_skip hskip).trans ?_
      simp [DraftM.FinishesAny]
    rw [hstart, hbuilt.finishes_iff ha]
    refine or_congr_right (exists_congr fun i => and_congr_right fun his => ?_)
    exact (hleads his index).symm
  · have hstep := hbuilt.active_spread ha w s hs
    obtain ⟨cases, hcases⟩ := Option.ne_none_iff_exists'.1 hstep
    obtain ⟨i, rfl, -⟩ := hbuilt.isStep s cases hcases
    exact ⟨i, rfl, (hbuilt.least_ends hstep).congr fun index => (hleads hs index).symm⟩

/-- A loop of splits, with an idle instruction on the way back. -/
theorem ofProgram_finishes_iff_loop :
    (#[.split 1 4, .split 2 3, .char 97 0, .nop 0, .accept 0] : Array Inst) ≠ #[] ∧
      ∃ raw, RawTable.ofProgram
        ⟨#[.split 1 4, .split 2 3, .char 97 0, .nop 0, .accept 0], 0, ["(?:a|)*"], []⟩ = .ok raw ∧
        raw.table.ends.get? 0 = some 0 ∧
        ¬ Program.Finishes
          ⟨#[.split 1 4, .split 2 3, .char 97 0, .nop 0, .accept 0], 0, ["(?:a|)*"], []⟩ [98] 0 := by
  have hne : (#[.split 1 4, .split 2 3, .char 97 0, .nop 0, .accept 0] : Array Inst) ≠ #[] := by
    simp
  have hok : ∃ raw, RawTable.ofProgram
      ⟨#[.split 1 4, .split 2 3, .char 97 0, .nop 0, .accept 0], 0, ["(?:a|)*"], []⟩ = .ok raw :=
    ⟨_, rfl⟩
  obtain ⟨raw, hraw⟩ := hok
  obtain ⟨initial, hinitial, hiff, hends⟩ := ofProgram_finishes_iff hne hraw
  obtain rfl := Except.ok.inj hraw
  obtain rfl : initial = 0 := (Option.some.inj hinitial).symm
  refine ⟨hne, _, rfl, rfl, fun h => ?_⟩
  rcases (hiff [98] 0).1 h with ⟨u, b, hw, ht⟩ | ⟨i, hi, -⟩
  · obtain ⟨rfl, rfl⟩ : u = [] ∧ b = 98 := by
      cases u with
      | nil => exact ⟨rfl, (List.cons.inj hw).1.symm⟩
      | cons a u => simp at hw
    exact absurd ht (by decide)
  · exact absurd hi List.not_mem_nil

end RawTable

end Munch
