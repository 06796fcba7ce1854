/-
Where a run may come to an instruction that no table can express. `Barred p i` says that a run from
`i` may come to such a bar. `Gate p i x B P` sums up the code between two positions: there is a bar in
it if `B`, it can be passed if `P`, and a run from `i` comes to a bar only in it or behind it
(`Gate.barred_iff`). There is one rule for each way in which instructions are put together.
-/
import Mathlib.Logic.Relation
import Munch.Proofs.Program.Passage

namespace Munch

/-- What the instruction asks for that no table can express. -/
def Inst.bar? : Inst → Option Construct
  | .save slot _ => some (.capture slot)
  | .look kind _ => some (.assertion kind)
  | _ => none

/-- The instruction goes on at the position. A byte instruction has to have an interval to go on. -/
def Inst.Continues : Inst → Nat → Prop
  | .accept _, _ | .save _ _, _ | .look _ _, _ => False
  | .nop next, j | .char _ next, j | .span _ next, j => next = j
  | .split first second, j => first = j ∨ second = j
  | .oneOf ranges next, j => ranges ≠ [] ∧ next = j

namespace Program

variable {p : Program} {i j k x m n : Nat} {inst : Inst} {construct : Construct}
  {B B' P P' : Prop}

def Continues (p : Program) (i j : Nat) : Prop :=
  ∃ inst, p.insts[i]? = some inst ∧ inst.Continues j

/-- A run may come from one position to the other, whatever it reads. -/
def Reaches (p : Program) : Nat → Nat → Prop := Relation.ReflTransGen p.Continues

/-- The position holds a bar. -/
def BarAt (p : Program) (i : Nat) (construct : Construct) : Prop :=
  ∃ inst, p.insts[i]? = some inst ∧ inst.bar? = some construct

def Barred (p : Program) (i : Nat) : Prop :=
  ∃ j construct, p.Reaches i j ∧ p.BarAt j construct

/-- The bar is no more than so many instructions away. -/
inductive BarredIn (p : Program) : Nat → Nat → Prop where
  | here {n i : Nat} {construct : Construct} : p.BarAt i construct → BarredIn p n i
  | step {n i j : Nat} : p.Continues i j → BarredIn p n j → BarredIn p (n + 1) i

theorem Barred.of_reaches (h : p.Reaches i j) (hj : p.Barred j) : p.Barred i := by
  obtain ⟨k, construct, hk, hbar⟩ := hj
  exact ⟨k, construct, h.trans hk, hbar⟩

theorem BarredIn.barred (h : p.BarredIn n i) : p.Barred i := by
  induction h with
  | here hbar => exact ⟨_, _, .refl, hbar⟩
  | step hij _ ih => exact ih.of_reaches (.single hij)

theorem Barred.exists_barredIn (h : p.Barred i) : ∃ n, p.BarredIn n i := by
  obtain ⟨j, construct, hij, hbar⟩ := h
  induction hij using Relation.ReflTransGen.head_induction_on with
  | refl => exact ⟨0, .here hbar⟩
  | head hij _ ih =>
    obtain ⟨n, hn⟩ := ih
    exact ⟨n + 1, .step hij hn⟩

/-- An instruction that is no bar goes on. -/
theorem BarredIn.head (h : p.BarredIn n i) (hi : p.insts[i]? = some inst) (hbar : inst.bar? = none) :
    ∃ m j, n = m + 1 ∧ inst.Continues j ∧ p.BarredIn m j := by
  cases h with
  | here h =>
    obtain ⟨inst', hi', hbar'⟩ := h
    obtain rfl := Option.some.inj (hi.symm.trans hi')
    rw [hbar] at hbar'
    cases hbar'
  | step h hj =>
    obtain ⟨inst', hi', hcont⟩ := h
    obtain rfl := Option.some.inj (hi.symm.trans hi')
    exact ⟨_, _, rfl, hcont, hj⟩

/-- Nothing comes behind the end of a pattern. -/
theorem not_barred_accept {index : Int} (hi : p.insts[i]? = some (.accept index)) : ¬p.Barred i := by
  intro h
  obtain ⟨n, hn⟩ := h.exists_barredIn
  obtain ⟨m, j, -, hcont, -⟩ := hn.head hi rfl
  exact hcont

/-! ## Gates -/

/-- There is a bar between the two positions, or a way through; the rest of a run behind the second
one is no longer than the run, so that a loop comes to an end. -/
structure Gate (p : Program) (i x : Nat) (B P : Prop) : Prop where
  bars : B → p.Barred i
  leads : P → p.Reaches i x
  stops {n : Nat} : p.BarredIn n i → B ∨ P ∧ ∃ m ≤ n, p.BarredIn m x

namespace Gate

theorem congr (h : p.Gate i x B P) (hB : B ↔ B') (hP : P ↔ P') : p.Gate i x B' P' where
  bars hb := h.bars (hB.2 hb)
  leads hp := h.leads (hP.2 hp)
  stops hn := (h.stops hn).imp hB.1 (And.imp_left hP.1)

theorem barred_iff (h : p.Gate i x B P) : p.Barred i ↔ B ∨ P ∧ p.Barred x := by
  constructor
  · intro hi
    obtain ⟨n, hn⟩ := hi.exists_barredIn
    rcases h.stops hn with hb | ⟨hp, m, -, hm⟩
    · exact .inl hb
    · exact .inr ⟨hp, hm.barred⟩
  · rintro (hb | ⟨hp, hx⟩)
    · exact h.bars hb
    · exact hx.of_reaches (h.leads hp)

theorem refl (p : Program) (i : Nat) : p.Gate i i False True where
  bars := False.elim
  leads _ := .refl
  stops hn := .inr ⟨trivial, _, Nat.le_refl _, hn⟩

theorem seq (h : p.Gate i k B P) (h' : p.Gate k x B' P') : p.Gate i x (B ∨ P ∧ B') (P ∧ P') where
  bars hb := by
    rcases hb with hb | ⟨hp, hb⟩
    · exact h.bars hb
    · exact (h'.bars hb).of_reaches (h.leads hp)
  leads hp := (h.leads hp.1).trans (h'.leads hp.2)
  stops hn := by
    rcases h.stops hn with hb | ⟨hp, m, hm, hk⟩
    · exact .inl (.inl hb)
    · rcases h'.stops hk with hb | ⟨hp', m', hm', hx⟩
      · exact .inl (.inr ⟨hp, hb⟩)
      · exact .inr ⟨⟨hp, hp'⟩, m', Nat.le_trans hm' hm, hx⟩

end Gate

/-- One instruction that goes on at one place, if at all. -/
theorem gate_inst (hi : p.insts[i]? = some inst) (hbar : inst.bar? = none)
    (hx : ∀ j, inst.Continues j ↔ j = x ∧ P) : p.Gate i x False P where
  bars := False.elim
  leads hp := .single ⟨inst, hi, (hx x).2 ⟨rfl, hp⟩⟩
  stops hn := by
    obtain ⟨m, j, rfl, hcont, hj⟩ := hn.head hi hbar
    obtain ⟨rfl, hp⟩ := (hx j).1 hcont
    exact .inr ⟨hp, m, Nat.le_succ m, hj⟩

theorem gate_bar (h : p.BarAt i construct) (x : Nat) : p.Gate i x True False where
  bars _ := ⟨i, construct, .refl, h⟩
  leads := False.elim
  stops _ := .inl trivial

theorem Forks.continues {a b : Nat} (h : Forks p.insts i a b) :
    ∃ inst, p.insts[i]? = some inst ∧ inst.bar? = none ∧ ∀ j, inst.Continues j ↔ j = a ∨ j = b := by
  rcases h with h | h
  · exact ⟨_, h, rfl, fun j => by simp [Inst.Continues, eq_comm]⟩
  · exact ⟨_, h, rfl, fun j => by simp [Inst.Continues, eq_comm, or_comm]⟩

namespace Gate

theorem fork {a b : Nat} (hi : Forks p.insts i a b) (h : p.Gate a x B P) (h' : p.Gate b x B' P') :
    p.Gate i x (B ∨ B') (P ∨ P') := by
  obtain ⟨inst, hi, hbar, hcont⟩ := hi.continues
  have hreach {j : Nat} (hj : j = a ∨ j = b) : p.Reaches i j := .single ⟨inst, hi, (hcont j).2 hj⟩
  refine ⟨fun hb => ?_, fun hp => ?_, fun hn => ?_⟩
  · rcases hb with hb | hb
    · exact (h.bars hb).of_reaches (hreach (.inl rfl))
    · exact (h'.bars hb).of_reaches (hreach (.inr rfl))
  · rcases hp with hp | hp
    · exact (hreach (.inl rfl)).trans (h.leads hp)
    · exact (hreach (.inr rfl)).trans (h'.leads hp)
  · obtain ⟨n, j, rfl, hj, hn⟩ := hn.head hi hbar
    rcases (hcont j).1 hj with rfl | rfl
    · rcases h.stops hn with hb | ⟨hp, m, hm, hx⟩
      · exact .inl (.inl hb)
      · exact .inr ⟨.inl hp, m, Nat.le_succ_of_le hm, hx⟩
    · rcases h'.stops hn with hb | ⟨hp, m, hm, hx⟩
      · exact .inl (.inr hb)
      · exact .inr ⟨.inr hp, m, Nat.le_succ_of_le hm, hx⟩

/-- Once through the loop at `i`, or past it. -/
theorem star (hi : Forks p.insts i k x) (h : p.Gate k i B P) : p.Gate i x B True := by
  obtain ⟨inst, hi, hbar, hcont⟩ := hi.continues
  have hreach {j : Nat} (hj : j = k ∨ j = x) : p.Reaches i j := .single ⟨inst, hi, (hcont j).2 hj⟩
  refine ⟨fun hb => (h.bars hb).of_reaches (hreach (.inl rfl)), fun _ => hreach (.inr rfl), ?_⟩
  intro n hn
  -- on how far away the bar is, of which each time through the loop leaves less
  induction n using Nat.strongRecOn with
  | _ n ih =>
    obtain ⟨n, j, rfl, hj, hn⟩ := hn.head hi hbar
    rcases (hcont j).1 hj with rfl | rfl
    · rcases h.stops hn with hb | ⟨-, m, hm, hmi⟩
      · exact .inl hb
      · rcases ih m (by omega) hmi with hb | ⟨-, m', hm', hx⟩
        · exact .inl hb
        · exact .inr ⟨trivial, m', by omega, hx⟩
    · exact .inr ⟨trivial, n, Nat.le_succ n, hn⟩

/-- The loop behind its body. -/
theorem plus (h : p.Gate i k B P) (hk : Forks p.insts k i x) : p.Gate i x B P :=
  (h.seq (star hk h)).congr (or_iff_left_of_imp And.right) (and_iff_left trivial)

end Gate

/-- A split comes to a bar where one of its gotos does. -/
theorem barred_fork {a b : Nat} (hi : Forks p.insts i a b) :
    p.Barred i ↔ p.Barred a ∨ p.Barred b := by
  obtain ⟨inst, hi, hbar, hcont⟩ := hi.continues
  constructor
  · intro h
    obtain ⟨n, hn⟩ := h.exists_barredIn
    obtain ⟨m, j, -, hj, hm⟩ := hn.head hi hbar
    rcases (hcont j).1 hj with rfl | rfl
    · exact .inl hm.barred
    · exact .inr hm.barred
  · rintro (h | h)
    · exact h.of_reaches (.single ⟨inst, hi, (hcont a).2 (.inl rfl)⟩)
    · exact h.of_reaches (.single ⟨inst, hi, (hcont b).2 (.inr rfl)⟩)

end Program

end Munch
