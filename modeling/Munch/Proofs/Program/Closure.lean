/-
What a position leads to without reading. `Within p i j` says that `j` is reached from `i` through
splits, with idle instructions passed over. If a table can express all that is reached so
(`Settled`), a run that finishes a pattern either ends there or goes on with a byte instruction that
lies there.
-/
import Mathlib.Logic.Relation
import Munch.Proofs.Program.Skip

namespace Munch.Program

variable {p : Program} {i j k m n z : Nat} {b : UInt8} {w v : List UInt8} {index : Int}

/-- From a split to where one of its gotos is followed to. -/
def Branches (p : Program) (i j : Nat) : Prop :=
  ∃ first second, p.insts[i]? = some (.split first second) ∧
    (p.follow first = .ok j ∨ p.follow second = .ok j)

/-- Through any number of splits. -/
def Within (p : Program) : Nat → Nat → Prop := Relation.ReflTransGen p.Branches

/-- The instruction is one that a table can express; a split can be followed both ways. -/
def Tabular (p : Program) (i : Nat) : Prop :=
  ∃ inst, p.insts[i]? = some inst ∧
    match inst with
    | .accept _ | .char _ _ | .span _ _ | .oneOf _ _ => True
    | .split first second => (∃ j, p.follow first = .ok j) ∧ ∃ j, p.follow second = .ok j
    | .save _ _ | .look _ _ | .nop _ => False

/-- All that is reached without reading can be expressed. -/
def Settled (p : Program) (i : Nat) : Prop := ∀ j, p.Within i j → p.Tabular j

theorem follow_eq_ok_iff {next : Goto} :
    p.follow next = .ok j ↔ ∃ k : Nat, next = k ∧ p.skip k = .ok j := by
  cases h : target next with
  | error e =>
    have hne (k : Nat) : next ≠ k := fun hk => by
      rw [target_eq_ok_iff.2 hk] at h
      cases h
    simp [follow, h, hne, bind, Except.bind]
  | ok k =>
    obtain rfl := target_eq_ok_iff.1 h
    simp [follow, h, bind, Except.bind]

theorem Branches.edge (h : p.Branches i j) : ∃ k, p.Edge i k ∧ p.skip k = .ok j := by
  obtain ⟨first, second, hi, h | h⟩ := h
  · obtain ⟨k, rfl, hk⟩ := follow_eq_ok_iff.1 h
    exact ⟨k, .first hi, hk⟩
  · obtain ⟨k, rfl, hk⟩ := follow_eq_ok_iff.1 h
    exact ⟨k, .second hi, hk⟩

theorem Leads.trans (h : p.Leads i j) (h' : p.Leads j k) : p.Leads i k := by
  induction h with
  | refl => exact h'
  | step e _ ih => exact .step e (ih h')

theorem Within.leads (h : p.Within i j) : p.Leads i j := by
  induction h using Relation.ReflTransGen.head_induction_on with
  | refl => exact .refl j
  | head hb _ ih =>
    obtain ⟨k, hk, hskip⟩ := hb.edge
    exact .step hk ((leads_of_skipUpTo hskip).trans ih)

theorem Settled.within (h : p.Settled i) (hj : p.Within i j) : p.Settled j :=
  fun k hk => h k (hj.trans hk)

theorem reads_of_moves {inst : Inst} {u : List UInt8} (hi : p.insts[i]? = some inst)
    (hm : inst.Moves u j) (hr : inst.reads? ≠ none) : ∃ b, u = [b] ∧ p.Reads i b j := by
  cases inst with
  | char byte next =>
    obtain ⟨rfl, b, rfl, hb⟩ := hm
    exact ⟨b, rfl, _, _, hi, rfl, hb⟩
  | span range next =>
    obtain ⟨rfl, b, rfl, hb⟩ := hm
    exact ⟨b, rfl, _, _, hi, rfl, hb⟩
  | oneOf ranges next =>
    obtain ⟨rfl, b, rfl, hb⟩ := hm
    exact ⟨b, rfl, _, _, hi, rfl, hb⟩
  | accept | save | split | look | nop => exact absurd rfl hr

/-- A run that finishes a pattern ends without reading, or reads its first byte after splits. -/
theorem Settled.head (hs : p.Settled i) (ht : Takes p n i w z)
    (hz : p.insts[z]? = some (.accept index)) :
    ∃ j, p.Within i j ∧ (w = [] ∧ p.insts[j]? = some (.accept index) ∨
      ∃ b v k, w = b :: v ∧ p.Reads j b k ∧ FinishesFrom p k v index) := by
  -- on the length of the run, of which a skip may leave less
  induction n using Nat.strongRecOn generalizing i with
  | _ n ih =>
    obtain ⟨inst, hi, htab⟩ := hs i .refl
    have hread (hr : inst.reads? ≠ none) (hne : inst ≠ .accept index) :
        ∃ b v k, w = b :: v ∧ p.Reads i b k ∧ FinishesFrom p k v index := by
      obtain ⟨m, u, v, k, -, rfl, hm, hmore⟩ := ht.head hz hi hne
      obtain ⟨b, rfl, hb⟩ := reads_of_moves hi hm hr
      exact ⟨b, v, k, rfl, hb, z, hmore.path, hz⟩
    cases inst with
    | accept last =>
      obtain ⟨rfl, rfl⟩ := ht.of_accept hi
      exact ⟨z, .refl, .inl ⟨rfl, hz⟩⟩
    | char | span | oneOf => exact ⟨i, .refl, .inr (hread (by simp [Inst.reads?]) (by simp))⟩
    | save | look | nop => exact htab.elim
    | split first second =>
      obtain ⟨⟨j₁, hj₁⟩, j₂, hj₂⟩ := htab
      obtain ⟨m, u, v, k, rfl, rfl, hm, hmore⟩ := ht.head hz hi (by simp)
      have hbranch : ∃ j, p.Branches i j ∧ p.skip k = .ok j := by
        obtain ⟨rfl, rfl | rfl⟩ := hm
        · obtain ⟨k', hk', hskip⟩ := follow_eq_ok_iff.1 hj₁
          obtain rfl := Goto.natCast_inj.1 hk'
          exact ⟨j₁, ⟨_, _, hi, .inl hj₁⟩, hskip⟩
        · obtain ⟨k', hk', hskip⟩ := follow_eq_ok_iff.1 hj₂
          obtain rfl := Goto.natCast_inj.1 hk'
          exact ⟨j₂, ⟨_, _, hi, .inr hj₂⟩, hskip⟩
      obtain ⟨rfl, -⟩ := hm
      obtain ⟨j, hb, hskip⟩ := hbranch
      obtain ⟨n', hn', hlast⟩ := takes_of_skipUpTo hskip hmore hz
      obtain ⟨z', hz', hres⟩ := ih n' (by omega) (hs.within (.single hb)) hlast
      exact ⟨z', hz'.head hb, hres⟩

theorem FinishesFrom.of_within (h : p.Within i j) (hj : FinishesFrom p j w index) :
    FinishesFrom p i w index := by
  obtain ⟨z, hw, hz⟩ := hj
  exact ⟨z, h.leads.path.trans hw, hz⟩

theorem Settled.finishesFrom_nil (hs : p.Settled i) :
    FinishesFrom p i [] index ↔ ∃ j, p.Within i j ∧ p.insts[j]? = some (.accept index) := by
  constructor
  · intro h
    obtain ⟨z, hw, hz⟩ := h
    obtain ⟨n, ht⟩ := hw.takes
    obtain ⟨j, hj, ⟨-, hacc⟩ | ⟨b, v, k, hbv, -⟩⟩ := hs.head ht hz
    · exact ⟨j, hj, hacc⟩
    · simp at hbv
  · intro h
    obtain ⟨j, hj, hacc⟩ := h
    exact .of_within hj ⟨j, .refl j, hacc⟩

theorem Settled.finishesFrom_cons (hs : p.Settled i) :
    FinishesFrom p i (b :: v) index ↔
      ∃ j k, p.Within i j ∧ p.Reads j b k ∧ FinishesFrom p k v index := by
  constructor
  · intro h
    obtain ⟨z, hw, hz⟩ := h
    obtain ⟨n, ht⟩ := hw.takes
    obtain ⟨j, hj, ⟨hnil, -⟩ | ⟨b', v', k, hbv, hread, hk⟩⟩ := hs.head ht hz
    · simp at hnil
    · obtain ⟨rfl, rfl⟩ := List.cons.inj hbv
      exact ⟨j, k, hj, hread, hk⟩
  · intro h
    obtain ⟨j, k, hj, hread, z, hw, hz⟩ := h
    exact .of_within hj ⟨z, .read hread hw, hz⟩

/-- The patterns that are finished without reading. -/
theorem Settled.leads_accept_iff (hs : p.Settled i) :
    (∃ j, p.Leads i j ∧ p.insts[j]? = some (.accept index)) ↔
      ∃ j, p.Within i j ∧ p.insts[j]? = some (.accept index) := by
  constructor
  · intro h
    obtain ⟨j, hj, hacc⟩ := h
    exact hs.finishesFrom_nil.1 ⟨j, hj.path, hacc⟩
  · intro h
    obtain ⟨j, hj, hacc⟩ := h
    exact ⟨j, hj.leads, hacc⟩

end Munch.Program
