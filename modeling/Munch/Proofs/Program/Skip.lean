/-
Passing over idle instructions. Whatever a run finishes from a position it finishes from where the
position is skipped to (`finishesFrom_skip`), and skipping never leaves the program, not even where
idle instructions run in a circle (`lt_of_skip`).
-/
import Mathlib.Data.Fintype.Pigeonhole
import Mathlib.Logic.Function.Iterate
import Munch.Proofs.Program.Passage

namespace Munch.Program

variable {p : Program} {i j m n z : Nat} {w : List UInt8} {next : Goto} {index : Int}

theorem target_eq_ok_iff : target next = .ok j ↔ next = j := by
  cases next with
  | ofNat g => simp [target, Int.ofNat_eq_natCast]
  | negSucc g => simp [target]

theorem get_eq_ok_iff {inst : Inst} : p.get i = .ok inst ↔ p.insts[i]? = some inst := by
  unfold get
  split
  · next inst' h => simp [h]
  · next h => simp [h]

/-- One idle instruction is passed, or the position is where the skip ends. -/
theorem skipUpTo_succ (h : p.skipUpTo (n + 1) i = .ok j) :
    (∃ k : Nat, p.insts[i]? = some (.nop k) ∧ p.skipUpTo n k = .ok j) ∨
      ∃ inst, p.insts[i]? = some inst ∧ (∀ g, inst ≠ .nop g) ∧ j = i := by
  rw [skipUpTo] at h
  cases hg : p.get i with
  | error e => rw [hg] at h; cases h
  | ok inst =>
    rw [hg] at h
    rw [get_eq_ok_iff] at hg
    cases inst with
    | nop next =>
      cases ht : target next with
      | error e => simp only [bind, Except.bind, ht] at h; cases h
      | ok k =>
        simp only [bind, Except.bind, ht] at h
        obtain rfl := target_eq_ok_iff.1 ht
        exact .inl ⟨k, hg, h⟩
    | accept | save | split | look | char | span | oneOf =>
      exact .inr ⟨_, hg, by simp, (Except.ok.inj h).symm⟩

/-- Nothing is skipped at an instruction that is not idle. -/
theorem skipUpTo_self {inst : Inst} (hi : p.insts[i]? = some inst) (hne : ∀ g, inst ≠ .nop g)
    (n : Nat) : p.skipUpTo n i = .ok i := by
  cases n with
  | zero => rfl
  | succ n =>
    rw [skipUpTo, get_eq_ok_iff.2 hi]
    cases inst with
    | nop next => exact absurd rfl (hne next)
    | accept | save | split | look | char | span | oneOf => rfl

theorem leads_of_skipUpTo (h : p.skipUpTo n i = .ok j) : Leads p i j := by
  induction n generalizing i with
  | zero =>
    obtain rfl := Except.ok.inj h
    exact .refl i
  | succ n ih =>
    rcases skipUpTo_succ h with ⟨k, hk, h⟩ | ⟨-, -, -, rfl⟩
    · exact .step (.nop hk) (ih h)
    · exact .refl j

/-! ## Staying inside of the program -/

/-- Where an idle instruction goes on; all others stay. -/
def onward (p : Program) (i : Nat) : Nat :=
  match p.insts[i]? with
  | some (.nop (.ofNat j)) => j
  | _ => i

theorem skipUpTo_onward (h : p.skipUpTo (n + 1) i = .ok j) :
    i < p.insts.size ∧ p.skipUpTo n (p.onward i) = .ok j := by
  rcases skipUpTo_succ h with ⟨k, hk, h⟩ | ⟨inst, hi, hne, rfl⟩
  · have hon : p.onward i = k := by simp [onward, hk]
    exact ⟨(Array.getElem?_eq_some_iff.1 hk).1, hon ▸ h⟩
  · have hon : p.onward j = j := by
      unfold onward
      split
      · next k hk => exact absurd (Option.some.inj (hi.symm.trans hk)) (hne _)
      · rfl
    exact ⟨(Array.getElem?_eq_some_iff.1 hi).1, hon.symm ▸ skipUpTo_self hi hne n⟩

theorem onward_iterate (h : p.skipUpTo n i = .ok j) :
    p.onward^[n] i = j ∧ ∀ m < n, p.onward^[m] i < p.insts.size := by
  induction n generalizing i with
  | zero => exact ⟨Except.ok.inj h, by simp⟩
  | succ n ih =>
    obtain ⟨hlt, h⟩ := skipUpTo_onward h
    obtain ⟨hj, hall⟩ := ih h
    refine ⟨hj, fun m hm => ?_⟩
    cases m with
    | zero => exact hlt
    | succ m => exact hall m (by omega)

/-- Of so many positions in a row two are the same, and from there on they repeat. -/
theorem lt_of_skip (h : p.skip i = .ok j) : j < p.insts.size := by
  obtain ⟨rfl, hall⟩ := onward_iterate h
  have hmaps : ∀ m ∈ Finset.range (p.insts.size + 1),
      p.onward^[m] i ∈ Finset.range p.insts.size := by
    intro m hm
    exact Finset.mem_range.2 (hall m (Finset.mem_range.1 hm))
  obtain ⟨a, ha, b, hb, hne, hab⟩ := Finset.exists_ne_map_eq_of_card_lt_of_maps_to (by simp) hmaps
  rw [Finset.mem_range] at ha hb
  wlog hlt : a < b generalizing a b
  · exact this b hb a ha hne.symm hab.symm (by omega)
  obtain ⟨d, hd⟩ : ∃ d, p.insts.size + 1 = d + b := ⟨p.insts.size + 1 - b, by omega⟩
  rw [hd, Function.iterate_add_apply, ← hab, ← Function.iterate_add_apply]
  exact hall _ (by omega)

/-! ## What is finished behind a skip -/

theorem takes_of_skipUpTo (h : p.skipUpTo m i = .ok j) (ht : Takes p n i w z)
    (hz : p.insts[z]? = some (.accept index)) : ∃ n' ≤ n, Takes p n' j w z := by
  induction m generalizing i n with
  | zero =>
    obtain rfl := Except.ok.inj h
    exact ⟨n, Nat.le_refl n, ht⟩
  | succ m ih =>
    rcases skipUpTo_succ h with ⟨k, hk, h⟩ | ⟨-, -, -, rfl⟩
    · obtain ⟨n, u, v, k', rfl, rfl, hm, ht⟩ := ht.head hz hk (by simp)
      obtain ⟨rfl, hkk⟩ := hm
      obtain rfl := Goto.natCast_inj.1 hkk
      obtain ⟨n', hn', ht⟩ := ih h ht
      exact ⟨n', by omega, ht⟩
    · exact ⟨n, Nat.le_refl n, ht⟩

theorem Leads.path (h : Leads p i j) : Path p i [] j := by
  induction h with
  | refl i => exact .refl i
  | step e _ ih => exact .edge e ih

theorem finishesFrom_skip (h : p.skip i = .ok j) :
    FinishesFrom p i w index ↔ FinishesFrom p j w index := by
  constructor
  · intro hi
    obtain ⟨z, hw, hz⟩ := hi
    obtain ⟨n, ht⟩ := hw.takes
    obtain ⟨n', -, ht⟩ := takes_of_skipUpTo h ht hz
    exact ⟨z, ht.path, hz⟩
  · intro hj
    obtain ⟨z, hw, hz⟩ := hj
    exact ⟨z, (leads_of_skipUpTo h).path.trans hw, hz⟩

end Munch.Program
