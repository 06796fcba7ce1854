/-
What a program reads between two positions. `Passage p i j L` says that the strings of `L` are
exactly what is read from `i` up to `j`: each of them leads there, and no run from `i` finishes a
pattern without passing through `j` behind one of them. There is one lemma for each way in which
instructions are put together, and `finishesFrom_accept` reads off what is finished behind a passage.
-/
import Munch.Program.Path
import Munch.Tree.Language

namespace Munch

@[simp] theorem Goto.natCast_inj {i j : Nat} : (i : Goto) = (j : Goto) ↔ i = j := Int.ofNat_inj

/-- From an instruction to the position, with the bytes that are read there. -/
def Inst.Moves : Inst → List UInt8 → Nat → Prop
  | .accept _, _, _ | .look _ _, _, _ => False
  | .nop next, u, j | .save _ next, u, j => u = [] ∧ next = j
  | .split first second, u, j => u = [] ∧ (first = j ∨ second = j)
  | .char byte next, u, j => next = j ∧ ∃ b, u = [b] ∧ Interval.covers [.single byte] b.toNat = true
  | .span range next, u, j => next = j ∧ ∃ b, u = [b] ∧ Interval.covers [range] b.toNat = true
  | .oneOf ranges next, u, j => next = j ∧ ∃ b, u = [b] ∧ Interval.covers ranges b.toNat = true

namespace Program

variable {p : Program} {i j k m n z : Nat} {u v w : List UInt8} {index : Int} {L M : Language}

/-! ## Runs -/

theorem Path.trans (h : Path p i u j) (h' : Path p j v k) : Path p i (u ++ v) k := by
  induction h with
  | refl => exact h'
  | edge e _ ih => exact .edge e (ih h')
  | save e _ ih => exact .save e (ih h')
  | read e _ ih => exact .read e (ih h')

theorem Path.of_moves {inst : Inst} (hi : p.insts[i]? = some inst) (h : inst.Moves u j)
    (h' : Path p j v k) : Path p i (u ++ v) k := by
  cases inst with
  | accept | look => exact h.elim
  | nop next => obtain ⟨rfl, rfl⟩ := h; exact .edge (.nop hi) h'
  | save slot next => obtain ⟨rfl, rfl⟩ := h; exact .save hi h'
  | split first second =>
    obtain ⟨rfl, rfl | rfl⟩ := h
    · exact .edge (.first hi) h'
    · exact .edge (.second hi) h'
  | char byte next =>
    obtain ⟨rfl, b, rfl, hb⟩ := h
    exact .read ⟨_, _, hi, rfl, hb⟩ h'
  | span range next =>
    obtain ⟨rfl, b, rfl, hb⟩ := h
    exact .read ⟨_, _, hi, rfl, hb⟩ h'
  | oneOf ranges next =>
    obtain ⟨rfl, b, rfl, hb⟩ := h
    exact .read ⟨_, _, hi, rfl, hb⟩ h'

/-- A run of so many instructions. -/
inductive Takes (p : Program) : Nat → Nat → List UInt8 → Nat → Prop where
  | refl (i : Nat) : Takes p 0 i [] i
  | move {inst : Inst} {n i j k : Nat} {u v : List UInt8} : p.insts[i]? = some inst →
    inst.Moves u j → Takes p n j v k → Takes p (n + 1) i (u ++ v) k

theorem Takes.path (h : Takes p n i w j) : Path p i w j := by
  induction h with
  | refl i => exact .refl i
  | move hi hm _ ih => exact .of_moves hi hm ih

theorem Edge.moves (h : Edge p i j) : ∃ inst, p.insts[i]? = some inst ∧ inst.Moves [] j := by
  cases h with
  | nop h => exact ⟨_, h, rfl, rfl⟩
  | first h => exact ⟨_, h, rfl, .inl rfl⟩
  | second h => exact ⟨_, h, rfl, .inr rfl⟩

theorem Reads.moves {b : UInt8} (h : Reads p i b j) :
    ∃ inst, p.insts[i]? = some inst ∧ inst.Moves [b] j := by
  obtain ⟨inst, ranges, hi, hr, hb⟩ := h
  refine ⟨inst, hi, ?_⟩
  cases inst with
  | char | span | oneOf =>
    simp only [Inst.reads?, Option.some.injEq, Prod.mk.injEq] at hr
    obtain ⟨rfl, rfl⟩ := hr
    exact ⟨rfl, b, rfl, hb⟩
  | accept | save | split | look | nop => simp [Inst.reads?] at hr

theorem Path.takes (h : Path p i w j) : ∃ n, Takes p n i w j := by
  induction h with
  | refl i => exact ⟨0, .refl i⟩
  | edge e _ ih =>
    obtain ⟨inst, hi, hm⟩ := e.moves
    obtain ⟨n, hn⟩ := ih
    exact ⟨n + 1, .move hi hm hn⟩
  | save e _ ih =>
    obtain ⟨n, hn⟩ := ih
    exact ⟨n + 1, .move (u := []) e ⟨rfl, rfl⟩ hn⟩
  | read e _ ih =>
    obtain ⟨inst, hi, hm⟩ := e.moves
    obtain ⟨n, hn⟩ := ih
    exact ⟨n + 1, .move hi hm hn⟩

/-- A run that ends with the end of a pattern goes on from any other instruction. -/
theorem Takes.head {inst : Inst} (h : Takes p n i w z) (hz : p.insts[z]? = some (.accept index))
    (hi : p.insts[i]? = some inst) (hne : inst ≠ .accept index) :
    ∃ m u v j, n = m + 1 ∧ w = u ++ v ∧ inst.Moves u j ∧ Takes p m j v z := by
  cases h with
  | refl => exact absurd (Option.some.inj (hi.symm.trans hz)) hne
  | move hi' hm h =>
    obtain rfl := Option.some.inj (hi.symm.trans hi')
    exact ⟨_, _, _, _, rfl, rfl, hm, h⟩

/-- A run from the position reads the bytes and finishes the pattern. -/
def FinishesFrom (p : Program) (i : Nat) (w : List UInt8) (index : Int) : Prop :=
  ∃ z, Path p i w z ∧ p.insts[z]? = some (.accept index)

/-! ## Passages -/

/-- Between the two positions the program reads exactly the strings of the language. The rest of a
run is no longer than the run, so that a loop comes to an end. -/
structure Passage (p : Program) (i j : Nat) (L : Language) : Prop where
  leads {w : List UInt8} : L w → Path p i w j
  passes {n z : Nat} {w : List UInt8} {index : Int} : Takes p n i w z →
    p.insts[z]? = some (.accept index) → ∃ m u v, m ≤ n ∧ w = u ++ v ∧ L u ∧ Takes p m j v z

theorem Passage.congr (h : Passage p i j L) (hLM : ∀ w, L w ↔ M w) : Passage p i j M where
  leads hw := h.leads ((hLM _).2 hw)
  passes ht hz := by
    obtain ⟨m, u, v, hm, rfl, hu, hv⟩ := h.passes ht hz
    exact ⟨m, u, v, hm, rfl, (hLM u).1 hu, hv⟩

theorem Passage.refl (p : Program) (i : Nat) : Passage p i i (fun w => w = []) where
  leads hw := hw ▸ .refl i
  passes ht _ := ⟨_, [], _, Nat.le_refl _, rfl, rfl, ht⟩

theorem Passage.seq (h : Passage p i k L) (h' : Passage p k j M) :
    Passage p i j (Language.seq L M) where
  leads hw := by
    obtain ⟨u, v, rfl, hu, hv⟩ := hw
    exact (h.leads hu).trans (h'.leads hv)
  passes ht hz := by
    obtain ⟨m, u, v, hm, rfl, hu, hv⟩ := h.passes ht hz
    obtain ⟨m', u', v', hm', rfl, hu', hv'⟩ := h'.passes hv hz
    exact ⟨m', u ++ u', v', by omega, by simp, ⟨u, u', rfl, hu, hu'⟩, hv'⟩

/-- One instruction that goes on at one place. -/
theorem passage_inst {inst : Inst} (hi : p.insts[i]? = some inst)
    (hL : ∀ u k, inst.Moves u k ↔ k = j ∧ L u) (hne : ∀ index, inst ≠ .accept index) :
    Passage p i j L where
  leads {w} hw := by simpa using Path.of_moves hi ((hL w j).2 ⟨rfl, hw⟩) (.refl j)
  passes ht hz := by
    obtain ⟨m, u, v, k, rfl, rfl, hm, ht⟩ := ht.head hz hi (hne _)
    obtain ⟨rfl, hu⟩ := (hL u k).1 hm
    exact ⟨m, u, v, by omega, rfl, hu, ht⟩

/-- The split leads to both positions, whichever it prefers. -/
def Forks (insts : Array Inst) (i : Nat) (a b : Goto) : Prop :=
  insts[i]? = some (.split a b) ∨ insts[i]? = some (.split b a)

theorem Forks.moves {a b : Nat} (h : Forks p.insts i a b) :
    ∃ inst, p.insts[i]? = some inst ∧ (∀ index, inst ≠ .accept index) ∧
      ∀ u k, inst.Moves u k ↔ u = [] ∧ (k = a ∨ k = b) := by
  rcases h with h | h
  · exact ⟨_, h, by simp, fun u k => by simp [Inst.Moves, eq_comm]⟩
  · exact ⟨_, h, by simp, fun u k => by simp [Inst.Moves, eq_comm, or_comm]⟩

theorem Forks.leads {a b : Nat} (h : Forks p.insts i a b) (hw : Path p a w j ∨ Path p b w j) :
    Path p i w j := by
  obtain ⟨inst, hi, -, hm⟩ := h.moves
  rcases hw with hw | hw
  · exact .of_moves (u := []) hi ((hm _ a).2 ⟨rfl, .inl rfl⟩) hw
  · exact .of_moves (u := []) hi ((hm _ b).2 ⟨rfl, .inr rfl⟩) hw

theorem Forks.head {a b : Nat} (h : Forks p.insts i a b) (ht : Takes p n i w z)
    (hz : p.insts[z]? = some (.accept index)) :
    ∃ m, n = m + 1 ∧ (Takes p m a w z ∨ Takes p m b w z) := by
  obtain ⟨inst, hi, hne, hm⟩ := h.moves
  obtain ⟨m, u, v, k, rfl, rfl, hk, ht'⟩ := ht.head hz hi (hne _)
  obtain ⟨rfl, rfl | rfl⟩ := (hm u k).1 hk
  · exact ⟨m, rfl, .inl ht'⟩
  · exact ⟨m, rfl, .inr ht'⟩

theorem Passage.fork {a b : Nat} (hi : Forks p.insts i a b) (h : Passage p a j L)
    (h' : Passage p b j M) : Passage p i j (fun w => L w ∨ M w) where
  leads hw := hi.leads (hw.imp h.leads h'.leads)
  passes ht hz := by
    obtain ⟨n, rfl, ht | ht⟩ := hi.head ht hz
    · obtain ⟨m, u, v, hm, hw, hu, hv⟩ := h.passes ht hz
      exact ⟨m, u, v, by omega, hw, .inl hu, hv⟩
    · obtain ⟨m, u, v, hm, hw, hu, hv⟩ := h'.passes ht hz
      exact ⟨m, u, v, by omega, hw, .inr hu, hv⟩

/-! ## Loops -/

/-- Once through the loop at `i`, or past it. -/
theorem Passage.star (hi : Forks p.insts i k j) (h : Passage p k i L) :
    Passage p i j (fun w => ∃ n, Language.power L n w) where
  leads {w} hw := by
    obtain ⟨n, hw⟩ := hw
    induction n generalizing w with
    | zero => exact hi.leads (.inr (hw ▸ .refl j))
    | succ n ih =>
      obtain ⟨u, v, rfl, hu, hv⟩ := hw
      exact hi.leads (.inl ((h.leads hu).trans (ih hv)))
  passes {n z w index} ht hz := by
    -- on the length of the run, which each time through the loop makes shorter
    induction n using Nat.strongRecOn generalizing w with
    | _ n ih =>
      obtain ⟨n, rfl, ht | ht⟩ := hi.head ht hz
      · obtain ⟨m, u, v, hm, rfl, hu, hv⟩ := h.passes ht hz
        obtain ⟨m', u', v', hm', rfl, ⟨c, hu'⟩, hv'⟩ := ih m (by omega) hv
        exact ⟨m', u ++ u', v', by omega, by simp, ⟨c + 1, u, u', rfl, hu, hu'⟩, hv'⟩
      · exact ⟨n, [], w, by omega, rfl, ⟨0, rfl⟩, ht⟩

/-- The loop behind its body: at least once through the body. -/
theorem Passage.plus (h : Passage p i k L) (hk : Forks p.insts k i j) :
    Passage p i j (fun w => ∃ n, Language.power L (n + 1) w) :=
  (h.seq (Passage.star hk h)).congr fun w => by
    constructor
    · rintro ⟨u, v, rfl, hu, n, hv⟩
      exact ⟨n, u, v, rfl, hu, hv⟩
    · rintro ⟨n, u, v, rfl, hu, hv⟩
      exact ⟨u, v, rfl, hu, n, hv⟩

/-! ## Ends of patterns -/

/-- Nothing is read behind the end of a pattern. -/
theorem Takes.of_accept {index' : Int} (h : Takes p n i w z)
    (hi : p.insts[i]? = some (.accept index')) : w = [] ∧ z = i := by
  cases h with
  | refl => exact ⟨rfl, rfl⟩
  | move hi' hm =>
    obtain rfl := Option.some.inj (hi.symm.trans hi')
    exact hm.elim

theorem finishesFrom_accept {last : Int} (h : Passage p i j L)
    (hj : p.insts[j]? = some (.accept last)) :
    FinishesFrom p i w index ↔ index = last ∧ L w := by
  constructor
  · rintro ⟨z, hw, hz⟩
    obtain ⟨n, ht⟩ := hw.takes
    obtain ⟨m, u, v, -, rfl, hu, hv⟩ := h.passes ht hz
    obtain ⟨rfl, rfl⟩ := hv.of_accept hj
    exact ⟨by simpa using hz.symm.trans hj, by simpa using hu⟩
  · rintro ⟨rfl, hw⟩
    exact ⟨j, h.leads hw, hj⟩

theorem finishesFrom_fork {a b : Nat} (hi : Forks p.insts i a b) :
    FinishesFrom p i w index ↔ FinishesFrom p a w index ∨ FinishesFrom p b w index := by
  constructor
  · rintro ⟨z, hw, hz⟩
    obtain ⟨n, ht⟩ := hw.takes
    obtain ⟨m, -, ht | ht⟩ := hi.head ht hz
    · exact .inl ⟨z, ht.path, hz⟩
    · exact .inr ⟨z, ht.path, hz⟩
  · rintro (⟨z, hw, hz⟩ | ⟨z, hw, hz⟩)
    · exact ⟨z, hi.leads (.inl hw), hz⟩
    · exact ⟨z, hi.leads (.inr hw), hz⟩

end Program

end Munch
