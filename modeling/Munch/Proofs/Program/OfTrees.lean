/-
Programs of whole sets. Each well-formed tree has its code behind one of the splits that chain the
set (`Chained`), so a run from the entry finishes a pattern exactly behind the strings that the tree
of the pattern denotes.
-/
import Munch.Proofs.Program.Compile

namespace Munch

variable {p : Program} {i index : Nat} {last : Int} {trees : List Tree} {w : List UInt8}

namespace Program

theorem finishesFrom_chained (hne : trees ≠ []) (hwf : ∀ t ∈ trees, t.WellFormed)
    (h : AssemblyM.Chained index trees p.insts i) :
    FinishesFrom p i w last ↔
      ∃ (n : Nat) (t : Tree), last = ↑(index + n) ∧ trees[n]? = some t ∧ t.Denotes w := by
  induction trees generalizing index i with
  | nil => exact absurd rfl hne
  | cons t ts ih =>
    have hpassage {i k : Nat} (hlayout : t.layout p.insts i k k) : p.Passage i k t.Denotes :=
      t.layout_means (hwf t (by simp)) p i k k hlayout
    cases ts with
    | nil =>
      obtain ⟨k, hlayout, hk⟩ := h
      rw [finishesFrom_accept (hpassage hlayout) hk]
      constructor
      · intro h
        exact ⟨0, t, h.1, rfl, h.2⟩
      · intro h
        obtain ⟨n, u, rfl, hu, hw⟩ := h
        obtain ⟨rfl, rfl⟩ : n = 0 ∧ t = u := by simpa [List.getElem?_cons] using hu
        exact ⟨rfl, hw⟩
    | cons t' ts =>
      obtain ⟨j, k, hi, hlayout, hk, hrest⟩ := h
      rw [finishesFrom_fork (.inl hi), finishesFrom_accept (hpassage hlayout) hk,
        ih (by simp) (fun u hu => hwf u (List.mem_cons_of_mem _ hu)) hrest]
      constructor
      · intro h
        rcases h with h | ⟨n, u, rfl, hu, hw⟩
        · exact ⟨0, t, h.1, rfl, h.2⟩
        · exact ⟨n + 1, u, by congr 1; omega, hu, hw⟩
      · intro h
        obtain ⟨n, u, rfl, hu, hw⟩ := h
        cases n with
        | zero =>
          obtain rfl := Option.some.inj hu
          exact .inl ⟨rfl, hw⟩
        | succ n => exact .inr ⟨n, u, by congr 1; omega, hu, hw⟩

/-- A set of well-formed trees has a program. -/
theorem exists_ofTrees (hwf : ∀ t ∈ trees, t.WellFormed) (patterns : List String) :
    ∃ p, ofTrees trees patterns = .ok p ∧ p.entry = 0 ∧ (trees = [] → p.insts = #[]) ∧
      AssemblyM.Chained 0 trees p.insts 0 := by
  have hchain := AssemblyM.chain_ensures 0 trees .empty
  obtain ⟨u, a, ha, -, hcode⟩ := (hchain.imp (fun _ _ h => h) fun _ _ h => h hwf).exists_ok
  have hrun : (AssemblyM.compile trees).run .empty = .ok u a := ha
  refine ⟨⟨a.insts, 0, patterns, a.origins.toList⟩, ?_, rfl, ?_, hcode _ (.refl _)⟩
  · rw [ofTrees, hrun]
  · intro hnil
    subst hnil
    cases ha
    rfl

/-- A run from the entry finishes a pattern behind the strings that its tree denotes. -/
theorem finishes_chained (hentry : p.entry = 0) (hempty : trees = [] → p.insts = #[])
    (hwf : ∀ t ∈ trees, t.WellFormed) (h : AssemblyM.Chained 0 trees p.insts 0) :
    p.Finishes w last ↔ ∃ (n : Nat) (t : Tree), last = n ∧ trees[n]? = some t ∧ t.Denotes w := by
  by_cases hne : trees = []
  · subst hne
    constructor
    · intro hw
      obtain ⟨z, -, hz⟩ := hw
      simp [hempty rfl] at hz
    · intro hw
      obtain ⟨n, t, -, ht, -⟩ := hw
      simp at ht
  · rw [Finishes, hentry]
    refine (finishesFrom_chained hne hwf h).trans ?_
    simp only [Nat.zero_add]

/-- The program of well-formed trees finishes each of them behind exactly the strings it denotes. -/
theorem ofTrees_finishes_iff_denotes (trees : List Tree) (patterns : List String)
    (hwf : ∀ t ∈ trees, t.WellFormed) :
    ∃ p, ofTrees trees patterns = .ok p ∧ ∀ (i : Nat) (w : List UInt8),
      p.Finishes w i ↔ ∃ t, trees[i]? = some t ∧ t.Denotes w := by
  obtain ⟨p, hp, hentry, hempty, hcode⟩ := exists_ofTrees hwf patterns
  refine ⟨p, hp, fun i w => (finishes_chained hentry hempty hwf hcode).trans ?_⟩
  constructor
  · intro h
    obtain ⟨n, t, hn, ht⟩ := h
    obtain rfl : i = n := by exact_mod_cast hn
    exact ⟨t, ht⟩
  · intro h
    obtain ⟨t, ht⟩ := h
    exact ⟨i, t, rfl, ht⟩

/-- A loop whose body may be empty, behind copies of the body. -/
theorem ofTrees_finishes_iff_denotes_nullable :
    (Tree.repeated (.alt [.symbol (.single 97), .epsilon]) 2 none true).WellFormed ∧
      ∃ p, ofTrees [.repeated (.alt [.symbol (.single 97), .epsilon]) 2 none true]
        ["(?:a|){2,}"] = .ok p ∧ p.Finishes [97] 0 ∧ ¬ p.Finishes [98] 0 := by
  have hwf : (Tree.repeated (.alt [.symbol (.single 97), .epsilon]) 2 none true).WellFormed := by
    refine .repeated (.alt (by simp) fun u hu => ?_) (by simp) (by simp)
    simp only [List.mem_cons, List.not_mem_nil, or_false] at hu
    rcases hu with rfl | rfl
    · exact .symbol (by simp [ByteSet.WellFormed, ByteSet.single, Interval.Within, Interval.single,
        Interval.minByte, Interval.maxByte])
    · exact .epsilon
  have hbody (w : List UInt8) :
      (Tree.alt [.symbol (.single 97), .epsilon]).Denotes w ↔ w = [97] ∨ w = [] := by
    have hbyte (b : UInt8) : (ByteSet.single 97).contains b.toNat = true ↔ b = 97 := by
      simp [ByteSet.contains, ByteSet.single, Interval.covers, Interval.contains, Interval.single,
        ← UInt8.toNat_inj]
      omega
    simp [Tree.Denotes, Tree.DenotesAny, hbyte]
  obtain ⟨p, hp, hiff⟩ := ofTrees_finishes_iff_denotes
    [.repeated (.alt [.symbol (.single 97), .epsilon]) 2 none true] ["(?:a|){2,}"]
    (List.forall_mem_singleton.2 hwf)
  refine ⟨hwf, p, hp, (hiff 0 _).2 ⟨_, rfl, ?_⟩, fun h => ?_⟩
  · exact ⟨2, by simp, by simp, [97], [], rfl, (hbody _).2 (.inl rfl), [], [], rfl,
      (hbody _).2 (.inr rfl), rfl⟩
  · obtain ⟨t, ht, hw⟩ := (hiff 0 _).1 h
    obtain rfl := Option.some.inj ht
    obtain ⟨n, -, -, hn⟩ := hw
    have hall : ∀ n w, Language.power (Tree.alt [.symbol (.single 97), .epsilon]).Denotes n w →
        ∀ b ∈ w, b = 97 := by
      intro n
      induction n with
      | zero => intro w hw; simp [show w = [] from hw]
      | succ n ih =>
        intro w hw
        obtain ⟨u, v, rfl, hu, hv⟩ := hw
        rcases (hbody u).1 hu with rfl | rfl <;> simpa using ih v hv
    exact absurd (hall n _ hn 98 (by simp)) (by decide)

end Program

end Munch
