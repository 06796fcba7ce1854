/-
The patterns of a set take turns. In the turn of a pattern its split is added, unless it is the last
one, then its code and its end; `chain_cons` says that a set is compiled turn by turn. An instruction
comes from the pattern in whose turn it was added (`Program.origins_iff`).
-/
import Munch.Proofs.Program.Relates

namespace Munch

namespace AssemblyM

/-- The turn of one pattern. -/
def turn (index : Nat) (t : Tree) (isLast : Bool) : AssemblyM Unit := do
  modify ({ · with pattern := some index })
  if isLast then finish index t
  else
    let split ← push (.split .hole .hole)
    linkHere [⟨split, .first⟩]
    finish index t
    linkHere [⟨split, .second⟩]

theorem chain_cons (index : Nat) (t : Tree) (ts : List Tree) :
    chain index (t :: ts) = turn index t ts.isEmpty >>= fun _ => chain (index + 1) ts := by
  cases ts with
  | nil => simp [chain, turn]
  | cons u ts => simp [chain, turn]

variable {R : Assembly → Assembly → Prop} {A : Inst → Prop} {t : Tree} {isLast : Bool}
  {a b : Assembly}

namespace Steps

theorem finish_relates (h : Steps R A)
    (hsets : ∀ s ∈ t.sets, ∀ inst next, inst.reads? = some (s.accepting.ranges, next) → A inst)
    {index : Nat} (hend : A (.accept index)) : Relates R (finish index t) := by
  refine h.bind (ofTree_relates h t hsets) fun f => h.bind (h.linkHere_relates f.holes) fun _ => ?_
  exact h.map (h.push_relates hend)

theorem turn_relates (h : Steps R A)
    (hsets : ∀ s ∈ t.sets, ∀ inst next, inst.reads? = some (s.accepting.ranges, next) → A inst)
    {index : Nat} (hend : A (.accept index)) (a : Assembly) :
    Ensures (turn index t isLast) a (fun _ b => R { a with pattern := some index } b)
      fun _ _ => True := by
  refine ensures_modify_bind ?_
  have hfinish := h.finish_relates hsets hend
  cases isLast with
  | true => exact hfinish _
  | false =>
    exact h.bind h.split_relates (fun split => h.bind (h.linkHere_relates _) fun _ =>
      h.bind hfinish fun _ => h.linkHere_relates _) _

end Steps

/-! ## Whose instructions they are -/

/-- All that was added was added for the pattern at hand. -/
def Tagged (a b : Assembly) : Prop :=
  b.pattern = a.pattern ∧ ∃ n, b.insts.size = a.insts.size + n ∧
    b.origins = a.origins ++ Array.replicate n a.pattern

theorem tagged_steps : Steps Tagged fun _ => True where
  refl _ := ⟨rfl, 0, rfl, by simp⟩
  trans a b c hab hbc := by
    obtain ⟨hpattern, n, hsize, horigins⟩ := hab
    obtain ⟨hpattern', m, hsize', horigins'⟩ := hbc
    refine ⟨hpattern'.trans hpattern, n + m, by omega, ?_⟩
    rw [horigins', horigins, hpattern, Array.append_assoc, Array.replicate_append_replicate]
  silent _ _ _ := trivial
  push a inst _ := ⟨rfl, 1, by simp, by simp⟩
  fill a hole inst inst' _ _ _ := ⟨rfl, 0, by simp, by simp⟩
  take _ _ := ⟨rfl, 0, rfl, by simp⟩

/-- Compiling the patterns from the index on, the turn of the pattern `k` leads from the one assembly
to the other. -/
inductive TakesTurn : Nat → List Tree → Assembly → Nat → Assembly → Assembly → Prop where
  | now {index : Nat} {t : Tree} {ts : List Tree} {a b : Assembly} :
    turn index t ts.isEmpty a = .ok () b → TakesTurn index (t :: ts) a index a b
  | later {index k : Nat} {t : Tree} {ts : List Tree} {a b c d : Assembly} :
    turn index t ts.isEmpty a = .ok () b → TakesTurn (index + 1) ts b k c d →
    TakesTurn index (t :: ts) a k c d

theorem turn_tagged {index : Nat} (h : turn index t isLast a = .ok () b) :
    ∃ n, b.insts.size = a.insts.size + n ∧
      b.origins = a.origins ++ Array.replicate n (some index) := by
  obtain ⟨-, n, hsize, horigins⟩ :=
    (tagged_steps.turn_relates (fun _ _ _ _ _ => trivial) trivial a).of_ok h
  exact ⟨n, hsize, horigins⟩

theorem chain_cons_eq_ok {index : Nat} {ts : List Tree} :
    chain index (t :: ts) a = .ok () b ↔
      ∃ c, turn index t ts.isEmpty a = .ok () c ∧ chain (index + 1) ts c = .ok () b := by
  rw [chain_cons, bind_run_eq_ok]
  exact ⟨fun h => h.choose_spec.imp fun _ hc => hc, fun h => ⟨(), h⟩⟩

/-- Compiling patterns goes on behind what was there, with an origin for each instruction. -/
theorem chain_tags {index : Nat} {ts : List Tree} (h : chain index ts a = .ok () b) :
    ∃ tags : Array (Option Nat), b.insts.size = a.insts.size + tags.size ∧
      b.origins = a.origins ++ tags ∧ ∀ tag ∈ tags, ∃ k, tag = some k := by
  induction ts generalizing index a with
  | nil =>
    cases h
    exact ⟨#[], rfl, by simp, by simp⟩
  | cons t ts ih =>
    obtain ⟨c, hturn, hrest⟩ := chain_cons_eq_ok.1 h
    obtain ⟨n, hsize, horigins⟩ := turn_tagged hturn
    obtain ⟨tags, hsize', horigins', hall⟩ := ih hrest
    refine ⟨Array.replicate n (some index) ++ tags, ?_, ?_, fun tag htag => ?_⟩
    · rw [hsize', hsize, Array.size_append, Array.size_replicate, Nat.add_assoc]
    · rw [horigins', horigins, Array.append_assoc]
    · rcases Array.mem_append.1 htag with htag | htag
      · exact ⟨index, (Array.mem_replicate.1 htag).2⟩
      · exact hall tag htag

theorem TakesTurn.size_le {index k : Nat} {ts : List Tree} {c d : Assembly}
    (h : TakesTurn index ts a k c d) : a.insts.size ≤ c.insts.size := by
  induction h with
  | now => exact Nat.le_refl _
  | later hturn _ ih =>
    obtain ⟨n, hsize, -⟩ := turn_tagged hturn
    omega

theorem TakesTurn.lt {index k : Nat} {ts : List Tree} {c d : Assembly}
    (h : TakesTurn index ts a k c d) : k < index + ts.length := by
  induction h with
  | now => simp
  | later _ _ ih =>
    rw [List.length_cons]
    omega

/-- The turn of the first pattern, or one of the turns behind it. -/
theorem takesTurn_cons {index k : Nat} {ts : List Tree} {c d m : Assembly}
    (hturn : turn index t ts.isEmpty a = .ok () m) :
    TakesTurn index (t :: ts) a k c d ↔
      k = index ∧ c = a ∧ d = m ∨ TakesTurn (index + 1) ts m k c d := by
  constructor
  · intro h
    cases h with
    | now hturn' =>
      cases hturn.symm.trans hturn'
      exact .inl ⟨rfl, rfl, rfl⟩
    | later hturn' hlater =>
      cases hturn.symm.trans hturn'
      exact .inr hlater
  · intro h
    rcases h with ⟨rfl, rfl, rfl⟩ | h
    · exact .now hturn
    · exact .later hturn h

/-- Among patterns from the index on, the instruction is added in the turn of the pattern `k`. -/
def AddedIn (index : Nat) (ts : List Tree) (a : Assembly) (i k : Nat) : Prop :=
  ∃ c d, TakesTurn index ts a k c d ∧ c.insts.size ≤ i ∧ i < d.insts.size

theorem not_addedIn_nil {index i k : Nat} : ¬AddedIn index [] a i k := by
  intro h
  obtain ⟨c, d, hturn, -⟩ := h
  cases hturn

theorem addedIn_cons {index i k : Nat} {ts : List Tree} {m : Assembly}
    (hturn : turn index t ts.isEmpty a = .ok () m) (hi : a.insts.size ≤ i) :
    AddedIn index (t :: ts) a i k ↔
      k = index ∧ i < m.insts.size ∨ AddedIn (index + 1) ts m i k := by
  constructor
  · intro h
    obtain ⟨c, d, hk, hc, hd⟩ := h
    rcases (takesTurn_cons hturn).1 hk with ⟨rfl, rfl, rfl⟩ | hk
    · exact .inl ⟨rfl, hd⟩
    · exact .inr ⟨c, d, hk, hc, hd⟩
  · intro h
    rcases h with ⟨rfl, hd⟩ | ⟨c, d, hk, hc, hd⟩
    · exact ⟨a, m, .now hturn, hi, hd⟩
    · exact ⟨c, d, .later hturn hk, hc, hd⟩

theorem AddedIn.size_le {index i k : Nat} {ts : List Tree} (h : AddedIn index ts a i k) :
    a.insts.size ≤ i := by
  obtain ⟨c, d, hturn, hc, -⟩ := h
  exact Nat.le_trans hturn.size_le hc

/-- An instruction that is added comes from the pattern in whose turn it is. -/
theorem chain_origins {index i k : Nat} {ts : List Tree} (h : chain index ts a = .ok () b)
    (hsize : a.origins.size = a.insts.size) (hi : a.insts.size ≤ i) :
    b.origins[i]? = some (some k) ↔ AddedIn index ts a i k := by
  induction ts generalizing index a with
  | nil =>
    cases h
    rw [Array.getElem?_eq_none (hsize ▸ hi)]
    simp [not_addedIn_nil]
  | cons t ts ih =>
    obtain ⟨m, hturn, hrest⟩ := chain_cons_eq_ok.1 h
    obtain ⟨n, hm, hmorigins⟩ := turn_tagged hturn
    have hmsize : m.origins.size = m.insts.size := by
      rw [hmorigins, Array.size_append, Array.size_replicate, hsize, hm]
    rw [addedIn_cons hturn hi]
    by_cases him : i < m.insts.size
    -- It was added in this turn, and all others come later.
    · obtain ⟨tags, -, horigins, -⟩ := chain_tags hrest
      have htag : b.origins[i]? = some (some index) := by
        rw [horigins, Array.getElem?_append_left (hmsize ▸ him), hmorigins,
          Array.getElem?_append_right (hsize ▸ hi), Array.getElem?_replicate, if_pos (by omega)]
      have hlater : ¬AddedIn (index + 1) ts m i k := fun h => Nat.not_le_of_lt him h.size_le
      simp [htag, him, hlater, eq_comm]
    · rw [ih hrest hmsize (Nat.le_of_not_lt him)]
      simp [him]

end AssemblyM

namespace Program

/-- Compiling the trees, the instruction at the position is added in the turn of the tree of the
index. -/
def AddedBy (trees : List Tree) : Nat → Nat → Prop := AssemblyM.AddedIn 0 trees .empty

variable {trees : List Tree} {patterns : List String} {p : Program} {i k : Nat}

theorem AddedBy.lt (h : AddedBy trees i k) : k < trees.length := by
  obtain ⟨a, b, hturn, -⟩ := h
  have hlt := hturn.lt
  omega

theorem chain_of_ofTrees (h : ofTrees trees patterns = .ok p) :
    ∃ a, AssemblyM.chain 0 trees .empty = .ok () a ∧
      p = ⟨a.insts, 0, patterns, a.origins.toList⟩ := by
  unfold ofTrees at h
  split at h
  · next a heq => exact ⟨a, heq, (Except.ok.inj h).symm⟩
  · cases h

/-- The origin of an instruction is the tree in whose turn it was added. -/
theorem origins_iff (h : ofTrees trees patterns = .ok p) :
    p.origins[i]? = some (some k) ↔ AddedBy trees i k := by
  obtain ⟨a, ha, rfl⟩ := chain_of_ofTrees h
  rw [Array.getElem?_toList]
  exact AssemblyM.chain_origins ha rfl (Nat.zero_le i)

/-- Every instruction was added in some turn. -/
theorem exists_addedBy (h : ofTrees trees patterns = .ok p) (hi : i < p.insts.size) :
    ∃ k, p.origins[i]? = some (some k) ∧ AddedBy trees i k := by
  obtain ⟨a, ha, hp⟩ := chain_of_ofTrees h
  obtain ⟨tags, hsize, horigins, hall⟩ := AssemblyM.chain_tags ha
  have hlt : i < tags.size := by
    rw [hp] at hi
    simpa [hsize, Assembly.empty] using hi
  obtain ⟨k, hk⟩ := hall tags[i] (Array.getElem_mem hlt)
  have htag : p.origins[i]? = some (some k) := by
    rw [hp, Array.getElem?_toList, horigins, ← hk]
    simp [Assembly.empty, hlt]
  exact ⟨k, htag, (origins_iff h).1 htag⟩

end Program

end Munch
