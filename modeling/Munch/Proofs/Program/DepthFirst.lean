/-
Depth-first orders. An order has every position that is reached through edges, each of them once
(`DepthFirst.mem_iff`, `DepthFirst.nodup`), and there is only one (`DepthFirst.unique`). It comes by the
idle instructions between a position and where that is skipped to right before it gets there, unless
it was there before (`exists_idlesTo`).
-/
import Munch.Program.DepthFirst
import Munch.Proofs.Program.Closure

namespace Munch.Program

variable {p : Program} {i j k n : Nat} {g : Goto} {gotos rest : List Goto}
  {seen order order' below nops : List Nat}

theorem edge_iff : p.Edge i j ↔ ∃ inst, p.insts[i]? = some inst ∧ (j : Goto) ∈ inst.edges := by
  constructor
  · intro h
    cases h with
    | nop h | first h | second h => exact ⟨_, h, by simp [Inst.edges]⟩
  · intro h
    obtain ⟨inst, hi, hj⟩ := h
    cases inst with
    | nop next =>
      obtain rfl : (j : Goto) = next := by simpa [Inst.edges] using hj
      exact .nop hi
    | split first second =>
      obtain rfl | rfl : (j : Goto) = first ∨ (j : Goto) = second := by
        simpa [Inst.edges] using hj
      · exact .first hi
      · exact .second hi
    | accept | save | look | char | span | oneOf => simp [Inst.edges] at hj

namespace DepthFirst

theorem append (h : p.DepthFirst seen gotos order) (h' : p.DepthFirst (seen ++ order) rest order') :
    p.DepthFirst seen (gotos ++ rest) (order ++ order') := by
  induction h with
  | nil seen => simpa using h'
  | again hi _ ih => exact .again hi (ih h')
  | @visit seen below order i inst rest' hi hinst hbelow _ _ ih =>
    have hrest := ih (by simpa using h')
    simpa using DepthFirst.visit hi hinst hbelow hrest

/-- What comes of some gotos first and of the others behind them. -/
theorem of_append (h : p.DepthFirst seen (gotos ++ rest) order) :
    ∃ front back, order = front ++ back ∧ p.DepthFirst seen gotos front ∧
      p.DepthFirst (seen ++ front) rest back := by
  generalize hall : gotos ++ rest = all at h
  induction h generalizing gotos with
  | nil seen =>
    obtain ⟨rfl, rfl⟩ := List.append_eq_nil_iff.1 hall
    exact ⟨[], [], rfl, .nil seen, .nil _⟩
  | @again seen order i tail hi h ih =>
    cases gotos with
    | nil =>
      obtain rfl : rest = (i : Goto) :: tail := hall
      exact ⟨[], order, rfl, .nil seen, by simpa using .again hi h⟩
    | cons g gotos =>
      obtain ⟨rfl, htail⟩ := List.cons.inj hall
      obtain ⟨front, back, rfl, hfront, hback⟩ := ih htail
      exact ⟨front, back, rfl, .again hi hfront, hback⟩
  | @visit seen below order i inst tail hi hinst hbelow h _ ih =>
    cases gotos with
    | nil =>
      obtain rfl : rest = (i : Goto) :: tail := hall
      exact ⟨[], i :: (below ++ order), rfl, .nil seen, by simpa using .visit hi hinst hbelow h⟩
    | cons g gotos =>
      obtain ⟨rfl, htail⟩ := List.cons.inj hall
      obtain ⟨front, back, rfl, hfront, hback⟩ := ih htail
      exact ⟨i :: (below ++ front), back, by simp, .visit hi hinst hbelow hfront,
        by simpa using hback⟩

/-- No position twice, and none that was seen. -/
theorem nodup (h : p.DepthFirst seen gotos order) : order.Nodup ∧ ∀ j ∈ order, j ∉ seen := by
  induction h with
  | nil => simp
  | again _ _ ih => exact ih
  | @visit seen below order i inst rest hi _ _ _ ihbelow ih =>
    obtain ⟨hbelow, hnew⟩ := ihbelow
    obtain ⟨horder, hnew'⟩ := ih
    simp only [List.mem_append, List.mem_cons, not_or] at hnew hnew'
    refine ⟨?_, fun j hj => ?_⟩
    · rw [List.nodup_cons, List.mem_append, List.nodup_append]
      refine ⟨?_, hbelow, horder, fun j hj k hk hjk => ?_⟩
      · rintro (hib | hio)
        · exact (hnew i hib).2.1 rfl
        · exact (hnew' i hio).2.1 rfl
      · exact (hnew' k hk).2.2 (hjk ▸ hj)
    · simp only [List.mem_cons, List.mem_append] at hj
      rcases hj with rfl | hj | hj
      · exact hi
      · exact (hnew j hj).1
      · exact (hnew' j hj).1

/-- All positions are reached from one of the gotos. -/
theorem exists_leads (h : p.DepthFirst seen gotos order) (hj : j ∈ order) :
    ∃ i : Nat, (i : Goto) ∈ gotos ∧ p.Leads i j := by
  induction h with
  | nil => simp at hj
  | again _ _ ih =>
    obtain ⟨i, hi, hij⟩ := ih hj
    exact ⟨i, List.mem_cons_of_mem _ hi, hij⟩
  | @visit seen below order i inst rest _ hinst _ _ ihbelow ih =>
    simp only [List.mem_cons, List.mem_append] at hj
    rcases hj with rfl | hj | hj
    · exact ⟨j, List.mem_cons_self, .refl j⟩
    · obtain ⟨k, hk, hkj⟩ := ihbelow hj
      exact ⟨i, List.mem_cons_self, .step (edge_iff.2 ⟨inst, hinst, hk⟩) hkj⟩
    · obtain ⟨k, hk, hkj⟩ := ih hj
      exact ⟨k, List.mem_cons_of_mem _ hk, hkj⟩

/-- The gotos are followed, and so are the edges of every position. -/
theorem closed (h : p.DepthFirst seen gotos order) :
    (∀ i : Nat, (i : Goto) ∈ gotos → i ∈ seen ++ order) ∧
      ∀ j ∈ order, ∀ k, p.Edge j k → k ∈ seen ++ order := by
  induction h with
  | nil => simp
  | @again seen order i rest hi _ ih =>
    refine ⟨fun k hk => ?_, ih.2⟩
    rcases List.mem_cons.1 hk with hk | hk
    · obtain rfl : k = i := by exact_mod_cast hk
      exact List.mem_append_left _ hi
    · exact ih.1 k hk
  | @visit seen below order i inst rest _ hinst _ _ ihbelow ih =>
    have hgrow {k : Nat} (hk : k ∈ (seen ++ [i]) ++ below) : k ∈ seen ++ i :: (below ++ order) := by
      simp only [List.mem_append, List.mem_cons] at hk ⊢
      tauto
    have hmove {k : Nat} (hk : k ∈ (seen ++ i :: below) ++ order) :
        k ∈ seen ++ i :: (below ++ order) := by simpa using hk
    refine ⟨fun k hk => ?_, fun j hj k hjk => ?_⟩
    · rcases List.mem_cons.1 hk with hk | hk
      · obtain rfl : k = i := by exact_mod_cast hk
        simp
      · exact hmove (ih.1 k hk)
    · simp only [List.mem_cons, List.mem_append] at hj
      rcases hj with rfl | hj | hj
      · obtain ⟨inst', hinst', hk⟩ := edge_iff.1 hjk
        obtain rfl := Option.some.inj (hinst.symm.trans hinst')
        exact hgrow (ihbelow.1 k hk)
      · exact hgrow (ihbelow.2 j hj k hjk)
      · exact hmove (ih.2 j hj k hjk)

/-- From a position on, the order has exactly what is reached through edges. -/
theorem mem_iff (h : p.DepthFirst [] [(i : Goto)] order) : j ∈ order ↔ p.Leads i j := by
  constructor
  · intro hj
    obtain ⟨k, hk, hkj⟩ := h.exists_leads hj
    obtain rfl : k = i := by simpa using hk
    exact hkj
  · intro hj
    obtain ⟨hgotos, hedges⟩ := h.closed
    have hmem {a b : Nat} (hab : p.Leads a b) (ha : a ∈ order) : b ∈ order := by
      induction hab with
      | refl => exact ha
      | step e _ ih => exact ih (hedges _ ha _ e)
    exact hmem hj (hgotos i (by simp))

/-- There is only one depth-first order. -/
theorem unique (h : p.DepthFirst seen gotos order) (h' : p.DepthFirst seen gotos order') :
    order = order' := by
  induction h generalizing order' with
  | nil =>
    cases h'
    rfl
  | @again seen order i rest hi _ ih =>
    generalize hall : (i : Goto) :: rest = all at h'
    cases h' with
    | nil => cases hall
    | again _ h' =>
      obtain ⟨-, rfl⟩ := List.cons.inj hall
      exact ih h'
    | visit hnew =>
      obtain ⟨hg, -⟩ := List.cons.inj hall
      obtain rfl := Goto.natCast_inj.1 hg
      exact absurd hi hnew
  | @visit seen below order i inst rest hi hinst _ _ ihbelow ih =>
    generalize hall : (i : Goto) :: rest = all at h'
    cases h' with
    | nil => cases hall
    | again hseen =>
      obtain ⟨hg, -⟩ := List.cons.inj hall
      obtain rfl := Goto.natCast_inj.1 hg
      exact absurd hseen hi
    | visit _ hinst' hbelow' hrest' =>
      obtain ⟨hg, rfl⟩ := List.cons.inj hall
      obtain rfl := Goto.natCast_inj.1 hg
      obtain rfl := Option.some.inj (hinst.symm.trans hinst')
      obtain rfl := ihbelow hbelow'
      rw [ih hrest']

end DepthFirst

/-! ## Idle instructions on the way -/

/-- The idle instructions of the first list lead into the second. -/
def IdleInto (p : Program) (seen targets : List Nat) : Prop :=
  ∀ j ∈ seen, ∀ next, p.insts[j]? = some (.nop next) → ∃ k ∈ targets, next = (k : Goto)

theorem IdleInto.cons (h : p.IdleInto seen seen) : p.IdleInto seen (i :: seen) := by
  intro j hj next hnext
  obtain ⟨k, hk, hnext⟩ := h j hj next hnext
  exact ⟨k, List.mem_cons_of_mem _ hk, hnext⟩

theorem IdleInto.of_mem (h : p.IdleInto seen (i :: seen)) (hi : i ∈ seen) : p.IdleInto seen seen := by
  intro j hj next hnext
  obtain ⟨k, hk, rfl⟩ := h j hj next hnext
  rcases List.mem_cons.1 hk with rfl | hk
  · exact ⟨k, hi, rfl⟩
  · exact ⟨k, hk, rfl⟩

theorem IdleInto.mem_of_skipUpTo (h : p.IdleInto seen seen) (hi : i ∈ seen)
    (hskip : p.skipUpTo n i = .ok j) : j ∈ seen := by
  induction n generalizing i with
  | zero =>
    obtain rfl := Except.ok.inj hskip
    exact hi
  | succ n ih =>
    rcases skipUpTo_succ hskip with ⟨k, hk, hskip⟩ | ⟨-, -, -, rfl⟩
    · obtain ⟨m, hm, hkm⟩ := h i hi k hk
      obtain rfl := Goto.natCast_inj.1 hkm
      exact ih hm hskip
    · exact hi

/-- The new idle instructions between a position and another one: a depth-first order comes by them
first. -/
structure IdlesTo (p : Program) (seen : List Nat) (i j : Nat) (nops : List Nat) : Prop where
  idle : ∀ k ∈ nops, ∃ next, p.insts[k]? = some (.nop next)
  into : p.IdleInto (seen ++ nops) (j :: (seen ++ nops))
  depthFirst : ∀ order, p.DepthFirst (seen ++ nops) [(j : Goto)] order →
    p.DepthFirst seen [(i : Goto)] (nops ++ order)

namespace IdlesTo

theorem here (h : p.IdleInto seen (i :: seen)) : p.IdlesTo seen i i [] :=
  ⟨by simp, by simpa using h, by simp⟩

/-- Whoever has seen the position has seen where it is skipped to. -/
theorem again (h : p.IdleInto seen (i :: seen)) (hi : i ∈ seen) (hj : j ∈ seen) :
    p.IdlesTo seen i j [] := by
  refine ⟨by simp, ?_, fun order horder => ?_⟩
  · simpa using (h.of_mem hi).cons
  · rw [List.append_nil] at horder
    obtain rfl := horder.unique (.again hj (.nil seen))
    exact .again hi (.nil seen)

theorem cons (h : p.IdlesTo (seen ++ [i]) k j nops) (hi : i ∉ seen)
    (hk : p.insts[i]? = some (.nop k)) : p.IdlesTo seen i j (i :: nops) := by
  have hmove : seen ++ [i] ++ nops = seen ++ i :: nops := by simp
  refine ⟨fun m hm => ?_, hmove ▸ h.into, fun order horder => ?_⟩
  · rcases List.mem_cons.1 hm with rfl | hm
    · exact ⟨k, hk⟩
    · exact h.idle m hm
  · have hbelow := h.depthFirst order (by rwa [hmove])
    simpa using DepthFirst.visit hi hk hbelow (.nil _)

end IdlesTo

theorem exists_idlesTo (h : p.IdleInto seen (i :: seen)) (hskip : p.skipUpTo n i = .ok j) :
    ∃ nops, p.IdlesTo seen i j nops := by
  induction n generalizing i seen with
  | zero =>
    obtain rfl := Except.ok.inj hskip
    exact ⟨[], .here h⟩
  | succ n ih =>
    by_cases hi : i ∈ seen
    · exact ⟨[], .again h hi ((h.of_mem hi).mem_of_skipUpTo hi hskip)⟩
    · rcases skipUpTo_succ hskip with ⟨k, hk, hskip⟩ | ⟨-, -, -, rfl⟩
      · have hstep : p.IdleInto (seen ++ [i]) (k :: (seen ++ [i])) := by
          intro m hm next hnext
          rcases List.mem_append.1 hm with hm | hm
          · obtain ⟨l, hl, rfl⟩ := h m hm next hnext
            refine ⟨l, ?_, rfl⟩
            simp only [List.mem_cons, List.mem_append] at hl ⊢
            tauto
          · obtain rfl := List.mem_singleton.1 hm
            obtain rfl := Inst.nop.inj (Option.some.inj (hk.symm.trans hnext))
            exact ⟨k, List.mem_cons_self, rfl⟩
        obtain ⟨nops, hnops⟩ := ih hstep hskip
        exact ⟨i :: nops, hnops.cons hi hk⟩
      · exact ⟨[], .here h⟩

end Munch.Program
