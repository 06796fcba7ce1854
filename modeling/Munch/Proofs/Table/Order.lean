/-
The order of the cases of a step. A walk over the program follows every goto to where it is skipped
to, and visits these places depth-first: with the idle instructions put in that it passes over, it is
the depth-first order of the program, which lists the same cases (`Visited.exists_depthFirst`).
-/
import Mathlib.Data.List.Forall2
import Munch.Proofs.Table.Draft

namespace Munch

variable {p : Program} {i j : Nat} {next : Goto} {t t' : Transition} {c : Case}
  {seen seen' stack order order' nops : List Nat} {gotos : List Goto} {cases cases' : List Case}

namespace Program

theorem Goes.unique (h : p.Goes next t) (h' : p.Goes next t') : t = t' := by
  obtain ⟨j, inst, hj, hi, rfl⟩ := h
  obtain ⟨j', inst', hj', hi', rfl⟩ := h'
  obtain rfl := Except.ok.inj (hj.symm.trans hj')
  obtain rfl := Option.some.inj (hi.symm.trans hi')
  rfl

theorem branches_split {first second : Goto} {a b : Nat} (hi : p.insts[i]? = some (.split first second))
    (ha : p.follow first = .ok a) (hb : p.follow second = .ok b) :
    p.Branches i j ↔ j = a ∨ j = b := by
  constructor
  · intro h
    obtain ⟨first', second', hi', h⟩ := h
    obtain ⟨rfl, rfl⟩ := Inst.split.inj (Option.some.inj (hi.symm.trans hi'))
    rcases h with h | h
    · exact .inl (Except.ok.inj (h.symm.trans ha))
    · exact .inr (Except.ok.inj (h.symm.trans hb))
  · intro h
    rcases h with rfl | rfl
    · exact ⟨first, second, hi, .inl ha⟩
    · exact ⟨first, second, hi, .inr hb⟩

/-- Only splits branch. -/
theorem not_branches {inst : Inst} (hi : p.insts[i]? = some inst) (hne : ∀ a b, inst ≠ .split a b) :
    ¬ p.Branches i j := by
  intro h
  obtain ⟨first, second, hi', -⟩ := h
  exact hne first second (Option.some.inj (hi.symm.trans hi'))

theorem lt_of_inst {inst : Inst} (hi : p.insts[i]? = some inst) : i < p.insts.size :=
  (Array.getElem?_eq_some_iff.1 hi).1

/-- Only byte instructions list cases. -/
theorem not_lists {inst : Inst} (hi : p.insts[i]? = some inst) (hr : inst.reads? = none) :
    ¬ p.Lists i c := by
  intro h
  obtain ⟨inst', ranges, next, hi', hr', -⟩ := h
  obtain rfl := Option.some.inj (hi.symm.trans hi')
  rw [hr] at hr'
  cases hr'

theorem lists_bytes {inst : Inst} {ranges : List Interval} (hi : p.insts[i]? = some inst)
    (hr : inst.reads? = some (ranges, next)) (ht : p.Goes next t) :
    p.Lists i c ↔ c ∈ ranges.map (⟨·, t⟩) := by
  rw [List.mem_map]
  constructor
  · intro h
    obtain ⟨inst', ranges', next', hi', hr', hc, hgoes⟩ := h
    obtain rfl := Option.some.inj (hi.symm.trans hi')
    obtain ⟨rfl, rfl⟩ := Prod.mk.inj (Option.some.inj (hr.symm.trans hr'))
    exact ⟨c.range, hc, by rw [ht.unique hgoes]⟩
  · intro h
    obtain ⟨r, hr', rfl⟩ := h
    exact ⟨inst, ranges, next, hi, hr, hr', ht⟩

namespace Listing

theorem append (h : p.Listing order cases) (h' : p.Listing order' cases') :
    p.Listing (order ++ order') (cases ++ cases') := by
  induction h with
  | nil => exact h'
  | bytes hi hr ht _ ih => simpa using bytes hi hr ht ih
  | other hi hr _ ih => exact other hi hr ih

theorem mem_iff (h : p.Listing order cases) : c ∈ cases ↔ ∃ j ∈ order, p.Lists j c := by
  induction h with
  | nil => simp
  | bytes hi hr ht _ ih =>
    rw [List.mem_append, ih, ← lists_bytes hi hr ht]
    simp
  | other hi hr _ ih =>
    rw [ih]
    simp [not_lists hi hr]

theorem single {inst : Inst} {ranges : List Interval} (hi : p.insts[i]? = some inst)
    (hr : inst.reads? = some (ranges, next)) (ht : p.Goes next t) :
    p.Listing [i] (ranges.map (⟨·, t⟩)) := by
  simpa only [List.append_nil] using bytes hi hr ht .nil

/-- What is read at one of the positions goes on. -/
theorem exists_goes (h : p.Listing order cases) (hj : j ∈ order) (inst : Inst)
    (ranges : List Interval) (next : Goto) (hinst : p.insts[j]? = some inst)
    (hr : inst.reads? = some (ranges, next)) : ∃ t, p.Goes next t := by
  induction h with
  | nil => simp at hj
  | bytes hi hri ht _ ih =>
    rcases List.mem_cons.1 hj with rfl | hj
    · obtain rfl := Option.some.inj (hi.symm.trans hinst)
      obtain ⟨-, rfl⟩ := Prod.mk.inj (Option.some.inj (hri.symm.trans hr))
      exact ⟨_, ht⟩
    · exact ih hj
  | other hi hri _ ih =>
    rcases List.mem_cons.1 hj with rfl | hj
    · obtain rfl := Option.some.inj (hi.symm.trans hinst)
      simp [hr] at hri
    · exact ih hj

/-- Idle instructions add nothing. -/
theorem idle (hnops : ∀ k ∈ nops, ∃ next, p.insts[k]? = some (.nop next))
    (h : p.Listing order cases) : p.Listing (nops ++ order) cases := by
  induction nops with
  | nil => exact h
  | cons k nops ih =>
    obtain ⟨next, hk⟩ := hnops k List.mem_cons_self
    exact other hk rfl (ih fun m hm => hnops m (List.mem_cons_of_mem _ hm))

/-- The cases of the first position come before those of the others. -/
theorem of_cons (h : p.Listing (i :: order) cases) :
    ∃ first rest, cases = first ++ rest ∧ p.Listing [i] first ∧ p.Listing order rest := by
  cases h with
  | bytes hi hr ht h => exact ⟨_, _, rfl, single hi hr ht, h⟩
  | other hi hr h => exact ⟨[], _, rfl, other hi hr .nil, h⟩

end Listing

end Program

namespace DraftM

open Program

/-- A visit follows the edges of an instruction that is not idle. -/
def FollowsEdges (p : Program) (i : Nat) (js : List Nat) : Prop :=
  ∃ inst, p.insts[i]? = some inst ∧ (∀ next, inst ≠ .nop next) ∧
    List.Forall₂ (fun g j => p.follow g = .ok j) inst.edges js

namespace FollowsEdges

variable {js : List Nat}

theorem lt (h : FollowsEdges p i js) : i < p.insts.size := by
  obtain ⟨inst, hi, -⟩ := h
  exact lt_of_inst hi

theorem length_le (h : FollowsEdges p i js) : js.length ≤ 2 := by
  obtain ⟨inst, -, -, hedges⟩ := h
  rw [← hedges.length_eq]
  cases inst <;> simp [Inst.edges]

theorem mem_iff (h : FollowsEdges p i js) : j ∈ js ↔ p.Branches i j := by
  obtain ⟨inst, hi, hacts, hedges⟩ := h
  cases inst with
  | split first second =>
    obtain ⟨a, rest, ha, hrest, rfl⟩ := List.forall₂_cons_left_iff.1 hedges
    obtain ⟨b, rest, hb, hnil, rfl⟩ := List.forall₂_cons_left_iff.1 hrest
    obtain rfl := List.forall₂_nil_left_iff.1 hnil
    simpa using (branches_split hi ha hb).symm
  | nop next => exact absurd rfl (hacts next)
  | accept | save | look | char | span | oneOf =>
    obtain rfl := List.forall₂_nil_left_iff.1 hedges
    simpa using not_branches hi (by simp)

end FollowsEdges

/-- What a walk has seen and what a depth-first order has: the same but for idle instructions. -/
structure Alike (p : Program) (seen seen' : List Nat) : Prop where
  mem_of_mem : ∀ j ∈ seen, j ∈ seen'
  idle : ∀ j ∈ seen', j ∈ seen ∨ ∃ next, p.insts[j]? = some (.nop next)
  into : p.IdleInto seen' seen'

namespace Alike

/-- Idle instructions on the way to a position that was seen. -/
theorem again {k : Nat} (h : Alike p seen seen') (hnops : p.IdlesTo seen' k i nops) (hi : i ∈ seen) :
    Alike p seen (seen' ++ nops) where
  mem_of_mem j hj := List.mem_append_left _ (h.mem_of_mem j hj)
  idle j hj := by
    rcases List.mem_append.1 hj with hj | hj
    · exact h.idle j hj
    · exact .inr (hnops.idle j hj)
  into := hnops.into.of_mem (List.mem_append_left _ (h.mem_of_mem i hi))

/-- Idle instructions on the way to a new position, and the position itself. -/
theorem visit {k : Nat} (h : Alike p seen seen') (hnops : p.IdlesTo seen' k i nops)
    (hne : ∀ next, p.insts[i]? ≠ some (.nop next)) :
    Alike p (i :: seen) (seen' ++ nops ++ [i]) where
  mem_of_mem j hj := by
    rcases List.mem_cons.1 hj with rfl | hj
    · simp
    · simp [h.mem_of_mem j hj]
  idle j hj := by
    simp only [List.mem_append, List.mem_singleton] at hj
    rcases hj with (hj | hj) | rfl
    · exact (h.idle j hj).imp_left (List.mem_cons_of_mem i)
    · exact .inr (hnops.idle j hj)
    · exact .inl List.mem_cons_self
  into j hj next hnext := by
    rcases List.mem_append.1 hj with hj | hj
    · obtain ⟨m, hm, rfl⟩ := hnops.into j hj next hnext
      refine ⟨m, ?_, rfl⟩
      simp only [List.mem_cons, List.mem_append] at hm ⊢
      tauto
    · obtain rfl := List.mem_singleton.1 hj
      exact absurd hnext (hne next)

theorem not_mem {k : Nat} (h : Alike p seen seen') (hnops : p.IdlesTo seen' k i nops)
    (hne : ∀ next, p.insts[i]? ≠ some (.nop next)) (hi : i ∉ seen) : i ∉ seen' ++ nops := by
  intro hmem
  have hidle : i ∈ seen ∨ ∃ next, p.insts[i]? = some (.nop next) := by
    rcases List.mem_append.1 hmem with hmem | hmem
    · exact h.idle i hmem
    · exact .inr (hnops.idle i hmem)
  rcases hidle with hseen | ⟨next, hnext⟩
  · exact hi hseen
  · exact hne next hnext

end Alike

/-- A walk that follows edges is a depth-first order with the idle instructions left out. -/
theorem Visited.exists_depthFirst (h : Visited (FollowsEdges p) seen stack order)
    (hseen : Alike p seen seen') (hgotos : List.Forall₂ (fun g j => p.follow g = .ok j) gotos stack)
    (hlisting : p.Listing order cases) :
    ∃ order', p.DepthFirst seen' gotos order' ∧ p.Listing order' cases := by
  -- on the walk: each position of its stack stands for a goto that is followed there
  induction h generalizing seen' gotos cases with
  | nil seen =>
    cases hgotos
    exact ⟨[], .nil seen', hlisting⟩
  | @again seen stack order i hi _ ih =>
    obtain ⟨g, rest, hg, hrest, rfl⟩ := List.forall₂_cons_right_iff.1 hgotos
    obtain ⟨k, rfl, hskip⟩ := follow_eq_ok_iff.1 hg
    obtain ⟨nops, hnops⟩ := exists_idlesTo hseen.into.cons hskip
    have hseen' := hseen.again hnops hi
    obtain ⟨order', horder, hlisting⟩ := ih hseen' hrest hlisting
    have hpass := hnops.depthFirst [] (.again (hseen'.mem_of_mem i hi) (.nil _))
    rw [List.append_nil] at hpass
    exact ⟨nops ++ order', hpass.append horder, hlisting.idle hnops.idle⟩
  | @visit seen stack order js i hi hQ _ ih =>
    obtain ⟨g, rest, hg, hrest, rfl⟩ := List.forall₂_cons_right_iff.1 hgotos
    obtain ⟨k, rfl, hskip⟩ := follow_eq_ok_iff.1 hg
    obtain ⟨nops, hnops⟩ := exists_idlesTo hseen.into.cons hskip
    obtain ⟨inst, hinst, hacts, hedges⟩ := hQ
    have hne (next : Goto) : p.insts[i]? ≠ some (.nop next) := by
      simpa [hinst] using hacts next
    obtain ⟨first, others, rfl, hfirst, hothers⟩ := hlisting.of_cons
    obtain ⟨order', horder, hothers⟩ :=
      ih (hseen.visit hnops hne) (List.rel_append hedges hrest) hothers
    obtain ⟨below, behind, rfl, hbelow, hbehind⟩ := horder.of_append
    have hvisit : p.DepthFirst (seen' ++ nops) [(i : Goto)] (i :: below) := by
      simpa using DepthFirst.visit (hseen.not_mem hnops hne hi) hinst hbelow (.nil _)
    have hpass := (hnops.depthFirst _ hvisit).append (by simpa using hbehind)
    refine ⟨_, hpass, ?_⟩
    simpa using (hfirst.append hothers).idle hnops.idle

/-- A walk from a position on lists its cases in the depth-first order. -/
theorem Visited.listing (h : Visited (FollowsEdges p) [] [i] order) (hi : p.Tabular i)
    (hlisting : p.Listing order cases) :
    ∃ order', p.DepthFirst [] [(i : Goto)] order' ∧ p.Listing order' cases := by
  obtain ⟨inst, hinst, htab⟩ := hi
  have hacts (next : Goto) : inst ≠ .nop next := by
    rintro rfl
    exact htab
  have hstart : p.follow (i : Goto) = .ok i :=
    follow_eq_ok_iff.2 ⟨i, rfl, skipUpTo_self hinst hacts _⟩
  exact h.exists_depthFirst ⟨by simp, by simp, by simp [IdleInto]⟩ (.cons hstart .nil) hlisting

end DraftM

end Munch
