/-
What a draft may hold while a table is built. `Sound p busy d` says that each step lists exactly the
cases that its position leads to, that each end is the lowest pattern finished there, and that each
pattern that is accepted has a step for it; `busy` is the step that is worked on, which has ends
already but no cases yet. Drafts only grow (`Keeps`).
-/
import Munch.Proofs.Least
import Munch.Proofs.Program.DepthFirst
import Munch.Proofs.Table.IdMap
import Munch.Proofs.Table.Walk

namespace Munch

namespace Program

/-- The pattern is finished from the position without reading. -/
def Ends (p : Program) (i : Nat) (index : Int) : Prop :=
  ∃ j, p.Within i j ∧ p.insts[j]? = some (.accept index)

/-- What a byte instruction with the goto does. -/
def Goes (p : Program) (next : Goto) (t : Transition) : Prop :=
  ∃ (j : Nat) (inst : Inst), p.follow next = .ok j ∧ p.insts[j]? = some inst ∧
    t = match inst with
      | .accept index => .accept index
      | _ => .go j []

/-- The case comes from the byte instruction at the position. -/
def Lists (p : Program) (i : Nat) (c : Case) : Prop :=
  ∃ inst ranges next, p.insts[i]? = some inst ∧ inst.reads? = some (ranges, next) ∧
    c.range ∈ ranges ∧ p.Goes next c.transition

/-- The cases that come from the byte instructions among the positions, one after the other. -/
inductive Listing (p : Program) : List Nat → List Case → Prop where
  | nil : Listing p [] []
  | bytes {order : List Nat} {cases : List Case} {i : Nat} {inst : Inst} {ranges : List Interval}
      {next : Goto} {t : Transition} : p.insts[i]? = some inst →
    inst.reads? = some (ranges, next) → p.Goes next t → Listing p order cases →
    Listing p (i :: order) (ranges.map (⟨·, t⟩) ++ cases)
  | other {order : List Nat} {cases : List Case} {i : Nat} {inst : Inst} :
    p.insts[i]? = some inst → inst.reads? = none → Listing p order cases →
    Listing p (i :: order) cases

/-- A table can express the position, and what is read there goes on. -/
def Drawn (p : Program) (i : Nat) : Prop :=
  p.Tabular i ∧ ∀ inst ranges next, p.insts[i]? = some inst → inst.reads? = some (ranges, next) →
    ∃ t, p.Goes next t

/-- The cases of the step that starts at the position. -/
structure IsStep (p : Program) (i : Nat) (cases : List Case) : Prop where
  drawn : ∀ j, p.Within i j → p.Drawn j
  mem_iff : ∀ c, c ∈ cases ↔ ∃ j, p.Within i j ∧ p.Lists j c
  listing : ∃ order, p.DepthFirst [] [(i : Goto)] order ∧ p.Listing order cases

variable {p : Program} {i j : Nat} {index : Int} {cases : List Case}

theorem IsStep.settled (h : p.IsStep i cases) : p.Settled i := fun j hj => (h.drawn j hj).1

theorem Within.eq_of_accept (h : p.Within i j) (hi : p.insts[i]? = some (.accept index)) :
    j = i := by
  induction h using Relation.ReflTransGen.head_induction_on with
  | refl => rfl
  | head hb _ _ =>
    obtain ⟨first, second, hs, -⟩ := hb
    simp [hi] at hs

theorem ends_accept (hi : p.insts[i]? = some (.accept index)) (k : Int) :
    p.Ends i k ↔ k = index := by
  constructor
  · intro h
    obtain ⟨j, hj, hk⟩ := h
    rw [hj.eq_of_accept hi, hi] at hk
    simpa [eq_comm] using hk
  · rintro rfl
    exact ⟨i, .refl, hi⟩

/-- The end of a pattern is a step without cases. -/
theorem isStep_accept (hi : p.insts[i]? = some (.accept index)) : p.IsStep i [] where
  drawn j hj := by
    obtain rfl := hj.eq_of_accept hi
    refine ⟨⟨_, hi, trivial⟩, fun inst ranges next h hr => ?_⟩
    obtain rfl := Option.some.inj (hi.symm.trans h)
    simp [Inst.reads?] at hr
  mem_iff c := by
    simp only [List.not_mem_nil, false_iff]
    intro h
    obtain ⟨j, hj, inst, ranges, next, h, hr, -⟩ := h
    rw [hj.eq_of_accept hi, hi] at h
    obtain rfl := Option.some.inj h
    simp [Inst.reads?] at hr
  listing := ⟨[i], .visit (by simp) hi (.nil _) (.nil _), .other hi rfl .nil⟩

end Program

namespace Draft

open Program

variable {p : Program} {i : Nat} {index : Int}

/-- What is worked out so far, as a table. -/
abbrev table (d : Draft) : Table := ⟨d.steps, d.ends⟩

/-- The draft says nothing wrong, and all of it but what is being worked on is complete. -/
structure Sound (p : Program) (busy : Int → Prop) (d : Draft) : Prop where
  isStep : ∀ s cases, d.steps.get? s = some cases → ∃ i : Nat, s = i ∧ p.IsStep i cases
  least : ∀ s k, d.ends.get? s = some k → ∃ i : Nat, s = i ∧ Least (p.Ends i) (some k)
  ends : ∀ (i : Nat) cases index, d.steps.get? i = some cases → p.Ends i index →
    d.ends.get? i ≠ none
  hasStep : ∀ s k, d.ends.get? s = some k → d.steps.get? s ≠ none ∨ busy s
  acceptor : ∀ index s, d.acceptors.get? index = some s →
    d.steps.get? s ≠ none ∧ d.ends.get? s = some index
  accepts : ∀ s cases c index, d.steps.get? s = some cases → c ∈ cases →
    c.transition = .accept index → d.acceptors.get? index ≠ none
  found : ∀ (i : Nat) cases index, d.steps.get? i = some cases → p.Ends i index →
    d.acceptors.get? index ≠ none

/-- The end of a pattern ends no other one. -/
theorem Sound.eq_of_accept {busy : Int → Prop} {d : Draft} {k : Int} (h : Sound p busy d)
    (hi : p.insts[i]? = some (.accept index)) (hk : d.ends.get? i = some k) : k = index := by
  obtain ⟨j, hj, hend, -⟩ := h.least i k hk
  obtain rfl : i = j := by exact_mod_cast hj
  exact (ends_accept hi k).1 hend

/-- All that the first draft says the second one says too. New steps are ends of patterns. -/
structure Keeps (p : Program) (d d' : Draft) : Prop where
  steps : ∀ s cases, d.steps.get? s = some cases → d'.steps.get? s = some cases
  ends : ∀ s k, d.ends.get? s = some k → d'.ends.get? s = some k
  acceptors : ∀ index s, d.acceptors.get? index = some s → d'.acceptors.get? index = some s
  new : ∀ s cases, d'.steps.get? s = some cases → d.steps.get? s = none →
    ∃ (i : Nat) (index : Int), s = i ∧ p.insts[i]? = some (.accept index)

namespace Keeps

variable {p : Program} {d d' d'' : Draft}

theorem refl (p : Program) (d : Draft) : Keeps p d d where
  steps _ _ h := h
  ends _ _ h := h
  acceptors _ _ h := h
  new _ _ h hn := by simp [hn] at h

theorem trans (h : Keeps p d d') (h' : Keeps p d' d'') : Keeps p d d'' where
  steps s cases hs := h'.steps s cases (h.steps s cases hs)
  ends s k hs := h'.ends s k (h.ends s k hs)
  acceptors index s hs := h'.acceptors index s (h.acceptors index s hs)
  new s cases hs hn := by
    cases hs' : d'.steps.get? s with
    | none => exact h'.new s cases hs hs'
    | some cases' => exact h.new s cases' hs' hn

end Keeps

end Draft

namespace DraftM

open Program Draft

variable {p : Program} {busy : Int → Prop} {d : Draft} {i : Nat} {s index : Int}
  {E : Error → Draft → Prop}

theorem ofExcept_bind {α β : Type} {x : Except Error α} {f : α → DraftM β} {R : β → Draft → Prop}
    (h : ∀ a, x = .ok a → Ensures (f a) d R fun _ _ => True) :
    Ensures (ofExcept x >>= f) d R fun _ _ => True := by
  cases x with
  | ok a => exact h a rfl
  | error e => exact trivial

/-- Only the end of the step has changed, which is the lowest of the patterns now. -/
structure Lowers (d d' : Draft) (s : Int) (S : Int → Prop) : Prop where
  steps : d'.steps = d.steps
  acceptors : d'.acceptors = d.acceptors
  other : ∀ t ≠ s, d'.ends.get? t = d.ends.get? t
  least : Least S (d'.ends.get? s)

theorem acceptAt_ensures {d₀ : Draft} {S : Int → Prop} (h : Lowers d₀ d s S) :
    Ensures (acceptAt s index) d (fun _ d' => Lowers d₀ d' s fun k => S k ∨ k = index) E := by
  obtain ⟨hsteps, hacc, hother, hleast⟩ := h
  have hinsert (t : Int) (ht : t ≠ s) : (d.ends.insert s index).get? t = d₀.ends.get? t := by
    rw [IdMap.get?_insert, if_neg ht, hother t ht]
  unfold acceptAt
  refine ensures_get_bind ?_
  cases hs : d.ends.get? s with
  | none =>
    rw [hs] at hleast
    refine ensures_set ⟨hsteps, hacc, hinsert, ?_⟩
    rw [IdMap.get?_insert, if_pos rfl]
    refine ⟨.inr rfl, fun k hk => ?_⟩
    rcases hk with hk | rfl
    · exact absurd hk (hleast k)
    · exact Int.le_refl k
  | some current =>
    rw [hs] at hleast
    simp only
    split
    · next hlt =>
      refine ensures_set ⟨hsteps, hacc, hinsert, ?_⟩
      rw [IdMap.get?_insert, if_pos rfl]
      refine ⟨.inr rfl, fun k hk => ?_⟩
      rcases hk with hk | rfl
      · exact Int.le_trans (Int.le_of_lt hlt) (hleast.2 k hk)
      · exact Int.le_refl k
    · next hle =>
      refine ensures_pure ⟨hsteps, hacc, hother, hs ▸ ⟨.inl hleast.1, fun k hk => ?_⟩⟩
      rcases hk with hk | rfl
      · exact hleast.2 k hk
      · exact Int.not_lt.1 hle

/-- The second draft is the first one with the end of a pattern added. -/
structure Adds (p : Program) (d d' : Draft) (i : Nat) (index : Int) : Prop where
  accept : p.insts[i]? = some (.accept index)
  steps : d'.steps = d.steps.insertNew i []
  acceptors : d'.acceptors = d.acceptors.insertNew index i
  self : d'.ends.get? i = some index
  other : ∀ t : Int, t ≠ i → d'.ends.get? t = d.ends.get? t

theorem addAcceptor_adds (hd : Sound p busy d) (hi : p.insts[i]? = some (.accept index)) :
    Ensures (addAcceptor i index) d (fun _ d' => Adds p d d' i index) E := by
  have hself : Lowers d d i fun k => d.ends.get? i = some k :=
    ⟨rfl, rfl, fun _ _ => rfl, least_self _⟩
  refine (acceptAt_ensures hself).bind fun _ d₁ h₁ => ensures_modify ?_
  obtain ⟨hsteps, hacc, hother, hnew⟩ := h₁
  refine ⟨hi, by rw [hsteps], by rw [hacc], ?_, hother⟩
  refine (hnew.congr fun k => ⟨fun hk => ?_, .inr⟩).eq_some
  exact hk.elim (hd.eq_of_accept hi) id

namespace Adds

variable {d' : Draft}

theorem step (h : Adds p d d' i index) : d'.steps.get? i ≠ none :=
  h.steps ▸ IdMap.get?_insertNew_self

theorem found (h : Adds p d d' i index) : d'.acceptors.get? index ≠ none :=
  h.acceptors ▸ IdMap.get?_insertNew_self

theorem steps_eq_some {cases : List Case} (h : Adds p d d' i index)
    (hs : d'.steps.get? s = some cases) :
    d.steps.get? s = some cases ∨ s = i ∧ cases = [] := by
  rw [h.steps] at hs
  exact (IdMap.get?_insertNew_eq_some hs).imp_right fun h => ⟨h.1, h.2.1⟩

theorem ends_eq_some {k : Int} (h : Adds p d d' i index) (hs : d'.ends.get? s = some k) :
    d.ends.get? s = some k ∨ s = i ∧ k = index := by
  by_cases hsi : s = i
  · subst hsi
    exact .inr ⟨rfl, Option.some.inj (hs.symm.trans h.self)⟩
  · exact .inl (h.other s hsi ▸ hs)

theorem keeps (h : Adds p d d' i index) (hd : Sound p busy d) : Keeps p d d' where
  steps s cases hs := h.steps ▸ IdMap.get?_insertNew_of_some hs
  ends s k hs := by
    by_cases hsi : s = i
    · subst hsi
      exact hd.eq_of_accept h.accept hs ▸ h.self
    · exact (h.other s hsi).trans hs
  acceptors k s hs := h.acceptors ▸ IdMap.get?_insertNew_of_some hs
  new s cases hs hn := by
    rcases h.steps_eq_some hs with hs | ⟨rfl, -⟩
    · rw [hn] at hs
      cases hs
    · exact ⟨i, index, rfl, h.accept⟩

theorem sound (h : Adds p d d' i index) (hd : Sound p busy d) : Sound p busy d' where
  isStep s cases hs := by
    rcases h.steps_eq_some hs with hs | ⟨rfl, rfl⟩
    · exact hd.isStep s cases hs
    · exact ⟨i, rfl, isStep_accept h.accept⟩
  least s k hs := by
    rcases h.ends_eq_some hs with hs | ⟨rfl, rfl⟩
    · exact hd.least s k hs
    · exact ⟨i, rfl, (ends_accept h.accept k).2 rfl, fun l hl => ((ends_accept h.accept l).1 hl).ge⟩
  ends j cases k hs hk := by
    rcases h.steps_eq_some hs with hs | ⟨hj, -⟩
    · exact ne_none_of_le ((h.keeps hd).ends j) (hd.ends j cases k hs hk)
    · rw [hj, h.self]
      exact Option.some_ne_none index
  hasStep s k hs := by
    rcases h.ends_eq_some hs with hs | ⟨rfl, -⟩
    · exact (hd.hasStep s k hs).imp_left (ne_none_of_le ((h.keeps hd).steps s))
    · exact .inl h.step
  acceptor k s hs := by
    rw [h.acceptors] at hs
    rcases IdMap.get?_insertNew_eq_some hs with hs | ⟨rfl, rfl, -⟩
    · obtain ⟨hs, hk⟩ := hd.acceptor k s hs
      exact ⟨ne_none_of_le ((h.keeps hd).steps s) hs, (h.keeps hd).ends s k hk⟩
    · exact ⟨h.step, h.self⟩
  accepts s cases c k hs hc hck := by
    rcases h.steps_eq_some hs with hs | ⟨-, rfl⟩
    · exact ne_none_of_le ((h.keeps hd).acceptors k) (hd.accepts s cases c k hs hc hck)
    · cases hc
  found j cases k hs hk := by
    rcases h.steps_eq_some hs with hs | ⟨hj, -⟩
    · exact ne_none_of_le ((h.keeps hd).acceptors k) (hd.found j cases k hs hk)
    · obtain rfl : j = i := by exact_mod_cast hj
      obtain rfl := (ends_accept h.accept k).1 hk
      exact h.found

end Adds

/-- The end of a pattern may be added to any draft. -/
theorem addAcceptor_ensures (hd : Sound p busy d) (hi : p.insts[i]? = some (.accept index)) :
    Ensures (addAcceptor i index) d
      (fun _ d' => Sound p busy d' ∧ Keeps p d d' ∧ d'.ends.get? i = some index ∧
        d'.acceptors.get? index ≠ none) E :=
  (addAcceptor_adds hd hi).mono fun _ _ h => ⟨h.sound hd, h.keeps hd, h.self, h.found⟩

end DraftM

end Munch
