/-
When a program has no table. Building a table fails only at a bar that a run may come to, and blames
that bar (`build_refuses`); a table that is built has come by no bar, so a run cannot come to one
(`Built.not_barred`). For a closed program it is one or the other (`ofProgram_cases`).
-/
import Munch.Proofs.Program.Bars
import Munch.Proofs.Program.Closed
import Munch.Proofs.Table.Runs

namespace Munch

variable {p : Program} {S : Nat → Prop} {d : Draft} {i j k n : Nat} {next : Goto} {inst : Inst}
  {c : Case} {construct : Construct}

/-! ## What a step comes to -/

namespace Program

theorem Edge.continues (h : p.Edge i j) : p.Continues i j := by
  cases h with
  | nop h => exact ⟨_, h, rfl⟩
  | first h => exact ⟨_, h, .inl rfl⟩
  | second h => exact ⟨_, h, .inr rfl⟩

theorem Leads.reaches (h : p.Leads i j) : p.Reaches i j := by
  induction h with
  | refl i => exact .refl
  | step e _ ih => exact .head e.continues ih

theorem Within.reaches (h : p.Within i j) : p.Reaches i j := h.leads.reaches

theorem mem_gotos_of_reads {ranges : List Interval} (hr : inst.reads? = some (ranges, next)) :
    next ∈ inst.gotos := by
  cases inst with
  | char | span | oneOf =>
    obtain ⟨-, rfl⟩ := Prod.mk.inj (Option.some.inj hr)
    exact List.mem_singleton_self _
  | accept | save | split | look | nop => cases hr

/-- A byte instruction with an interval goes on where its goto leads. -/
theorem continues_reads {ranges : List Interval} {m : Nat} (hi : p.insts[i]? = some inst)
    (hr : inst.reads? = some (ranges, (m : Goto))) (hne : ranges ≠ []) : p.Continues i m := by
  refine ⟨inst, hi, ?_⟩
  cases inst with
  | char byte next =>
    obtain ⟨-, rfl⟩ := Prod.mk.inj (Option.some.inj hr)
    rfl
  | span range next =>
    obtain ⟨-, rfl⟩ := Prod.mk.inj (Option.some.inj hr)
    rfl
  | oneOf others next =>
    obtain ⟨rfl, rfl⟩ := Prod.mk.inj (Option.some.inj hr)
    exact ⟨hne, rfl⟩
  | accept | save | split | look | nop => cases hr

/-- A case goes on where a goto of its instruction is followed to. -/
theorem Lists.target {target : StepId} {conditions : List Condition} (h : p.Lists i c)
    (ht : c.transition = .go target conditions) :
    ∃ (inst : Inst) (next : Goto) (j : Nat), target = j ∧ p.insts[i]? = some inst ∧
      next ∈ inst.gotos ∧ p.follow next = .ok j ∧ p.Reaches i j := by
  obtain ⟨inst, ranges, next, hi, hr, hrange, j, inst', hj, -, hgo⟩ := h
  obtain ⟨m, rfl, hskip⟩ := follow_eq_ok_iff.1 hj
  have hcont := continues_reads hi hr (List.ne_nil_of_mem hrange)
  have hreach : p.Reaches i j := .head hcont (leads_of_skipUpTo hskip).reaches
  refine ⟨inst, m, j, ?_, hi, mem_gotos_of_reads hr, hj, hreach⟩
  rw [ht] at hgo
  cases inst' with
  | accept => cases hgo
  | save | split | look | char | span | oneOf | nop => exact (Transition.go.inj hgo).1

end Program

namespace DraftM

open Program Draft

variable {busy : Int → Prop} {E : Error → Draft → Prop} {s index : Int}

/-! ## What cannot fail -/

theorem ofExcept_ok_bind {α β : Type} {x : Except Error α} {a : α} {f : α → DraftM β}
    {R : β → Draft → Prop} (hx : x = .ok a) (h : Ensures (f a) d R E) :
    Ensures (ofExcept x >>= f) d R E := by
  subst hx
  exact h

theorem acceptAt_sure (s index : Int) (d : Draft) :
    Ensures (acceptAt s index) d (fun _ _ => True) E := by
  unfold acceptAt
  refine ensures_get_bind ?_
  split
  · split
    · exact ensures_set trivial
    · exact ensures_pure trivial
  · exact ensures_set trivial

theorem addAcceptor_sure (s index : Int) (d : Draft) :
    Ensures (addAcceptor s index) d (fun _ _ => True) E :=
  (acceptAt_sure s index d).bind fun _ _ _ => ensures_modify trivial

theorem transitionTo_sure (hnext : p.follow next = .ok j) (hj : Acts p.insts j) (d : Draft) :
    Ensures (transitionTo p next) d (fun _ _ => True) E := by
  obtain ⟨inst, hi, -⟩ := hj
  refine ofExcept_ok_bind hnext (ofExcept_ok_bind (get_eq_ok_iff.2 hi) ?_)
  cases inst with
  | accept index => exact (addAcceptor_sure j index d).bind fun _ _ _ => ensures_pure trivial
  | save | split | look | char | span | oneOf | nop => exact ensures_pure trivial

theorem arrive_sure (step : Nat) (hj : Acts p.insts j) (d : Draft) :
    Ensures (arrive p step j) d (fun _ _ => True) E := by
  obtain ⟨inst, hi, -⟩ := hj
  refine ofExcept_ok_bind (get_eq_ok_iff.2 hi) ?_
  cases inst with
  | accept index => exact acceptAt_sure step index d
  | save | split | look | char | span | oneOf | nop => exact ensures_pure trivial

/-- Everything that a walk goes to is visited, and nothing else fails. -/
theorem walk_refuses {α : Type} {visit : Nat → DraftM (List Nat × List α)} {V : Nat → Prop}
    (hvisit : ∀ i d, V i → Ensures (visit i) d (fun r _ => ∀ j ∈ r.1, V j) E) {fuel : Nat}
    {seen stack : List Nat} (hstack : ∀ i ∈ stack, V i) (d : Draft) :
    Ensures (walk visit fuel seen stack) d (fun _ _ => True) E := by
  induction fuel generalizing seen stack d with
  | zero => exact ensures_pure trivial
  | succ fuel ih =>
    cases stack with
    | nil => exact ensures_pure trivial
    | cons i stack =>
      rw [walk]
      split
      · exact ih (fun j hj => hstack j (List.mem_cons_of_mem i hj)) d
      · refine (hvisit i d (hstack i (by simp))).bind fun r d' hr => ?_
        refine (ih (fun j hj => ?_) d').bind fun _ _ _ => ensures_pure trivial
        rcases List.mem_append.1 hj with hj | hj
        · exact hr j hj
        · exact hstack j (List.mem_cons_of_mem i hj)

/-! ## What is refused -/

/-- A run from the position may come to the bar that the error blames. -/
def Refused (p : Program) (i : Nat) (e : Error) : Prop :=
  ∃ j construct, p.Reaches i j ∧ p.BarAt j construct ∧ e = unsupported p j construct

/-- The position lies in the set, holds an instruction that is not idle, and a run from the start may
come to it. -/
structure Comes (p : Program) (S : Nat → Prop) (start i : Nat) : Prop where
  inside : S i
  acts : Acts p.insts i
  reaches : p.Reaches start i

variable {start : Nat}

theorem Comes.branch {first second : Goto} (hS : p.Closed S) (h : Comes p S start i)
    (hi : p.insts[i]? = some (.split first second)) :
    ∃ a b, p.follow first = .ok a ∧ Comes p S start a ∧ p.follow second = .ok b ∧
      Comes p S start b := by
  obtain ⟨a, ha, haS, haacts⟩ := hS.follow h.inside hi (g := first) (by simp [Inst.gotos])
  obtain ⟨b, hb, hbS, hbacts⟩ := hS.follow h.inside hi (g := second) (by simp [Inst.gotos])
  have hreach {j : Nat} (hj : p.Branches i j) : p.Reaches start j :=
    h.reaches.trans (Within.reaches (.single hj))
  exact ⟨a, b, ha, ⟨haS, haacts, hreach ⟨_, _, hi, .inl ha⟩⟩, hb,
    hbS, hbacts, hreach ⟨_, _, hi, .inr hb⟩⟩

theorem splitEnds_sure (hS : p.Closed S) (step : Nat) (h : Comes p S start i) (d : Draft) :
    Ensures (splitEnds p step i) d (fun r _ => ∀ j ∈ r.1, Comes p S start j) E := by
  obtain ⟨inst, hi, -⟩ := h.acts
  refine ofExcept_ok_bind (get_eq_ok_iff.2 hi) ?_
  cases inst with
  | split first second =>
    obtain ⟨a, b, ha, hacomes, hb, hbcomes⟩ := h.branch hS hi
    refine ofExcept_ok_bind ha (ofExcept_ok_bind hb ?_)
    refine (arrive_sure step hacomes.acts d).bind fun _ d₁ _ => ?_
    refine (arrive_sure step hbcomes.acts d₁).bind fun _ d₂ _ => ensures_pure ?_
    simpa using ⟨hbcomes, hacomes⟩
  | accept | save | look | char | span | oneOf | nop => exact ensures_pure (by simp)

theorem acceptOnArrival_sure (hS : p.Closed S) (h : Comes p S start i) (d : Draft) :
    Ensures (acceptOnArrival p i) d (fun _ _ => True) E :=
  (walk_refuses (fun _ d hj => splitEnds_sure hS i hj d) (by simpa using h) d).bind
    fun _ _ _ => ensures_pure trivial

theorem instCases_refuses (hS : p.Closed S) (h : Comes p S start i) (d : Draft) :
    Ensures (instCases p i) d (fun r _ => ∀ j ∈ r.1, Comes p S start j)
      fun e _ => Refused p start e := by
  obtain ⟨inst, hi, hne⟩ := h.acts
  have hbytes {ranges : List Interval} {next : Goto} (hg : next ∈ inst.gotos) :
      Ensures (do return ([], ← byteCases p ranges next)) d
        (fun r _ => ∀ j ∈ r.1, Comes p S start j) fun e _ => Refused p start e := by
    obtain ⟨j, hj, -, hacts⟩ := hS.follow h.inside hi hg
    refine Ensures.bind (Q := fun _ _ => True) ?_ fun _ _ _ => ensures_pure (by simp)
    exact (transitionTo_sure hj hacts d).bind fun _ _ _ => ensures_pure trivial
  refine ofExcept_ok_bind (get_eq_ok_iff.2 hi) ?_
  cases inst with
  | split first second =>
    obtain ⟨a, b, ha, hacomes, hb, hbcomes⟩ := h.branch hS hi
    refine ofExcept_ok_bind hb (ofExcept_ok_bind ha (ensures_pure ?_))
    simpa using ⟨hacomes, hbcomes⟩
  | accept index =>
    exact (addAcceptor_sure i index d).bind fun _ _ _ => ensures_pure (by simp)
  | char | span | oneOf => exact hbytes (by simp [Inst.gotos])
  | save slot next => exact ensures_throw ⟨i, _, h.reaches, ⟨_, hi, rfl⟩, rfl⟩
  | look kind next => exact ensures_throw ⟨i, _, h.reaches, ⟨_, hi, rfl⟩, rfl⟩
  | nop next => exact absurd rfl (hne next)

theorem casesAt_refuses (hS : p.Closed S) (h : Comes p S start i) (d : Draft) :
    Ensures (casesAt p i) d (fun _ _ => True) fun e _ => Refused p start e := by
  refine ensures_get_bind ?_
  split
  · exact ensures_pure trivial
  · refine (acceptOnArrival_sure hS h d).bind fun _ d₁ _ => ?_
    refine (walk_refuses (fun _ d hj => instCases_refuses hS hj d) (by simpa using h) d₁).bind
      fun _ d₂ _ => ensures_modify_bind (ensures_pure trivial)

theorem Comes.within (hS : p.Closed S) (h : Comes p S start i) (hj : p.Within i j) :
    Comes p S start j := by
  induction hj with
  | refl => exact h
  | tail _ hb ih =>
    obtain ⟨first, second, hi, hfollow⟩ := hb
    obtain ⟨a, b, ha, hacomes, hb, hbcomes⟩ := ih.branch hS hi
    rcases hfollow with hfollow | hfollow
    · exact Except.ok.inj (ha.symm.trans hfollow) ▸ hacomes
    · exact Except.ok.inj (hb.symm.trans hfollow) ▸ hbcomes

/-- What the cases of a step go on to can be come to as well. -/
theorem Comes.target {cases : List Case} (hS : p.Closed S) (h : Comes p S start i)
    (hstep : p.IsStep i cases) (hj : j ∈ targets cases) : Comes p S start j := by
  obtain ⟨c, hc, target, conditions, ht, rfl⟩ := mem_targets.1 hj
  obtain ⟨k, hk, hlists⟩ := (hstep.mem_iff c).1 hc
  obtain ⟨inst, next, j, rfl, hi, hnext, hfollow, hreach⟩ := hlists.target ht
  have hkcomes := h.within hS hk
  obtain ⟨j', hj', hjS, hjacts⟩ := hS.follow hkcomes.inside hi hnext
  obtain rfl := Except.ok.inj (hfollow.symm.trans hj')
  exact ⟨hjS, hjacts, hkcomes.reaches.trans hreach⟩

theorem explore_refuses (hS : p.Closed S) {fuel : Nat} {queue : List Nat}
    (hqueue : ∀ i ∈ queue, Comes p S start i) (hd : Sound p (fun _ => False) d) :
    Ensures (explore p fuel queue) d (fun _ _ => True) fun e _ => Refused p start e := by
  induction fuel generalizing queue d with
  | zero => exact ensures_pure trivial
  | succ fuel ih =>
    cases queue with
    | nil => exact ensures_pure trivial
    | cons i queue =>
      have hi := hqueue i (by simp)
      refine Ensures.bind (((casesAt_ensures hd i).and (casesAt_refuses hS hi d)).imp
        (fun _ _ h => h.1) fun _ _ h => h.2) fun cases d' h => ensures_get_bind ?_
      obtain ⟨hd', hcases, -⟩ := h
      obtain ⟨i', hii', hstep⟩ := hd'.isStep i cases hcases
      obtain rfl : i = i' := by exact_mod_cast hii'
      refine ih (fun j hj => ?_) hd'
      rcases List.mem_append.1 hj with hj | hj
      · exact hqueue j (List.mem_cons_of_mem i hj)
      · exact hi.target hS hstep (List.mem_of_mem_filter (List.mem_eraseDups.1 hj))

/-- The table of a closed program is refused only for a bar that a run may come to. -/
theorem build_refuses (hS : p.Closed S) (hentry : S p.entry) (d : Draft) :
    Ensures (build p) d (fun _ _ => True) fun e _ => Refused p p.entry e := by
  refine ensures_set_bind ?_
  split
  · exact ensures_pure trivial
  · obtain ⟨i, hskip, hiS, hacts⟩ := hS.skip hentry
    have hcomes : Comes p S p.entry i := ⟨hiS, hacts, (leads_of_skipUpTo hskip).reaches⟩
    refine ofExcept_ok_bind hskip ?_
    have hempty : Sound p (fun _ => False) .empty := by
      constructor <;> simp [Draft.empty]
    exact (explore_refuses hS (by simpa using hcomes) hempty).bind fun _ _ _ =>
      ensures_pure trivial

end DraftM

/-! ## What a finished table has come by -/

namespace DraftM

open Program Draft

/-- The position is skipped to where a step has come by, or to the end of a pattern. -/
def Passed (p : Program) (d : Draft) (i : Nat) : Prop :=
  ∃ j, p.skip i = .ok j ∧ ((∃ s : Nat, d.steps.get? s ≠ none ∧ p.Within s j) ∨
    ∃ index, p.insts[j]? = some (.accept index))

namespace Built

theorem drawn (h : Built p d) {s : Nat} (hs : d.steps.get? s ≠ none) (hj : p.Within s j) :
    p.Drawn j := by
  obtain ⟨cases, -, hstep⟩ := h.exists_isStep hs
  exact hstep.drawn j hj

theorem acts (h : Built p d)
    (hj : (∃ s : Nat, d.steps.get? s ≠ none ∧ p.Within s j) ∨
      ∃ index, p.insts[j]? = some (.accept index)) : Acts p.insts j := by
  rcases hj with ⟨s, hs, hj⟩ | ⟨index, hj⟩
  · obtain ⟨inst, hi, htab⟩ := (h.drawn hs hj).1
    refine ⟨inst, hi, ?_⟩
    rintro g rfl
    exact htab
  · exact ⟨_, hj, by simp⟩

/-- What a byte instruction of a step goes on to is the end of a pattern, or a step. -/
theorem passed_reads (h : Built p d) {s m : Nat} {ranges : List Interval}
    (hs : d.steps.get? s ≠ none) (hi : p.Within s i) (hinst : p.insts[i]? = some inst)
    (hr : inst.reads? = some (ranges, (m : Goto))) (hne : ranges ≠ []) : Passed p d m := by
  obtain ⟨cases, hcases, hstep⟩ := h.exists_isStep hs
  obtain ⟨t, ht⟩ := (hstep.drawn i hi).2 inst ranges m hinst hr
  obtain ⟨r, hrange⟩ := List.exists_mem_of_ne_nil _ hne
  have hmem : ⟨r, t⟩ ∈ cases := (hstep.mem_iff _).2 ⟨i, hi, inst, ranges, m, hinst, hr, hrange, ht⟩
  obtain ⟨j, inst', hj, hinst', hgo⟩ := ht
  obtain ⟨m', hm', hskip⟩ := follow_eq_ok_iff.1 hj
  obtain rfl := Goto.natCast_inj.1 hm'
  refine ⟨j, hskip, ?_⟩
  cases inst' with
  | accept index => exact .inr ⟨index, hinst'⟩
  | save | split | look | char | span | oneOf | nop =>
    exact .inl ⟨j, (h.closed s cases _ j [] hcases hmem hgo).2, .refl⟩

theorem passed_continues (h : Built p d) (hi : Passed p d i) (hm : p.Continues i k) :
    Passed p d k := by
  obtain ⟨j, hskip, hj⟩ := hi
  obtain ⟨inst, hinst, hcont⟩ := hm
  -- an instruction that is not idle is where it is skipped to itself
  have hself (hne : ∀ g, inst ≠ .nop g) (hacc : ∀ index, inst ≠ .accept index) :
      ∃ s : Nat, d.steps.get? s ≠ none ∧ p.Within s i := by
    obtain rfl := Except.ok.inj ((skipUpTo_self hinst hne _).symm.trans hskip)
    refine hj.resolve_right fun hend => ?_
    obtain ⟨index, hend⟩ := hend
    exact hacc index (Option.some.inj (hinst.symm.trans hend))
  cases inst with
  | accept | save | look => exact hcont.elim
  | nop next =>
    obtain rfl : next = k := hcont
    exact ⟨j, skip_nop hinst hskip (h.acts hj), hj⟩
  | split first second =>
    obtain ⟨s, hs, hsi⟩ := hself (by simp) (by simp)
    obtain ⟨inst, hinst', htab⟩ := (h.drawn hs hsi).1
    obtain rfl := Option.some.inj (hinst.symm.trans hinst')
    have hbranch {b : Nat} (hb : p.follow k = .ok b) : Passed p d k := by
      obtain ⟨k', hk', hskip'⟩ := follow_eq_ok_iff.1 hb
      obtain rfl := Goto.natCast_inj.1 hk'
      refine ⟨b, hskip', .inl ⟨s, hs, hsi.tail ⟨_, _, hinst, ?_⟩⟩⟩
      rcases hcont with rfl | rfl
      · exact .inl hb
      · exact .inr hb
    obtain ⟨⟨a, ha⟩, b, hb⟩ := htab
    rcases hcont with rfl | rfl
    · exact hbranch ha
    · exact hbranch hb
  | char byte next =>
    obtain rfl : next = k := hcont
    obtain ⟨s, hs, hsi⟩ := hself (by simp) (by simp)
    exact h.passed_reads hs hsi hinst rfl (by simp)
  | span range next =>
    obtain rfl : next = k := hcont
    obtain ⟨s, hs, hsi⟩ := hself (by simp) (by simp)
    exact h.passed_reads hs hsi hinst rfl (by simp)
  | oneOf ranges next =>
    obtain ⟨hne, rfl⟩ := hcont
    obtain ⟨s, hs, hsi⟩ := hself (by simp) (by simp)
    exact h.passed_reads hs hsi hinst rfl hne

/-- A bar that is passed is in no finished table. -/
theorem not_barAt (h : Built p d) (hi : Passed p d i) : ¬ p.BarAt i construct := by
  rintro ⟨inst, hinst, hbar⟩
  obtain ⟨j, hskip, hj⟩ := hi
  have hne (g : Goto) : inst ≠ .nop g := by
    rintro rfl
    cases hbar
  obtain rfl := Except.ok.inj ((skipUpTo_self hinst hne _).symm.trans hskip)
  rcases hj with ⟨s, hs, hj⟩ | ⟨index, hj⟩
  · obtain ⟨inst', hinst', htab⟩ := (h.drawn hs hj).1
    obtain rfl := Option.some.inj (hinst.symm.trans hinst')
    cases inst with
    | save | look | nop => exact htab
    | accept | split | char | span | oneOf => cases hbar
  · obtain rfl := Option.some.inj (hinst.symm.trans hj)
    cases hbar

theorem not_barred (h : Built p d) (hi : Passed p d i) : ¬ p.Barred i := by
  intro hbarred
  obtain ⟨j, construct, hreach, hbar⟩ := hbarred
  refine h.not_barAt ?_ hbar
  clear hbar
  induction hreach with
  | refl => exact hi
  | tail _ hcont ih => exact h.passed_continues ih hcont

end Built

end DraftM

/-! ## Raw tables -/

open DraftM in
/-- A closed program has a table, or a run from its entry may come to the bar that is blamed. -/
theorem RawTable.ofProgram_cases (hS : p.Closed S) (hentry : S p.entry) :
    (¬ p.Barred p.entry ∧ ∃ raw, RawTable.ofProgram p = .ok raw) ∨
      ∃ j construct, p.Reaches p.entry j ∧ p.BarAt j construct ∧
        RawTable.ofProgram p = .error (unsupported p j construct) := by
  cases hraw : RawTable.ofProgram p with
  | ok raw =>
    obtain ⟨d, i, -, hskip, hbuilt, hi⟩ := RawTable.of_ofProgram (hS.insts_ne hentry) hraw
    exact .inl ⟨hbuilt.not_barred ⟨i, hskip, .inl ⟨i, hi, .refl⟩⟩, raw, rfl⟩
  | error e =>
    unfold RawTable.ofProgram at hraw
    cases hrun : EStateM.run (build p) Draft.empty with
    | ok initial d => rw [hrun] at hraw; cases hraw
    | error e' d =>
      rw [hrun] at hraw
      obtain rfl := Except.error.inj hraw
      obtain ⟨j, construct, hj, hbar, rfl⟩ := (build_refuses hS hentry .empty).of_error hrun
      exact .inr ⟨j, construct, hj, hbar, rfl⟩

end Munch
