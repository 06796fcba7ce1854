/-
What the raw table of a program says of the program. Each step is a position: its cases are those of
the byte instructions that are reached from there through edges, in depth-first order, and its end is
the lowest pattern that is finished there. So the cases and the ends, which are worked out by two
walks, tell of the same closure, whatever was known of a step before (`RawTable.ofProgram_mirrors`).
-/
import Munch.Program.OfTrees
import Munch.Proofs.Answers
import Munch.Proofs.Table.Runs

namespace Munch

variable {p : Program} {d : Draft} {i : Nat} {index : Int}

/-- The end of the pattern is reached through edges. -/
def Program.LeadsToEnd (p : Program) (i : Nat) (index : Int) : Prop :=
  ∃ j, p.Leads i j ∧ p.insts[j]? = some (.accept index)

/-- The raw table says of each of its steps what the program says of the position. -/
structure RawTable.Mirrors (raw : RawTable) (p : Program) : Prop where
  /-- The cases of a step come from what is reached through edges, each position once. -/
  cases : ∀ s cases, raw.table.steps.get? s = some cases → ∃ (i : Nat) (order : List Nat), s = i ∧
    p.DepthFirst [] [(i : Goto)] order ∧ order.Nodup ∧ (∀ j, j ∈ order ↔ p.Leads i j) ∧
    p.Listing order cases
  /-- A step has an end if one is reached through edges, which is the lowest of these. -/
  ends : ∀ i : Nat, raw.table.steps.get? i ≠ none → Least (p.LeadsToEnd i) (raw.table.ends.get? i)
  /-- Nothing but a step has an end. -/
  hasStep : ∀ s index, raw.table.ends.get? s = some index → raw.table.steps.get? s ≠ none
  /-- The table has the step to start in, which only an empty program lacks. -/
  initial : ∀ s, raw.initial = some s → raw.table.steps.get? s ≠ none
  initial_eq_none : raw.initial = none ↔ p.insts = #[]
  /-- The table has all steps that its cases go on to. -/
  closed : ∀ s cases c target conditions, raw.table.steps.get? s = some cases → c ∈ cases →
    c.transition = .go target conditions → raw.table.steps.get? target ≠ none
  /-- The acceptor of a pattern is a step that ends it. -/
  acceptor : ∀ index s, raw.acceptors.get? index = some s →
    raw.table.steps.get? s ≠ none ∧ raw.table.ends.get? s = some index
  /-- Every pattern whose end is reached from a step has an acceptor, and no other one. -/
  found : ∀ index, raw.acceptors.get? index ≠ none ↔
    ∃ i : Nat, raw.table.steps.get? i ≠ none ∧ p.LeadsToEnd i index
  /-- So has every pattern that a case accepts. -/
  accepts : ∀ s cases c index, raw.table.steps.get? s = some cases → c ∈ cases →
    c.transition = .accept index → raw.acceptors.get? index ≠ none

namespace DraftM.Built

theorem leadsToEnd_iff (h : Built p d) (hi : d.steps.get? i ≠ none) :
    p.LeadsToEnd i index ↔ p.Ends i index := by
  obtain ⟨cases, -, hstep⟩ := h.exists_isStep hi
  exact hstep.settled.leads_accept_iff

/-- An acceptor is where the end of its pattern is found. -/
theorem exists_leadsToEnd (h : Built p d) (hacc : d.acceptors.get? index ≠ none) :
    ∃ i : Nat, d.steps.get? i ≠ none ∧ p.LeadsToEnd i index := by
  obtain ⟨s, hs⟩ := Option.ne_none_iff_exists'.1 hacc
  obtain ⟨hstep, hend⟩ := h.acceptor index s hs
  obtain ⟨i, rfl, hleast⟩ := h.least s index hend
  exact ⟨i, hstep, (h.leadsToEnd_iff hstep).2 hleast.1⟩

theorem mirrors (h : Built p d) (hi : d.steps.get? i ≠ none) (hne : p.insts ≠ #[]) :
    RawTable.Mirrors ⟨d.table, d.acceptors, some i⟩ p where
  cases s cases hs := by
    obtain ⟨j, rfl, hstep⟩ := h.isStep s cases hs
    obtain ⟨order, horder, hlisting⟩ := hstep.listing
    exact ⟨j, order, rfl, horder, horder.nodup.1, fun k => horder.mem_iff, hlisting⟩
  ends j hj := (h.least_ends hj).congr fun index => (h.leadsToEnd_iff hj).symm
  hasStep s index hs := (h.hasStep s index hs).resolve_right id
  initial s hs := by
    obtain rfl := Option.some.inj hs
    exact hi
  initial_eq_none := by simp [hne]
  closed s cases c target conditions hs hc ht := (h.closed s cases c target conditions hs hc ht).2
  acceptor := h.acceptor
  found index := by
    refine ⟨h.exists_leadsToEnd, fun hfound => ?_⟩
    obtain ⟨j, hj, hend⟩ := hfound
    obtain ⟨cases, hcases, -⟩ := h.exists_isStep hj
    exact h.found j cases index hcases ((h.leadsToEnd_iff hj).1 hend)
  accepts := h.accepts

end DraftM.Built

namespace RawTable

theorem mirrors_of_empty (hempty : p.insts = #[]) :
    RawTable.Mirrors ⟨⟨.empty, .empty⟩, .empty, none⟩ p := by
  constructor
  all_goals simp [hempty]

/-- **The two walks of a step tell of the same closure.** -/
theorem ofProgram_mirrors {raw : RawTable} (h : RawTable.ofProgram p = .ok raw) :
    raw.Mirrors p := by
  by_cases hempty : p.insts = #[]
  · rw [ofProgram_of_empty hempty] at h
    obtain rfl := Except.ok.inj h
    exact mirrors_of_empty hempty
  · obtain ⟨d, i, rfl, -, hbuilt, hi⟩ := of_ofProgram hempty h
    exact hbuilt.mirrors hi hempty

/-- A loop with an idle instruction on its way back, and a loop inside of a loop. -/
theorem ofProgram_mirrors_loops : ∃ p raw,
    Program.ofTrees [.concat [.repeated (.alt [.symbol (.single 97), .epsilon]) 0 none true,
      .symbol (.single 98)], .repeated (.repeated (.symbol (.single 97)) 0 none true) 0 none true]
      ["(?:a|)*b", "(?:a*)*"] = .ok p ∧
    RawTable.ofProgram p = .ok raw ∧ raw.Mirrors p ∧
    raw.table.steps.get? 0 =
      some [⟨⟨97, 97⟩, .go 1 []⟩, ⟨⟨98, 98⟩, .accept 0⟩, ⟨⟨97, 97⟩, .go 8 []⟩] ∧
    raw.table.ends.get? 0 = some 1 := by
  have hrun : (Program.ofTrees
      [.concat [.repeated (.alt [.symbol (.single 97), .epsilon]) 0 none true,
        .symbol (.single 98)],
        .repeated (.repeated (.symbol (.single 97)) 0 none true) 0 none true]
      ["(?:a|)*b", "(?:a*)*"]).toOption.bind (fun p => (RawTable.ofProgram p).toOption.map
        fun raw => (raw.table.steps.get? 0, raw.table.ends.get? 0)) =
      some (some [⟨⟨97, 97⟩, .go 1 []⟩, ⟨⟨98, 98⟩, .accept 0⟩, ⟨⟨97, 97⟩, .go 8 []⟩],
        some 1) := by decide +kernel
  obtain ⟨p, hp, hrun⟩ := Option.bind_eq_some_iff.1 hrun
  obtain ⟨raw, hraw, hrun⟩ := Option.map_eq_some_iff.1 hrun
  obtain ⟨hsteps, hends⟩ := Prod.mk.inj hrun
  have hok := toOption_eq_some.1 hraw
  exact ⟨p, raw, toOption_eq_some.1 hp, hok, ofProgram_mirrors hok, hsteps, hends⟩

end RawTable

end Munch
