/-
A pattern set finds the longest match. Each stage of the compiler keeps what may be finished: the
parser gives trees that programs can be made of, the program finishes what the trees denote, the raw
table what the program does, and resolving and renumbering do not change what a table finds
(`Machine.run_longest`).
-/
import Mathlib.Order.Bounds.Defs
import Munch.PatternSet
import Munch.Proofs.Emit.Routine
import Munch.Proofs.Pattern.Parser
import Munch.Proofs.Program.OfTrees
import Munch.Proofs.Table.Longest
import Munch.Proofs.Table.Renumbering
import Munch.Proofs.Table.Simulation

namespace Munch

variable {patterns : List String} {trees : List Tree} {machine : Machine} {maxSteps : Option Int}
  {p : Program} {d : Draft}

/-! ## Stages -/

theorem Tree.parseAll_cons (index : Nat) (q : String) (rest : List String) :
    Tree.parseAll index (q :: rest) = match Tree.parse q with
      | .error e => .error (e.inPattern q index)
      | .ok t => return t :: (← Tree.parseAll (index + 1) rest) := by
  rfl

theorem Tree.map_parse_of_parseAll {index : Nat} (h : Tree.parseAll index patterns = .ok trees) :
    patterns.map Tree.parse = trees.map .ok := by
  induction patterns generalizing index trees with
  | nil =>
    obtain rfl := Except.ok.inj h
    rfl
  | cons q rest ih =>
    rw [Tree.parseAll_cons] at h
    split at h
    · cases h
    · next t ht =>
      obtain ⟨ts, hts, h⟩ := bind_eq_ok.1 h
      obtain rfl := Except.ok.inj h
      rw [List.map_cons, List.map_cons, ht, ih hts]

theorem Tree.parseAll_of_map {index : Nat} (h : patterns.map Tree.parse = trees.map .ok) :
    Tree.parseAll index patterns = .ok trees := by
  induction patterns generalizing index trees with
  | nil =>
    obtain rfl := List.map_eq_nil_iff.1 h.symm
    rfl
  | cons q rest ih =>
    obtain ⟨t, ts, rfl, ht, hts⟩ := List.map_eq_cons_iff.1 h.symm
    rw [Tree.parseAll_cons, ← ht]
    exact bind_eq_ok.2 ⟨ts, ih hts.symm, rfl⟩

/-- Patterns that all parse have their trees. -/
theorem Tree.exists_trees (h : ∀ q ∈ patterns, ∃ t, Tree.parse q = .ok t) :
    ∃ trees : List Tree, patterns.map Tree.parse = trees.map .ok := by
  induction patterns with
  | nil => exact ⟨[], rfl⟩
  | cons q rest ih =>
    obtain ⟨t, ht⟩ := h q (by simp)
    obtain ⟨ts, hts⟩ := ih fun r hr => h r (by simp [hr])
    exact ⟨t :: ts, by rw [List.map_cons, List.map_cons, ht, hts]⟩

theorem Tree.wellFormed_of_mem (h : patterns.map Tree.parse = trees.map .ok) {t : Tree}
    (ht : t ∈ trees) : t.WellFormed := by
  have hmem : Except.ok t ∈ patterns.map Tree.parse := h ▸ List.mem_map_of_mem ht
  obtain ⟨q, -, hq⟩ := List.mem_map.1 hmem
  exact Tree.wellFormed_of_parse hq

/-- The table of a program has no gaps, so it can be resolved. -/
theorem DraftM.Built.resolvable (h : DraftM.Built p d) (initial : Option StepId) :
    RawTable.Resolvable ⟨d.table, d.acceptors, initial⟩ p.insts.size where
  goes := h.closed
  ends s index hs := (h.hasStep s index hs).resolve_right id
  accepting s cases c index hs hc ht := by
    obtain ⟨step, hstep⟩ := Option.ne_none_iff_exists'.1 (h.accepts s cases c index hs hc ht)
    exact .inl ⟨step, hstep, (h.acceptor index step hstep).2⟩
  free s hs := by
    obtain ⟨cases, hcases⟩ := Option.ne_none_iff_exists'.1 hs
    obtain ⟨i, rfl, hstep⟩ := h.isStep s cases hcases
    obtain ⟨inst, hi, -⟩ := hstep.settled i .refl
    obtain ⟨hlt, -⟩ := Array.getElem?_eq_some_iff.1 hi
    exact Int.ofNat_lt.2 hlt

/-- An empty program has no step to start in. -/
theorem RawTable.initial_of_empty {raw : RawTable} (hp : p.insts = #[])
    (h : RawTable.ofProgram p = .ok raw) : raw.initial = none := by
  obtain rfl := Except.ok.inj ((RawTable.ofProgram_of_empty hp).symm.trans h)
  rfl

/-- The stages of a compilation that returns. -/
theorem Machine.of_compile (h : Machine.compile patterns maxSteps = .ok machine) :
    ∃ trees p raw initial resolved table start, Tree.parseAll 0 patterns = .ok trees ∧
      Program.ofTrees trees patterns = .ok p ∧ RawTable.ofProgram p = .ok raw ∧
      raw.initial = some initial ∧
      raw.resolve initial p.insts.size maxSteps = .ok resolved ∧
      resolved.renumber (some initial) = .ok (table, start) ∧
      machine = ⟨table, start, patterns⟩ := by
  obtain ⟨trees, htrees, h⟩ := bind_eq_ok.1 h
  obtain ⟨p, hp, h⟩ := bind_eq_ok.1 h
  obtain ⟨raw, hraw, h⟩ := bind_eq_ok.1 h
  split at h
  · cases h
  · next initial hinitial =>
    obtain ⟨resolved, hresolved, h⟩ := bind_eq_ok.1 h
    obtain ⟨⟨table, start⟩, htable, h⟩ := bind_eq_ok.1 h
    obtain ⟨size, -, h⟩ := bind_eq_ok.1 h
    exact ⟨trees, p, raw, initial, resolved, table, start, htrees, hp, hraw, hinitial, hresolved,
      htable, (Except.ok.inj h).symm⟩

/-! ## Matches -/

/-- One of the trees denotes the bytes; the index is its place. -/
def Tree.DenotesAt (trees : List Tree) (w : List UInt8) (index : Int) : Prop :=
  ∃ (n : Nat) (t : Tree), index = n ∧ trees[n]? = some t ∧ t.Denotes w

/-- The machine of some patterns finds the longest of the prefixes that their trees denote. -/
theorem Machine.run_longest (h : Machine.compile patterns maxSteps = .ok machine) :
    ∃ trees, patterns.map Tree.parse = trees.map .ok ∧ ∀ (offset : Nat) (data : List UInt8),
      ∃ hit, machine.run offset data = .ok hit ∧
        Longest (Tree.DenotesAt trees) offset data hit := by
  obtain ⟨trees, p, raw, initial, resolved, table, start, htrees, hp, hraw, hinitial, hresolved,
    htable, rfl⟩ := Machine.of_compile h
  have hparse := Tree.map_parse_of_parseAll htrees
  have hwf (t : Tree) (ht : t ∈ trees) : t.WellFormed := Tree.wellFormed_of_mem hparse ht
  refine ⟨trees, hparse, fun offset data => ?_⟩
  have hne : p.insts ≠ #[] := by
    intro hempty
    rw [RawTable.initial_of_empty hempty hraw] at hinitial
    cases hinitial
  obtain ⟨d, i, rfl, hskip, hbuilt, hi⟩ := RawTable.of_ofProgram hne hraw
  obtain rfl := Option.some.inj hinitial
  have hresolvable := hbuilt.resolvable (some i)
  obtain ⟨hrenumbers, hrank⟩ := Table.renumbers_of_renumber htable
  have hends := RawTable.ends_of_resolve hresolvable hi hresolved
  have hrun := RawTable.run_of_resolve hresolvable hi hresolved
    ((d.table.ends.get? i).map (⟨·, offset⟩)) offset data
  refine ⟨d.table.findThreads i offset data, ?_, ?_⟩
  · rw [Machine.run]
    simp only [hrenumbers.ends _ _ hrank, hends]
    exact hrenumbers.run_eq hrank hrun
  · refine (hbuilt.findThreads_longest hi offset data).congr fun w k => ?_
    obtain ⟨q, hq, hentry, hempty, hchained⟩ := Program.exists_ofTrees hwf patterns
    obtain rfl := Except.ok.inj (hp.symm.trans hq)
    exact (Program.finishesFrom_skip hskip).symm.trans
      (Program.finishes_chained hentry hempty hwf hchained)

namespace PatternSet

variable {s : PatternSet} {options : Options} {room : Option Nat} {data : List UInt8}
  {start stop : Nat} {index : Int}

/-- The pattern with the index matches the bytes from `start` up to `stop`. -/
def Matches (trees : List Tree) (data : List UInt8) (start stop : Nat) (index : Int) : Prop :=
  start ≤ stop ∧ stop ≤ data.length ∧
    Tree.DenotesAt trees ((data.drop start).take (stop - start)) index

theorem matches_iff (hstart : start ≤ data.length) : Matches trees data start stop index ↔
    ∃ u, u <+: data.drop start ∧ stop = start + u.length ∧ Tree.DenotesAt trees u index := by
  constructor
  · intro h
    obtain ⟨hle, hstop, hdenotes⟩ := h
    refine ⟨_, List.take_prefix _ _, ?_, hdenotes⟩
    rw [List.length_take, List.length_drop]
    omega
  · intro h
    obtain ⟨u, hu, rfl, hdenotes⟩ := h
    have hlen := hu.length_le
    rw [List.length_drop] at hlen
    refine ⟨by omega, by omega, ?_⟩
    rw [Nat.add_sub_cancel_left, ← List.prefix_iff_eq_take.1 hu]
    exact hdenotes

/-- A compiled set matches with its machine, or with the function emitted for it. -/
theorem machine_of_compile (h : compile patterns options room = .ok s) :
    Machine.compile patterns options.maxSteps = .ok s.machine ∧
      (options.useCodegen = false ∧ s.function = none ∨ options.useCodegen = true ∧
        s.function = some (s.machine.matcher options.functionName)) := by
  obtain ⟨-, -, h⟩ := bind_eq_ok.1 h
  obtain ⟨machine, hmachine, h⟩ := bind_eq_ok.1 h
  unfold ofMachine at h
  split at h
  · next hc =>
    obtain ⟨r, hr, h⟩ := bind_eq_ok.1 h
    obtain ⟨f, hload, h⟩ := bind_eq_ok.1 h
    obtain rfl := Except.ok.inj h
    exact ⟨hmachine, .inr ⟨hc, congrArg some ((Machine.load_eq_ok_iff hr).1 hload).1⟩⟩
  · next hc =>
    obtain rfl := Except.ok.inj h
    exact ⟨hmachine, .inl ⟨by simpa using hc, rfl⟩⟩

theorem of_compile (h : compile patterns options room = .ok s) (hc : options.useCodegen = false) :
    Machine.compile patterns options.maxSteps = .ok s.machine ∧ s.function = none := by
  obtain ⟨hmachine, ⟨-, hnone⟩ | ⟨hc', -⟩⟩ := machine_of_compile h
  · exact ⟨hmachine, hnone⟩
  · cases hc.symm.trans hc'

theorem find_of_run {hit : Option Hit} (hstart : start ≤ data.length)
    (h : s.run start (data.drop start) = .ok hit) :
    s.find data start = .ok (hit.map (toMatch start (data.drop start))) := by
  have hrange : 0 ≤ (start : Int) ∧ (start : Int) ≤ data.length := by omega
  rw [find, if_pos hrange]
  exact bind_eq_ok.2 ⟨hit, h, rfl⟩

theorem find_eq {hit : Option Hit} (hs : s.function = none) (hstart : start ≤ data.length)
    (h : s.machine.run start (data.drop start) = .ok hit) :
    s.find data start = .ok (hit.map (toMatch start (data.drop start))) := by
  refine find_of_run hstart ?_
  rw [run, hs]
  exact h

/-- A run of a compiled set finds the longest of the prefixes that its trees denote, unless the set
matches with a function that calls itself. -/
theorem run_longest (h : compile patterns options room = .ok s)
    (hname : options.useCodegen = true → options.functionName ≠ Routine.lengthName) :
    ∃ trees, patterns.map Tree.parse = trees.map .ok ∧ ∀ (offset : Nat) (rest : List UInt8),
      ∃ hit, s.run offset rest = .ok hit ∧ Longest (Tree.DenotesAt trees) offset rest hit := by
  obtain ⟨hmachine, hfunction⟩ := machine_of_compile h
  obtain ⟨trees, htrees, hrun⟩ := Machine.run_longest hmachine
  refine ⟨trees, htrees, fun offset rest => ?_⟩
  obtain ⟨hit, hhit, hlongest⟩ := hrun offset rest
  refine ⟨hit, ?_, hlongest⟩
  rcases hfunction with ⟨-, hnone⟩ | ⟨hc, hsome⟩
  · rw [run, hnone]
    exact hhit
  · rw [run, hsome]
    exact Machine.run_matcher_of_run (hname hc) hhit

/-- **A pattern set finds the longest match, and the first of the patterns that match so far.** -/
theorem find_longest (h : compile patterns options = .ok s) (hc : options.useCodegen = false) :
    ∃ trees, patterns.map Tree.parse = trees.map .ok ∧
      ∀ (data : List UInt8) (start : Nat), start ≤ data.length →
        ∃ found, s.find data start = .ok found ∧
          (found = none ↔ ∀ stop index, ¬ Matches trees data start stop index) ∧
          ∀ m ∈ found, m.start = start ∧
            IsGreatest {stop | ∃ index, Matches trees data start stop index} m.stop ∧
            IsLeast {index | Matches trees data start m.stop index} m.index := by
  obtain ⟨hmachine, hfunction⟩ := of_compile h hc
  obtain ⟨trees, htrees, hrun⟩ := Machine.run_longest hmachine
  refine ⟨trees, htrees, fun data start hstart => ?_⟩
  obtain ⟨hit, hhit, hlongest⟩ := hrun start (data.drop start)
  refine ⟨_, find_eq hfunction hstart hhit, ?_⟩
  simp only [matches_iff hstart]
  cases hit with
  | none =>
    refine ⟨⟨fun _ stop index hmatch => ?_, fun _ => rfl⟩, by simp⟩
    obtain ⟨u, hu, -, hdenotes⟩ := hmatch
    exact hlongest u hu index hdenotes
  | some hit =>
    obtain ⟨u, hu, hstop, hleast, hmax⟩ := hlongest
    refine ⟨⟨fun hn => (by cases hn), fun hnone => ?_⟩, fun m hm => ?_⟩
    · exact absurd ⟨u, hu, hstop, hleast.1⟩ (hnone hit.stop hit.index)
    · obtain rfl := Option.some.inj hm
      refine ⟨rfl, ⟨⟨hit.index, u, hu, hstop, hleast.1⟩, ?_⟩, ⟨u, hu, hstop, hleast.1⟩, ?_⟩
      · intro stop hmatch
        obtain ⟨index, v, hv, rfl, hdenotes⟩ := hmatch
        show start + v.length ≤ hit.stop
        have hle := hmax v hv index hdenotes
        omega
      · intro index hmatch
        obtain ⟨v, hv, hvstop, hdenotes⟩ := hmatch
        have hlen : v.length = u.length := by
          have : hit.stop = start + v.length := hvstop
          omega
        obtain rfl : v = u := (List.prefix_of_prefix_length_le hv hu hlen.le).eq_of_length hlen
        exact hleast.2 index hdenotes

/-- The first pattern matches two of the bytes at most, the second one all three. -/
theorem find_longest_second : ∃ s, compile ["a|ab", "ab*"] .standard = .ok s ∧
    Options.standard.useCodegen = false ∧ ∃ trees,
      ["a|ab", "ab*"].map Tree.parse = trees.map .ok ∧
      IsGreatest {stop | ∃ index, Matches trees [97, 98, 98] 0 stop index} 3 ∧
      IsLeast {index | Matches trees [97, 98, 98] 0 3 index} 1 := by
  have hrun : (compile ["a|ab", "ab*"] .standard >>= fun s => s.find [97, 98, 98] 0 >>= fun m =>
      pure (m.map fun m => (m.stop, m.index))).toOption = some (some (3, 1)) := by decide +kernel
  cases hs : compile ["a|ab", "ab*"] .standard with
  | error e =>
    rw [hs] at hrun
    cases hrun
  | ok s =>
    obtain ⟨trees, htrees, hfind⟩ := find_longest hs rfl
    obtain ⟨found, hfound, -, hsome⟩ := hfind [97, 98, 98] 0 (by decide)
    rw [hs] at hrun
    replace hrun : (s.find [97, 98, 98] 0 >>= fun m =>
      pure (m.map fun m => (m.stop, m.index))).toOption = some (some (3, 1)) := hrun
    rw [show s.find [97, 98, 98] 0 = .ok found from hfound] at hrun
    replace hrun := Option.some.inj hrun
    obtain ⟨m, rfl, hm⟩ := Option.map_eq_some_iff.1 hrun
    obtain ⟨hstop, hindex⟩ := Prod.mk.inj hm
    obtain ⟨-, hgreatest, hleast⟩ := hsome m rfl
    rw [hstop] at hgreatest hleast
    rw [hindex] at hleast
    exact ⟨s, rfl, rfl, trees, htrees, hgreatest, hleast⟩

end PatternSet

end Munch
