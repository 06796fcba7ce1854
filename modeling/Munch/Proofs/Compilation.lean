/-
What a compilation comes to once all patterns parse. Each stage hands the next one what it relies on:
well-formed trees have a program, the program is closed, its table can be resolved, and the resolved
table can be renumbered. So only a set without patterns is empty, and only a bar that a run may come to
is refused (`Machine.compile_cases`): a set compiles just when no tree in it is barred
(`Machine.exists_compile_iff`).
-/
import Munch.Proofs.Machine
import Munch.Proofs.Program.Gates
import Munch.Proofs.Table.Refusal

namespace Munch

variable {patterns : List String} {trees : List Tree} {maxSteps : Option Int} {table : Table}
  {initial : StepId} {n : Nat}

/-- There is nothing to match. -/
def Error.IsEmpty : Error → Prop
  | .rejected ⟨.empty _, _, _⟩ => True
  | _ => False

/-- A pattern asks for something that no table can express. -/
def Error.IsUnsupported : Error → Prop
  | .rejected ⟨.unsupported _ _, _, _⟩ => True
  | _ => False

theorem Error.not_isEmpty {e : Error} (h : e.IsUnsupported) : ¬ e.IsEmpty := by
  intro hempty
  cases e with
  | rejected r =>
    obtain ⟨cause, pattern, index⟩ := r
    cases cause with
    | empty text => exact h
    | stated | malformed | unsupported | ambiguous => exact hempty
  | _ => exact h

namespace Machine

/-- The numbered table of some patterns, and its initial step. -/
def tabulate (patterns : List String) (maxSteps : Option Int) : Except Error (Table × StepId) := do
  let trees ← Tree.parseAll 0 patterns
  let program ← Program.ofTrees trees patterns
  let raw ← RawTable.ofProgram program
  match raw.initial with
  | none => throw (.of (.empty none))
  | some initial =>
    let resolved ← raw.resolve initial program.insts.size maxSteps
    resolved.renumber (some initial)

/-- The machine of a numbered table, if its step ids have a width. -/
def ofTable (patterns : List String) (t : Table × StepId) : Except Error Machine := do
  let machine : Machine := ⟨t.1, t.2, patterns⟩
  let _ ← machine.stepSize
  return machine

theorem compile_eq (patterns : List String) (maxSteps : Option Int) :
    compile patterns maxSteps = tabulate patterns maxSteps >>= ofTable patterns := by
  unfold compile tabulate
  simp only [bind_assoc]
  refine bind_congr fun trees => bind_congr fun p => bind_congr fun raw => ?_
  cases raw.initial with
  | none => rfl
  | some initial =>
    simp only [bind_assoc]
    rfl

/-- The table of the patterns has no more steps than 64 bits can number. -/
def Fits (patterns : List String) : Prop :=
  ∀ table initial, tabulate patterns none = .ok (table, initial) → table.steps.size ≤ 2 ^ 64

end Machine

/-! ## Stages that return -/

/-- Well-formed trees have a closed program, which is barred where one of them is. -/
theorem Program.exists_closed (hne : trees ≠ []) (hwf : ∀ t ∈ trees, t.WellFormed)
    (patterns : List String) :
    ∃ p S, Program.ofTrees trees patterns = .ok p ∧ p.Closed S ∧ S p.entry ∧
      (p.Barred p.entry ↔ ∃ t ∈ trees, t.isBarred = true) := by
  obtain ⟨p, hp, hentry, -, hchained⟩ := Program.exists_ofTrees hwf patterns
  obtain ⟨S, hS, hclosed⟩ := Program.closed_chained hne (fun t ht => (hwf t ht).compilable) hchained
  rw [← hentry] at hchained hS
  exact ⟨p, S, hp, hclosed, hS, Program.barred_chained hne hwf hchained⟩

/-- Where a program has a table, the rest of the compilation goes through. -/
theorem Machine.tabulate_of_raw {p : Program} {raw : RawTable}
    (htrees : Tree.parseAll 0 patterns = .ok trees)
    (hp : Program.ofTrees trees patterns = .ok p) (hne : p.insts ≠ #[])
    (hraw : RawTable.ofProgram p = .ok raw) :
    ∃ table initial, tabulate patterns none = .ok (table, initial) := by
  obtain ⟨d, i, rfl, -, hbuilt, hi⟩ := RawTable.of_ofProgram hne hraw
  have hresolvable := hbuilt.resolvable (some i)
  obtain ⟨resolved, hresolved⟩ := RawTable.exists_resolve hresolvable hi
  obtain ⟨r, all, hall, hmem, -, rfl⟩ := RawTable.explored_of_resolve hresolvable hi hresolved
  have hclosed := (hall.consistent hresolvable).closed
  obtain ⟨table, start, htable⟩ := hclosed.exists_renumber (hall.mem_keys hmem)
  refine ⟨table, start, bind_eq_ok.2 ⟨trees, htrees, bind_eq_ok.2 ⟨p, hp,
    bind_eq_ok.2 ⟨_, hraw, bind_eq_ok.2 ⟨_, hresolved, htable⟩⟩⟩⟩⟩

theorem DraftM.isUnsupported (p : Program) (i : Nat) (construct : Construct) :
    (DraftM.unsupported p i construct).IsUnsupported :=
  trivial

/-- Patterns that parse have a table unless one of their trees is barred. -/
theorem Machine.tabulate_cases (hne : patterns ≠ [])
    (hparse : patterns.map Tree.parse = trees.map .ok) :
    ((∀ t ∈ trees, t.isBarred = false) ∧
        ∃ table initial, tabulate patterns none = .ok (table, initial)) ∨
      (∃ t ∈ trees, t.isBarred = true) ∧
        ∃ e, tabulate patterns none = .error e ∧ e.IsUnsupported := by
  have hwf (t : Tree) (ht : t ∈ trees) : t.WellFormed := Tree.wellFormed_of_mem hparse ht
  have hnetrees : trees ≠ [] := by
    rintro rfl
    exact hne (List.map_eq_nil_iff.1 hparse)
  have htrees : Tree.parseAll 0 patterns = .ok trees := Tree.parseAll_of_map hparse
  obtain ⟨p, S, hp, hclosed, hentry, hbarred⟩ := Program.exists_closed hnetrees hwf patterns
  rcases RawTable.ofProgram_cases hclosed hentry with
    ⟨hnot, raw, hraw⟩ | ⟨j, construct, hreach, hbar, herror⟩
  · refine .inl ⟨fun t ht => ?_,
      Machine.tabulate_of_raw htrees hp (hclosed.insts_ne hentry) hraw⟩
    rw [← Bool.not_eq_true]
    exact fun hbar => hnot (hbarred.2 ⟨t, ht, hbar⟩)
  · refine .inr ⟨hbarred.1 ⟨j, construct, hreach, hbar⟩, _, ?_, DraftM.isUnsupported p j construct⟩
    rw [tabulate, htrees]
    simp only [bind, Except.bind, hp, herror]

/-! ## Step ids -/

/-- A step id below `2 ^ 64` has a width. -/
theorem exists_stepSize {last : StepId} (h : last < 2 ^ 64) : ∃ size, stepSize last = .ok size := by
  have hsome : (stepSizes.find? fun bits => last < Int.pow 2 bits).isSome = true :=
    List.find?_isSome.2 ⟨64, by simp [stepSizes], decide_eq_true h⟩
  obtain ⟨size, hsize⟩ := Option.isSome_iff_exists.1 hsome
  exact ⟨size, by rw [stepSize, hsize]⟩

theorem Machine.exists_stepSize {m : Machine} (h : m.table.Numbered n)
    (hi : m.initial ∈ m.table.steps.keys) (hle : n ≤ 2 ^ 64) : ∃ size, m.stepSize = .ok size := by
  obtain ⟨last, hlast⟩ := Option.isSome_iff_exists.1
    (List.isSome_max?_of_mem hi : m.table.steps.keys.max?.isSome = true)
  have hlt := h.lt_of_mem (List.max?_mem hlast)
  have hn : (n : Int) ≤ 2 ^ 64 := by exact_mod_cast hle
  obtain ⟨size, hsize⟩ := Munch.exists_stepSize (Int.lt_of_lt_of_le hlt hn)
  refine ⟨size, bind_eq_ok.2 ⟨last, ?_, hsize⟩⟩
  rw [lastStep, hlast]

namespace Machine

/-- A table of the patterns is numbered, and its initial step is one of it. -/
theorem numbered_of_tabulate (h : tabulate patterns maxSteps = .ok (table, initial)) :
    ∃ n, table.Numbered n ∧ initial ∈ table.steps.keys := by
  obtain ⟨trees, -, h⟩ := bind_eq_ok.1 h
  obtain ⟨p, -, h⟩ := bind_eq_ok.1 h
  obtain ⟨raw, -, h⟩ := bind_eq_ok.1 h
  split at h
  · cases h
  · obtain ⟨resolved, -, h⟩ := bind_eq_ok.1 h
    exact ⟨_, Table.numbered h, Table.mem_keys_of_rank h (Table.forall₂_of_renumber h).2.2⟩

theorem fits_of_size {size : Nat}
    (h : (tabulate patterns none >>= fun t => pure t.1.steps.size).toOption = some size)
    (hle : size ≤ 2 ^ 64) : Fits patterns := by
  intro table initial htable
  rw [htable] at h
  rwa [show table.steps.size = size from Option.some.inj h]

/-- A table that fits gets a machine. -/
theorem exists_of_tabulate (hfits : Fits patterns)
    (h : tabulate patterns none = .ok (table, initial)) : ∃ m, compile patterns none = .ok m := by
  obtain ⟨n, hn, hi⟩ := numbered_of_tabulate h
  have hle : n ≤ 2 ^ 64 := hn.size_eq ▸ hfits table initial h
  have hsize : ∃ size, (⟨table, initial, patterns⟩ : Machine).stepSize = .ok size :=
    exists_stepSize hn hi hle
  obtain ⟨size, hsize⟩ := hsize
  rw [compile_eq]
  exact ⟨_, bind_eq_ok.2 ⟨_, h, bind_eq_ok.2 ⟨size, hsize, rfl⟩⟩⟩

theorem compile_nil (maxSteps : Option Int) : compile [] maxSteps = .error (.of (.empty none)) := by
  rfl

/-- Patterns that parse make a machine unless one of their trees is barred. -/
theorem compile_parsed (hne : patterns ≠ []) (hparse : ∀ q ∈ patterns, ∃ t, Tree.parse q = .ok t)
    (hfits : Fits patterns) :
    (∀ q ∈ patterns, ∃ t, Tree.parse q = .ok t ∧ t.isBarred = false) ∧
        (∃ m, compile patterns none = .ok m) ∨
      (∃ q ∈ patterns, ∃ t, Tree.parse q = .ok t ∧ t.isBarred = true) ∧
        ∃ e, compile patterns none = .error e ∧ e.IsUnsupported := by
  obtain ⟨trees, htrees⟩ := Tree.exists_trees hparse
  rcases tabulate_cases hne htrees with ⟨hnone, table, initial, h⟩ | ⟨⟨t, ht, hbar⟩, e, h, he⟩
  · refine .inl ⟨fun q hq => ?_, exists_of_tabulate hfits h⟩
    obtain ⟨t, ht, htq⟩ := List.mem_map.1 (htrees ▸ List.mem_map_of_mem hq)
    exact ⟨t, htq.symm, hnone t ht⟩
  · obtain ⟨q, hq, htq⟩ := List.mem_map.1 (htrees ▸ List.mem_map_of_mem ht)
    refine .inr ⟨⟨q, hq, t, htq, hbar⟩, e, ?_, he⟩
    rw [compile_eq, h]
    rfl

/-- A set that has patterns compiles just if they all parse, to trees that are not barred. -/
theorem exists_compile_iff (hne : patterns ≠ []) (hfits : Fits patterns) :
    (∃ m, compile patterns none = .ok m) ↔
      ∀ q ∈ patterns, ∃ t, Tree.parse q = .ok t ∧ t.isBarred = false := by
  constructor
  · intro h
    obtain ⟨m, hm⟩ := h
    obtain ⟨trees, _, _, _, _, _, _, htrees, -⟩ := Machine.of_compile hm
    have hparse (q : String) (hq : q ∈ patterns) : ∃ t, Tree.parse q = .ok t := by
      have hmem := List.mem_map_of_mem (f := Tree.parse) hq
      rw [Tree.map_parse_of_parseAll htrees] at hmem
      obtain ⟨t, -, ht⟩ := List.mem_map.1 hmem
      exact ⟨t, ht.symm⟩
    rcases compile_parsed hne hparse hfits with ⟨hnone, -⟩ | ⟨-, e, he, -⟩
    · exact hnone
    · rw [hm] at he
      cases he
  · intro h
    have hparse (q : String) (hq : q ∈ patterns) : ∃ t, Tree.parse q = .ok t :=
      (h q hq).imp fun _ ht => ht.1
    rcases compile_parsed hne hparse hfits with ⟨-, hm⟩ | ⟨⟨q, hq, t, ht, hbar⟩, -⟩
    · exact hm
    · obtain ⟨t', ht', hnot⟩ := h q hq
      obtain rfl := Except.ok.inj (ht.symm.trans ht')
      rw [hbar] at hnot
      cases hnot

/-- **Patterns that parse make a machine, or one of them asks for what no table can express.** Without
patterns there is nothing to match. The cases that the steps of a table are resolved from lie on the
same bytes or on none in common. -/
theorem compile_cases (hparse : ∀ q ∈ patterns, ∃ t, Tree.parse q = .ok t) (hfits : Fits patterns) :
    ((∃ e, compile patterns none = .error e ∧ e.IsEmpty) ↔ patterns = []) ∧
      (patterns ≠ [] →
        (∀ q ∈ patterns, ∃ t, Tree.parse q = .ok t ∧ t.isBarred = false) ∧
            (∃ m, compile patterns none = .ok m) ∨
          (∃ q ∈ patterns, ∃ t, Tree.parse q = .ok t ∧ t.isBarred = true) ∧
            ∃ e, compile patterns none = .error e ∧ e.IsUnsupported) ∧
      ∀ cases, ∀ c ∈ cutCases cases, ∀ d ∈ cutCases cases,
        c.range.overlaps d.range = true → c.range = d.range := by
  refine ⟨⟨fun h => ?_, ?_⟩, fun hne => compile_parsed hne hparse hfits,
    fun cases c hc d hd => range_eq_of_overlaps hc hd⟩
  · obtain ⟨e, he, hempty⟩ := h
    by_contra hne
    rcases compile_parsed hne hparse hfits with ⟨-, m, hm⟩ | ⟨-, e', he', hunsupported⟩
    · rw [hm] at he
      cases he
    · obtain rfl := Except.error.inj (he.symm.trans he')
      exact Error.not_isEmpty hunsupported hempty
  · rintro rfl
    exact ⟨_, compile_nil none, trivial⟩

/-- Three patterns whose table has a merged step. -/
theorem compile_cases_merged :
    (∀ q ∈ ["a", "ab", "[a-c]b*c"], ∃ t, Tree.parse q = .ok t) ∧ Fits ["a", "ab", "[a-c]b*c"] ∧
      ∃ m, compile ["a", "ab", "[a-c]b*c"] none = .ok m := by
  have hparse : ∀ q ∈ ["a", "ab", "[a-c]b*c"], ∃ t, Tree.parse q = .ok t := by
    have hall : (["a", "ab", "[a-c]b*c"].all fun q => (Tree.parse q).toOption.isSome) = true := by
      decide +kernel
    exact fun q hq => isSome_toOption.1 (List.all_eq_true.1 hall q hq)
  have hsize : (tabulate ["a", "ab", "[a-c]b*c"] none >>= fun t => pure t.1.steps.size).toOption =
      some 5 := by decide +kernel
  have hfits := fits_of_size hsize (by decide)
  have hok : (compile ["a", "ab", "[a-c]b*c"] none).toOption.isSome = true := by decide +kernel
  rcases (compile_cases hparse hfits).2.1 (by decide) with ⟨-, hm⟩ | ⟨-, e, he, -⟩
  · exact ⟨hparse, hfits, hm⟩
  · rw [he] at hok
    cases hok

end Machine

end Munch
