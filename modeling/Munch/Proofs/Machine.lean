/-
Compiled machines are well formed (`wellFormed_of_compile`). The raw table of a set reads bytes only,
because its program does; resolving it leaves cases that are in order, lie on the same bytes and name
only steps that are resolved themselves; renumbering keeps all this and leaves no gaps.
-/
import Munch.Proofs.PatternSet
import Munch.Proofs.Program.Bytes
import Munch.Proofs.Table.Numbered

namespace Munch

open Resolution ResolutionM

variable {raw : RawTable} {first s : StepId} {limit : Option Int} {r : Resolution} {p : Program}
  {d : Draft} {c : Case} {patterns : List String} {maxSteps : Option Int} {machine : Machine}

/-- The intervals of all cases are made of bytes. -/
def Table.OnBytes (t : Table) : Prop :=
  ∀ s c, t.HasCase s c → c.range.Within Interval.minByte Interval.maxByte

/-- The table of a program that reads bytes does too. -/
theorem DraftM.Built.onBytes (h : DraftM.Built p d) (hp : ∀ inst ∈ p.insts, inst.OnBytes) :
    d.table.OnBytes := by
  intro s c hc
  obtain ⟨cases, hs, hmem⟩ := hc
  obtain ⟨i, -, hstep⟩ := h.isStep s cases hs
  obtain ⟨j, -, inst, ranges, next, hi, hreads, hrange, -⟩ := (hstep.mem_iff c).1 hmem
  exact hp inst (Array.mem_of_getElem? hi) ranges next hreads c.range hrange

/-! ## Resolving -/

/-- Nothing does what no transitions do together. -/
theorem Combined.ne_nil {range : Interval} {ts : List Transition} {t : Transition}
    (h : Combined raw r range ts t) (hr : Sound raw first limit r) : ts ≠ [] := by
  rintro rfl
  cases t with
  | accept index => cases h.2.1
  | go target conditions =>
    obtain ⟨members, hs, hmem, -⟩ := h
    obtain ⟨x, hx⟩ := List.exists_mem_of_ne_nil _ (hr.isMembers hs).ne_nil
    cases (hmem x).1 hx

/-- A number that a resolved case holds is held by a case of a member. -/
theorem Resolves.exists_contains {members : List StepId} {cases : List Case} {n : Int}
    (h : Resolves raw r members cases) (hr : Sound raw first limit r) (hc : c ∈ cases)
    (hn : c.range.contains n = true) : ∃ e ∈ raw.casesAll members, e.range.contains n = true := by
  obtain ⟨t, ht⟩ := List.exists_mem_of_ne_nil _ ((h.combined c hc n hn).ne_nil hr)
  obtain ⟨e, he, hen, -⟩ := mem_transitionsAt.1 ht
  exact ⟨e, he, hen⟩

theorem Resolution.Explored.onBytes {all : List StepId} (h : Explored raw first limit all all r)
    (hraw : raw.table.OnBytes) : (resolvedTable r).OnBytes := by
  intro s c hc
  obtain ⟨cases, hs, hmem⟩ := hc
  obtain ⟨members, -, hres⟩ := h.resolves s cases hs
  have hle := hres.inOrder.2 c hmem
  have hbound {n : Int} (hlo : c.range.lo ≤ n) (hhi : n ≤ c.range.hi) :
      Interval.minByte ≤ n ∧ n ≤ Interval.maxByte := by
    obtain ⟨e, he, hen⟩ := hres.exists_contains h.sound hmem (Interval.contains_iff.2 ⟨hlo, hhi⟩)
    obtain ⟨x, -, hx⟩ := List.mem_flatMap.1 he
    cases hget : raw.table.steps.get? x with
    | none => simp [hget] at hx
    | some others =>
      have hwithin := hraw x e ⟨others, hget, by simpa [hget] using hx⟩
      have hcontains := Interval.contains_iff.1 hen
      simp only [Interval.Within] at hwithin
      omega
  exact ⟨(hbound (Int.le_refl _) hle).1, hle, (hbound hle (Int.le_refl _)).2⟩

/-! ## Renumbering -/

theorem Table.OnBytes.renumber {t t' : Table} {initial initial' : StepId} (ht : t.OnBytes)
    (h : t.renumber (some initial) = .ok (t', initial')) : t'.OnBytes := by
  intro s' c' hc'
  obtain ⟨s, c, -, hc, hcc⟩ := Table.exists_case h hc'
  rw [(Table.renumberCase_eq_ok hcc).1]
  exact ht s c hc

/-- A table whose steps can all be reached is numbered without leaving one out. -/
theorem Table.reachable_of_renumber {t t' : Table} {initial initial' : StepId} (ht : t.Consistent)
    (hreach : ∀ s ∈ t.steps.keys, Relation.ReflTransGen t.Leads initial s)
    (h : t.renumber (some initial) = .ok (t', initial')) :
    ∀ s ∈ t'.steps.keys, Relation.ReflTransGen t'.Leads initial' s := by
  intro s' hs'
  obtain ⟨cases', hcases'⟩ := Option.ne_none_iff_exists'.1 (IdMap.mem_keys.1 hs')
  obtain ⟨s, hrank, -⟩ := Table.exists_cases h hcases'
  obtain ⟨n, -, hn⟩ := Table.rank_eq_ok hrank
  have hs : s ∈ t.steps.keys := by
    rcases List.mem_append.1 (mem_sortDistinct.1 (List.mem_of_getElem? hn)) with hs | hs
    · exact hs
    · exact ht.ends s hs
  obtain ⟨s'', hrank', hreach'⟩ := Table.reachable_renumber h (hreach s hs)
  obtain rfl := Except.ok.inj (hrank.symm.trans hrank')
  exact hreach'

/-! ## Machines -/

/-- A machine without gaps and conflicts, in which each step has a use. -/
structure Machine.WellFormed (m : Machine) : Prop extends m.table.Consistent where
  /-- The steps are the numbers from 0 on, and there is one. -/
  numbered : ∃ n, 0 < n ∧ m.table.Numbered n
  onBytes : m.table.OnBytes
  check : m.table.check = .ok ()
  reachable : ∀ s ∈ m.table.steps.keys, Relation.ReflTransGen m.table.Leads m.initial s
  /-- Renumbering it once more changes nothing. -/
  renumber : m.table.renumber (some m.initial) = .ok (m.table, m.initial)

/-- **Every compiled machine is well formed.** -/
theorem Machine.wellFormed_of_compile (h : Machine.compile patterns maxSteps = .ok machine) :
    machine.WellFormed := by
  obtain ⟨trees, p, raw, initial, resolved, table, start, htrees, hp, hraw, hinitial, hresolved,
    htable, rfl⟩ := Machine.of_compile h
  have hparse := Tree.map_parse_of_parseAll htrees
  have hbytes := Program.onBytes_of_ofTrees (fun t ht => Tree.wellFormed_of_mem hparse ht) hp
  have hne : p.insts ≠ #[] := by
    intro hempty
    rw [RawTable.initial_of_empty hempty hraw] at hinitial
    cases hinitial
  obtain ⟨d, i, rfl, -, hbuilt, hi⟩ := RawTable.of_ofProgram hne hraw
  obtain rfl := Option.some.inj hinitial
  obtain ⟨r, all, hall, hmem, hreached, rfl⟩ :=
    RawTable.explored_of_resolve (hbuilt.resolvable (some i)) hi hresolved
  have hconsistent := hall.consistent (hbuilt.resolvable (some i))
  have hreachable (s : StepId) (hs : s ∈ (resolvedTable r).steps.keys) :=
    hreached s ((hall.done s).2 (IdMap.mem_keys.1 hs))
  have hstart : start ∈ table.steps.keys :=
    Table.mem_keys_of_rank htable (Table.forall₂_of_renumber htable).2.2
  have hnumbered := Table.numbered htable
  have hpos : 0 < (resolvedTable r).ids.length := by
    obtain ⟨n, -, hn⟩ := Table.rank_eq_ok (Table.forall₂_of_renumber htable).2.2
    exact Nat.lt_of_le_of_lt (Nat.zero_le n) (List.getElem?_eq_some_iff.1 hn).1
  have hnew := hconsistent.renumber htable
  exact { hnew with
    numbered := ⟨_, hpos, hnumbered⟩
    onBytes := (hall.onBytes (hbuilt.onBytes hbytes)).renumber htable
    check := hnew.check_eq_ok
    reachable := Table.reachable_of_renumber hconsistent hreachable htable
    renumber := hnew.renumber_eq_self hnumbered hstart }

/-- After an `a` the first pattern is finished, and the other two go on together at a merged step. -/
theorem Machine.wellFormed_of_compile_merged : ∃ machine,
    Machine.compile ["a", "ab", "[a-c]b*c"] (some 10000) = .ok machine ∧ machine.WellFormed ∧
      machine.table.steps.get? 0 =
        some [⟨⟨97, 97⟩, .go 4 [⟨1, ⟨97, 97⟩⟩]⟩, ⟨⟨98, 99⟩, .go 3 []⟩] := by
  have hstep : (Machine.compile ["a", "ab", "[a-c]b*c"] (some 10000) >>= fun machine =>
      pure (machine.table.steps.get? 0)).toOption =
        some (some [⟨⟨97, 97⟩, .go 4 [⟨1, ⟨97, 97⟩⟩]⟩, ⟨⟨98, 99⟩, .go 3 []⟩]) := by
    decide +kernel
  obtain ⟨machine, hmachine, hstep⟩ := bind_eq_ok.1 (toOption_eq_some.1 hstep)
  exact ⟨machine, hmachine, Machine.wellFormed_of_compile hmachine, Except.ok.inj hstep⟩

end Munch
