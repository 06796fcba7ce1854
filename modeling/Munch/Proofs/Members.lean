/-
A pattern set is its members put together. The set compiles if each of its patterns compiles alone
(`exists_compile_iff_members`), and what it finds is the longest of what they find alone, with the
index of the first of them that matches so far (`find_members`).
-/
import Munch.Proofs.Emit.Matching

namespace Munch

variable {patterns others : List String} {options : Options} {s : PatternSet} {trees : List Tree}
  {data rest : List UInt8} {start : Nat}

/-! ## Compiling -/

namespace PatternSet

/-- Under options that some patterns compile with, others do if they make a machine. -/
theorem exists_compile_of_machine {m : Machine} (h : compile patterns options = .ok s)
    (hm : Machine.compile others options.maxSteps = .ok m) :
    ∃ s', compile others options = .ok s' := by
  obtain ⟨_, hcheck, h⟩ := bind_eq_ok.1 h
  obtain ⟨machine, hmachine, h⟩ := bind_eq_ok.1 h
  have hloads := (exists_ofMachine_iff hcheck hmachine).1 ⟨s, h⟩
  obtain ⟨s', hs'⟩ := (exists_ofMachine_iff hcheck hm).2 fun hc =>
    ⟨(hloads hc).1, Block.fitsIn_none _⟩
  exact ⟨s', bind_eq_ok.2 ⟨(), hcheck, bind_eq_ok.2 ⟨m, hm, hs'⟩⟩⟩

/-- A set compiles if each of its patterns compiles alone. -/
theorem exists_compile_iff_members (hne : patterns ≠ []) (hmax : options.maxSteps = none)
    (hfits : Machine.Fits patterns) (hmembers : ∀ q ∈ patterns, Machine.Fits [q]) :
    (∃ s, compile patterns options = .ok s) ↔
      ∀ q ∈ patterns, ∃ s, compile [q] options = .ok s := by
  have hmachine {others : List String} {s : PatternSet} (h : compile others options = .ok s) :
      ∃ m, Machine.compile others none = .ok m :=
    ⟨s.machine, hmax ▸ (machine_of_compile h).1⟩
  have hone (q : String) (hq : q ∈ patterns) : (∃ m, Machine.compile [q] none = .ok m) ↔
      ∃ t, Tree.parse q = .ok t ∧ t.isBarred = false := by
    rw [Machine.exists_compile_iff (by simp) (hmembers q hq), List.forall_mem_singleton]
  constructor
  · intro h q hq
    obtain ⟨s, hs⟩ := h
    have hall := (Machine.exists_compile_iff hne hfits).1 (hmachine hs)
    obtain ⟨m, hm⟩ := (hone q hq).2 (hall q hq)
    exact exists_compile_of_machine hs (hmax ▸ hm)
  · intro h
    obtain ⟨q₀, hq₀⟩ := List.exists_mem_of_ne_nil _ hne
    obtain ⟨s₀, hs₀⟩ := h q₀ hq₀
    have hall (q : String) (hq : q ∈ patterns) : ∃ t, Tree.parse q = .ok t ∧ t.isBarred = false := by
      obtain ⟨s, hs⟩ := h q hq
      exact (hone q hq).1 (hmachine hs)
    obtain ⟨m, hm⟩ := (Machine.exists_compile_iff hne hfits).2 hall
    exact exists_compile_of_machine hs₀ (hmax ▸ hm)

/-! ## Finding -/

/-- The match ends where the longest prefix ends that the language has, or it has none. -/
def LongestOf (L : Language) (start : Nat) (rest : List UInt8) : Option Match → Prop
  | none => ∀ u, u <+: rest → ¬ L u
  | some m => ∃ u, u <+: rest ∧ m.stop = start + u.length ∧ L u ∧
    ∀ v, v <+: rest → L v → v.length ≤ u.length

/-- So does each match end in the language of its tree. -/
def LongestOfEach (trees : List Tree) (start : Nat) (rest : List UInt8) :
    List (Option Match) → Prop :=
  List.Forall₂ (fun t found => LongestOf t.Denotes start rest found) trees

/-- A run of a pattern alone finds the longest prefix that its tree denotes. -/
theorem run_longest_alone {q : String} {t : Tree} (ht : Tree.parse q = .ok t)
    (h : compile [q] options = .ok s)
    (hname : options.useCodegen = true → options.functionName ≠ Routine.lengthName)
    (offset : Nat) (rest : List UInt8) :
    ∃ hit, s.run offset rest = .ok hit ∧
      Longest (fun w index => index = 0 ∧ t.Denotes w) offset rest hit := by
  obtain ⟨trees, htrees, hrun⟩ := run_longest h hname
  obtain rfl : trees = [t] := by
    rw [List.map_singleton, ht] at htrees
    obtain ⟨u, rfl, hu⟩ := List.map_eq_singleton_iff.1 htrees.symm
    rw [Except.ok.inj hu]
  obtain ⟨hit, hhit, hlongest⟩ := hrun offset rest
  refine ⟨hit, hhit, hlongest.congr fun w index => ⟨?_, ?_⟩⟩
  · rintro ⟨n, u, rfl, hu, hw⟩
    obtain ⟨rfl, rfl⟩ : n = 0 ∧ t = u := by simpa [List.getElem?_cons] using hu
    exact ⟨rfl, hw⟩
  · rintro ⟨rfl, hw⟩
    exact ⟨0, t, rfl, rfl, hw⟩

/-- So what it finds ends there. -/
theorem find_alone {q : String} {t : Tree} (ht : Tree.parse q = .ok t)
    (h : compile [q] options = .ok s)
    (hname : options.useCodegen = true → options.functionName ≠ Routine.lengthName)
    (hstart : start ≤ data.length) :
    ∃ found, s.find data start = .ok found ∧
      LongestOf t.Denotes start (data.drop start) found := by
  obtain ⟨hit, hhit, hlongest⟩ := run_longest_alone ht h hname start (data.drop start)
  refine ⟨_, find_of_run hstart hhit, ?_⟩
  cases hit with
  | none => exact fun u hu hw => hlongest u hu 0 ⟨rfl, hw⟩
  | some hit =>
    obtain ⟨u, hu, hstop, ⟨⟨-, hw⟩, -⟩, hmax⟩ := hlongest
    exact ⟨u, hu, hstop, hw, fun v hv hw => hmax v hv 0 ⟨rfl, hw⟩⟩

/-- What each of the patterns finds alone, in their order. -/
theorem exists_alone (htrees : patterns.map Tree.parse = trees.map .ok)
    (hcompile : ∀ q ∈ patterns, ∃ s, compile [q] options = .ok s)
    (hname : options.useCodegen = true → options.functionName ≠ Routine.lengthName)
    (hstart : start ≤ data.length) :
    ∃ alone : List (Option Match),
      List.Forall₂ (fun q a => ∃ s, compile [q] options = .ok s ∧ s.find data start = .ok a)
        patterns alone ∧
      LongestOfEach trees start (data.drop start) alone := by
  induction patterns generalizing trees with
  | nil =>
    obtain rfl := List.map_eq_nil_iff.1 htrees.symm
    exact ⟨[], .nil, .nil⟩
  | cons q rest ih =>
    obtain ⟨t, ts, rfl, ht, hts⟩ := List.map_eq_cons_iff.1 htrees.symm
    obtain ⟨s, hs⟩ := hcompile q (by simp)
    obtain ⟨found, hfound, hlongest⟩ := find_alone ht.symm hs hname hstart
    obtain ⟨alone, hfinds, hall⟩ := ih hts.symm fun r hr => hcompile r (by simp [hr])
    exact ⟨found :: alone, .cons ⟨s, hs, hfound⟩ hfinds, .cons hlongest hall⟩

section

variable {alone : List (Option Match)} {last : Option Hit} {v : List UInt8} {k : Match} {n : Nat}
  {index : Int}

/-- What a pattern finds alone its tree denotes. -/
theorem LongestOfEach.denotes (h : LongestOfEach trees start rest alone)
    (hk : alone[n]? = some (some k)) :
    ∃ u, u <+: rest ∧ k.stop = start + u.length ∧ Tree.DenotesAt trees u n := by
  obtain ⟨hlt, hkn⟩ := List.getElem?_eq_some_iff.1 hk
  have hlt' : n < trees.length := h.length_eq ▸ hlt
  have hlongest : LongestOf trees[n].Denotes start rest alone[n] := h.get hlt' hlt
  rw [hkn] at hlongest
  obtain ⟨u, hu, hstop, hw, -⟩ := hlongest
  exact ⟨u, hu, hstop, n, trees[n], rfl, List.getElem?_eq_getElem hlt', hw⟩

/-- What a tree denotes its pattern finds alone, or something longer. -/
theorem LongestOfEach.finds (h : LongestOfEach trees start rest alone) (hv : v <+: rest)
    (hw : Tree.DenotesAt trees v index) :
    ∃ (n : Nat) (k : Match), index = n ∧ alone[n]? = some (some k) ∧ start + v.length ≤ k.stop := by
  obtain ⟨n, t, rfl, ht, hw⟩ := hw
  obtain ⟨hlt, rfl⟩ := List.getElem?_eq_some_iff.1 ht
  have hlt' : n < alone.length := h.length_eq ▸ hlt
  have hlongest : LongestOf trees[n].Denotes start rest alone[n] := h.get hlt hlt'
  cases hfound : alone[n] with
  | none =>
    rw [hfound] at hlongest
    exact absurd hw (hlongest v hv)
  | some k =>
    rw [hfound] at hlongest
    obtain ⟨u, -, hstop, -, hmax⟩ := hlongest
    have hle := hmax v hv hw
    exact ⟨n, k, rfl, by rw [List.getElem?_eq_getElem hlt', hfound], by omega⟩

theorem LongestOfEach.eq_none_iff (h : LongestOfEach trees start rest alone)
    (hlast : Longest (Tree.DenotesAt trees) start rest last) :
    last = none ↔ ∀ a ∈ alone, a = none := by
  cases last with
  | none =>
    refine iff_of_true rfl fun a ha => ?_
    obtain ⟨n, hn⟩ := List.mem_iff_getElem?.1 ha
    cases a with
    | none => rfl
    | some k =>
      obtain ⟨u, hu, -, hw⟩ := h.denotes hn
      exact absurd hw (hlast u hu n)
  | some hit =>
    obtain ⟨u, hu, -, ⟨hw, -⟩, -⟩ := hlast
    obtain ⟨n, k, -, hk, -⟩ := h.finds hu hw
    refine iff_of_false (Option.some_ne_none hit) fun hnone => ?_
    exact absurd (hnone _ (List.mem_of_getElem? hk)) (Option.some_ne_none k)

/-- The longest match is as long as the longest one found alone, and has the index of the first one of
that length. -/
theorem LongestOfEach.combine {hit : Hit} (h : LongestOfEach trees start rest alone)
    (hlast : Longest (Tree.DenotesAt trees) start rest (some hit)) :
    IsGreatest {stop | ∃ k, some k ∈ alone ∧ k.stop = stop} hit.stop ∧
      IsLeast {index : Int | ∃ (n : Nat) (k : Match), index = n ∧ alone[n]? = some (some k) ∧
        k.stop = hit.stop} hit.index := by
  obtain ⟨u, hu, hstop, ⟨hw, hleast⟩, hmax⟩ := hlast
  have hbound {n : Nat} {k : Match} (hk : alone[n]? = some (some k)) : k.stop ≤ hit.stop := by
    obtain ⟨v, hv, hkstop, hdenotes⟩ := h.denotes hk
    have hle := hmax v hv n hdenotes
    omega
  obtain ⟨n, k, hn, hk, hle⟩ := h.finds hu hw
  have hksame : k.stop = hit.stop := Nat.le_antisymm (hbound hk) (hstop ▸ hle)
  refine ⟨⟨⟨k, List.mem_of_getElem? hk, hksame⟩, ?_⟩, ⟨n, k, hn, hk, hksame⟩, ?_⟩
  · intro stop hmem
    obtain ⟨k', hk', rfl⟩ := hmem
    obtain ⟨n', hn'⟩ := List.mem_iff_getElem?.1 hk'
    exact hbound hn'
  · intro index hmem
    obtain ⟨n', k', rfl, hk', hsame⟩ := hmem
    obtain ⟨v, hv, hkstop, hdenotes⟩ := h.denotes hk'
    -- a prefix of the same length is the same
    obtain rfl : v = u :=
      (List.prefix_of_prefix_length_le hv hu (by omega)).eq_of_length (by omega)
    exact hleast n' hdenotes

end

/-- **A pattern set is its members put together.** It compiles if each of them does, and finds the
longest of what they find alone, under the index of the first of these. -/
theorem find_members (hne : patterns ≠ []) (hmax : options.maxSteps = none)
    (hfits : Machine.Fits patterns) (hmembers : ∀ q ∈ patterns, Machine.Fits [q]) :
    ((∃ s, compile patterns options = .ok s) ↔
        ∀ q ∈ patterns, ∃ s, compile [q] options = .ok s) ∧
      ∀ s, compile patterns options = .ok s →
        (options.useCodegen = true → options.functionName ≠ Routine.lengthName) →
        ∀ (data : List UInt8) (start : Nat), start ≤ data.length →
          ∃ found alone, s.find data start = .ok found ∧
            List.Forall₂ (fun q a => ∃ s, compile [q] options = .ok s ∧ s.find data start = .ok a)
              patterns alone ∧
            (found = none ↔ ∀ a ∈ alone, a = none) ∧
            ∀ m ∈ found, m.start = start ∧
              IsGreatest {stop | ∃ k, some k ∈ alone ∧ k.stop = stop} m.stop ∧
              IsLeast {index : Int | ∃ (n : Nat) (k : Match), index = n ∧
                alone[n]? = some (some k) ∧ k.stop = m.stop} m.index := by
  have hiff := exists_compile_iff_members hne hmax hfits hmembers
  refine ⟨hiff, fun s hs hname data start hstart => ?_⟩
  obtain ⟨trees, htrees, hrun⟩ := run_longest hs hname
  obtain ⟨hit, hhit, hlongest⟩ := hrun start (data.drop start)
  obtain ⟨alone, hfinds, heach⟩ := exists_alone htrees (hiff.1 ⟨s, hs⟩) hname hstart
  refine ⟨_, alone, find_of_run hstart hhit, hfinds, ?_, fun m hm => ?_⟩
  · rw [Option.map_eq_none_iff]
    exact heach.eq_none_iff hlongest
  · obtain ⟨hit, rfl, rfl⟩ := Option.map_eq_some_iff.1 hm
    exact ⟨rfl, heach.combine hlongest⟩

/-- Of two patterns that match an `a` the first one counts, and of an `ab` the second one matches
more. -/
theorem find_members_longer :
    let patterns := ["a", "ab|a"]
    let options : Options := ⟨none, false, true, "f"⟩
    patterns ≠ [] ∧ options.maxSteps = none ∧ Machine.Fits patterns ∧
      (∀ q ∈ patterns, Machine.Fits [q]) ∧ ∃ s, compile patterns options = .ok s ∧
        (options.useCodegen = true → options.functionName ≠ Routine.lengthName) ∧
        ∃ found alone, s.find [97, 98] 0 = .ok found ∧
          List.Forall₂ (fun q a => ∃ s, compile [q] options = .ok s ∧ s.find [97, 98] 0 = .ok a)
            patterns alone ∧
          found.map (fun m => (m.index, m.stop)) = some (1, 2) ∧
          alone.map (fun a => a.map fun m => (m.index, m.stop)) = [some (0, 1), some (0, 2)] := by
  intro patterns options
  have hfits : Machine.Fits patterns :=
    Machine.fits_of_size (by decide +kernel : _ = some 4) (by decide)
  have hmembers : ∀ q ∈ patterns, Machine.Fits [q] :=
    List.forall_mem_cons.2 ⟨Machine.fits_of_size (by decide +kernel : _ = some 1) (by decide),
      List.forall_mem_singleton.2
        (Machine.fits_of_size (by decide +kernel : _ = some 3) (by decide))⟩
  have hloads : Routine.Loads options.functionName := ⟨by decide +kernel, by decide +kernel⟩
  obtain ⟨plain, hplain⟩ : ∃ s, compile patterns { options with useCodegen := false } = .ok s :=
    isSome_toOption.1 (by decide +kernel)
  obtain ⟨s, hs⟩ := ((switchOf options).exists_compile_iff hplain).2 ⟨hloads, Block.fitsIn_none _⟩
  have hname : options.useCodegen = true → options.functionName ≠ Routine.lengthName :=
    fun _ => by decide
  have hfind := (find_members (by decide) rfl hfits hmembers).2 s hs hname [97, 98] 0 (by decide)
  obtain ⟨found, alone, hfound, halone, -⟩ := hfind
  -- the function finds what the machine finds
  have hspan {ps : List String} {s : PatternSet} {found : Option Match} (span : Option (Int × Nat))
      (hs : compile ps options = .ok s) (hfound : s.find [97, 98] 0 = .ok found)
      (h : (compile ps { options with useCodegen := false } >>= fun s =>
        s.find [97, 98] 0 >>= fun found =>
          pure (found.map fun m => (m.index, m.stop))).toOption = some span) :
      found.map (fun m => (m.index, m.stop)) = span := by
    obtain ⟨s', hs', h⟩ := bind_eq_ok.1 (toOption_eq_some.1 h)
    have hsame := ((switchOf options).sameRuns hs' hs (hname rfl)).find_eq [97, 98] 0
    obtain ⟨found', hfound', h⟩ := bind_eq_ok.1 h
    obtain rfl := Except.ok.inj (hfound.symm.trans (hsame.trans hfound'))
    exact Except.ok.inj h
  have halone' : List.Forall₂ _ ["a", "ab|a"] alone := halone
  obtain _ | ⟨⟨s₀, hs₀, hfound₀⟩, _ | ⟨⟨s₁, hs₁, hfound₁⟩, _ | _⟩⟩ := halone'
  have hfirst := hspan (some (0, 1)) hs₀ hfound₀ (by decide +kernel)
  have hsecond := hspan (some (0, 2)) hs₁ hfound₁ (by decide +kernel)
  refine ⟨by decide, rfl, hfits, hmembers, s, hs, hname, found, _, hfound, halone, ?_, ?_⟩
  · exact hspan (some (1, 2)) hs hfound (by decide +kernel)
  · rw [List.map_cons, List.map_singleton, hfirst, hsecond]

end PatternSet

end Munch
