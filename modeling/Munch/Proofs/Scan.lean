/-
Scanning is complete and does not overlap. `ScansFrom` says of some matches that they are all there
is from an offset on; no other matches are (`ScansFrom.unique`), and a scan that may take as many
matches as there are bytes comes to just them (`take_scansFrom`). All this holds of every set whose
runs return. Those of compiled sets do (`runs_of_compile`), unless the set matches with a function
that takes the place of the one it calls (`matchesIn_endlessCall`).
-/
import Munch.Proofs.Emit.Matching

namespace Munch.PatternSet

variable {patterns : List String} {options : Options} {s : PatternSet} {data : List UInt8}
  {offset fuel : Nat} {m m' : Match} {ms ms' : List Match}

/-! ## Runs that return -/

/-- Every run returns, with a match that ends inside the data if it finds one. -/
def Runs (s : PatternSet) : Prop :=
  ∀ (offset : Nat) (rest : List UInt8), ∃ hit, s.run offset rest = .ok hit ∧
    ∀ h ∈ hit, offset ≤ h.stop ∧ h.stop ≤ offset + rest.length

/-- All runs of a compiled set return, unless it matches with a function that calls itself. -/
theorem runs_of_compile {room : Option Nat} (h : compile patterns options room = .ok s)
    (hname : options.useCodegen = true → options.functionName ≠ Routine.lengthName) : s.Runs := by
  obtain ⟨trees, -, hrun⟩ := run_longest h hname
  intro offset rest
  obtain ⟨hit, hhit, hlongest⟩ := hrun offset rest
  refine ⟨hit, hhit, fun k hk => ?_⟩
  obtain rfl := Option.mem_def.1 hk
  obtain ⟨u, hu, hstop, -⟩ := hlongest
  have hlen := hu.length_le
  omega

/-- What is found lies in the data, from the offset on. -/
theorem Runs.of_find {n : Nat} (hs : s.Runs) (h : s.find data n = .ok (some m)) :
    m.start = n ∧ m.start ≤ m.stop ∧ m.stop ≤ data.length ∧
      m.group = (data.drop m.start).take (m.stop - m.start) := by
  by_cases hn : n ≤ data.length
  · obtain ⟨hit, hrun, hbound⟩ := hs n (data.drop n)
    rw [find_of_run hn hrun] at h
    obtain ⟨hit, rfl, rfl⟩ := Option.map_eq_some_iff.1 (Except.ok.inj h)
    obtain ⟨hle, hstop⟩ := hbound hit rfl
    rw [List.length_drop] at hstop
    exact ⟨rfl, hle, show hit.stop ≤ data.length by omega, rfl⟩
  · rw [find, if_neg (by omega)] at h
    cases h

/-! ## What a scan comes to -/

/-- At the offset the set finds nothing, or an empty match. -/
def Idle (s : PatternSet) (data : List UInt8) (offset : Nat) : Prop :=
  ∃ found, s.find data offset = .ok found ∧ ∀ m ∈ found, m.stop = offset

/-- From the offset on, the matches are not empty, come one behind the other, and are what the set
finds where they start. Outside of them there is nothing to find but empty matches. -/
structure ScansFrom (s : PatternSet) (data : List UInt8) (offset : Nat) (ms : List Match) :
    Prop where
  nonempty : ∀ m ∈ ms, m.start < m.stop
  ordered : ms.IsChain fun m m' => m.stop ≤ m'.start
  start_le : ∀ m ∈ ms, offset ≤ m.start
  found : ∀ m ∈ ms, s.find data m.start = .ok (some m)
  complete : ∀ n, offset ≤ n → n < data.length → (∀ m ∈ ms, ¬ (m.start ≤ n ∧ n < m.stop)) →
    s.Idle data n

namespace ScansFrom

/-- Each match starts behind the ends of all that come before it. -/
theorem pairwise (h : s.ScansFrom data offset ms) : ms.Pairwise fun m m' => m.stop ≤ m'.start := by
  obtain ⟨hne, hord, -, -, -⟩ := h
  induction ms with
  | nil => exact .nil
  | cons m ms ih =>
    refine List.pairwise_cons.2 ⟨?_, ih (fun m' hm' => hne m' (by simp [hm'])) hord.tail⟩
    cases ms with
    | nil => simp
    | cons m₁ rest =>
      obtain ⟨hm₁, hord⟩ := List.isChain_cons_cons.1 hord
      have hrest := ih (fun m' hm' => hne m' (by simp [hm'])) hord
      intro m' hm'
      rcases List.mem_cons.1 hm' with rfl | hm'
      · exact hm₁
      · have hlt := hne m₁ (by simp)
        have hle := (List.pairwise_cons.1 hrest).1 m' hm'
        omega

/-- Two matches of a list that have a byte in common are the same. -/
theorem eq_of_inside (h : s.ScansFrom data offset ms) (hm : m ∈ ms) (hm' : m' ∈ ms)
    (hle : m'.start ≤ m.start) (hlt : m.start < m'.stop) : m' = m := by
  by_contra hne
  have hsize := h.nonempty m hm
  have : Std.Symm fun m m' : Match => m.stop ≤ m'.start ∨ m'.stop ≤ m.start := ⟨fun _ _ => Or.symm⟩
  have happart := h.pairwise.imp fun {m m'} hle =>
    (Or.inl hle : m.stop ≤ m'.start ∨ m'.stop ≤ m.start)
  have := happart.forall hm' hm hne
  omega

/-- A match of one list starts inside one of the other. -/
theorem exists_inside (hs : s.Runs) (h : s.ScansFrom data offset ms)
    (h' : s.ScansFrom data offset ms') (hm : m ∈ ms) :
    ∃ m' ∈ ms', m'.start ≤ m.start ∧ m.start < m'.stop := by
  by_contra hnone
  have hsize := h.nonempty m hm
  have hstop := (hs.of_find (h.found m hm)).2.2.1
  obtain ⟨found, hfound, hidle⟩ := h'.complete m.start (h.start_le m hm) (by omega)
    fun m' hm' hin => hnone ⟨m', hm', hin⟩
  obtain rfl := Except.ok.inj (hfound.symm.trans (h.found m hm))
  exact absurd (hidle m rfl) (Nat.ne_of_gt hsize)

/-- If the lists agree before a match of one of them, the other has it too. -/
theorem mem_of_before (hs : s.Runs) (h : s.ScansFrom data offset ms)
    (h' : s.ScansFrom data offset ms') (hm : m ∈ ms)
    (hbefore : ∀ m' ∈ ms', m'.start < m.start → m' ∈ ms) : m ∈ ms' := by
  obtain ⟨m', hm', hle, hlt⟩ := h.exists_inside hs h' hm
  rcases Nat.lt_or_eq_of_le hle with hless | heq
  · exact h.eq_of_inside hm (hbefore m' hm' hless) hle hlt ▸ hm'
  · have hfound := h'.found m' hm'
    rw [heq, h.found m hm] at hfound
    exact Option.some.inj (Except.ok.inj hfound) ▸ hm'

/-- There is only one such list. -/
theorem unique (hs : s.Runs) (h : s.ScansFrom data offset ms) (h' : s.ScansFrom data offset ms') :
    ms = ms' := by
  -- By induction on where a match starts, it is in both lists or in neither; both are in order.
  have hmem (n : Nat) : ∀ m : Match, m.start = n → (m ∈ ms ↔ m ∈ ms') := by
    induction n using Nat.strongRecOn with
    | _ n ih =>
      rintro m rfl
      constructor
      · exact fun hm => h.mem_of_before hs h' hm fun m' hm' hlt => (ih _ hlt m' rfl).2 hm'
      · exact fun hm => h'.mem_of_before hs h hm fun m' hm' hlt => (ih _ hlt m' rfl).1 hm'
  have hsorted {l : List Match} (h : s.ScansFrom data offset l) :
      l.Pairwise fun m m' => m.start < m'.start :=
    h.pairwise.imp_of_mem fun hm _ hle => Nat.lt_of_lt_of_le (h.nonempty _ hm) hle
  have : Std.Irrefl fun m m' : Match => m.start < m'.start := ⟨fun _ => Nat.lt_irrefl _⟩
  have : Std.Antisymm fun m m' : Match => m.start < m'.start :=
    ⟨fun _ _ hlt hgt => absurd hlt (Nat.lt_asymm hgt)⟩
  exact (hsorted h).eq_of_mem_iff (hsorted h') fun m => hmem m.start m rfl

theorem nil (h : ∀ n, offset ≤ n → n < data.length → s.Idle data n) :
    s.ScansFrom data offset [] where
  nonempty := by simp
  ordered := .nil
  start_le := by simp
  found := by simp
  complete n hle hlt _ := h n hle hlt

/-- A match in front of those that come behind it. -/
theorem cons (h : s.ScansFrom data m.stop ms) (hle : offset ≤ m.start) (hne : m.start < m.stop)
    (hfound : s.find data m.start = .ok (some m))
    (hidle : ∀ n, offset ≤ n → n < m.start → s.Idle data n) : s.ScansFrom data offset (m :: ms) where
  nonempty m' hm' := by
    rcases List.mem_cons.1 hm' with rfl | hm'
    · exact hne
    · exact h.nonempty m' hm'
  ordered := by
    cases ms with
    | nil => exact .singleton m
    | cons m' rest => exact List.isChain_cons_cons.2 ⟨h.start_le m' (by simp), h.ordered⟩
  start_le m' hm' := by
    rcases List.mem_cons.1 hm' with rfl | hm'
    · exact hle
    · have := h.start_le m' hm'
      omega
  found m' hm' := by
    rcases List.mem_cons.1 hm' with rfl | hm'
    · exact hfound
    · exact h.found m' hm'
  complete n hn hlt hout := by
    rcases Nat.lt_or_ge n m.start with hbefore | hafter
    · exact hidle n hn hbefore
    · have hstop := hout m (by simp)
      exact h.complete n (by omega) hlt fun m' hm' => hout m' (by simp [hm'])

end ScansFrom

/-! ## Scans -/

/-- A run that finds nothing, or an empty match. -/
theorem idle_of_run {hit : Option Hit} (hle : offset ≤ data.length)
    (hrun : s.run offset (data.drop offset) = .ok hit) (hempty : ∀ h ∈ hit, h.stop = offset) :
    s.Idle data offset := by
  refine ⟨_, find_of_run hle hrun, fun m hm => ?_⟩
  obtain ⟨h, hh, rfl⟩ := Option.map_eq_some_iff.1 hm
  exact hempty h hh

/-- An offset with nothing to find can be added in front. -/
theorem idle_cons (h : s.Idle data offset) {p : Nat → Prop}
    (hidle : ∀ n, offset + 1 ≤ n → p n → s.Idle data n) :
    ∀ n, offset ≤ n → p n → s.Idle data n := by
  intro n hle hn
  rcases Nat.eq_or_lt_of_le hle with rfl | hlt
  · exact h
  · exact hidle n hlt hn

/-- The next match is the first one that is not empty. -/
theorem nextMatch_eq (hs : s.Runs) (hle : offset ≤ data.length) :
    s.nextMatch offset (data.drop offset) = .ok none ∧
        (∀ n, offset ≤ n → n < data.length → s.Idle data n) ∨
      ∃ m, s.nextMatch offset (data.drop offset) = .ok (some (m, data.drop m.stop)) ∧
        offset ≤ m.start ∧ m.start < m.stop ∧ m.stop ≤ data.length ∧
        s.find data m.start = .ok (some m) ∧ ∀ n, offset ≤ n → n < m.start → s.Idle data n := by
  generalize hrest : data.drop offset = rest
  induction rest generalizing offset with
  | nil =>
    have := List.drop_eq_nil_iff.1 hrest
    exact .inl ⟨rfl, fun n hn hlt => by omega⟩
  | cons b rest ih =>
    have hlength : data.length - offset = rest.length + 1 := by
      rw [← List.length_drop, hrest, List.length_cons]
    have hdrop : data.drop (offset + 1) = rest := by
      rw [← List.tail_drop, hrest, List.tail_cons]
    obtain ⟨hit, hrun, hbound⟩ := hs offset (data.drop offset)
    by_cases hempty : ∀ h ∈ hit, h.stop = offset
    · -- Nothing starts here, so the scan goes on behind the byte.
      have hidle := idle_of_run hle hrun hempty
      have hskip : s.nextMatch offset (b :: rest) = s.nextMatch (offset + 1) rest := by
        rw [hrest] at hrun
        rw [nextMatch, hrun]
        cases hit with
        | none => rfl
        | some h => exact if_pos (hempty h rfl)
      rw [hskip]
      rcases ih (by omega) hdrop with ⟨hnext, hnone⟩ | ⟨m, hnext, hstart, hmatch⟩
      · exact .inl ⟨hnext, idle_cons hidle hnone⟩
      · obtain ⟨hne, hstop, hfound, hbefore⟩ := hmatch
        exact .inr ⟨m, hnext, by omega, hne, hstop, hfound, idle_cons hidle hbefore⟩
    · push Not at hempty
      obtain ⟨h, rfl, hne⟩ := hempty
      obtain ⟨hge, hstop⟩ := hbound h rfl
      rw [List.length_drop] at hstop
      refine .inr ⟨toMatch offset (b :: rest) h, ?_, Nat.le_refl _,
        Nat.lt_of_le_of_ne hge (Ne.symm hne), show h.stop ≤ data.length by omega, ?_,
        fun n hn hlt => absurd hlt (Nat.not_lt_of_le hn)⟩
      · have hbehind : (b :: rest).drop (h.stop - offset) = data.drop h.stop := by
          rw [← hrest, List.drop_drop, Nat.add_sub_cancel' hge]
        rw [hrest] at hrun
        rw [show (toMatch offset (b :: rest) h).stop = h.stop from rfl, ← hbehind, nextMatch, hrun]
        exact if_neg hne
      · exact hrest ▸ find_of_run hle hrun

/-- A scan with room for a match at each byte that is left takes all there are. -/
theorem take_scansFrom (hs : s.Runs) (fuel : Nat) (hle : offset ≤ data.length)
    (hfuel : data.length ≤ offset + fuel) :
    ∃ ms, (⟨s, offset, data.drop offset⟩ : Scan).take fuel = .ok ms ∧
      s.ScansFrom data offset ms := by
  induction fuel generalizing offset with
  | zero => exact ⟨[], rfl, .nil fun n hn hlt => by omega⟩
  | succ fuel ih =>
    rw [Scan.take, Scan.next]
    rcases nextMatch_eq hs hle with ⟨hnext, hidle⟩ | ⟨m, hnext, hstart, hne, hstop, hfound, hidle⟩
    · simp only [hnext]
      exact ⟨[], rfl, .nil hidle⟩
    · simp only [hnext]
      obtain ⟨ms, htake, hms⟩ := ih hstop (by omega)
      exact ⟨m :: ms, bind_eq_ok.2 ⟨ms, htake, rfl⟩, hms.cons hstart hne hfound hidle⟩

/-- **A scan finds all matches that are not empty, from the left and without overlap.** -/
theorem matchesIn_scansFrom (h : compile patterns options = .ok s)
    (hname : options.useCodegen = true → options.functionName ≠ Routine.lengthName)
    (data : List UInt8) :
    ∃ ms, s.matchesIn data = .ok ms ∧ s.ScansFrom data 0 ms ∧
      (∀ ms', s.ScansFrom data 0 ms' → ms' = ms) ∧
      (∀ fuel, data.length ≤ fuel → (Scan.start s data).take fuel = .ok ms) ∧
      s.findAll data = .ok (ms.map fun m => (data.drop m.start).take (m.stop - m.start)) := by
  have hs := runs_of_compile h hname
  obtain ⟨ms, htake, hms⟩ := take_scansFrom hs data.length (Nat.zero_le _)
    (Nat.le_add_left _ _)
  refine ⟨ms, htake, hms, fun ms' hms' => hms'.unique hs hms, fun fuel hfuel => ?_, ?_⟩
  · obtain ⟨ms', htake', hms'⟩ := take_scansFrom hs fuel (Nat.zero_le data.length)
      (by omega)
    exact hms'.unique hs hms ▸ htake'
  · have hgroups : ms.map (·.group) =
        ms.map fun m => (data.drop m.start).take (m.stop - m.start) :=
      List.map_congr_left fun m hm => (hs.of_find (hms.found m hm)).2.2.2
    exact bind_eq_ok.2 ⟨ms, htake, congrArg Except.ok hgroups⟩

/-- The emitted function stands at an empty match in front of the `x`, and takes both matches behind
it. -/
theorem matchesIn_scansFrom_empty :
    let options : Options := ⟨some 10000, false, true, "match_set"⟩
    ∃ s, compile ["ab", "b*"] options = .ok s ∧
      (options.useCodegen = true → options.functionName ≠ Routine.lengthName) ∧
      ∃ ms, s.matchesIn [120, 97, 98, 98, 98] = .ok ms ∧
        ms.map (fun m => (m.index, m.start, m.stop)) = [(0, 1, 3), (1, 3, 5)] ∧
        s.ScansFrom [120, 97, 98, 98, 98] 0 ms ∧ s.Idle [120, 97, 98, 98, 98] 0 := by
  intro options
  have hname : options.useCodegen = true → options.functionName ≠ Routine.lengthName :=
    fun _ => by decide
  have hloads : Routine.Loads options.functionName := ⟨by decide +kernel, by decide +kernel⟩
  have hrun : (compile ["ab", "b*"] { options with useCodegen := false } >>= fun s =>
      s.matchesIn [120, 97, 98, 98, 98] >>= fun ms =>
        pure (ms.map fun m => (m.index, m.start, m.stop))).toOption =
          some [(0, 1, 3), (1, 3, 5)] := by decide +kernel
  obtain ⟨plain, hplain, hrun⟩ := bind_eq_ok.1 (toOption_eq_some.1 hrun)
  obtain ⟨s, hs⟩ := ((switchOf options).exists_compile_iff hplain).2 ⟨hloads, Block.fitsIn_none _⟩
  have hsame := ((switchOf options).sameRuns hplain hs (hname rfl)).matchesIn_eq
  obtain ⟨ms, hms, hscan, -⟩ := matchesIn_scansFrom hs hname [120, 97, 98, 98, 98]
  obtain ⟨ms', hms', hspans⟩ := bind_eq_ok.1 hrun
  obtain rfl := Except.ok.inj (hms.symm.trans ((hsame _).trans hms'))
  replace hspans := Except.ok.inj hspans
  refine ⟨s, hs, hname, ms, hms, hspans, hscan, hscan.complete 0 (by decide) (by decide) ?_⟩
  intro m hm hin
  have hmem := List.mem_map_of_mem (f := fun m : Match => (m.index, m.start, m.stop)) hm
  rw [hspans] at hmem
  simp only [List.mem_cons, Prod.mk.injEq, List.not_mem_nil, or_false] at hmem
  rcases hmem with ⟨-, hstart, -⟩ | ⟨-, hstart, -⟩ <;> omega

/-- A function that is named as the one it asks for the length of its data finds nothing. -/
theorem matchesIn_endlessCall (h : compile patterns options = .ok s)
    (hc : options.useCodegen = true) (hname : options.functionName = Routine.lengthName)
    (hdata : data ≠ []) : s.matchesIn data = .error (.endlessCall Routine.lengthName) := by
  obtain ⟨-, ⟨hnot, -⟩ | ⟨-, hsome⟩⟩ := machine_of_compile h
  · cases hnot.symm.trans hc
  · obtain ⟨b, rest, rfl⟩ := List.exists_cons_of_ne_nil hdata
    have hrun : s.run 0 (b :: rest) = .error (.endlessCall Routine.lengthName) := by
      rw [run, hsome, hname]
      rfl
    have hnext : s.nextMatch 0 (b :: rest) = .error (.endlessCall Routine.lengthName) := by
      rw [nextMatch, hrun]
      rfl
    rw [matchesIn, List.length_cons, Scan.take, Scan.next]
    simp only [Scan.start, hnext]
    rfl

/-- The name is accepted, but the function fails on the first byte. -/
theorem matchesIn_len : ∃ s, compile ["a"] ⟨some 10000, false, true, "len"⟩ = .ok s ∧
    s.matchesIn [97] = .error (.endlessCall "len") := by
  obtain ⟨plain, hplain⟩ : ∃ s, compile ["a"] ⟨some 10000, false, false, "len"⟩ = .ok s :=
    isSome_toOption.1 (by decide +kernel)
  have hloads : Routine.Loads "len" := ⟨by decide +kernel, by decide +kernel⟩
  obtain ⟨s, hs⟩ := ((switchOf ⟨some 10000, false, true, "len"⟩).exists_compile_iff hplain).2
    ⟨hloads, Block.fitsIn_none _⟩
  exact ⟨s, hs, matchesIn_endlessCall hs rfl rfl (by decide)⟩

end Munch.PatternSet
