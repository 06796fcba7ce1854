/-
A set that matches with its emitted function answers as it would with its machine
(`compile_codegen`). Both compile from the same machine, and whether the source of the function can be
loaded is a matter of its name and of the room for its branches (`exists_ofMachine_iff`). Sets with
the same runs answer the same, and the function of a compiled machine has the runs of the machine.
-/
import Munch.Proofs.Compilation

namespace Munch

variable {patterns : List String} {options : Options} {machine : Machine} {maxSteps : Option Int}
  {room : Option Nat}

/-! ## Functions of compiled machines -/

theorem Options.isIdentifier_of_check (h : options.check = .ok ()) :
    Text.isIdentifier options.functionName = true := by
  by_contra hnot
  rw [Bool.not_eq_true] at hnot
  simp only [check, hnot, Bool.not_false, if_true] at h
  split at h
  · split at h
    · cases h
    · cases h
  · cases h

theorem Machine.stepSize_of_compile (h : compile patterns maxSteps = .ok machine) :
    ∃ size, machine.stepSize = .ok size := by
  rw [compile_eq] at h
  obtain ⟨t, -, h⟩ := bind_eq_ok.1 h
  obtain ⟨size, hsize, h⟩ := bind_eq_ok.1 h
  obtain rfl := Except.ok.inj h
  exact ⟨size, hsize⟩

/-- A compiled machine has a function under every identifier. -/
theorem Machine.exists_routine (h : compile patterns maxSteps = .ok machine) {name : String}
    (hname : Text.isIdentifier name = true) : ∃ r, machine.routine name = .ok r := by
  obtain ⟨size, hsize⟩ := stepSize_of_compile h
  unfold routine
  rw [if_neg (by simp [hname])]
  exact ⟨_, bind_eq_ok.2 ⟨size, hsize, rfl⟩⟩

namespace PatternSet

variable {s s' : PatternSet} {data rest : List UInt8} {offset : Nat}

/-- To match with its function, a compiled machine loads the source of it. -/
theorem ofMachine_eq (room : Option Nat) (hcheck : options.check = .ok ())
    (h : Machine.compile patterns maxSteps = .ok machine) (hc : options.useCodegen = true) :
    ∃ r, machine.routine options.functionName = .ok r ∧ ofMachine machine options room =
      (Matcher.load r.text options.functionName room).map fun f => ⟨machine, options, some f⟩ := by
  obtain ⟨r, hr⟩ := Machine.exists_routine h (Options.isIdentifier_of_check hcheck)
  refine ⟨r, hr, ?_⟩
  rw [ofMachine, if_pos hc, hr]
  rfl

/-- A compiled machine makes a set, unless the set needs a function that cannot be loaded. -/
theorem exists_ofMachine_iff (hcheck : options.check = .ok ())
    (h : Machine.compile patterns maxSteps = .ok machine) :
    (∃ s, ofMachine machine options room = .ok s) ↔ (options.useCodegen = true →
      Routine.Loads options.functionName ∧ machine.table.body.FitsIn room) := by
  by_cases hc : options.useCodegen = true
  · obtain ⟨r, hr, heq⟩ := ofMachine_eq room hcheck h hc
    rw [heq, exists_map_eq_ok, Machine.exists_load_iff hr]
    exact ⟨fun hloads _ => hloads, fun hloads => hloads hc⟩
  · rw [ofMachine, if_neg hc]
    exact iff_of_true ⟨_, rfl⟩ fun h => absurd h hc

/-! ## Sets with the same runs -/

/-- The sets find the same at each offset, or fail there in the same way. -/
def SameRuns (s s' : PatternSet) : Prop :=
  ∀ (offset : Nat) (rest : List UInt8), s.run offset rest = s'.run offset rest

namespace SameRuns

theorem find_eq (h : SameRuns s s') (data : List UInt8) (start : Int) :
    s.find data start = s'.find data start := by
  unfold find
  simp only [h _ _]

theorem nextMatch_eq (h : SameRuns s s') (offset : Nat) (rest : List UInt8) :
    s.nextMatch offset rest = s'.nextMatch offset rest := by
  induction rest generalizing offset with
  | nil => rfl
  | cons b rest ih => simp only [nextMatch, h _ _, ih]

/-- Scans of the two sets take the same matches. -/
theorem take_eq (h : SameRuns s s') (fuel offset : Nat) (rest : List UInt8) :
    (⟨s, offset, rest⟩ : Scan).take fuel = (⟨s', offset, rest⟩ : Scan).take fuel := by
  induction fuel generalizing offset rest with
  | zero => rfl
  | succ fuel ih =>
    simp only [Scan.take, Scan.next, h.nextMatch_eq]
    cases s'.nextMatch offset rest with
    | error e => rfl
    | ok found =>
      cases found with
      | none => rfl
      | some found => simp only [ih]

theorem matchesIn_eq (h : SameRuns s s') (data : List UInt8) :
    s.matchesIn data = s'.matchesIn data :=
  h.take_eq data.length 0 data

theorem findAll_eq (h : SameRuns s s') (data : List UInt8) : s.findAll data = s'.findAll data := by
  rw [findAll, findAll, h.matchesIn_eq]

end SameRuns

/-! ## Matching with the function -/

/-- The same choices but for the function and how the set matches with it. -/
structure SwitchOf (options options' : Options) : Prop where
  off : options.useCodegen = false
  on : options'.useCodegen = true
  check : options'.check = options.check
  maxSteps : options'.maxSteps = options.maxSteps

namespace SwitchOf

variable {options' : Options} {e : Error}

/-- What does not compile without the function does not compile with it. -/
theorem error_of_error (h : SwitchOf options options')
    (he : compile patterns options room = .error e) :
    compile patterns options' room = .error e := by
  unfold compile
  rw [h.check, h.maxSteps]
  rcases bind_eq_error he with hcheck | ⟨_, hcheck, he⟩
  · rw [hcheck]
    rfl
  · rw [hcheck]
    rcases bind_eq_error he with hmachine | ⟨machine, -, hof⟩
    · exact congrArg (· >>= fun machine => ofMachine machine options' room) hmachine
    · rw [ofMachine, if_neg (by simp [h.off])] at hof
      cases hof

/-- What compiles without the function loads the source of it to compile with it. -/
theorem compile_eq (h : SwitchOf options options') (hs : compile patterns options room = .ok s) :
    ∃ r, s.machine.routine options'.functionName = .ok r ∧ compile patterns options' room =
      (Matcher.load r.text options'.functionName room).map fun f =>
        ⟨s.machine, options', some f⟩ := by
  obtain ⟨_, hcheck, -⟩ := bind_eq_ok.1 hs
  obtain ⟨hmachine, -⟩ := of_compile hs h.off
  rw [← h.check] at hcheck
  rw [← h.maxSteps] at hmachine
  obtain ⟨r, hr, hof⟩ := ofMachine_eq room hcheck hmachine h.on
  refine ⟨r, hr, ?_⟩
  rw [compile, hcheck, hmachine, ← hof]
  rfl

/-- What compiles without the function compiles with it if the function can be loaded. -/
theorem exists_compile_iff (h : SwitchOf options options')
    (hs : compile patterns options room = .ok s) :
    (∃ s', compile patterns options' room = .ok s') ↔
      Routine.Loads options'.functionName ∧ s.machine.table.body.FitsIn room := by
  obtain ⟨r, hr, heq⟩ := h.compile_eq hs
  rw [heq, exists_map_eq_ok, Machine.exists_load_iff hr]

/-- If the source of the function cannot be loaded, this is why the set does not compile. -/
theorem compile_fails (h : SwitchOf options options') (hs : compile patterns options room = .ok s)
    (he : ∀ r, s.machine.routine options'.functionName = .ok r →
      Matcher.load r.text options'.functionName room = .error e) :
    compile patterns options' room = .error e := by
  obtain ⟨r, hr, heq⟩ := h.compile_eq hs
  rw [heq, he r hr]
  rfl

/-- The function of a compiled set has the runs of the machine, unless it calls itself. -/
theorem sameRuns (h : SwitchOf options options') (hs : compile patterns options room = .ok s)
    (hs' : compile patterns options' room = .ok s')
    (hname : options'.functionName ≠ Routine.lengthName) : SameRuns s' s := by
  obtain ⟨hmachine, hnone⟩ := of_compile hs h.off
  obtain ⟨hmachine', ⟨hoff, -⟩ | ⟨-, hsome⟩⟩ := machine_of_compile hs'
  · cases hoff.symm.trans h.on
  rw [h.maxSteps] at hmachine'
  have hsame : s.machine = s'.machine := Except.ok.inj (hmachine.symm.trans hmachine')
  obtain ⟨_, -, hlongest⟩ := Machine.run_longest hmachine
  intro offset rest
  obtain ⟨hit, hhit, -⟩ := hlongest offset rest
  rw [run, run, hnone, hsome]
  exact (Machine.run_matcher_of_run hname (hsame ▸ hhit)).trans hhit.symm

end SwitchOf

theorem switchOf (options : Options) :
    SwitchOf { options with useCodegen := false } { options with useCodegen := true } :=
  ⟨rfl, rfl, rfl, rfl⟩

/-- **Matching with the emitted function changes nothing.** What does not compile without the function
does not compile with it, for the same reason, and what does needs a name under which the emitted
source can be loaded, and room for its branches. Then both sets find the same, wherever they start and
however far they scan, unless the function takes the place of the one that it calls. -/
theorem compile_codegen (patterns : List String) (options : Options) (room : Option Nat) :
    let plain := compile patterns { options with useCodegen := false } room
    let emitted := compile patterns { options with useCodegen := true } room
    (∀ e, plain = .error e → emitted = .error e) ∧
      ∀ s, plain = .ok s →
        ((∃ s', emitted = .ok s') ↔
          Routine.Loads options.functionName ∧ s.machine.table.body.FitsIn room) ∧
        ∀ s', emitted = .ok s' → options.functionName ≠ Routine.lengthName →
          (∀ data start, s'.find data start = s.find data start) ∧
          (∀ data fuel, (Scan.start s' data).take fuel = (Scan.start s data).take fuel) ∧
          (∀ data, s'.matchesIn data = s.matchesIn data) ∧
          ∀ data, s'.findAll data = s.findAll data := by
  intro plain emitted
  have hswitch := switchOf options
  refine ⟨fun e he => hswitch.error_of_error he, fun s hs => ⟨hswitch.exists_compile_iff hs, ?_⟩⟩
  intro s' hs' hname
  have hruns := hswitch.sameRuns hs hs' hname
  exact ⟨hruns.find_eq, fun data fuel => hruns.take_eq fuel 0 data, hruns.matchesIn_eq,
    hruns.findAll_eq⟩

/-- The function passes an empty match in front of the `x` and goes on from match to match, as the
machine does. -/
theorem compile_codegen_empty :
    let options : Options := ⟨some 10000, false, false, "match_set"⟩
    let room := some Matcher.hostRoom
    ∃ s s', compile ["ab", "b*"] options room = .ok s ∧ Routine.Loads options.functionName ∧
      s.machine.table.body.FitsIn room ∧
      compile ["ab", "b*"] { options with useCodegen := true } room = .ok s' ∧
      options.functionName ≠ Routine.lengthName ∧
      ∃ ms, s'.matchesIn [120, 97, 98, 98] = .ok ms ∧ s.matchesIn [120, 97, 98, 98] = .ok ms ∧
        ms.map (fun m => (m.index, m.start, m.stop)) = [(0, 1, 3), (1, 3, 4)] := by
  intro options room
  have hloads : Routine.Loads options.functionName := ⟨by decide +kernel, by decide +kernel⟩
  have hname : options.functionName ≠ Routine.lengthName := by decide
  have hrun : (compile ["ab", "b*"] options room >>= fun s =>
      s.matchesIn [120, 97, 98, 98] >>= fun ms =>
        pure (decide (s.machine.table.body.depth ≤ Matcher.hostRoom),
          ms.map fun m => (m.index, m.start, m.stop))).toOption =
        some (true, [(0, 1, 3), (1, 3, 4)]) := by decide +kernel
  obtain ⟨s, hs, hrun⟩ := bind_eq_ok.1 (toOption_eq_some.1 hrun)
  obtain ⟨ms, hms, hrun⟩ := bind_eq_ok.1 hrun
  obtain ⟨hdepth, hspans⟩ := Prod.mk.inj (Except.ok.inj hrun)
  have hfits : s.machine.table.body.FitsIn (some Matcher.hostRoom) := by
    rintro n ⟨⟩
    exact of_decide_eq_true hdepth
  obtain ⟨hcompiles, hsame⟩ := (compile_codegen ["ab", "b*"] options room).2 s hs
  obtain ⟨s', hs'⟩ := hcompiles.2 ⟨hloads, hfits⟩
  obtain ⟨-, -, hmatches, -⟩ := hsame s' hs' hname
  exact ⟨s, s', hs, hloads, hfits, hs', hname, ms, (hmatches _).trans hms, hms, hspans⟩

/-- A reserved word is accepted as a name, but no function of that name can be loaded. -/
theorem compile_codegen_reserved :
    (∃ s, compile ["a"] ⟨some 10000, false, false, "class"⟩ = .ok s) ∧
      compile ["a"] ⟨some 10000, false, true, "class"⟩ = .error (.reservedName "class") := by
  obtain ⟨s, hs⟩ : ∃ s, compile ["a"] ⟨some 10000, false, false, "class"⟩ = .ok s :=
    isSome_toOption.1 (by decide +kernel)
  refine ⟨⟨s, hs⟩, (switchOf ⟨some 10000, false, true, "class"⟩).compile_fails hs fun r hr => ?_⟩
  rw [Machine.load_eq hr, if_pos (by decide)]

/-- With as many steps as the host has levels, a set matches with its machine only. -/
theorem compile_eq_tooDeep {n : Nat} (hoff : options.useCodegen = false)
    (hname : Routine.Loads options.functionName) (hs : compile patterns options (some n) = .ok s)
    (hdeep : n ≤ s.machine.table.steps.size) :
    compile patterns { options with useCodegen := true } (some n) =
      .error (.tooDeep options.functionName) := by
  have hswitch : SwitchOf options { options with useCodegen := true } := ⟨hoff, rfl, rfl, rfl⟩
  refine hswitch.compile_fails hs fun r hr => Machine.load_eq_tooDeep hr hname fun hfits => ?_
  have := s.machine.table.size_lt_depth_body
  have := hfits n rfl
  omega

end PatternSet

end Munch
