/-
The emitted function does what its machine does. `Table.round` is one round of a machine's run, and
the emitted block ends each round the same way (`run_body`), so the two go on together from step to
step (`loop_of_run`). They part only at a step that the table lacks: there the machine fails, and the
function leaves its loop with the match found so far (`loop_of_error`). As the function is what the
emitted source is loaded as, all this holds of the source.
-/
import Munch.Options
import Munch.Proofs.Emit.Load

namespace Munch

namespace Table

variable {t : Table} {state : LoopState} {b : UInt8} {index offset : Nat} {rest : List UInt8}
  {hit : Option Hit} {e : Error}

/-- How the machine goes on after a transition on the byte before the offset. -/
def follow (t : Table) (index : Nat) (last : Option Hit) : Transition → RoundEnd
  | .accept pattern => .done (some ⟨pattern, index⟩)
  | .go target conditions =>
    .next ⟨target, ((t.finished target conditions).map (⟨·, index⟩)).or last⟩

/-- How the machine goes on after a step with these cases. -/
def takeCase (t : Table) (b : UInt8) (index : Nat) (last : Option Hit) (cases : List Case) :
    RoundEnd :=
  match cases.find? (·.range.contains b.toNat) with
  | some c => t.follow index last c.transition
  | none => .done last

/-- What the machine does with a byte, behind which the offset is `index`. It can do nothing in a
step that the table lacks. -/
def round (t : Table) (b : UInt8) (index : Nat) (state : LoopState) : Option RoundEnd :=
  (t.steps.get? state.step).map (t.takeCase b index state.last)

/-- A run goes on round by round. -/
theorem run_cons (t : Table) (state : LoopState) (offset : Nat) (b : UInt8) (rest : List UInt8) :
    t.run state.step state.last offset (b :: rest) =
      match t.round b (offset + 1) state with
      | some (.next state) => t.run state.step state.last (offset + 1) rest
      | some (.done hit) => .ok hit
      | none => .error (.noStep state.step) := by
  rw [Table.run, round]
  cases t.steps.get? state.step with
  | none => rfl
  | some cases =>
    simp only [Option.map_some, takeCase]
    cases cases.find? (·.range.contains b.toNat) with
    | none => rfl
    | some c =>
      obtain ⟨range, transition⟩ := c
      cases transition with
      | accept pattern => rfl
      | go target conditions =>
        simp only [follow]
        cases t.finished target conditions with
        | none => rfl
        | some pattern => rfl

/-! ## Rounds of the emitted block -/

theorem run_transitionBlock (transition : Transition) :
    (t.transitionBlock transition).run b index state = t.follow index state.last transition := by
  cases transition with
  | accept pattern => rfl
  | go target conditions =>
    simp only [transitionBlock, follow]
    cases t.finished target conditions with
    | none => rfl
    | some pattern => rfl

theorem run_casesBlock (cases : List Case) :
    (t.casesBlock cases).run b index state = t.takeCase b index state.last cases := by
  induction cases with
  | nil => rfl
  | cons c rest ih =>
    rw [casesBlock, List.foldr_cons, Block.run, Test.holds, takeCase, List.find?_cons]
    cases c.range.contains b.toNat with
    | true => exact run_transitionBlock c.transition
    | false => exact ih

theorem run_stepsBlock (steps : List StepId) :
    (t.stepsBlock steps).run b index state =
      if state.step ∈ steps then
        t.takeCase b index state.last ((t.steps.get? state.step).getD [])
      else .done state.last := by
  induction steps with
  | nil => rfl
  | cons step rest ih =>
    rw [stepsBlock, List.foldr_cons, Block.run, Test.holds]
    by_cases h : state.step = step
    · simp [h, run_casesBlock]
    · have hne : (state.step == step) = false := by simpa using h
      rw [hne]
      simp only [Bool.false_eq_true, if_false, List.mem_cons, h, false_or]
      exact ih

/-- The block ends a round as the machine does; at a missing step it leaves the loop. -/
theorem run_body (t : Table) (b : UInt8) (index : Nat) (state : LoopState) :
    t.body.run b index state = (t.round b index state).getD (.done state.last) := by
  rw [body, run_stepsBlock, round]
  simp only [mem_sort, IdMap.mem_keys]
  cases t.steps.get? state.step with
  | none => simp
  | some cases => simp

/-! ## Whole runs -/

theorem loop_of_run (h : t.run state.step state.last offset rest = .ok hit) :
    Matcher.loop t.body state offset rest = hit := by
  induction rest generalizing state offset with
  | nil => exact Except.ok.inj h
  | cons b rest ih =>
    rw [run_cons] at h
    rw [Matcher.loop, run_body]
    split at h
    · next state' hround =>
      rw [hround]
      exact ih h
    · next hit' hround =>
      rw [hround]
      exact Except.ok.inj h
    · cases h

/-- A run that fails has come to a step that the table lacks, and reads no further. The bytes before
give the match that the function leaves its loop with. -/
theorem loop_of_error (h : t.run state.step state.last offset rest = .error e) :
    ∃ step n, e = .noStep step ∧ t.steps.get? step = none ∧ n < rest.length ∧
      t.run state.step state.last offset (rest.take n) =
        .ok (Matcher.loop t.body state offset rest) ∧
      ∀ k, n < k → t.run state.step state.last offset (rest.take k) = .error e := by
  induction rest generalizing state offset with
  | nil => cases h
  | cons b rest ih =>
    rw [run_cons] at h
    rw [Matcher.loop, run_body]
    split at h
    · next state' hround =>
      obtain ⟨step, n, he, hstep, hn, hbefore, hbehind⟩ := ih h
      refine ⟨step, n + 1, he, hstep, Nat.succ_lt_succ hn, ?_, fun k hk => ?_⟩
      · rw [List.take_succ_cons, run_cons, hround]
        exact hbefore
      · obtain ⟨k, rfl⟩ := Nat.exists_eq_succ_of_ne_zero (Nat.ne_zero_of_lt hk)
        rw [List.take_succ_cons, run_cons, hround]
        exact hbehind k (Nat.lt_of_succ_lt_succ hk)
    · cases h
    · next hround =>
      obtain rfl := Except.error.inj h
      refine ⟨state.step, 0, rfl, ?_, Nat.succ_pos _, ?_, fun k hk => ?_⟩
      · simpa [round] using hround
      · rw [hround]
        rfl
      · obtain ⟨k, rfl⟩ := Nat.exists_eq_succ_of_ne_zero (Nat.ne_zero_of_lt hk)
        rw [List.take_succ_cons, run_cons, hround]

end Table

/-- How a run starts at an offset. -/
def Machine.startState (m : Machine) (offset : Nat) : LoopState :=
  ⟨m.initial, (m.table.ends.get? m.initial).map (⟨·, offset⟩)⟩

theorem Machine.run_startState (m : Machine) (offset : Nat) (rest : List UInt8) : m.run offset rest =
    m.table.run (m.startState offset).step (m.startState offset).last offset rest := rfl

namespace Machine

variable {m : Machine} {r : Routine} {f : Matcher} {name : String} {data rest : List UInt8}
  {offset start : Nat} {hit : Option Hit} {e : Error}

/-- A function that does not call itself goes through its loop. -/
theorem run_matcher (m : Machine) (hname : name ≠ Routine.lengthName) (offset : Nat)
    (rest : List UInt8) :
    (m.matcher name).run offset rest =
      .ok (Matcher.loop m.table.body (m.startState offset) offset rest) :=
  if_neg hname

/-- The function finds what the machine finds. -/
theorem run_matcher_of_run (hname : name ≠ Routine.lengthName)
    (hrun : m.run offset rest = .ok hit) : (m.matcher name).run offset rest = .ok hit := by
  rw [run_startState] at hrun
  rw [run_matcher m hname, Table.loop_of_run hrun]

/-- From the start on, the machine comes to a step that its table lacks when it has read the bytes
before `stop`, which give the match. -/
structure StuckAt (m : Machine) (data : List UInt8) (start stop : Nat) (step : StepId)
    (hit : Option Hit) : Prop where
  start_le : start ≤ stop
  lt_length : stop < data.length
  missing : m.table.steps.get? step = none
  before : m.find (data.take stop) start = .ok hit
  behind : ∀ n, stop < n → m.find (data.take n) start = .error (.noStep step)

/-- **The emitted source is loaded as a function that finds what the machine finds.** It is loaded as
far as the host has room for its branches. Where the machine is stuck, the function returns the match
found before. -/
theorem find_routine (h : m.routine Options.standard.functionName = .ok r) (room : Option Nat) :
    let loaded := Matcher.load r.text Options.standard.functionName room
    (m.table.body.FitsIn room → ∃ f, loaded = .ok f) ∧
    (¬ m.table.body.FitsIn room → loaded = .error (.tooDeep Options.standard.functionName)) ∧
    ∀ f, loaded = .ok f → ∀ (data : List UInt8) (start : Nat),
      (∀ hit, m.find data start = .ok hit → f.find data start = .ok hit) ∧
      ∀ e, m.find data start = .error e → ∃ step stop hit, e = .noStep step ∧
        m.StuckAt data start stop step hit ∧ f.find data start = .ok hit := by
  intro loaded
  have hname : Options.standard.functionName ≠ Routine.lengthName := by decide
  have hloads : Routine.Loads Options.standard.functionName :=
    ⟨by decide +kernel, by decide +kernel⟩
  refine ⟨fun hfits => ⟨_, (load_eq_ok_iff h).2 ⟨rfl, hloads, hfits⟩⟩, load_eq_tooDeep h hloads,
    fun f hf data start => ?_⟩
  obtain ⟨rfl, -⟩ := (load_eq_ok_iff h).1 hf
  refine ⟨fun hit hrun => run_matcher_of_run hname hrun, fun e hrun => ?_⟩
  rw [find, run_startState] at hrun
  obtain ⟨step, n, rfl, hmissing, hn, hbefore, hbehind⟩ := Table.loop_of_error hrun
  rw [List.length_drop] at hn
  have hfind (k : Nat) : m.find (data.take k) start =
      m.run start ((data.drop start).take (k - start)) := by
    rw [find, List.drop_take]
  refine ⟨step, start + n, _, rfl, ⟨by omega, by omega, hmissing, ?_, fun k hk => ?_⟩,
    run_matcher m hname start (data.drop start)⟩
  · rw [hfind, Nat.add_sub_cancel_left]
    exact hbefore
  · rw [hfind]
    exact hbehind _ (by omega)

/-- An `a` leads to a step that the table lacks, but that accepts; the `b` behind it is not read. -/
theorem find_routine_missing :
    let m : Machine := ⟨⟨⟨[(0, [⟨⟨97, 97⟩, .go 7 [⟨3, ⟨97, 97⟩⟩]⟩, ⟨⟨97, 98⟩, .accept 4⟩])], by decide⟩,
      ⟨[(0, 2), (7, 1), (3, 5)], by decide⟩⟩, 0, ["a"]⟩
    ∃ r f, m.routine Options.standard.functionName = .ok r ∧
      Matcher.load r.text Options.standard.functionName (some Matcher.hostRoom) = .ok f ∧
      m.find [97, 98] 0 = .error (.noStep 7) ∧ f.find [97, 98] 0 = .ok (some ⟨1, 1⟩) := by
  intro m
  obtain ⟨r, hr⟩ : ∃ r, m.routine Options.standard.functionName = .ok r :=
    isSome_toOption.1 (by decide +kernel)
  have hfits : m.table.body.FitsIn (some Matcher.hostRoom) := by
    rintro n ⟨⟩
    decide +kernel
  obtain ⟨hload, -, hfind⟩ := find_routine hr (some Matcher.hostRoom)
  obtain ⟨f, hf⟩ := hload hfits
  have hstuck : m.find [97, 98] 0 = .error (.noStep 7) := rfl
  obtain ⟨step, stop, hit, -, hat, hfound⟩ := (hfind f hf [97, 98] 0).2 _ hstuck
  obtain rfl : stop = 1 := by
    have hlt : stop < 2 := hat.lt_length
    have hne : stop ≠ 0 := by
      rintro rfl
      cases hat.behind 1 (by decide)
    omega
  obtain rfl : some ⟨1, 1⟩ = hit := Except.ok.inj hat.before
  exact ⟨r, f, hr, hf, hstuck, hfound⟩

end Machine

end Munch
