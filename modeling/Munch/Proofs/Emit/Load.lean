/-
What a routine prints is loaded as the function it was made from. The lines of a block are read back
as the block, and leave what is not as deep behind them (`Block.reads`), so the source of a routine is
read as its function (`Matcher.read?_text`). It is loaded unless its name or the depth of its branches
stands against it (`Machine.load_eq_ok_iff`).
-/
import Munch.Proofs.Answers
import Munch.Proofs.Emit.Comment
import Munch.Proofs.Emit.Line
import Munch.Proofs.Table.IdMap

namespace Munch

open Text

/-! ## Blocks -/

namespace Block

variable {b no yes : Block} {test : Test} {opens : Bool} {fuel depth : Nat} {lines rest : List Line}

/-- No branch of the block is empty. -/
def IsProper : Block → Prop
  | .next | .leave | .finish _ => True
  | .setLast _ rest | .setStep _ rest => rest.IsProper
  | .branch _ yes no => yes ≠ .next ∧ yes.IsProper ∧ no.IsProper

/-- What an open branch goes on with. -/
def otherLines (depth : Nat) : Block → List Line
  | .next => []
  | .branch test yes no => (branch test yes no).lines false depth
  | no => ⟨depth, .otherwise⟩ :: no.lines true (depth + 1)

theorem lines_branch (opens : Bool) (depth : Nat) (test : Test) (yes no : Block) :
    (branch test yes no).lines opens depth =
      ⟨depth, .ask opens test⟩ :: (yes.lines true (depth + 1) ++ no.otherLines depth) := by
  cases no <;> rfl

/-- The first of the lines is not as deep. -/
def Shallower (depth : Nat) (lines : List Line) : Prop := ∀ l ∈ lines.head?, l.depth < depth

theorem Shallower.otherLines (h : Shallower depth rest) (no : Block) :
    Shallower (depth + 1) (no.otherLines depth ++ rest) := by
  cases no with
  | next => exact fun l hl => Nat.lt_succ_of_lt (h l hl)
  | branch test yes no =>
    rw [Block.otherLines, lines_branch]
    rintro l ⟨⟩
    exact Nat.lt_succ_self depth
  | _ =>
    rintro l ⟨⟩
    exact Nat.lt_succ_self depth

theorem read?_shallower (h : Shallower depth rest) (hfuel : 0 < fuel) :
    read? fuel opens depth rest = some (.next, rest) := by
  obtain ⟨fuel, rfl⟩ := Nat.exists_eq_succ_of_ne_zero (Nat.pos_iff_ne_zero.1 hfuel)
  cases rest with
  | nil => rfl
  | cons l rest =>
    have hl : l.depth < depth := h l rfl
    exact if_pos (by omega)

theorem suite?_of_ne (h : b ≠ .next) (rest : List Line) : suite? (b, rest) = some (b, rest) := by
  cases b with
  | next => exact absurd rfl h
  | _ => rfl

/-- A block is read from its lines, or from what an open branch goes on with for its sake. -/
structure Reads (b : Block) : Prop where
  lines {fuel depth : Nat} {rest : List Line} (hrest : Shallower depth rest)
    (hfuel : (b.lines true depth ++ rest).length < fuel) :
    read? fuel true depth (b.lines true depth ++ rest) = some (b, rest)
  other {fuel depth : Nat} {rest : List Line} (hrest : Shallower depth rest)
    (hfuel : (b.otherLines depth ++ rest).length < fuel) :
    read? fuel false depth (b.otherLines depth ++ rest) = some (b, rest)

/-- Behind an `else`, a block is read from its lines. -/
theorem read?_otherwise (hb : b ≠ .next) (hrest : Shallower depth rest)
    (hfuel : (b.lines true (depth + 1) ++ rest).length + 1 < fuel)
    (hlines : ∀ {fuel depth : Nat} {rest : List Line}, Shallower depth rest →
      (b.lines true depth ++ rest).length < fuel →
      read? fuel true depth (b.lines true depth ++ rest) = some (b, rest)) :
    read? fuel false depth (⟨depth, .otherwise⟩ :: (b.lines true (depth + 1) ++ rest)) =
      some (b, rest) := by
  obtain ⟨fuel, rfl⟩ := Nat.exists_eq_succ_of_ne_zero (Nat.ne_zero_of_lt hfuel)
  have hdeeper : Shallower (depth + 1) rest := fun l hl => Nat.lt_succ_of_lt (hrest l hl)
  have hread := hlines hdeeper (Nat.lt_of_succ_lt_succ hfuel)
  refine (if_neg (by simp)).trans ?_
  show read? fuel true (depth + 1) _ >>= suite? = _
  rw [hread]
  exact suite?_of_ne hb rest

theorem read?_branch (hyes : yes ≠ .next) (hreads : yes.Reads) (hno : no.Reads)
    (hrest : Shallower depth rest)
    (hfuel : ((branch test yes no).lines opens depth ++ rest).length < fuel) :
    read? fuel opens depth ((branch test yes no).lines opens depth ++ rest) =
      some (.branch test yes no, rest) := by
  obtain ⟨fuel, rfl⟩ := Nat.exists_eq_succ_of_ne_zero (Nat.ne_zero_of_lt hfuel)
  rw [lines_branch, List.cons_append, List.append_assoc] at hfuel ⊢
  have hsuite := hreads.lines (hrest.otherLines no) (Nat.lt_of_succ_lt_succ hfuel)
  have hother : read? fuel false depth (no.otherLines depth ++ rest) = some (no, rest) := by
    refine hno.other hrest ?_
    simp only [List.length_cons, List.length_append] at hfuel ⊢
    omega
  refine (if_neg (by simp)).trans ?_
  cases opens <;>
  · simp only [hsuite, Option.bind_eq_bind, Option.bind_some, suite?_of_ne hyes, hother]
    rfl

theorem Reads.of_lines (hb : b ≠ .next) (hother : ∀ depth,
      b.otherLines depth = ⟨depth, .otherwise⟩ :: b.lines true (depth + 1))
    (hlines : ∀ {fuel depth : Nat} {rest : List Line}, Shallower depth rest →
      (b.lines true depth ++ rest).length < fuel →
      read? fuel true depth (b.lines true depth ++ rest) = some (b, rest)) : b.Reads := by
  refine ⟨hlines, fun {fuel depth rest} hrest hfuel => ?_⟩
  rw [hother] at hfuel ⊢
  exact read?_otherwise hb hrest hfuel hlines

theorem reads (h : b.IsProper) : b.Reads := by
  have hpos {n fuel : Nat} (h : n < fuel) : ∃ k, fuel = k + 1 :=
    Nat.exists_eq_succ_of_ne_zero (Nat.ne_zero_of_lt h)
  induction b with
  | next =>
    exact ⟨fun hrest hfuel => read?_shallower hrest (Nat.zero_lt_of_lt hfuel),
      fun hrest hfuel => read?_shallower hrest (Nat.zero_lt_of_lt hfuel)⟩
  | leave =>
    refine .of_lines (by simp) (fun _ => rfl) fun hrest hfuel => ?_
    obtain ⟨fuel, rfl⟩ := hpos hfuel
    exact if_neg (by simp)
  | finish index =>
    refine .of_lines (by simp) (fun _ => rfl) fun hrest hfuel => ?_
    obtain ⟨fuel, rfl⟩ := hpos hfuel
    exact if_neg (by simp)
  | setLast index rest ih =>
    refine .of_lines (by simp) (fun _ => rfl) fun {fuel depth tail} htail hfuel => ?_
    obtain ⟨fuel, rfl⟩ := hpos hfuel
    have hread := (ih h).lines htail (Nat.lt_of_succ_lt_succ hfuel)
    refine (if_neg (by simp)).trans ?_
    show (read? fuel true depth (rest.lines true depth ++ tail)).bind _ = _
    rw [hread]
    rfl
  | setStep step rest ih =>
    refine .of_lines (by simp) (fun _ => rfl) fun {fuel depth tail} htail hfuel => ?_
    obtain ⟨fuel, rfl⟩ := hpos hfuel
    have hread := (ih h).lines htail (Nat.lt_of_succ_lt_succ hfuel)
    refine (if_neg (by simp)).trans ?_
    show (read? fuel true depth (rest.lines true depth ++ tail)).bind _ = _
    rw [hread]
    rfl
  | branch test yes no ihyes ihno =>
    obtain ⟨hne, hyes, hno⟩ := h
    exact ⟨read?_branch hne (ihyes hyes) (ihno hno), read?_branch hne (ihyes hyes) (ihno hno)⟩

theorem inked_lines (b : Block) : ∀ {opens : Bool} {depth : Nat}, ∀ l ∈ b.lines opens depth,
    l.phrase.IsInked := by
  have hother {no : Block} {depth : Nat} (hno : ∀ {opens depth}, ∀ l ∈ no.lines opens depth,
      l.phrase.IsInked) : ∀ l ∈ no.otherLines depth, l.phrase.IsInked := by
    cases no with
    | next => simp [otherLines]
    | branch => exact hno
    | _ => exact List.forall_mem_cons.2 ⟨trivial, hno⟩
  induction b with
  | next => simp [lines]
  | leave => simp [lines, Phrase.IsInked]
  | finish index => simp [lines, Phrase.IsInked]
  | setLast index rest ih => exact List.forall_mem_cons.2 ⟨trivial, ih⟩
  | setStep step rest ih => exact List.forall_mem_cons.2 ⟨trivial, ih⟩
  | branch test yes no ihyes ihno =>
    intro opens depth
    rw [lines_branch, List.forall_mem_cons, List.forall_mem_append]
    exact ⟨trivial, ihyes, hother ihno⟩

end Block

/-! ## Functions -/

namespace Matcher

variable {f : Matcher}

theorem ofLines?_lines (hname : isIdentifier f.name = true) (hbody : f.body.IsProper) :
    ofLines? f.lines = some f := by
  let lines := f.body.lines true 2 ++ [(⟨1, .giveLast⟩ : Line)]
  have hend : Block.Shallower 2 [⟨1, .giveLast⟩] := by
    rintro l ⟨⟩
    exact Nat.lt_succ_self 1
  have hread : Block.read? (lines.length + 1) true 2 lines = some (f.body, [⟨1, .giveLast⟩]) :=
    (Block.reads hbody).lines hend (Nat.lt_succ_self _)
  simp only [Matcher.lines, List.cons_append, List.nil_append, ofLines?]
  rw [hread]
  exact if_pos hname

theorem inked_lines (hname : isIdentifier f.name = true) : ∀ l ∈ f.lines, l.phrase.IsInked := by
  rw [lines, List.forall_mem_append, List.forall_mem_append]
  refine ⟨⟨?_, f.body.inked_lines⟩, by simp [Phrase.IsInked]⟩
  simpa [Phrase.IsInked] using inked_of_isIdentifier hname

end Matcher

theorem IsComment.isClean {line : String} (h : IsComment line) : Line.IsClean line.toList := by
  intro c hc
  have hbreak := h.unbroken c hc
  refine ⟨?_, fun hzero => h.noZero (hzero ▸ hc)⟩
  simp only [isLineBreak, List.contains_cons, Bool.or_eq_false_iff] at hbreak
  rw [Line.isEnd, hbreak.1, hbreak.2.1]
  rfl

theorem IsComment.isSilent {line : String} (h : IsComment line) :
    Line.isSilent line.toList = true := by
  obtain ⟨cs, heq⟩ := List.head?_eq_some_iff.1 h.head
  rw [Line.isSilent, heq]
  rfl

theorem Routine.isComment_size (steps size : Nat) :
    IsComment ("# " ++ toString steps ++ " steps, step size " ++ toString size) := by
  have hnumber (n : Nat) : Prints (toString n).toList := by
    rw [Nat.toString_eq_repr, Nat.toList_repr]
    exact prints_toDigits (by decide) (by decide) n
  have htext : Prints "# ".toList ∧ Prints " steps, step size ".toList := by decide +kernel
  refine .of_prints ?_ (by simp)
  simp only [String.toList_append, prints_append]
  exact ⟨⟨⟨htext.1, hnumber steps⟩, htext.2⟩, hnumber size⟩

/-- The source of a routine is read as its function. -/
theorem Matcher.read?_text {r : Routine} (hname : isIdentifier r.name = true)
    (hbody : r.matcher.body.IsProper) : read? r.text = some r.matcher := by
  have hcomments : ∀ c ∈ ["# patterns: " ++ quotedList r.patterns,
      "# " ++ toString r.steps ++ " steps, step size " ++ toString r.size], IsComment c :=
    List.forall_mem_cons.2 ⟨isComment_heading r.patterns,
      List.forall_mem_singleton.2 (Routine.isComment_size r.steps r.size)⟩
  rw [read?, Routine.text, Routine.lines, Line.ofSource?_comments
    (fun c hc => ⟨(hcomments c hc).isClean, (hcomments c hc).isSilent⟩) (inked_lines hname)]
  exact ofLines?_lines hname hbody

/-! ## Tables -/

namespace Table

variable {t : Table} {cases : List Case} {steps : List StepId} {n : Nat}

theorem isProper_casesBlock (t : Table) (cases : List Case) : (t.casesBlock cases).IsProper := by
  have htransition (x : Transition) :
      t.transitionBlock x ≠ .next ∧ (t.transitionBlock x).IsProper := by
    cases x with
    | accept index => exact ⟨by simp [transitionBlock], trivial⟩
    | go target conditions =>
      rw [transitionBlock]
      cases t.finished target conditions with
      | none => exact ⟨by simp, trivial⟩
      | some index => exact ⟨by simp, trivial⟩
  induction cases with
  | nil => trivial
  | cons c cases ih => exact ⟨(htransition _).1, (htransition _).2, ih⟩

theorem isProper_body (t : Table) : t.body.IsProper := by
  rw [body]
  induction sort (· ≤ ·) t.steps.keys with
  | nil => trivial
  | cons step steps ih =>
    refine ⟨?_, t.isProper_casesBlock _, ih⟩
    cases (t.steps.get? step).getD [] <;> simp [casesBlock]

theorem numberDepth_le (n : Int) : numberDepth n ≤ 2 := by
  rw [numberDepth]
  split <;> omega

theorem depth_casesBlock_le (t : Table) (cases : List Case) :
    (t.casesBlock cases).depth ≤ cases.length + 4 := by
  have htransition (x : Transition) : (t.transitionBlock x).depth ≤ 4 := by
    cases x with
    | accept index =>
      have := numberDepth_le index
      simp only [transitionBlock, Block.depth]
      omega
    | go target conditions =>
      have := numberDepth_le target
      rw [transitionBlock]
      cases t.finished target conditions with
      | none =>
        simp only [Block.depth]
        omega
      | some index =>
        have := numberDepth_le index
        simp only [Block.depth]
        omega
  induction cases with
  | nil => simp [casesBlock, Block.depth]
  | cons c cases ih =>
    have hlo := numberDepth_le c.range.lo
    have hhi := numberDepth_le c.range.hi
    have hyes := htransition c.transition
    rw [casesBlock, List.foldr_cons, ← casesBlock, Block.depth, Test.depth, List.length_cons]
    omega

theorem length_keys_sorted (t : Table) : (sort (· ≤ ·) t.steps.keys).length = t.steps.size :=
  (sort_perm _ _).length_eq.trans t.steps.length_keys

/-- The branches of the steps go a level deeper with each step, and end with those of the cases of
one. -/
theorem depth_body_le (h : ∀ step cases, t.steps.get? step = some cases → cases.length ≤ n) :
    t.body.depth ≤ t.steps.size + n + 4 := by
  have hcases (step : StepId) :
      (t.casesBlock ((t.steps.get? step).getD [])).depth ≤ n + 4 := by
    refine Nat.le_trans (t.depth_casesBlock_le _) (Nat.add_le_add_right ?_ 4)
    cases hstep : t.steps.get? step with
    | none => exact Nat.zero_le n
    | some cases => exact h step cases hstep
  rw [body, ← t.length_keys_sorted]
  induction sort (· ≤ ·) t.steps.keys with
  | nil => simp [stepsBlock, Block.depth]
  | cons step steps ih =>
    have hyes := hcases step
    have htest := numberDepth_le step
    rw [stepsBlock, List.foldr_cons, ← stepsBlock, Block.depth, Test.depth, List.length_cons]
    omega

theorem size_lt_depth_body (t : Table) : t.steps.size < t.body.depth := by
  rw [body, ← t.length_keys_sorted]
  induction sort (· ≤ ·) t.steps.keys with
  | nil => simp [stepsBlock, Block.depth]
  | cons step steps ih =>
    rw [stepsBlock, List.foldr_cons, ← stepsBlock, Block.depth, List.length_cons]
    omega

end Table

/-! ## Loading -/

/-- The host has room for the block. -/
def Block.FitsIn (b : Block) (room : Option Nat) : Prop := ∀ n ∈ room, b.depth ≤ n

theorem Block.fitsIn_none (b : Block) : b.FitsIn none := by
  rintro n ⟨⟩

theorem Block.any_lt_depth_iff {b : Block} {room : Option Nat} :
    room.any (· < b.depth) = true ↔ ¬ b.FitsIn room := by
  cases room with
  | none => simp [fitsIn_none]
  | some n => simp [FitsIn]

/-- A function of the name can be loaded, and is found again under it. -/
def Routine.Loads (name : String) : Prop :=
  (reservedWords.contains name || normalizesTo constantName name) = false ∧
    isComposed name = true

namespace Machine

variable {m : Machine} {r : Routine} {name : String} {room : Option Nat} {f : Matcher}

theorem of_routine (h : m.routine name = .ok r) :
    isIdentifier name = true ∧ r.matcher = m.matcher name := by
  unfold routine at h
  split at h
  · cases h
  · next hname =>
    obtain ⟨size, -, h⟩ := bind_eq_ok.1 h
    obtain rfl := Except.ok.inj h
    exact ⟨by simpa using hname, rfl⟩

/-- What the source of a machine is read as. -/
theorem read?_routine (h : m.routine name = .ok r) :
    Matcher.read? r.text = some (m.matcher name) := by
  obtain ⟨hname, hmatcher⟩ := of_routine h
  rw [← hmatcher]
  refine Matcher.read?_text ?_ ?_
  · rw [Routine.name, hmatcher]
    exact hname
  · rw [hmatcher]
    exact m.table.isProper_body

theorem load_eq (h : m.routine name = .ok r) : Matcher.load r.text name room =
    if Routine.reservedWords.contains name then .error (.reservedName name)
    else if room.any (· < m.table.body.depth) then .error (.tooDeep name)
    else if normalizesTo Routine.constantName name then .error (.reservedName name)
    else if isComposed name then .ok (m.matcher name)
    else .error (.lostName name) := by
  simp only [Matcher.load, read?_routine h, matcher, beq_self_eq_true, Bool.true_and]

/-- The source of a machine is loaded as the function of the machine, if its name is in order and the
host has room for its branches. -/
theorem load_eq_ok_iff (h : m.routine name = .ok r) : Matcher.load r.text name room = .ok f ↔
    f = m.matcher name ∧ Routine.Loads name ∧ m.table.body.FitsIn room := by
  rw [load_eq h, Routine.Loads]
  cases Routine.reservedWords.contains name with
  | true => simp
  | false =>
    by_cases hfits : m.table.body.FitsIn room
    · have hroom : room.any (· < m.table.body.depth) = false := by
        rw [← Bool.not_eq_true, Block.any_lt_depth_iff]
        exact not_not_intro hfits
      cases normalizesTo Routine.constantName name with
      | true => simp [hroom]
      | false =>
        cases isComposed name with
        | true => simp [hroom, hfits, eq_comm]
        | false => simp [hroom]
    · simp [Block.any_lt_depth_iff.2 hfits, hfits]

theorem exists_load_iff (h : m.routine name = .ok r) :
    (∃ f, Matcher.load r.text name room = .ok f) ↔
      Routine.Loads name ∧ m.table.body.FitsIn room := by
  simp only [load_eq_ok_iff h, exists_eq_left]

theorem load_eq_tooDeep (h : m.routine name = .ok r) (hname : Routine.Loads name)
    (hdeep : ¬ m.table.body.FitsIn room) :
    Matcher.load r.text name room = .error (.tooDeep name) := by
  have hreserved := (Bool.or_eq_false_iff.1 hname.1).1
  rw [load_eq h, hreserved, if_neg Bool.false_ne_true, if_pos (Block.any_lt_depth_iff.2 hdeep)]

end Machine

end Munch
