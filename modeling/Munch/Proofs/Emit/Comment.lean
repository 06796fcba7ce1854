/-
The patterns of a machine stand in the first line of the emitted source and nowhere else. That line
is a comment whatever the patterns are, for quoted texts hold nothing that could end it, and all that
is executed comes from the table (`routine_text_patterns`).
-/
import Munch.Emit.Routine
import Munch.Proofs.Text.Lines

namespace Munch

open Text

/-- The line is a comment, and nothing in it ends it. -/
structure IsComment (line : String) : Prop where
  head : line.toList.head? = some '#'
  unbroken : Unbroken line.toList
  noZero : '\x00' ∉ line.toList

/-- What is written in front of the patterns. -/
def Routine.heading : String := "# patterns: "

theorem IsComment.of_prints {line : String} (h : Prints line.toList)
    (hhead : line.toList.head? = some '#') : IsComment line :=
  ⟨hhead, h.unbroken, fun hzero => ne_zero_of_isPrintable (h _ hzero) rfl⟩

theorem isComment_heading (patterns : List String) :
    IsComment (Routine.heading ++ quotedList patterns) := by
  have hheading : Prints Routine.heading.toList := by decide +kernel
  refine .of_prints ?_ (by simp [Routine.heading])
  rw [String.toList_append, prints_append]
  exact ⟨hheading, prints_quotedList patterns⟩

namespace Routine

/-- The lines behind the first one, which do not mention the patterns. -/
def code (r : Routine) : String :=
  String.join (r.lines.tail.map (· ++ "\n"))

theorem text_eq (r : Routine) : r.text = heading ++ quotedList r.patterns ++ "\n" ++ r.code := by
  have hjoin (line : String) (lines : List String) :
      String.join (line :: lines) = line ++ String.join lines := by
    rw [← String.toList_inj]
    simp [String.toList_join]
  rw [text, code, ← hjoin]
  rfl

end Routine

namespace Machine

variable {m m' : Machine} {name : String}

/-- Under an identifier a machine has a function as soon as the width of its step ids is known. -/
theorem routine_eq (m : Machine) (hname : isIdentifier name = true) :
    m.routine name = m.stepSize.map fun size =>
      ⟨m.patterns, m.table.steps.size, size, m.matcher name⟩ := by
  unfold routine
  rw [if_neg (by simp [hname])]
  cases m.stepSize with
  | error e => rfl
  | ok size => rfl

/-- Machines that differ in nothing but their patterns have sources that differ in nothing but the
first line, and that is a comment. -/
theorem routine_text_patterns (htable : m'.table = m.table) (hinitial : m'.initial = m.initial)
    (hname : isIdentifier name = true) :
    (∃ e, m.stepSize = .error e ∧ m.routine name = .error e ∧ m'.routine name = .error e) ∨
    ∃ r r', m.routine name = .ok r ∧ m'.routine name = .ok r' ∧ ∃ first first' rest,
      r.text = first ++ "\n" ++ rest ∧ r'.text = first' ++ "\n" ++ rest ∧
        IsComment first ∧ IsComment first' := by
  have hsize : m'.stepSize = m.stepSize := by rw [stepSize, stepSize, lastStep, lastStep, htable]
  have hmatcher : m'.matcher name = m.matcher name := by
    rw [matcher, matcher, htable, hinitial]
  rw [routine_eq m hname, routine_eq m' hname, hsize, htable, hmatcher]
  cases m.stepSize with
  | error e => exact .inl ⟨e, rfl, rfl, rfl⟩
  | ok size =>
    refine .inr ⟨_, _, rfl, rfl, Routine.heading ++ quotedList m.patterns,
      Routine.heading ++ quotedList m'.patterns, _, Routine.text_eq _, ?_, isComment_heading _,
      isComment_heading _⟩
    exact Routine.text_eq _

/-- A pattern of a line feed, a quote and a statement, against one of a zero. -/
theorem routine_text_patterns_statement :
    let m : Machine := ⟨⟨⟨[(0, [⟨⟨97, 97⟩, .accept 0⟩])], by decide⟩, ⟨[], by decide⟩⟩, 0,
      ["\n'import os"]⟩
    let m' : Machine := { m with patterns := ["\x00"] }
    m'.table = m.table ∧ m'.initial = m.initial ∧ isIdentifier "match_set" = true ∧
    ∃ r r', m.routine "match_set" = .ok r ∧ m'.routine "match_set" = .ok r' ∧
      ∃ first first' rest, r.text = first ++ "\n" ++ rest ∧ r'.text = first' ++ "\n" ++ rest ∧
        IsComment first ∧ IsComment first' := by
  intro m m'
  have htable : m'.table = m.table := rfl
  have hinitial : m'.initial = m.initial := rfl
  have hname : isIdentifier "match_set" = true := by decide +kernel
  refine ⟨htable, hinitial, hname, ?_⟩
  rcases routine_text_patterns htable hinitial hname with ⟨e, he, -⟩ | hlines
  · cases he
  · exact hlines

end Machine

end Munch
