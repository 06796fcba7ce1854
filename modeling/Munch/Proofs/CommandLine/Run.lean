/-
What the command answers. A match starts with the line and may end inside of a character, so the
bytes of it make a prefix of the line with one replacement at most behind it (`exists_answers`).
None of these characters ends a line: the lines of the output are the answers to the lines of the
input, one for one (`run_answers`).
-/
import Munch.CommandLine.Run
import Munch.Proofs.CommandLine.Files
import Munch.Proofs.Scan
import Munch.Proofs.Text.Lines
import Munch.Proofs.Text.Utf8

namespace Munch.CommandLine

open Text

variable {release : Release} {room : Option Nat} {a : Arguments} {argv texts : List String}
  {stdin output source text line shown : String} {files opened : Files} {parts : List Part}
  {s : PatternSet} {limit : Int}

/-! ## Answers -/

/-- What is to be shown for a line: that nothing is found, or the pattern and the characters that the
match takes as a whole, with one replacement behind them if the match ends inside of a character. -/
inductive Answers (s : PatternSet) (line : String) : String → Prop where
  | fail : s.find (utf8 line) 0 = .ok none → Answers s line "FAIL"
  | ok {m : Match} {pre tail : List Char} : s.find (utf8 line) 0 = .ok (some m) →
    EndBy line.toList m.stop pre → (CutsChar line.toList m.stop → tail = [replacement]) →
    (¬ CutsChar line.toList m.stop → tail = []) →
    Answers s line s!"OK {m.index} {String.ofList (pre ++ tail)}"

theorem exists_answers (hs : s.Runs) (line : String) :
    ∃ shown found, s.find (utf8 line) 0 = .ok found ∧ lineText found = shown ++ "\n" ∧
      Answers s line shown := by
  obtain ⟨hit, hrun, -⟩ := hs 0 (utf8 line)
  have hfind := PatternSet.find_of_run (Nat.zero_le (utf8 line).length) hrun
  generalize hit.map _ = found at hfind
  cases found with
  | none => exact ⟨_, none, hfind, rfl, .fail hfind⟩
  | some m =>
    obtain ⟨hstart, -, -, hgroup⟩ := hs.of_find hfind
    obtain ⟨pre, tail, hdecode, hpre, hcut, hwhole⟩ := decodeFrom_take line.toList m.stop
    have htext : m.text = String.ofList (pre ++ tail) := by
      rw [Match.text, decode, hgroup, hstart, List.drop_zero, Nat.sub_zero, utf8_eq, hdecode]
    refine ⟨_, some m, hfind, ?_, .ok hfind hpre hcut hwhole⟩
    rw [lineText, htext]
    rfl

/-- An answer to a line is a line. -/
theorem Answers.unbroken (h : Answers s line shown) (hline : Unbroken line.toList) :
    Unbroken shown.toList := by
  cases h with
  | fail => decide
  | @ok m pre tail _ hpre hcut hwhole =>
    have htail : Unbroken tail := by
      by_cases h : CutsChar line.toList m.stop
      · rw [hcut h]
        decide
      · rw [hwhole h]
        exact unbroken_nil
    have hpre : Unbroken pre := hline.of_prefix hpre.isPrefix
    have hok : Unbroken "OK ".toList ∧ Unbroken " ".toList := by decide
    have hindex : Unbroken (toString m.index).toList := unbroken_toString m.index
    change Unbroken ("OK " ++ toString m.index ++ " " ++ String.ofList (pre ++ tail)).toList
    simp only [String.toList_append, String.toList_ofList, unbroken_append]
    exact ⟨⟨⟨hok.1, hindex⟩, hok.2⟩, hpre, htail⟩

/-- Each line has an answer. -/
theorem exists_matchLines (hs : s.Runs) (text : String) :
    ∃ shown, matchLines s text = .ok (shown.map (· ++ "\n")) ∧
      List.Forall₂ (Answers s) (lines text) shown := by
  rw [matchLines]
  induction lines text with
  | nil => exact ⟨[], rfl, .nil⟩
  | cons line rest ih =>
    obtain ⟨shown, found, hfind, hshown, hanswer⟩ := exists_answers hs line
    obtain ⟨others, hothers, hanswers⟩ := ih
    refine ⟨shown :: others, ?_, .cons hanswer hanswers⟩
    rw [List.mapM_cons, hfind, hothers]
    exact congrArg (fun first => Except.ok (first :: _)) hshown

/-! ## The output -/

/-- The files once the output can be written to. -/
def openOutput (output : String) (files : Files) : Except Crash Files :=
  if output = "-" then .ok files else reached (files.write output [])

/-- What stands in the output at last. -/
def written (output : String) (stdout : List Part) (files : Files) :
    Except PathFault (Option (List Part)) :=
  if output = "-" then .ok (some stdout) else files.read? output

theorem reached_eq_ok {α : Type} {x : Except PathFault α} {y : α} :
    reached x = .ok y ↔ x = .ok y := by
  cases x with
  | ok => simp [reached]
  | error => simp [reached]

/-- A run goes on with the output open. -/
theorem bind_openOutput {α : Type} (f : Files → Except Crash α) :
    (if output = "-" then pure files >>= f else reached (files.write output []) >>= f) =
      openOutput output files >>= f := by
  rw [openOutput]
  split
  · rfl
  · rfl

/-- All that is delivered to an output that is open stands there. -/
theorem exists_deliver (h : openOutput output files = .ok opened) (parts : List Part) :
    ∃ stdout delivered, deliver output parts opened = .ok (stdout, delivered) ∧
      written output stdout delivered = .ok (some parts) := by
  by_cases hstdout : output = "-"
  · exact ⟨parts, opened, by rw [deliver, if_pos hstdout]; rfl, if_pos hstdout⟩
  · rw [openOutput, if_neg hstdout] at h
    have hwrite := reached_eq_ok.1 h
    obtain ⟨delivered, hdelivered⟩ := Files.exists_write hwrite parts
    refine ⟨[], delivered, ?_, (if_neg hstdout).trans (Files.read?_write hdelivered)⟩
    rw [deliver, if_neg hstdout, Files.read?_write hwrite]
    exact bind_eq_ok.2 ⟨_, rfl, bind_eq_ok.2 ⟨delivered, reached_eq_ok.2 hdelivered, rfl⟩⟩

/-! ## Runs -/

/-- A run that matches lines delivers them. -/
theorem runSet_eq_ok {log : List Entry} {stdout : List Part} {delivered : Files}
    (hdescribes : a.describes = false) (htime : a.time = false) (houtput : a.output = some output)
    (hopen : openOutput output files = .ok opened)
    (hinput : input a stdin opened = .ok (source, some text))
    (hlines : matchLines s text = .ok texts)
    (hdeliver : deliver output (texts.map .text) opened = .ok (stdout, delivered)) :
    runSet a s log stdin files = .ok ⟨0, stdout,
      some (if a.verbose then String.join (log.map Entry.line) else ""), delivered⟩ := by
  have hdot : a.dot = none := by
    simp only [Arguments.describes, Bool.or_eq_false_iff, Option.isSome_eq_false_iff,
      Option.isNone_iff_eq_none] at hdescribes
    exact hdescribes.2
  have hwrite : writeGraph a s.machine opened = .ok (opened, []) := by
    rw [writeGraph, hdot]
    rfl
  rw [runSet, houtput]
  refine bind_eq_ok.2 ⟨output, rfl, ?_⟩
  refine (bind_openOutput _).trans ?_
  rw [hopen]
  refine bind_eq_ok.2 ⟨opened, rfl, bind_eq_ok.2 ⟨_, hwrite, ?_⟩⟩
  simp only [hdescribes, htime, if_false, Bool.false_eq_true]
  refine bind_eq_ok.2 ⟨_, hinput, ?_⟩
  simp only [hlines]
  refine bind_eq_ok.2 ⟨texts, rfl, ?_⟩
  exact bind_eq_ok.2 ⟨_, hdeliver, by simp only [List.append_nil]; rfl⟩

theorem run_eq_ok {o : Outcome} (hargs : Arguments.parse release argv = .ok a)
    (hlimit : a.maxSteps = some limit)
    (hset : PatternSet.compile a.patterns (a.options limit) room = .ok s)
    (hrun : runSet a s (if a.verbose then Trace.ofPatterns a.patterns (a.options limit) else [])
      stdin files = .ok o) :
    run release argv stdin files room = .ok o := by
  rw [run, hargs]
  refine bind_eq_ok.2 ⟨limit, by rw [hlimit]; rfl, ?_⟩
  simp only [hset]
  exact hrun

/-- **The command writes one line for each line of the input.** What it reads is what is there once
the output is open: a file that is the output, too, is empty by then. -/
theorem run_answers (hargs : Arguments.parse release argv = .ok a) (hdescribes : a.describes = false)
    (htime : a.time = false) (hlimit : a.maxSteps = some limit)
    (hset : PatternSet.compile a.patterns (a.options limit) room = .ok s)
    (houtput : a.output = some output) (hopen : openOutput output files = .ok opened)
    (hinput : input a stdin opened = .ok (source, some text)) :
    ∃ o parts, run release argv stdin files room = .ok o ∧ o.exit = 0 ∧
      written output o.stdout o.files = .ok (some parts) ∧
      ∀ seconds, List.Forall₂ (Answers s) (lines text) (lines (render seconds parts)) := by
  have hs : s.Runs := PatternSet.runs_of_compile hset fun _ => (by decide : "match_set" ≠ "len")
  obtain ⟨shown, hlines, hanswers⟩ := exists_matchLines hs text
  obtain ⟨stdout, delivered, hdeliver, hwritten⟩ :=
    exists_deliver hopen ((shown.map (· ++ "\n")).map .text)
  have hrun := run_eq_ok hargs hlimit hset
    (runSet_eq_ok hdescribes htime houtput hopen hinput hlines hdeliver)
  refine ⟨_, _, hrun, rfl, hwritten, ?_⟩
  intro seconds
  have hrender : render seconds ((shown.map (· ++ "\n")).map .text) =
      String.join (shown.map (· ++ "\n")) := by
    rw [render, List.map_map]
    exact congrArg String.join (List.map_id _)
  have hunbroken : ∀ t ∈ shown, Unbroken t.toList := by
    intro t ht
    obtain ⟨line, hline, hanswer⟩ := exists_of_mem_right hanswers ht
    exact hanswer.unbroken (unbroken_of_mem_lines hline)
  rw [hrender, lines_join hunbroken]
  exact hanswers

/-- The second match ends inside of the last character of its line. The lines end differently, and
the last one has no end. The option is called by the beginning of its name. -/
theorem run_answers_cut :
    let argv := ["--fil", "-", "ab+", "a[^b]"]
    let room := some Matcher.hostRoom
    let text := "abb\u2028a\u00e9\nx"
    ∃ a s, Arguments.parse .late argv = .ok a ∧ a.describes = false ∧ a.time = false ∧
      a.maxSteps = some 10000 ∧ PatternSet.compile a.patterns (a.options 10000) room = .ok s ∧
      a.output = some "-" ∧ openOutput "-" ⟨[], []⟩ = .ok ⟨[], []⟩ ∧
      input a text ⟨[], []⟩ = .ok ("-", some text) ∧
      ∃ o, run .late argv text ⟨[], []⟩ room = .ok o ∧ o.exit = 0 ∧
        List.Forall₂ (Answers s) ["abb", "a\u00e9", "x"] ["OK 0 abb", "OK 1 a\ufffd", "FAIL"] := by
  intro argv room text
  let a : Arguments := { Arguments.initial with patterns := ["ab+", "a[^b]"] }
  have hargs : Arguments.parse .late argv = .ok a := rfl
  obtain ⟨s, hs⟩ : ∃ s, PatternSet.compile a.patterns (a.options 10000) room = .ok s :=
    isSome_toOption.1 (by decide +kernel)
  have hopen : openOutput "-" ⟨[], []⟩ = .ok ⟨[], []⟩ := rfl
  have hinput : input a text ⟨[], []⟩ = .ok ("-", some text) := rfl
  obtain ⟨o, parts, hrun, hexit, hwritten, hanswers⟩ :=
    run_answers hargs rfl rfl rfl hs rfl hopen hinput
  refine ⟨a, s, hargs, rfl, rfl, rfl, hs, rfl, hopen, hinput, o, hrun, hexit, ?_⟩
  have hshown : (run .late argv text ⟨[], []⟩ room >>= fun o =>
      pure (lines text, lines (render "" o.stdout))).toOption =
        some (["abb", "a\u00e9", "x"], ["OK 0 abb", "OK 1 a\ufffd", "FAIL"]) := by decide +kernel
  obtain ⟨o', hrun', hshown⟩ := bind_eq_ok.1 (toOption_eq_some.1 hshown)
  obtain rfl := Except.ok.inj (hrun.symm.trans hrun')
  obtain rfl : o.stdout = parts := Option.some.inj (Except.ok.inj hwritten)
  obtain ⟨hlines, hanswer⟩ := Prod.mk.inj (Except.ok.inj hshown)
  rw [← hlines, ← hanswer]
  exact hanswers ""

end Munch.CommandLine
