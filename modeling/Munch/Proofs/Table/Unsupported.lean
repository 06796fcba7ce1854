/-
Exactly which programs of trees have no table, and whom the error blames. Whatever trees a program was
made of, it has a table unless a run from its entry may come to a bar; if one may, the error names
such a bar, and the pattern that the bar was added for (`ofProgram_rejects`).
-/
import Munch.Proofs.Answers
import Munch.Proofs.Program.Compilable
import Munch.Proofs.Table.Refusal

namespace Munch

variable {trees : List Tree} {patterns : List String} {p : Program} {j k : Nat}
  {construct : Construct}

namespace Program

/-- The program of any trees holds their code, one behind the other. -/
theorem chained_of_ofTrees (h : ofTrees trees patterns = .ok p) :
    AssemblyM.Chained 0 trees p.insts p.entry := by
  obtain ⟨a, ha, rfl⟩ := chain_of_ofTrees h
  exact ((AssemblyM.chain_ensures 0 trees .empty).of_ok ha).2 a.insts (.refl _)

/-- A program that was made of trees is closed. -/
theorem exists_closed_of_ofTrees (h : ofTrees trees patterns = .ok p) (hne : trees ≠ []) :
    ∃ S, S p.entry ∧ p.Closed S :=
  closed_chained hne (compilable_of_ofTrees h) (chained_of_ofTrees h)

theorem insts_of_nil (h : ofTrees [] patterns = .ok p) : p.insts = #[] := by
  cases h
  rfl

theorem lt_of_barAt (h : p.BarAt j construct) : j < p.insts.size := by
  obtain ⟨inst, hj, -⟩ := h
  exact (Array.getElem?_eq_some_iff.1 hj).1

end Program

namespace DraftM

open Program

/-- The error blames the pattern in whose turn the instruction was added. -/
theorem unsupported_eq {text : String} (horigin : p.origins[j]? = some (some k))
    (htext : p.patterns[k]? = some text) :
    unsupported p j construct =
      .rejected ⟨.unsupported construct (some j), some text, some k⟩ := by
  simp [unsupported, origin, horigin, htext, Rejection.blame, Rejection.of]

/-- Every bar was added for one of the patterns. -/
theorem exists_unsupported_eq (h : ofTrees trees patterns = .ok p)
    (hlen : patterns.length = trees.length) (hbar : p.BarAt j construct) :
    ∃ k text, AddedBy trees j k ∧ patterns[k]? = some text ∧
      unsupported p j construct =
        .rejected ⟨.unsupported construct (some j), some text, some k⟩ := by
  obtain ⟨k, horigin, hadded⟩ := exists_addedBy h (lt_of_barAt hbar)
  have hk : k < patterns.length := hlen ▸ hadded.lt
  have hpatterns : p.patterns = patterns := by
    obtain ⟨a, -, rfl⟩ := chain_of_ofTrees h
    rfl
  have htext : patterns[k]? = some patterns[k] := List.getElem?_eq_getElem hk
  exact ⟨k, patterns[k], hadded, htext, unsupported_eq horigin (by rw [hpatterns]; exact htext)⟩

end DraftM

namespace RawTable

open Program

/-- A program of trees has a table, or a run from its entry may come to the bar that is blamed. -/
theorem ofProgram_cases_of_ofTrees (h : ofTrees trees patterns = .ok p) :
    (¬p.Barred p.entry ∧ ∃ raw, ofProgram p = .ok raw) ∨
      ∃ j construct, p.Reaches p.entry j ∧ p.BarAt j construct ∧
        ofProgram p = .error (DraftM.unsupported p j construct) := by
  cases trees with
  | nil =>
    have hempty := insts_of_nil h
    refine .inl ⟨fun hbarred => ?_, _, ofProgram_of_empty hempty⟩
    obtain ⟨j, construct, -, hbar⟩ := hbarred
    have hlt := lt_of_barAt hbar
    simp [hempty] at hlt
  | cons t ts =>
    obtain ⟨S, hentry, hclosed⟩ := exists_closed_of_ofTrees h (List.cons_ne_nil t ts)
    exact ofProgram_cases hclosed hentry

/-- **A program has no table exactly if a run from its entry may come to a bar.** The error names such
a bar, and blames the pattern in whose turn the bar was added. -/
theorem ofProgram_rejects (h : ofTrees trees patterns = .ok p)
    (hlen : patterns.length = trees.length) :
    ((∃ e, ofProgram p = .error e) ↔ p.Barred p.entry) ∧
      ∀ e, ofProgram p = .error e → ∃ j construct k text, p.Reaches p.entry j ∧
        p.BarAt j construct ∧ AddedBy trees j k ∧ patterns[k]? = some text ∧
        e = .rejected ⟨.unsupported construct (some j), some text, some k⟩ := by
  rcases ofProgram_cases_of_ofTrees h with ⟨hnot, raw, hraw⟩ | ⟨j, construct, hreach, hbar, herror⟩
  · simp [hraw, hnot]
  · obtain ⟨k, text, hadded, htext, heq⟩ := DraftM.exists_unsupported_eq h hlen hbar
    refine ⟨⟨fun _ => ⟨j, construct, hreach, hbar⟩, fun _ => ⟨_, herror⟩⟩, fun e he => ?_⟩
    obtain rfl := Except.error.inj (herror.symm.trans he)
    exact ⟨j, construct, k, text, hreach, hbar, hadded, htext, heq⟩

/-- The capture behind a set without members is never met; the assertion of the second pattern is. -/
theorem ofProgram_rejects_second :
    let trees := [Tree.concat [.symbol ⟨[], true⟩, .group .epsilon true none],
      .concat [.symbol (.single 97), .look .endLine]]
    let patterns := ["[^\\x00-\\xff]()", "a$"]
    ∃ p, ofTrees trees patterns = .ok p ∧ patterns.length = trees.length ∧ p.Barred p.entry ∧
      ∃ construct j, p.Reaches p.entry j ∧ p.BarAt j construct ∧ AddedBy trees j 1 ∧
        ofProgram p = .error (.rejected ⟨.unsupported construct (some j), some "a$", some 1⟩) := by
  intro trees patterns
  obtain ⟨p, hp⟩ : ∃ p, ofTrees trees patterns = .ok p := isSome_toOption.1 (by decide +kernel)
  have herror : (ofTrees trees patterns >>= ofProgram) = .error (.rejected
      ⟨.unsupported (.assertion .endLine) (some 7), some "a$", some 1⟩) := by decide +kernel
  rw [hp] at herror
  obtain ⟨hiff, hblame⟩ := ofProgram_rejects hp rfl
  obtain ⟨j, construct, k, text, hreach, hbar, hadded, -, heq⟩ := hblame _ herror
  have hbarred : p.Barred p.entry := hiff.1 ⟨_, herror⟩
  cases heq
  exact ⟨p, hp, rfl, hbarred, .assertion .endLine, 7, hreach, hbar, hadded, herror⟩

end RawTable

end Munch
