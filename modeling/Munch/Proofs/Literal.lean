/-
Escaping quotes any text. The pattern for a text spells the bytes of the text, so its program is
straight, its table needs no merging and has few steps, and it compiles under any limit
(`Machine.exists_compile_of_spells`). What it finds is just the text (`PatternSet.find_literal`).
-/
import Munch.Proofs.Members
import Munch.Proofs.Pattern.Literal
import Munch.Proofs.Program.Straight
import Munch.Proofs.Table.Unmerged

namespace Munch

/-! ## Trees -/

namespace Tree

theorem spells_ofChar (c : Char) : (ofChar c).Spells (String.utf8EncodeChar c) := by
  unfold ofChar
  split
  · next b hb => exact hb ▸ spells_byte b
  · have hbytes (bytes : List UInt8) : List.Forall₂ Spells
        (bytes.map fun b => .symbol (.single b.toNat)) (bytes.map ([·])) := by
      induction bytes with
      | nil => exact .nil
      | cons b bytes ih => exact .cons (spells_byte b) ih
    have hconcat := spells_concat (hbytes (String.utf8EncodeChar c))
    rwa [← List.flatMap_def, List.flatMap_singleton'] at hconcat

theorem spells_ofChars (cs : List Char) :
    (ofChars cs).Spells (cs.flatMap String.utf8EncodeChar) := by
  have hchars : List.Forall₂ Spells (cs.map ofChar) (cs.map String.utf8EncodeChar) := by
    induction cs with
    | nil => exact .nil
    | cons c cs ih => exact .cons (spells_ofChar c) ih
  unfold ofChars
  split
  · next c => simpa using spells_ofChar c
  · exact spells_concat hchars

end Tree

variable {q : String} {t : Tree} {w : List UInt8} {limit : Option Int} {options : Options}
  {s : PatternSet}

/-! ## Compiling -/

theorem Options.limit_of_check (h : options.check = .ok ()) : ∀ n ∈ options.maxSteps, 0 ≤ n := by
  intro n hn
  by_contra hneg
  simp only [check, Option.mem_def.1 hn, if_pos (Int.not_le.1 hneg)] at h
  cases h

namespace Machine

/-- A pattern that spells bytes has a table under any limit, and no more steps than instructions. -/
theorem tabulate_of_spells (ht : Tree.parse q = .ok t) (hw : t.Spells w)
    (hlimit : ∀ n ∈ limit, 0 ≤ n) :
    ∃ table initial n, tabulate [q] limit = .ok (table, initial) ∧ table.Numbered n ∧
      initial ∈ table.steps.keys ∧ n ≤ w.length + 1 := by
  have hparse : [q].map Tree.parse = [t].map .ok := by simp [ht]
  have hunbarred : ∀ u ∈ [t], u.isBarred = false := List.forall_mem_singleton.2 hw.unbarred
  rcases tabulate_cases (List.cons_ne_nil q []) hparse with
    ⟨-, table, start, h⟩ | ⟨⟨u, hu, hbarred⟩, -⟩
  swap
  · rw [hunbarred u hu] at hbarred
    cases hbarred
  obtain ⟨trees, htrees, h⟩ := bind_eq_ok.1 h
  obtain rfl := Except.ok.inj (htrees.symm.trans (Tree.parseAll_of_map hparse))
  obtain ⟨p, hp, h⟩ := bind_eq_ok.1 h
  obtain ⟨hstraight, hsize⟩ := Program.straight_of_ofTrees hw hp
  have hne : p.insts ≠ #[] := by
    intro hempty
    rw [hempty] at hsize
    cases hsize
  obtain ⟨raw, hraw, h⟩ := bind_eq_ok.1 h
  obtain ⟨d, i, rfl, -, hbuilt, -⟩ := RawTable.of_ofProgram hne hraw
  obtain ⟨resolved, hresolved, htable⟩ := bind_eq_ok.1 h
  obtain ⟨hlimited, hids⟩ :=
    RawTable.resolve_of_tidy (fun s cases hs => hbuilt.tidy hstraight hs) hresolved hlimit
  refine ⟨table, start, _, ?_, Table.numbered htable,
    Table.mem_keys_of_rank htable (Table.forall₂_of_renumber htable).2.2,
    hsize ▸ hbuilt.length_le (nodup_sortDistinct _) hids⟩
  exact bind_eq_ok.2 ⟨_, htrees, bind_eq_ok.2 ⟨p, hp, bind_eq_ok.2 ⟨_, hraw,
    bind_eq_ok.2 ⟨resolved, hlimited, htable⟩⟩⟩⟩

/-- A pattern that spells bytes makes a machine under any limit. -/
theorem exists_compile_of_spells (ht : Tree.parse q = .ok t) (hw : t.Spells w)
    (hlength : w.length < 2 ^ 64) (hlimit : ∀ n ∈ limit, 0 ≤ n) :
    ∃ m, compile [q] limit = .ok m := by
  obtain ⟨table, initial, n, h, hnumbered, hinitial, hn⟩ := tabulate_of_spells ht hw hlimit
  have hsize : ∃ size, (⟨table, initial, [q]⟩ : Machine).stepSize = .ok size :=
    exists_stepSize hnumbered hinitial (Nat.le_trans hn hlength)
  obtain ⟨size, hsize⟩ := hsize
  rw [compile_eq]
  exact ⟨_, bind_eq_ok.2 ⟨_, h, bind_eq_ok.2 ⟨size, hsize, rfl⟩⟩⟩

end Machine

/-! ## Finding -/

namespace PatternSet

/-- A pattern that spells bytes matches where the data goes on with these. -/
theorem find_of_spells (ht : Tree.parse q = .ok t) (hw : t.Spells w)
    (h : compile [q] options = .ok s)
    (hname : options.useCodegen = true → options.functionName ≠ Routine.lengthName)
    {data : List UInt8} {start : Nat} (hstart : start ≤ data.length) :
    s.find data start =
      .ok (if w <+: data.drop start then some ⟨0, start, start + w.length, w⟩ else none) := by
  obtain ⟨hit, hhit, hlongest⟩ := run_longest_alone ht h hname start (data.drop start)
  rw [find_of_run hstart hhit]
  cases hit with
  | none =>
    rw [if_neg fun hprefix => hlongest w hprefix 0 ⟨rfl, (hw.denotes w).2 rfl⟩]
    rfl
  | some hit =>
    obtain ⟨index, stop⟩ := hit
    obtain ⟨u, hprefix, rfl, ⟨⟨rfl, hu⟩, -⟩, -⟩ := hlongest
    obtain rfl := (hw.denotes u).1 hu
    rw [if_pos hprefix, Option.map_some, toMatch, Nat.add_sub_cancel_left,
      ← List.prefix_iff_eq_take.1 hprefix]

/-- **Escaping quotes any text.** With a backslash in front of each character that has a meaning of
its own, a text parses to a tree that denotes just its bytes. Alone it compiles under any options, as
long as 64 bits number its bytes, and matches where the data goes on with these bytes. -/
theorem find_literal {text : String} (hne : text ≠ "") :
    ∃ t, Tree.parse (literal text) = .ok t ∧ (∀ w, t.Denotes w ↔ w = Text.utf8 text) ∧
      ∀ options : Options, options.check = .ok () →
        (options.useCodegen = true →
          Routine.Loads options.functionName ∧ options.functionName ≠ Routine.lengthName) →
        (Text.utf8 text).length < 2 ^ 64 →
        ∃ s, compile [literal text] options = .ok s ∧
          ∀ (data : List UInt8) (start : Nat), start ≤ data.length →
            s.find data start = .ok (if Text.utf8 text <+: data.drop start then
              some ⟨0, start, start + (Text.utf8 text).length, Text.utf8 text⟩ else none) := by
  have hparse := Tree.parse_literal hne
  have hspells : (Tree.ofChars text.toList).Spells (Text.utf8 text) := Tree.spells_ofChars _
  refine ⟨_, hparse, hspells.denotes, fun options hcheck hname hlength => ?_⟩
  obtain ⟨m, hm⟩ :=
    Machine.exists_compile_of_spells hparse hspells hlength (Options.limit_of_check hcheck)
  obtain ⟨s, hs⟩ := (exists_ofMachine_iff hcheck hm).2 fun hc =>
    ⟨(hname hc).1, Block.fitsIn_none _⟩
  have hcompile : compile [literal text] options = .ok s :=
    bind_eq_ok.2 ⟨(), hcheck, bind_eq_ok.2 ⟨m, hm, hs⟩⟩
  exact ⟨s, hcompile, fun data start hstart =>
    find_of_spells hparse hspells hcompile (fun hc => (hname hc).2) hstart⟩

/-- A dot that stands for itself and a character of two bytes, in the middle of some data, without
room for any merged step. -/
theorem find_literal_dot :
    let options : Options := ⟨some 0, false, true, "f"⟩
    literal "a.\u00e9" = "a\\.\u00e9" ∧ options.check = .ok () ∧
      Routine.Loads options.functionName ∧ options.functionName ≠ Routine.lengthName ∧
      ∃ t s, Tree.parse "a\\.\u00e9" = .ok t ∧ t.Denotes [97, 46, 195, 169] ∧
        compile ["a\\.\u00e9"] options = .ok s ∧
        s.find [98, 97, 46, 195, 169, 98] 1 = .ok (some ⟨0, 1, 5, [97, 46, 195, 169]⟩) ∧
        s.find [97, 98, 195, 169] 0 = .ok none := by
  intro options
  have hliteral : literal "a.\u00e9" = "a\\.\u00e9" := by decide +kernel
  have hbytes : Text.utf8 "a.\u00e9" = [97, 46, 195, 169] := by decide +kernel
  have hcheck : options.check = .ok () := by decide +kernel
  have hloads : Routine.Loads options.functionName := ⟨by decide +kernel, by decide +kernel⟩
  have hname : options.functionName ≠ Routine.lengthName := by decide
  obtain ⟨t, ht, hdenotes, hcompile⟩ := find_literal (by decide : "a.\u00e9" ≠ "")
  have hlength : (Text.utf8 "a.\u00e9").length < 2 ^ 64 := by
    rw [hbytes]
    decide
  obtain ⟨s, hs, hfind⟩ := hcompile options hcheck (fun _ => ⟨hloads, hname⟩) hlength
  rw [hliteral] at ht hs
  rw [hbytes] at hdenotes hfind
  refine ⟨hliteral, hcheck, hloads, hname, t, s, ht, (hdenotes _).2 rfl, hs, ?_, ?_⟩
  · exact hfind [98, 97, 46, 195, 169, 98] 1 (by decide)
  · exact hfind [97, 98, 195, 169] 0 (by decide)

end PatternSet

end Munch
