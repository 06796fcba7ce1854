/-
A caret behind the opening bracket takes the complement of a symbol set, and changes nothing else
(`takes_symbolSet_caret`): with it and without it the members are read by the same reader
(`Reader.members`), whatever they are, and only the set that is made of their intervals differs.
-/
import Munch.Proofs.Pattern.SymbolSet
import Munch.Proofs.Pattern.Takes

namespace Munch

open Text

variable {set : ByteSet} {body s t : List Char} {rs : List Interval}

/-- In canonical form, the complement holds the bytes that the set itself does not hold. -/
theorem ByteSet.contains_complement (h : (⟨rs, true⟩ : ByteSet).WellFormed) (b : Int) :
    (accepting ⟨rs, false⟩).contains b = true ↔
      IsByte b ∧ (accepting ⟨rs, true⟩).contains b = false := by
  have hmembers : (accepting ⟨rs, true⟩).contains b = Interval.covers rs b := by
    rw [accepting, if_pos rfl, merged, contains, Interval.covers_merge, beq_true]
  have hothers : (accepting ⟨rs, false⟩).contains b =
      Interval.covers (Interval.complement rs) b := beq_true _
  rw [hmembers, hothers, Interval.covers_complement h, Bool.not_eq_true, IsByte, and_assoc]

namespace Reader

/-- A set that is read is made of the intervals that its members stand for. -/
theorem exists_members (hcaret : '^' ∉ body.head?)
    (h : Takes symbolSet ('[' :: body) (some set) t) :
    ∃ rs, Takes members body rs t ∧ set = .accepting ⟨rs, true⟩ := by
  rw [symbolSet_eq] at h
  obtain ⟨opened, u, hopened, hrest⟩ := takes_bind.1 h
  obtain ⟨rfl, rfl⟩ := (takes_accepts ['['] body).det hopened
  obtain ⟨negated, v, hnegated, hrest⟩ := takes_bind.1 hrest
  obtain ⟨rfl, rfl⟩ := (takes_accepts_not_char hcaret).det hnegated
  obtain ⟨rs, v, hrs, ⟨⟩⟩ := takes_bind.1 hrest
  exact ⟨rs, hrs, rfl⟩

theorem takes_symbolSet_negated (h : Takes members body rs t) :
    Takes symbolSet ('[' :: '^' :: body) (some (.accepting ⟨rs, false⟩)) t := by
  rw [symbolSet_eq]
  refine (takes_accepts ['['] _).bind ((takes_accepts ['^'] body).bind ?_)
  exact h.map

/-- **A negated class is the complement.** What is read as a symbol set between brackets is read
with a caret in front of it, too, and then stands for exactly the bytes that are not in the set. -/
theorem takes_symbolSet_caret (hcaret : '^' ∉ body.head?)
    (h : Takes symbolSet ('[' :: body ++ [']']) (some set) []) :
    ∃ others, Takes symbolSet ('[' :: '^' :: body ++ [']']) (some others) [] ∧
      ∀ b : Int, others.contains b = true ↔ (0 ≤ b ∧ b ≤ 255) ∧ set.contains b = false := by
  have hhead : '^' ∉ (body ++ [']']).head? := by
    cases body with
    | nil => decide
    | cons c cs => exact hcaret
  obtain ⟨rs, hrs, rfl⟩ := exists_members hhead h
  exact ⟨_, takes_symbolSet_negated hrs, ByteSet.contains_complement ((returns_members _).of_ok hrs)⟩

set_option maxRecDepth 4000 in
/-- A closing bracket in front, a range, a class of bytes, a named class that is negated itself and
a minus at the end. -/
theorem takes_symbolSet_caret_mixed :
    let set : ByteSet := ⟨[⟨45, 45⟩, ⟨48, 57⟩, ⟨93, 93⟩, ⟨97, 99⟩, ⟨128, 255⟩], true⟩
    Takes symbolSet "[]a-c\\d[:^ascii:]-]".toList (some set) [] ∧
    ∃ others, Takes symbolSet "[^]a-c\\d[:^ascii:]-]".toList (some others) [] ∧
      ∀ b : Int, others.contains b = true ↔ (0 ≤ b ∧ b ≤ 255) ∧ set.contains b = false := by
  intro set
  have hset : Takes symbolSet ('[' :: "]a-c\\d[:^ascii:]-".toList ++ [']']) (some set) [] := rfl
  have hcaret := takes_symbolSet_caret (by decide) hset
  exact ⟨hset, hcaret⟩

end Reader

end Munch
