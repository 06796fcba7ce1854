/-
Lines that are written and read again. A line holds none of the characters that end lines
(`unbroken_of_mem_splitLines`), and such lines, each with a line feed behind it, are split into just
those lines (`lines_join`).
-/
import Munch.Proofs.Text.Quoted
import Munch.Proofs.Text.Unambiguous

namespace Munch.Text

variable {c : Char} {cs ds line : List Char}

/-- No character ends a line. -/
def Unbroken (cs : List Char) : Prop := ∀ c ∈ cs, isLineBreak c = false

instance (cs : List Char) : Decidable (Unbroken cs) :=
  List.decidableBAll _ cs

@[simp] theorem unbroken_nil : Unbroken [] := by simp [Unbroken]

@[simp] theorem unbroken_cons : Unbroken (c :: cs) ↔ isLineBreak c = false ∧ Unbroken cs :=
  List.forall_mem_cons

@[simp] theorem unbroken_append : Unbroken (cs ++ ds) ↔ Unbroken cs ∧ Unbroken ds :=
  List.forall_mem_append

theorem Unbroken.of_prefix (h : Unbroken cs) (hpre : ds <+: cs) : Unbroken ds :=
  fun c hc => h c (hpre.subset hc)

theorem Prints.unbroken (h : Prints cs) : Unbroken cs :=
  fun c hc => isLineBreak_of_isPrintable (h c hc)

theorem unbroken_toString (n : Int) : Unbroken (toString n).toList := by
  have hdigits (n : Nat) : Unbroken (Nat.toDigits 10 n) :=
    (prints_toDigits (by decide) (by decide) n).unbroken
  cases n with
  | ofNat n =>
    rw [Int.ofNat_eq_natCast, toList_toString_natCast]
    exact hdigits n
  | negSucc n =>
    rw [toList_toString_negSucc, unbroken_cons]
    exact ⟨rfl, hdigits (n + 1)⟩

/-! ## Splitting -/

/-- A character that ends no line belongs to the first one. -/
theorem splitLines_cons {rest : List Char} {lines : List (List Char)} (hc : isLineBreak c = false)
    (h : splitLines rest = line :: lines) : splitLines (c :: rest) = (c :: line) :: lines := by
  have hreturn : c ≠ '\r' := by
    intro hreturn
    rw [hreturn] at hc
    exact absurd hc (by decide)
  rw [splitLines, if_neg (by simp [hc]), h]
  exact fun _ heq => absurd heq hreturn

theorem splitLines_append_newline (h : Unbroken line) (rest : List Char) :
    splitLines (line ++ '\n' :: rest) = line :: splitLines rest := by
  induction line with
  | nil => rw [List.nil_append, splitLines, if_pos (by decide)]; simp
  | cons c line ih =>
    obtain ⟨hc, hline⟩ := unbroken_cons.1 h
    exact splitLines_cons hc (ih hline)

theorem unbroken_of_mem_splitLines (h : line ∈ splitLines cs) : Unbroken line := by
  fun_induction splitLines cs generalizing line with
  | case1 => cases h
  | case2 rest ih =>
    rcases List.mem_cons.1 h with rfl | h
    · simp
    · exact ih h
  | case3 c rest _ hbreak ih =>
    rcases List.mem_cons.1 h with rfl | h
    · simp
    · exact ih h
  | case4 c rest _ hbreak hnone ih =>
    obtain rfl := List.mem_singleton.1 h
    simpa using hbreak
  | case5 c rest _ hbreak first lines hsome ih =>
    rcases List.mem_cons.1 h with rfl | h
    · have hfirst : Unbroken first := ih (by simp [hsome])
      simpa [hfirst] using hbreak
    · exact ih (by simp [hsome, h])

theorem unbroken_of_mem_lines {s text : String} (h : s ∈ lines text) : Unbroken s.toList := by
  obtain ⟨line, hline, rfl⟩ := List.mem_map.1 h
  rw [String.toList_ofList]
  exact unbroken_of_mem_splitLines hline

/-- Lines that are ended one by one are split again. -/
theorem lines_join {texts : List String} (h : ∀ s ∈ texts, Unbroken s.toList) :
    lines (String.join (texts.map (· ++ "\n"))) = texts := by
  induction texts with
  | nil => rfl
  | cons s texts ih =>
    obtain ⟨hs, htexts⟩ := List.forall_mem_cons.1 h
    have hchars : (String.join ((s :: texts).map (· ++ "\n"))).toList =
        s.toList ++ '\n' :: (String.join (texts.map (· ++ "\n"))).toList := by
      simp [String.toList_join]
    rw [lines, hchars, splitLines_append_newline hs, List.map_cons, String.ofList_toList]
    exact congrArg (s :: ·) (ih htexts)

end Munch.Text
