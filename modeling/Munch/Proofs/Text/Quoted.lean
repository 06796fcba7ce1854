/-
Quoted texts print: every character of one is printable, whatever the text is (`prints_quotedList`).
Printable characters end no line and are not zero, so a quoted text stays on the line it is put on.
-/
import Mathlib.Data.List.Basic
import Munch.Text.Lines
import Munch.Text.Quoted

namespace Munch.Text

variable {c quote : Char} {cs ds : List Char} {n : Nat}

theorem isPrintable_of_ascii (h : 0x20 ≤ c.toNat ∧ c.toNat ≤ 0x7e) : isPrintable c = true := by
  rw [isPrintable, printableRanges, inRanges, if_neg (by omega), Bool.or_eq_true, decide_eq_true_eq]
  exact .inl h.2

theorem isLineBreak_of_isPrintable (h : isPrintable c = true) : isLineBreak c = false := by
  have hbreaks : (['\n', '\r', '\x0b', '\x0c', '\x1c', '\x1d', '\x1e', '\u0085', '\u2028',
      '\u2029'].all fun d => !isPrintable d) = true := by decide +kernel
  by_contra hbreak
  rw [Bool.not_eq_false, isLineBreak, List.contains_iff_mem] at hbreak
  simpa [h] using List.all_eq_true.1 hbreaks c hbreak

theorem ne_zero_of_isPrintable (h : isPrintable c = true) : c ≠ '\x00' := by
  intro hzero
  have hnot : isPrintable '\x00' = false := by decide +kernel
  rw [hzero, hnot] at h
  cases h

/-- All characters are printable. -/
def Prints (cs : List Char) : Prop := ∀ c ∈ cs, isPrintable c = true

instance (cs : List Char) : Decidable (Prints cs) := List.decidableBAll _ cs

@[simp] theorem prints_nil : Prints [] := by simp [Prints]

@[simp] theorem prints_cons : Prints (c :: cs) ↔ isPrintable c = true ∧ Prints cs :=
  List.forall_mem_cons

@[simp] theorem prints_append : Prints (cs ++ ds) ↔ Prints cs ∧ Prints ds :=
  List.forall_mem_append

/-- What holds of all characters of a separator and of the pieces holds of what they make. -/
theorem forall_mem_intercalate {p : Char → Prop} {pieces : List (List Char)} (hcs : ∀ c ∈ cs, p c)
    (h : ∀ piece ∈ pieces, ∀ c ∈ piece, p c) : ∀ c ∈ cs.intercalate pieces, p c := by
  induction pieces with
  | nil => simp
  | cons piece rest ih =>
    have hrest := ih fun l hl => h l (List.mem_cons_of_mem piece hl)
    cases rest with
    | nil => simpa using h piece (by simp)
    | cons next rest =>
      rw [List.intercalate_cons_cons, List.forall_mem_append, List.forall_mem_append]
      exact ⟨⟨h piece (by simp), hcs⟩, hrest⟩

theorem prints_toDigits {base : Nat} (hbase : 1 < base) (hle : base ≤ 16) (n : Nat) :
    Prints (Nat.toDigits base n) := by
  have hdigit (m : Nat) (hm : m < base) : isPrintable m.digitChar = true := by
    have hascii : ∀ m < 16, 0x20 ≤ m.digitChar.toNat ∧ m.digitChar.toNat ≤ 0x7e := by decide
    exact isPrintable_of_ascii (hascii m (by omega))
  induction n using Nat.strongRecOn with
  | _ n ih =>
    rw [Nat.toDigits_eq_if hbase]
    split
    · next hlt => simpa using hdigit n hlt
    · next hge =>
      have hless : n / base < n := Nat.div_lt_self (by omega) hbase
      simpa using ⟨ih (n / base) hless, hdigit (n % base) (Nat.mod_lt n (by omega))⟩

theorem prints_hex (width n : Nat) : Prints (hex width n) := by
  rw [hex, prints_append]
  refine ⟨fun c hc => ?_, prints_toDigits (by decide) (by decide) n⟩
  obtain rfl := (List.mem_replicate.1 hc).2
  exact isPrintable_of_ascii (by decide)

/-- What stands for a character in quotes is the character itself or an escape. -/
theorem prints_escapeIn (hquote : isPrintable quote = true) (c : Char) :
    Prints (escapeIn quote c) := by
  have hslash : isPrintable '\\' = true := isPrintable_of_ascii (by decide)
  have hletters : Prints ['t', 'n', 'r', 'x', 'u', 'U'] := by decide +kernel
  simp only [prints_cons, prints_nil, and_true] at hletters
  unfold escapeIn
  split
  · next hc =>
    rcases hc with rfl | rfl
    · simp [hslash, hquote]
    · simp [hslash]
  · split
    · simp [hslash, hletters]
    split
    · simp [hslash, hletters]
    split
    · simp [hslash, hletters]
    split
    · next hprint => simpa using hprint
    split
    · simp [hslash, hletters, prints_hex]
    split
    · simp [hslash, hletters, prints_hex]
    · simp [hslash, hletters, prints_hex]

theorem prints_quotedChars (cs : List Char) : Prints (quotedChars cs) := by
  have hquote : isPrintable (quoteFor cs) = true := by
    unfold quoteFor
    split
    · exact isPrintable_of_ascii (by decide)
    · exact isPrintable_of_ascii (by decide)
  have hbody : Prints (cs.flatMap (escapeIn (quoteFor cs))) := by
    intro d hd
    obtain ⟨c, -, hc⟩ := List.mem_flatMap.1 hd
    exact prints_escapeIn hquote c d hc
  simp [quotedChars, hquote, hbody]

/-- A list of quoted texts prints, whatever stands in the texts. -/
theorem prints_quotedList (texts : List String) : Prints (quotedList texts).toList := by
  have hpunctuation : Prints "[".toList ∧ Prints ", ".toList ∧ Prints "]".toList := by
    decide +kernel
  have hpieces : ∀ piece ∈ (texts.map quoted).map String.toList, Prints piece := by
    intro piece hpiece
    simp only [List.map_map, List.mem_map, Function.comp_apply] at hpiece
    obtain ⟨s, -, rfl⟩ := hpiece
    rw [quoted, String.toList_ofList]
    exact prints_quotedChars s.toList
  rw [quotedList, String.toList_append, String.toList_append, String.toList_intercalate]
  simp only [prints_append]
  exact ⟨⟨hpunctuation.1, forall_mem_intercalate hpunctuation.2.1 hpieces⟩, hpunctuation.2.2⟩

end Munch.Text
