/-
Numbers that are written out and read again. The decimal digits of a number are a numeral for it
(`numeral_toDigits`), and the two hexadecimal digits of a byte have the values it is made of
(`hex_two`).
-/
import Mathlib.Algebra.Group.Nat.Defs
import Munch.Text.Byte
import Munch.Text.Numeral

namespace Munch.Text

variable {c : Char} {cs : List Char} {n : Nat}

/-! ## Decimal digits -/

theorem toNat_of_isDigit (h : c.isDigit = true) : 48 ≤ c.toNat ∧ c.toNat ≤ 57 := by
  simp only [Char.isDigit, Bool.and_eq_true, decide_eq_true_eq, ge_iff_le,
    UInt32.le_iff_toNat_le] at h
  exact h

theorem isDigit_of_ascii (h : c.isDigit = true) : isDigit c = true := by
  have hc := toNat_of_isDigit h
  rw [isDigit, digitRanges, inRanges, if_neg (by omega), Bool.or_eq_true, decide_eq_true_eq]
  exact .inl hc.2

theorem decimalValue?_of_ascii (h : c.isDigit = true) :
    decimalValue? c = some (c.toNat - 48) := by
  have hc := toNat_of_isDigit h
  rw [decimalValue?, decimalRanges, List.find?_cons_of_pos (by simpa using hc), Option.map_some]
  exact congrArg some (Nat.mod_eq_of_lt (by omega))

theorem mapM_decimalValue? (h : ∀ c ∈ cs, c.isDigit = true) :
    cs.mapM decimalValue? = some (cs.map fun c => c.toNat - 48) := by
  induction cs with
  | nil => rfl
  | cons c cs ih =>
    rw [List.mapM_cons, decimalValue?_of_ascii (h c (by simp)),
      ih fun d hd => h d (by simp [hd])]
    rfl

theorem toList_toString_natCast (n : Nat) : (toString (n : Int)).toList = Nat.toDigits 10 n :=
  Nat.toList_repr

/-- The digits of a number, if they are not too many, are read as the number. -/
theorem numeral_toDigits (h : n < 10 ^ maxNumeralDigits) :
    numeral (Nat.toDigits 10 n) = .ok n := by
  have hlength : (Nat.toDigits 10 n).length ≤ maxNumeralDigits :=
    (Nat.length_toDigits_le_iff (by decide) (by decide)).2 h
  have hleading := (List.takeWhile_prefix (l := Nat.toDigits 10 n)
    fun c => (decimalValue? c).isSome).length_le
  have hvalue : ofDigits ((Nat.toDigits 10 n).map fun c => c.toNat - 48) = n := by
    rw [ofDigits, List.foldl_map]
    exact Nat.ofDigitChars_ten_toDigits
  have hdigits : ∀ c ∈ Nat.toDigits 10 n, c.isDigit = true :=
    fun c => Nat.isDigit_of_mem_toDigits (by decide) (by decide)
  obtain ⟨c, cs, heq⟩ := List.exists_cons_of_ne_nil (Nat.toDigits_ne_nil (n := n) (b := 10))
  rw [numeral, if_neg (by omega), mapM_decimalValue? hdigits]
  rw [heq] at hvalue ⊢
  exact congrArg Except.ok hvalue

/-! ## Hexadecimal digits -/

theorem hexValue?_digitChar (h : n < 16) : hexValue? n.digitChar = some n := by
  revert h
  revert n
  decide

/-- A byte has two digits, for the sixteens and for what is left. -/
theorem hex_two (h : n < 256) : hex 2 n = [(n / 16).digitChar, (n % 16).digitChar] := by
  rw [hex, Nat.toDigits_eq_if (by decide)]
  split
  · next hlt => simp [Nat.div_eq_of_lt hlt, Nat.mod_eq_of_lt hlt]
  · rw [Nat.toDigits_of_lt_base (by omega)]
    simp

end Munch.Text
