/-
Decoding what was encoded. A character is encoded as one byte that stands for it, or as a byte that
opens it and those that complete it (`encodes_cases`); cut short, it is replaced as a whole. So the
first bytes of a text decode to the characters that end among them, with one replacement behind these
if a character is cut (`decodeFrom_take`).
-/
import Mathlib.Data.List.Infix
import Munch.Text.Utf8

namespace Munch.Text

variable {c : Char} {cs pre : List Char} {b : UInt8} {bs rest : List UInt8} {p : Partial}
  {m n stop v : Nat}

/-- The bytes of some characters. -/
def encoded (cs : List Char) : List UInt8 := cs.flatMap String.utf8EncodeChar

@[simp] theorem encoded_nil : encoded [] = [] := rfl

@[simp] theorem encoded_cons (c : Char) (cs : List Char) :
    encoded (c :: cs) = String.utf8EncodeChar c ++ encoded cs := rfl

theorem utf8_eq (s : String) : utf8 s = encoded s.toList := rfl

/-! ## Characters -/

/-- The bytes go on with the character that was begun, up to its end. -/
inductive Completes (c : Char) : Partial → List UInt8 → Prop where
  | last {p : Partial} {b : UInt8} : p.low ≤ b.toNat → b.toNat ≤ p.high → p.more = 0 →
    Char.ofNat (64 * p.value + b.toNat % 64) = c → Completes c p [b]
  | next {p : Partial} {b : UInt8} {bs : List UInt8} {more : Nat} : p.low ≤ b.toNat →
    b.toNat ≤ p.high → p.more = more + 1 →
    Completes c ⟨64 * p.value + b.toNat % 64, more, 0x80, 0xbf⟩ bs → Completes c p (b :: bs)

theorem Completes.decodeFrom (h : Completes c p bs) (rest : List UInt8) :
    decodeFrom (some p) (bs ++ rest) = c :: decodeFrom none rest := by
  induction h with
  | last hlow hhigh hmore hc =>
    rw [List.singleton_append, Text.decodeFrom]
    simp only [hlow, hhigh, hmore, and_self, if_true, hc]
  | next hlow hhigh hmore _ ih =>
    rw [List.cons_append, Text.decodeFrom]
    simp only [hlow, hhigh, hmore, and_self, if_true, ih]

/-- A character that was begun and is not completed is replaced. -/
theorem Completes.decodeFrom_take (h : Completes c p bs) (hn : n < bs.length) :
    Text.decodeFrom (some p) (bs.take n) = [replacement] := by
  induction h generalizing n with
  | last =>
    obtain rfl : n = 0 := Nat.lt_one_iff.1 hn
    rfl
  | @next p b bs more hlow hhigh hmore _ ih =>
    cases n with
    | zero => rfl
    | succ n =>
      rw [List.take_succ_cons, Text.decodeFrom]
      simp only [hlow, hhigh, hmore, and_self, if_true]
      exact ih (Nat.lt_of_succ_lt_succ hn)

theorem toNat_byte (h : n < 256) : (UInt8.ofNat n).toNat = n := by
  rw [UInt8.toNat_ofNat', Nat.mod_eq_of_lt h]

/-- A byte that goes on with a character holds six bits of it. -/
theorem completes_next {bits more : Nat} (hbits : bits < 64) (hlow : p.low ≤ bits + 0x80)
    (hhigh : bits + 0x80 ≤ p.high) (hmore : p.more = more + 1)
    (h : Completes c ⟨64 * p.value + bits, more, 0x80, 0xbf⟩ bs) :
    Completes c p (UInt8.ofNat (bits + 0x80) :: bs) := by
  have hbyte := toNat_byte (show bits + 0x80 < 256 by omega)
  have hmod : (UInt8.ofNat (bits + 0x80)).toNat % 64 = bits := by omega
  exact .next (by omega) (by omega) hmore (hmod.symm ▸ h)

theorem completes_last {bits : Nat} (hbits : bits < 64) (hlow : p.low ≤ bits + 0x80)
    (hhigh : bits + 0x80 ≤ p.high) (hmore : p.more = 0)
    (hc : Char.ofNat (64 * p.value + bits) = c) : Completes c p [UInt8.ofNat (bits + 0x80)] := by
  have hbyte := toNat_byte (show bits + 0x80 < 256 by omega)
  have hmod : (UInt8.ofNat (bits + 0x80)).toNat % 64 = bits := by omega
  exact .last (by omega) (by omega) hmore (hmod.symm ▸ hc)

/-- The first of two bytes, and what it says of the second one. -/
theorem lead_two (hlo : 0x80 ≤ v) (hhi : v ≤ 0x7ff) :
    lead (v / 64 + 0xc0) = .open ⟨v / 64, 0, 0x80, 0xbf⟩ := by
  rw [lead, if_neg (by omega), if_neg (by omega), if_pos (by omega), Nat.add_sub_cancel]

/-- The first of three bytes, and what it says of the second one. -/
theorem lead_three (hlo : 0x800 ≤ v) (hhi : v ≤ 0xffff) (hvalid : v < 0xd800 ∨ 0xdfff < v) :
    ∃ low high, lead (v / 4096 + 0xe0) = .open ⟨v / 4096, 1, low, high⟩ ∧
      low ≤ v / 64 % 64 + 0x80 ∧ v / 64 % 64 + 0x80 ≤ high := by
  by_cases hfirst : v / 4096 = 0
  · exact ⟨0xa0, 0xbf, by rw [hfirst]; rfl, by omega, by omega⟩
  by_cases hpairs : v / 4096 = 0xd
  · exact ⟨0x80, 0x9f, by rw [hpairs]; rfl, by omega, by omega⟩
  · refine ⟨0x80, 0xbf, ?_, by omega, by omega⟩
    rw [lead, if_neg (by omega), if_neg (by omega), if_neg (by omega), if_neg (by omega),
      if_neg (by omega), if_pos (by omega), Nat.add_sub_cancel]

/-- The first of four bytes, and what it says of the second one. -/
theorem lead_four (hlo : 0xffff < v) (hhi : v < 0x110000) :
    ∃ low high, lead (v / 262144 + 0xf0) = .open ⟨v / 262144, 2, low, high⟩ ∧
      low ≤ v / 4096 % 64 + 0x80 ∧ v / 4096 % 64 + 0x80 ≤ high := by
  by_cases hfirst : v / 262144 = 0
  · exact ⟨0x90, 0xbf, by rw [hfirst]; rfl, by omega, by omega⟩
  by_cases hlast : v / 262144 = 4
  · exact ⟨0x80, 0x8f, by rw [hlast]; rfl, by omega, by omega⟩
  · refine ⟨0x80, 0xbf, ?_, by omega, by omega⟩
    rw [lead, if_neg (by omega), if_neg (by omega), if_neg (by omega), if_neg (by omega),
      if_neg (by omega), if_neg (by omega), if_neg (by omega), if_pos (by omega),
      Nat.add_sub_cancel]

/-- A byte stands for a character, or it opens one and the others complete it. -/
theorem encodes_cases (c : Char) :
    (∃ b, String.utf8EncodeChar c = [b] ∧ lead b.toNat = .char c) ∨
      ∃ b bs p, String.utf8EncodeChar c = b :: bs ∧ lead b.toNat = .open p ∧
        Completes c p bs := by
  have hvalid : c.toNat < 0xd800 ∨ 0xdfff < c.toNat ∧ c.toNat < 0x110000 := c.valid
  have hc (n : Nat) (h : n = c.toNat) : Char.ofNat n = c := by rw [h, Char.ofNat_toNat]
  have hmod (n : Nat) : n % 64 < 64 := Nat.mod_lt n (by decide)
  have hhigh (n : Nat) : n % 64 + 0x80 ≤ 0xbf := by omega
  rw [String.utf8EncodeChar, show c.val.toNat = c.toNat from rfl]
  generalize c.toNat = v at hvalid hc
  split
  · next hv =>
    refine .inl ⟨_, rfl, ?_⟩
    rw [toNat_byte (by omega), lead, if_pos (by omega), hc v rfl]
  split
  · next hv hv₁ =>
    refine .inr ⟨_, _, ⟨v / 64, 0, 0x80, 0xbf⟩, rfl, ?_, ?_⟩
    · rw [toNat_byte (by omega), Nat.mod_eq_of_lt (by omega), lead_two (by omega) hv₁]
    · exact completes_last (hmod v) (Nat.le_add_left ..) (hhigh v) rfl (hc _ (by simp only; omega))
  split
  · next hv hv₁ hv₂ =>
    obtain ⟨low, high, hlead, hlow, hup⟩ := lead_three (by omega) hv₂ (by omega)
    refine .inr ⟨_, _, ⟨v / 4096, 1, low, high⟩, rfl, ?_, ?_⟩
    · rw [toNat_byte (by omega), Nat.mod_eq_of_lt (by omega), hlead]
    · refine completes_next (hmod _) hlow hup rfl ?_
      exact completes_last (hmod v) (Nat.le_add_left ..) (hhigh v) rfl (hc _ (by simp only; omega))
  · next hv hv₁ hv₂ =>
    obtain ⟨low, high, hlead, hlow, hup⟩ := lead_four (show 0xffff < v by omega) (by omega)
    refine .inr ⟨_, _, ⟨v / 262144, 2, low, high⟩, rfl, ?_, ?_⟩
    · rw [toNat_byte (by omega), Nat.mod_eq_of_lt (by omega), hlead]
    · refine completes_next (hmod _) hlow hup rfl ?_
      refine completes_next (hmod _) (Nat.le_add_left ..) (hhigh _) rfl ?_
      exact completes_last (hmod v) (Nat.le_add_left ..) (hhigh v) rfl (hc _ (by simp only; omega))

theorem utf8EncodeChar_length_pos (c : Char) : 0 < (String.utf8EncodeChar c).length :=
  List.length_pos_iff.2 (String.utf8EncodeChar_ne_nil)

theorem decodeFrom_utf8EncodeChar (c : Char) (rest : List UInt8) :
    decodeFrom none (String.utf8EncodeChar c ++ rest) = c :: decodeFrom none rest := by
  rcases encodes_cases c with ⟨b, henc, hlead⟩ | ⟨b, bs, p, henc, hlead, hbs⟩
  · rw [henc, List.singleton_append, decodeFrom]
    simp only [hlead]
  · rw [henc, List.cons_append, decodeFrom]
    simp only [hlead]
    exact hbs.decodeFrom rest

/-- A character that is cut short is replaced as a whole. -/
theorem decodeFrom_take_utf8EncodeChar (hpos : 0 < n)
    (hn : n < (String.utf8EncodeChar c).length) :
    decodeFrom none ((String.utf8EncodeChar c).take n) = [replacement] := by
  obtain ⟨n, rfl⟩ : ∃ m, n = m + 1 := ⟨n - 1, by omega⟩
  rcases encodes_cases c with ⟨b, henc, -⟩ | ⟨b, bs, p, henc, hlead, hbs⟩
  · rw [henc, List.length_singleton] at hn
    omega
  · rw [henc, List.length_cons] at hn
    rw [henc, List.take_succ_cons, decodeFrom]
    simp only [hlead]
    exact hbs.decodeFrom_take (by omega)

/-! ## Texts -/

/-- The offset lies inside of the bytes of a character. -/
def CutsChar (cs : List Char) (stop : Nat) : Prop :=
  ∃ pre c, pre ++ [c] <+: cs ∧ (encoded pre).length < stop ∧ stop < (encoded (pre ++ [c])).length

/-- The characters that end at the offset or before it are those of `pre`. -/
structure EndBy (cs : List Char) (stop : Nat) (pre : List Char) : Prop where
  isPrefix : pre <+: cs
  length_le : (encoded pre).length ≤ stop
  greatest : ∀ c, pre ++ [c] <+: cs → stop < (encoded (pre ++ [c])).length

theorem not_cutsChar_zero : ¬ CutsChar cs 0 := by
  simp [CutsChar]

theorem endBy_zero : EndBy cs 0 [] where
  isPrefix := List.nil_prefix
  length_le := Nat.le_refl 0
  greatest c _ := by simpa using utf8EncodeChar_length_pos c

/-- An offset in the first character. -/
theorem endBy_within (h : stop < (String.utf8EncodeChar c).length) : EndBy (c :: cs) stop [] where
  isPrefix := List.nil_prefix
  length_le := Nat.zero_le stop
  greatest d hd := by
    obtain rfl := (List.cons_prefix_cons.1 hd).1
    simpa using h

theorem cutsChar_within (hpos : 0 < stop) (h : stop < (String.utf8EncodeChar c).length) :
    CutsChar (c :: cs) stop :=
  ⟨[], c, by simp, hpos, by simpa using h⟩

/-- An offset behind the first character. -/
theorem EndBy.cons (h : EndBy cs n pre) :
    EndBy (c :: cs) ((String.utf8EncodeChar c).length + n) (c :: pre) where
  isPrefix := List.cons_prefix_cons.2 ⟨rfl, h.isPrefix⟩
  length_le := by simpa using h.length_le
  greatest d hd := by
    have := h.greatest d (List.cons_prefix_cons.1 hd).2
    simpa using this

theorem cutsChar_cons :
    CutsChar (c :: cs) ((String.utf8EncodeChar c).length + n) ↔ CutsChar cs n := by
  constructor
  · intro h
    obtain ⟨pre, d, hpre, hlt, hgt⟩ := h
    cases pre with
    | nil =>
      obtain rfl := (List.cons_prefix_cons.1 hpre).1
      rw [List.nil_append, encoded_cons, encoded_nil, List.append_nil] at hgt
      omega
    | cons e pre =>
      obtain ⟨rfl, hrest⟩ := List.cons_prefix_cons.1 hpre
      exact ⟨pre, d, hrest, by simpa using hlt, by simpa using hgt⟩
  · intro h
    obtain ⟨pre, d, hpre, hlt, hgt⟩ := h
    exact ⟨c :: pre, d, List.cons_prefix_cons.2 ⟨rfl, hpre⟩, by simpa using hlt, by simpa using hgt⟩

/-- The first bytes of a text decode to the characters that end among them, and one replacement if
they cut a character. -/
theorem decodeFrom_take (cs : List Char) (stop : Nat) :
    ∃ pre tail, decodeFrom none ((encoded cs).take stop) = pre ++ tail ∧ EndBy cs stop pre ∧
      (CutsChar cs stop → tail = [replacement]) ∧ (¬ CutsChar cs stop → tail = []) := by
  induction cs generalizing stop with
  | nil =>
    refine ⟨[], [], by simp [decodeFrom], ⟨List.nil_prefix, Nat.zero_le stop, by simp⟩, ?_, by simp⟩
    simp [CutsChar]
  | cons c cs ih =>
    by_cases hzero : stop = 0
    · exact ⟨[], [], by simp [hzero, decodeFrom], hzero ▸ endBy_zero,
        fun h => absurd (hzero ▸ h) not_cutsChar_zero, fun _ => rfl⟩
    by_cases hwithin : stop < (String.utf8EncodeChar c).length
    · have hcut : CutsChar (c :: cs) stop := cutsChar_within (Nat.pos_of_ne_zero hzero) hwithin
      refine ⟨[], [replacement], ?_, endBy_within hwithin, fun _ => rfl, fun h => absurd hcut h⟩
      rw [encoded_cons, List.take_append_of_le_length (Nat.le_of_lt hwithin)]
      exact decodeFrom_take_utf8EncodeChar (Nat.pos_of_ne_zero hzero) hwithin
    · obtain ⟨n, rfl⟩ := Nat.exists_eq_add_of_le (Nat.le_of_not_lt hwithin)
      obtain ⟨pre, tail, hdecode, hpre, htail⟩ := ih n
      refine ⟨c :: pre, tail, ?_, hpre.cons, by simpa only [cutsChar_cons] using htail⟩
      rw [encoded_cons, List.take_length_add_append, decodeFrom_utf8EncodeChar, hdecode,
        List.cons_append]

end Munch.Text
