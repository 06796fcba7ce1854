/-
Texts that can be read in one way only. `Unambiguous text valid follow` says that from what is
written for something, followed by anything that may follow it, one can tell both. Bytes are told by
themselves (`unambiguous_byteChars`), intervals up to something that is no minus
(`Interval.unambiguous_text`), numbers up to something that is no digit (`unambiguous_toString`), and
rows up to something that starts no further member (`Unambiguous.row`).
-/
import Munch.Interval.Basic
import Munch.Proofs.Interval.Merge
import Munch.Proofs.Text.Digits

namespace Munch

namespace Text

variable {α : Type} {s t cs ds : List Char} {m n : Nat}

/-- What is written for the things and may be followed by such texts is written for one of them
only, and what follows is known, too. -/
def Unambiguous (text : α → List Char) (valid : α → Prop) (follow : List Char → Prop) : Prop :=
  ∀ a b s t, valid a → valid b → follow s → follow t → text a ++ s = text b ++ t → a = b ∧ s = t

/-- A row of things ends where no further one starts. -/
theorem Unambiguous.row {text : α → List Char} {valid : α → Prop} {follow : List Char → Prop}
    (starts last : List Char → Prop) (h : Unambiguous text valid last)
    (hstarts : ∀ a s, valid a → starts (text a ++ s)) (hfollow : ∀ s, follow s → ¬ starts s)
    (hlast : ∀ s, starts s ∨ follow s → last s) :
    Unambiguous (List.flatMap text) (fun as => ∀ a ∈ as, valid a) follow := by
  have hrest {as : List α} {s : List Char} (has : ∀ a ∈ as, valid a) (hs : follow s) :
      last (as.flatMap text ++ s) := by
    cases as with
    | nil => exact hlast s (.inr hs)
    | cons a as =>
      rw [List.flatMap_cons, List.append_assoc]
      exact hlast _ (.inl (hstarts a _ (has a List.mem_cons_self)))
  intro as bs s t has hbs hs ht heq
  induction as generalizing bs with
  | nil =>
    cases bs with
    | nil => exact ⟨rfl, heq⟩
    | cons b bs =>
      rw [List.flatMap_cons, List.append_assoc] at heq
      obtain rfl : s = text b ++ (bs.flatMap text ++ t) := heq
      exact absurd (hstarts b _ (hbs b List.mem_cons_self)) (hfollow _ hs)
  | cons a as ih =>
    rw [List.flatMap_cons, List.append_assoc] at heq
    cases bs with
    | nil =>
      obtain rfl : text a ++ (as.flatMap text ++ s) = t := heq
      exact absurd (hstarts a _ (has a List.mem_cons_self)) (hfollow _ ht)
    | cons b bs =>
      rw [List.flatMap_cons, List.append_assoc] at heq
      obtain ⟨ha, has⟩ := List.forall_mem_cons.1 has
      obtain ⟨hb, hbs'⟩ := List.forall_mem_cons.1 hbs
      obtain ⟨rfl, htail⟩ := h a b _ _ ha hb (hrest has hs) (hrest hbs' ht) heq
      obtain ⟨rfl, rfl⟩ := ih bs has hbs' htail
      exact ⟨rfl, rfl⟩

/-- Separators stand in front of all pieces but the first. -/
theorem intercalate_cons_eq (sep piece : List Char) (pieces : List (List Char)) :
    sep.intercalate (piece :: pieces) = piece ++ pieces.flatMap (sep ++ ·) := by
  induction pieces generalizing piece with
  | nil => simp
  | cons next pieces ih => simp [List.intercalate_cons_cons, ih]

/-! ## Numbers -/

/-- Characters that pass a test end where one does not pass. -/
theorem append_inj_of_forall {test : Char → Bool} (hcs : ∀ c ∈ cs, test c = true)
    (hds : ∀ c ∈ ds, test c = true) (hs : ∀ c ∈ s.head?, test c = false)
    (ht : ∀ c ∈ t.head?, test c = false) (h : cs ++ s = ds ++ t) : cs = ds ∧ s = t := by
  have hnone {s : List Char} (hs : ∀ c ∈ s.head?, test c = false) : s.takeWhile test = [] := by
    cases s with
    | nil => rfl
    | cons c s => simp [hs c rfl]
  have htake := congrArg (List.takeWhile test) h
  rw [List.takeWhile_append_of_pos hcs, List.takeWhile_append_of_pos hds, hnone hs, hnone ht,
    List.append_nil, List.append_nil] at htake
  subst htake
  exact ⟨rfl, List.append_cancel_left h⟩

/-- A number ends in front of anything that is no digit. -/
theorem not_isDigit_head?_cons {c : Char} (h : c.isDigit = false) (s : List Char) :
    ∀ d ∈ (c :: s).head?, d.isDigit = false := by
  rintro _ ⟨⟩
  exact h

theorem toDigits_inj (h : Nat.toDigits 10 m = Nat.toDigits 10 n) : m = n := by
  have hvalue := congrArg (Nat.ofDigitChars 10 · 0) h
  simpa only [Nat.ofDigitChars_ten_toDigits] using hvalue

theorem toDigits_append_inj (hs : ∀ c ∈ s.head?, c.isDigit = false)
    (ht : ∀ c ∈ t.head?, c.isDigit = false)
    (h : Nat.toDigits 10 m ++ s = Nat.toDigits 10 n ++ t) : m = n ∧ s = t := by
  have hdigits (n : Nat) : ∀ c ∈ Nat.toDigits 10 n, c.isDigit = true :=
    fun c => Nat.isDigit_of_mem_toDigits (by decide) (by decide)
  obtain ⟨hmn, hst⟩ := append_inj_of_forall (hdigits m) (hdigits n) hs ht h
  exact ⟨toDigits_inj hmn, hst⟩

theorem toList_toString_negSucc (n : Nat) :
    (toString (Int.negSucc n)).toList = '-' :: Nat.toDigits 10 (n + 1) := by
  show ("-" ++ Nat.repr (n + 1)).toList = _
  rw [String.toList_append, Nat.toList_repr]
  rfl

theorem isDigit_head?_toDigits (n : Nat) :
    ∀ c ∈ (Nat.toDigits 10 n ++ s).head?, c.isDigit = true := by
  obtain ⟨c, cs, heq⟩ := List.exists_cons_of_ne_nil (Nat.toDigits_ne_nil (n := n) (b := 10))
  have hc : c.isDigit = true :=
    Nat.isDigit_of_mem_toDigits (by decide) (by decide) (heq ▸ List.mem_cons_self)
  rw [heq]
  rintro _ ⟨⟩
  exact hc

/-- A number does not start with a sign unless it is negative. -/
theorem toDigits_append_ne (n : Nat) : Nat.toDigits 10 n ++ s ≠ '-' :: t := fun h =>
  absurd (isDigit_head?_toDigits n '-' (congrArg List.head? h)) (by decide)

theorem blank_notMem_head?_toString (z : Int) : ' ' ∉ ((toString z).toList ++ s).head? := by
  cases z with
  | ofNat n =>
    rw [Int.ofNat_eq_natCast, toList_toString_natCast]
    exact fun h => absurd (isDigit_head?_toDigits n ' ' h) (by decide)
  | negSucc n =>
    rw [toList_toString_negSucc]
    rintro ⟨⟩

theorem unambiguous_toString : Unambiguous (fun z : Int => (toString z).toList) (fun _ => True)
    fun s => ∀ c ∈ s.head?, c.isDigit = false := by
  intro a b s t _ _ hs ht h
  cases a with
  | ofNat m =>
    cases b with
    | ofNat n =>
      simp only [Int.ofNat_eq_natCast, toList_toString_natCast] at h
      obtain ⟨rfl, rfl⟩ := toDigits_append_inj hs ht h
      exact ⟨rfl, rfl⟩
    | negSucc n =>
      simp only [Int.ofNat_eq_natCast, toList_toString_natCast, toList_toString_negSucc] at h
      exact absurd h (toDigits_append_ne m)
  | negSucc m =>
    cases b with
    | ofNat n =>
      simp only [Int.ofNat_eq_natCast, toList_toString_natCast, toList_toString_negSucc] at h
      exact absurd h.symm (toDigits_append_ne n)
    | negSucc n =>
      simp only [toList_toString_negSucc, List.cons_append, List.cons.injEq, true_and] at h
      obtain ⟨hmn, rfl⟩ := toDigits_append_inj hs ht h
      obtain rfl := Nat.succ.inj hmn
      exact ⟨rfl, rfl⟩

/-! ## Bytes -/

theorem digitChar_inj (hm : m < 16) (hn : n < 16) (h : m.digitChar = n.digitChar) : m = n := by
  have hvalue := congrArg hexValue? h
  rw [hexValue?_digitChar hm, hexValue?_digitChar hn] at hvalue
  exact Option.some.inj hvalue

theorem toNat_ofNat (h : n < 256) : (Char.ofNat n).toNat = n := by
  have hvalid : n.isValidChar := .inl (by omega)
  rw [Char.ofNat, dif_pos hvalid]
  rfl

theorem ofNat_ne_backslash (h : isPlainByte n = true) : Char.ofNat n ≠ '\\' := by
  simp only [isPlainByte, Bool.and_eq_true, decide_eq_true_eq, bne_iff_ne] at h
  intro heq
  have hvalue := congrArg Char.toNat heq
  rw [toNat_ofNat (by omega)] at hvalue
  exact h.1.1.2 hvalue

theorem unambiguous_byteChars :
    Unambiguous byteChars (fun b => 0 ≤ b ∧ b ≤ 255) fun _ => True := by
  intro a b s t ha hb _ _ h
  obtain ⟨m, rfl⟩ := Int.eq_ofNat_of_zero_le ha.1
  obtain ⟨n, rfl⟩ := Int.eq_ofNat_of_zero_le hb.1
  have hm : m < 256 := by omega
  have hn : n < 256 := by omega
  simp only [byteChars, Int.toNat_natCast] at h
  split at h
  · next hplain =>
    split at h
    · obtain ⟨heq, rfl⟩ := List.cons.inj h
      have hvalue := congrArg Char.toNat heq
      rw [toNat_ofNat hm, toNat_ofNat hn] at hvalue
      exact ⟨congrArg Int.ofNat hvalue, rfl⟩
    · exact absurd (List.cons.inj h).1 (ofNat_ne_backslash hplain)
  · split at h
    · next hplain => exact absurd (List.cons.inj h).1.symm (ofNat_ne_backslash hplain)
    · simp only [hex_two hm, hex_two hn, List.cons_append, List.nil_append, List.cons.injEq,
        true_and] at h
      obtain ⟨hhigh, hlow, rfl⟩ := h
      have hhigh := digitChar_inj (by omega) (by omega) hhigh
      have hlow := digitChar_inj (by omega) (by omega) hlow
      exact ⟨by omega, rfl⟩

end Text

open Text

/-! ## Intervals -/

/-- The interval is made of bytes. -/
abbrev Interval.IsBytes (r : Interval) : Prop := r.Within Interval.minByte Interval.maxByte

theorem Interval.toList_text (r : Interval) : r.text.toList =
    byteChars r.lo ++ if r.lo = r.hi then [] else '-' :: byteChars r.hi := by
  unfold text
  split
  · simp [byteText]
  · simp [byteText]

theorem Interval.toList_text_of_eq {r : Interval} (h : r.lo = r.hi) :
    r.text.toList = byteChars r.lo := by
  rw [r.toList_text, if_pos h, List.append_nil]

theorem Interval.toList_text_of_ne {r : Interval} (h : r.lo ≠ r.hi) :
    r.text.toList = byteChars r.lo ++ '-' :: byteChars r.hi := by
  rw [r.toList_text, if_neg h]

/-- An interval ends where no minus follows. -/
theorem Interval.unambiguous_text :
    Unambiguous (fun r : Interval => r.text.toList) IsBytes fun s => '-' ∉ s.head? := by
  intro q r s t hq hr hs ht h
  have hbytes {r : Interval} (hr : r.IsBytes) :
      (0 ≤ r.lo ∧ r.lo ≤ 255) ∧ 0 ≤ r.hi ∧ r.hi ≤ 255 := by
    simp only [IsBytes, Within, minByte, maxByte] at hr
    omega
  simp only [toList_text, List.append_assoc] at h
  obtain ⟨hlo, h⟩ := unambiguous_byteChars _ _ _ _ (hbytes hq).1 (hbytes hr).1 trivial trivial h
  obtain ⟨lo, hi⟩ := q
  obtain ⟨lo', hi'⟩ := r
  obtain rfl : lo = lo' := hlo
  simp only at h
  split at h
  · next heq =>
    split at h
    · next heq' => exact ⟨by rw [← heq, ← heq'], h⟩
    · exact absurd (show s = '-' :: _ from h) fun hminus => hs (hminus ▸ rfl)
  · split at h
    · exact absurd (show '-' :: _ = t from h) fun hminus => ht (hminus ▸ rfl)
    · obtain ⟨hhi, hst⟩ := unambiguous_byteChars _ _ _ _ (hbytes hq).2 (hbytes hr).2 trivial
        trivial (List.cons.inj h).2
      exact ⟨congrArg _ hhi, hst⟩

end Munch
