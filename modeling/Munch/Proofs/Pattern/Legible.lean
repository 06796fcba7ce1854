/-
Sets of bytes whose text is read back. The text shows most bytes as they are, also those that mean
something else where they stand: a single byte with a meaning of its own, a caret at the start of a
class, a closing bracket or a minus inside of it. `ByteSet.IsLegible` leaves these out, and such a
set is what its text is read as (`takes_atom_text`).
-/
import Munch.Proofs.Pattern.Literal
import Munch.Proofs.Text.Unambiguous
import Munch.Tree.Printer

namespace Munch

open Text

variable {b : Int} {r : Interval} {rs : List Interval} {set : ByteSet} {s : List Char}

namespace ByteSet

/-- In square brackets the interval ends where it should, with these intervals behind it: it does
not run into the closing bracket, the next one is not taken for that, and a single byte is followed
by a minus at the very end only. -/
def IsApart (r : Interval) (rest : List Interval) : Prop :=
  (r.hi = 0x5d → r.lo = r.hi) ∧ ∀ next ∈ rest.head?, next.lo ≠ 0x5d ∧
    (r.lo = r.hi → next.lo = 0x2d → rest = [.single 0x2d])

/-- All intervals end where they should. -/
def AreApart : List Interval → Prop
  | [] => True
  | r :: rest => IsApart r rest ∧ AreApart rest

instance (r : Interval) (rest : List Interval) : Decidable (IsApart r rest) :=
  inferInstanceAs (Decidable (_ ∧ _))

instance decidableAreApart : (rs : List Interval) → Decidable (AreApart rs)
  | [] => .isTrue trivial
  | _ :: rest =>
    have := decidableAreApart rest
    inferInstanceAs (Decidable (_ ∧ _))

/-- A single byte stands for itself if it has no meaning of its own or is not shown as it is. In
square brackets a caret in front would make the complement. -/
def IsLegible (s : ByteSet) : Prop :=
  match s.ranges with
  | [] => False
  | r :: rest =>
    if rest = [] ∧ r.lo = r.hi then
      isPlainByte r.lo.toNat = true → Reader.isMeta (Char.ofNat r.lo.toNat) = false
    else r.lo ≠ 0x5e ∧ AreApart (r :: rest)

instance : (s : ByteSet) → Decidable s.IsLegible
  | ⟨[], _⟩ => .isFalse id
  | ⟨_ :: _, _⟩ => inferInstanceAs (Decidable (ite _ _ _))

theorem text_single (b : Int) : (single b).text.toList = byteChars b := by
  simp [text, single, Interval.single, Interval.text, byteText]

/-- Any other set is shown as a class. -/
theorem text_class (h : ¬(rs = [] ∧ r.lo = r.hi)) : (text ⟨r :: rs, true⟩).toList =
    '[' :: ((r :: rs).flatMap (·.text.toList) ++ [']']) := by
  cases rs with
  | nil =>
    have hlo : r.lo ≠ r.hi := fun hlo => h ⟨rfl, hlo⟩
    simp [text, hlo]
  | cons next rest => simp [text, String.toList_join, List.flatMap_map]

end ByteSet

namespace Tree.IsCanonical

variable {accept : Bool}

theorem head (h : IsCanonical ⟨r :: rs, accept⟩) : 0 ≤ r.lo ∧ r.lo ≤ r.hi ∧ r.hi ≤ 255 :=
  h.2.1 r List.mem_cons_self

theorem tail (h : IsCanonical ⟨r :: rs, accept⟩) : IsCanonical ⟨rs, accept⟩ :=
  ⟨h.1, fun q hq => h.2.1 q (List.mem_cons_of_mem r hq), (List.pairwise_cons.1 h.2.2).2⟩

theorem gap {q : Interval} (h : IsCanonical ⟨r :: rs, accept⟩) (hq : q ∈ rs) : r.hi + 1 < q.lo :=
  (List.pairwise_cons.1 h.2.2).1 q hq

end Tree.IsCanonical

namespace Text

theorem byteChars_of_not_plain (h : isPlainByte b.toNat ≠ true) :
    byteChars b = Tree.writtenByte b := by
  rw [byteChars, if_neg h, Tree.writtenByte]

theorem byteChars_ne_nil (b : Int) : byteChars b ≠ [] := by
  unfold byteChars
  split
  · exact List.cons_ne_nil _ _
  · exact List.cons_ne_nil _ _

/-- A byte is shown by itself or starts with a backslash. -/
theorem notMem_head_byteChars {c : Char} (hlo : 0 ≤ b) (hhi : b ≤ 255) (hc : c ≠ '\\')
    (h : b ≠ c.toNat) : c ∉ (byteChars b ++ s).head? := by
  unfold byteChars
  split
  · intro heq
    have hvalue := congrArg Char.toNat (Option.some.inj heq)
    rw [toNat_ofNat (by omega)] at hvalue
    omega
  · exact fun heq => hc (Option.some.inj heq).symm

end Text

namespace Reader

/-! ## Members -/

theorem takes_member_byteChars (hlo : 0 ≤ b) (hhi : b ≤ 255) :
    Takes member (byteChars b ++ s) (.byte b) s := by
  by_cases hplain : isPlainByte b.toNat = true
  · have hascii : b.toNat ≤ 0x7e := by
      simp only [isPlainByte, Bool.and_eq_true, decide_eq_true_eq] at hplain
      exact hplain.1.1.1.2
    have hcode : (Char.ofNat b.toNat).toNat = b.toNat := toNat_ofNat (by omega)
    rw [byteChars, if_pos hplain]
    refine (takes_next _ s).bind ?_
    show Takes (if Char.ofNat b.toNat = '\\' then _ else memberOf _) _ _ _
    rw [if_neg (ofNat_ne_backslash hplain), memberOf, hcode, if_neg (by omega),
      Int.toNat_of_nonneg hlo]
    exact takes_pure _ s
  · rw [byteChars_of_not_plain hplain]
    exact takes_member hlo hhi

/-- A minus makes a range where the class does not end behind it. -/
theorem takes_rangeFollows_minus (hne : s ≠ []) (h : ']' ∉ s.head?) :
    Takes rangeFollows ('-' :: s) true ('-' :: s) := by
  obtain ⟨c, s, rfl⟩ := List.exists_cons_of_ne_nil hne
  have hc : (c != ']') = true := bne_iff_ne.2 fun heq => h (heq ▸ rfl)
  show Takes (pure ('-' == '-' && c != ']')) _ true _
  rw [hc]
  exact takes_pure true _

theorem takes_rangeFollows_not (h : '-' ∉ s.head?) : Takes rangeFollows s false s := by
  match s, h with
  | [], _ => exact takes_pure false []
  | [c], _ => exact takes_pure false [c]
  | c :: d :: s, h =>
    have hc : (c == '-') = false := beq_false_of_ne fun heq => h (heq ▸ rfl)
    show Takes (pure (c == '-' && d != ']')) _ false _
    rw [hc]
    exact takes_pure false _

/-- No name of a class starts with an interval. -/
theorem not_isPrefixOf_text (hlo : 0 ≤ r.lo) (hhi : r.lo ≤ 255)
    (hcolon : r.lo = r.hi → r.lo = 0x5b → ':' ∉ s.head?) :
    ['[', ':'].isPrefixOf (r.text.toList ++ s) = false := by
  by_contra hprefix
  obtain ⟨rest, heq⟩ := List.isPrefixOf_iff_prefix.1 (Bool.not_eq_false _ ▸ hprefix)
  rw [r.toList_text, List.append_assoc] at heq
  have hopen : r.lo = 0x5b := by
    by_contra hne
    exact notMem_head_byteChars (c := '[') hlo hhi (by decide) hne (by rw [← heq]; rfl)
  have hcode : byteChars r.lo = ['['] := by
    rw [hopen]
    decide
  rw [hcode] at heq
  by_cases hsingle : r.lo = r.hi
  · rw [if_pos hsingle] at heq
    obtain rfl : ':' :: rest = s := (List.cons.inj heq).2
    exact hcolon hsingle hopen rfl
  · rw [if_neg hsingle] at heq
    cases (List.cons.inj heq).2

/-- An interval is read up to where it cannot go on: a single byte up to something that makes no
range of it, and no class name of an opening bracket. -/
theorem takes_memberRanges_text (hr : 0 ≤ r.lo ∧ r.lo ≤ r.hi ∧ r.hi ≤ 255)
    (hbracket : r.hi = 0x5d → r.lo = r.hi)
    (hcolon : r.lo = r.hi → r.lo = 0x5b → ':' ∉ s.head?)
    (hminus : r.lo = r.hi → Takes rangeFollows s false s) :
    Takes memberRanges (r.text.toList ++ s) [r] s := by
  have hlo : 0 ≤ r.lo ∧ r.lo ≤ 255 := by omega
  have hclass := not_isPrefixOf_text hlo.1 hlo.2 hcolon
  by_cases hsingle : r.lo = r.hi
  · refine (takes_sees ['[', ':'] _).bind ?_
    rw [hclass, if_neg Bool.false_ne_true, Interval.toList_text_of_eq hsingle]
    refine (takes_member_byteChars hlo.1 hlo.2).bind ((hminus hsingle).bind ?_)
    obtain ⟨lo, hi⟩ := r
    obtain rfl : lo = hi := hsingle
    exact takes_pure _ s
  · have hhead : ']' ∉ (byteChars r.hi ++ s).head? :=
      notMem_head_byteChars (by omega) hr.2.2 (by decide) fun heq => hsingle (hbracket heq)
    rw [Interval.toList_text_of_ne hsingle, List.append_assoc, List.cons_append] at hclass ⊢
    exact takes_memberRanges_range hr.2.1 hclass (takes_member_byteChars hlo.1 hlo.2)
      (takes_rangeFollows_minus (by simp [byteChars_ne_nil]) hhead)
      (takes_member_byteChars (by omega) hr.2.2)

/-! ## Classes -/

/-- The next interval of a class, if it ends where it should. -/
theorem takes_memberRanges_row (h : Tree.IsCanonical ⟨r :: rs, true⟩)
    (hapart : ByteSet.IsApart r rs) :
    Takes memberRanges (r.text.toList ++ (rs.flatMap (·.text.toList) ++ ']' :: s)) [r]
      (rs.flatMap (·.text.toList) ++ ']' :: s) := by
  obtain ⟨hbracket, hnext⟩ := hapart
  cases rs with
  | nil =>
    refine takes_memberRanges_text h.head hbracket ?_ fun _ => takes_rangeFollows_not ?_
    · rintro - - ⟨⟩
    · rintro ⟨⟩
  | cons next rest =>
    obtain ⟨-, hminus⟩ := hnext next rfl
    have hbyte := h.tail.head
    have hlt : r.hi + 1 < next.lo := h.gap List.mem_cons_self
    have hhead {c : Char} (hc : c ≠ '\\') (hlo : next.lo ≠ c.toNat) :
        c ∉ ((next :: rest).flatMap (·.text.toList) ++ ']' :: s).head? := by
      rw [List.flatMap_cons, next.toList_text, List.append_assoc, List.append_assoc]
      exact notMem_head_byteChars hbyte.1 (by omega) hc hlo
    refine takes_memberRanges_text h.head hbracket (fun hsingle hopen => ?_) fun hsingle => ?_
    · have hcolon : ':'.toNat = 58 := rfl
      exact hhead (by decide) (by omega)
    by_cases hlo : next.lo = 0x2d
    · obtain ⟨rfl, rfl⟩ := List.cons.inj (hminus hsingle hlo)
      exact takes_pure false _
    · exact takes_rangeFollows_not (hhead (by decide) hlo)

theorem bracket_notMem_head (h : Tree.IsCanonical ⟨r :: rs, true⟩) (hlo : r.lo ≠ 0x5d) :
    ']' ∉ (r.text.toList ++ s).head? := by
  have hbyte := h.head
  rw [r.toList_text, List.append_assoc]
  exact notMem_head_byteChars hbyte.1 (by omega) (by decide) hlo

theorem takesEach_memberRanges?_text (h : Tree.IsCanonical ⟨rs, true⟩)
    (hapart : ByteSet.AreApart rs) (hfirst : ∀ r ∈ rs.head?, r.lo ≠ 0x5d) :
    TakesEach memberRanges? (rs.flatMap (·.text.toList) ++ ']' :: s) (rs.map ([·])) s := by
  induction rs with
  | nil => exact .stop rfl
  | cons r rs ih =>
    have hrest := ih h.tail hapart.2 fun next hnext => (hapart.1.2 next hnext).1
    rw [List.flatMap_cons, List.append_assoc]
    refine .next ((takes_needsBracket (by simp)).bind ?_) ?_ hrest
    · exact (takes_accepts_not_char (bracket_notMem_head h (hfirst r rfl))).bind
        (takes_memberRanges_row h hapart.1).map
    · have hpos := List.length_pos_iff.2 (byteChars_ne_nil r.lo)
      simp only [r.toList_text, List.length_append]
      omega

/-- A class whose intervals end where they should is the set, if no caret comes first. -/
theorem takes_symbolSet_text (h : Tree.IsCanonical ⟨r :: rs, true⟩) (hcaret : r.lo ≠ 0x5e)
    (hapart : ByteSet.AreApart (r :: rs)) :
    Takes symbolSet ('[' :: ((r :: rs).flatMap (·.text.toList) ++ ']' :: s))
      (some ⟨r :: rs, true⟩) s := by
  have hr := h.head
  have hothers := takesEach_memberRanges?_text (s := s) h.tail hapart.2
    fun next hnext => (hapart.1.2 next hnext).1
  rw [List.flatMap_cons, List.append_assoc]
  refine takes_symbolSet_ranges h rfl ?_ (by simp) (takes_memberRanges_row h hapart.1) hothers
  rw [r.toList_text, List.append_assoc]
  exact notMem_head_byteChars hr.1 (by omega) (by decide) hcaret

/-! ## Atoms -/

variable {expr : Reader Tree}

theorem ofChar_of_ascii {c : Char} (h : c.toNat ≤ 0x7f) :
    Tree.ofChar c = .symbol (.single c.toNat) := by
  have hencode : String.utf8EncodeChar c = [UInt8.ofNat c.toNat] := if_pos h
  have hcode : (UInt8.ofNat c.toNat).toNat = c.toNat := UInt8.toNat_ofNat_of_lt' (by
    show c.toNat < 256
    omega)
  simp only [Tree.ofChar, hencode, hcode]

/-- A byte without a meaning of its own. -/
theorem takes_atom_byteChars (hlo : 0 ≤ b) (hhi : b ≤ 255)
    (h : isPlainByte b.toNat = true → isMeta (Char.ofNat b.toNat) = false) :
    Takes (atom expr) (byteChars b ++ s) (some (.symbol (.single b))) s := by
  by_cases hplain : isPlainByte b.toNat = true
  · have hascii : b.toNat ≤ 0x7e := by
      simp only [isPlainByte, Bool.and_eq_true, decide_eq_true_eq] at hplain
      exact hplain.1.1.1.2
    have hcode : (Char.ofNat b.toNat).toNat = b.toNat := toNat_ofNat (by omega)
    have hatom : Takes (atom expr) (quoted (Char.ofNat b.toNat) ++ s) _ s := takes_atom_quoted _ s
    rw [quoted, h hplain, if_neg Bool.false_ne_true, ofChar_of_ascii (by omega), hcode,
      Int.toNat_of_nonneg hlo] at hatom
    rw [byteChars, if_pos hplain]
    exact hatom
  · rw [byteChars_of_not_plain hplain]
    have hescape : Takes escape (Tree.writtenByte b ++ s) (.symbol (.single b)) s := by
      refine (takes_advance ['\\'] _).bind ((takes_next 'x' _).bind ?_)
      exact (takes_hexByte hlo hhi).map
    have hsymbol : Takes symbol (Tree.writtenByte b ++ s) (.symbol (.single b)) s :=
      takes_refuse rfl ((takes_peek _).bind hescape)
    refine takes_atom_of_symbol (by decide) (by decide) (by decide)
      (takes_look_none (by decide) (by decide) fun _ d hd => ?_) hsymbol
    obtain rfl : 'x' = d := Option.some.inj hd
    rfl

end Reader

/-- A legible set is shown as one byte without a meaning of its own, or as a class. -/
theorem ByteSet.IsLegible.text_cases (h : set.IsLegible) (haccept : set.accept = true) :
    (∃ b, set = .single b ∧ (isPlainByte b.toNat = true →
      Reader.isMeta (Char.ofNat b.toNat) = false) ∧ set.text.toList = byteChars b) ∨
    ∃ r rs, set = ⟨r :: rs, true⟩ ∧ r.lo ≠ 0x5e ∧ AreApart (r :: rs) ∧
      set.text.toList = '[' :: ((r :: rs).flatMap (·.text.toList) ++ [']']) := by
  obtain ⟨ranges, accept⟩ := set
  obtain rfl : accept = true := haccept
  cases ranges with
  | nil => exact absurd h id
  | cons r rest =>
    simp only [IsLegible] at h
    split at h
    · next hsingle =>
      obtain ⟨rfl, hlo⟩ := hsingle
      obtain ⟨lo, hi⟩ := r
      obtain rfl : lo = hi := hlo
      exact .inl ⟨lo, rfl, h, text_single lo⟩
    · next hclass => exact .inr ⟨r, rest, rfl, h.1, h.2, text_class hclass⟩

namespace Reader

variable {expr : Reader Tree}

/-- The text of a legible set is read as the set. -/
theorem takes_atom_text (h : Tree.IsCanonical set) (hlegible : set.IsLegible) :
    Takes (atom expr) (set.text.toList ++ s) (some (.symbol set)) s := by
  obtain ⟨b, rfl, hb, htext⟩ | ⟨r, rs, rfl, hcaret, hapart, htext⟩ := hlegible.text_cases h.1
  · have hbyte := h.head
    rw [htext]
    exact takes_atom_byteChars hbyte.1 hbyte.2.2 hb
  · rw [htext, List.cons_append, List.append_assoc]
    exact takes_atom_of_symbolSet (takes_symbolSet_text h hcaret hapart)

/-- The text of a legible set does not go on with what stands before it. -/
theorem head_text (hlegible : set.IsLegible) (haccept : set.accept = true) :
    ∃ c cs, set.text.toList = c :: cs ∧ startsSuffix c = false := by
  obtain ⟨b, rfl, hb, htext⟩ | ⟨r, rs, -, -, -, htext⟩ := hlegible.text_cases haccept
  · rw [htext, byteChars]
    split
    · next hplain => exact ⟨_, _, rfl, not_startsSuffix (hb hplain)⟩
    · exact ⟨_, _, rfl, rfl⟩
  · exact ⟨_, _, htext, rfl⟩

end Reader

end Munch
