/-
Symbol sets and counts that are spelled out are read back. A set lists its members by their codes, and
a set that was in canonical form is the one that is read (`takes_symbolSet`). A suffix in braces gives
the counts it was written for, and the question mark behind it belongs to it (`takes_suffix`).
-/
import Munch.Proofs.Interval.Merge
import Munch.Proofs.Pattern.Takes
import Munch.Proofs.Text.Digits
import Munch.Tree.Written

namespace Munch

open Text

variable {s rest : List Char} {r : Interval} {rs : List Interval} {b : Int}

/-! ## Symbol sets -/

/-- A list of the members of a set in canonical form is the set. -/
theorem ByteSet.accepting_of_isCanonical {set : ByteSet} (h : Tree.IsCanonical set) :
    accepting ⟨set.ranges, true⟩ = set := by
  obtain ⟨haccept, hbytes, hspaced⟩ := h
  have hmerge : Interval.merge set.ranges = set.ranges :=
    Interval.merge_eq_self hspaced fun r hr => (hbytes r hr).2.1
  rw [accepting, if_pos rfl, merged, hmerge]
  exact congrArg (ByteSet.mk set.ranges) haccept.symm

namespace Reader

theorem takes_hexByte (hlo : 0 ≤ b) (hhi : b ≤ 255) :
    Takes hexByte (hex 2 b.toNat ++ s) b s := by
  obtain ⟨n, rfl⟩ := Int.eq_ofNat_of_zero_le hlo
  rw [Int.toNat_natCast, hex_two (by omega)]
  refine takes_get_bind ?_
  simp only [List.cons_append, List.nil_append]
  rw [hexValue?_digitChar (by omega), hexValue?_digitChar (by omega)]
  have hn : ((16 * (n / 16) + n % 16 : Nat) : Int) = n := by omega
  exact takes_set_bind (hn ▸ takes_pure _ s)

theorem takes_member (hlo : 0 ≤ b) (hhi : b ≤ 255) :
    Takes member (Tree.writtenByte b ++ s) (.byte b) s := by
  refine (takes_next '\\' ('x' :: (hex 2 b.toNat ++ s))).bind ?_
  refine (takes_next 'x' (hex 2 b.toNat ++ s)).bind ?_
  exact (takes_hexByte hlo hhi).map

/-- Two bytes with a minus between them are a range. -/
theorem takes_memberRanges_range {t u : List Char} (h : r.lo ≤ r.hi)
    (hclass : ['[', ':'].isPrefixOf s = false) (hlo : Takes member s (.byte r.lo) ('-' :: t))
    (hfollows : Takes rangeFollows ('-' :: t) true ('-' :: t))
    (hhi : Takes member t (.byte r.hi) u) : Takes memberRanges s [r] u := by
  refine (takes_sees ['[', ':'] s).bind ?_
  rw [hclass, if_neg Bool.false_ne_true]
  refine hlo.bind (hfollows.bind ((takes_advance ['-'] t).bind (hhi.bind ?_)))
  show Takes (if r.hi < r.lo then _ else _) u [r] u
  rw [if_neg (Int.not_lt.2 h)]
  exact takes_pure _ u

theorem takes_memberRanges (h : 0 ≤ r.lo ∧ r.lo ≤ r.hi ∧ r.hi ≤ 255) :
    Takes memberRanges (Tree.writtenByte r.lo ++ ['-'] ++ Tree.writtenByte r.hi ++ s) [r] s := by
  rw [List.append_assoc, List.append_assoc]
  exact takes_memberRanges_range h.2.1 rfl (takes_member h.1 (by omega)) (takes_pure true _)
    (takes_member (by omega) h.2.2)

theorem takes_needsBracket (hs : s ≠ []) : Takes needsBracket s ⟨⟩ s := by
  obtain ⟨c, s, rfl⟩ := List.exists_cons_of_ne_nil hs
  rfl

/-- The next range, where a class goes on. -/
theorem takes_memberRanges? (h : 0 ≤ r.lo ∧ r.lo ≤ r.hi ∧ r.hi ≤ 255) :
    Takes memberRanges? (Tree.writtenByte r.lo ++ ['-'] ++ Tree.writtenByte r.hi ++ s) (some [r])
      s := by
  refine (takes_needsBracket (by simp)).bind ?_
  exact takes_refuse rfl (takes_memberRanges h).map

theorem takesEach_memberRanges? (h : ∀ r ∈ rs, 0 ≤ r.lo ∧ r.lo ≤ r.hi ∧ r.hi ≤ 255) :
    TakesEach memberRanges? (rs.flatMap (fun r =>
        Tree.writtenByte r.lo ++ ['-'] ++ Tree.writtenByte r.hi) ++ ']' :: s)
      (rs.map ([·])) s := by
  induction rs with
  | nil => exact .stop rfl
  | cons r rs ih =>
    rw [List.flatMap_cons, List.append_assoc]
    refine .next (takes_memberRanges? (h r (by simp))) ?_ (ih fun t ht => h t (by simp [ht]))
    simp only [List.length_append, List.length_cons]
    omega

/-- A class that lists the ranges of a set in canonical form, one after the other, is the set. -/
theorem takes_symbolSet_ranges {set : ByteSet} {text t : List Char} (h : Tree.IsCanonical set)
    (hranges : set.ranges = r :: rs) (hcaret : '^' ∉ text.head?) (hne : text ≠ [])
    (hfirst : Takes memberRanges text [r] t) (hothers : TakesEach memberRanges? t (rs.map ([·])) s) :
    Takes symbolSet ('[' :: text) (some set) s := by
  have hflatten : r :: (rs.map ([·])).flatten = set.ranges := by
    rw [← List.flatMap_def, List.flatMap_singleton', hranges]
  refine (takes_accepts ['['] _).bind ?_
  refine (takes_accepts_not_char hcaret).bind ?_
  refine (takes_needsBracket hne).bind (hfirst.bind ((takes_many hothers).bind ?_))
  show Takes (pure (some (ByteSet.accepting ⟨r :: (rs.map ([·])).flatten, true⟩))) s _ s
  rw [hflatten, ByteSet.accepting_of_isCanonical h]
  exact takes_pure _ s

theorem takes_symbolSet {set : ByteSet} (h : Tree.IsCanonical set) :
    Takes symbolSet (Tree.writtenSet set.ranges ++ s) (some set) s := by
  have hbytes := h.2.1
  cases hranges : set.ranges with
  | nil =>
    -- no range is written as the complement of all bytes
    obtain rfl : set = ⟨[], true⟩ := by
      rw [← hranges, ← h.1]
    have hall : (0 : Int) ≤ (⟨0, 255⟩ : Interval).lo ∧ (⟨0, 255⟩ : Interval).lo ≤ 255 ∧
        (⟨0, 255⟩ : Interval).hi ≤ 255 := by decide
    refine (takes_accepts ['['] _).bind ?_
    refine (takes_accepts ['^'] _).bind ?_
    refine (takes_needsBracket (by simp)).bind ?_
    refine (takes_memberRanges (r := ⟨0, 255⟩) hall).bind ?_
    have hnone : TakesEach memberRanges? (']' :: s) [] s := .stop rfl
    exact (takes_many hnone).bind (takes_pure _ s)
  | cons r rs =>
    rw [hranges] at hbytes
    have htext : Tree.writtenSet (r :: rs) ++ s = '[' :: (Tree.writtenByte r.lo ++ ['-'] ++
        Tree.writtenByte r.hi ++ (rs.flatMap (fun r =>
          Tree.writtenByte r.lo ++ ['-'] ++ Tree.writtenByte r.hi) ++ ']' :: s)) := by
      simp [Tree.writtenSet]
    rw [htext]
    refine takes_symbolSet_ranges h hranges ?_ (by simp) (takes_memberRanges (hbytes r (by simp)))
      (takesEach_memberRanges? fun t ht => hbytes t (by simp [ht]))
    rintro ⟨⟩

/-! ## Counts -/

variable {min : Int} {max : Option Int} {greedy : Bool}

theorem takes_number {n : Nat} (hn : n ≤ maxRepeat) (hs : ∀ c ∈ s.head?, isDigit c = false) :
    Takes number ((toString (n : Int)).toList ++ s) (some n) s := by
  have hdigits : ∀ c ∈ Nat.toDigits 10 n, isDigit c = true := fun c hc =>
    isDigit_of_ascii (Nat.isDigit_of_mem_toDigits (by decide) (by decide) hc)
  have hbound : n < 10 ^ maxNumeralDigits :=
    calc n < 10 ^ 4 := Nat.lt_of_le_of_lt hn (by decide)
      _ ≤ 10 ^ maxNumeralDigits := Nat.pow_le_pow_right (by decide) (by decide)
  rw [toList_toString_natCast]
  refine (takes_takeWhile hdigits hs).bind ?_
  rw [if_neg (by simp [Nat.toDigits_ne_nil]), numeral_toDigits hbound]
  show Takes (if maxRepeat < n then _ else _) s _ s
  rw [if_neg (by omega)]
  exact takes_pure _ s

theorem takes_number_none (hs : ∀ c ∈ s.head?, isDigit c = false) : Takes number s none s := by
  have hempty : Takes (takeWhile isDigit) ([] ++ s) [] s :=
    takes_takeWhile (List.forall_mem_nil _) hs
  exact hempty.bind (takes_pure none s)

/-- A numeral does not start with a comma. -/
theorem takes_accepts_comma (n : Nat) (s : List Char) :
    Takes (accepts [',']) ((toString (n : Int)).toList ++ s) false
      ((toString (n : Int)).toList ++ s) := by
  refine takes_accepts_not_char fun hcomma => ?_
  obtain ⟨c, cs, heq⟩ := List.exists_cons_of_ne_nil (Nat.toDigits_ne_nil (n := n) (b := 10))
  rw [toList_toString_natCast, heq] at hcomma
  obtain rfl : c = ',' := Option.some.inj hcomma
  have hmem : ',' ∈ Nat.toDigits 10 n := heq ▸ List.mem_cons_self
  exact absurd (Nat.isDigit_of_mem_toDigits (by decide) (by decide) hmem) (by decide)

theorem takes_counts {n : Nat} {m : Option Nat} (hn : n ≤ maxRepeat)
    (hm : ∀ k ∈ m, n ≤ k ∧ k ≤ maxRepeat) :
    Takes counts ((toString (n : Int)).toList ++ ',' ::
      (m.elim [] (fun k => (toString (k : Int)).toList) ++ '}' :: s)) (n, m) ('}' :: s) := by
  have hcomma : isDigit ',' = false := by decide
  have hbrace : isDigit '}' = false := by decide
  refine (takes_accepts_comma n _).bind ?_
  refine (takes_number hn (by simpa using hcomma)).bind ?_
  refine (takes_accepts [','] _).bind ?_
  cases m with
  | none =>
    refine (takes_number_none (s := '}' :: s) (by simpa using hbrace)).bind ?_
    exact takes_pure _ _
  | some k =>
    refine (takes_number (hm k rfl).2 (by simpa using hbrace)).bind ?_
    show Takes (if k < n then _ else _) _ _ _
    rw [if_neg (by have := hm k rfl; omega)]
    exact takes_pure _ _

/-- A suffix in braces. -/
def Suffix.written (x : Suffix) : List Char :=
  Tree.writtenBounds x.min (x.max.map Int.ofNat) x.greedy

/-- The counts of a suffix are some that it can be written with. -/
def Suffix.IsBounded (x : Suffix) : Prop :=
  x.min ≤ maxRepeat ∧ ∀ k ∈ x.max, x.min ≤ k ∧ k ≤ maxRepeat

theorem Suffix.written_append (x : Suffix) (s : List Char) :
    x.written ++ s = '{' :: ((toString (x.min : Int)).toList ++ ',' ::
      (x.max.elim [] (fun k => (toString (k : Int)).toList) ++ '}' ::
        ((if x.greedy then [] else ['?']) ++ s))) := by
  obtain ⟨n, m, greedy⟩ := x
  cases m <;> simp [Suffix.written, Tree.writtenBounds]

/-- Counts in braces. -/
theorem takes_bounds_counts {b : Nat × Option Nat} {t : List Char}
    (h : Takes counts t b ('}' :: s)) : Takes bounds ('{' :: t) (some b) s := by
  refine (takes_accepts_not rfl).bind ((takes_accepts_not rfl).bind ?_)
  refine (takes_accepts_not rfl).bind ((takes_accepts ['{'] _).bind (h.bind ?_))
  exact (takes_accepts ['}'] s).bind (takes_pure _ s)

theorem takes_bounds {x : Suffix} (h : x.IsBounded) :
    Takes bounds (x.written ++ s) (some (x.min, x.max))
      ((if x.greedy then [] else ['?']) ++ s) := by
  rw [x.written_append]
  exact takes_bounds_counts (takes_counts h.1 h.2)

/-- The bounds of a suffix, and the question mark behind them if it is lazy. -/
theorem takes_suffix_bounds {x : Suffix} {t : List Char} (hs : '?' ∉ s.head?)
    (h : Takes bounds t (some (x.min, x.max)) ((if x.greedy then [] else ['?']) ++ s)) :
    Takes (suffix false) t (some x) s := by
  refine h.bind ?_
  obtain ⟨n, m, greedy⟩ := x
  cases greedy with
  | true => exact (takes_accepts_not_char hs).map
  | false => exact (takes_accepts ['?'] s).map

theorem takes_suffix {x : Suffix} (h : x.IsBounded) (hs : '?' ∉ s.head?) :
    Takes (suffix false) (x.written ++ s) (some x) s :=
  takes_suffix_bounds hs (takes_bounds h)

theorem takes_suffix_none (onLook : Bool) (hs : ∀ c ∈ s.head?, startsSuffix c = false) :
    Takes (suffix onLook) s none s := by
  have hnot : ∀ c, startsSuffix c = true → c ∉ s.head? := by
    intro c hc hmem
    rw [hs c hmem] at hc
    exact Bool.noConfusion hc
  have hbounds : Takes bounds s none s := by
    refine (takes_accepts_not_char (hnot '?' rfl)).bind ?_
    refine (takes_accepts_not_char (hnot '*' rfl)).bind ?_
    refine (takes_accepts_not_char (hnot '+' rfl)).bind ?_
    exact (takes_accepts_not_char (hnot '{' rfl)).bind (takes_pure none s)
  exact hbounds.bind (takes_pure none s)

theorem takesEach_suffix {xs : List Suffix} (h : ∀ x ∈ xs, x.IsBounded)
    (hs : ∀ c ∈ s.head?, startsSuffix c = false) :
    TakesEach (suffix false) (xs.flatMap Suffix.written ++ s) xs s := by
  induction xs with
  | nil => exact .stop (takes_suffix_none false hs)
  | cons x xs ih =>
    have hmark : '?' ∉ (xs.flatMap Suffix.written ++ s).head? := by
      cases xs with
      | nil => exact fun hmem => Bool.noConfusion (hs '?' hmem)
      | cons y ys => simp [Suffix.written, Tree.writtenBounds]
    rw [List.flatMap_cons, List.append_assoc]
    refine .next (takes_suffix (h x (by simp)) hmark) ?_ (ih fun y hy => h y (by simp [hy]))
    rw [x.written_append]
    simp only [List.length_append, List.length_cons]
    omega

end Reader

end Munch
