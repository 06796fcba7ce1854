/-
The text of a set is read back as the set only if the set is legible (`Tree.parse_text_symbol_iff`).
Where the first interval of a class does not end where it should, what is read differs from the set
at a byte behind it: the closing bracket is a member and ends the class, or the byte after a single
one falls into a range that a minus makes. A caret in front makes the complement.
-/
import Munch.Proofs.Pattern.Complement
import Munch.Proofs.Pattern.Printed

namespace Munch

open Text

variable {b : Int} {q r : Interval} {rs first : List Interval} {others : List (List Interval)}
  {set : ByteSet} {s t u : List Char}

namespace Reader

/-! ## Misread members -/

/-- A single byte, where no range and no class name can start with it. -/
theorem takes_memberRanges_single (hlo : 0 ≤ b) (hhi : b ≤ 255) (hcolon : b = 0x5b → ':' ∉ s.head?)
    (hminus : Takes rangeFollows s false s) :
    Takes memberRanges (byteChars b ++ s) [.single b] s := by
  have hsingle := takes_memberRanges_text (r := .single b) (s := s) ⟨hlo, Int.le_refl b, hhi⟩
    (fun _ => rfl) (fun _ => hcolon) fun _ => hminus
  exact (Interval.toList_text_of_eq (r := .single b) rfl) ▸ hsingle

/-- A minus in front of the closing bracket is a member, and the class ends behind it. -/
theorem takes_closing (hlo : 0 ≤ b) (hhi : b ≤ 255) :
    Takes memberRanges (byteChars b ++ '-' :: ']' :: s) [.single b] ('-' :: ']' :: s) ∧
      TakesEach memberRanges? ('-' :: ']' :: s) [[.single 0x2d]] s := by
  have hminus : Takes memberRanges (byteChars 0x2d ++ ']' :: s) [.single 0x2d] (']' :: s) :=
    takes_memberRanges_single (by decide) (by decide) (by simp) (takes_rangeFollows_not (by simp))
  refine ⟨takes_memberRanges_single hlo hhi (by simp) (takes_pure false _), ?_⟩
  refine .next ((takes_needsBracket (by simp)).bind ?_) (Nat.lt_succ_self _) (.stop rfl)
  exact takes_refuse rfl hminus.map

/-- So the closing bracket is no member of what is read. -/
theorem covers_closing (hlo : 0 ≤ b) (hhi : b ≤ 255) (hb : b ≠ 0x5d)
    (hfirst : Takes memberRanges (byteChars b ++ '-' :: ']' :: s) first t)
    (hothers : TakesEach memberRanges? t others u) :
    Interval.covers (first ++ others.flatten) 0x5d = false := by
  obtain ⟨hb', hminus⟩ := takes_closing (s := s) hlo hhi
  obtain ⟨rfl, rfl⟩ := hb'.det hfirst
  obtain ⟨rfl, -⟩ := TakesEach.det hminus hothers
  rw [← Bool.not_eq_true, Interval.covers_iff]
  rintro ⟨q, hq, hlo, hhi⟩
  simp only [Interval.single, List.flatten_cons, List.flatten_nil, List.append_nil,
    List.cons_append, List.nil_append, List.mem_cons, List.not_mem_nil, or_false] at hq
  rcases hq with rfl | rfl <;> simp only at hlo hhi <;> omega

/-- A range holds the byte behind its first one. -/
theorem covers_range (hq : 0 ≤ q.lo ∧ q.lo < q.hi ∧ q.hi ≤ 255) (hbracket : q.hi ≠ 0x5d)
    (hfirst : Takes memberRanges (q.text.toList ++ s) first t) (rs : List Interval) :
    Interval.covers (first ++ rs) (q.lo + 1) = true := by
  have hrange := takes_memberRanges_text (s := s) ⟨hq.1, Int.le_of_lt hq.2.1, hq.2.2⟩
    (fun h => absurd h hbracket) (fun h => absurd h (Int.ne_of_lt hq.2.1))
    fun h => absurd h (Int.ne_of_lt hq.2.1)
  obtain ⟨rfl, -⟩ := hrange.det hfirst
  simp only [List.singleton_append, Interval.covers_cons]
  omega

/-! ## Classes that agree with their intervals -/

/-- What is read from the class holds the same bytes as the intervals, from the first one on. -/
def ReadsAs (r : Interval) (rs : List Interval) (s : List Char) : Prop :=
  ∃ first t others u,
    Takes memberRanges (r.text.toList ++ (rs.flatMap (·.text.toList) ++ ']' :: s)) first t ∧
    TakesEach memberRanges? t others u ∧
    ∀ n, r.lo ≤ n → Interval.covers (first ++ others.flatten) n = Interval.covers (r :: rs) n

variable {next : Interval}

/-- If the closing bracket is a member, no minus stands in front of the one that ends the class. -/
theorem ReadsAs.not_closing (h : Tree.IsCanonical ⟨r :: rs, true⟩)
    (hread : ReadsAs r rs s) (hlo : r.lo < 0x5d) (hq : q ∈ r :: rs)
    (hbracket : q.lo ≤ 0x5d ∧ 0x5d ≤ q.hi) :
    ¬byteChars r.lo ++ ['-', ']'] <+:
      r.text.toList ++ (rs.flatMap (·.text.toList) ++ ']' :: s) := by
  rintro ⟨v, htext⟩
  obtain ⟨first, t, others, u, hfirst, hothers, hsame⟩ := hread
  have hr := h.head
  rw [← htext, List.append_assoc] at hfirst
  have hclosing := covers_closing hr.1 (by omega) (by omega) hfirst hothers
  rw [hsame _ (by omega), Interval.covers_iff.2 ⟨q, hq, hbracket⟩] at hclosing
  cases hclosing

/-- The byte behind a single one is no member, so the text does not start with a range from it. -/
theorem ReadsAs.not_range {m : Int} (h : Tree.IsCanonical ⟨r :: rs, true⟩)
    (hread : ReadsAs r rs s) (hsingle : r.lo = r.hi) (hm : r.lo < m ∧ m ≤ 255 ∧ m ≠ 0x5d) :
    ¬(⟨r.lo, m⟩ : Interval).text.toList <+:
      r.text.toList ++ (rs.flatMap (·.text.toList) ++ ']' :: s) := by
  rintro ⟨v, htext⟩
  obtain ⟨first, t, others, u, hfirst, hothers, hsame⟩ := hread
  have hr := h.head
  rw [← htext] at hfirst
  have hrange := covers_range (q := ⟨r.lo, m⟩) ⟨hr.1, hm.1, hm.2.1⟩ hm.2.2 hfirst others.flatten
  rw [hsame _ (by simp only; omega), Interval.covers_iff] at hrange
  obtain ⟨q, hq, hlo, hhi⟩ := hrange
  simp only at hlo hhi
  rcases List.mem_cons.1 hq with rfl | hq
  · omega
  · have hgap := h.gap hq
    omega

/-- The interval does not run into the closing bracket. -/
theorem ReadsAs.bracket (h : Tree.IsCanonical ⟨r :: rs, true⟩) (hread : ReadsAs r rs s) :
    r.hi = 0x5d → r.lo = r.hi := by
  have hr := h.head
  have hcode : byteChars 0x5d = [']'] := by decide
  intro hhi
  by_contra hlo
  refine hread.not_closing h (by omega) List.mem_cons_self (by omega) ?_
  simp [Interval.toList_text_of_ne hlo, hhi, hcode]

/-- The next interval is not taken for the closing bracket. -/
theorem ReadsAs.next_lo (h : Tree.IsCanonical ⟨r :: next :: rs, true⟩)
    (hread : ReadsAs r (next :: rs) s) : next.lo ≠ 0x5d := by
  have hbracket := hread.bracket h
  obtain ⟨first, t, others, u, hfirst, hothers, hsame⟩ := hread
  have hr := h.head
  have hnext := h.tail.head
  have hgap : r.hi + 1 < next.lo := h.gap List.mem_cons_self
  intro hlo
  have hcode : byteChars next.lo = [']'] := by
    rw [hlo]
    decide
  rw [List.flatMap_cons, next.toList_text, hcode, List.append_assoc, List.append_assoc] at hfirst
  have hrow (v : List Char) := takes_memberRanges_text (s := ']' :: v) hr hbracket (by simp)
    fun _ => takes_rangeFollows_not (by simp)
  obtain ⟨rfl, rfl⟩ := (hrow _).det hfirst
  have hclose (v : List Char) : TakesEach memberRanges? (']' :: v) [] v := .stop rfl
  obtain ⟨rfl, -⟩ := TakesEach.det (hclose _) hothers
  have hbyte : Interval.covers (r :: next :: rs) 0x5d = true :=
    Interval.covers_iff.2 ⟨next, by simp, by omega, by omega⟩
  rw [← hsame _ (by omega), List.flatten_nil, List.append_nil, Interval.covers_iff] at hbyte
  obtain ⟨q, hq, -, hhi⟩ := hbyte
  obtain rfl := List.mem_singleton.1 hq
  omega

/-- A single byte is followed by a minus at the very end only. -/
theorem ReadsAs.minus (h : Tree.IsCanonical ⟨r :: next :: rs, true⟩)
    (hread : ReadsAs r (next :: rs) s) (hsingle : r.lo = r.hi) (hlo : next.lo = 0x2d) :
    next :: rs = [.single 0x2d] := by
  have hr := h.head
  have hnext := h.tail.head
  have hgap : r.hi + 1 < next.lo := h.gap List.mem_cons_self
  have hcode : byteChars next.lo = ['-'] := by
    rw [hlo]
    decide
  by_contra hne
  by_cases hrange : next.lo = next.hi
  · cases rs with
    | nil =>
      obtain ⟨lo, hi⟩ := next
      obtain rfl : lo = hi := hrange
      exact hne (by rw [show lo = 0x2d from hlo]; rfl)
    | cons z rs =>
      have hz := h.tail.tail.head
      have hgap' : next.hi + 1 < z.lo := h.tail.gap List.mem_cons_self
      by_cases hbracket : z.lo = 0x5d
      · have hclose : byteChars z.lo = [']'] := by
          rw [hbracket]
          decide
        refine hread.not_closing (q := z) h (by omega) (by simp) (by omega) ?_
        simp [Interval.toList_text_of_eq hsingle, Interval.toList_text_of_eq hrange, hcode,
          z.toList_text, hclose]
      · have hlt : r.lo ≠ z.lo := by omega
        refine hread.not_range (m := z.lo) h hsingle ⟨by omega, by omega, hbracket⟩ ?_
        simp [Interval.toList_text_of_eq hsingle, Interval.toList_text_of_eq hrange, hcode,
          z.toList_text, Interval.toList_text_of_ne (r := ⟨r.lo, z.lo⟩) hlt]
  · have hlt : r.lo ≠ next.lo := by omega
    refine hread.not_range (m := next.lo) h hsingle (by omega) ?_
    simp [Interval.toList_text_of_eq hsingle, Interval.toList_text_of_ne hrange, hcode,
      Interval.toList_text_of_ne (r := ⟨r.lo, next.lo⟩) hlt]

theorem exists_of_takes_memberRanges? {o : Option (List Interval)} (hs : ']' ∉ s.head?)
    (h : Takes memberRanges? s o t) : ∃ ranges, o = some ranges ∧ Takes memberRanges s ranges t := by
  obtain ⟨_, v, hv, hrest⟩ := takes_bind.1 h
  obtain ⟨-, rfl, -⟩ := (reads_needsBracket s).of_ok hv
  obtain ⟨closed, w, hclosed, hrest⟩ := takes_bind.1 hrest
  obtain ⟨rfl, rfl⟩ := (takes_accepts_not_char hs).det hclosed
  obtain ⟨ranges, x, hranges, ⟨⟩⟩ := takes_bind.1 hrest
  exact ⟨ranges, rfl, hranges⟩

/-- A class that is read as its intervals has them end where they should. -/
theorem ReadsAs.areApart (h : Tree.IsCanonical ⟨r :: rs, true⟩) (hread : ReadsAs r rs s) :
    ByteSet.AreApart (r :: rs) := by
  induction rs generalizing r with
  | nil => exact ⟨⟨hread.bracket h, by simp⟩, trivial⟩
  | cons next rest ih =>
    have hapart : ByteSet.IsApart r (next :: rest) := by
      refine ⟨hread.bracket h, ?_⟩
      rintro _ ⟨⟩
      exact ⟨hread.next_lo h, hread.minus h⟩
    refine ⟨hapart, ih h.tail ?_⟩
    have hclose := bracket_notMem_head (s := rest.flatMap (·.text.toList) ++ ']' :: s) h.tail
      (hread.next_lo h)
    obtain ⟨first, t, others, u, hfirst, hothers, hsame⟩ := hread
    obtain ⟨rfl, rfl⟩ := (takes_memberRanges_row h hapart).det hfirst
    rw [List.flatMap_cons, List.append_assoc] at hothers
    cases hothers with
    | stop hnone =>
      obtain ⟨ranges, hranges, -⟩ := exists_of_takes_memberRanges? hclose hnone
      cases hranges
    | @next _ v _ ranges others hsome _ hothers =>
      obtain ⟨_, ⟨⟩, hranges⟩ := exists_of_takes_memberRanges? hclose hsome
      have hr := h.head
      have hgap : r.hi + 1 < next.lo := h.gap List.mem_cons_self
      refine ⟨ranges, v, others, u, hranges, hothers, fun n hn => ?_⟩
      have hout : ¬(r.lo ≤ n ∧ n ≤ r.hi) := by omega
      have hcovers := hsame n (by omega)
      rw [Bool.eq_iff_iff, List.singleton_append, List.flatten_cons, Interval.covers_cons,
        Interval.covers_cons, or_iff_right hout, or_iff_right hout] at hcovers
      exact Bool.eq_iff_iff.2 hcovers

/-! ## Classes -/

theorem takes_members_text (h : Tree.IsCanonical ⟨r :: rs, true⟩)
    (hapart : ByteSet.AreApart (r :: rs)) :
    Takes members ((r :: rs).flatMap (·.text.toList) ++ ']' :: s) (r :: rs) s := by
  have hothers := takesEach_memberRanges?_text (s := s) h.tail hapart.2
    fun next hnext => (hapart.1.2 next hnext).1
  have hflatten : [r] ++ (rs.map ([·])).flatten = r :: rs := by
    rw [← List.flatMap_def, List.flatMap_singleton', List.singleton_append]
  rw [List.flatMap_cons, List.append_assoc]
  refine (takes_needsBracket (by simp)).bind ((takes_memberRanges_row h hapart.1).bind ?_)
  exact hflatten ▸ (takes_many hothers).map

theorem areApart_of_lt (h : Tree.IsCanonical ⟨rs, true⟩) (hlo : ∀ r ∈ rs, 0x5d < r.lo) :
    ByteSet.AreApart rs := by
  induction rs with
  | nil => trivial
  | cons r rs ih =>
    obtain ⟨hr, hrs⟩ := List.forall_mem_cons.1 hlo
    have hbyte := h.head
    refine ⟨⟨by omega, fun next hnext => ?_⟩, ih h.tail hrs⟩
    have hnext := hrs next (List.mem_of_mem_head? hnext)
    exact ⟨by omega, by omega⟩

/-- A class that starts with a caret is the complement of other intervals. -/
theorem exists_negated (h : Tree.IsCanonical ⟨r :: rs, true⟩) (hlo : r.lo = 0x5e)
    (hclass : ¬(rs = [] ∧ r.lo = r.hi)) : ∃ q qs, Tree.IsCanonical ⟨q :: qs, true⟩ ∧
      ByteSet.AreApart (q :: qs) ∧ 0 < q.lo ∧
      (r :: rs).flatMap (·.text.toList) = '^' :: (q :: qs).flatMap (·.text.toList) := by
  have hcode : byteChars r.lo = ['^'] := by
    rw [hlo]
    decide
  have hr := h.head
  have hlater : ∀ q ∈ rs, 0x5d < q.lo := fun q hq => by
    have hgap := h.gap hq
    omega
  by_cases hsingle : r.lo = r.hi
  · cases rs with
    | nil => exact absurd ⟨rfl, hsingle⟩ hclass
    | cons q qs =>
      have hq := hlater q List.mem_cons_self
      refine ⟨q, qs, h.tail, areApart_of_lt h.tail hlater, by omega, ?_⟩
      rw [List.flatMap_cons, Interval.toList_text_of_eq hsingle, hcode]
      rfl
  · -- the minus of the range becomes a member of its own
    have hhi : Tree.IsCanonical ⟨.single r.hi :: rs, true⟩ := by
      refine ⟨rfl, List.forall_mem_cons.2 ⟨?_, h.tail.2.1⟩, List.pairwise_cons.2 ⟨?_, h.tail.2.2⟩⟩
      · simp only [Interval.single]
        omega
      · exact fun q hq => h.gap hq
    have hminus : Tree.IsCanonical ⟨.single 0x2d :: .single r.hi :: rs, true⟩ := by
      refine ⟨rfl, List.forall_mem_cons.2 ⟨by decide, hhi.2.1⟩,
        List.pairwise_cons.2 ⟨List.forall_mem_cons.2 ⟨?_, fun q hq => ?_⟩, hhi.2.2⟩⟩
      · simp only [Interval.single]
        omega
      · have hq := hlater q hq
        simp only [Interval.single]
        omega
    refine ⟨_, _, hminus, ⟨⟨by decide, ?_⟩, areApart_of_lt hhi ?_⟩, by decide, ?_⟩
    · rintro _ ⟨⟩
      simp only [Interval.single]
      exact ⟨by omega, by omega⟩
    · refine List.forall_mem_cons.2 ⟨?_, hlater⟩
      simp only [Interval.single]
      omega
    · have hminusText : (Interval.single 0x2d).text.toList = ['-'] := by decide
      have hhiText : (Interval.single r.hi).text.toList = byteChars r.hi :=
        Interval.toList_text_of_eq rfl
      simp [Interval.toList_text_of_ne hsingle, hcode, hminusText, hhiText]

theorem lo_ne_caret (h : Tree.IsCanonical ⟨r :: rs, true⟩) (hclass : ¬(rs = [] ∧ r.lo = r.hi))
    (hread : Takes symbolSet ('[' :: ((r :: rs).flatMap (·.text.toList) ++ ']' :: s))
      (some ⟨r :: rs, true⟩) t) : r.lo ≠ 0x5e := by
  intro hlo
  obtain ⟨q, qs, hqs, hapart, hpos, htext⟩ := exists_negated h hlo hclass
  rw [htext] at hread
  obtain ⟨heq, -⟩ := hread.det (takes_symbolSet_negated (takes_members_text hqs hapart))
  -- the byte 0 is left out, so it is in the complement
  have hnone {r : Interval} {rs : List Interval} (h : Tree.IsCanonical ⟨r :: rs, true⟩)
      (hpos : 0 < r.lo) : ByteSet.contains ⟨r :: rs, true⟩ 0 = false := by
    rw [ByteSet.contains, beq_true, ← Bool.not_eq_true, Interval.covers_iff]
    rintro ⟨q, hq, hqlo, -⟩
    have hr := h.head
    rcases List.mem_cons.1 hq with rfl | hq
    · omega
    · have hgap := h.gap hq
      omega
  have hzero : (ByteSet.accepting ⟨q :: qs, false⟩).contains 0 = true := by
    refine (ByteSet.contains_complement hqs.2.1 0).2 ⟨by decide, ?_⟩
    rw [ByteSet.accepting_of_isCanonical hqs]
    exact hnone hqs hpos
  rw [← Option.some.inj heq, hnone h (by omega)] at hzero
  cases hzero

theorem areApart_of_takes (h : Tree.IsCanonical ⟨r :: rs, true⟩) (hcaret : r.lo ≠ 0x5e)
    (hread : Takes symbolSet ('[' :: ((r :: rs).flatMap (·.text.toList) ++ ']' :: s))
      (some ⟨r :: rs, true⟩) t) : ByteSet.AreApart (r :: rs) := by
  have hr := h.head
  have hhead : '^' ∉ ((r :: rs).flatMap (·.text.toList) ++ ']' :: s).head? := by
    rw [List.flatMap_cons, r.toList_text, List.append_assoc, List.append_assoc]
    exact notMem_head_byteChars hr.1 (by omega) (by decide) hcaret
  obtain ⟨ranges, hranges, hset⟩ := exists_members hhead hread
  obtain ⟨_, v, hv, hrest⟩ := takes_bind.1 hranges
  obtain ⟨-, rfl, -⟩ := (reads_needsBracket _).of_ok hv
  obtain ⟨first, w, hfirst, hrest⟩ := takes_bind.1 hrest
  obtain ⟨others, x, hothers, ⟨⟩⟩ := takes_bind.1 hrest
  rw [List.flatMap_cons, List.append_assoc] at hfirst
  refine ReadsAs.areApart h ⟨first, w, others, t, hfirst, takesEach_memberRanges?_of_many hothers,
    fun n _ => ?_⟩
  have hmerged : r :: rs = Interval.merge (first ++ others.flatten) := congrArg ByteSet.ranges hset
  rw [hmerged, Interval.covers_merge]

/-! ## Whole patterns -/

variable {tree : Tree}

theorem eq_of_suffixed {a : Tree} {xs : List Suffix} (h : Tree.suffixed a xs = .symbol set) :
    a = .symbol set := by
  induction xs generalizing a with
  | nil => exact h
  | cons x xs ih => cases ih h

theorem not_takes_symbolSet_none : ¬Takes symbolSet ('[' :: s) none t := by
  rw [symbolSet_eq]
  intro h
  obtain ⟨opened, u, hopened, hrest⟩ := takes_bind.1 h
  obtain ⟨rfl, rfl⟩ := (takes_accepts ['['] s).det hopened
  obtain ⟨negated, v, -, hrest⟩ := takes_bind.1 hrest
  obtain ⟨ranges, w, -, ⟨⟩⟩ := takes_bind.1 hrest

/-- An atom that starts with an opening bracket is a class. -/
theorem takes_symbolSet_of_atom {expr : Reader Tree}
    (h : Takes (atom expr) ('[' :: s) (some (.symbol set)) t) :
    Takes symbolSet ('[' :: s) (some set) t := by
  obtain ⟨o, u, ho, hrest⟩ := takes_bind.1 h
  obtain ⟨rfl, rfl⟩ := (takes_peek _).det ho
  simp only [List.head?_cons] at hrest
  rw [if_neg (by decide), if_neg (by decide)] at hrest
  obtain ⟨o, u, ho, hrest⟩ := takes_bind.1 hrest
  have hgroup : Takes (group expr) ('[' :: s) none ('[' :: s) :=
    (takes_accepts_not_char (by simp)).bind (takes_pure none _)
  obtain ⟨rfl, rfl⟩ := hgroup.det ho
  obtain ⟨o, u, ho, hrest⟩ := takes_bind.1 hrest
  cases o with
  | none => exact absurd ho not_takes_symbolSet_none
  | some set' =>
    cases hrest
    exact ho

theorem eq_of_ofAlternatives {first : Tree} {others : List Tree}
    (h : .symbol set = Tree.ofAlternatives (first :: others)) : first = .symbol set := by
  unfold Tree.ofAlternatives at h
  split at h
  · next t heq =>
    have hmem : first ∈ (first :: others).eraseDups := List.mem_eraseDups.2 List.mem_cons_self
    rw [heq] at hmem
    exact (List.mem_singleton.1 hmem).trans h.symm
  · cases h

/-- A branch that is one class is read as a single item. -/
theorem takes_item_of_branch {expr : Reader Tree} (hexpr : Forward expr)
    (h : Takes (branch expr) s (.symbol set) t) :
    ∃ u, Takes (item expr) s (some (.symbol set)) u := by
  obtain ⟨o, u, hconcat, hrest⟩ := takes_bind.1 h
  obtain ⟨ts, v, hmany, hconcat⟩ := takes_bind.1 hconcat
  have heach := takesEach_of_many (fun s _ _ hs => ((advances_item hexpr s).of_ok hs).2 (by simp))
    hmany
  match ts, heach with
  | [], _ =>
    cases hconcat
    cases hrest
  | [u], .next hitem _ _ =>
    cases hconcat
    cases hrest
    exact ⟨_, hitem⟩
  | _ :: _ :: _, _ =>
    cases hconcat
    cases hrest

/-- A class that is all there is to an expression is its first atom. -/
theorem takes_symbolSet_of_expr (h : Takes expr ('[' :: s) (.symbol set) t) :
    ∃ u, Takes symbolSet ('[' :: s) (some set) u := by
  obtain ⟨first, u, others, hbranch, -, htree⟩ := takes_expr_iff.1 h
  obtain rfl := eq_of_ofAlternatives htree
  obtain ⟨v, hitem⟩ := takes_item_of_branch forward_expr hbranch
  obtain ⟨o, w, hatom, hrest⟩ := takes_bind.1 hitem
  cases o with
  | none => cases hrest
  | some a =>
    obtain ⟨xs, x, -, hsome⟩ := takes_bind.1 hrest
    obtain ⟨hset, -⟩ := (takes_pure _ x).det hsome
    obtain rfl := eq_of_suffixed (Option.some.inj hset)
    exact ⟨w, takes_symbolSet_of_atom hatom⟩

end Reader

namespace Tree

open Reader

/-- A single byte with a meaning of its own is not read as the byte. -/
theorem isMeta_of_parse {n : Nat} (hn : n < 256) (hplain : isPlainByte n = true)
    (h : parse (ByteSet.single n).text = .ok (.symbol (.single n))) :
    isMeta (Char.ofNat n) = false := by
  have hall : ∀ n < 256, isPlainByte n = true → isMeta (Char.ofNat n) = true →
      (parse (ByteSet.single n).text).toOption ≠ some (.symbol (.single n)) := by decide +kernel
  by_contra hmeta
  exact hall n hn hplain (Bool.not_eq_false _ ▸ hmeta) (toOption_eq_some.2 h)

theorem isLegible_of_parse (h : IsCanonical set) (hparse : parse set.text = .ok (.symbol set)) :
    set.IsLegible := by
  obtain ⟨ranges, accept⟩ := set
  obtain rfl : accept = true := h.1
  cases ranges with
  | nil =>
    have hempty : (parse (ByteSet.text ⟨[], true⟩)).toOption = none := by decide +kernel
    rw [hparse] at hempty
    cases hempty
  | cons r rs =>
    have hr := h.head
    simp only [ByteSet.IsLegible]
    split
    · next hsingle =>
      obtain ⟨rfl, hlo⟩ := hsingle
      have hset : (⟨[r], true⟩ : ByteSet) = .single r.lo.toNat := by
        obtain ⟨lo, hi⟩ := r
        obtain rfl : lo = hi := hlo
        simp only [ByteSet.single, Interval.single, Int.toNat_of_nonneg hr.1]
      rw [hset] at hparse
      exact fun hplain => isMeta_of_parse (by omega) hplain hparse
    · next hclass =>
      obtain ⟨t, hread⟩ := run_eq_ok.1 hparse
      obtain ⟨rfl, hexpr⟩ := takes_pattern_iff.1 hread
      rw [ByteSet.text_class hclass] at hexpr
      obtain ⟨u, hset⟩ := takes_symbolSet_of_expr hexpr
      have hcaret := lo_ne_caret h hclass hset
      exact ⟨hcaret, areApart_of_takes h hcaret hset⟩

/-- The text of a set is read back as the set exactly if the set is legible. -/
theorem parse_text_symbol_iff (h : IsCanonical set) :
    parse set.text = .ok (.symbol set) ↔ set.IsLegible := by
  refine ⟨isLegible_of_parse h, fun hlegible => ?_⟩
  have hatom (n : Nat) : Takes (atom (exprUpTo n)) (set.text.toList ++ []) (some (.symbol set)) [] :=
    takes_atom_text h hlegible
  have hitem (n : Nat) : Takes (item (exprUpTo n)) set.text.toList (some (.symbol set)) [] := by
    have hnone : TakesEach (suffix false) [] [] [] := .stop (takes_suffix_none false (by simp))
    rw [← List.append_nil set.text.toList]
    exact (hatom n).bind (takes_many hnone).map
  obtain ⟨c, cs, htext, -⟩ := head_text hlegible h.1
  refine parse_of_branch rfl (takes_branch_item (.next (hitem _) ?_ (.stop (takes_item_none ?_))))
  · rw [htext]
    exact Nat.succ_pos _
  · simp

end Tree

end Munch
