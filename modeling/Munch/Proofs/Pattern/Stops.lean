/-
How readers go on and how they stop. A reader goes forwards: what it leaves is an end of what it was
given. And the reason it stops for is a real one (`Stop.Founded`): a numeral that cannot be read
stands in the text, and no reader needs a character where there is none. `Reads x s Q` says this of a
reader on a text, `Forward x` on any text; there is one rule for each way readers are put together.
The readers that are run again and again get on: if they return something, they have consumed
something (`Advances`).
-/
import Mathlib.Data.List.TakeWhile
import Munch.Pattern.Parser
import Munch.Proofs.Ensures

namespace Munch

open Text

variable {s t : List Char} {stop : Stop}

/-- What the reason says of the text is so. -/
def Stop.Founded (s : List Char) : Stop → Prop
  | .fault _ | .lookaround => True
  | .numeral f => ∃ digits, digits ≠ [] ∧ digits <:+: s ∧ (∀ c ∈ digits, isDigit c = true) ∧
    Text.numeral digits = .error f
  | .noCharacter => False

theorem Stop.Founded.mono (h : stop.Founded t) (hts : t <:+ s) : stop.Founded s := by
  cases stop with
  | fault | lookaround => trivial
  | numeral f =>
    obtain ⟨digits, hne, hinfix, hdigits, hf⟩ := h
    exact ⟨digits, hne, hinfix.trans hts.isInfix, hdigits, hf⟩
  | noCharacter => exact h.elim

namespace Reader

variable {α β : Type} {x y : Reader α} {f : α → Reader β} {Q : α → List Char → Prop}
  {R : β → List Char → Prop}

/-- On the text the reader goes forwards, and stops only for a real reason. -/
def Reads (x : Reader α) (s : List Char) (Q : α → List Char → Prop) : Prop :=
  Ensures x s (fun a t => t <:+ s ∧ Q a t) fun stop t => t <:+ s ∧ stop.Founded s

/-- The same on any text. -/
def Forward (x : Reader α) : Prop := ∀ s, Reads x s fun _ _ => True

theorem Reads.bind (hx : Reads x s Q) (hf : ∀ a t, Q a t → Reads (f a) t R) :
    Reads (x >>= f) s R := by
  refine Ensures.bind hx fun a t ht => ?_
  obtain ⟨hts, hQ⟩ := ht
  refine (hf a t hQ).imp (fun b u hu => ⟨hu.1.trans hts, hu.2⟩) fun stop u hu => ?_
  exact ⟨hu.1.trans hts, hu.2.mono hts⟩

theorem Reads.mono {Q' : α → List Char → Prop} (hx : Reads x s Q)
    (hQ : ∀ a t, t <:+ s → Q a t → Q' a t) : Reads x s Q' :=
  Ensures.mono hx fun a t h => ⟨h.1, hQ a t h.1 h.2⟩

theorem Reads.forget (hx : Reads x s Q) : Reads x s fun _ _ => True :=
  hx.mono fun _ _ _ _ => trivial

theorem reads_pure {a : α} (h : Q a s) : Reads (pure a) s Q := ensures_pure ⟨List.suffix_refl s, h⟩

theorem reads_throw (h : stop.Founded s) : Reads (throw stop) s Q :=
  ensures_throw ⟨List.suffix_refl s, h⟩

theorem reads_fail (fault : Fault) : Reads (fail fault) s Q := reads_throw trivial

theorem reads_get_bind {g : List Char → Reader β} (h : Reads (g s) s R) : Reads (get >>= g) s R := h

theorem reads_set_bind {g : PUnit → Reader β} (hts : t <:+ s) (h : Reads (g ⟨⟩) t R) :
    Reads (set t >>= g) s R :=
  Reads.bind (Q := fun _ u => u = t) (ensures_set ⟨hts, rfl⟩) fun _ _ hu => hu ▸ h

namespace Forward

theorem pure (a : α) : Forward (pure a) := fun _ => reads_pure trivial

theorem fail (fault : Fault) : Forward (fail fault : Reader α) := fun _ => reads_fail fault

theorem bind (hx : Forward x) (hf : ∀ a, Forward (f a)) : Forward (x >>= f) :=
  fun s => (hx s).bind fun a t _ => hf a t

theorem test {b : Reader Bool} (hb : Forward b) (hx : Forward x) (hy : Forward y) :
    Forward (b >>= fun b => if b = true then x else y) := by
  refine hb.bind fun b => ?_
  split
  · exact hx
  · exact hy

end Forward

/-- When the reader returns, it has consumed something. -/
def Consumes (x : Reader α) : Prop := ∀ s, Reads x s fun _ t => t.length < s.length

/-- When the reader returns something, it has consumed something. -/
def Advances (x : Reader (Option α)) : Prop :=
  ∀ s, Reads x s fun o t => o ≠ none → t.length < s.length

/-- What has been consumed stays consumed. -/
theorem Forward.reads_lt (hx : Forward x) (h : t.length < s.length) :
    Reads x t fun _ u => u.length < s.length :=
  (hx t).mono fun _ _ hu _ => Nat.lt_of_le_of_lt hu.length_le h

namespace Consumes

theorem forward (h : Consumes x) : Forward x := fun s => (h s).forget

theorem bind (hx : Consumes x) (hf : ∀ a, Forward (f a)) : Consumes (x >>= f) :=
  fun s => (hx s).bind fun a _ ht => (hf a).reads_lt ht

/-- Whatever is read first, something is consumed after it. -/
theorem after (hx : Forward x) (hf : ∀ a, Consumes (f a)) : Consumes (x >>= f) :=
  fun s => ((hx s).mono fun _ _ ht _ => ht.length_le).bind fun a t ht =>
    (hf a t).mono fun _ _ _ hu => Nat.lt_of_lt_of_le hu ht

theorem advances {x : Reader (Option α)} (h : Consumes x) : Advances x :=
  fun s => (h s).mono fun _ _ _ ht _ => ht

end Consumes

theorem advances_none : Advances (pure none : Reader (Option α)) :=
  fun _ => reads_pure fun h => absurd rfl h

namespace Advances

theorem forward {x : Reader (Option α)} (h : Advances x) : Forward x := fun s => (h s).forget

theorem after {f : α → Reader (Option β)} (hx : Forward x) (hf : ∀ a, Advances (f a)) :
    Advances (x >>= f) :=
  fun s => ((hx s).mono fun _ _ ht _ => ht.length_le).bind fun a t ht =>
    (hf a t).mono fun _ _ _ hu ho => Nat.lt_of_lt_of_le (hu ho) ht

/-- What has been returned was consumed, and is gone on with in any way. -/
theorem bind {x : Reader (Option α)} {f : Option α → Reader (Option β)} (hx : Advances x)
    (hnone : Advances (f none)) (hsome : ∀ a, Forward (f (some a))) : Advances (x >>= f) := by
  intro s
  have hread : Reads x s fun o t => t.length ≤ s.length ∧ (o ≠ none → t.length < s.length) :=
    (hx s).mono fun _ _ ht ho => ⟨ht.length_le, ho⟩
  refine hread.bind fun o t ht => ?_
  cases o with
  | none => exact (hnone t).mono fun _ _ _ hu ho => Nat.lt_of_lt_of_le (hu ho) ht.1
  | some a => exact ((hsome a).reads_lt (ht.2 (by simp))).mono fun _ _ _ hu _ => hu

end Advances

/-! ## Single steps -/

theorem reads_peek (s : List Char) : Reads peek s fun o t => o = s.head? ∧ t = s :=
  reads_get_bind (reads_pure ⟨rfl, rfl⟩)

theorem reads_next (s : List Char) : Reads next s fun o t => o = s.head? ∧ t = s.tail :=
  reads_get_bind (reads_set_bind (List.tail_suffix s) (reads_pure ⟨rfl, rfl⟩))

theorem reads_advance (s : List Char) (count : Nat) :
    Reads (advance count) s fun _ t => t = s.drop count :=
  ensures_modify ⟨List.drop_suffix count s, rfl⟩

theorem reads_sees (s text : List Char) : Reads (sees text) s fun _ t => t = s :=
  reads_get_bind (reads_pure rfl)

/-- Nothing is consumed but the text. -/
theorem reads_accepts (s text : List Char) :
    Reads (accepts text) s fun b t => b = false → t = s := by
  refine (reads_sees s text).bind fun b t ht => ?_
  split
  · exact (reads_advance t _).bind fun _ _ _ => reads_pure (by simp)
  · exact reads_pure fun _ => ht

/-- Either the text was consumed or nothing was. -/
theorem reads_accepts_lt {text : List Char} (htext : text ≠ []) (s : List Char) :
    Reads (accepts text) s fun b t => if b = true then t.length < s.length else t = s := by
  refine reads_get_bind ?_
  split
  · next hprefix =>
    refine (reads_advance s text.length).bind fun _ t ht => reads_pure ?_
    have hlength := (List.isPrefixOf_iff_prefix.1 hprefix).length_le
    have hpos := List.length_pos_iff.2 htext
    simp only [ht, List.length_drop, if_true]
    omega
  · exact reads_pure rfl

/-- Either the text was consumed, or another reader starts where this one did. -/
theorem reads_test {text : List Char} (htext : text ≠ []) (hx : Forward x)
    (hy : Reads y s Q) (hQ : ∀ a t, t.length < s.length → Q a t) :
    Reads (accepts text >>= fun b => if b = true then x else y) s Q := by
  refine (reads_accepts_lt htext s).bind fun b t ht => ?_
  cases b with
  | true => exact (hx.reads_lt ht).mono fun a u _ hu => hQ a u hu
  | false => exact (show t = s from ht) ▸ hy

theorem Consumes.test {text : List Char} (htext : text ≠ []) (hx : Forward x) (hy : Consumes y) :
    Consumes (accepts text >>= fun b => if b = true then x else y) :=
  fun s => reads_test htext hx (hy s) fun _ _ ht => ht

theorem Advances.test {x y : Reader (Option α)} {text : List Char} (htext : text ≠ [])
    (hx : Forward x) (hy : Advances y) :
    Advances (accepts text >>= fun b => if b = true then x else y) :=
  fun s => reads_test htext hx (hy s) fun _ _ ht _ => ht

theorem reads_takeWhile (s : List Char) (test : Char → Bool) :
    Reads (takeWhile test) s fun cs _ => cs = s.takeWhile test :=
  reads_get_bind (reads_set_bind (List.dropWhile_suffix test) (reads_pure rfl))

theorem forward_peek : Forward peek := fun s => (reads_peek s).forget

theorem forward_next : Forward next := fun s => (reads_next s).forget

theorem forward_advance (count : Nat) : Forward (advance count) :=
  fun s => (reads_advance s count).forget

theorem forward_sees (text : List Char) : Forward (sees text) := fun s => (reads_sees s text).forget

theorem forward_accepts (text : List Char) : Forward (accepts text) :=
  fun s => (reads_accepts s text).forget

theorem forward_takeWhile (test : Char → Bool) : Forward (takeWhile test) :=
  fun s => (reads_takeWhile s test).forget

theorem forward_upTo {read : Reader (Option α)} (h : Forward read) (fuel : Nat) :
    Forward (upTo read fuel) := by
  induction fuel with
  | zero => exact .pure _
  | succ fuel ih =>
    refine h.bind fun o => ?_
    cases o with
    | none => exact .pure _
    | some a => exact ih.bind fun _ => .pure _

theorem forward_many {read : Reader (Option α)} (h : Forward read) : Forward (many read) :=
  fun s => reads_get_bind (forward_upTo h _ s)

/-! ## Symbol sets -/

theorem forward_hexByte : Forward hexByte := by
  intro s
  refine reads_get_bind ?_
  split
  · next c d rest =>
    split
    · exact reads_set_bind ((List.suffix_cons d rest).trans (List.suffix_cons c _))
        (reads_pure trivial)
    · exact reads_fail _
  · exact reads_fail _

theorem forward_memberOf (c : Char) : Forward (memberOf c) := by
  unfold memberOf
  split
  · exact .fail _
  · exact .pure _

theorem forward_escapedMember : Forward escapedMember := by
  refine forward_next.bind fun o => ?_
  split
  · exact .fail _
  · split
    · exact .pure _
    · exact .pure _
    · split
      · exact forward_hexByte.bind fun _ => .pure _
      split
      · exact .pure _
      split
      · exact .fail _
      · exact forward_memberOf _

/-- A member is read where there is a character. -/
theorem reads_member (hs : s ≠ []) : Reads member s fun _ t => t.length < s.length := by
  obtain ⟨c, rest, rfl⟩ := List.exists_cons_of_ne_nil hs
  refine (reads_next _).bind fun o t ht => ?_
  obtain ⟨rfl, rfl⟩ := ht
  have hlt : t.length < (c :: t).length := Nat.lt_succ_self _
  simp only [List.head?_cons]
  split
  · exact forward_escapedMember.reads_lt hlt
  · exact (forward_memberOf c).reads_lt hlt

theorem reads_namedClass (hs : s ≠ []) : Reads namedClass s fun _ t => t.length < s.length := by
  refine (reads_advance s 2).bind fun _ t ht => ?_
  have hlt : t.length < s.length := by
    have hpos := List.length_pos_iff.2 hs
    rw [ht, List.length_drop]
    omega
  refine ((forward_accepts _).reads_lt hlt).bind fun _ u hu => ?_
  refine ((forward_takeWhile _).reads_lt hu).bind fun name v hv => ?_
  refine ((forward_accepts _).reads_lt hv).bind fun b w hw => ?_
  split
  · split
    · exact reads_pure hw
    · exact reads_fail _
  · exact reads_fail _

theorem reads_rangeFollows (s : List Char) :
    Reads rangeFollows s fun b t => t = s ∧ (b = true → 2 ≤ s.length) := by
  refine reads_get_bind ?_
  split
  · exact reads_pure ⟨rfl, fun _ => by simp⟩
  · exact reads_pure ⟨rfl, by simp⟩

theorem reads_memberRanges (hs : s ≠ []) :
    Reads memberRanges s fun _ t => t.length < s.length := by
  refine (reads_sees s _).bind fun b t ht => ?_
  subst ht
  split
  · exact reads_namedClass hs
  · refine (reads_member hs).bind fun m u hu => ?_
    cases m with
    | set => exact reads_pure hu
    | byte lo =>
      refine (reads_rangeFollows u).bind fun b v hv => ?_
      obtain ⟨rfl, hlength⟩ := hv
      split
      · next hb =>
        have hlength := hlength hb
        refine (reads_advance v 1).bind fun _ w hw => ?_
        have hne : w ≠ [] := by
          rintro rfl
          have := congrArg List.length hw
          rw [List.length_drop, List.length_nil] at this
          omega
        have hle : w.length ≤ v.length := by rw [hw, List.length_drop]; omega
        refine (reads_member hne).bind fun m' z hz => ?_
        cases m' with
        | set => exact reads_fail _
        | byte hi =>
          simp only
          split
          · exact reads_fail _
          · exact reads_pure (Nat.lt_of_lt_of_le hz (Nat.le_trans hle hu.le))
      · exact reads_pure hu

/-- Behind the test there is a character. -/
theorem reads_needsBracket (s : List Char) : Reads needsBracket s fun _ t => t = s ∧ s ≠ [] := by
  refine (reads_peek s).bind fun o t ht => ?_
  obtain ⟨rfl, rfl⟩ := ht
  cases t with
  | nil => exact reads_fail _
  | cons c rest => exact reads_pure ⟨rfl, by simp⟩

theorem consumes_memberRanges? : Consumes memberRanges? := by
  intro s
  refine (reads_needsBracket s).bind fun _ t ht => ?_
  obtain ⟨rfl, hne⟩ := ht
  refine reads_test (by simp) (.pure _) ?_ fun _ _ hu => hu
  exact (reads_memberRanges hne).bind fun _ _ hu => reads_pure hu

theorem advances_symbolSet : Advances symbolSet := by
  refine .test (by simp) ((forward_accepts _).bind fun negated s => ?_) advances_none
  refine (reads_needsBracket s).bind fun _ t ht => ?_
  obtain ⟨rfl, hne⟩ := ht
  refine (reads_memberRanges hne).bind fun first u _ => ?_
  exact ((forward_many consumes_memberRanges?.forward).bind fun others => .pure _) u

/-! ## Repetitions -/

/-- Digits that are no numeral stand where the count was looked for. -/
theorem founded_numeral {cs : List Char} {f : NumeralFault} (hcs : cs = s.takeWhile isDigit)
    (hne : cs ≠ []) (h : numeral cs = .error f) : (Stop.numeral f).Founded s := by
  refine ⟨cs, hne, ?_, fun c hc => ?_, h⟩
  · exact hcs ▸ (List.takeWhile_prefix isDigit).isInfix
  · exact List.mem_takeWhile_imp (hcs ▸ hc)

theorem forward_number : Forward number := by
  -- Digits that turn out to be no numeral are consumed already, so it is of the text in front of them
  -- that the reader has to tell where it found them.
  intro s
  refine Ensures.bind (reads_takeWhile s isDigit) fun cs t ht => ?_
  obtain ⟨hts, hcs⟩ := ht
  split
  · exact ensures_pure ⟨hts, trivial⟩
  · next hne =>
    cases hn : numeral cs with
    | error f =>
      simp only
      exact ensures_throw ⟨hts, founded_numeral hcs (by simpa using hne) hn⟩
    | ok n =>
      simp only
      split
      · exact ensures_throw ⟨hts, trivial⟩
      · exact ensures_pure ⟨hts, trivial⟩

theorem forward_counts : Forward counts := by
  refine (forward_accepts _).test (forward_number.bind fun max => ?_)
    (forward_number.bind fun min => ?_)
  · cases max with
    | none => exact .fail _
    | some max => exact .pure _
  · cases min with
    | none => exact .fail _
    | some min =>
      refine (forward_accepts _).test (forward_number.bind fun max => ?_) (.pure _)
      cases max with
      | none => exact .pure _
      | some max =>
        simp only
        split
        · exact .fail _
        · exact .pure _

theorem advances_bounds : Advances bounds := by
  refine .test (by simp) (.pure _) (.test (by simp) (.pure _) (.test (by simp) (.pure _) ?_))
  refine .test (by simp) (forward_counts.bind fun b => ?_) advances_none
  exact (forward_accepts _).test (.pure _) (.fail _)

theorem advances_suffix (onLook : Bool) : Advances (suffix onLook) := by
  refine advances_bounds.bind advances_none fun b => ?_
  obtain ⟨min, max⟩ := b
  simp only
  split
  · exact .fail _
  · exact (forward_accepts _).bind fun _ => .pure _

/-! ## Atoms -/

variable {expr : Reader Tree}

theorem consumes_escape : Consumes escape := by
  refine .after (forward_advance 1) fun _ s => (reads_next s).bind fun o t ht => ?_
  obtain ⟨rfl, rfl⟩ := ht
  cases s with
  | nil => exact reads_fail _
  | cons c rest =>
    have hlt : rest.length < (c :: rest).length := Nat.lt_succ_self _
    simp only [List.head?_cons]
    split
    · exact reads_pure hlt
    · exact reads_pure hlt
    · split
      · exact (forward_hexByte.reads_lt hlt).bind fun _ _ hu => reads_pure hu
      split
      · exact reads_fail _
      · exact reads_pure hlt

theorem consumes_symbol : Consumes symbol := by
  refine .test (by simp) (.pure _) fun s => (reads_peek s).bind fun o t ht => ?_
  obtain ⟨rfl, rfl⟩ := ht
  cases t with
  | nil => exact reads_fail _
  | cons c rest =>
    simp only [List.head?_cons]
    split
    · exact consumes_escape _
    split
    · exact reads_fail _
    · exact (reads_advance _ 1).bind fun _ u hu => reads_pure (hu ▸ Nat.lt_succ_self _)

theorem advances_look : Advances look := by
  refine .test (by simp) (.pure _) (.test (by simp) (.pure _) fun s => reads_get_bind ?_)
  split
  · next c d rest =>
    split
    · split
      · refine reads_set_bind ((List.suffix_cons d rest).trans (List.suffix_cons c _))
          (reads_pure fun _ => ?_)
        simp only [List.length_cons]
        omega
      · exact advances_none _
    · exact advances_none _
  · exact advances_none _

theorem forward_groupName : Forward groupName := by
  refine (forward_takeWhile _).bind fun name => ?_
  simp only
  split
  · exact (forward_accepts _).test (.pure _) (.fail _)
  · exact .fail _

theorem forward_groupKind : Forward groupKind := by
  have hnamed : Forward (groupName >>= fun name => pure (true, some name)) :=
    forward_groupName.bind fun _ => .pure _
  refine (forward_accepts _).test ((forward_accepts _).test (.pure _) ?_) (.pure _)
  refine (forward_sees _).bind fun ahead => (forward_sees _).bind fun notAhead =>
    (forward_sees _).bind fun behind => (forward_sees _).bind fun notBehind => ?_
  split
  · exact fun s => reads_throw trivial
  · exact (forward_accepts _).test hnamed ((forward_accepts _).test hnamed (.fail _))

theorem advances_group (h : Forward expr) : Advances (group expr) := by
  refine .test (by simp) (forward_groupKind.bind fun kind => h.bind fun body => ?_) advances_none
  exact (forward_accepts _).test (.pure _) (.fail _)

theorem advances_atom (h : Forward expr) : Advances (atom expr) := by
  refine .after forward_peek fun o => ?_
  split
  · exact advances_none
  split
  · exact advances_none
  split
  · exact fun _ => reads_fail _
  refine (advances_group h).bind ?_ fun _ => .pure _
  refine advances_symbolSet.bind ?_ fun _ => .pure _
  refine advances_look.bind ?_ fun _ => .pure _
  exact (consumes_symbol.bind fun _ => .pure _).advances

/-! ## Expressions -/

theorem advances_item (h : Forward expr) : Advances (item expr) :=
  (advances_atom h).bind advances_none fun _ =>
    (forward_many (advances_suffix _).forward).bind fun _ => .pure _

theorem forward_concat (h : Forward expr) : Forward (concat expr) := by
  refine (forward_many (advances_item h).forward).bind fun ts => ?_
  split
  · exact .pure _
  · exact .pure _
  · exact .pure _

theorem forward_branch (h : Forward expr) : Forward (branch expr) :=
  (forward_concat h).bind fun _ => .pure _

theorem advances_nextBranch (h : Forward expr) : Advances (nextBranch expr) :=
  .test (by simp) ((forward_branch h).bind fun _ => .pure _) advances_none

theorem forward_alternatives (h : Forward expr) : Forward (alternatives expr) := by
  refine (forward_branch h).bind fun first => (forward_many (advances_nextBranch h).forward).bind
    fun others => ?_
  split
  · exact .pure _
  · exact .pure _

theorem forward_exprUpTo (depth : Nat) : Forward (exprUpTo depth) := by
  induction depth with
  | zero => exact .fail _
  | succ depth ih => exact forward_alternatives ih

theorem forward_pattern : Forward pattern := by
  have hexpr : Forward Reader.expr := fun s => reads_get_bind (forward_exprUpTo _ s)
  refine hexpr.bind fun t => forward_peek.bind fun o => ?_
  split
  · exact .pure _
  split
  · exact .fail _
  · exact .fail _

end Reader

/-- A pattern that does not parse stops its reader somewhere for a real reason. -/
theorem Tree.exists_stop_of_parse {q : String} {e : Error} (h : Tree.parse q = .error e) :
    ∃ stop position, position ≤ q.length ∧ stop.Founded q.toList ∧ e = Stop.error position stop := by
  unfold Tree.parse Reader.run at h
  split at h
  · cases h
  · next stop rest heq =>
    have hstop := (Reader.forward_pattern q.toList).of_error heq
    refine ⟨stop, _, ?_, hstop.2, (Except.error.inj h).symm⟩
    rw [String.length_toList]
    exact Nat.sub_le _ _

end Munch
