/-
Symbol sets name bytes. Members are bytes, ranges are in order, classes are made of bytes, and the
complement is taken among the bytes. What is returned is in canonical form (`returns_symbolSet`).
-/
import Munch.Proofs.Pattern.Reader
import Munch.Proofs.Tree.Shaped

namespace Munch

open Text

/-- The integer is a byte. -/
def IsByte (b : Int) : Prop := Interval.minByte ≤ b ∧ b ≤ Interval.maxByte

instance (b : Int) : Decidable (IsByte b) := inferInstanceAs (Decidable (_ ∧ _))

theorem ByteSet.wellFormed_single {b : Int} (h : IsByte b) : (single b).WellFormed := by
  intro r hr
  obtain rfl := List.mem_singleton.1 hr
  exact ⟨h.1, Int.le_refl b, h.2⟩

theorem toNat_le_of_le {c d : Char} (h : c ≤ d) : c.toNat ≤ d.toNat := by
  rw [Char.le_def, UInt32.le_iff_toNat_le] at h
  exact h

theorem lt_of_hexValue? {c : Char} {n : Nat} (h : hexValue? c = some n) : n < 16 := by
  unfold hexValue? at h
  split at h
  · next hc =>
    obtain rfl := Option.some.inj h
    have hle : c.toNat ≤ 57 := toNat_le_of_le hc.2
    have hzero : '0'.toNat = 48 := rfl
    omega
  split at h
  · next hc =>
    obtain rfl := Option.some.inj h
    have hle : c.toNat ≤ 102 := toNat_le_of_le hc.2
    have ha : 'a'.toNat = 97 := rfl
    omega
  split at h
  · next hc =>
    obtain rfl := Option.some.inj h
    have hle : c.toNat ≤ 70 := toNat_le_of_le hc.2
    have ha : 'A'.toNat = 65 := rfl
    omega
  · cases h

namespace Escape

theorem wellFormed_classOf? {c : Char} {s : ByteSet} (h : classOf? c = some s) :
    s.WellFormed := by
  unfold classOf? at h
  split at h
  all_goals cases h
  all_goals decide

theorem isByte_byteOf? {c : Char} {b : Int} (h : byteOf? c = some b) : IsByte b := by
  unfold byteOf? at h
  split at h
  all_goals cases h
  all_goals decide

theorem wellFormed_namedClass? {name : String} {rs : List Interval} (accept : Bool)
    (h : namedClass? name = some rs) : (⟨rs, accept⟩ : ByteSet).WellFormed := by
  show (⟨rs, true⟩ : ByteSet).WellFormed
  unfold namedClass? at h
  split at h
  all_goals cases h
  all_goals decide

end Escape

namespace Reader

/-- A byte, or a set of bytes. -/
def Member.WellFormed : Member → Prop
  | .byte b => IsByte b
  | .set s => s.WellFormed

theorem returns_hexByte : Returns hexByte IsByte := by
  refine .bind_any fun s => ?_
  split
  · next c d rest =>
    split
    · next high low hhigh hlow =>
      have hh := lt_of_hexValue? hhigh
      have hl := lt_of_hexValue? hlow
      refine .bind_any fun _ => returns_pure ⟨Int.natCast_nonneg _, ?_⟩
      simp only [Interval.maxByte]
      omega
    · exact returns_fail _
  · exact returns_fail _

theorem returns_memberOf (c : Char) : Returns (memberOf c) Member.WellFormed := by
  unfold memberOf
  split
  · exact returns_fail _
  · refine returns_pure ⟨Int.natCast_nonneg _, ?_⟩
    simp only [Interval.maxByte]
    omega

theorem returns_escapedMember : Returns escapedMember Member.WellFormed := by
  refine .bind_any fun o => ?_
  split
  · exact returns_fail _
  · split
    · next hs => exact returns_pure (Escape.wellFormed_classOf? hs)
    · next hb => exact returns_pure (Escape.isByte_byteOf? hb)
    · split
      · exact returns_hexByte.bind fun b hb => returns_pure hb
      split
      · exact returns_pure (by decide : IsByte 0x08)
      split
      · exact returns_fail _
      · exact returns_memberOf _

theorem returns_member : Returns member Member.WellFormed := by
  refine .bind_any fun o => ?_
  split
  · exact returns_throw _
  · split
    · exact returns_escapedMember
    · exact returns_memberOf _

theorem returns_namedClass : Returns namedClass fun rs => (⟨rs, true⟩ : ByteSet).WellFormed := by
  refine .bind_any fun _ => .bind_any fun negated => .bind_any fun name => .test ?_ (returns_fail _)
  split
  · next rs hrs => exact returns_pure (Escape.wellFormed_namedClass? (!negated) hrs).accepting
  · exact returns_fail _

theorem returns_memberRanges :
    Returns memberRanges fun rs => (⟨rs, true⟩ : ByteSet).WellFormed := by
  refine .test returns_namedClass (returns_member.bind fun m hm => ?_)
  cases m with
  | set s => exact returns_pure hm.accepting
  | byte lo =>
    refine .test ?_ (returns_pure (ByteSet.wellFormed_single hm))
    refine .bind_any fun _ => returns_member.bind fun m' hm' => ?_
    cases m' with
    | set => exact returns_fail _
    | byte hi =>
      simp only
      split
      · exact returns_fail _
      · next hle =>
        refine returns_pure fun r hr => ?_
        obtain rfl := List.mem_singleton.1 hr
        exact ⟨hm.1, Int.not_lt.1 hle, hm'.2⟩

theorem returns_memberRanges? :
    Returns memberRanges? fun o => ∀ rs ∈ o, (⟨rs, true⟩ : ByteSet).WellFormed := by
  refine .bind_any fun _ => .test (returns_pure (by simp)) ?_
  refine returns_memberRanges.bind fun rs hrs => returns_pure fun rs' h => ?_
  exact Option.some.inj h ▸ hrs

/-- What stands between the brackets of a symbol set. -/
def members : Reader (List Interval) := do
  needsBracket
  let first ← memberRanges
  let others ← many memberRanges?
  return first ++ others.flatten

theorem returns_members : Returns members fun rs => (⟨rs, true⟩ : ByteSet).WellFormed := by
  refine .bind_any fun _ => returns_memberRanges.bind fun first hfirst => ?_
  refine (returns_many returns_memberRanges?).bind fun others hothers => returns_pure fun r hr => ?_
  rcases List.mem_append.1 hr with hr | hr
  · exact hfirst r hr
  · obtain ⟨rs, hrs, hr⟩ := List.mem_flatten.1 hr
    exact hothers rs hrs r hr

/-- The caret only decides what becomes of the members. -/
theorem symbolSet_eq : symbolSet = do
    if ← accepts ['['] then
      let negated ← accepts ['^']
      let rs ← members
      return some (.accepting ⟨rs, !negated⟩)
    else return none := by
  simp only [symbolSet, members, bind_assoc, pure_bind]

theorem returns_symbolSet : Returns symbolSet fun o => ∀ s ∈ o, Tree.IsCanonical s := by
  rw [symbolSet_eq]
  refine .test (.bind_any fun negated => ?_) (returns_pure (by simp))
  refine returns_members.bind fun rs hrs => returns_pure fun s hs => ?_
  have hall : (⟨rs, !negated⟩ : ByteSet).WellFormed := hrs
  exact Option.some.inj hs ▸ hall.isCanonical

end Reader

end Munch
