/-
The shape of a tree that was read. Sets are in canonical form, rows and choices have two items at
least and none that they would have taken up, and a row inside of a row is one character in several
bytes (`Tree.IsShaped`). Such trees are well-formed. The canonical form of a set tells which bytes
it holds and nothing else (`ByteSet.WellFormed.accepting_eq_accepting_iff`).
-/
import Munch.Proofs.Interval.Canonical
import Munch.Proofs.Tree.WellFormed
import Munch.Tree.Written

namespace Munch

open Text

/-- The accepting form of a set of bytes is canonical. -/
theorem ByteSet.WellFormed.isCanonical {set : ByteSet} (h : set.WellFormed) :
    Tree.IsCanonical set.accepting := by
  refine ⟨?_, h.accepting, ?_⟩
  · rw [ByteSet.accepting]
    split
    · next haccept => exact haccept
    · rfl
  · rw [ByteSet.accepting]
    split
    · exact Interval.isSpaced_merge _
    · exact (Interval.isSpaced_complement h).1

theorem Tree.IsCanonical.isMerged {set : ByteSet} (h : IsCanonical set) :
    Interval.IsMerged set.ranges :=
  ⟨fun r hr => (h.2.1 r hr).2.1, h.2.2⟩

/-- Sets that hold the same bytes cover the same integers in accepting form. -/
theorem ByteSet.WellFormed.covers_accepting_congr {s t : ByteSet} (hs : s.WellFormed)
    (ht : t.WellFormed) (h : ∀ b : UInt8, s.contains b.toNat = t.contains b.toNat) (n : Int) :
    Interval.covers s.accepting.ranges n = Interval.covers t.accepting.ranges n := by
  by_cases hn : 0 ≤ n ∧ n ≤ 255
  · obtain ⟨k, rfl⟩ := Int.eq_ofNat_of_zero_le hn.1
    have hk : (UInt8.ofNat k).toNat = k := by
      rw [UInt8.toNat_ofNat', Nat.mod_eq_of_lt (by omega)]
    rw [← hk, covers_accepting hs, covers_accepting ht, h]
  · -- only bytes are covered
    have hnone {u : ByteSet} (hu : u.WellFormed) :
        Interval.covers u.accepting.ranges n = false :=
      Bool.eq_false_iff.2 fun hcovers => hn (Interval.within_of_covers hu.accepting hcovers)
    rw [hnone hs, hnone ht]

/-- Two sets have the same accepting form exactly if they hold the same bytes, however each of them
names its members. -/
theorem ByteSet.WellFormed.accepting_eq_accepting_iff {s t : ByteSet} (hs : s.WellFormed)
    (ht : t.WellFormed) :
    s.accepting = t.accepting ↔ ∀ b : UInt8, s.contains b.toNat = t.contains b.toNat := by
  constructor
  · intro h b
    rw [← covers_accepting hs, h, covers_accepting ht]
  · intro h
    have hscanon := hs.isCanonical
    have htcanon := ht.isCanonical
    have hranges : s.accepting.ranges = t.accepting.ranges :=
      hscanon.isMerged.eq_of_covers htcanon.isMerged (hs.covers_accepting_congr ht h)
    exact congrArg₂ ByteSet.mk hranges (hscanon.1.trans htcanon.1.symm)

namespace Tree

variable {t : Tree} {set : ByteSet}

theorem IsCanonical.wellFormed (h : IsCanonical set) : set.WellFormed := h.2.1

/-- The items are the bytes of one character that takes several of them. -/
def SpellsChar (items : List Tree) : Prop :=
  2 ≤ items.length ∧ items.length ≤ 4 ∧ ∃ c : Char, 0x7f < c.toNat ∧
    items = (String.utf8EncodeChar c).map fun b => .symbol (.single b.toNat)

/-- What may stand in a row, or in front of a suffix. -/
structure FitsRow (t : Tree) : Prop where
  not_alt : ∀ items, t ≠ .alt items
  not_epsilon : t ≠ .epsilon
  spells : ∀ items, t = .concat items → SpellsChar items

/-- A tree in the shape that reading gives it. -/
inductive IsShaped : Tree → Prop where
  | epsilon : IsShaped .epsilon
  | symbol {set : ByteSet} : IsCanonical set → IsShaped (.symbol set)
  | concat {items : List Tree} : 2 ≤ items.length → (∀ t ∈ items, IsShaped t) →
    (∀ t ∈ items, t.FitsRow) → IsShaped (.concat items)
  | alt {items : List Tree} : 2 ≤ items.length → items.Nodup → (∀ t ∈ items, IsShaped t) →
    (∀ t ∈ items, ∀ us, t ≠ .alt us) → IsShaped (.alt items)
  | repeated {body : Tree} {min : Int} {max : Option Int} {greedy : Bool} : IsShaped body →
    body.FitsRow → body.isLook = false → AreBounds min max →
    IsShaped (.repeated body min max greedy)
  | group {body : Tree} {capturing : Bool} {name : Option String} : IsShaped body →
    (∀ text ∈ name, capturing = true ∧ isIdentifier text = true) →
    IsShaped (.group body capturing name)
  | look {kind : Look} : IsShaped (.look kind)

theorem IsShaped.wellFormed (h : t.IsShaped) : t.WellFormed := by
  induction h with
  | epsilon => exact .epsilon
  | symbol hset => exact .symbol hset.wellFormed
  | concat hlength _ _ ih => exact .concat (List.ne_nil_of_length_pos (by omega)) ih
  | alt hlength _ _ _ ih => exact .alt (List.ne_nil_of_length_pos (by omega)) ih
  | repeated _ _ _ hbounds ih => exact .repeated ih hbounds.1 fun m hm => (hbounds.2.2 m hm).1
  | group _ _ ih => exact .group ih
  | look => exact .look _

end Tree

end Munch
