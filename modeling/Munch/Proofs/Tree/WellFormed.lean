/-
Trees that a program can be made of: rows and choices have something in them and counts are in order
(`Compilable`); if also all sets name bytes, they are well-formed. A set that names bytes keeps its
members in the accepting form.
-/
import Munch.Proofs.Interval.Merge
import Munch.Tree.Basic

namespace Munch

namespace ByteSet

/-- The intervals are made of bytes, and none is empty. -/
def WellFormed (s : ByteSet) : Prop :=
  ∀ r ∈ s.ranges, r.Within Interval.minByte Interval.maxByte

instance (s : ByteSet) : Decidable s.WellFormed :=
  inferInstanceAs (Decidable (∀ r ∈ s.ranges, _))

variable {s : ByteSet}

theorem WellFormed.accepting (h : s.WellFormed) : s.accepting.WellFormed := by
  rw [ByteSet.accepting]
  split
  · exact Interval.within_merge h
  · exact (Interval.isSpaced_complement h).2

/-- The accepting form covers the members. -/
theorem covers_accepting (h : s.WellFormed) (b : UInt8) :
    Interval.covers s.accepting.ranges b.toNat = s.contains b.toNat := by
  have hb := b.toNat_lt
  rw [ByteSet.accepting, contains]
  split
  · next ha => rw [merged, Interval.covers_merge, ha, beq_true]
  · next ha =>
    rw [Bool.not_eq_true] at ha
    rw [ha, beq_false, Bool.eq_iff_iff, Interval.covers_complement h, Bool.not_eq_true',
      Bool.not_eq_true]
    simp only [Interval.minByte, Interval.maxByte]
    exact ⟨fun hc => hc.2.2, fun hc => ⟨by omega, by omega, hc⟩⟩

end ByteSet

namespace Tree

/-- A tree that can be made a program of, with sets of bytes in it. -/
inductive WellFormed : Tree → Prop where
  | epsilon : WellFormed .epsilon
  | symbol {s : ByteSet} : s.WellFormed → WellFormed (.symbol s)
  | concat {items : List Tree} : items ≠ [] → (∀ t ∈ items, WellFormed t) →
    WellFormed (.concat items)
  | alt {items : List Tree} : items ≠ [] → (∀ t ∈ items, WellFormed t) → WellFormed (.alt items)
  | repeated {body : Tree} {min : Int} {max : Option Int} {greedy : Bool} : WellFormed body →
    0 ≤ min → (∀ m ∈ max, min ≤ m) → WellFormed (.repeated body min max greedy)
  | group {body : Tree} {capturing : Bool} {name : Option String} : WellFormed body →
    WellFormed (.group body capturing name)
  | look (kind : Look) : WellFormed (.look kind)

/-- A tree that a program can be made of, whatever its sets hold. Of a body that is never entered
nothing is asked. -/
inductive Compilable : Tree → Prop where
  | epsilon : Compilable .epsilon
  | symbol (s : ByteSet) : Compilable (.symbol s)
  | concat {items : List Tree} : items ≠ [] → (∀ t ∈ items, Compilable t) →
    Compilable (.concat items)
  | alt {items : List Tree} : items ≠ [] → (∀ t ∈ items, Compilable t) → Compilable (.alt items)
  | repeated {body : Tree} {min : Int} {max : Option Int} {greedy : Bool} : Compilable body →
    0 ≤ min → (∀ m ∈ max, min ≤ m) → Compilable (.repeated body min max greedy)
  | never {body : Tree} {greedy : Bool} : Compilable (.repeated body 0 (some 0) greedy)
  | group {body : Tree} {capturing : Bool} {name : Option String} : Compilable body →
    Compilable (.group body capturing name)
  | look (kind : Look) : Compilable (.look kind)

theorem WellFormed.compilable {t : Tree} (h : t.WellFormed) : t.Compilable := by
  induction h with
  | epsilon => exact .epsilon
  | symbol _ => exact .symbol _
  | concat hne _ ih => exact .concat hne ih
  | alt hne _ ih => exact .alt hne ih
  | repeated _ hmin hmax ih => exact .repeated ih hmin hmax
  | group _ ih => exact .group ih
  | look kind => exact .look kind

end Tree

end Munch
