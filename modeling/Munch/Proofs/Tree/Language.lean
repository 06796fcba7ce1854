/-
Languages in a row, one of several languages, and powers: what the languages of trees are made of.
-/
import Munch.Tree.Language

namespace Munch

namespace Language

/-- A string of each language, in a row. -/
def row : List Language → Language
  | [] => fun w => w = []
  | L :: Ls => seq L (row Ls)

/-- A string of one of the languages. -/
def any : List Language → Language
  | [] => fun _ => False
  | L :: Ls => fun w => L w ∨ any Ls w

variable {L M N : Language}

theorem seq_assoc (w : List UInt8) : seq (seq L M) N w ↔ seq L (seq M N) w := by
  constructor
  · rintro ⟨_, v, rfl, ⟨u, u', rfl, hu, hu'⟩, hv⟩
    exact ⟨u, u' ++ v, by simp, hu, u', v, rfl, hu', hv⟩
  · rintro ⟨u, _, rfl, hu, u', v, rfl, hu', hv⟩
    exact ⟨u ++ u', v, by simp, ⟨u, u', rfl, hu, hu'⟩, hv⟩

theorem seq_congr {M' : Language} (h : ∀ w, M w ↔ M' w) (w : List UInt8) :
    seq L M w ↔ seq L M' w := by
  simp only [seq, h]

theorem seq_nil (w : List UInt8) : seq L (fun v => v = []) w ↔ L w := by
  constructor
  · rintro ⟨u, v, rfl, hu, rfl⟩
    simpa using hu
  · intro h
    exact ⟨w, [], by simp, h, rfl⟩

theorem nil_seq (w : List UInt8) : seq (fun v => v = []) L w ↔ L w := by
  constructor
  · rintro ⟨u, v, rfl, rfl, hv⟩
    exact hv
  · exact fun h => ⟨[], w, rfl, rfl, h⟩

theorem row_replicate (n : Nat) : row (List.replicate n L) = power L n := by
  induction n with
  | zero => rfl
  | succ n ih => rw [List.replicate_succ, row, ih, power]

theorem seq_power (m n : Nat) (w : List UInt8) :
    seq (power L m) (power L n) w ↔ power L (m + n) w := by
  induction m generalizing w with
  | zero =>
    rw [Nat.zero_add]
    exact nil_seq w
  | succ m ih =>
    rw [Nat.succ_add]
    exact (seq_assoc w).trans (seq_congr ih w)

/-- So many strings of the language in a row as the test allows. -/
def repeats (L : Language) (count : Nat → Prop) : Language :=
  fun w => ∃ n, count n ∧ power L n w

theorem repeats_congr {P Q : Nat → Prop} (h : ∀ n, P n ↔ Q n) (w : List UInt8) :
    repeats L P w ↔ repeats L Q w := by
  simp only [repeats, h]

theorem power_seq_repeats {Q : Nat → Prop} (n : Nat) (w : List UInt8) :
    seq (power L n) (repeats L Q) w ↔ repeats L (fun k => ∃ m, Q m ∧ k = n + m) w := by
  constructor
  · rintro ⟨u, v, rfl, hu, m, hm, hv⟩
    exact ⟨n + m, ⟨m, hm, rfl⟩, (seq_power n m _).1 ⟨u, v, rfl, hu, hv⟩⟩
  · rintro ⟨_, ⟨m, hm, rfl⟩, hw⟩
    obtain ⟨u, v, rfl, hu, hv⟩ := (seq_power n m w).2 hw
    exact ⟨u, v, rfl, hu, m, hm, hv⟩

theorem power_one (w : List UInt8) : power L 1 w ↔ L w := seq_nil w

end Language

theorem Tree.denotesSeq_eq (ts : List Tree) : DenotesSeq ts = Language.row (ts.map Denotes) := by
  induction ts with
  | nil => rfl
  | cons t ts ih =>
    rw [DenotesSeq, ih]
    rfl

theorem Tree.denotesAny_eq (ts : List Tree) : DenotesAny ts = Language.any (ts.map Denotes) := by
  induction ts with
  | nil => rfl
  | cons t ts ih =>
    rw [DenotesAny, ih]
    rfl

end Munch
