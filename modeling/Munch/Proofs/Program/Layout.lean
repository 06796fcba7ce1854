/-
How the code of a tree lies in a program. A layout says of instructions that code of some kind takes
the positions from `i` up to `j` and is left for the goto `x`; there is one for each way of putting
code together, and `Tree.layout` follows the tree. `layout_means` is what layouts are for: code that
is laid out for a tree reads exactly what the tree denotes.
-/
import Mathlib.Data.List.Forall2
import Munch.Program.Fragment
import Munch.Proofs.Program.Passage
import Munch.Proofs.Tree.Language
import Munch.Proofs.Tree.WellFormed

namespace Munch

/-- The instructions hold code from a position up to another, which is left for a goto. -/
abbrev Layout := Array Inst → Nat → Nat → Goto → Prop

/-- The split of a repetition, which a greedy one enters first and a lazy one passes by first. -/
def Inst.fork (greedy : Bool) (body past : Goto) : Inst :=
  if greedy then .split body past else .split past body

namespace Layout

def leaf (inst : Goto → Inst) : Layout :=
  fun insts i j x => insts[i]? = some (inst x) ∧ j = i + 1

/-- A byte of one of the intervals. -/
def symbol : List Interval → Layout
  | [r] => if r.lo = r.hi then leaf (.char r.lo) else leaf (.span r)
  | ranges => leaf (.oneOf ranges)

/-- The parts in a row, each left for the next one. -/
def row : List Layout → Layout
  | [] => fun _ i j _ => i = j
  | [P] => P
  | P :: Q :: Ps => fun insts i j x => ∃ k : Nat, P insts i k k ∧ row (Q :: Ps) insts k j x

/-- Any of the parts, all but the last behind a split that leads past it. -/
def choice : List Layout → Layout
  | [] => fun _ _ _ _ => False
  | [P] => P
  | P :: Q :: Ps => fun insts i j x =>
    ∃ k : Nat, insts[i]? = some (.split ↑(i + 1) k) ∧ P insts (i + 1) k x ∧
      choice (Q :: Ps) insts k j x

/-- The body at most once. -/
def optional (P : Layout) (greedy : Bool) : Layout :=
  fun insts i j x => insts[i]? = some (.fork greedy ↑(i + 1) x) ∧ P insts (i + 1) j x

/-- The body any number of times. -/
def star (P : Layout) (greedy : Bool) : Layout :=
  fun insts i j x => insts[i]? = some (.fork greedy ↑(i + 1) x) ∧ P insts (i + 1) j i

/-- The body at least once. -/
def plus (P : Layout) (greedy : Bool) : Layout :=
  fun insts i j x => ∃ k : Nat, P insts i k k ∧ insts[k]? = some (.fork greedy i x) ∧ j = k + 1

/-- So many bodies, each of which may be passed by together with those behind it. -/
def optionals (P : Layout) (greedy : Bool) : Nat → Layout
  | 0 => fun _ i j _ => i = j
  | 1 => optional P greedy
  | n + 2 => fun insts i j x =>
    ∃ k : Nat, insts[i]? = some (.fork greedy ↑(i + 1) x) ∧ P insts (i + 1) k k ∧
      optionals P greedy (n + 1) insts k j x

/-- The first part, left for the second. -/
def andThen (P Q : Layout) : Layout :=
  fun insts i j x => ∃ k : Nat, P insts i k k ∧ Q insts k j x

/-- The body `min` to `max` times. -/
def repeated (P : Layout) (min : Int) (max : Option Int) (greedy : Bool) : Layout :=
  match max with
  | none =>
    if min = 0 then star P greedy
    else if min = 1 then plus P greedy
    else andThen (row (List.replicate (min - 1).toNat P)) (plus P greedy)
  | some max =>
    if max = 0 then leaf .nop
    else if min = 0 ∧ max = 1 then optional P greedy
    else if min = max then row (List.replicate min.toNat P)
    else andThen (row (List.replicate min.toNat P)) (optionals P greedy (max - min).toNat)

/-- The body between two instructions that note where it starts and ends. -/
def capture (P : Layout) : Layout := fun insts i j x =>
  ∃ (slot : Int) (k : Nat), insts[i]? = some (.save slot ↑(i + 1)) ∧ P insts (i + 1) k k ∧
    insts[k]? = some (.save (slot + 1) x) ∧ j = k + 1

end Layout

namespace Tree

mutual

/-- The layout of the code for a tree. -/
def layout : Tree → Layout
  | .epsilon => .leaf .nop
  | .symbol set => .symbol set.accepting.ranges
  | .concat items => .row (layouts items)
  | .alt items => .choice (layouts items)
  | .repeated body min max greedy => .repeated (layout body) min max greedy
  | .group body true _ => .capture (layout body)
  | .group body false _ => layout body
  | .look kind => .leaf (.look kind)
  | .bare => fun _ _ _ _ => False

def layouts : List Tree → List Layout
  | [] => []
  | t :: ts => layout t :: layouts ts

end

end Tree

/-! ## What code reads -/

variable {p : Program} {i j k x : Nat} {L M : Language} {greedy : Bool}

theorem forks_of_fork {insts : Array Inst} {a b : Goto} (h : insts[i]? = some (.fork greedy a b)) :
    Program.Forks insts i a b := by
  cases greedy with
  | true => exact .inl h
  | false => exact .inr h

namespace Layout

/-- Code that is laid out so reads the language up to its exit. -/
def Means (P : Layout) (L : Language) : Prop :=
  ∀ (p : Program) (i j x : Nat), P p.insts i j x → p.Passage i x L

variable {P : Layout}

theorem Means.congr (h : P.Means L) (hLM : ∀ w, L w ↔ M w) : P.Means M :=
  fun p i j x hP => (h p i j x hP).congr hLM

theorem leaf_means {inst : Goto → Inst} (hne : ∀ x index, inst x ≠ .accept index)
    (h : ∀ (x : Nat) u k, (inst x).Moves u k ↔ k = x ∧ L u) : (leaf inst).Means L :=
  fun _ _ _ x hP => Program.passage_inst hP.1 (h x) (hne x)

theorem symbol_means (ranges : List Interval) :
    (symbol ranges).Means fun w =>
      ∃ b : UInt8, w = [b] ∧ Interval.covers ranges b.toNat = true := by
  have hgoto {x k : Nat} : ((x : Goto) = k) ↔ k = x := Goto.natCast_inj.trans eq_comm
  unfold symbol
  split
  · next r =>
    split
    · next hr =>
      have he : r = .single r.lo := by
        obtain ⟨lo, hi⟩ := r
        exact congrArg (Interval.mk lo) hr.symm
      rw [he]
      exact leaf_means (by simp) fun x u k => and_congr_left' hgoto
    · exact leaf_means (by simp) fun x u k => and_congr_left' hgoto
  · exact leaf_means (by simp) fun x u k => and_congr_left' hgoto

/-- A row that is left for its end, and one that is not empty wherever it is left for. -/
theorem row_passage {Ps : List Layout} {Ls : List Language} (h : List.Forall₂ Means Ps Ls)
    (hP : row Ps p.insts i j x) (hx : Ps ≠ [] ∨ x = j) : p.Passage i x (.row Ls) := by
  induction h generalizing i with
  | nil =>
    obtain rfl := hx.resolve_left (by simp)
    obtain rfl : i = x := hP
    exact .refl p i
  | @cons P L Ps Ls hPL h ih =>
    cases h with
    | nil => exact (hPL p i j x hP).congr fun w => (Language.seq_nil w).symm
    | cons hQ h =>
      obtain ⟨k, hP, hPs⟩ := hP
      exact (hPL p i k k hP).seq (ih hPs (.inl (by simp)))

theorem choice_means {Ps : List Layout} {Ls : List Language} (h : List.Forall₂ Means Ps Ls) :
    (choice Ps).Means (.any Ls) := by
  induction h with
  | nil => exact fun _ _ _ _ hP => hP.elim
  | @cons P L Ps Ls hPL h ih =>
    cases h with
    | nil => exact hPL.congr fun w => (or_false (L w)).symm.to_iff
    | cons hQ h =>
      rintro p i j x ⟨k, hi, hP, hPs⟩
      exact .fork (.inl hi) (hPL p (i + 1) k x hP) (ih p k j x hPs)

/-! ## What repetitions read -/

theorem star_means (h : P.Means L) : (star P greedy).Means (L.repeats fun _ => True) := by
  rintro p i j x ⟨hi, hP⟩
  refine (Program.Passage.star (forks_of_fork hi) (h p (i + 1) j i hP)).congr fun w => ?_
  simp [Language.repeats]

theorem plus_means (h : P.Means L) : (plus P greedy).Means (L.repeats (1 ≤ ·)) := by
  rintro p i j x ⟨k, hP, hk, -⟩
  refine (Program.Passage.plus (h p i k k hP) (forks_of_fork hk)).congr fun w => ?_
  constructor
  · rintro ⟨n, hw⟩
    exact ⟨n + 1, by omega, hw⟩
  · rintro ⟨n, hn, hw⟩
    obtain ⟨m, rfl⟩ : ∃ m, n = m + 1 := ⟨n - 1, by omega⟩
    exact ⟨m, hw⟩

theorem optional_means (h : P.Means L) : (optional P greedy).Means (L.repeats (· ≤ 1)) := by
  rintro p i j x ⟨hi, hP⟩
  refine (Program.Passage.fork (forks_of_fork hi) (h p (i + 1) j x hP) (.refl p x)).congr
    fun w => ?_
  constructor
  · rintro (hw | rfl)
    · exact ⟨1, Nat.le_refl 1, (Language.power_one w).2 hw⟩
    · exact ⟨0, Nat.zero_le 1, rfl⟩
  · rintro ⟨n, hn, hw⟩
    obtain rfl | rfl : n = 0 ∨ n = 1 := by omega
    · exact .inr hw
    · exact .inl ((Language.power_one w).1 hw)

theorem optionals_means (h : P.Means L) (n : Nat) :
    (optionals P greedy (n + 1)).Means (L.repeats (· ≤ n + 1)) := by
  induction n with
  | zero => exact optional_means h
  | succ n ih =>
    rintro p i j x ⟨k, hi, hP, hPs⟩
    have hmore := (h p (i + 1) k k hP).seq (ih p k j x hPs)
    refine (Program.Passage.fork (forks_of_fork hi) hmore (.refl p x)).congr fun w => ?_
    constructor
    · rintro (⟨u, v, rfl, hu, m, hm, hv⟩ | rfl)
      · exact ⟨m + 1, by omega, u, v, rfl, hu, hv⟩
      · exact ⟨0, by omega, rfl⟩
    · rintro ⟨m, hm, hw⟩
      cases m with
      | zero => exact .inr hw
      | succ m =>
        obtain ⟨u, v, rfl, hu, hv⟩ := hw
        exact .inl ⟨u, v, rfl, hu, m, by omega, hv⟩

theorem forall₂_replicate (h : P.Means L) (n : Nat) :
    List.Forall₂ Means (List.replicate n P) (List.replicate n L) := by
  induction n with
  | zero => exact .nil
  | succ n ih => exact .cons h ih

theorem copies_means (h : P.Means L) {n : Nat} (hn : n ≠ 0) :
    (row (List.replicate n P)).Means (L.repeats (· = n)) := by
  intro p i j x hP
  refine (row_passage (forall₂_replicate h n) hP (.inl (by simpa using hn))).congr fun w => ?_
  simp [Language.row_replicate, Language.repeats]

/-- So many copies of the body, and then more of it. -/
theorem andThen_means {Q : Layout} {count : Nat → Prop} (h : P.Means L)
    (hQ : Q.Means (L.repeats count)) (n : Nat) :
    (andThen (row (List.replicate n P)) Q).Means
      (L.repeats fun k => ∃ m, count m ∧ k = n + m) := by
  rintro p i j x ⟨k, hP, hx⟩
  have hcopies := row_passage (forall₂_replicate h n) hP (.inr rfl)
  rw [Language.row_replicate] at hcopies
  exact (hcopies.seq (hQ p k j x hx)).congr (Language.power_seq_repeats n)

/-- The ways to lay out a repetition, by its bounds. -/
inductive Repeats (P : Layout) (greedy : Bool) : Int → Option Int → Layout → Prop where
  | star : Repeats P greedy 0 none (star P greedy)
  | plus : Repeats P greedy 1 none (plus P greedy)
  | more (n : Nat) : Repeats P greedy (n + 2) none
    (andThen (row (List.replicate (n + 1) P)) (plus P greedy))
  | never : Repeats P greedy 0 (some 0) (leaf .nop)
  | once : Repeats P greedy 0 (some 1) (optional P greedy)
  | just (n : Nat) : Repeats P greedy (n + 1) (some (n + 1)) (row (List.replicate (n + 1) P))
  | upTo (n d : Nat) : Repeats P greedy n (some (n + d + 1))
    (andThen (row (List.replicate n P)) (optionals P greedy (d + 1)))

theorem repeats_repeated {min : Int} {max : Option Int} (hmin : 0 ≤ min) (hmax : ∀ m ∈ max, min ≤ m) :
    Repeats P greedy min max (repeated P min max greedy) := by
  obtain ⟨n, rfl⟩ := Int.eq_ofNat_of_zero_le hmin
  cases max with
  | none =>
    simp only [repeated]
    split
    · next h => exact h ▸ .star
    split
    · next h => exact h ▸ .plus
    · obtain ⟨m, rfl⟩ : ∃ m, n = m + 2 := ⟨n - 2, by omega⟩
      have hcount : ((m + 2 : Nat) - 1 : Int).toNat = m + 1 := by omega
      rw [hcount]
      exact .more m
  | some max =>
    have hle : n ≤ max := hmax max rfl
    simp only [repeated]
    split
    · next h =>
      obtain rfl : n = 0 := by omega
      exact h ▸ .never
    split
    · next h =>
      rw [h.1, h.2]
      exact .once
    split
    · next h =>
      obtain ⟨m, rfl⟩ : ∃ m, n = m + 1 := ⟨n - 1, by omega⟩
      rw [← h]
      exact .just m
    · obtain ⟨d, rfl⟩ : ∃ d : Nat, max = n + d + 1 := ⟨(max - n - 1).toNat, by omega⟩
      have hcount : ((n + d + 1 : Int) - n).toNat = d + 1 := by omega
      rw [hcount, Int.toNat_natCast]
      exact .upTo n d

/-- The body as often as the bounds allow. -/
theorem Repeats.means {Q : Layout} {min : Int} {max : Option Int} (hQ : Repeats P greedy min max Q)
    (h : P.Means L) : Q.Means (L.repeats fun n => min ≤ n ∧ ∀ m ∈ max, (n : Int) ≤ m) := by
  cases hQ with
  | star => exact (star_means h).congr (Language.repeats_congr fun n => by simp)
  | plus =>
    refine (plus_means h).congr (Language.repeats_congr fun n => ?_)
    simp only [Option.not_mem_none, false_implies, implies_true, and_true]
    omega
  | more k =>
    refine (andThen_means h (plus_means h) _).congr (Language.repeats_congr fun n => ?_)
    simp only [Option.not_mem_none, false_implies, implies_true, and_true]
    constructor
    · intro hn
      obtain ⟨m, hm, rfl⟩ := hn
      omega
    · exact fun hn => ⟨n - (k + 1), by omega, by omega⟩
  | never =>
    have hnop : (leaf .nop).Means fun w => w = [] :=
      leaf_means (by simp) fun x u k => by simp [Inst.Moves, and_comm, eq_comm]
    refine hnop.congr fun w => ⟨fun hw => ⟨0, by simp, hw⟩, ?_⟩
    rintro ⟨n, hn, hw⟩
    obtain rfl : n = 0 := by simpa using hn
    exact hw
  | once =>
    refine (optional_means h).congr (Language.repeats_congr fun n => ?_)
    simp only [Option.mem_some_iff, forall_eq']
    omega
  | just k =>
    refine (copies_means h (Nat.succ_ne_zero k)).congr (Language.repeats_congr fun n => ?_)
    simp only [Option.mem_some_iff, forall_eq']
    omega
  | upTo k d =>
    refine (andThen_means h (optionals_means h d) _).congr (Language.repeats_congr fun n => ?_)
    simp only [Option.mem_some_iff, forall_eq']
    constructor
    · intro hn
      obtain ⟨m, hm, rfl⟩ := hn
      omega
    · exact fun hn => ⟨n - k, by omega, by omega⟩

theorem capture_means (h : P.Means L) : (capture P).Means L := by
  rintro p i j x ⟨slot, k, hi, hP, hk, -⟩
  have hsave {i k : Nat} {slot : Int} (hi : p.insts[i]? = some (.save slot k)) :
      p.Passage i k (fun w => w = []) :=
    Program.passage_inst hi (fun u k => by simp [Inst.Moves, and_comm, eq_comm]) (by simp)
  refine ((hsave hi).seq ((h p (i + 1) k k hP).seq (hsave hk))).congr fun w => ?_
  exact (Language.nil_seq w).trans (Language.seq_nil w)

end Layout

namespace Tree

mutual

/-- Code that is laid out for a tree reads what the tree denotes. -/
theorem layout_means : (t : Tree) → t.WellFormed → t.layout.Means t.Denotes
  | .epsilon, _ => Layout.leaf_means (by simp) fun x u k => by
    simp [Inst.Moves, Denotes, and_comm, eq_comm]
  | .symbol set, h => by
    cases h with
    | symbol hs =>
      refine (Layout.symbol_means _).congr fun w => ?_
      simp only [Denotes, ByteSet.covers_accepting hs]
  | .concat items, h => by
    cases h with
    | concat hne h =>
      intro p i j x hP
      rw [Denotes, denotesSeq_eq]
      refine Layout.row_passage (layouts_means items h) hP (.inl ?_)
      cases items with
      | nil => exact absurd rfl hne
      | cons => simp [layouts]
  | .alt items, h => by
    cases h with
    | alt hne h =>
      rw [Denotes, denotesAny_eq]
      exact Layout.choice_means (layouts_means items h)
  | .repeated body min max greedy, h => by
    cases h with
    | repeated h hmin hmax =>
      refine ((Layout.repeats_repeated hmin hmax).means (layout_means body h)).congr fun w => ?_
      simp only [Denotes, Language.repeats, and_assoc]
  | .group body true name, h => by
    cases h with
    | group h => exact Layout.capture_means (layout_means body h)
  | .group body false name, h => by
    cases h with
    | group h => exact layout_means body h
  | .look kind, _ => Layout.leaf_means (by simp) fun x u k => by simp [Inst.Moves, Denotes]
  | .bare, h => nomatch h

theorem layouts_means : (ts : List Tree) → (∀ t ∈ ts, t.WellFormed) →
    List.Forall₂ Layout.Means (layouts ts) (ts.map Denotes)
  | [], _ => .nil
  | t :: ts, h => .cons (layout_means t (h t (by simp)))
      (layouts_means ts fun u hu => h u (by simp [hu]))

end

end Tree

end Munch
