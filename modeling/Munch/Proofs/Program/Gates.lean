/-
Where a run through the code of a tree may come to a bar: just where `Tree.isBarred` says so
(`layout_gated`). A program of trees is barred if one of its trees is, since a run may enter each of
them (`barred_chained`).
-/
import Munch.Proofs.Program.Bars
import Munch.Proofs.Program.OfTrees
import Munch.Tree.Bars

namespace Munch

variable {p : Program} {i j x : Nat} {B B' T T' : Prop} {greedy : Bool}

namespace Layout

/-- Code that is laid out so has a bar in it if `B`, and can be passed if `T`. -/
def Gated (P : Layout) (B T : Prop) : Prop :=
  ∀ (p : Program) (i j x : Nat), P p.insts i j x → p.Gate i x B T

/-- So it is with a row that is not empty, and with one that is left for its end. -/
def RowGated (Ps : List Layout) (B T : Prop) : Prop :=
  ∀ (p : Program) (i j x : Nat), row Ps p.insts i j x → (Ps ≠ [] ∨ x = j) → p.Gate i x B T

variable {P : Layout} {Ps : List Layout}

theorem Gated.congr (h : P.Gated B T) (hB : B ↔ B') (hT : T ↔ T') : P.Gated B' T' :=
  fun p i j x hP => (h p i j x hP).congr hB hT

theorem leaf_gated {inst : Goto → Inst} (hbar : ∀ x, (inst x).bar? = none)
    (hx : ∀ x j : Nat, (inst x).Continues j ↔ j = x ∧ T) : (leaf inst).Gated False T :=
  fun _ _ _ x hP => Program.gate_inst hP.1 (hbar x) (hx x)

theorem symbol_gated (ranges : List Interval) : (symbol ranges).Gated False (ranges ≠ []) := by
  have hgoto {x j : Nat} : ((x : Goto) = j) ↔ j = x := Goto.natCast_inj.trans eq_comm
  unfold symbol
  split
  · next r =>
    split
    · exact leaf_gated (fun _ => rfl) fun x j => by simp [Inst.Continues, hgoto]
    · exact leaf_gated (fun _ => rfl) fun x j => by simp [Inst.Continues, hgoto]
  · exact leaf_gated (fun _ => rfl) fun x j => by simp [Inst.Continues, hgoto, and_comm]

/-! ## Rows and choices -/

theorem row_nil_gated : RowGated [] False True := by
  intro p i j x hP hx
  obtain rfl : i = j := hP
  obtain rfl := hx.resolve_left (by simp)
  exact .refl p x

theorem row_cons_gated (h : P.Gated B T) (hPs : RowGated Ps B' T') :
    RowGated (P :: Ps) (B ∨ T ∧ B') (T ∧ T') := by
  intro p i j x hP hx
  cases Ps with
  | nil =>
    -- what is left for `x` is the part itself, and nothing comes behind it
    have hrest : p.Gate x x B' T' := hPs p x x x rfl (.inr rfl)
    exact (h p i j x hP).seq hrest
  | cons Q Ps =>
    obtain ⟨k, hP, hPs'⟩ := hP
    exact (h p i k k hP).seq (hPs p k j x hPs' (.inl (by simp)))

theorem choice_cons_gated {Q : Layout} (h : P.Gated B T) (hPs : (choice (Q :: Ps)).Gated B' T') :
    (choice (P :: Q :: Ps)).Gated (B ∨ B') (T ∨ T') := by
  rintro p i j x ⟨k, hi, hP, hQ⟩
  exact .fork (.inl hi) (h p (i + 1) k x hP) (hPs p k j x hQ)

/-! ## Repetitions -/

theorem copies_gated (h : P.Gated B T) (n : Nat) :
    RowGated (List.replicate n P) (n ≠ 0 ∧ B) (n = 0 ∨ T) := by
  induction n with
  | zero => simpa using row_nil_gated
  | succ n ih =>
    intro p i j x hP hx
    refine (row_cons_gated h ih p i j x hP hx).congr ?_ ?_
    · simp only [Nat.succ_ne_zero, ne_eq, not_false_eq_true, true_and]
      exact or_iff_left_of_imp fun hb => hb.2.2
    · simp only [Nat.succ_ne_zero, false_or]
      exact and_iff_left_of_imp .inr

theorem star_gated (h : P.Gated B T) : (star P greedy).Gated B True := by
  rintro p i j x ⟨hi, hP⟩
  exact .star (forks_of_fork hi) (h p (i + 1) j i hP)

theorem plus_gated (h : P.Gated B T) : (plus P greedy).Gated B T := by
  rintro p i j x ⟨k, hP, hk, -⟩
  exact .plus (h p i k k hP) (forks_of_fork hk)

theorem optional_gated (h : P.Gated B T) : (optional P greedy).Gated B True := by
  rintro p i j x ⟨hi, hP⟩
  exact (Program.Gate.fork (forks_of_fork hi) (h p (i + 1) j x hP) (.refl p x)).congr
    (or_iff_left False.elim) (iff_of_true (.inr trivial) trivial)

theorem optionals_gated (h : P.Gated B T) (n : Nat) :
    (optionals P greedy (n + 1)).Gated B True := by
  induction n with
  | zero => exact optional_gated h
  | succ n ih =>
    rintro p i j x ⟨k, hi, hP, hPs⟩
    have hmore := (h p (i + 1) k k hP).seq (ih p k j x hPs)
    refine (Program.Gate.fork (forks_of_fork hi) hmore (.refl p x)).congr ?_ ?_
    · exact (or_iff_left False.elim).trans (or_iff_left_of_imp And.right)
    · exact iff_of_true (.inr trivial) trivial

/-- So many copies of the body, and then more of it. -/
theorem andThen_gated {Q : Layout} (h : P.Gated B T) (hQ : Q.Gated B T') (n : Nat) :
    (andThen (row (List.replicate n P)) Q).Gated B ((n = 0 ∨ T) ∧ T') := by
  rintro p i j x ⟨k, hP, hx⟩
  have hcopies := copies_gated h n p i k k hP (.inr rfl)
  refine (hcopies.seq (hQ p k j x hx)).congr ?_ .rfl
  by_cases hn : n = 0
  · simp [hn]
  · simpa only [ne_eq, hn, not_false_eq_true, true_and, false_or] using or_iff_left_of_imp And.right

/-- A body that is repeated no times at all holds no bar; one that may be left out can be passed. -/
theorem Repeats.gated {Q : Layout} {min : Int} {max : Option Int} (hQ : Repeats P greedy min max Q)
    (h : P.Gated B T) : Q.Gated (max ≠ some 0 ∧ B) (min = 0 ∨ T) := by
  cases hQ with
  | star => exact (star_gated h).congr (by simp) (by simp)
  | plus => exact (plus_gated h).congr (by simp) (by simp)
  | more n =>
    have hmin : (n : Int) + 2 ≠ 0 := by omega
    exact (andThen_gated h (plus_gated h) _).congr (by simp) (by simp [hmin])
  | never =>
    have hnop : (leaf .nop).Gated False True :=
      leaf_gated (fun _ => rfl) fun x j => by simp [Inst.Continues, eq_comm]
    exact hnop.congr (by simp) (by simp)
  | once => exact (optional_gated h).congr (by simp) (by simp)
  | just n =>
    have hmin : (n : Int) + 1 ≠ 0 := by omega
    intro p i j x hP
    exact (copies_gated h _ p i j x hP (.inl (by simp))).congr (by simp [hmin]) (by simp [hmin])
  | upTo n d =>
    have hmax : (n : Int) + d + 1 ≠ 0 := by omega
    exact (andThen_gated h (optionals_gated h d) _).congr (by simp [hmax]) (by simp)

end Layout

/-! ## Trees -/

namespace Tree

mutual

/-- Code that is laid out for a tree comes to a bar where the tree does. -/
theorem layout_gated : (t : Tree) → t.WellFormed →
    t.layout.Gated (t.isBarred = true) (t.isPassable = true)
  | .epsilon, _ => by
    refine (Layout.leaf_gated (fun _ => rfl) fun x j => ?_).congr (T := True) ?_ ?_
    · simp [Inst.Continues, eq_comm]
    · simp [isBarred]
    · simp [isPassable]
  | .symbol set, _ => by
    refine (Layout.symbol_gated _).congr ?_ ?_
    · simp [isBarred]
    · simp [isPassable]
  | .concat items, h => by
    cases h with
    | concat hne h =>
      intro p i j x hP
      refine layouts_rowGated items h p i j x hP (.inl ?_)
      cases items with
      | nil => exact absurd rfl hne
      | cons => simp [layouts]
  | .alt items, h => by
    cases h with
    | alt hne h => exact layouts_choiceGated items h
  | .repeated body min max greedy, h => by
    cases h with
    | repeated h hmin hmax =>
      refine ((Layout.repeats_repeated hmin hmax).gated (layout_gated body h)).congr ?_ ?_
      · simp [isBarred]
      · simp [isPassable]
  | .group body true name, h => by
    rintro p i j x ⟨slot, k, hi, -⟩
    refine (Program.gate_bar ⟨_, hi, rfl⟩ x).congr ?_ ?_
    · simp [isBarred]
    · simp [isPassable]
  | .group body false name, h => by
    cases h with
    | group h =>
      refine (layout_gated body h).congr ?_ ?_
      · simp [isBarred]
      · simp [isPassable]
  | .look kind, _ => by
    intro p i j x hP
    exact (Program.gate_bar ⟨_, hP.1, rfl⟩ x).congr (by simp [isBarred]) (by simp [isPassable])
  | .bare, h => nomatch h

theorem layouts_rowGated : (ts : List Tree) → (∀ t ∈ ts, t.WellFormed) →
    Layout.RowGated (layouts ts) (isBarredRow ts = true) (isPassableRow ts = true)
  | [], _ => by simpa only [isBarredRow, isPassableRow, Bool.false_eq_true, layouts]
      using Layout.row_nil_gated
  | t :: ts, h => by
    have hrow := Layout.row_cons_gated (layout_gated t (h t (by simp)))
      (layouts_rowGated ts fun u hu => h u (by simp [hu]))
    simpa only [isBarredRow, isPassableRow, Bool.or_eq_true, Bool.and_eq_true, layouts] using hrow

theorem layouts_choiceGated : (ts : List Tree) → (∀ t ∈ ts, t.WellFormed) →
    (Layout.choice (layouts ts)).Gated (isBarredAny ts = true) (isPassableAny ts = true)
  | [], _ => fun _ _ _ _ hP => hP.elim
  | [t], h => by
    refine (layout_gated t (h t (by simp))).congr ?_ ?_
    · simp [isBarredAny]
    · simp [isPassableAny]
  | t :: u :: ts, h => by
    have hchoice := Layout.choice_cons_gated (layout_gated t (h t (by simp)))
      (layouts_choiceGated (u :: ts) fun v hv => h v (by simp_all))
    rw [isBarredAny, isPassableAny]
    simpa only [Bool.or_eq_true, layouts] using hchoice

end

end Tree

/-! ## Programs -/

namespace Program

variable {index : Nat} {trees : List Tree}

/-- A set of trees is barred where one of them is. -/
theorem barred_chained (hne : trees ≠ []) (hwf : ∀ t ∈ trees, t.WellFormed)
    (h : AssemblyM.Chained index trees p.insts i) :
    p.Barred i ↔ ∃ t ∈ trees, t.isBarred = true := by
  induction trees generalizing index i with
  | nil => exact absurd rfl hne
  | cons t ts ih =>
    have hfinish {i k : Nat} {last : Int} (hlayout : t.layout p.insts i k k)
        (hk : p.insts[k]? = some (.accept last)) : p.Barred i ↔ t.isBarred = true := by
      have hgate := t.layout_gated (hwf t (by simp)) p i k k hlayout
      exact hgate.barred_iff.trans (or_iff_left fun hb => not_barred_accept hk hb.2)
    cases ts with
    | nil =>
      obtain ⟨k, hlayout, hk⟩ := h
      simpa using hfinish hlayout hk
    | cons t' ts =>
      obtain ⟨j, k, hi, hlayout, hk, hrest⟩ := h
      rw [barred_fork (.inl hi), hfinish hlayout hk,
        ih (by simp) (fun u hu => hwf u (List.mem_cons_of_mem _ hu)) hrest]
      simp only [List.mem_cons, exists_eq_or_imp]

end Program

end Munch
