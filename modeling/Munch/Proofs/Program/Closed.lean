/-
Programs of trees are closed. Every goto of their code leads to an instruction of it, and idle
instructions lead forwards or to one that is not idle. So the program can be followed from every
goto, and what is followed to is never idle (`Closed.follow`).
-/
import Munch.Proofs.Program.Closure
import Munch.Proofs.Program.OfTrees

namespace Munch

/-- Where the instruction may go on. -/
def Inst.gotos : Inst → List Goto
  | .accept _ => []
  | .save _ next | .look _ next | .char _ next | .span _ next | .oneOf _ next | .nop next => [next]
  | .split first second => [first, second]

namespace Program

variable {insts : Array Inst} {i j k n : Nat} {x : Goto} {S S' : Nat → Prop} {X : Goto → Prop}

/-- There is an instruction which is not idle. -/
def Acts (insts : Array Inst) (k : Nat) : Prop :=
  ∃ inst, insts[k]? = some inst ∧ ∀ g, inst ≠ .nop g

/-- The instruction goes on in the set or leaves for an exit. If it is idle, it goes on behind itself
or at one that is not. -/
def Lands (insts : Array Inst) (S : Nat → Prop) (X : Goto → Prop) (k : Nat) : Prop :=
  ∃ inst, insts[k]? = some inst ∧ ∀ g ∈ inst.gotos,
    X g ∨ ∃ m : Nat, g = m ∧ S m ∧ (k < m ∨ Acts insts m ∨ ∀ g, inst ≠ .nop g)

/-- So do all instructions from one position up to another. -/
def Covered (insts : Array Inst) (i j : Nat) (S : Nat → Prop) (X : Goto → Prop) : Prop :=
  ∀ k, i ≤ k → k < j → Lands insts S X k

/-- The positions from one up to another. -/
def Between (i j m : Nat) : Prop := i ≤ m ∧ m < j

theorem Acts.lands {inst : Inst} (hi : insts[k]? = some inst) (hne : ∀ g, inst ≠ .nop g)
    (h : ∀ g ∈ inst.gotos, X g ∨ ∃ m : Nat, g = m ∧ S m) : Lands insts S X k := by
  refine ⟨inst, hi, fun g hg => (h g hg).imp_right fun hm => ?_⟩
  obtain ⟨m, rfl, hm⟩ := hm
  exact ⟨m, rfl, hm, .inr (.inr hne)⟩

theorem Forks.acts {a b : Goto} (hk : Forks insts k a b) : Acts insts k := by
  rcases hk with hk | hk <;> exact ⟨_, hk, by simp⟩

theorem Forks.lands {a b : Goto} (hk : Forks insts k a b) (ha : X a ∨ ∃ m : Nat, a = m ∧ S m)
    (hb : X b ∨ ∃ m : Nat, b = m ∧ S m) : Lands insts S X k := by
  rcases hk with hk | hk
  · exact Acts.lands hk (by simp) (by simpa [Inst.gotos] using ⟨ha, hb⟩)
  · exact Acts.lands hk (by simp) (by simpa [Inst.gotos] using ⟨hb, ha⟩)

theorem Lands.mono (h : Lands insts S X k) (hS : ∀ m, S m → S' m) : Lands insts S' X k := by
  obtain ⟨inst, hk, hgotos⟩ := h
  refine ⟨inst, hk, fun g hg => (hgotos g hg).imp_right fun hm => ?_⟩
  obtain ⟨m, rfl, hm, hon⟩ := hm
  exact ⟨m, rfl, hS m hm, hon⟩

theorem Covered.one (h : Lands insts S X i) : Covered insts i (i + 1) S X := by
  intro k hik hki
  obtain rfl : k = i := by omega
  exact h

theorem Covered.append (h : Covered insts i k S X) (h' : Covered insts k j S X) :
    Covered insts i j S X := by
  intro m him hmj
  rcases Nat.lt_or_ge m k with hmk | hkm
  · exact h m him hmk
  · exact h' m hkm hmj

/-- The exit of a part may stay the exit of the whole. -/
theorem Covered.widen (h : Covered insts i j (Between i j) (· = x))
    (hS : ∀ m, i ≤ m → m < j → S m) : Covered insts i j S (· = x) :=
  fun k hik hkj => (h k hik hkj).mono fun m hm => hS m hm.1 hm.2

/-- The exit of a part may lie inside of the whole, behind the part or where a loop starts. -/
theorem Covered.inside (h : Covered insts i j (Between i j) (· = (n : Goto)))
    (hS : ∀ m, i ≤ m → m < j → S m) (hn : S n) (hon : j ≤ n ∨ Acts insts n) :
    Covered insts i j S X := by
  intro k hik hkj
  obtain ⟨inst, hk, hgotos⟩ := h k hik hkj
  refine ⟨inst, hk, fun g hg => .inr ?_⟩
  rcases hgotos g hg with rfl | ⟨m, rfl, hm, hback⟩
  · exact ⟨n, rfl, hn, hon.imp (Nat.lt_of_lt_of_le hkj) .inl⟩
  · exact ⟨m, rfl, hS m hm.1 hm.2, hback⟩

end Program

open Program

/-! ## Layouts -/

namespace Layout

variable {P : Layout} {greedy : Bool} {insts : Array Inst} {i j k : Nat} {x : Goto}

/-- Code that is laid out so leaves for its exit only. -/
def Encloses (P : Layout) : Prop :=
  ∀ (insts : Array Inst) (i j : Nat) (x : Goto), P insts i j x →
    i < j ∧ Covered insts i j (Between i j) (· = x)

theorem leaf_encloses {inst : Goto → Inst} (h : ∀ x, (inst x).gotos = [x]) :
    (leaf inst).Encloses := by
  rintro insts i j x ⟨hi, rfl⟩
  refine ⟨Nat.lt_succ_self i, .one ⟨_, hi, fun g hg => .inl ?_⟩⟩
  rw [h, List.mem_singleton] at hg
  exact hg

theorem symbol_encloses (ranges : List Interval) : (symbol ranges).Encloses := by
  unfold symbol
  split
  · split <;> exact leaf_encloses fun _ => rfl
  · exact leaf_encloses fun _ => rfl

/-- One part up to `k`, which leads behind itself, and another one from there on. -/
theorem covered_seq (h : i < k ∧ Covered insts i k (Between i k) (· = (k : Goto)))
    (h' : k < j ∧ Covered insts k j (Between k j) (· = x)) :
    i < j ∧ Covered insts i j (Between i j) (· = x) := by
  obtain ⟨hik, hfirst⟩ := h
  obtain ⟨hkj, hsecond⟩ := h'
  refine ⟨Nat.lt_trans hik hkj, .append (hfirst.inside ?_ ⟨hik.le, hkj⟩ (.inl (Nat.le_refl k)))
    (hsecond.widen ?_)⟩
  · exact fun m him hmk => ⟨him, Nat.lt_trans hmk hkj⟩
  · exact fun m hkm hmj => ⟨Nat.le_trans hik.le hkm, hmj⟩

theorem row_encloses {Ps : List Layout} (hne : Ps ≠ []) (h : ∀ P ∈ Ps, P.Encloses) :
    (row Ps).Encloses := by
  induction Ps with
  | nil => exact absurd rfl hne
  | cons P Ps ih =>
    cases Ps with
    | nil => exact h P (by simp)
    | cons Q Ps =>
      rintro insts i j x ⟨k, hP, hPs⟩
      have hrest := ih (by simp) fun R hR => h R (List.mem_cons_of_mem P hR)
      exact covered_seq (h P (by simp) insts i k k hP) (hrest insts k j x hPs)

theorem choice_encloses {Ps : List Layout} (h : ∀ P ∈ Ps, P.Encloses) : (choice Ps).Encloses := by
  induction Ps with
  | nil => exact fun _ _ _ _ hP => hP.elim
  | cons P Ps ih =>
    cases Ps with
    | nil => exact h P (by simp)
    | cons Q Ps =>
      rintro insts i j x ⟨k, hi, hP, hPs⟩
      obtain ⟨hik, hfirst⟩ := h P (by simp) insts (i + 1) k x hP
      obtain ⟨hkj, hrest⟩ := ih (fun R hR => h R (List.mem_cons_of_mem P hR)) insts k j x hPs
      have hsplit : Lands insts (Between i j) (· = x) i :=
        Forks.lands (.inl hi) (.inr ⟨i + 1, rfl, by omega, by omega⟩)
          (.inr ⟨k, rfl, by omega, hkj⟩)
      refine ⟨by omega, .append (.one hsplit) (.append (hfirst.widen ?_) (hrest.widen ?_))⟩
      · exact fun m him hmk => ⟨by omega, by omega⟩
      · exact fun m hkm hmj => ⟨by omega, hmj⟩

theorem optional_encloses (h : P.Encloses) : (optional P greedy).Encloses := by
  rintro insts i j x ⟨hi, hP⟩
  obtain ⟨hij, hbody⟩ := h insts (i + 1) j x hP
  have hsplit : Lands insts (Between i j) (· = x) i :=
    (forks_of_fork hi).lands (.inr ⟨i + 1, rfl, by omega, hij⟩) (.inl rfl)
  exact ⟨by omega, .append (.one hsplit) (hbody.widen fun m him hmj => ⟨by omega, hmj⟩)⟩

theorem star_encloses (h : P.Encloses) : (star P greedy).Encloses := by
  rintro insts i j x ⟨hi, hP⟩
  obtain ⟨hij, hbody⟩ := h insts (i + 1) j i hP
  have hsplit : Lands insts (Between i j) (· = x) i :=
    (forks_of_fork hi).lands (.inr ⟨i + 1, rfl, by omega, hij⟩) (.inl rfl)
  refine ⟨by omega, .append (.one hsplit) ?_⟩
  -- the body leads back to the split
  exact hbody.inside (fun m him hmj => ⟨by omega, hmj⟩) ⟨Nat.le_refl i, by omega⟩
    (.inr (forks_of_fork hi).acts)

theorem plus_encloses (h : P.Encloses) : (plus P greedy).Encloses := by
  rintro insts i j x ⟨k, hP, hk, rfl⟩
  obtain ⟨hik, hbody⟩ := h insts i k k hP
  have hsplit : Lands insts (Between i (k + 1)) (· = x) k :=
    (forks_of_fork hk).lands (.inr ⟨i, rfl, Nat.le_refl i, by omega⟩) (.inl rfl)
  refine ⟨by omega, .append ?_ (.one hsplit)⟩
  exact hbody.inside (fun m him hmk => ⟨him, by omega⟩) ⟨hik.le, Nat.lt_succ_self k⟩
    (.inl (Nat.le_refl k))

theorem optionals_encloses (h : P.Encloses) (n : Nat) :
    (optionals P greedy (n + 1)).Encloses := by
  induction n with
  | zero => exact optional_encloses h
  | succ n ih =>
    rintro insts i j x ⟨k, hi, hP, hPs⟩
    obtain ⟨hij, hmore⟩ := covered_seq (h insts (i + 1) k k hP) (ih insts k j x hPs)
    have hsplit : Lands insts (Between i j) (· = x) i :=
      (forks_of_fork hi).lands (.inr ⟨i + 1, rfl, by omega, hij⟩) (.inl rfl)
    exact ⟨by omega, .append (.one hsplit) (hmore.widen fun m him hmj => ⟨by omega, hmj⟩)⟩

theorem copies_encloses (h : P.Encloses) {n : Nat} (hn : n ≠ 0) :
    (row (List.replicate n P)).Encloses :=
  row_encloses (by simpa using hn) fun Q hQ => (List.mem_replicate.1 hQ).2 ▸ h

/-- So many copies of the body, or none, and then more of it. -/
theorem andThen_encloses {Q : Layout} (h : P.Encloses) (hQ : Q.Encloses) (n : Nat) :
    (andThen (row (List.replicate n P)) Q).Encloses := by
  rintro insts i j x ⟨k, hP, hx⟩
  cases n with
  | zero =>
    obtain rfl : i = k := hP
    exact hQ insts i j x hx
  | succ n =>
    exact covered_seq (copies_encloses h (Nat.succ_ne_zero n) insts i k k hP) (hQ insts k j x hx)

theorem Repeats.encloses {Q : Layout} {min : Int} {max : Option Int}
    (hQ : Repeats P greedy min max Q) (h : P.Encloses) : Q.Encloses := by
  cases hQ with
  | star => exact star_encloses h
  | plus => exact plus_encloses h
  | more n => exact andThen_encloses h (plus_encloses h) _
  | never => exact leaf_encloses fun _ => rfl
  | once => exact optional_encloses h
  | just n => exact copies_encloses h (Nat.succ_ne_zero n)
  | upTo n d => exact andThen_encloses h (optionals_encloses h d) _

theorem capture_encloses (h : P.Encloses) : (capture P).Encloses := by
  rintro insts i j x ⟨slot, k, hi, hP, hk, rfl⟩
  have hsave : (leaf (.save slot)).Encloses := leaf_encloses fun _ => rfl
  have hsave' : (leaf (.save (slot + 1))).Encloses := leaf_encloses fun _ => rfl
  exact covered_seq (hsave insts i (i + 1) _ ⟨hi, rfl⟩)
    (covered_seq (h insts (i + 1) k k hP) (hsave' insts k (k + 1) x ⟨hk, rfl⟩))

end Layout

namespace Tree

mutual

theorem layout_encloses : (t : Tree) → t.Compilable → t.layout.Encloses
  | .epsilon, _ | .look _, _ => Layout.leaf_encloses fun _ => rfl
  | .symbol _, _ => Layout.symbol_encloses _
  | .concat items, .concat hne h => by
    refine Layout.row_encloses ?_ (layouts_encloses items h)
    cases items with
    | nil => exact absurd rfl hne
    | cons => simp [layouts]
  | .alt items, .alt _ h => Layout.choice_encloses (layouts_encloses items h)
  | .repeated body _ _ _, .repeated h hmin hmax =>
    (Layout.repeats_repeated hmin hmax).encloses (layout_encloses body h)
  | .repeated _ _ _ _, .never => Layout.leaf_encloses fun _ => rfl
  | .group body true _, .group h => Layout.capture_encloses (layout_encloses body h)
  | .group body false _, .group h => layout_encloses body h

theorem layouts_encloses : (ts : List Tree) → (∀ t ∈ ts, t.Compilable) →
    ∀ P ∈ layouts ts, P.Encloses
  | [], _, _, hP => nomatch hP
  | t :: ts, h, P, hP => by
    rcases List.mem_cons.1 hP with rfl | hP
    · exact layout_encloses t (h t (by simp))
    · exact layouts_encloses ts (fun u hu => h u (by simp [hu])) P hP

end

end Tree

/-! ## Programs -/

namespace Program

variable {p : Program} {trees : List Tree} {i j k n index : Nat} {inst : Inst} {g : Goto}
  {S : Nat → Prop} {X : Goto → Prop}

/-- From the positions of the set the program goes on in the set. -/
def Closed (p : Program) (S : Nat → Prop) : Prop :=
  ∀ k, S k → Lands p.insts S (fun _ => False) k

/-- A pattern and its end go on among themselves. -/
theorem covered_finish {t : Tree} {last : Int} (h : t.Compilable) (hi : t.layout p.insts i k k)
    (hk : p.insts[k]? = some (.accept last)) :
    i < k + 1 ∧ Covered p.insts i (k + 1) (Between i (k + 1)) fun _ => False := by
  obtain ⟨hik, hcode⟩ := t.layout_encloses h p.insts i k k hi
  have hend : Lands p.insts (Between i (k + 1)) (fun _ => False) k :=
    Acts.lands hk (by simp) (by simp [Inst.gotos])
  refine ⟨by omega, .append ?_ (.one hend)⟩
  exact hcode.inside (fun m him hmk => ⟨him, by omega⟩) ⟨hik.le, Nat.lt_succ_self k⟩
    (.inl (Nat.le_refl k))

theorem closed_chained (hne : trees ≠ []) (htrees : ∀ t ∈ trees, t.Compilable)
    (h : AssemblyM.Chained index trees p.insts i) : ∃ S, S i ∧ p.Closed S := by
  induction trees generalizing index i with
  | nil => exact absurd rfl hne
  | cons t ts ih =>
    cases ts with
    | nil =>
      obtain ⟨k, hlayout, hk⟩ := h
      obtain ⟨hik, hcode⟩ := covered_finish (htrees t (by simp)) hlayout hk
      exact ⟨Between i (k + 1), ⟨Nat.le_refl i, hik⟩, fun m hm => hcode m hm.1 hm.2⟩
    | cons t' ts =>
      obtain ⟨j, k, hi, hlayout, hk, hrest⟩ := h
      obtain ⟨hik, hcode⟩ := covered_finish (htrees t (by simp)) hlayout hk
      obtain ⟨S, hj, hS⟩ := ih (by simp) (fun u hu => htrees u (List.mem_cons_of_mem _ hu)) hrest
      refine ⟨fun m => m = i ∨ Between (i + 1) (k + 1) m ∨ S m, .inl rfl, fun m hm => ?_⟩
      rcases hm with rfl | hm | hm
      · exact Forks.lands (.inl hi)
          (.inr ⟨m + 1, rfl, .inr (.inl ⟨Nat.le_refl _, hik⟩)⟩) (.inr ⟨j, rfl, .inr (.inr hj)⟩)
      · exact (hcode m hm.1 hm.2).mono fun n hn => .inr (.inl hn)
      · exact (hS m hm).mono fun n hn => .inr (.inr hn)

theorem lt_of_lands (h : Lands p.insts S X k) : k < p.insts.size := by
  obtain ⟨inst, hk, -⟩ := h
  exact (Array.getElem?_eq_some_iff.1 hk).1

/-- A closed program has instructions, as soon as anything is in the set. -/
theorem Closed.insts_ne (h : p.Closed S) (hk : S k) : p.insts ≠ #[] := by
  intro hempty
  have hlt := lt_of_lands (h k hk)
  simp [hempty] at hlt

theorem skipUpTo_mono (h : p.skipUpTo n i = .ok j) (hj : Acts p.insts j) :
    p.skipUpTo (n + 1) i = .ok j := by
  induction n generalizing i with
  | zero =>
    obtain rfl := Except.ok.inj h
    obtain ⟨inst, hi, hne⟩ := hj
    exact skipUpTo_self hi hne 1
  | succ n ih =>
    rcases skipUpTo_succ h with ⟨k, hk, h⟩ | ⟨inst, hi, hne, rfl⟩
    · rw [Program.skipUpTo, get_eq_ok_iff.2 hk]
      exact ih h
    · exact skipUpTo_self hi hne _

/-- Behind an idle instruction it is skipped to the same place. -/
theorem skip_nop (hi : p.insts[i]? = some (.nop k)) (h : p.skip i = .ok j)
    (hj : Acts p.insts j) : p.skip k = .ok j := by
  rcases skipUpTo_succ h with ⟨k', hk, h⟩ | ⟨inst, hi', hne, -⟩
  · obtain rfl : k = k' := by simpa [hi] using hk
    exact skipUpTo_mono h hj
  · obtain rfl := Option.some.inj (hi.symm.trans hi')
    exact absurd rfl (hne _)

namespace Closed

/-- Idle instructions lead forwards, so there are no more of them in a row than instructions. -/
theorem skipUpTo (h : p.Closed S) (hk : S k) (hn : p.insts.size ≤ k + n) :
    ∃ j, p.skipUpTo n k = .ok j ∧ S j ∧ Acts p.insts j := by
  induction n generalizing k with
  | zero => exact absurd (lt_of_lands (h k hk)) (by omega)
  | succ n ih =>
    by_cases hacts : Acts p.insts k
    · obtain ⟨inst, hi, hne⟩ := hacts
      exact ⟨k, skipUpTo_self hi hne _, hk, inst, hi, hne⟩
    · obtain ⟨inst, hi, hgotos⟩ := h k hk
      obtain ⟨next, rfl⟩ : ∃ next, inst = .nop next := by
        by_contra hne
        exact hacts ⟨inst, hi, fun g hg => hne ⟨g, hg⟩⟩
      obtain ⟨m, rfl, hm, hon⟩ := (hgotos next (by simp [Inst.gotos])).resolve_left id
      have hstep : p.skipUpTo (n + 1) k = p.skipUpTo n m := by
        rw [Program.skipUpTo, get_eq_ok_iff.2 hi]
        rfl
      rw [hstep]
      rcases hon with hkm | ⟨inst, hi, hne⟩ | hne
      · exact ih hm (by omega)
      · exact ⟨m, skipUpTo_self hi hne n, hm, inst, hi, hne⟩
      · exact absurd rfl (hne _)

theorem skip (h : p.Closed S) (hk : S k) : ∃ j, p.skip k = .ok j ∧ S j ∧ Acts p.insts j :=
  h.skipUpTo hk (by omega)

/-- Every goto can be followed, and never to an idle instruction. -/
theorem follow (h : p.Closed S) (hk : S k) (hi : p.insts[k]? = some inst) (hg : g ∈ inst.gotos) :
    ∃ j, p.follow g = .ok j ∧ S j ∧ Acts p.insts j := by
  obtain ⟨inst', hi', hgotos⟩ := h k hk
  obtain rfl := Option.some.inj (hi.symm.trans hi')
  obtain ⟨m, rfl, hm, -⟩ := (hgotos g hg).resolve_left id
  obtain ⟨j, hj, hS⟩ := h.skip hm
  exact ⟨j, follow_eq_ok_iff.2 ⟨m, rfl, hj⟩, hS⟩

end Closed

end Program

end Munch
