/-
The fragment of a tree is a block of its own. It is added behind all that was there, is entered at
its first instruction, and leads to nothing but itself except through its holes, which are the gotos
that are still open in it (`isBlock_of_ofTree`). So it can be put anywhere, and whatever comes next
can be linked to its holes.
-/
import Munch.Proofs.Program.Regions

namespace Munch.AssemblyM

open Program

variable {a b : Assembly} {start i j : Nat} {holes : List Hole} {hole : Hole} {g : Goto}
  {P : Layout} {t : Tree} {f : Fragment}

/-- The fragment has been added as a block. -/
structure IsBlock (a : Assembly) (f : Fragment) (b : Assembly) : Prop where
  size_lt : a.insts.size < b.insts.size
  /-- What was there has not changed. -/
  old : ∀ i < a.insts.size, b.insts[i]? = a.insts[i]?
  entry : f.entry = a.insts.size
  nodup : f.holes.Nodup
  /-- The holes are the gotos of the block that are open. -/
  mem_holes : ∀ hole : Hole,
    hole ∈ f.holes ↔ a.insts.size ≤ hole.position ∧ slotAt b.insts hole = some .hole
  /-- All other gotos of the block lead to an instruction of it. -/
  inside : ∀ (hole : Hole) (g : Goto), a.insts.size ≤ hole.position →
    slotAt b.insts hole = some g → g ≠ .hole →
      ∃ m : Nat, g = m ∧ Between a.insts.size b.insts.size m
  /-- Each instruction was added for the pattern at hand. -/
  origins : b.origins = a.origins ++ Array.replicate (b.insts.size - a.insts.size) a.pattern

/-- The holes of a fragment can be linked to any place, which lays its code out. -/
theorem exists_linked (ho : Open start b holes)
    (hy : Yields b holes fun insts x => P insts i j x) (x : Goto) :
    ∃ c, Linked b c holes x ∧ P c.insts i j x := by
  obtain ⟨_, c, -, hl⟩ := (ho.link_ensures x).exists_ok
  exact ⟨c, hl, hy c.insts x hl.grows hl.filled⟩

/-- A goto of a fragment is one of its holes or leads to an instruction of it. -/
theorem mem_holes_or_inside (hP : P.Encloses) (ho : Open start b holes)
    (hy : Yields b holes fun insts x => P insts i b.insts.size x) (hi : i ≤ hole.position)
    (hg : slotAt b.insts hole = some g) :
    hole ∈ holes ∨ ∃ m : Nat, g = m ∧ Between i b.insts.size m := by
  by_cases hmem : hole ∈ holes
  · exact .inl hmem
  · -- link the holes elsewhere: the goto stays, so it is not the exit of the code
    obtain ⟨c, hl, hlayout⟩ := exists_linked ho hy (g + 1)
    obtain ⟨-, hcovered⟩ := hP _ _ _ _ hlayout
    obtain ⟨inst, hinst, hgotos⟩ := hcovered hole.position hi (lt_size_of_slotAt hg)
    have hslot : inst.slot? hole.slot = some g := by
      have hc := (hl.other hole hmem).trans hg
      rw [slotAt, hinst, Option.bind_some] at hc
      exact hc
    rcases hgotos g (Inst.mem_gotos hslot) with hexit | ⟨m, hm, hbetween, -⟩
    · exact absurd hexit (Int.lt_succ g).ne
    · exact .inr ⟨m, hm, hbetween⟩

/-- Whatever is there already, the action of a tree adds a block. -/
theorem isBlock_of_ofTree (h : ofTree t a = .ok f b) : IsBlock a f b := by
  have hencloses : t.layout.Encloses := t.layout_encloses ((ofTree_shows t a).of_ok h)
  obtain ⟨hentry, hadds, hopen, hyields⟩ := (ofTree_builds t a).of_ok h
  have hgoto {hole : Hole} {g : Goto} (hi : a.insts.size ≤ hole.position)
      (hg : slotAt b.insts hole = some g) :=
    mem_holes_or_inside hencloses hopen hyields hi hg
  refine ⟨?_, hadds.old, hentry, hopen.nodup, fun hole => ⟨fun hmem => ?_, fun hmem => ?_⟩,
    fun hole g hi hg hne => ?_, ?_⟩
  · obtain ⟨c, -, hlayout⟩ := exists_linked hopen hyields 0
    exact (hencloses _ _ _ _ hlayout).1
  · exact ⟨hopen.inside hole hmem, hopen.isOpen hole hmem⟩
  · rcases hgoto hmem.1 hmem.2 with hmem | ⟨m, hm, -⟩
    · exact hmem
    · exact absurd hm.symm (Goto.natCast_ne_hole m)
  · rcases hgoto hi hg with hmem | hm
    · exact absurd (Option.some.inj (hg.symm.trans (hopen.isOpen hole hmem))) hne
    · exact hm
  · obtain ⟨-, n, hsize, horigins⟩ :=
      (tagged_steps.ofTree_relates t (fun _ _ _ _ _ => trivial) a).of_ok h
    have hn : b.insts.size - a.insts.size = n := by omega
    rw [hn, horigins]

/-- A group that is entered twice at most, with an assertion in it, behind another pattern. -/
theorem isBlock_of_ofTree_lazy : ∃ f b,
    ofTree (.repeated (.group (.alt [.look .startLine, .epsilon]) true none) 0 (some 2) false)
      ⟨#[.accept 0], #[some 0], some 1, 2⟩ = .ok f b ∧
    f.holes = [⟨1, .first⟩, ⟨7, .first⟩, ⟨12, .next⟩] ∧
    b.insts = #[.accept 0, .split (-1) 2, .save 2 3, .split 4 5, .look .startLine 6, .nop 6,
      .save 3 7, .split (-1) 8, .save 4 9, .split 10 11, .look .startLine 12, .nop 12,
      .save 5 (-1)] ∧
    IsBlock ⟨#[.accept 0], #[some 0], some 1, 2⟩ f b := by
  have hrun : (match ofTree
      (.repeated (.group (.alt [.look .startLine, .epsilon]) true none) 0 (some 2) false)
      ⟨#[.accept 0], #[some 0], some 1, 2⟩ with
    | .ok f b => some (f.holes, b.insts)
    | .error _ _ => none) = some ([⟨1, .first⟩, ⟨7, .first⟩, ⟨12, .next⟩],
      #[.accept 0, .split (-1) 2, .save 2 3, .split 4 5, .look .startLine 6, .nop 6,
        .save 3 7, .split (-1) 8, .save 4 9, .split 10 11, .look .startLine 12, .nop 12,
        .save 5 (-1)]) := by decide +kernel
  split at hrun
  · next f b hok =>
    obtain ⟨hholes, hinsts⟩ := Prod.mk.inj (Option.some.inj hrun)
    exact ⟨f, b, hok, hholes, hinsts, isBlock_of_ofTree hok⟩
  · cases hrun

end Munch.AssemblyM
