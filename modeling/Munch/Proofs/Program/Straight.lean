/-
Straight programs, which read one byte after the other and then end. A tree that spells bytes denotes
just these and has straight code (`Tree.Spells`), so the program of such a pattern alone is straight
(`straight_of_ofTrees`), and no step of its table has two cases.
-/
import Munch.Proofs.Program.Regions
import Munch.Proofs.Table.Explore
import Munch.Proofs.Table.Tidy
import Munch.Tree.Bars

namespace Munch

open Program

/-! ## Code -/

namespace Layout

variable {Ps : List Layout} {ws : List (List UInt8)}

/-- So many instructions in a row, each of which reads one byte. -/
def Straight (P : Layout) (n : Nat) : Prop :=
  ∀ (insts : Array Inst) (i j : Nat) (x : Goto), P insts i j x →
    j = i + n ∧ ∀ k, Between i j k → ∃ b next, insts[k]? = some (.char b next)

theorem straight_char (b : Int) : Straight (leaf (.char b)) 1 := by
  rintro insts i _ x ⟨hi, rfl⟩
  refine ⟨rfl, fun k hk => ?_⟩
  obtain rfl : k = i := by
    have := hk.1
    have := hk.2
    omega
  exact ⟨b, x, hi⟩

/-- One part for each word, as long as the word. -/
theorem straight_row (h : List.Forall₂ (fun P w => Straight P w.length) Ps ws) :
    Straight (row Ps) ws.flatten.length := by
  induction h with
  | nil =>
    rintro insts i _ x rfl
    exact ⟨rfl, fun k hk => absurd hk.2 (Nat.not_lt.2 hk.1)⟩
  | @cons P w Ps ws hP hPs ih =>
    rw [List.flatten_cons, List.length_append]
    cases hPs with
    | nil => exact hP
    | cons =>
      rintro insts i j x ⟨m, hfirst, hrest⟩
      obtain ⟨rfl, hbefore⟩ := hP insts i m m hfirst
      obtain ⟨rfl, hbehind⟩ := ih insts (i + w.length) j x hrest
      refine ⟨Nat.add_assoc i _ _, fun k hk => ?_⟩
      by_cases hkn : k < i + w.length
      · exact hbefore k ⟨hk.1, hkn⟩
      · exact hbehind k ⟨Nat.not_lt.1 hkn, hk.2⟩

end Layout

/-! ## Trees -/

theorem ByteSet.accepting_single (b : Int) : (single b).accepting = single b := by
  have hmerge : Interval.merge [Interval.single b] = [Interval.single b] :=
    Interval.merge_eq_self (List.pairwise_singleton _ _) (by simp [Interval.single])
  exact congrArg (ByteSet.mk · true) hmerge

namespace Tree

variable {t : Tree} {ts : List Tree} {w : List UInt8} {ws : List (List UInt8)}

/-- The tree is a row of bytes. -/
structure Spells (t : Tree) (w : List UInt8) : Prop where
  denotes : ∀ u, t.Denotes u ↔ u = w
  straight : t.layout.Straight w.length
  unbarred : t.isBarred = false

theorem spells_byte (b : UInt8) : Spells (.symbol (.single b.toNat)) [b] where
  denotes u := by
    have hcontains (c : UInt8) :
        (ByteSet.single b.toNat).contains c.toNat = true ↔ c = b := by
      simp [ByteSet.contains, ByteSet.single, Interval.single, ← UInt8.toNat_inj]
      omega
    simp only [Denotes, hcontains, exists_eq_right]
  straight := by
    rw [layout, ByteSet.accepting_single]
    show (if (b.toNat : Int) = b.toNat then _ else _ : Layout).Straight 1
    rw [if_pos rfl]
    exact Layout.straight_char _
  unbarred := by simp [isBarred]

theorem denotesSeq_spells (h : List.Forall₂ Spells ts ws) (u : List UInt8) :
    DenotesSeq ts u ↔ u = ws.flatten := by
  induction h generalizing u with
  | nil => rfl
  | @cons t w ts ws ht _ ih =>
    simp only [DenotesSeq, Language.seq, ht.denotes, ih, List.flatten_cons]
    constructor
    · rintro ⟨_, _, rfl, rfl, rfl⟩
      rfl
    · rintro rfl
      exact ⟨w, ws.flatten, rfl, rfl, rfl⟩

/-- Rows of bytes in a row. -/
theorem spells_concat (h : List.Forall₂ Spells ts ws) : Spells (.concat ts) ws.flatten where
  denotes u := by
    rw [Denotes]
    exact denotesSeq_spells h u
  straight := by
    have hlayouts : List.Forall₂ (fun P w => Layout.Straight P w.length) (layouts ts) ws := by
      induction h with
      | nil => exact .nil
      | cons ht _ ih => exact .cons ht.straight ih
    rw [layout]
    exact Layout.straight_row hlayouts
  unbarred := by
    rw [isBarred]
    induction h with
    | nil => rfl
    | cons ht _ ih => rw [isBarredRow, ht.unbarred, ih, Bool.and_false, Bool.or_false]

end Tree

/-! ## Programs -/

namespace Program

variable {p : Program} {t : Tree} {w : List UInt8} {patterns : List String} {i : Nat}

/-- Each instruction reads one byte, or ends a pattern. -/
def Straight (p : Program) : Prop :=
  ∀ (k : Nat) (inst : Inst), p.insts[k]? = some inst →
    (∃ b next, inst = .char b next) ∨ ∃ index, inst = .accept index

/-- The program of one row of bytes is straight, and has an instruction for each of them. -/
theorem straight_of_ofTrees (ht : t.Spells w) (h : ofTrees [t] patterns = .ok p) :
    p.Straight ∧ p.insts.size = w.length + 1 := by
  have hcompilable := compilable_of_ofTrees h
  obtain ⟨a, ha, rfl⟩ := chain_of_ofTrees h
  obtain ⟨start, hzero, hone, hall⟩ := AssemblyM.chain_regions hcompilable ha rfl
  obtain ⟨e, he, haccept, hcode⟩ := (hall 0 t rfl).holds
  rw [hzero] at hcode
  obtain ⟨rfl, hchars⟩ := ht.straight a.insts _ _ _ hcode
  have hsize : a.insts.size = w.length + 1 := by
    rw [← hone]
    refine he.trans ?_
    simp [Assembly.empty]
  refine ⟨fun k inst hk => ?_, hsize⟩
  obtain ⟨hlt, -⟩ := Array.getElem?_eq_some_iff.1 hk
  simp only [Assembly.empty, Array.size_empty, Nat.zero_add] at haccept hchars
  rcases Nat.lt_succ_iff_lt_or_eq.1 (hsize ▸ hlt) with hkw | rfl
  · obtain ⟨b, next, hchar⟩ := hchars k ⟨Nat.zero_le k, hkw⟩
    exact .inl ⟨b, next, Option.some.inj (hk.symm.trans hchar)⟩
  · exact .inr ⟨_, Option.some.inj (hk.symm.trans haccept)⟩

/-- From where nothing leads on without reading, a depth-first order has no more than that. -/
theorem DepthFirst.eq_singleton {inst : Inst} {order : List Nat}
    (h : p.DepthFirst [] [(i : Goto)] order) (hi : p.insts[i]? = some inst)
    (hedges : inst.edges = []) : order = [i] := by
  have hbelow : p.DepthFirst [i] inst.edges [] := by
    rw [hedges]
    exact .nil _
  exact h.unique (.visit List.not_mem_nil hi hbelow (.nil _))

/-- A byte instruction lists one case, and the end of a pattern none. -/
theorem Straight.tidy_of_listing {cases : List Case} (hp : p.Straight) (h : p.Listing [i] cases) :
    Tidy cases := by
  cases h with
  | @bytes _ rest _ inst ranges next t hi hreads _ hrest =>
    cases hrest
    rcases hp i inst hi with ⟨b, _, rfl⟩ | ⟨index, rfl⟩
    · obtain ⟨rfl, -⟩ := Prod.mk.inj (Option.some.inj hreads)
      exact ⟨⟨by simp, by simp [Interval.single]⟩, .singleton _⟩
    · cases hreads
  | other _ _ hrest =>
    cases hrest
    exact ⟨⟨.nil, by simp⟩, .nil⟩

end Program

/-! ## Tables -/

/-- The steps of a straight program are tidy, since none has two cases. -/
theorem DraftM.Built.tidy {p : Program} {d : Draft} (h : DraftM.Built p d) (hp : p.Straight)
    {s : StepId} {cases : List Case} (hs : d.steps.get? s = some cases) : Tidy cases := by
  obtain ⟨i, rfl, hstep⟩ := h.isStep s cases hs
  obtain ⟨inst, hi, -⟩ := hstep.settled i .refl
  obtain ⟨order, horder, hlisting⟩ := hstep.listing
  have hedges : inst.edges = [] := by
    rcases hp i inst hi with ⟨_, _, rfl⟩ | ⟨_, rfl⟩ <;> rfl
  obtain rfl := horder.eq_singleton hi hedges
  exact hp.tidy_of_listing hlisting

/-- There are no more steps than instructions. -/
theorem DraftM.Built.length_le {p : Program} {d : Draft} (h : DraftM.Built p d) {ids : List StepId}
    (hnodup : ids.Nodup) (hids : ∀ s ∈ ids, d.steps.get? s ≠ none) : ids.length ≤ p.insts.size := by
  have hsub : ids ⊆ (List.range p.insts.size).map Int.ofNat := by
    intro s hs
    obtain ⟨cases, hcases⟩ := Option.ne_none_iff_exists'.1 (hids s hs)
    obtain ⟨k, rfl, hstep⟩ := h.isStep s cases hcases
    obtain ⟨inst, hk, -⟩ := hstep.settled k .refl
    exact List.mem_map_of_mem (List.mem_range.2 (Array.getElem?_eq_some_iff.1 hk).1)
  have hle := (List.subperm_of_subset hnodup hsub).length_le
  rwa [List.length_map, List.length_range] at hle

end Munch
