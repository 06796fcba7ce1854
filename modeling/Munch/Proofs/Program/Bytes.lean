/-
Programs of well-formed trees read bytes. Adding instructions that read bytes and filling holes keeps
that (`onBytes_steps`), and the sets of a well-formed tree are made of bytes.
-/
import Munch.Proofs.Program.Turns
import Munch.Proofs.Tree.WellFormed

namespace Munch

/-- All that the instruction reads are bytes. -/
def Inst.OnBytes (inst : Inst) : Prop :=
  ∀ ranges next, inst.reads? = some (ranges, next) →
    ∀ r ∈ ranges, r.Within Interval.minByte Interval.maxByte

theorem Inst.onBytes_of_reads_none {inst : Inst} (h : inst.reads? = none) : inst.OnBytes := by
  intro ranges next hr
  rw [h] at hr
  cases hr

/-- A goto has nothing to do with what is read. -/
theorem Inst.OnBytes.goto {inst inst' : Inst} {target : Goto} {slot : Slot} (h : inst.OnBytes)
    (hg : inst.goto? target slot = some inst') : inst'.OnBytes := by
  cases inst <;> cases slot <;> simp only [Inst.goto?, Option.some.injEq, reduceCtorEq] at hg
  all_goals subst hg
  all_goals intro ranges next hr
  case char.next | span.next | oneOf.next =>
    obtain ⟨rfl, -⟩ := Prod.mk.inj (Option.some.inj hr)
    exact h _ _ rfl
  all_goals cases hr

namespace Tree

mutual

theorem WellFormed.sets : (t : Tree) → t.WellFormed → ∀ s ∈ t.sets, s.WellFormed
  | .epsilon, _, _, hs | .look _, _, _, hs => nomatch hs
  | .symbol _, .symbol h, _, hs => List.mem_singleton.1 hs ▸ h
  | .concat items, .concat _ h, s, hs => WellFormed.setsAll items h s hs
  | .alt items, .alt _ h, s, hs => WellFormed.setsAll items h s hs
  | .repeated body _ _ _, .repeated h _ _, s, hs => WellFormed.sets body h s hs
  | .group body _ _, .group h, s, hs => WellFormed.sets body h s hs

theorem WellFormed.setsAll : (ts : List Tree) → (∀ t ∈ ts, t.WellFormed) →
    ∀ s ∈ Tree.setsAll ts, s.WellFormed
  | [], _, _, hs => nomatch hs
  | t :: ts, h, s, hs => by
    rw [Tree.setsAll] at hs
    rcases List.mem_append.1 hs with hs | hs
    · exact WellFormed.sets t (h t (by simp)) s hs
    · exact WellFormed.setsAll ts (fun u hu => h u (by simp [hu])) s hs

end

end Tree

namespace AssemblyM

/-- All instructions so far read bytes. -/
def OnBytes (a : Assembly) : Prop := ∀ inst ∈ a.insts, inst.OnBytes

theorem onBytes_steps : Steps (fun a b => OnBytes a → OnBytes b) Inst.OnBytes where
  refl _ ha := ha
  trans _ _ _ hab hbc ha := hbc (hab ha)
  silent _ h _ := Inst.onBytes_of_reads_none h
  push a inst hinst ha inst' hmem := by
    rcases Array.mem_push.1 hmem with hmem | rfl
    · exact ha inst' hmem
    · exact hinst
  fill a hole inst inst' target hi hg ha inst₁ hmem := by
    rcases Array.mem_or_eq_of_mem_setIfInBounds hmem with hmem | rfl
    · exact ha inst₁ hmem
    · exact (ha inst (Array.mem_of_getElem? hi)).goto hg
  take _ _ ha := ha

theorem chain_onBytes (index : Nat) {ts : List Tree} (h : ∀ t ∈ ts, t.WellFormed) :
    Relates (fun a b => OnBytes a → OnBytes b) (chain index ts) := by
  induction ts generalizing index with
  | nil => exact onBytes_steps.done ()
  | cons t ts ih =>
    rw [chain_cons]
    have hsets := Tree.WellFormed.sets t (h t (by simp))
    refine onBytes_steps.bind (fun a => ?_) fun _ => ih (index + 1) fun u hu => h u (by simp [hu])
    refine onBytes_steps.turn_relates (fun s hs inst next hr => ?_)
      (Inst.onBytes_of_reads_none rfl) a
    intro ranges next' hr'
    obtain ⟨rfl, -⟩ := Prod.mk.inj (Option.some.inj (hr.symm.trans hr'))
    exact (hsets s hs).accepting

end AssemblyM

/-- A program of well-formed trees reads bytes only. -/
theorem Program.onBytes_of_ofTrees {trees : List Tree} {patterns : List String} {p : Program}
    (hwf : ∀ t ∈ trees, t.WellFormed) (h : Program.ofTrees trees patterns = .ok p) :
    ∀ inst ∈ p.insts, inst.OnBytes := by
  have hchain := AssemblyM.chain_onBytes 0 hwf .empty
  unfold Program.ofTrees at h
  split at h
  · next a heq =>
    obtain rfl := Except.ok.inj h
    exact hchain.of_ok heq fun inst hmem => nomatch hmem
  · cases h

end Munch
