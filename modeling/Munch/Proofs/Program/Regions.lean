/-
Programs of sets are cut into regions. The patterns were added one behind the other, so the
instructions of a pattern lie in a row, with its end as the last of them, and the only way out of
them is the split in front that leads to the next pattern (`Program.Regions`). As no goto is left
open and idle instructions lead forwards, the program can be skipped from everywhere
(`Program.ofTrees_regions`).
-/
import Mathlib.Logic.Relation
import Munch.Proofs.Answers
import Munch.Proofs.Program.Closed
import Munch.Proofs.Program.Compilable

namespace Munch

open Program

/-! ## Ends -/

theorem Inst.ne_accept_of_goto? {inst inst' : Inst} {target : Goto} {slot : Slot}
    (h : inst.goto? target slot = some inst') (last : Int) : inst' ≠ .accept last := by
  rintro rfl
  cases inst <;> cases slot <;> simp [Inst.goto?] at h

theorem Grows.accept {a b : Array Inst} (h : Grows a b) {k : Nat} {last : Int} (hk : k < a.size)
    (hb : b[k]? = some (.accept last)) : a[k]? = some (.accept last) := by
  have ha : a[k]? = some a[k] := Array.getElem?_eq_getElem hk
  obtain ⟨inst, hinst, hr⟩ := h k _ ha
  obtain rfl := Option.some.inj (hinst.symm.trans hb)
  cases heq : a[k] with
  | accept last' =>
    rw [heq] at hr
    obtain rfl := Inst.accept.inj hr
    rw [ha, heq]
  | save | split | look | char | span | oneOf | nop =>
    rw [heq] at hr
    obtain ⟨_, hr⟩ := hr
    simp at hr

namespace AssemblyM

variable {a b c d : Assembly} {index i j k : Nat} {t : Tree} {ts : List Tree} {isLast : Bool}

/-- No end of a pattern is added. -/
def KeepsEnds (a b : Assembly) : Prop :=
  ∀ (k : Nat) (last : Int), b.insts[k]? = some (.accept last) → a.insts[k]? = some (.accept last)

/-- At most one end is added, which is that of the pattern. -/
def AddsEnd (index : Nat) (a b : Assembly) : Prop :=
  ∃ e, ∀ (k : Nat) (last : Int), b.insts[k]? = some (.accept last) →
    a.insts[k]? = some (.accept last) ∨ k = e ∧ last = index

theorem keepsEnds_steps : Steps KeepsEnds fun inst => ∀ last, inst ≠ .accept last where
  refl _ _ _ h := h
  trans _ _ _ hab hbc k last h := hab k last (hbc k last h)
  silent _ _ hne := hne
  push a inst hne k last h := by
    rw [Array.getElem?_push] at h
    split at h
    · exact absurd (Option.some.inj h) (hne last)
    · exact h
  fill a hole inst inst' target hi hg k last h := by
    rw [Array.set!_eq_setIfInBounds, Array.getElem?_setIfInBounds] at h
    split at h
    · split at h
      · exact absurd (Option.some.inj h) (Inst.ne_accept_of_goto? hg last)
      · cases h
    · exact h
  take _ _ _ _ h := h

theorem AddsEnd.after (h : KeepsEnds a b) (h' : AddsEnd index b c) : AddsEnd index a c :=
  h'.imp fun _ he k last hk => (he k last hk).imp_left (h k last)

theorem AddsEnd.before (h : AddsEnd index a b) (h' : KeepsEnds b c) : AddsEnd index a c :=
  h.imp fun _ he k last hk => he k last (h' k last hk)

theorem finish_addsEnd (index : Nat) (t : Tree) (a : Assembly) :
    Ensures (finish index t) a (fun _ b => AddsEnd index a b) fun _ _ => True := by
  have htree : Relates KeepsEnds (ofTree t) := by
    refine keepsEnds_steps.ofTree_relates t fun s _ inst next hr last heq => ?_
    subst heq
    cases hr
  refine (htree a).bind fun f b hb => ?_
  refine (keepsEnds_steps.linkHere_relates f.holes b).bind fun _ c hc => ?_
  refine push_ensures.bind fun n d hd => ensures_pure (.after hb (.after hc ?_))
  refine ⟨c.insts.size, fun k last hk => ?_⟩
  rw [hd.2, Array.getElem?_push] at hk
  split at hk
  · next hkn => exact .inr ⟨hkn, (Inst.accept.inj (Option.some.inj hk)).symm⟩
  · exact .inl hk

theorem turn_addsEnd (index : Nat) (t : Tree) (isLast : Bool) (a : Assembly) :
    Ensures (turn index t isLast) a (fun _ b => AddsEnd index a b) fun _ _ => True := by
  refine ensures_modify_bind ?_
  cases isLast with
  | true => exact (finish_addsEnd index t _).mono fun _ _ hb => hb
  | false =>
    refine (keepsEnds_steps.split_relates _).bind fun split b hb => ?_
    refine (keepsEnds_steps.linkHere_relates [⟨split, .first⟩] b).bind fun _ c hc => ?_
    refine (finish_addsEnd index t c).bind fun _ d hd => ?_
    refine (keepsEnds_steps.linkHere_relates [⟨split, .second⟩] d).mono fun _ e he => ?_
    exact .after hb (.after hc (hd.before he))

/-! ## Regions -/

/-- All but the last pattern lie behind their split, and go on among themselves. -/
theorem Holds.covered {p : Program} (h : Holds p.insts index t isLast i j) (ht : t.Compilable) :
    ∃ first, (if isLast then first = i else first = i + 1 ∧ p.insts[i]? = some (.split first j)) ∧
      first < j ∧ Covered p.insts first j (Between first j) fun _ => False := by
  obtain ⟨k, rfl, hk, hcode⟩ := h
  cases isLast with
  | true => exact ⟨i, rfl, covered_finish ht hcode hk⟩
  | false => exact ⟨i + 1, ⟨rfl, hcode.1⟩, covered_finish ht hcode.2 hk⟩

theorem Holds.lt {p : Program} (h : Holds p.insts index t isLast i j) (ht : t.Compilable) :
    i < j := by
  obtain ⟨first, hfirst, hlt, -⟩ := h.covered ht
  split at hfirst
  · omega
  · omega

/-- An instruction of the region goes on in the region, or it is the split in front of the pattern. -/
theorem Holds.inside {p : Program} (h : Holds p.insts index t isLast i j) (ht : t.Compilable)
    (hk : Between i j k) :
    Lands p.insts (Between i j) (fun _ => False) k ∨
      isLast = false ∧ k = i ∧ i + 1 < j ∧ p.insts[i]? = some (.split (i + 1 : Nat) j) := by
  obtain ⟨first, hfirst, hlt, hcovered⟩ := h.covered ht
  by_cases hfk : first ≤ k
  · refine .inl ((hcovered k hfk hk.2).mono fun m hm => ⟨Nat.le_trans ?_ hm.1, hm.2⟩)
    split at hfirst
    · exact hfirst.ge
    · exact hfirst.1 ▸ Nat.le_succ i
  · cases isLast with
    | true => exact absurd (hfirst ▸ hk.1) hfk
    | false =>
      obtain ⟨rfl, hsplit⟩ := hfirst
      have hik := hk.1
      exact .inr ⟨rfl, by omega, hlt, hsplit⟩

/-- From the region one goes on in the region or to what lies behind it. -/
theorem Holds.lands {p : Program} {S : Nat → Prop} (h : Holds p.insts index t isLast i j)
    (ht : t.Compilable) (hk : Between i j k) (hS : ∀ m, Between i j m → S m)
    (hj : isLast = false → S j) : Lands p.insts S (fun _ => False) k := by
  rcases h.inside ht hk with hlands | ⟨hlast, rfl, hlt, hsplit⟩
  · exact hlands.mono hS
  · exact Forks.lands (.inl hsplit) (.inr ⟨k + 1, rfl, hS _ ⟨Nat.le_succ k, hlt⟩⟩)
      (.inr ⟨j, rfl, hj hlast⟩)

end AssemblyM

theorem Inst.mem_gotos {inst : Inst} {slot : Slot} {g : Goto} (h : inst.slot? slot = some g) :
    g ∈ inst.gotos := by
  cases inst <;> cases slot <;> simp_all [Inst.slot?, Inst.gotos]

namespace AssemblyM

variable {a b c d : Assembly} {index i j k : Nat} {t : Tree} {ts : List Tree} {isLast : Bool}

/-- A goto that leads out of the region is the second one of its split. -/
theorem Holds.slot {p : Program} {inst : Inst} {slot : Slot} {g : Goto}
    (h : Holds p.insts index t isLast i j) (ht : t.Compilable) (hk : Between i j k)
    (hi : p.insts[k]? = some inst) (hs : inst.slot? slot = some g) :
    (∃ m : Nat, g = m ∧ Between i j m) ∨ isLast = false ∧ k = i ∧ slot = .second ∧ g = j := by
  rcases h.inside ht hk with ⟨inst', hi', hgotos⟩ | ⟨hlast, rfl, hlt, hsplit⟩
  · obtain rfl := Option.some.inj (hi.symm.trans hi')
    obtain ⟨m, rfl, hm, -⟩ := (hgotos g (Inst.mem_gotos hs)).resolve_left id
    exact .inl ⟨m, rfl, hm⟩
  · obtain rfl := Option.some.inj (hi.symm.trans hsplit)
    cases slot with
    | next => cases hs
    | first => exact .inl ⟨k + 1, (Option.some.inj hs).symm, Nat.le_succ k, hlt⟩
    | second => exact .inr ⟨hlast, rfl, rfl, (Option.some.inj hs).symm⟩

/-- The positions from one up to another belong to the pattern, in a program in the making. -/
structure IsRegion (b : Assembly) (index : Nat) (t : Tree) (isLast : Bool) (i j : Nat) : Prop where
  holds : Holds b.insts index t isLast i j
  origins : ∀ k, Between i j k → b.origins[k]? = some (some index)
  ends : ∀ (k : Nat) (last : Int), Between i j k → b.insts[k]? = some (.accept last) →
    k + 1 = j ∧ last = index

/-- The turn of a pattern makes a region, whatever comes behind it. -/
theorem isRegion_of_turn {tags : Array (Option Nat)} (ht : t.Compilable)
    (h : turn index t isLast a = .ok () b) (hsize : a.origins.size = a.insts.size)
    (hgrows : Grows b.insts c.insts) (htags : c.origins = b.origins ++ tags) :
    IsRegion c index t isLast a.insts.size b.insts.size := by
  have hheld := ((turn_ensures index t isLast a).of_ok h).2
  have hlt : a.insts.size < b.insts.size :=
    Holds.lt (p := ⟨c.insts, 0, [], []⟩) (hheld c.insts hgrows) ht
  refine ⟨hheld c.insts hgrows, fun k hk => ?_, fun k last hk hlast => ?_⟩
  · obtain ⟨n, hb, horigins⟩ := turn_tagged h
    obtain ⟨hak, hkb⟩ := hk
    have hbsize : b.origins.size = b.insts.size := by
      rw [horigins, Array.size_append, Array.size_replicate, hsize, hb]
    rw [htags, Array.getElem?_append_left (by omega), horigins,
      Array.getElem?_append_right (by omega), Array.getElem?_replicate, if_pos (by omega)]
  · obtain ⟨e, he⟩ := (turn_addsEnd index t isLast a).of_ok h
    -- the turn adds one end at most, and it adds the one that the region ends with
    have hnew {m : Nat} {last : Int} (hm : a.insts.size ≤ m)
        (hmlast : b.insts[m]? = some (.accept last)) : m = e ∧ last = index := by
      refine (he m last hmlast).resolve_left fun hold => ?_
      rw [Array.getElem?_eq_none hm] at hold
      cases hold
    obtain ⟨m, hm, hmlast, -⟩ := hheld b.insts (.refl _)
    obtain ⟨rfl, -⟩ := hnew (by omega) hmlast
    obtain ⟨rfl, rfl⟩ := hnew hk.1 (hgrows.accept hk.2 hlast)
    exact ⟨hm.symm, rfl⟩

/-- Compiling patterns makes a region for each of them. -/
theorem chain_regions (hts : ∀ t ∈ ts, t.Compilable) (h : chain index ts a = .ok () b)
    (hsize : a.origins.size = a.insts.size) :
    ∃ start : Nat → Nat, start 0 = a.insts.size ∧ start ts.length = b.insts.size ∧
      ∀ n t, ts[n]? = some t →
        IsRegion b (index + n) t (ts.drop (n + 1)).isEmpty (start n) (start (n + 1)) := by
  induction ts generalizing index a with
  | nil =>
    cases h
    exact ⟨fun _ => b.insts.size, rfl, rfl, by simp⟩
  | cons t ts ih =>
    obtain ⟨c, hturn, hrest⟩ := chain_cons_eq_ok.1 h
    obtain ⟨n, hc, horigins⟩ := turn_tagged hturn
    have hcsize : c.origins.size = c.insts.size := by
      rw [horigins, Array.size_append, Array.size_replicate, hsize, hc]
    obtain ⟨start, hfirst, hlast, hall⟩ := ih (fun u hu => hts u (by simp [hu])) hrest hcsize
    obtain ⟨tags, -, htags, -⟩ := chain_tags hrest
    have hgrows := ((chain_ensures (index + 1) ts c).of_ok hrest).1.grows
    refine ⟨fun n => n.casesOn a.insts.size start, rfl, hlast, fun n u hu => ?_⟩
    cases n with
    | zero =>
      obtain rfl := Option.some.inj hu
      have hregion := isRegion_of_turn (hts t (by simp)) hturn hsize hgrows htags
      rw [← hfirst] at hregion
      exact hregion
    | succ n =>
      have hregion := hall n u hu
      rw [Nat.add_right_comm] at hregion
      exact hregion

end AssemblyM

namespace Program

variable {p : Program} {trees : List Tree} {patterns : List String} {start : Nat → Nat}
  {count i j k n : Nat} {S : Nat → Prop}

/-- The program is cut into so many regions. Region `i` has the positions from `start i` up to
`start (i + 1)`. -/
structure Regions (p : Program) (count : Nat) (start : Nat → Nat) : Prop where
  start_zero : start 0 = 0
  start_count : start count = p.insts.size
  start_lt : ∀ i < count, start i < start (i + 1)
  /-- The instructions of a region come from its pattern. -/
  origins : ∀ i < count, ∀ k, Between (start i) (start (i + 1)) k → p.origins[k]? = some (some i)
  /-- The end of its pattern is the last instruction of a region, which has no other end. -/
  ends : ∀ i < count, ∀ k, Between (start i) (start (i + 1)) k → ∀ last,
    p.insts[k]? = some (.accept last) ↔ k + 1 = start (i + 1) ∧ last = i
  /-- A region opens with a split that leads to the next one, if there is one. -/
  opens : ∀ i, i + 1 < count → ∃ first, p.insts[start i]? = some (.split first (start (i + 1)))
  /-- No other goto leads out of a region. -/
  gotos : ∀ i < count, ∀ k, Between (start i) (start (i + 1)) k → ∀ inst slot g,
    p.insts[k]? = some inst → inst.slot? slot = some g →
      (∃ m : Nat, g = m ∧ Between (start i) (start (i + 1)) m) ∨
        i + 1 < count ∧ k = start i ∧ slot = .second ∧ g = start (i + 1)

namespace Regions

/-- Every position lies in a region. -/
theorem exists_between (h : p.Regions count start) (hk : k < p.insts.size) :
    ∃ i < count, Between (start i) (start (i + 1)) k := by
  have hcut (n : Nat) (hn : k < start n) : ∃ i < n, Between (start i) (start (i + 1)) k := by
    induction n with
    | zero => exact absurd (h.start_zero ▸ hn) (Nat.not_lt_zero k)
    | succ n ih =>
      rcases Nat.lt_or_ge k (start n) with hlt | hge
      · obtain ⟨i, hi, hki⟩ := ih hlt
        exact ⟨i, by omega, hki⟩
      · exact ⟨n, Nat.lt_succ_self n, hge, hn⟩
  exact hcut count (h.start_count ▸ hk)

theorem start_mono (h : p.Regions count start) (hij : i ≤ j) (hj : j ≤ count) :
    start i ≤ start j := by
  induction j, hij using Nat.le_induction with
  | base => exact Nat.le_refl _
  | succ j _ ih => exact Nat.le_trans (ih (by omega)) (Nat.le_of_lt (h.start_lt j (by omega)))

/-- Regions lie inside of the program. -/
theorem lt_size (h : p.Regions count start) (hi : i < count)
    (hk : Between (start i) (start (i + 1)) k) : k < p.insts.size := by
  have hle : start (i + 1) ≤ start count := h.start_mono hi (Nat.le_refl _)
  have hlt := hk.2
  rw [h.start_count] at hle
  omega

/-- Later instructions come from later patterns. -/
theorem le_of_le {m n : Nat} (h : p.Regions count start) (hlength : p.origins.length = p.insts.size)
    (hjk : j ≤ k) (hj : p.origins[j]? = some (some m)) (hk : p.origins[k]? = some (some n)) :
    m ≤ n := by
  have hlt {k n : Nat} (hk : p.origins[k]? = some (some n)) :
      n < count ∧ Between (start n) (start (n + 1)) k := by
    obtain ⟨hksize, -⟩ := List.getElem?_eq_some_iff.1 hk
    obtain ⟨i, hi, hki⟩ := h.exists_between (hlength ▸ hksize)
    obtain rfl : i = n := by simpa [h.origins i hi k hki] using hk
    exact ⟨hi, hki⟩
  obtain ⟨hm, hmj, -⟩ := hlt hj
  obtain ⟨-, -, hkn⟩ := hlt hk
  by_contra hmn
  have hle : start (n + 1) ≤ start m := h.start_mono (by omega) hm.le
  omega

/-- No goto is open, and none leads out of the program. -/
theorem exists_target {inst : Inst} {slot : Slot} {g : Goto} (h : p.Regions count start)
    (hi : p.insts[k]? = some inst) (hs : inst.slot? slot = some g) :
    ∃ m : Nat, g = m ∧ m < p.insts.size := by
  obtain ⟨i, hlt, hk⟩ := h.exists_between (Array.getElem?_eq_some_iff.1 hi).1
  rcases h.gotos i hlt k hk inst slot g hi hs with ⟨m, rfl, hm⟩ | ⟨hnext, -, -, rfl⟩
  · exact ⟨m, rfl, h.lt_size hlt hm⟩
  · exact ⟨start (i + 1), rfl, h.lt_size hnext ⟨Nat.le_refl _, h.start_lt _ hnext⟩⟩

end Regions

/-! ## Chains of idle instructions -/

/-- From an idle instruction to where it goes on. -/
def Idles (p : Program) (i j : Nat) : Prop := p.insts[i]? = some (.nop j)

/-- What is skipped are idle instructions. -/
theorem idles_of_skipUpTo (h : p.skipUpTo n i = .ok j) : Relation.ReflTransGen p.Idles i j := by
  induction n generalizing i with
  | zero =>
    obtain rfl := Except.ok.inj h
    exact .refl
  | succ n ih =>
    rcases skipUpTo_succ h with ⟨k, hk, h⟩ | ⟨-, -, -, rfl⟩
    · exact .head hk (ih h)
    · exact .refl

/-- A chain of idle instructions leads forwards, or ends at one that is not idle. -/
theorem Closed.idles_lt (h : p.Closed S) (hi : S i) (hij : Relation.TransGen p.Idles i j) :
    S j ∧ (i < j ∨ Acts p.insts j) := by
  have hstep {k m : Nat} (hk : S k) (hkm : p.Idles k m) : S m ∧ (k < m ∨ Acts p.insts m) := by
    obtain ⟨inst, hinst, hgotos⟩ := h k hk
    obtain rfl := Option.some.inj (hinst.symm.trans hkm)
    obtain ⟨m', hm', hm, hon⟩ := (hgotos m (by simp [Inst.gotos])).resolve_left id
    obtain rfl := Goto.natCast_inj.1 hm'
    rcases hon with hlt | hacts | hne
    · exact ⟨hm, .inl hlt⟩
    · exact ⟨hm, .inr hacts⟩
    · exact absurd rfl (hne _)
  induction hij with
  | single hij => exact hstep hi hij
  | tail _ hjk ih =>
    obtain ⟨hj, hlt | ⟨inst, hinst, hne⟩⟩ := ih
    · obtain ⟨hk, hjk⟩ := hstep hj hjk
      exact ⟨hk, hjk.imp_left (Nat.lt_trans hlt)⟩
    · exact absurd (Option.some.inj (hinst.symm.trans hjk)) (hne _)

/-- Idle instructions never lead back. -/
theorem Closed.not_idles_self (h : p.Closed S) (hk : S k) : ¬Relation.TransGen p.Idles k k := by
  intro hkk
  obtain ⟨-, hlt | ⟨inst, hinst, hne⟩⟩ := h.idles_lt hk hkk
  · exact Nat.lt_irrefl k hlt
  · obtain ⟨m, hkm, -⟩ := Relation.TransGen.head'_iff.1 hkk
    exact absurd (Option.some.inj (hinst.symm.trans hkm)) (hne _)

/-! ## Programs of trees -/

theorem isEmpty_drop_eq_false : (trees.drop (i + 1)).isEmpty = false ↔ i + 1 < trees.length := by
  simp [List.isEmpty_eq_false_iff]

/-- The regions of the patterns, one behind the other, are the regions of the program. -/
theorem regions_of_isRegion {a : Assembly} (ht : ∀ t ∈ trees, t.Compilable) (hzero : start 0 = 0)
    (hcount : start trees.length = a.insts.size)
    (hregion : ∀ i (hi : i < trees.length),
      AssemblyM.IsRegion a i trees[i] (trees.drop (i + 1)).isEmpty (start i) (start (i + 1))) :
    Regions ⟨a.insts, 0, patterns, a.origins.toList⟩ trees.length start where
  start_zero := hzero
  start_count := hcount
  start_lt i hi :=
    (hregion i hi).holds.lt (p := ⟨a.insts, 0, patterns, a.origins.toList⟩)
      (ht _ (List.getElem_mem hi))
  origins i hi k hk := by
    rw [Array.getElem?_toList]
    exact (hregion i hi).origins k hk
  ends i hi k hk last := by
    refine ⟨(hregion i hi).ends k last hk, ?_⟩
    rintro ⟨hend, rfl⟩
    obtain ⟨e, he, haccept, -⟩ := (hregion i hi).holds
    obtain rfl : k = e := by omega
    exact haccept
  opens i hi := by
    have hholds := (hregion i (Nat.lt_of_succ_lt hi)).holds
    rw [isEmpty_drop_eq_false.2 hi] at hholds
    obtain ⟨e, -, -, hsplit, -⟩ := hholds
    exact ⟨_, hsplit⟩
  gotos i hi k hk inst slot g hinst hslot := by
    have hout := (hregion i hi).holds.slot (p := ⟨a.insts, 0, patterns, a.origins.toList⟩)
      (ht _ (List.getElem_mem hi)) hk hinst hslot
    rw [isEmpty_drop_eq_false] at hout
    exact hout

/-- The program of some trees has a region for each of them, and can be followed from everywhere. -/
theorem exists_regions (h : ofTrees trees patterns = .ok p) :
    (∃ start, p.Regions trees.length start) ∧ p.origins.length = p.insts.size ∧
      p.Closed (· < p.insts.size) := by
  have ht := compilable_of_ofTrees h
  obtain ⟨a, ha, rfl⟩ := chain_of_ofTrees h
  obtain ⟨start, hzero, hcount, hall⟩ := AssemblyM.chain_regions ht ha rfl
  have hregion (i : Nat) (hi : i < trees.length) :
      AssemblyM.IsRegion a i trees[i] (trees.drop (i + 1)).isEmpty (start i) (start (i + 1)) := by
    have hregion := hall i trees[i] (List.getElem?_eq_getElem hi)
    rw [Nat.zero_add] at hregion
    exact hregion
  have hregions : Regions ⟨a.insts, 0, patterns, a.origins.toList⟩ trees.length start :=
    regions_of_isRegion ht hzero hcount hregion
  refine ⟨⟨start, hregions⟩, ?_, fun k hk => ?_⟩
  · obtain ⟨tags, hsize, horigins, -⟩ := AssemblyM.chain_tags ha
    rw [Array.length_toList, horigins, hsize, Array.size_append]
    rfl
  · obtain ⟨i, hi, hki⟩ := hregions.exists_between hk
    refine (hregion i hi).holds.lands (p := ⟨a.insts, 0, patterns, a.origins.toList⟩)
      (ht _ (List.getElem_mem hi)) hki (fun m hm => hregions.lt_size hi hm) fun hnext => ?_
    have hnext := isEmpty_drop_eq_false.1 hnext
    exact hregions.lt_size hnext ⟨Nat.le_refl _, hregions.start_lt _ hnext⟩

/-- Compiled programs are closed and cut into regions, one for each pattern, in order. No goto is
open, and the idle instructions from any position on never run in a circle: they end, at an
instruction which is not idle. -/
theorem ofTrees_regions (h : ofTrees trees patterns = .ok p) :
    (∃ start, p.Regions trees.length start) ∧
      p.origins.length = p.insts.size ∧
      (∀ j k m n : Nat, j ≤ k → p.origins[j]? = some (some m) → p.origins[k]? = some (some n) →
        m ≤ n) ∧
      (∀ (k : Nat) (inst : Inst) slot g, p.insts[k]? = some inst → inst.slot? slot = some g →
        ∃ m : Nat, g = m ∧ m < p.insts.size) ∧
      (∀ k, ¬Relation.TransGen p.Idles k k) ∧
      ∀ k < p.insts.size, ∃ j, p.skip k = .ok j ∧ Relation.ReflTransGen p.Idles k j ∧
        Acts p.insts j := by
  obtain ⟨⟨start, hregions⟩, hlength, hclosed⟩ := exists_regions h
  refine ⟨⟨start, hregions⟩, hlength, fun j k m n => hregions.le_of_le hlength,
    fun k inst slot g => hregions.exists_target, fun k hkk => ?_, fun k hk => ?_⟩
  · obtain ⟨m, hkm, -⟩ := Relation.TransGen.head'_iff.1 hkk
    exact hclosed.not_idles_self (Array.getElem?_eq_some_iff.1 hkm).1 hkk
  · obtain ⟨j, hj, -, hacts⟩ := hclosed.skip hk
    exact ⟨j, hj, idles_of_skipUpTo hj, hacts⟩

/-- A loop with an idle instruction on its way back, and a pattern that is idle up to its end. -/
theorem ofTrees_regions_idle : ∃ p start,
    ofTrees [.repeated (.alt [.epsilon, .symbol (.single 97)]) 0 none true,
      .repeated (.symbol (.single 98)) 0 (some 0) true] ["(?:|a)*", "b{0}"] = .ok p ∧
    p.Regions 2 start ∧ start 1 = 6 ∧
    p.Idles 3 1 ∧ ¬Relation.TransGen p.Idles 3 3 ∧ p.skip 6 = .ok 7 ∧ Acts p.insts 7 := by
  have hrun : (ofTrees [.repeated (.alt [.epsilon, .symbol (.single 97)]) 0 none true,
      .repeated (.symbol (.single 98)) 0 (some 0) true] ["(?:|a)*", "b{0}"]).toOption.map
        (fun p => (p.insts, (p.skip 6).toOption)) =
      some (#[.split 1 6, .split 2 5, .split 3 4, .nop 1, .char 97 1, .accept 0, .nop 7, .accept 1],
        some 7) := by decide +kernel
  obtain ⟨p, hp, hrun⟩ := Option.map_eq_some_iff.1 hrun
  obtain ⟨hinsts, hskip⟩ := Prod.mk.inj hrun
  replace hskip := toOption_eq_some.1 hskip
  have hok := toOption_eq_some.1 hp
  obtain ⟨⟨start, hregions⟩, -, -, -, hacyclic, hends⟩ := ofTrees_regions hok
  refine ⟨p, start, hok, hregions, ?_, by simp [Idles, hinsts], hacyclic 3, hskip, ?_⟩
  · obtain ⟨first, hopens⟩ := hregions.opens 0 (by decide)
    rw [hregions.start_zero, hinsts] at hopens
    have hsplit := Inst.split.inj (Option.some.inj hopens)
    exact (Int.ofNat.inj hsplit.2).symm
  · obtain ⟨j, hj, -, hacts⟩ := hends 6 (by simp [hinsts])
    obtain rfl := Except.ok.inj (hskip.symm.trans hj)
    exact hacts

end Program

end Munch
