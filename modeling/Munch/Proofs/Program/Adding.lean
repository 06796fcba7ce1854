/-
What one action may rely on after others have run. `Adds start a b` says that nothing before `start`
has changed, and `Open start b holes` that the holes are different, still open and not before
`start`; so a hole stays open for as long as the others only add behind it.
-/
import Munch.Proofs.Program.Growth

namespace Munch.AssemblyM

variable {a b c : Assembly} {start m n : Nat} {holes others : List Hole} {target : Goto}

/-- Instructions were added and holes filled, none of this before `start`. -/
structure Adds (start : Nat) (a b : Assembly) : Prop where
  start_le : start ≤ a.insts.size
  size_le : a.insts.size ≤ b.insts.size
  grows : Grows a.insts b.insts
  old : ∀ i < start, b.insts[i]? = a.insts[i]?

/-- The holes can be linked. -/
structure Open (start : Nat) (b : Assembly) (holes : List Hole) : Prop where
  inside : ∀ h ∈ holes, start ≤ h.position
  isOpen : ∀ h ∈ holes, slotAt b.insts h = some .hole
  nodup : holes.Nodup

theorem lt_size_of_slotAt {insts : Array Inst} {h : Hole} {g : Goto}
    (hs : slotAt insts h = some g) : h.position < insts.size := by
  obtain ⟨inst, hi, -⟩ := Option.bind_eq_some_iff.1 hs
  exact (Array.getElem?_eq_some_iff.1 hi).1

namespace Adds

theorem refl (h : start ≤ a.insts.size) : Adds start a a :=
  ⟨h, Nat.le_refl _, .refl _, fun _ _ => rfl⟩

theorem mono (h : Adds start a b) (hm : m ≤ start) : Adds m a b :=
  { h with
    start_le := Nat.le_trans hm h.start_le
    old := fun i hi => h.old i (Nat.lt_of_lt_of_le hi hm) }

theorem trans (h : Adds start a b) (h' : Adds start b c) : Adds start a c where
  start_le := h.start_le
  size_le := Nat.le_trans h.size_le h'.size_le
  grows := h.grows.trans h'.grows
  old i hi := (h'.old i hi).trans (h.old i hi)

/-- What follows may add behind the first addition only. -/
theorem append (h : Adds start a b) (h' : Adds b.insts.size b c) : Adds start a c :=
  h.trans (h'.mono (Nat.le_trans h.start_le h.size_le))

theorem push {inst : Inst} (hb : b.insts = a.insts.push inst) : Adds a.insts.size a b where
  start_le := Nat.le_refl _
  size_le := by simp [hb]
  grows := .of_eq fun i hi => by simp [hb, Array.getElem?_push, Nat.ne_of_lt hi]
  old i hi := by simp [hb, Array.getElem?_push, Nat.ne_of_lt hi]

end Adds

namespace Open

theorem nil : Open start b [] := ⟨by simp, by simp, .nil⟩

theorem mono (h : Open start b holes) (hm : m ≤ start) : Open m b holes :=
  { h with inside := fun hole hh => Nat.le_trans hm (h.inside hole hh) }

theorem lt_size (h : Open start b holes) {hole : Hole} (hh : hole ∈ holes) :
    hole.position < b.insts.size :=
  lt_size_of_slotAt (h.isOpen hole hh)

/-- Additions behind the holes leave them open. -/
theorem keep_of_lt (h : Open start a holes) (h' : Adds m a b) (hlt : ∀ x ∈ holes, x.position < m) :
    Open start b holes where
  inside := h.inside
  isOpen hole hh := by
    rw [slotAt_congr (h'.old _ (hlt hole hh))]
    exact h.isOpen hole hh
  nodup := h.nodup

theorem keep (h : Open start a holes) (h' : Adds a.insts.size a b) : Open start b holes :=
  h.keep_of_lt h' fun _ hx => h.lt_size hx

theorem subset (h : Open start b holes) (hsub : ∀ x ∈ others, x ∈ holes) (hn : others.Nodup) :
    Open start b others :=
  ⟨fun x hx => h.inside x (hsub x hx), fun x hx => h.isOpen x (hsub x hx), hn⟩

theorem head {hole : Hole} (h : Open start b (hole :: holes)) : Open start b [hole] :=
  h.subset (by simp) (by simp)

theorem tail {hole : Hole} (h : Open start b (hole :: holes)) : Open start b holes :=
  h.subset (fun _ hx => List.mem_cons_of_mem _ hx) (List.nodup_cons.1 h.nodup).2

theorem append (h : Open start b holes) (h' : Open m b others)
    (hlt : ∀ x ∈ holes, x.position < m) (hm : start ≤ m) : Open start b (holes ++ others) where
  inside x hx := by
    rcases List.mem_append.1 hx with hx | hx
    · exact h.inside x hx
    · exact Nat.le_trans hm (h'.inside x hx)
  isOpen x hx := by
    rcases List.mem_append.1 hx with hx | hx
    · exact h.isOpen x hx
    · exact h'.isOpen x hx
  nodup := by
    rw [List.nodup_append]
    refine ⟨h.nodup, h'.nodup, fun x hx y hy hxy => ?_⟩
    have hlt := hlt x hx
    have hle := h'.inside y hy
    rw [hxy] at hlt
    omega

theorem push {inst : Inst} (hb : b.insts = a.insts.push inst) (hn : holes.Nodup)
    (ho : ∀ h ∈ holes, h.position = a.insts.size ∧ inst.slot? h.slot = some .hole) :
    Open a.insts.size b holes where
  inside h hh := Nat.le_of_eq (ho h hh).1.symm
  isOpen h hh := by simp [slotAt, hb, (ho h hh).1, (ho h hh).2]
  nodup := hn

end Open

namespace Linked

/-- What leads to a position stays as it is. -/
theorem leads (h : Linked a b holes (n : Nat)) {insts : Array Inst} (hg : Grows b.insts insts) :
    ∀ x ∈ holes, slotAt insts x = some (n : Goto) :=
  fun x hx => hg.slotAt_eq (h.filled x hx) (Goto.natCast_ne_hole n)

theorem adds (h : Linked a b holes target) (ho : Open start a holes) (hs : start ≤ a.insts.size) :
    Adds start a b where
  start_le := hs
  size_le := Nat.le_of_eq h.size.symm
  grows := h.grows
  old i hi := h.old i fun x hx => by
    have := ho.inside x hx
    omega

theorem isOpen (h : Linked a b holes target) (ho : Open start a others)
    (hne : ∀ x ∈ others, x ∉ holes) : Open start b others :=
  { ho with isOpen := fun x hx => by rw [h.other x (hne x hx), ho.isOpen x hx] }

end Linked

theorem Open.link_ensures (h : Open start a holes) (target : Goto) :
    Ensures (link target holes) a (fun _ b => Linked a b holes target) fun _ _ => False :=
  AssemblyM.link_ensures h.nodup h.isOpen

theorem Open.linkHere_ensures (h : Open start a holes) :
    Ensures (linkHere holes) a (fun _ b => Linked a b holes a.insts.size) fun _ _ => False :=
  AssemblyM.linkHere_ensures h.nodup h.isOpen

end Munch.AssemblyM
