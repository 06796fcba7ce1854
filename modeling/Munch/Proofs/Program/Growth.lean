/-
How programs in the making change. Instructions are added behind the others, and holes are filled;
nothing else happens. `Grows a b` says that `b` is `a` after such changes, and `Linked` what a link
does to the instructions. The goto of a hole is its value under `slotAt`.
-/
import Munch.Program.Assembly
import Munch.Proofs.Ensures

namespace Munch

/-- The goto in a slot, if the instruction has that slot. -/
def Inst.slot? : Slot → Inst → Option Goto
  | .next, .save _ next | .next, .look _ next | .next, .char _ next | .next, .span _ next
  | .next, .oneOf _ next | .next, .nop next => some next
  | .first, .split first _ => some first
  | .second, .split _ second => some second
  | _, _ => none

theorem Goto.natCast_ne_hole (n : Nat) : (n : Goto) ≠ .hole := by
  show (n : Int) ≠ -1
  omega

/-- The goto stays as it is, unless it is a hole. -/
def Goto.Refines (g h : Goto) : Prop := g = .hole ∨ h = g

/-- The second instruction is the first with some of its holes filled. -/
def Inst.Refines : Inst → Inst → Prop
  | .accept index, b => b = .accept index
  | .save slot g, b => ∃ h, b = .save slot h ∧ g.Refines h
  | .split g₁ g₂, b => ∃ h₁ h₂, b = .split h₁ h₂ ∧ g₁.Refines h₁ ∧ g₂.Refines h₂
  | .look kind g, b => ∃ h, b = .look kind h ∧ g.Refines h
  | .char byte g, b => ∃ h, b = .char byte h ∧ g.Refines h
  | .span range g, b => ∃ h, b = .span range h ∧ g.Refines h
  | .oneOf ranges g, b => ∃ h, b = .oneOf ranges h ∧ g.Refines h
  | .nop g, b => ∃ h, b = .nop h ∧ g.Refines h

theorem Goto.Refines.refl (g : Goto) : g.Refines g := .inr rfl

theorem Goto.Refines.trans {g h k : Goto} (hgh : g.Refines h) (hhk : h.Refines k) : g.Refines k := by
  rcases hgh with rfl | rfl
  · exact .inl rfl
  · exact hhk

namespace Inst

variable {a b c : Inst} {slot : Slot} {g target : Goto}

theorem Refines.refl (a : Inst) : a.Refines a := by
  cases a with
  | accept => rfl
  | split => exact ⟨_, _, rfl, .refl _, .refl _⟩
  | save | look | char | span | oneOf | nop => exact ⟨_, rfl, .refl _⟩

theorem Refines.trans (hab : a.Refines b) (hbc : b.Refines c) : a.Refines c := by
  cases a with
  | accept => obtain rfl := hab; exact hbc
  | split =>
    obtain ⟨_, _, rfl, h₁, h₂⟩ := hab
    obtain ⟨_, _, rfl, k₁, k₂⟩ := hbc
    exact ⟨_, _, rfl, h₁.trans k₁, h₂.trans k₂⟩
  | save | look | char | span | oneOf | nop =>
    obtain ⟨_, rfl, h⟩ := hab
    obtain ⟨_, rfl, k⟩ := hbc
    exact ⟨_, rfl, h.trans k⟩

/-- A goto that is known stays. -/
theorem Refines.slot?_eq (h : a.Refines b) (ha : a.slot? slot = some g) (hg : g ≠ .hole) :
    b.slot? slot = some g := by
  cases a with
  | accept => cases slot <;> simp [slot?] at ha
  | split =>
    obtain ⟨_, _, rfl, h₁, h₂⟩ := h
    cases slot with
    | next => simp [slot?] at ha
    | first =>
      obtain rfl := Option.some.inj ha
      exact congrArg some (h₁.resolve_left hg)
    | second =>
      obtain rfl := Option.some.inj ha
      exact congrArg some (h₂.resolve_left hg)
  | save | look | char | span | oneOf | nop =>
    obtain ⟨_, rfl, h⟩ := h
    cases slot with
    | next =>
      obtain rfl := Option.some.inj ha
      exact congrArg some (h.resolve_left hg)
    | first | second => simp [slot?] at ha

/-- A slot can be set, and no other slot changes. -/
theorem exists_goto? (ha : a.slot? slot = some g) (target : Goto) :
    ∃ b, a.goto? target slot = some b ∧ b.slot? slot = some target ∧
      (∀ s, s ≠ slot → b.slot? s = a.slot? s) ∧ (g = .hole → a.Refines b) := by
  cases a with
  | accept => cases slot <;> simp [slot?] at ha
  | split first second =>
    cases slot with
    | next => simp [slot?] at ha
    | first =>
      obtain rfl := Option.some.inj ha
      refine ⟨_, rfl, rfl, fun s hs => ?_, fun hg => ⟨_, _, rfl, .inl hg, .refl _⟩⟩
      cases s <;> first | rfl | exact absurd rfl hs
    | second =>
      obtain rfl := Option.some.inj ha
      refine ⟨_, rfl, rfl, fun s hs => ?_, fun hg => ⟨_, _, rfl, .refl _, .inl hg⟩⟩
      cases s <;> first | rfl | exact absurd rfl hs
  | save | look | char | span | oneOf | nop =>
    cases slot with
    | next =>
      obtain rfl := Option.some.inj ha
      refine ⟨_, rfl, rfl, fun s hs => ?_, fun hg => ⟨_, rfl, .inl hg⟩⟩
      cases s <;> first | rfl | exact absurd rfl hs
    | first | second => simp [slot?] at ha

end Inst

/-- The goto that a hole stands for. -/
def slotAt (insts : Array Inst) (hole : Hole) : Option Goto :=
  insts[hole.position]?.bind (·.slot? hole.slot)

/-- What was there is still there, with some holes filled. -/
def Grows (a b : Array Inst) : Prop :=
  ∀ (i : Nat) (inst : Inst), a[i]? = some inst → ∃ inst', b[i]? = some inst' ∧ inst.Refines inst'

namespace Grows

variable {a b c : Array Inst}

theorem refl (a : Array Inst) : Grows a a := fun _ inst h => ⟨inst, h, .refl inst⟩

theorem trans (hab : Grows a b) (hbc : Grows b c) : Grows a c := by
  intro i inst hi
  obtain ⟨inst', hi', hr⟩ := hab i inst hi
  obtain ⟨inst'', hi'', hr'⟩ := hbc i inst' hi'
  exact ⟨inst'', hi'', hr.trans hr'⟩

theorem of_eq (h : ∀ i < a.size, b[i]? = a[i]?) : Grows a b := by
  intro i inst hi
  obtain ⟨hlt, -⟩ := Array.getElem?_eq_some_iff.1 hi
  exact ⟨inst, (h i hlt).trans hi, .refl inst⟩

theorem slotAt_eq (h : Grows a b) {hole : Hole} {g : Goto} (ha : slotAt a hole = some g)
    (hg : g ≠ .hole) : slotAt b hole = some g := by
  obtain ⟨inst, hi, hs⟩ := Option.bind_eq_some_iff.1 ha
  obtain ⟨inst', hi', hr⟩ := h _ _ hi
  exact Option.bind_eq_some_iff.2 ⟨inst', hi', hr.slot?_eq hs hg⟩

end Grows

theorem slotAt_congr {a b : Array Inst} {hole : Hole}
    (h : b[hole.position]? = a[hole.position]?) : slotAt b hole = slotAt a hole := by
  rw [slotAt, slotAt, h]

namespace AssemblyM

/-- What is left of one assembly in the other after its holes have been linked. -/
structure Linked (a b : Assembly) (holes : List Hole) (target : Goto) : Prop where
  size : b.insts.size = a.insts.size
  grows : Grows a.insts b.insts
  filled : ∀ h ∈ holes, slotAt b.insts h = some target
  other : ∀ h, h ∉ holes → slotAt b.insts h = slotAt a.insts h
  old : ∀ i, (∀ h ∈ holes, h.position ≠ i) → b.insts[i]? = a.insts[i]?

theorem linkHole_ensures {a : Assembly} {hole : Hole} (target : Goto)
    (ho : slotAt a.insts hole = some .hole) :
    Ensures (linkHole target hole) a (fun _ b => Linked a b [hole] target) fun _ _ => False := by
  obtain ⟨inst, hi, hs⟩ := Option.bind_eq_some_iff.1 ho
  obtain ⟨inst', hg, hs', hother, hr⟩ := Inst.exists_goto? hs target
  obtain ⟨hlt, -⟩ := Array.getElem?_eq_some_iff.1 hi
  unfold linkHole
  refine ensures_get_bind ?_
  simp only [hi, hg]
  refine ensures_set ⟨by simp, ?_, ?_, ?_, ?_⟩
  · intro i inst₀ hi₀
    by_cases h : hole.position = i
    · subst h
      obtain rfl := Option.some.inj (hi.symm.trans hi₀)
      exact ⟨inst', by simp [hlt], hr rfl⟩
    · exact ⟨inst₀, by simpa [Array.getElem?_setIfInBounds, h] using hi₀, .refl inst₀⟩
  · intro h hh
    obtain rfl := List.mem_singleton.1 hh
    simpa [slotAt, hlt] using hs'
  · intro h hh
    rw [List.mem_singleton] at hh
    by_cases hp : hole.position = h.position
    · have hne : h.slot ≠ hole.slot := fun he => hh (by cases h; cases hole; simp_all)
      simp only [slotAt, ← hp, hi, Array.set!_eq_setIfInBounds, Array.getElem?_setIfInBounds_self,
        hlt, if_true, Option.bind_some]
      exact hother _ hne
    · exact slotAt_congr (by simp [hp])
  · intro i hpos
    simp [hpos hole (by simp)]

theorem Linked.cons {a b c : Assembly} {hole : Hole} {holes : List Hole} {target : Goto}
    (h : Linked a b [hole] target) (h' : Linked b c holes target) (hn : hole ∉ holes) :
    Linked a c (hole :: holes) target where
  size := h'.size.trans h.size
  grows := h.grows.trans h'.grows
  filled h₀ hh := by
    rcases List.mem_cons.1 hh with rfl | hh
    · exact (h'.other _ hn).trans (h.filled _ (by simp))
    · exact h'.filled _ hh
  other h₀ hh := by
    simp only [List.mem_cons, not_or] at hh
    rw [h'.other _ hh.2, h.other _ (by simpa using hh.1)]
  old i hi := by
    rw [h'.old i fun h₀ hh => hi h₀ (by simp [hh]), h.old i (by simpa using hi hole (by simp))]

/-- Open holes can be linked. -/
theorem link_ensures {target : Goto} : ∀ {holes : List Hole} {a : Assembly}, holes.Nodup →
    (∀ h ∈ holes, slotAt a.insts h = some .hole) →
    Ensures (link target holes) a (fun _ b => Linked a b holes target) fun _ _ => False
  | [], a, _, _ => ensures_pure ⟨rfl, .refl _, by simp, fun _ _ => rfl, fun _ _ => rfl⟩
  | hole :: holes, a, hn, ho => by
    rw [List.nodup_cons] at hn
    refine (linkHole_ensures target (ho hole (by simp))).bind fun _ b hb => ?_
    have hb' : ∀ h ∈ holes, slotAt b.insts h = some .hole := fun h hh => by
      rw [hb.other h (by simpa using fun he : h = hole => hn.1 (he ▸ hh))]
      exact ho h (by simp [hh])
    exact (link_ensures hn.2 hb').imp (fun _ c hc => hb.cons hc hn.1) fun _ _ h => h

theorem linkHere_ensures {holes : List Hole} {a : Assembly} (hn : holes.Nodup)
    (ho : ∀ h ∈ holes, slotAt a.insts h = some .hole) :
    Ensures (linkHere holes) a (fun _ b => Linked a b holes a.insts.size) fun _ _ => False :=
  ensures_get_bind (link_ensures hn ho)

theorem push_ensures {inst : Inst} {a : Assembly} {E : Error → Assembly → Prop} :
    Ensures (push inst) a (fun n (b : Assembly) => n = a.insts.size ∧ b.insts = a.insts.push inst)
      E :=
  ensures_get_bind (ensures_set_bind (ensures_pure ⟨rfl, rfl⟩))

end AssemblyM

end Munch
