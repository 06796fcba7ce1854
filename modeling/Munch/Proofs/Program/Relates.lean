/-
What adding code does to a program in the making, whatever the code is. All of it is put together of
three things: an instruction is added, a hole is filled, a slot is taken. So a relation that holds
whenever one of these is done (`Steps`) holds whenever code is added (`Relates`); there is one rule
for each way of putting code together, and `ofTree_relates` follows the tree.
-/
import Munch.Program.OfTrees
import Munch.Program.Path
import Munch.Proofs.Ensures

namespace Munch

namespace Tree

mutual

/-- The sets of bytes in a tree. -/
def sets : Tree → List ByteSet
  | .symbol set => [set]
  | .concat items | .alt items => setsAll items
  | .repeated body _ _ _ | .group body _ _ => sets body
  | .epsilon | .look _ | .bare => []

def setsAll : List Tree → List ByteSet
  | [] => []
  | t :: ts => sets t ++ setsAll ts

end

end Tree

namespace AssemblyM

/-- The relation holds between an assembly and what comes of it by adding an instruction of some kind,
to which all belong that read nothing and end no pattern, by filling a hole, or by taking slots. -/
structure Steps (R : Assembly → Assembly → Prop) (A : Inst → Prop) : Prop where
  refl : ∀ a, R a a
  trans : ∀ a b c, R a b → R b c → R a c
  silent : ∀ inst, inst.reads? = none → (∀ index, inst ≠ .accept index) → A inst
  push : ∀ a inst, A inst →
    R a { a with insts := a.insts.push inst, origins := a.origins.push a.pattern }
  fill : ∀ a (hole : Hole) (inst inst' : Inst) target, a.insts[hole.position]? = some inst →
    inst.goto? target hole.slot = some inst' →
    R a { a with insts := a.insts.set! hole.position inst' }
  take : ∀ a slot, R a { a with nextSlot := slot }

/-- The relation holds between an assembly and what the action leaves of it if it returns. -/
def Relates {α : Type} (R : Assembly → Assembly → Prop) (x : AssemblyM α) : Prop :=
  ∀ a, Ensures x a (fun _ b => R a b) fun _ _ => True

variable {α β : Type} {R : Assembly → Assembly → Prop} {A : Inst → Prop} {x : AssemblyM α}
  {f : α → AssemblyM β} {body : AssemblyM Fragment} {parts : List (AssemblyM Fragment)}

theorem relates_throw (e : Error) : Relates R (throw e : AssemblyM α) := fun _ => trivial

theorem relates_guard {p : Prop} [Decidable p] {e : Error} (hx : Relates R x) :
    Relates R (do
      if p then throw e
      x) := by
  intro a
  split
  · exact trivial
  · exact hx a

namespace Steps

section

variable (h : Steps R A)

include h

theorem done (v : α) : Relates R (pure v : AssemblyM α) := fun a => ensures_pure (h.refl a)

theorem bind (hx : Relates R x) (hf : ∀ v, Relates R (f v)) : Relates R (x >>= f) :=
  fun a => (hx a).bind fun v b hb => (hf v b).mono fun _ c hc => h.trans a b c hb hc

theorem map {g : α → β} (hx : Relates R x) : Relates R (x >>= fun v => pure (g v)) :=
  h.bind hx fun _ => h.done _

theorem here_relates : Relates R here := h.refl

theorem push_relates {inst : Inst} (hinst : A inst) : Relates R (AssemblyM.push inst) :=
  fun a => h.push a inst hinst

theorem split_relates : Relates R (AssemblyM.push (.split .hole .hole)) :=
  h.push_relates (h.silent _ rfl (by simp))

theorem linkHole_relates (target : Goto) (hole : Hole) : Relates R (linkHole target hole) := by
  refine fun a => ensures_get_bind ?_
  cases hi : a.insts[hole.position]? with
  | none => exact ensures_throw trivial
  | some inst =>
    simp only
    cases hg : inst.goto? target hole.slot with
    | none => exact ensures_throw trivial
    | some inst' => exact ensures_set (h.fill a hole inst inst' target hi hg)

theorem link_relates (target : Goto) (holes : List Hole) : Relates R (link target holes) := by
  induction holes with
  | nil => exact h.done _
  | cons hole holes ih => exact h.bind (h.linkHole_relates target hole) fun _ => ih

theorem linkHere_relates (holes : List Hole) : Relates R (linkHere holes) :=
  h.bind h.here_relates fun _ => h.link_relates _ holes

/-! ## Fragments -/

theorem leaf_relates {inst : Inst} (hinst : A inst) : Relates R (leaf inst) :=
  h.map (h.push_relates hinst)

theorem symbol_relates {ranges : List Interval}
    (hinst : ∀ inst next, inst.reads? = some (ranges, next) → A inst) :
    Relates R (symbol ranges) := by
  unfold symbol
  split
  · next r =>
    split
    · next hsingle =>
      have hr : Interval.single r.lo = r := by
        rw [Interval.single, Interval.mk.injEq]
        exact ⟨rfl, hsingle⟩
      have hchar : (Inst.char r.lo .hole).reads? = some ([r], .hole) := by
        rw [Inst.reads?, hr]
      exact h.leaf_relates (hinst _ _ hchar)
    · exact h.leaf_relates (hinst _ _ rfl)
  · exact h.leaf_relates (hinst _ _ rfl)

theorem sequence_relates (hparts : ∀ part ∈ parts, Relates R part) (entry : Option Nat)
    (holes : List Hole) : Relates R (sequence entry holes parts) := by
  induction parts generalizing entry holes with
  | nil => exact h.done _
  | cons part parts ih =>
    refine h.bind (h.linkHere_relates holes) fun _ => h.bind (hparts part (by simp)) fun f => ?_
    exact ih (fun p hp => hparts p (by simp [hp])) _ f.holes

theorem enteredAt_relates (missing : Error) (entry : Option Nat) (holes : List Hole) :
    Relates R (enteredAt missing entry holes) := by
  cases entry with
  | none => exact relates_throw missing
  | some => exact h.done _

theorem concat_relates (hparts : ∀ part ∈ parts, Relates R part) : Relates R (concat parts) :=
  h.bind (h.sequence_relates hparts none []) fun _ => h.enteredAt_relates _ _ _

theorem choice_relates (hparts : ∀ part ∈ parts, Relates R part) : Relates R (choice parts) := by
  induction parts with
  | nil => exact relates_throw _
  | cons part parts ih =>
    cases parts with
    | nil => exact h.map (hparts part (by simp))
    | cons other parts =>
      refine h.bind h.split_relates fun _ => h.bind (hparts part (by simp)) fun f => ?_
      refine h.bind (h.link_relates _ _) fun _ => h.bind (h.linkHere_relates _) fun _ => ?_
      exact h.map (ih fun p hp => hparts p (List.mem_cons_of_mem _ hp))

theorem alt_relates (hparts : ∀ part ∈ parts, Relates R part) : Relates R (alt parts) :=
  h.bind h.here_relates fun _ => h.map (h.choice_relates hparts)

theorem optionalBody_relates (hbody : Relates R body) (greedy : Bool) :
    Relates R (optionalBody body greedy) :=
  h.bind h.split_relates fun _ => h.bind hbody fun _ => h.map (h.link_relates _ _)

theorem star_relates (hbody : Relates R body) (greedy : Bool) : Relates R (star body greedy) :=
  h.bind h.split_relates fun _ => h.bind hbody fun _ => h.bind (h.link_relates _ _) fun _ =>
    h.map (h.link_relates _ _)

theorem plus_relates (hbody : Relates R body) (greedy : Bool) : Relates R (plus body greedy) :=
  h.bind hbody fun _ => h.bind (h.linkHere_relates _) fun _ => h.bind h.split_relates fun _ =>
    h.map (h.link_relates _ _)

theorem optionals_relates (hbody : Relates R body) (greedy : Bool) (entry : Option Nat)
    (holes : List Hole) (count : Nat) : Relates R (optionals body greedy entry holes count) := by
  induction count generalizing entry holes with
  | zero => exact h.done _
  | succ count ih =>
    refine h.bind (h.linkHere_relates holes) fun _ => ?_
    exact h.bind (h.optionalBody_relates hbody greedy) fun o => h.map (ih _ o.2.1)

/-- Copies of the body in a row. -/
theorem copies_relates (hbody : Relates R body) (count : Nat) :
    Relates R (sequence none [] (List.replicate count body)) :=
  h.sequence_relates (fun _ hp => (List.mem_replicate.1 hp).2 ▸ hbody) none []

theorem repeated_relates (hbody : Relates R body) (min : Int) (max : Option Int) (greedy : Bool) :
    Relates R (repeated body min max greedy) := by
  cases max with
  | none =>
    simp only [repeated]
    refine relates_guard ?_
    split
    · exact h.star_relates hbody greedy
    split
    · exact h.plus_relates hbody greedy
    · refine h.bind (h.copies_relates hbody _) fun _ => ?_
      exact h.bind (h.linkHere_relates _) fun _ => h.map (h.plus_relates hbody greedy)
  | some max =>
    simp only [repeated]
    refine relates_guard (relates_guard ?_)
    split
    · exact h.leaf_relates (h.silent _ rfl (by simp))
    split
    · exact h.map (h.optionalBody_relates hbody greedy)
    · refine h.bind (h.copies_relates hbody _) fun o => ?_
      refine h.bind (h.optionals_relates hbody greedy o.1 o.2 _) fun _ => ?_
      exact h.enteredAt_relates _ _ _

theorem capture_relates (hbody : Relates R body) : Relates R (capture body) := by
  have hsave (slot : Nat) : Relates R (AssemblyM.push (.save slot .hole)) :=
    h.push_relates (h.silent _ rfl (by simp))
  refine fun a => ensures_get_bind (ensures_modify_bind ?_)
  have hrest := h.bind (hsave a.nextSlot) fun start => h.bind hbody fun f =>
    h.bind (h.link_relates f.entry [⟨start, .next⟩]) fun _ =>
      h.bind (h.linkHere_relates f.holes) fun _ => h.map (hsave (a.nextSlot + 1))
        (g := fun stop => (⟨start, [⟨stop, .next⟩]⟩ : Fragment))
  exact (hrest _).mono fun _ b hb => h.trans _ _ _ (h.take a (a.nextSlot + 2)) hb

end

/-! ## Trees -/

mutual

theorem ofTree_relates (h : Steps R A) : (t : Tree) →
    (∀ s ∈ t.sets, ∀ inst next, inst.reads? = some (s.accepting.ranges, next) → A inst) →
    Relates R (ofTree t)
  | .epsilon, _ | .look _, _ => h.leaf_relates (h.silent _ rfl (by simp))
  | .symbol set, hsets => h.symbol_relates (hsets set (by simp [Tree.sets]))
  | .concat items, hsets => h.concat_relates (ofTrees_relates h items hsets)
  | .alt items, hsets => h.alt_relates (ofTrees_relates h items hsets)
  | .repeated body min max greedy, hsets =>
    h.repeated_relates (ofTree_relates h body hsets) min max greedy
  | .group body true _, hsets => h.capture_relates (ofTree_relates h body hsets)
  | .group body false _, hsets => ofTree_relates h body hsets
  | .bare, _ => relates_throw _

theorem ofTrees_relates (h : Steps R A) : (ts : List Tree) →
    (∀ s ∈ Tree.setsAll ts, ∀ inst next, inst.reads? = some (s.accepting.ranges, next) → A inst) →
    ∀ part ∈ ofTrees ts, Relates R part
  | [], _, _, hp => nomatch hp
  | t :: ts, hsets, part, hp => by
    rw [Tree.setsAll] at hsets
    rcases List.mem_cons.1 hp with rfl | hp
    · exact ofTree_relates h t fun s hs => hsets s (List.mem_append_left _ hs)
    · exact ofTrees_relates h ts (fun s hs => hsets s (List.mem_append_right _ hs)) part hp

end

end Steps

end AssemblyM

end Munch
