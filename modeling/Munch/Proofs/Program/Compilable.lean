/-
What is known of trees that were compiled. Each action that puts code together runs the actions of its
parts, so if it returns, all of these did (`Shows`); only a body that is never entered is left out.
-/
import Mathlib.Data.List.Forall2
import Munch.Proofs.Program.Turns
import Munch.Proofs.Tree.WellFormed

namespace Munch

namespace AssemblyM

variable {α β : Type} {x : AssemblyM α} {f : α → AssemblyM β} {C D : Prop} {Cs : List Prop}
  {body : AssemblyM Fragment} {parts : List (AssemblyM Fragment)}

/-- If the action returns, the fact holds. -/
def Shows (x : AssemblyM α) (C : Prop) : Prop :=
  ∀ a, Ensures x a (fun _ _ => C) fun _ _ => True

theorem Shows.imp (h : Shows x C) (hCD : C → D) : Shows x D :=
  fun a => (h a).mono fun _ _ hC => hCD hC

theorem shows_throw (e : Error) : Shows (throw e : AssemblyM α) C := fun _ => trivial

/-- Both what the first action shows and what the second one does. -/
theorem Shows.bind (hx : Shows x C) (hf : ∀ v, Shows (f v) D) : Shows (x >>= f) (C ∧ D) :=
  fun a => (hx a).bind fun v b hC => (hf v b).mono fun _ _ hD => ⟨hC, hD⟩

theorem shows_any (x : AssemblyM α) : Shows x True := by
  intro a
  unfold Ensures
  split
  · trivial
  · trivial

theorem Shows.first (hx : Shows x C) (f : α → AssemblyM β) : Shows (x >>= f) C :=
  (hx.bind fun v => shows_any (f v)).imp And.left

theorem Shows.second (x : AssemblyM α) (hf : ∀ v, Shows (f v) D) : Shows (x >>= f) D :=
  ((shows_any x).bind hf).imp And.right

theorem shows_guard {p : Prop} [Decidable p] {e : Error} (hx : ¬p → Shows x C) :
    Shows (do
      if p then throw e
      x) (¬p ∧ C) := by
  intro a
  split
  · exact trivial
  · next hp => exact (hx hp a).mono fun _ _ hC => ⟨hp, hC⟩

/-! ## Fragments -/

theorem sequence_shows (h : List.Forall₂ Shows parts Cs) (entry : Option Nat)
    (holes : List Hole) : Shows (sequence entry holes parts) (∀ C ∈ Cs, C) := by
  induction h generalizing entry holes with
  | nil => exact (shows_any _).imp fun _ => by simp
  | cons hpart _ ih =>
    refine .second _ fun _ => (hpart.bind fun f => ih _ f.holes).imp fun hall => ?_
    exact List.forall_mem_cons.2 hall

theorem concat_shows (h : List.Forall₂ Shows parts Cs) :
    Shows (concat parts) (Cs ≠ [] ∧ ∀ C ∈ Cs, C) := by
  cases h with
  | nil => exact shows_throw _
  | cons hpart hparts =>
    refine ((sequence_shows (.cons hpart hparts) none []).first _).imp fun hall => ?_
    exact ⟨by simp, hall⟩

theorem choice_shows (h : List.Forall₂ Shows parts Cs) :
    Shows (choice parts) (Cs ≠ [] ∧ ∀ C ∈ Cs, C) := by
  induction h with
  | nil => exact shows_throw _
  | @cons part C parts Cs hpart hparts ih =>
    cases hparts with
    | nil => exact (hpart.first _).imp fun hC => ⟨by simp, List.forall_mem_singleton.2 hC⟩
    | @cons _ C' _ Cs _ _ =>
      refine .second _ fun split => Shows.imp (C := C ∧ C' :: Cs ≠ [] ∧ ∀ D ∈ C' :: Cs, D)
        (hpart.bind fun f => ?_) fun hall => ?_
      · exact .second _ fun _ => .second _ fun _ => ih.first _
      · exact ⟨by simp, List.forall_mem_cons.2 ⟨hall.1, hall.2.2⟩⟩

theorem alt_shows (h : List.Forall₂ Shows parts Cs) :
    Shows (alt parts) (Cs ≠ [] ∧ ∀ C ∈ Cs, C) :=
  .second _ fun _ => (choice_shows h).first _

theorem optionalBody_shows (h : Shows body C) (greedy : Bool) :
    Shows (optionalBody body greedy) C :=
  .second _ fun _ => h.first _

theorem star_shows (h : Shows body C) (greedy : Bool) : Shows (star body greedy) C :=
  .second _ fun _ => h.first _

theorem plus_shows (h : Shows body C) (greedy : Bool) : Shows (plus body greedy) C :=
  h.first _

theorem capture_shows (h : Shows body C) : Shows (capture body) C :=
  .second _ fun _ => .second _ fun _ => .second _ fun _ => h.first _

theorem copies_shows (h : Shows body C) {count : Nat} (hcount : count ≠ 0) :
    Shows (sequence none [] (List.replicate count body)) C := by
  cases count with
  | zero => exact absurd rfl hcount
  | succ count => exact .second _ fun _ => h.first _

theorem optionals_shows (h : Shows body C) (greedy : Bool) (entry : Option Nat)
    (holes : List Hole) {count : Nat} (hcount : count ≠ 0) :
    Shows (optionals body greedy entry holes count) C := by
  cases count with
  | zero => exact absurd rfl hcount
  | succ count => exact .second _ fun _ => (optionalBody_shows h greedy).first _

theorem repeated_shows (h : Shows body C) (min : Int) (max : Option Int) (greedy : Bool) :
    Shows (repeated body min max greedy)
      (0 ≤ min ∧ (∀ m ∈ max, min ≤ m) ∧ (max = some 0 ∨ C)) := by
  cases max with
  | none =>
    have hbody : Shows (repeated body min none greedy) (¬min < 0 ∧ C) := by
      simp only [repeated]
      refine shows_guard fun _ => ?_
      split
      · exact star_shows h greedy
      split
      · exact plus_shows h greedy
      · exact .second _ fun _ => .second _ fun _ => (plus_shows h greedy).first _
    exact hbody.imp fun hC => ⟨Int.not_lt.1 hC.1, by simp, .inr hC.2⟩
  | some max =>
    have hbody : Shows (repeated body min (some max) greedy)
        (¬min < 0 ∧ ¬max < min ∧ (max = 0 ∨ C)) := by
      simp only [repeated]
      refine shows_guard fun hneg => shows_guard fun hlt => ?_
      split
      · next hzero => exact (shows_any _).imp fun _ => .inl hzero
      · next hzero =>
        refine Shows.imp (C := C) ?_ .inr
        split
        · exact (optionalBody_shows h greedy).first _
        · by_cases hcopies : min.toNat = 0
          · exact .second _ fun _ => (optionals_shows h greedy _ _ (by omega)).first _
          · exact (copies_shows h hcopies).first _
    refine hbody.imp fun hC => ⟨Int.not_lt.1 hC.1, ?_, ?_⟩
    · simpa using Int.not_lt.1 hC.2.1
    · exact hC.2.2.imp_left (congrArg some)

/-! ## Trees -/

mutual

theorem ofTree_shows : (t : Tree) → Shows (ofTree t) t.Compilable
  | .epsilon => (shows_any _).imp fun _ => .epsilon
  | .symbol set => (shows_any _).imp fun _ => .symbol set
  | .concat items => (concat_shows (ofTrees_shows items)).imp fun h =>
    .concat (by simpa using h.1) fun t ht => h.2 _ (List.mem_map_of_mem ht)
  | .alt items => (alt_shows (ofTrees_shows items)).imp fun h =>
    .alt (by simpa using h.1) fun t ht => h.2 _ (List.mem_map_of_mem ht)
  | .repeated body min max greedy => by
    refine (repeated_shows (ofTree_shows body) min max greedy).imp fun h => ?_
    obtain ⟨hmin, hmax, rfl | hbody⟩ := h
    · have hle : min ≤ 0 := hmax 0 rfl
      obtain rfl : min = 0 := Int.le_antisymm hle hmin
      exact .never
    · exact .repeated hbody hmin hmax
  | .group body true _ => (capture_shows (ofTree_shows body)).imp .group
  | .group body false _ => (ofTree_shows body).imp .group
  | .look kind => (shows_any _).imp fun _ => .look kind
  | .bare => shows_throw _

theorem ofTrees_shows : (ts : List Tree) →
    List.Forall₂ Shows (ofTrees ts) (ts.map Tree.Compilable)
  | [] => .nil
  | t :: ts => .cons (ofTree_shows t) (ofTrees_shows ts)

end

theorem chain_shows (index : Nat) (ts : List Tree) :
    Shows (chain index ts) (∀ t ∈ ts, t.Compilable) := by
  induction ts generalizing index with
  | nil => exact (shows_any _).imp fun _ => by simp
  | cons t ts ih =>
    rw [chain_cons]
    have hturn : Shows (turn index t ts.isEmpty) t.Compilable := by
      have hfinish : Shows (finish index t) t.Compilable := (ofTree_shows t).first _
      refine .second _ fun _ => ?_
      cases ts.isEmpty with
      | true => exact hfinish
      | false => exact .second _ fun _ => .second _ fun _ => hfinish.first _
    exact (hturn.bind fun _ => ih (index + 1)).imp List.forall_mem_cons.2

end AssemblyM

/-- Trees that a program was made of are such as one can be made of. -/
theorem Program.compilable_of_ofTrees {trees : List Tree} {patterns : List String} {p : Program}
    (h : Program.ofTrees trees patterns = .ok p) : ∀ t ∈ trees, t.Compilable := by
  obtain ⟨a, ha, -⟩ := chain_of_ofTrees h
  exact (AssemblyM.chain_shows 0 trees .empty).of_ok ha

end Munch
