/-
Walks visit what a position leads to, each position once. `Walked next start size seen stack` is what
holds on the way: all that was seen or waits on the stack is reached from the start, and what a
position leads to was seen or waits. Since nothing outside of the program is ever visited, the fuel
lasts until nothing waits (`walk_ensures`). `Visited Q seen stack order` is the course that the walk
takes from there.
-/
import Mathlib.Data.List.Perm.Subperm
import Mathlib.Logic.Relation
import Munch.Proofs.Ensures
import Munch.Table.Raw

namespace Munch.DraftM

variable {α : Type} {next : Nat → Nat → Prop} {start size i fuel : Nat} {seen stack js : List Nat}
  {Q : Nat → List Nat → Prop}

/-- The walk visits the positions of `order`; `Q` says what a visit puts on the stack. -/
inductive Visited (Q : Nat → List Nat → Prop) :
    (seen : List Nat) → (stack : List Nat) → (order : List Nat) → Prop where
  | nil (seen : List Nat) : Visited Q seen [] []
  | again {seen stack order : List Nat} {i : Nat} : i ∈ seen → Visited Q seen stack order →
    Visited Q seen (i :: stack) order
  | visit {seen stack order js : List Nat} {i : Nat} : i ∉ seen → Q i js →
    Visited Q (i :: seen) (js ++ stack) order → Visited Q seen (i :: stack) (i :: order)

/-- A walk from the start on its way. -/
structure Walked (next : Nat → Nat → Prop) (start size : Nat) (seen stack : List Nat) : Prop where
  nodup : seen.Nodup
  lt : ∀ i ∈ seen, i < size
  closed : ∀ i ∈ seen, ∀ j, next i j → j ∈ seen ∨ j ∈ stack
  reached : ∀ i, i ∈ seen ∨ i ∈ stack → Relation.ReflTransGen next start i
  started : start ∈ seen ∨ start ∈ stack

/-- Different numbers below a bound are no more than the bound. -/
theorem length_le_of_nodup {ns : List Nat} (hn : ns.Nodup) (hlt : ∀ i ∈ ns, i < size) :
    ns.length ≤ size := by
  have hsub : ns ⊆ List.range size := fun i hi => List.mem_range.2 (hlt i hi)
  have hle := (List.subperm_of_subset hn hsub).length_le
  rwa [List.length_range] at hle

namespace Walked

theorem init (next : Nat → Nat → Prop) (start size : Nat) : Walked next start size [] [start] where
  nodup := .nil
  lt := by simp
  closed := by simp
  reached i hi := by
    obtain rfl : i = start := by simpa using hi
    exact .refl
  started := by simp

/-- What was seen before is left out. -/
theorem skip (h : Walked next start size seen (i :: stack)) (hi : i ∈ seen) :
    Walked next start size seen stack where
  nodup := h.nodup
  lt := h.lt
  closed k hk j hj := by
    rcases h.closed k hk j hj with hs | hs
    · exact .inl hs
    · rcases List.mem_cons.1 hs with rfl | hs
      · exact .inl hi
      · exact .inr hs
  reached k hk := h.reached k (hk.imp id (List.mem_cons_of_mem _))
  started := by
    rcases h.started with hs | hs
    · exact .inl hs
    · rcases List.mem_cons.1 hs with rfl | hs
      · exact .inl hi
      · exact .inr hs

/-- A visited position is replaced by what it leads to. -/
theorem visit (h : Walked next start size seen (i :: stack)) (hi : i ∉ seen) (hlt : i < size)
    (hjs : ∀ j, j ∈ js ↔ next i j) : Walked next start size (i :: seen) (js ++ stack) where
  nodup := List.nodup_cons.2 ⟨hi, h.nodup⟩
  lt k hk := by
    rcases List.mem_cons.1 hk with rfl | hk
    · exact hlt
    · exact h.lt k hk
  closed k hk j hj := by
    rcases List.mem_cons.1 hk with rfl | hk
    · exact .inr (List.mem_append_left _ ((hjs j).2 hj))
    · rcases h.closed k hk j hj with hs | hs
      · exact .inl (List.mem_cons_of_mem _ hs)
      · rcases List.mem_cons.1 hs with rfl | hs
        · exact .inl (by simp)
        · exact .inr (List.mem_append_right _ hs)
  reached k hk := by
    simp only [List.mem_cons, List.mem_append] at hk
    rcases hk with (rfl | hk) | hk | hk
    · exact h.reached k (.inr (by simp))
    · exact h.reached k (.inl hk)
    · exact (h.reached i (.inr (by simp))).tail ((hjs k).1 hk)
    · exact h.reached k (.inr (List.mem_cons_of_mem _ hk))
  started := by
    rcases h.started with hs | hs
    · exact .inl (List.mem_cons_of_mem _ hs)
    · rcases List.mem_cons.1 hs with rfl | hs
      · exact .inl (by simp)
      · exact .inr (List.mem_append_right _ hs)

/-- When nothing waits, all that is reached was seen. -/
theorem mem_iff (h : Walked next start size seen []) :
    i ∈ seen ↔ Relation.ReflTransGen next start i := by
  constructor
  · exact fun hi => h.reached i (.inl hi)
  · intro hi
    induction hi with
    | refl => exact h.started.resolve_right List.not_mem_nil
    | tail _ hj ih => exact (h.closed _ ih _ hj).resolve_right List.not_mem_nil

end Walked

/-- What each visit keeps holds at the end of the walk, which has visited all that is reached. -/
theorem walk_ensures {visit : Nat → DraftM (List Nat × List α)}
    {I : List Nat → List α → Draft → Prop} {E : Error → Draft → Prop}
    (hvisit : ∀ i seen found d, Relation.ReflTransGen next start i → i ∉ seen → I seen found d →
      Ensures (visit i) d (fun r d' => i < size ∧ r.1.length ≤ 2 ∧ (∀ j, j ∈ r.1 ↔ next i j) ∧
        Q i r.1 ∧ I (i :: seen) (found ++ r.2) d') E)
    {found : List α} {d : Draft} (h : Walked next start size seen stack) (hinv : I seen found d)
    (hfuel : stack.length + 2 * (size - seen.length) ≤ fuel) :
    Ensures (walk visit fuel seen stack) d
      (fun out d' => ∃ order, Visited Q seen stack order ∧
        (∀ i, i ∈ order.reverse ++ seen ↔ Relation.ReflTransGen next start i) ∧
        I (order.reverse ++ seen) (found ++ out) d') E := by
  induction fuel generalizing seen stack found d with
  | zero =>
    obtain rfl := List.eq_nil_of_length_eq_zero (l := stack) (by omega)
    exact ensures_pure ⟨[], .nil seen, fun i => h.mem_iff, by simpa using hinv⟩
  | succ fuel ih =>
    cases stack with
    | nil => exact ensures_pure ⟨[], .nil seen, fun i => h.mem_iff, by simpa using hinv⟩
    | cons i stack =>
      rw [List.length_cons] at hfuel
      rw [walk]
      split
      · next hs =>
        have hi := List.contains_iff_mem.1 hs
        refine (ih (h.skip hi) hinv (by omega)).mono fun out d' hd => ?_
        obtain ⟨order, hvisited, hend⟩ := hd
        exact ⟨order, .again hi hvisited, hend⟩
      · next hs =>
        have hi : i ∉ seen := fun hi => hs (List.contains_iff_mem.2 hi)
        refine (hvisit i seen found d (h.reached i (.inr (by simp))) hi hinv).bind fun r d' hr => ?_
        obtain ⟨js, more⟩ := r
        obtain ⟨hlt, hlen, hjs, hQ, hinv'⟩ := hr
        have hw := h.visit hi hlt hjs
        have hle := length_le_of_nodup hw.nodup hw.lt
        rw [List.length_cons] at hle
        refine (ih hw hinv' ?_).bind fun out d'' hd => ?_
        · replace hlen : js.length ≤ 2 := hlen
          simp only [List.length_append, List.length_cons]
          omega
        · obtain ⟨order, hvisited, hseen, hend⟩ := hd
          exact ensures_pure ⟨i :: order, .visit hi hQ hvisited, by simpa using hseen,
            by simpa using hend⟩

theorem walkFrom_ensures (next : Nat → Nat → Prop) (Q : Nat → List Nat → Prop) {p : Program}
    {visit : Nat → DraftM (List Nat × List α)}
    {I : List Nat → List α → Draft → Prop} {E : Error → Draft → Prop} {d : Draft}
    (hvisit : ∀ i seen found d, Relation.ReflTransGen next start i → i ∉ seen → I seen found d →
      Ensures (visit i) d (fun r d' => i < p.insts.size ∧ r.1.length ≤ 2 ∧
        (∀ j, j ∈ r.1 ↔ next i j) ∧ Q i r.1 ∧ I (i :: seen) (found ++ r.2) d') E)
    (hinv : I [] [] d) :
    Ensures (walkFrom p visit start) d
      (fun out d' => ∃ order, Visited Q [] [start] order ∧
        (∀ i, i ∈ order ↔ Relation.ReflTransGen next start i) ∧ I order.reverse out d') E := by
  refine (walk_ensures hvisit (.init next start p.insts.size) hinv (by simp; omega)).mono
    fun out d' h => ?_
  obtain ⟨order, hvisited, hseen, hend⟩ := h
  exact ⟨order, hvisited, by simpa using hseen, by simpa using hend⟩

end Munch.DraftM
