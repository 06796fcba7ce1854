/-
No bound is ever reached. Rounds of a loop are bounded by the length of the text, and so is the depth
of groups, but each round and each group takes a character at least. So greater bounds change nothing
(`upTo_eq_many`, `exprUpTo_eq_expr`), and an expression is read as if there were no bound: as
alternatives whose groups hold expressions (`expr_eq`).
-/
import Munch.Proofs.Pattern.Stops

namespace Munch.Reader

variable {α β : Type} {x y x' y' : Reader α} {f g : α → Reader β} {n m : Nat} {s : List Char}
  {Q : α → List Char → Prop}

theorem bind_congr_at (hx : Reads x s Q) (hxy : x s = y s)
    (hf : ∀ a t, t <:+ s → Q a t → f a t = g a t) : (x >>= f) s = (y >>= g) s := by
  show EStateM.bind x f s = EStateM.bind y g s
  unfold EStateM.bind
  rw [← hxy]
  cases heq : x s with
  | ok a t =>
    obtain ⟨hts, hQ⟩ := hx.of_ok heq
    exact hf a t hts hQ
  | error stop t => rfl

/-- The two readers do the same on all texts that are shorter. -/
def AgreeBelow (n : Nat) (x y : Reader α) : Prop :=
  ∀ s, s.length < n → x s = y s

namespace AgreeBelow

theorem refl (n : Nat) (x : Reader α) : AgreeBelow n x x := fun _ _ => rfl

theorem mono (h : AgreeBelow n x y) (hmn : m ≤ n) : AgreeBelow m x y :=
  fun s hs => h s (Nat.lt_of_lt_of_le hs hmn)

theorem bind (hx : Forward x) (hxy : AgreeBelow n x y) (hf : ∀ a, AgreeBelow n (f a) (g a)) :
    AgreeBelow n (x >>= f) (y >>= g) := fun s hs =>
  bind_congr_at (hx s) (hxy s hs) fun a t hts _ =>
    hf a t (Nat.lt_of_le_of_lt hts.length_le hs)

/-- Behind a text that is taken less is left. -/
theorem test {text : List Char} (htext : text ≠ []) (hx : AgreeBelow n x x')
    (hy : AgreeBelow (n + 1) y y') :
    AgreeBelow (n + 1) (accepts text >>= fun b => if b = true then x else y)
      (accepts text >>= fun b => if b = true then x' else y') := by
  intro s hs
  refine bind_congr_at (reads_accepts_lt htext s) rfl fun b t _ ht => ?_
  cases b with
  | true => exact hx t (Nat.lt_of_lt_of_le ht (Nat.le_of_lt_succ hs))
  | false => exact (show t = s from ht) ▸ hy s hs

theorem upTo {read read' : Reader (Option α)} (h : Forward read) (hread : AgreeBelow n read read')
    (fuel : Nat) : AgreeBelow n (upTo read fuel) (Reader.upTo read' fuel) := by
  induction fuel with
  | zero => exact refl n _
  | succ fuel ih =>
    refine bind h hread fun o => ?_
    cases o with
    | none => exact refl n _
    | some a => exact bind (forward_upTo h fuel) ih fun _ => refl n _

theorem many {read read' : Reader (Option α)} (h : Forward read)
    (hread : AgreeBelow n read read') : AgreeBelow n (many read) (Reader.many read') :=
  fun s hs => upTo h hread _ s hs

end AgreeBelow

/-! ## Rounds -/

/-- Where a reader gets on, there are no more rounds than characters. -/
theorem upTo_eq_upTo {read : Reader (Option α)} (h : Advances read) (hn : s.length < n)
    (hm : s.length < m) : upTo read n s = upTo read m s := by
  induction n generalizing m s with
  | zero => exact absurd hn (Nat.not_lt_zero _)
  | succ n ih =>
    obtain ⟨m, rfl⟩ : ∃ k, m = k + 1 := ⟨m - 1, by omega⟩
    refine bind_congr_at (h s) rfl fun o t _ ht => ?_
    cases o with
    | none => rfl
    | some a =>
      have hlt := ht (by simp)
      have hrest := ih (s := t) (m := m) (by omega) (by omega)
      exact bind_congr_at (forward_upTo h.forward n t) hrest fun _ _ _ _ => rfl

theorem upTo_eq_many {read : Reader (Option α)} (h : Advances read) (hn : s.length < n) :
    upTo read n s = many read s :=
  upTo_eq_upTo h hn (Nat.lt_succ_self _)

/-! ## Depth -/

section Depth

variable {expr expr' : Reader Tree}

/-- What is in a group is shorter than the group. -/
theorem agree_group (hexpr : Forward expr) (h : AgreeBelow n expr expr') :
    AgreeBelow (n + 1) (group expr) (group expr') :=
  .test (by simp) (.bind forward_groupKind (.refl n _) fun _ => .bind hexpr h fun _ => .refl n _)
    (.refl _ _)

theorem agree_atom (hexpr : Forward expr) (h : AgreeBelow n expr expr') :
    AgreeBelow (n + 1) (atom expr) (atom expr') := by
  refine .bind forward_peek (.refl _ _) fun o => ?_
  split
  · exact .refl _ _
  split
  · exact .refl _ _
  split
  · exact .refl _ _
  · exact .bind (advances_group hexpr).forward (agree_group hexpr h) fun _ => .refl _ _

theorem agree_item (hexpr : Forward expr) (h : AgreeBelow n expr expr') :
    AgreeBelow (n + 1) (item expr) (item expr') :=
  .bind (advances_atom hexpr).forward (agree_atom hexpr h) fun _ => .refl _ _

theorem agree_branch (hexpr : Forward expr) (h : AgreeBelow n expr expr') :
    AgreeBelow (n + 1) (branch expr) (branch expr') := by
  have hitem := (advances_item hexpr).forward
  refine .bind (forward_concat hexpr) ?_ fun _ => .refl _ _
  exact .bind (forward_many hitem) (.many hitem (agree_item hexpr h)) fun _ => .refl _ _

theorem agree_nextBranch (hexpr : Forward expr) (h : AgreeBelow n expr expr') :
    AgreeBelow (n + 1) (nextBranch expr) (nextBranch expr') := by
  refine .test (by simp) ?_ (.refl _ _)
  have hbranch := (agree_branch hexpr h).mono (Nat.le_succ n)
  exact .bind (forward_branch hexpr) hbranch fun _ => .refl n _

theorem agree_alternatives (hexpr : Forward expr) (h : AgreeBelow n expr expr') :
    AgreeBelow (n + 1) (alternatives expr) (alternatives expr') := by
  have hnext := (advances_nextBranch hexpr).forward
  refine .bind (forward_branch hexpr) (agree_branch hexpr h) fun _ => ?_
  exact .bind (forward_many hnext) (.many hnext (agree_nextBranch hexpr h)) fun _ => .refl _ _

theorem agree_exprUpTo {depth depth' : Nat} (h : n ≤ depth) (h' : n ≤ depth') :
    AgreeBelow n (exprUpTo depth) (exprUpTo depth') := by
  induction n generalizing depth depth' with
  | zero => exact fun _ hs => absurd hs (Nat.not_lt_zero _)
  | succ n ih =>
    obtain ⟨k, rfl⟩ : ∃ k, depth = k + 1 := ⟨depth - 1, by omega⟩
    obtain ⟨k', rfl⟩ : ∃ k, depth' = k + 1 := ⟨depth' - 1, by omega⟩
    exact agree_alternatives (forward_exprUpTo k) (ih (by omega) (by omega))

end Depth

theorem exprUpTo_eq_expr (h : s.length < n) : exprUpTo n s = expr s :=
  agree_exprUpTo h (Nat.le_refl _) s (Nat.lt_succ_self _)

theorem forward_expr : Forward expr := fun s => reads_get_bind (forward_exprUpTo _ s)

/-- An expression is read as alternatives, in the groups of which expressions are read. -/
theorem expr_eq : expr = alternatives expr := by
  funext s
  refine agree_alternatives (forward_exprUpTo s.length) (fun t ht => ?_) s (Nat.lt_succ_self _)
  exact exprUpTo_eq_expr ht

end Munch.Reader
