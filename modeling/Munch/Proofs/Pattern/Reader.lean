/-
What readers return. `Returns x Q` says that whatever the reader returns has the property, from
wherever it starts; nothing is said of a reader that stops. There is one rule for each way readers
are put together.
-/
import Munch.Pattern.Parser
import Munch.Proofs.Ensures

namespace Munch.Reader

variable {α β : Type}

/-- Whatever the reader returns has the property. -/
def Returns (x : Reader α) (Q : α → Prop) : Prop :=
  ∀ s, Ensures x s (fun a _ => Q a) fun _ _ => True

variable {x : Reader α} {f : α → Reader β} {Q : α → Prop} {R : β → Prop}

theorem returns_any (x : Reader α) : Returns x fun _ => True := by
  intro s
  unfold Ensures
  split
  · trivial
  · trivial

theorem returns_pure {a : α} (h : Q a) : Returns (pure a) Q := fun _ => ensures_pure h

theorem returns_throw (stop : Stop) : Returns (throw stop) Q := fun _ => ensures_throw trivial

theorem returns_fail (fault : Fault) : Returns (fail fault) Q := returns_throw _

namespace Returns

theorem bind (hx : Returns x Q) (hf : ∀ a, Q a → Returns (f a) R) : Returns (x >>= f) R :=
  fun s => (hx s).bind fun a t ha => hf a ha t

/-- After a reader of which nothing is known. -/
theorem bind_any (hf : ∀ a, Returns (f a) R) : Returns (x >>= f) R :=
  (returns_any x).bind fun a _ => hf a

/-- After a test of which nothing is known. -/
theorem test {t : Reader Bool} {y : Reader α} (hx : Returns x Q) (hy : Returns y Q) :
    Returns (t >>= fun b => if b = true then x else y) Q := by
  refine .bind_any fun b => ?_
  split
  · exact hx
  · exact hy

theorem of_run {text : List Char} {a : α} (hx : Returns x Q) (h : Reader.run x text = .ok a) :
    Q a := by
  unfold Reader.run at h
  split at h
  · next b s heq =>
    obtain rfl := Except.ok.inj h
    exact (hx text).of_ok heq
  · cases h

end Returns

theorem returns_upTo {read : Reader (Option α)} (h : Returns read fun o => ∀ a ∈ o, Q a)
    (fuel : Nat) : Returns (upTo read fuel) fun as => ∀ a ∈ as, Q a := by
  induction fuel with
  | zero => exact returns_pure (by simp)
  | succ fuel ih =>
    refine h.bind fun o ho => ?_
    cases o with
    | none => exact returns_pure (by simp)
    | some a =>
      refine ih.bind fun as has => returns_pure fun b hb => ?_
      rcases List.mem_cons.1 hb with rfl | hb
      · exact ho b rfl
      · exact has b hb

theorem returns_many {read : Reader (Option α)} (h : Returns read fun o => ∀ a ∈ o, Q a) :
    Returns (many read) fun as => ∀ a ∈ as, Q a :=
  .bind_any fun _ => returns_upTo h _

end Munch.Reader
