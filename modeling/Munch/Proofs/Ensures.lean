/-
Reasoning about actions with a state that may fail. `Ensures x s Q E` says how the action ends when
it starts in `s`: if it returns, `Q` holds of the value and the new state, and if it fails, `E` holds
of the error and the state it leaves behind. There is one rule for each way an action is put
together. With `E` false the action returns for sure.
-/

namespace Munch

variable {ε σ α β : Type}

/-- From the state on, the action returns as `Q` says or fails as `E` says. -/
def Ensures (x : EStateM ε σ α) (s : σ) (Q : α → σ → Prop) (E : ε → σ → Prop) : Prop :=
  match x s with
  | .ok a t => Q a t
  | .error e t => E e t

variable {x : EStateM ε σ α} {f : α → EStateM ε σ β} {s : σ} {Q Q' : α → σ → Prop}
  {R : β → σ → Prop} {E E' : ε → σ → Prop}

theorem ensures_pure {a : α} (h : Q a s) : Ensures (pure a) s Q E := h

theorem ensures_throw {e : ε} (h : E e s) : Ensures (throw e) s Q E := h

theorem ensures_set {P : PUnit → σ → Prop} {t : σ} (h : P ⟨⟩ t) : Ensures (set t) s P E := h

theorem ensures_modify {P : PUnit → σ → Prop} {g : σ → σ} (h : P ⟨⟩ (g s)) :
    Ensures (modify g) s P E := h

theorem Ensures.bind (hx : Ensures x s Q E) (hf : ∀ a t, Q a t → Ensures (f a) t R E) :
    Ensures (x >>= f) s R E := by
  unfold Ensures at hx
  show match EStateM.bind x f s with | .ok b t => R b t | .error e t => E e t
  unfold EStateM.bind
  split at hx
  · next a t heq => simp only [heq]; exact hf a t hx
  · next e t heq => simp only [heq]; exact hx

theorem Ensures.congr {y : EStateM ε σ α} (h : y s = x s) (hx : Ensures x s Q E) :
    Ensures y s Q E := by
  unfold Ensures at hx ⊢
  rwa [h]

/-- Less may be said about the ends than is known. -/
theorem Ensures.imp (hx : Ensures x s Q E) (hQ : ∀ a t, Q a t → Q' a t)
    (hE : ∀ e t, E e t → E' e t) : Ensures x s Q' E' := by
  unfold Ensures at *
  split at hx
  · exact hQ _ _ hx
  · exact hE _ _ hx

theorem Ensures.mono (hx : Ensures x s Q E) (hQ : ∀ a t, Q a t → Q' a t) : Ensures x s Q' E :=
  hx.imp hQ fun _ _ h => h

/-- Both what is known in one way of how an action ends and what is known in another. -/
theorem Ensures.and (h : Ensures x s Q E) (h' : Ensures x s Q' E') :
    Ensures x s (fun a t => Q a t ∧ Q' a t) fun e t => E e t ∧ E' e t := by
  unfold Ensures at *
  split at h
  · next heq => exact ⟨h, by simpa only [heq] using h'⟩
  · next heq => exact ⟨h, by simpa only [heq] using h'⟩

/-- After an action that returns for sure. -/
theorem Ensures.bind_sure (hx : Ensures x s Q fun _ _ => False)
    (hf : ∀ a t, Q a t → Ensures (f a) t R E) : Ensures (x >>= f) s R E :=
  Ensures.bind (hx.imp (fun _ _ h => h) fun _ _ h => h.elim) hf

theorem ensures_get_bind {g : σ → EStateM ε σ β} (h : Ensures (g s) s R E) :
    Ensures (get >>= g) s R E := h

theorem ensures_set_bind {t : σ} {g : PUnit → EStateM ε σ β} (h : Ensures (g ⟨⟩) t R E) :
    Ensures (set t >>= g) s R E := h

theorem ensures_modify_bind {u : σ → σ} {g : PUnit → EStateM ε σ β}
    (h : Ensures (g ⟨⟩) (u s) R E) : Ensures (modify u >>= g) s R E := h

theorem Ensures.of_ok (hx : Ensures x s Q E) {a : α} {t : σ} (h : x s = .ok a t) : Q a t := by
  unfold Ensures at hx
  simpa only [h] using hx

theorem Ensures.of_error (hx : Ensures x s Q E) {e : ε} {t : σ} (h : x s = .error e t) : E e t := by
  unfold Ensures at hx
  simpa only [h] using hx

/-- One action after the other returns if each of them does. -/
theorem bind_run_eq_ok {b : β} {t : σ} :
    (x >>= f) s = .ok b t ↔ ∃ a u, x s = .ok a u ∧ f a u = .ok b t := by
  show EStateM.bind x f s = _ ↔ _
  unfold EStateM.bind
  cases x s with
  | ok a u =>
    constructor
    · exact fun h => ⟨a, u, rfl, h⟩
    · intro h
      obtain ⟨_, _, heq, h⟩ := h
      cases heq
      exact h
  | error e u => simp

/-- An action that cannot fail returns. -/
theorem Ensures.exists_ok (hx : Ensures x s Q fun _ _ => False) : ∃ a t, x s = .ok a t ∧ Q a t := by
  unfold Ensures at hx
  split at hx
  · next a t heq => exact ⟨a, t, heq, hx⟩
  · exact hx.elim

end Munch
