/-
What holds of a resolution however its steps are merged and resolved. An `Upkeep` is a property that
merging two known steps keeps, together with what it means for a step to be known. Then combining
transitions keeps the property as well, and so do resolving a step, the work on the queue and any call
that names known steps (`Upkeep.answer`).

`Works` is the work on the queue without any bound on its length. If a property bounds how many steps
are resolved, so much fuel is enough for it (`explore_works`).
-/
import Mathlib.Data.List.Perm.Subperm
import Munch.Proofs.Table.Combine
import Munch.Table.Session

namespace Munch

open Resolution

namespace ResolutionM

variable {α β : Type} {Inv : Resolution → Prop} {Known : Resolution → StepId → Prop}
  {E : Error → Prop} {x : ResolutionM α} {f : α → ResolutionM β} {a : α} {e : Error}
  {r r' : Resolution} {Q : α → Resolution → Prop} {R : β → Resolution → Prop} {range : Interval}
  {s t : StepId} {u v : Transition} {cases : List Case}

/-- The action keeps the property and what was merged, and fails only as `E` says. -/
def Keeps (Inv : Resolution → Prop) (E : Error → Prop) (x : ResolutionM α) (r : Resolution)
    (Q : α → Resolution → Prop) : Prop :=
  Ensures x r (fun a r' => Inv r' ∧ Extends r r' ∧ Q a r') fun e r' => Inv r' ∧ E e

theorem Keeps.bind (hx : Keeps Inv E x r Q)
    (hf : ∀ a r', Inv r' → Extends r r' → Q a r' → Keeps Inv E (f a) r' R) :
    Keeps Inv E (x >>= f) r R := by
  refine Ensures.bind hx fun a r' h => ?_
  obtain ⟨hr', hext, hQ⟩ := h
  exact (hf a r' hr' hext hQ).mono fun b r'' h => ⟨h.1, hext.trans h.2.1, h.2.2⟩

theorem keeps_pure (h : Inv r) (hQ : Q a r) : Keeps Inv E (pure a) r Q :=
  ensures_pure ⟨h, .refl r, hQ⟩

theorem keeps_throw (h : Inv r) (he : E e) : Keeps Inv E (throw e : ResolutionM α) r Q :=
  ensures_throw ⟨h, he⟩

theorem keeps_get_bind {g : Resolution → ResolutionM β} (h : Keeps Inv E (g r) r R) :
    Keeps Inv E (get >>= g) r R := h

/-- What merging known steps keeps. Every step of the table is known and so is every step that its
cases go on at. -/
structure Upkeep (Inv : Resolution → Prop) (Known : Resolution → StepId → Prop)
    (E : Error → Prop) : Prop where
  mono : ∀ r r' s, Known r s → Extends r r' → Known r' s
  known : ∀ r s, Inv r → r.steps.get? s ≠ none → Known r s
  goes : ∀ r s cases c target conditions, Inv r → r.steps.get? s = some cases → c ∈ cases →
    c.transition = .go target conditions → Known r target
  merge : ∀ r s t, Inv r → Known r s → Known r t →
    Keeps Inv E (merge s t) r fun u r' => Known r' u
  resolve : ∀ r s cases, Inv r → Known r s →
    Inv { r with resolved := r.resolved.insert s cases }
  noStep : ∀ s, E (.noStep s)
  noAcceptingStep : ∀ index, E (.noAcceptingStep index)

/-- The transition goes on at a known step, if it goes on. -/
def GoesKnown (Known : Resolution → StepId → Prop) (r : Resolution) (t : Transition) : Prop :=
  ∀ target conditions, t = .go target conditions → Known r target

/-- The work on a queue, as long as it takes: how it ends, and in what state. -/
inductive Works : List StepId → List StepId → Resolution → EStateM.Result Error Resolution Unit →
    Prop where
  | done {seen : List StepId} {r : Resolution} : Works seen [] r (.ok () r)
  | fail {seen queue : List StepId} {step : StepId} {e : Error} {r r' : Resolution} :
    resolveStep step r = .error e r' → Works seen (step :: queue) r (.error e r')
  | next {seen queue fresh : List StepId} {step : StepId} {cases : List Case}
      {r r' : Resolution} {out : EStateM.Result Error Resolution Unit} :
    resolveStep step r = .ok cases r' →
    fresh = ((cases.flatMap (·.transition.steps)).eraseDups.filter (!seen.contains ·)) →
    Works (seen ++ fresh) (queue ++ fresh) { r' with resolved := r'.resolved.insert step cases }
      out → Works seen (step :: queue) r out

theorem explore_cons_error (h : resolveStep s r = .error e r') (fuel : Nat)
    (seen queue : List StepId) : explore (fuel + 1) seen (s :: queue) r = .error e r' := by
  rw [explore]
  show EStateM.bind (resolveStep s) _ r = _
  rw [EStateM.bind, h]

theorem explore_cons_ok (h : resolveStep s r = .ok cases r') (fuel : Nat)
    (seen queue : List StepId) :
    explore (fuel + 1) seen (s :: queue) r =
      explore fuel
        (seen ++ (cases.flatMap (·.transition.steps)).eraseDups.filter (!seen.contains ·))
        (queue ++ (cases.flatMap (·.transition.steps)).eraseDups.filter (!seen.contains ·))
        { r' with resolved := r'.resolved.insert s cases } := by
  rw [explore]
  show EStateM.bind (resolveStep s) _ r = _
  rw [EStateM.bind, h]
  rfl

/-- Only steps that were not seen are queued. -/
theorem nodup_append_fresh {seen : List StepId} (h : seen.Nodup) (named : List StepId) :
    (seen ++ named.eraseDups.filter (!seen.contains ·)).Nodup := by
  refine List.nodup_append.2 ⟨h, (nodup_eraseDups _).filter _, fun x hx y hy hxy => ?_⟩
  have hnot := (List.mem_filter.1 hy).2
  rw [← hxy, List.contains_iff_mem.2 hx] at hnot
  cases hnot

namespace Upkeep

variable (h : Upkeep Inv Known E)

include h

/-! ## Each part of a round -/

theorem goesKnown_mono (hu : GoesKnown Known r u) (hext : Extends r r') : GoesKnown Known r' u :=
  fun target conditions heq => h.mono r r' target (hu target conditions heq) hext

theorem casesOf_keeps (hr : Inv r) :
    Keeps Inv E (casesOf s) r fun cases r' => r' = r ∧ r.steps.get? s = some cases := by
  refine keeps_get_bind ?_
  cases hs : r.steps.get? s with
  | some cases => exact keeps_pure hr ⟨rfl, rfl⟩
  | none => exact keeps_throw hr (h.noStep s)

theorem acceptorOf_keeps (hr : Inv r) (index : PatternIndex) :
    Keeps Inv E (acceptorOf index) r fun _ r' => r' = r := by
  refine keeps_get_bind ?_
  split
  · exact keeps_pure hr rfl
  · split
    · exact keeps_pure hr rfl
    · exact keeps_throw hr (h.noAcceptingStep index)

theorem combine_keeps (hr : Inv r) (hu : GoesKnown Known r u) (hv : GoesKnown Known r v) :
    Keeps Inv E (combine range u v) r fun w r' => GoesKnown Known r' w := by
  cases u with
  | go target conditions =>
    have htarget := hu target conditions rfl
    cases v with
    | go target' conditions' =>
      rw [combine_go]
      refine Keeps.bind (Q := fun s r' => Known r' s) ?_ fun s r' hr' _ hs => keeps_pure hr' ?_
      · split
        · exact keeps_pure hr htarget
        · exact h.merge r target target' hr htarget (hv target' conditions' rfl)
      · intro _ _ heq
        cases heq
        exact hs
    | accept index =>
      refine (h.acceptorOf_keeps hr index).bind fun s r' hr' _ hs => keeps_pure hr' ?_
      intro _ _ heq
      cases heq
      exact hs ▸ htarget
  | accept index =>
    cases v with
    | go target conditions =>
      refine (h.acceptorOf_keeps hr index).bind fun s r' hr' _ hs => keeps_pure hr' ?_
      intro _ _ heq
      cases heq
      exact hs ▸ hv target conditions rfl
    | accept index' =>
      refine keeps_pure hr ?_
      intro _ _ heq
      cases heq

theorem combineAll_keeps {vs : List Transition} (hr : Inv r) (hu : GoesKnown Known r u)
    (hvs : ∀ v ∈ vs, GoesKnown Known r v) :
    Keeps Inv E (combineAll range u vs) r fun _ _ => True := by
  induction vs generalizing r u with
  | nil => exact keeps_pure hr trivial
  | cons v vs ih =>
    refine (h.combine_keeps hr hu (hvs v (by simp))).bind fun w r' hr' hext hw => ?_
    exact ih hr' hw fun x hx => h.goesKnown_mono (hvs x (by simp [hx])) hext

theorem combineCases_keeps (ranges : List Interval) (hr : Inv r)
    (hcases : ∀ c ∈ cases, GoesKnown Known r c.transition) :
    Keeps Inv E (combineCases cases ranges) r fun _ _ => True := by
  induction ranges generalizing r with
  | nil => exact keeps_pure hr trivial
  | cons range rest ih =>
    rw [combineCases]
    split
    · exact ih hr hcases
    · next u us hus =>
      have hknown : ∀ v ∈ u :: us, GoesKnown Known r v := by
        intro v hv
        rw [← hus] at hv
        obtain ⟨c, hc, rfl⟩ := List.mem_map.1 hv
        exact hcases c (List.mem_filter.1 hc).1
      refine (h.combineAll_keeps hr (hknown u (by simp)) fun v hv => hknown v (by simp [hv])).bind
        fun v r' hr' hext _ => ?_
      refine (ih hr' fun c hc => h.goesKnown_mono (hcases c hc) hext).bind fun _ _ hr'' _ _ => ?_
      exact keeps_pure hr'' trivial

theorem resolveStep_keeps (hr : Inv r) (s : StepId) :
    Keeps Inv E (resolveStep s) r fun _ r' => Known r' s := by
  refine (h.casesOf_keeps hr).bind fun cases r' _ _ hs => ?_
  obtain ⟨rfl, hcases⟩ := hs
  have hknown := h.known r' s hr (hcases ▸ Option.some_ne_none cases)
  have hcut : ∀ c ∈ cutCases cases, GoesKnown Known r' c.transition := by
    intro c hc target conditions heq
    obtain ⟨d, hd, -, htransition⟩ := mem_cutCases.1 hc
    exact h.goes r' s cases d target conditions hr hcases hd (htransition ▸ heq)
  refine (h.combineCases_keeps _ hr hcut).bind fun out r'' hr'' hext _ => keeps_pure hr'' ?_
  exact h.mono r' r'' s hknown hext

/-! ## The queue -/

theorem explore_keeps (fuel : Nat) (seen queue : List StepId) (hr : Inv r) :
    Ensures (explore fuel seen queue) r (fun _ r' => Inv r') fun e r' => Inv r' ∧ E e := by
  induction fuel generalizing r seen queue with
  | zero => exact ensures_pure hr
  | succ fuel ih =>
    cases queue with
    | nil => exact ensures_pure hr
    | cons s queue =>
      rw [explore]
      refine Ensures.bind (h.resolveStep_keeps hr s) fun cases r' hr' => ensures_modify_bind ?_
      exact ih _ _ (h.resolve r' s cases hr'.1 hr'.2.2)

theorem resolve_keeps (initial : StepId) (hr : Inv r) :
    Ensures (ResolutionM.resolve initial) r (fun _ r' => Inv r') fun _ r' => Inv r' := by
  have hfrom := (h.explore_keeps (stepBound r + 1) [initial] [initial] hr).imp
    (fun _ _ h => h) fun _ _ h => h.1
  refine Ensures.bind (ensures_get_bind hfrom) fun _ r' hr' => ensures_get_bind ?_
  dsimp only
  split
  · exact ensures_pure hr'
  · exact ensures_throw hr'

/-- If no more than `n` steps are resolved, the fuel lasts until the queue is empty or a step fails. -/
theorem explore_works {n fuel : Nat} {done queue : List StepId}
    (hbound : ∀ r, Inv r → r.resolved.size ≤ n) (hr : Inv r) (hn : (done ++ queue).Nodup)
    (hdone : ∀ s ∈ done, r.resolved.get? s ≠ none) (hfuel : n < done.length + fuel) :
    Works (done ++ queue) queue r (explore fuel (done ++ queue) queue r) := by
  induction fuel generalizing r done queue with
  | zero =>
    have hle : done.length ≤ r.resolved.keys.length := by
      refine (List.subperm_of_subset (List.nodup_append.1 hn).1 fun s hs => ?_).length_le
      exact IdMap.mem_keys.2 (hdone s hs)
    have hsize := r.resolved.length_keys
    have hle' := hbound r hr
    omega
  | succ fuel ih =>
    cases queue with
    | nil => exact .done
    | cons s queue =>
      have hkeeps := h.resolveStep_keeps hr s
      cases hstep : resolveStep s r with
      | error e r' =>
        rw [explore_cons_error hstep]
        exact .fail hstep
      | ok cases r' =>
        obtain ⟨hr', hext, hknown⟩ := Ensures.of_ok hkeeps hstep
        have hnodup := nodup_append_fresh hn (cases.flatMap (·.transition.steps))
        rw [explore_cons_ok hstep]
        generalize hfresh : (cases.flatMap (·.transition.steps)).eraseDups.filter
          (!(done ++ s :: queue).contains ·) = fresh at hnodup ⊢
        have hcons : done ++ s :: queue ++ fresh = (done ++ [s]) ++ (queue ++ fresh) := by simp
        have hresolved : ∀ t ∈ done ++ [s], (r'.resolved.insert s cases).get? t ≠ none := by
          intro t ht
          rcases List.mem_append.1 ht with ht | ht
          · exact IdMap.get?_insert_ne_none (hext.resolved ▸ hdone t ht)
          · rw [List.mem_singleton.1 ht, IdMap.get?_insert_self]
            exact Option.some_ne_none cases
        rw [hcons] at hnodup ⊢
        have hworks := ih (h.resolve r' s cases hr' hknown) hnodup hresolved
          (by rw [List.length_append, List.length_singleton]; omega)
        exact .next hstep hfresh.symm (hcons ▸ hworks)

/-- The fuel that a resolution starts with lasts if no more steps are resolved than it allows for. -/
theorem resolveFrom_works {n : Nat} (hbound : ∀ r, Inv r → r.resolved.size ≤ n) (hr : Inv r)
    (hn : n ≤ stepBound r) (initial : StepId) :
    Works [initial] [initial] r (resolveFrom initial r) := by
  have hfuel : n < ([] : List StepId).length + (stepBound r + 1) := by
    rw [List.length_nil]
    omega
  have hexplore : Works ([] ++ [initial]) [initial] r _ :=
    h.explore_works hbound hr (by simp) (by simp) hfuel
  exact hexplore

/-! ## Calls -/

theorem call_keeps {call : Call} (hr : Inv r) (hcall : ∀ s ∈ call.steps, Known r s) :
    Ensures call.answer r (fun _ r' => Inv r') fun _ r' => Inv r' := by
  have hanswer {α : Type} {x : ResolutionM α} {f : α → Answer} {Q : α → Resolution → Prop}
      (hx : Keeps Inv E x r Q) :
      Ensures (x >>= fun a => pure (f a)) r (fun _ r' => Inv r') fun _ r' => Inv r' :=
    (hx.imp (fun _ _ h => h.1) fun _ _ h => h.1).bind fun _ _ h => ensures_pure h
  cases call with
  | resolve initial => exact (h.resolve_keeps initial hr).bind fun _ _ h => ensures_pure h
  | extend step => exact hanswer (h.resolveStep_keeps hr step)
  | fold range u v =>
    refine hanswer (h.combine_keeps hr (fun target _ heq => hcall target ?_)
      fun target _ heq => hcall target ?_)
    · simp [Call.steps, heq, Transition.steps]
    · simp [Call.steps, heq, Transition.steps]
  | merge target1 target2 =>
    refine hanswer (h.merge r target1 target2 hr (hcall target1 ?_) (hcall target2 ?_))
    · simp [Call.steps]
    · simp [Call.steps]

/-- A call that names known steps keeps the property, also if it fails. -/
theorem answer {call : Call} (hr : Inv r) (hcall : ∀ s ∈ call.steps, Known r s) :
    Inv (r.answer call).2 := by
  have hanswer := h.call_keeps hr hcall
  unfold Ensures at hanswer
  unfold Resolution.answer EStateM.run
  split at hanswer
  · next heq => simpa only [heq] using hanswer
  · next heq => simpa only [heq] using hanswer

end Upkeep

end ResolutionM

end Munch
