/-
What the limit on merged steps changes. An action that reads a resolution but for its limit does the
same with a limit as without, up to the merged step for which there is no room: there it gives up,
with as many merged steps as the limit allows. `Caps` says so of an action; of the parts of a
resolution only `merge` looks at the limit, and all that is put together from capped parts is capped.
-/
import Munch.Proofs.Table.Members

namespace Munch

/-- The resolution with another limit on its merged steps. -/
def Resolution.withLimit (r : Resolution) (limit : Option Int) : Resolution :=
  { r with maxSteps := limit }

@[simp] theorem Resolution.merged_withLimit (r : Resolution) (limit : Option Int) :
    (r.withLimit limit).merged = r.merged := rfl

namespace ResolutionM

variable {α β : Type} {m : Nat} {x : ResolutionM α} {f : α → ResolutionM β} {a : α} {e : Error}
  {r r' : Resolution} {s t step : StepId} {members : List StepId} {range : Interval}
  {cases : List Case}

/-- No merged step is taken back, and the limit stays. -/
def Grows (x : ResolutionM α) (r : Resolution) : Prop :=
  Ensures x r (fun _ r' => r'.maxSteps = r.maxSteps ∧ r.merged <+: r'.merged) fun _ _ => True

/-- How an action ends with room for `m` merged steps that without a limit returns the value in the
state: just so, if they are enough, or else for want of room and with the first `m` of them. -/
def Cut (m : Nat) (a : α) (r : Resolution) (out : EStateM.Result Error Resolution α) : Prop :=
  (r.merged.length ≤ m → out = .ok a (r.withLimit (some m))) ∧
    (m < r.merged.length → ∃ s r', out = .error (.conflict s (.unconverged m)) r' ∧
      r'.merged = r.merged.take m)

/-- The limit does nothing but to cut the action off. -/
structure Caps (m : Nat) (x : ResolutionM α) (r : Resolution) : Prop where
  grows : Grows x r
  cut : r.maxSteps = none → r.merged.length ≤ m →
    Ensures x r (fun a r' => Cut m a r' (x (r.withLimit (some m)))) fun _ _ => True

/-! ## How capped actions are put together -/

theorem Grows.bind (hx : Grows x r) (hf : ∀ a r', Grows (f a) r') : Grows (x >>= f) r := by
  refine Ensures.bind hx fun a r' hr' => (hf a r').mono fun b r'' hr'' => ?_
  exact ⟨hr''.1.trans hr'.1, hr'.2.trans hr''.2⟩

theorem Cut.of_length_le (h : r.merged.length ≤ m) : Cut m a r (.ok a (r.withLimit (some m))) :=
  ⟨fun _ => rfl, fun hlt => absurd h (Nat.not_le.2 hlt)⟩

theorem caps_pure : Caps m (pure a) r where
  grows := ensures_pure ⟨rfl, List.prefix_rfl⟩
  cut _ hlen := ensures_pure (.of_length_le hlen)

theorem caps_throw : Caps m (throw e : ResolutionM α) r where
  grows := ensures_throw trivial
  cut _ _ := ensures_throw trivial

theorem Caps.bind (hx : Caps m x r) (hf : ∀ a r', Caps m (f a) r') : Caps m (x >>= f) r where
  grows := hx.grows.bind fun a r' => (hf a r').grows
  cut hnone hlen := by
    refine (hx.grows.and (hx.cut hnone hlen)).imp (fun _ _ h => h) (fun _ _ _ => trivial)
      |>.bind fun a r₁ h₁ => ?_
    obtain ⟨⟨hlimit, -⟩, hcut⟩ := h₁
    by_cases hroom : r₁.merged.length ≤ m
    · refine ((hf a r₁).cut (hlimit.trans hnone) hroom).mono fun b r₂ h₂ => ?_
      show Cut m b r₂ (EStateM.bind x f _)
      rw [EStateM.bind, hcut.1 hroom]
      exact h₂
    -- The first part was cut off already, and what it lacked stays.
    · obtain ⟨s, r₀, hout, hr₀⟩ := hcut.2 (Nat.not_le.1 hroom)
      refine Ensures.mono (hf a r₁).grows fun b r₂ h₂ => ⟨fun hle => ?_, fun _ => ⟨s, r₀, ?_, ?_⟩⟩
      · exact absurd (Nat.le_trans h₂.2.length_le hle) hroom
      · show EStateM.bind x f _ = _
        rw [EStateM.bind, hout]
      · obtain ⟨more, hmore⟩ := h₂.2
        rw [hr₀, ← hmore, List.take_append_of_le_length (Nat.le_of_not_le hroom)]

theorem caps_get_bind {g : Resolution → ResolutionM β} (hg : g (r.withLimit (some m)) = g r)
    (h : Caps m (g r) r) : Caps m (get >>= g) r where
  grows := h.grows
  cut hnone hlen := by
    have hbind : (get >>= g : ResolutionM β) (r.withLimit (some m)) = g r (r.withLimit (some m)) :=
      congrFun hg _
    refine ensures_get_bind ?_
    rw [hbind]
    exact h.cut hnone hlen

theorem caps_modify_bind {u : Resolution → Resolution} {g : PUnit → ResolutionM β}
    (hlimit : ∀ limit, u (r.withLimit limit) = (u r).withLimit limit)
    (hgrows : r.merged <+: (u r).merged)
    (hroom : r.merged.length ≤ m → (u r).merged.length ≤ m) (h : Caps m (g ⟨⟩) (u r)) :
    Caps m (modify u >>= g) r := by
  have hkeeps : (u r).maxSteps = r.maxSteps := by
    have hself := congrArg Resolution.maxSteps (hlimit r.maxSteps)
    exact hself
  refine ⟨ensures_modify_bind (h.grows.mono fun b r' hr' => ?_), fun hnone hlen => ?_⟩
  · exact ⟨hr'.1.trans hkeeps, hgrows.trans hr'.2⟩
  · have hbind : (modify u >>= g : ResolutionM β) (r.withLimit (some m)) =
        g ⟨⟩ ((u r).withLimit (some m)) := congrArg (g ⟨⟩) (hlimit _)
    refine ensures_modify_bind ?_
    rw [hbind]
    exact h.cut (hkeeps.trans hnone) (hroom hlen)

/-! ## The parts of a resolution -/

theorem casesOf_caps : Caps m (casesOf step) r := by
  refine caps_get_bind rfl ?_
  cases r.steps.get? step with
  | some cases => exact caps_pure
  | none => exact caps_throw

theorem acceptorOf_caps {index : PatternIndex} : Caps m (acceptorOf index) r := by
  refine caps_get_bind rfl ?_
  split
  · exact caps_pure
  · split
    · exact caps_pure
    · exact caps_throw

theorem casesOfAll_caps (steps : List StepId) : Caps m (casesOfAll steps) r := by
  induction steps generalizing r with
  | nil => exact caps_pure
  | cons step rest ih =>
    exact casesOf_caps.bind fun _ _ => ih.bind fun _ _ => caps_pure

/-- A merged step more, which there has to be room for. -/
theorem register_caps (hroom : r.merged.length ≠ m) : Caps m (register members) r := by
  refine caps_get_bind rfl (caps_modify_bind (fun _ => rfl) List.prefix_rfl id ?_)
  refine caps_modify_bind (fun _ => rfl) (List.prefix_append _ _) ?_ ?_
  · rw [List.length_append, List.length_singleton]
    exact fun hle => Nat.lt_of_le_of_ne hle hroom
  · refine caps_modify_bind (fun _ => rfl) List.prefix_rfl id ?_
    refine (casesOfAll_caps members).bind fun cases r' => ?_
    exact caps_modify_bind (fun _ => rfl) List.prefix_rfl id caps_pure

theorem register_grows :
    Ensures (register members) r
      (fun _ r' => r'.maxSteps = r.maxSteps ∧ r'.merged = r.merged ++ [(members, r.nextStep)])
      fun _ _ => True := by
  refine (register_adds members r).mono fun s r' hr' => ?_
  obtain ⟨-, cases, ends, rfl⟩ := hr'
  exact ⟨rfl, rfl⟩

theorem merge_grows : Grows (merge s t) r := by
  rcases merge_cases s t r with ⟨u, -, heq⟩ | ⟨-, -, heq⟩ | ⟨-, n, -, -, heq⟩
  · exact .congr (x := pure u) heq (ensures_pure ⟨rfl, List.prefix_rfl⟩)
  · refine .congr heq (register_grows.mono fun _ r' hr' => ⟨hr'.1, ?_⟩)
    exact hr'.2 ▸ List.prefix_append _ _
  · exact .congr (x := throw _) heq (ensures_throw trivial)

theorem merge_caps : Caps m (merge s t) r := by
  refine ⟨merge_grows, fun hnone hlen => ?_⟩
  have hjoint : joint? (r.withLimit (some m)) s t = joint? r s t := rfl
  cases hj : joint? r s t with
  | some u =>
    refine .congr (x := pure u) (merge_of_joint hj) (ensures_pure ?_)
    rw [merge_of_joint (hjoint.trans hj)]
    exact .of_length_le hlen
  | none =>
    have hregister : merge s t r = register (joined r s t) r :=
      merge_of_room hj (by simp [hnone])
    refine .congr hregister ?_
    by_cases hroom : r.merged.length < m
    · have heq : merge s t (r.withLimit (some m)) = register (joined r s t) (r.withLimit (some m)) :=
        merge_of_room (hjoint.trans hj) fun n hn => by
          obtain rfl := Option.some.inj hn
          simpa using hroom
      rw [heq]
      exact (register_caps (Nat.ne_of_lt hroom)).cut hnone hlen
    -- There is no room for one more.
    · have hfull : merge s t (r.withLimit (some m)) =
          .error (.conflict s (.unconverged m)) (r.withLimit (some m)) :=
        merge_of_full (hjoint.trans hj) rfl (by simpa using hroom)
      have heq : r.merged.length = m := by omega
      refine register_grows.mono fun u r' hr' => ⟨fun hle => ?_, fun _ => ⟨s, _, hfull, ?_⟩⟩
      · rw [hr'.2, List.length_append, List.length_singleton] at hle
        omega
      · rw [hr'.2, ← heq, List.take_left, Resolution.merged_withLimit]

theorem combine_caps (u v : Transition) : Caps m (combine range u v) r := by
  cases u with
  | go target conditions =>
    cases v with
    | go target' conditions' =>
      by_cases heq : target = target'
      · simp only [combine, if_pos heq]
        exact caps_pure.bind fun _ _ => caps_pure
      · simp only [combine, if_neg heq]
        exact merge_caps.bind fun _ _ => caps_pure
    | accept index => exact acceptorOf_caps.bind fun _ _ => caps_pure
  | accept index =>
    cases v with
    | go target conditions => exact acceptorOf_caps.bind fun _ _ => caps_pure
    | accept index' => exact caps_pure

theorem combineAll_caps (u : Transition) (vs : List Transition) :
    Caps m (combineAll range u vs) r := by
  induction vs generalizing r u with
  | nil => exact caps_pure
  | cons v vs ih => exact (combine_caps u v).bind fun w _ => ih w

theorem combineCases_caps (cases : List Case) (ranges : List Interval) :
    Caps m (combineCases cases ranges) r := by
  induction ranges generalizing r with
  | nil => exact caps_pure
  | cons range rest ih =>
    rw [combineCases]
    split
    · exact ih
    · next u us _ => exact (combineAll_caps u us).bind fun _ _ => ih.bind fun _ _ => caps_pure

theorem resolveStep_caps : Caps m (resolveStep step) r :=
  casesOf_caps.bind fun _ _ => (combineCases_caps _ _).bind fun _ _ => caps_pure

theorem explore_caps (fuel : Nat) (seen queue : List StepId) : Caps m (explore fuel seen queue) r := by
  induction fuel generalizing r seen queue with
  | zero => exact caps_pure
  | succ fuel ih =>
    cases queue with
    | nil => exact caps_pure
    | cons step queue =>
      rw [explore]
      refine resolveStep_caps.bind fun cases r' => ?_
      exact caps_modify_bind (fun _ => rfl) List.prefix_rfl id (ih _ _)

theorem resolve_caps (initial : StepId) : Caps m (resolve initial) r := by
  refine Caps.bind (caps_get_bind rfl (explore_caps _ _ _)) fun _ r' => caps_get_bind rfl ?_
  dsimp only
  split
  · exact caps_pure
  · exact caps_throw

end ResolutionM

/-- **The limit only ever cuts a resolution off.** -/
theorem RawTable.resolve_limit {raw : RawTable} {initial first : StepId} {table : Table}
    {r : Resolution}
    (h : (ResolutionM.resolve initial).run (.ofRaw raw first none) = .ok table r) (m : Nat) :
    let bounded := (ResolutionM.resolve initial).run (.ofRaw raw first (some m))
    ((∃ e r', bounded = .error e r') ↔ m < r.merged.length) ∧
      (∀ e r', bounded = .error e r' →
        (∃ s, e = .conflict s (.unconverged m)) ∧ r'.merged = r.merged.take m) ∧
      ∀ table' r', bounded = .ok table' r' → table' = table ∧ r' = r.withLimit (some m) := by
  intro bounded
  have hcaps : ResolutionM.Caps m (ResolutionM.resolve initial) (.ofRaw raw first none) :=
    ResolutionM.resolve_caps initial
  have hcut : ResolutionM.Cut m table r bounded := (hcaps.cut rfl (Nat.zero_le m)).of_ok h
  clear_value bounded
  by_cases hroom : r.merged.length ≤ m
  · obtain rfl := hcut.1 hroom
    refine ⟨⟨fun he => ?_, fun hlt => absurd hroom (Nat.not_le.2 hlt)⟩, fun e r' he => ?_,
      fun table' r' hok => ?_⟩
    · obtain ⟨e, r', he⟩ := he
      cases he
    · cases he
    · cases hok
      exact ⟨rfl, rfl⟩
  · obtain ⟨s, r₀, rfl, hr₀⟩ := hcut.2 (Nat.not_le.1 hroom)
    refine ⟨⟨fun _ => Nat.not_le.1 hroom, fun _ => ⟨_, r₀, rfl⟩⟩, fun e r' he => ?_,
      fun table' r' hok => ?_⟩
    · cases he
      exact ⟨⟨s, rfl⟩, hr₀⟩
    · cases hok

/-- Three cases on one byte take two merged steps, although no more than one of them can be reached. -/
theorem RawTable.resolve_limit_three :
    let raw : RawTable := ⟨⟨⟨[(0, [⟨⟨97, 97⟩, .go 1 []⟩, ⟨⟨97, 97⟩, .go 2 []⟩,
      ⟨⟨97, 97⟩, .go 3 []⟩]), (1, []), (2, []), (3, [])], by decide⟩, .empty⟩, .empty, some 0⟩
    let bounded (limit : Option Int) := (ResolutionM.resolve 0).run (.ofRaw raw 4 limit)
    ∃ table r, bounded none = .ok table r ∧ r.merged = [([1, 2], 4), ([1, 2, 3], 5)] ∧
      r.resolved.keys = [0, 5] ∧ (∃ e r', bounded (some 1) = .error e r') ∧
      ¬∃ e r', bounded (some 2) = .error e r' := by
  intro raw bounded
  have hrun : ∃ table r, bounded none = .ok table r ∧ r.merged = [([1, 2], 4), ([1, 2, 3], 5)] ∧
      r.resolved.keys = [0, 5] := ⟨_, _, rfl, by decide +kernel, by decide +kernel⟩
  obtain ⟨table, r, hrun, hmerged, hresolved⟩ := hrun
  refine ⟨table, r, hrun, hmerged, hresolved, ?_, ?_⟩
  · exact (resolve_limit hrun 1).1.2 (by rw [hmerged]; decide)
  · intro herror
    have hlt := (resolve_limit hrun 2).1.1 herror
    rw [hmerged] at hlt
    exact absurd hlt (by decide)

end Munch
