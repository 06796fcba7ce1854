/-
Building the whole table. A step first gets the lowest pattern that it finishes on arrival, then its
cases; then the steps that the cases go on to are queued, each of them once. When the queue is empty
the table is closed: every case goes on to a step (`build_ensures`).
-/
import Munch.Proofs.Table.Collect

namespace Munch.DraftM

open Program Draft

variable {p : Program} {d d' d₀ : Draft} {i j : Nat} {s : Int} {S : Int → Prop}

/-! ## Ends -/

theorem arrive_ensures (h : Lowers d₀ d i S) (j : Nat) :
    Ensures (arrive p i j) d
      (fun _ d' => Lowers d₀ d' i fun k => S k ∨ p.insts[j]? = some (.accept k))
      fun _ _ => True := by
  refine ofExcept_bind fun inst hget => ?_
  have hi := get_eq_ok_iff.1 hget
  cases inst with
  | accept index =>
    refine (acceptAt_ensures h).mono fun _ d' h' => ?_
    refine { h' with least := h'.least.congr fun k => or_congr_right ?_ }
    simp [hi, eq_comm]
  | save | split | look | char | span | oneOf | nop =>
    exact ensures_pure { h with least := h.least.congr fun k => by simp [hi] }

theorem splitEnds_ensures (h : Lowers d₀ d i S) (j : Nat) :
    Ensures (splitEnds p i j) d
      (fun r d' => j < p.insts.size ∧ r.1.length ≤ 2 ∧ (∀ k, k ∈ r.1 ↔ p.Branches j k) ∧
        Lowers d₀ d' i fun index => S index ∨
          ∃ k, p.Branches j k ∧ p.insts[k]? = some (.accept index))
      fun _ _ => True := by
  refine ofExcept_bind fun inst hget => ?_
  have hi := get_eq_ok_iff.1 hget
  cases inst with
  | split first second =>
    refine ofExcept_bind fun a ha => ofExcept_bind fun b hb => ?_
    refine (arrive_ensures h a).bind fun _ d₁ h₁ => (arrive_ensures h₁ b).bind fun _ d₂ h₂ => ?_
    refine ensures_pure ⟨lt_of_inst hi, by simp, fun k => ?_, ?_⟩
    · simpa [or_comm] using (branches_split hi ha hb).symm
    · refine { h₂ with least := h₂.least.congr fun index => ?_ }
      simp only [branches_split hi ha hb, or_assoc, or_and_right, exists_or, exists_eq_left]
  | accept | save | look | char | span | oneOf | nop =>
    refine ensures_pure ⟨lt_of_inst hi, by simp, fun k => ?_, ?_⟩
    · simpa using not_branches hi (by simp)
    · exact { h with least := h.least.congr fun index => by simp [not_branches hi (by simp)] }

/-- What is finished behind a branch lies elsewhere, and the other way round. -/
theorem exists_branch_iff {index : Int} :
    (∃ j, p.Within i j ∧ ∃ k, p.Branches j k ∧ p.insts[k]? = some (.accept index)) ↔
      ∃ k, p.Within i k ∧ k ≠ i ∧ p.insts[k]? = some (.accept index) := by
  constructor
  · intro h
    obtain ⟨j, hj, k, hb, hk⟩ := h
    refine ⟨k, hj.tail hb, fun hki => ?_, hk⟩
    subst hki
    obtain rfl := hj.eq_of_accept hk
    exact not_branches hk (by simp) hb
  · intro h
    obtain ⟨k, hk, hne, hacc⟩ := h
    rcases Relation.ReflTransGen.cases_tail hk with rfl | ⟨j, hj, hb⟩
    · exact absurd rfl hne
    · exact ⟨j, hj, k, hb, hacc⟩

theorem keeps_of_lowers (hd : Sound p (fun _ => False) d) (hs : d.steps.get? i = none)
    (h : Lowers d d' i S) : Keeps p d d' where
  steps t cases ht := h.steps ▸ ht
  ends t k ht := by
    have hstep := (hd.hasStep t k ht).resolve_right id
    exact (h.other t fun hti => hstep (hti ▸ hs)).trans ht
  acceptors index t ht := h.acceptors ▸ ht
  new t cases ht hn := by
    rw [h.steps, hn] at ht
    cases ht

/-- A draft stays sound when a step that is new to it gets the lowest pattern finished behind it. -/
theorem sound_of_lowers (hd : Sound p (fun _ => False) d) (hs : d.steps.get? i = none)
    (h : Lowers d d' i fun index => ∃ k, p.Within i k ∧ k ≠ i ∧
      p.insts[k]? = some (.accept index)) : Sound p (fun s => s = i) d' where
  isStep := h.steps ▸ hd.isStep
  least t k ht := by
    by_cases hti : t = i
    · subst hti
      have hleast := h.least
      rw [ht] at hleast
      obtain ⟨⟨j, hj, hji, hk⟩, hmin⟩ := hleast
      refine ⟨i, rfl, ⟨j, hj, hk⟩, fun l hl => ?_⟩
      obtain ⟨m, hm, hl⟩ := hl
      refine hmin l ⟨m, hm, fun hmi => hji ?_, hl⟩
      exact hj.eq_of_accept (hmi ▸ hl)
    · exact hd.least t k (h.other t hti ▸ ht)
  ends j cases index hj hi := by
    rw [h.steps] at hj
    exact ne_none_of_le ((keeps_of_lowers hd hs h).ends j) (hd.ends j cases index hj hi)
  hasStep t k ht := by
    by_cases hti : t = i
    · exact .inr hti
    · rw [h.other t hti] at ht
      exact .inl (h.steps ▸ (hd.hasStep t k ht).resolve_right id)
  acceptor index t ht := by
    obtain ⟨hstep, hend⟩ := hd.acceptor index t (h.acceptors ▸ ht)
    exact ⟨h.steps ▸ hstep, (keeps_of_lowers hd hs h).ends t index hend⟩
  accepts := by
    rw [h.steps, h.acceptors]
    exact hd.accepts
  found := by
    rw [h.steps, h.acceptors]
    exact hd.found

/-- A step that is new to the draft gets the lowest pattern that is finished from it, unless it is
the end of a pattern itself. -/
theorem acceptOnArrival_ensures (hd : Sound p (fun _ => False) d) (hs : d.steps.get? i = none) :
    Ensures (acceptOnArrival p i) d
      (fun _ d' => Sound p (fun s => s = i) d' ∧ Keeps p d d' ∧ d'.steps = d.steps ∧
        ∀ j index, p.Within i j → j ≠ i → p.insts[j]? = some (.accept index) →
          d'.ends.get? i ≠ none)
      fun _ _ => True := by
  have hnone : d.ends.get? i = none := by
    cases he : d.ends.get? i with
    | none => rfl
    | some k => exact absurd hs ((hd.hasStep i k he).resolve_right id)
  have hinit : Lowers d d i fun index => ∃ j ∈ ([] : List Nat), ∃ k, p.Branches j k ∧
      p.insts[k]? = some (.accept index) := ⟨rfl, rfl, fun _ _ => rfl, by simp [hnone, Least]⟩
  refine (walkFrom_ensures p.Branches (fun _ _ => True) (I := fun seen _ d' => Lowers d d' i fun index =>
    ∃ j ∈ seen, ∃ k, p.Branches j k ∧ p.insts[k]? = some (.accept index))
    (fun j seen found d₁ _ _ h => ?_) hinit).bind fun _ d' h => ensures_pure ?_
  · refine (splitEnds_ensures h j).mono fun r d₂ h' => ?_
    obtain ⟨hlt, hlen, hbranches, hlowers⟩ := h'
    refine ⟨hlt, hlen, hbranches, trivial, { hlowers with least := hlowers.least.congr fun index => ?_ }⟩
    simp only [List.mem_cons, exists_eq_or_imp, or_comm]
  · obtain ⟨order, -, horder, hlowers⟩ := h
    have hleast : Least (fun index => ∃ k, p.Within i k ∧ k ≠ i ∧
        p.insts[k]? = some (.accept index)) (d'.ends.get? i) := by
      refine hlowers.least.congr fun index => Iff.trans ?_ exists_branch_iff
      simp only [List.mem_reverse, horder, Within]
    refine ⟨sound_of_lowers hd hs { hlowers with least := hleast }, keeps_of_lowers hd hs hlowers,
      hlowers.steps, fun j index hj hji hk hnone' => ?_⟩
    rw [hnone'] at hleast
    exact hleast index ⟨j, hj, hji, hk⟩

/-- The second draft has the steps of the first one, and more of them only for the position itself
and for ends of patterns. -/
structure Gains (p : Program) (i : Nat) (d d' : Draft) : Prop where
  steps : ∀ s cases, d.steps.get? s = some cases → d'.steps.get? s = some cases
  new : ∀ s cases, d'.steps.get? s = some cases → d.steps.get? s = none →
    s = i ∨ ∃ (j : Nat) (index : Int), s = j ∧ p.insts[j]? = some (.accept index)

/-- The step that was worked on gets its cases. -/
theorem sound_insert {cases : List Case} (hd : Sound p (fun s => s = i) d) (hstep : p.IsStep i cases)
    (hacc : ∀ c ∈ cases, ∀ index, c.transition = .accept index → d.acceptors.get? index ≠ none)
    (hends : ∀ index, p.Ends i index → d.ends.get? i ≠ none ∧ d.acceptors.get? index ≠ none) :
    Sound p (fun _ => False) { d with steps := d.steps.insert i cases } where
  isStep t cases' ht := by
    rcases IdMap.get?_insert_eq_some ht with ⟨rfl, rfl⟩ | ⟨-, ht⟩
    · exact ⟨i, rfl, hstep⟩
    · exact hd.isStep t cases' ht
  least := hd.least
  ends j cases' index hj hi := by
    rcases IdMap.get?_insert_eq_some hj with ⟨hji, -⟩ | ⟨-, hj⟩
    · obtain rfl : j = i := by exact_mod_cast hji
      exact (hends index hi).1
    · exact hd.ends j cases' index hj hi
  hasStep t k ht := by
    rcases hd.hasStep t k ht with ht | rfl
    · exact .inl (IdMap.get?_insert_ne_none ht)
    · exact .inl (by simp [IdMap.get?_insert_self])
  acceptor index t ht := (hd.acceptor index t ht).imp_left IdMap.get?_insert_ne_none
  accepts t cases' c index ht hc hk := by
    rcases IdMap.get?_insert_eq_some ht with ⟨rfl, rfl⟩ | ⟨-, ht⟩
    · exact hacc c hc index hk
    · exact hd.accepts t cases' c index ht hc hk
  found j cases' index hj hi := by
    rcases IdMap.get?_insert_eq_some hj with ⟨hji, -⟩ | ⟨-, hj⟩
    · obtain rfl : j = i := by exact_mod_cast hji
      exact (hends index hi).2
    · exact hd.found j cases' index hj hi

theorem gains_insert {cases : List Case} (h : Keeps p d d') (hs : d.steps.get? i = none) :
    Gains p i d { d' with steps := d'.steps.insert i cases } where
  steps t cases' ht := by
    have hti : t ≠ i := by
      intro hti
      rw [hti, hs] at ht
      cases ht
    exact (IdMap.get?_insert_of_ne hti).trans (h.steps t cases' ht)
  new t cases' ht hn := by
    rcases IdMap.get?_insert_eq_some ht with ⟨rfl, -⟩ | ⟨-, ht⟩
    · exact .inl rfl
    · exact .inr (h.new t cases' ht hn)

theorem casesAt_ensures (hd : Sound p (fun _ => False) d) (i : Nat) :
    Ensures (casesAt p i) d
      (fun cases d' => Sound p (fun _ => False) d' ∧ d'.steps.get? i = some cases ∧ Gains p i d d')
      fun _ _ => True := by
  refine ensures_get_bind ?_
  cases hs : d.steps.get? i with
  | some cases =>
    refine ensures_pure ⟨hd, hs, fun _ _ h => h, fun s cases' h hn => ?_⟩
    rw [hn] at h
    cases h
  | none =>
    refine (acceptOnArrival_ensures hd hs).bind fun _ d₁ h₁ => ?_
    obtain ⟨hd₁, hkeeps₁, hsteps₁, hends₁⟩ := h₁
    refine (collectCases_ensures hd₁ i).bind fun cases d₂ h₂ => ?_
    refine ensures_modify_bind (ensures_pure ?_)
    obtain ⟨hstep, ⟨hd₂, hkeeps₂, hacc₂⟩, hends₂⟩ := h₂
    refine ⟨sound_insert hd₂ hstep hacc₂ fun index hi => ?_, IdMap.get?_insert_self,
      gains_insert (hkeeps₁.trans hkeeps₂) hs⟩
    obtain ⟨k, hk, hacc⟩ := hi
    obtain ⟨hend, hfound⟩ := hends₂ k index hk hacc
    refine ⟨?_, hfound⟩
    by_cases hki : k = i
    · exact hki ▸ hend
    · exact ne_none_of_le (hkeeps₂.ends i) (hends₁ k index hk hki hacc)

/-! ## The queue -/

/-- The steps that are done and those that wait are different, and every case of a step goes on to
one of them. -/
structure Explored (p : Program) (done queue : List Nat) (d : Draft) : Prop where
  sound : Sound p (fun _ => False) d
  nodup : (done ++ queue).Nodup
  lt : ∀ i ∈ done ++ queue, i < p.insts.size
  isDone : ∀ i ∈ done, d.steps.get? i ≠ none
  known : ∀ i : Nat, d.steps.get? i ≠ none →
    i ∈ done ∨ ∃ index, p.insts[i]? = some (.accept index)
  closed : ∀ s cases c target conditions, d.steps.get? s = some cases → c ∈ cases →
    c.transition = .go target conditions → ∃ j : Nat, target = j ∧ j ∈ done ++ queue

/-- A case goes on inside of the program, and not to the end of a pattern. -/
theorem goes_go {next : Goto} {target : StepId} {conditions : List Condition}
    (h : p.Goes next (.go target conditions)) :
    ∃ j : Nat, target = j ∧ conditions = [] ∧ j < p.insts.size ∧
      ∀ index, p.insts[j]? ≠ some (.accept index) := by
  obtain ⟨j, inst, -, hi, ht⟩ := h
  cases inst with
  | accept => cases ht
  | save | split | look | char | span | oneOf | nop =>
    obtain ⟨rfl, rfl⟩ := Transition.go.inj ht
    exact ⟨j, rfl, rfl, lt_of_inst hi, by simp [hi]⟩

theorem isStep_go {cases : List Case} {c : Case} {target : StepId} {conditions : List Condition}
    (h : p.IsStep i cases) (hc : c ∈ cases) (ht : c.transition = .go target conditions) :
    ∃ j : Nat, target = j ∧ conditions = [] ∧ j < p.insts.size ∧
      ∀ index, p.insts[j]? ≠ some (.accept index) := by
  obtain ⟨j, -, inst, ranges, next, -, -, -, hgoes⟩ := (h.mem_iff c).1 hc
  exact goes_go (ht ▸ hgoes)

theorem mem_targets {cases : List Case} :
    j ∈ targets cases ↔ ∃ c ∈ cases, ∃ target conditions,
      c.transition = .go target conditions ∧ target.toNat = j := by
  unfold targets
  rw [List.mem_filterMap]
  refine exists_congr fun c => and_congr_right fun _ => ?_
  cases hc : c.transition with
  | accept index => simp
  | go target conditions => simp

namespace Explored

variable {done queue fresh : List Nat} {cases : List Case}

/-- The steps that are there after a round are done, or ends of patterns. -/
theorem known_of_gains (h : Explored p done (i :: queue) d) (hg : Gains p i d d')
    (hj : d'.steps.get? j ≠ none) :
    j ∈ done ++ [i] ∨ ∃ index, p.insts[j]? = some (.accept index) := by
  obtain ⟨cases, hcases⟩ := Option.ne_none_iff_exists'.1 hj
  by_cases hold : d.steps.get? j = none
  · rcases hg.new j cases hcases hold with hji | ⟨k, index, hjk, hk⟩
    · obtain rfl : j = i := by exact_mod_cast hji
      exact .inl (by simp)
    · obtain rfl : j = k := by exact_mod_cast hjk
      exact .inr ⟨index, hk⟩
  · exact (h.known j hold).imp_left (List.mem_append_left _)

/-- What the position of the round goes on to is done, waits already or is new. -/
theorem mem_of_mem_targets (h : Explored p done (i :: queue) d) (hg : Gains p i d d')
    (hfresh : ∀ j, j ∈ fresh ↔ j ∈ targets cases ∧ d'.steps.get? j = none ∧ j ∉ queue)
    (hj : j ∈ targets cases) (hacc : ∀ index, p.insts[j]? ≠ some (.accept index)) :
    j ∈ (done ++ i :: queue) ++ fresh := by
  by_cases hnone : d'.steps.get? j = none
  · by_cases hq : j ∈ queue
    · simp [hq]
    · exact List.mem_append_right _ ((hfresh j).2 ⟨hj, hnone, hq⟩)
  · rcases h.known_of_gains hg hnone with hj | ⟨index, hj⟩
    · simp only [List.mem_append, List.mem_singleton] at hj
      simp only [List.mem_append, List.mem_cons]
      tauto
    · exact absurd hj (hacc index)

/-- One round: the cases of the step are there, and what they go on to waits if it is new. -/
theorem step (h : Explored p done (i :: queue) d) (hd' : Sound p (fun _ => False) d')
    (hcases : d'.steps.get? i = some cases) (hg : Gains p i d d') (hn : fresh.Nodup)
    (hfresh : ∀ j, j ∈ fresh ↔ j ∈ targets cases ∧ d'.steps.get? j = none ∧ j ∉ queue) :
    Explored p (done ++ [i]) (queue ++ fresh) d' := by
  have hdone (j : Nat) (hj : j ∈ done ++ [i]) : d'.steps.get? j ≠ none := by
    rcases List.mem_append.1 hj with hj | hj
    · exact ne_none_of_le (hg.steps j) (h.isDone j hj)
    · obtain rfl := List.mem_singleton.1 hj
      exact hcases ▸ Option.some_ne_none cases
  have happend : done ++ [i] ++ (queue ++ fresh) = (done ++ i :: queue) ++ fresh := by simp
  refine ⟨hd', ?_, ?_, hdone, fun j hj => h.known_of_gains hg hj, ?_⟩
  · rw [happend, List.nodup_append]
    refine ⟨h.nodup, hn, fun j hj k hk hjk => ?_⟩
    subst hjk
    obtain ⟨-, hnone, hq⟩ := (hfresh j).1 hk
    simp only [List.mem_append, List.mem_cons] at hj
    rcases hj with hj | rfl | hj
    · exact hdone j (List.mem_append_left _ hj) hnone
    · exact hdone j (by simp) hnone
    · exact hq hj
  · intro j hj
    rw [happend] at hj
    rcases List.mem_append.1 hj with hj | hj
    · exact h.lt j hj
    · obtain ⟨c, hc, target, conditions, ht, rfl⟩ := mem_targets.1 ((hfresh j).1 hj).1
      obtain ⟨k, hk, hstep⟩ := hd'.isStep i cases hcases
      obtain ⟨l, rfl, -, hlt, -⟩ := isStep_go hstep hc ht
      exact hlt
  · intro s cases' c target conditions hs hc ht
    obtain ⟨k, rfl, hstep⟩ := hd'.isStep s cases' hs
    obtain ⟨j, rfl, -, -, hacc⟩ := isStep_go hstep hc ht
    refine ⟨j, rfl, ?_⟩
    rw [happend]
    by_cases hold : d.steps.get? k = none
    · rcases hg.new k cases' hs hold with hki | ⟨m, index, hkm, hm⟩
      · obtain rfl : k = i := by exact_mod_cast hki
        obtain rfl := Option.some.inj (hs.symm.trans hcases)
        exact h.mem_of_mem_targets hg hfresh (mem_targets.2 ⟨c, hc, j, conditions, ht, rfl⟩) hacc
      · obtain rfl : k = m := by exact_mod_cast hkm
        obtain ⟨l, hl, hlists⟩ := (hstep.mem_iff c).1 hc
        obtain rfl := hl.eq_of_accept hm
        exact absurd hlists (not_lists hm rfl)
    · obtain ⟨old, hold⟩ := Option.ne_none_iff_exists'.1 hold
      obtain rfl := Option.some.inj (hs.symm.trans (hg.steps k old hold))
      obtain ⟨j', hj', hmem⟩ := h.closed k cases' c j conditions hold hc ht
      obtain rfl : j = j' := by exact_mod_cast hj'
      exact List.mem_append_left _ hmem

end Explored

theorem explore_ensures {fuel : Nat} {done queue : List Nat} (h : Explored p done queue d)
    (hfuel : p.insts.size ≤ done.length + fuel) :
    Ensures (explore p fuel queue) d (fun _ d' => ∃ done', Explored p done' [] d' ∧
      ∀ i ∈ done ++ queue, i ∈ done') fun _ _ => True := by
  induction fuel generalizing done queue d with
  | zero =>
    have hlen := length_le_of_nodup h.nodup h.lt
    rw [List.length_append] at hlen
    obtain rfl := List.eq_nil_of_length_eq_zero (l := queue) (by omega)
    exact ensures_pure ⟨done, h, by simp⟩
  | succ fuel ih =>
    cases queue with
    | nil => exact ensures_pure ⟨done, h, by simp⟩
    | cons i queue =>
      refine (casesAt_ensures h.sound i).bind fun cases d' h' => ensures_get_bind ?_
      obtain ⟨hd', hcases, hgains⟩ := h'
      have hround := h.step hd' hcases hgains (nodup_eraseDups ((targets cases).filter
        fun (t : Nat) => !d'.steps.contains t && !queue.contains t))
        fun j => by simp [← IdMap.isSome_get?]
      refine (ih hround (by simp; omega)).mono fun _ d'' h'' => ?_
      obtain ⟨done', hexplored, hmem⟩ := h''
      refine ⟨done', hexplored, fun j hj => hmem j ?_⟩
      simp only [List.mem_append, List.mem_cons] at hj ⊢
      tauto

/-- The table is finished: every case goes on to a step of it. -/
structure Built (p : Program) (d : Draft) : Prop extends Sound p (fun _ => False) d where
  closed : ∀ s cases c target conditions, d.steps.get? s = some cases → c ∈ cases →
    c.transition = .go target conditions → conditions = [] ∧ d.steps.get? target ≠ none

theorem build_ensures (p : Program) (hne : p.insts ≠ #[]) :
    Ensures (build p) d
      (fun initial d' => ∃ i, initial = some i ∧ p.skip p.entry = .ok i ∧ Built p d' ∧
        d'.steps.get? i ≠ none)
      fun _ _ => True := by
  refine ensures_set_bind ?_
  have hempty : p.insts.isEmpty = false := by simpa using hne
  simp only [hempty, Bool.false_eq_true, if_false]
  refine ofExcept_bind fun i hi => ?_
  have hinit : Explored p [] [i] .empty := by
    refine ⟨⟨?_, ?_, ?_, ?_, ?_, ?_, ?_⟩, by simp, by simpa using lt_of_skip hi, by simp, ?_, ?_⟩
    all_goals simp [Draft.empty]
  refine (explore_ensures hinit (by simp)).bind fun _ d' h => ensures_pure ⟨i, rfl, hi, ?_⟩
  obtain ⟨done, h, hmem⟩ := h
  refine ⟨{ h.sound with closed := fun s cases c target conditions hs hc ht => ?_ },
    h.isDone i (hmem i (by simp))⟩
  obtain ⟨k, rfl, hstep⟩ := h.sound.isStep s cases hs
  obtain ⟨j, rfl, rfl, -⟩ := isStep_go hstep hc ht
  obtain ⟨j', hj, hmem'⟩ := h.closed k cases c j [] hs hc ht
  exact ⟨rfl, hj ▸ h.isDone j' (by simpa using hmem')⟩

end Munch.DraftM
