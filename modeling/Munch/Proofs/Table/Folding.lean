/-
Folding the cases of a step into tidy ones. A `Folding` is what is said of one transition that stands
for several, together with a property of resolutions that combining two transitions keeps. What it
says then holds for the cases of a resolved step, on each of their numbers (`resolveStep_ensures`).
-/
import Munch.Proofs.Table.Members
import Munch.Proofs.Table.Tidy

namespace Munch

open Resolution

/-- Cases on different pieces have nothing in common. -/
theorem apart_of_sublist {cases out : List Case}
    (h : (out.map (·.range)).Sublist ((cutCases cases).map (·.range)).eraseDups) : Apart out := by
  have hpiece (c : Case) (hc : c ∈ out) : c.range ∈ Interval.pieces (cases.map (·.range)) := by
    have hmem := List.mem_eraseDups.1 (h.subset (List.mem_map_of_mem hc))
    obtain ⟨d, hd, hdc⟩ := List.mem_map.1 hmem
    exact hdc ▸ mem_pieces_of_mem_cutCases hd
  have hne : out.Pairwise (fun c d => c.range ≠ d.range) :=
    List.pairwise_map.1 (h.nodup (nodup_eraseDups _))
  refine ⟨hne.imp_of_mem fun {c d} hc hd hcd => ?_, fun c hc => ?_⟩
  · exact Interval.apart_of_mem_pieces (hpiece c hc) (hpiece d hd) hcd
  · exact Interval.le_of_mem_pieces (hpiece c hc)

namespace ResolutionM

variable {Inv : Resolution → Prop} {Plain : Transition → Prop}
  {Does : Resolution → Interval → List Transition → Transition → Prop}
  {E : Error → Resolution → Prop} {r r' : Resolution} {range : Interval} {ts us : List Transition}
  {t : Transition} {cases all : List Case} {s : StepId}

/-- What combining two transitions keeps. `Does r range ts t` says that `t` does on the numbers of
the interval what the plain transitions `ts` do together. -/
structure Folding (Inv : Resolution → Prop) (Plain : Transition → Prop)
    (Does : Resolution → Interval → List Transition → Transition → Prop)
    (E : Error → Resolution → Prop) : Prop where
  mono : ∀ r r' range ts t, Does r range ts t → Extends r r' → Does r' range ts t
  congr : ∀ r range ts us t, Does r range ts t → (∀ v, v ∈ ts ↔ v ∈ us) → Does r range us t
  unconditional : ∀ r range range' ts t, Does r range ts t → t.isConditional = false →
    Does r range' ts t
  single : ∀ r range t, Plain t → Does r range [t] t
  combine : ∀ r range ts t u, Inv r → (∀ v ∈ ts, Plain v) → Plain u → Does r range ts t →
    Ensures (combine range t u) r
      (fun v r' => Inv r' ∧ Extends r r' ∧ Does r' range (ts ++ [u]) v) E

/-- Only steps that are there can be resolved. -/
theorem exists_cases_of_resolveStep (h : resolveStep s r = .ok cases r') :
    ∃ all, r.steps.get? s = some all := by
  obtain ⟨all, r₁, hall, -⟩ := bind_run_eq_ok.1 h
  cases hs : r.steps.get? s with
  | some all => exact ⟨all, rfl⟩
  | none =>
    have hfails : Ensures (casesOf s) r (fun _ _ => False) fun _ _ => True := by
      refine ensures_get_bind ?_
      simp only [hs]
      exact ensures_throw trivial
    exact (hfails.of_ok hall).elim

namespace Folding

variable (h : Folding Inv Plain Does E)

include h

theorem combineAll_ensures (hr : Inv r) (hts : ∀ v ∈ ts, Plain v) (hus : ∀ v ∈ us, Plain v)
    (ht : Does r range ts t) :
    Ensures (combineAll range t us) r
      (fun v r' => Inv r' ∧ Extends r r' ∧ Does r' range (ts ++ us) v) E := by
  induction us generalizing r ts t with
  | nil => exact ensures_pure ⟨hr, .refl r, by simpa using ht⟩
  | cons u us ih =>
    refine (h.combine r range ts t u hr hts (hus u (by simp)) ht).bind fun v r' hv => ?_
    obtain ⟨hr', hext, hv⟩ := hv
    have hts' (w : Transition) (hw : w ∈ ts ++ [u]) : Plain w := by
      rcases List.mem_append.1 hw with hw | hw
      · exact hts w hw
      · exact List.mem_singleton.1 hw ▸ hus u (by simp)
    refine (ih hr' hts' (fun w hw => hus w (by simp [hw])) hv).mono fun w r'' hw => ?_
    obtain ⟨hr'', hext', hw⟩ := hw
    exact ⟨hr'', hext.trans hext', by simpa using hw⟩

/-- Every case that comes out stands for all that were on its interval. -/
theorem combineCases_ensures (hcases : ∀ c ∈ cases, Plain c.transition) (ranges : List Interval)
    (hr : Inv r) :
    Ensures (combineCases cases ranges) r
      (fun out r' => Inv r' ∧ Extends r r' ∧ (out.map (·.range)).Sublist ranges ∧
        (∀ c ∈ out, Does r' c.range
          ((cases.filter (·.range == c.range)).map (·.transition)) c.transition) ∧
        ∀ c ∈ cases, c.range ∈ ranges → ∃ d ∈ out, d.range = c.range) E := by
  induction ranges generalizing r with
  | nil => exact ensures_pure ⟨hr, .refl r, .slnil, by simp, by simp⟩
  | cons range rest ih =>
    rw [combineCases]
    split
    · next hnone =>
      refine (ih hr).mono fun out r' hout => ?_
      obtain ⟨hr', hext, hsub, hdoes, hall⟩ := hout
      refine ⟨hr', hext, hsub.cons range, hdoes, fun c hc hrange => hall c hc ?_⟩
      rcases List.mem_cons.1 hrange with hrange | hrange
      · have hmem : c ∈ cases.filter (·.range == range) := List.mem_filter.2 ⟨hc, by simp [hrange]⟩
        rw [List.map_eq_nil_iff.1 hnone] at hmem
        cases hmem
      · exact hrange
    · next t ts hsome =>
      have hplain (v : Transition) (hv : v ∈ t :: ts) : Plain v := by
        rw [← hsome] at hv
        obtain ⟨c, hc, rfl⟩ := List.mem_map.1 hv
        exact hcases c (List.mem_filter.1 hc).1
      refine (h.combineAll_ensures hr (fun v hv => hplain v ?_) (fun v hv => hplain v (by simp [hv]))
        (h.single r range t (hplain t (by simp)))).bind fun v r' hv => ?_
      · rw [List.mem_singleton.1 hv]
        exact List.mem_cons_self
      obtain ⟨hr', hext, hv⟩ := hv
      refine (ih hr').bind fun out r'' hout => ?_
      obtain ⟨hr'', hext', hsub, hdoes, hall⟩ := hout
      refine ensures_pure ⟨hr'', hext.trans hext', hsub.cons_cons range, fun c hc => ?_,
        fun c hc hrange => ?_⟩
      · rcases List.mem_cons.1 hc with rfl | hc
        · rw [hsome]
          exact h.mono _ _ _ _ _ hv hext'
        · exact hdoes c hc
      · rcases List.mem_cons.1 hrange with hrange | hrange
        · exact ⟨_, List.mem_cons_self, hrange.symm⟩
        · obtain ⟨d, hd, hdc⟩ := hall c hc hrange
          exact ⟨d, List.mem_cons_of_mem _ hd, hdc⟩

/-- The cases of a resolved step do on each number what all its cases do on it together. -/
theorem resolveStep_ensures (hr : Inv r) (hs : r.steps.get? s = some all)
    (hall : ∀ c ∈ all, Plain c.transition) :
    Ensures (resolveStep s) r
      (fun cases r' => Inv r' ∧ Extends r r' ∧ Tidy cases ∧
        (∀ c ∈ cases, ∀ n, c.range.contains n = true →
          Does r' c.range (transitionsAt all n) c.transition) ∧
        ∀ n, transitionsAt all n ≠ [] → ∃ c ∈ cases, c.range.contains n = true) E := by
  refine (casesOf_ensures hs).bind fun all' r₁ h₁ => ?_
  obtain ⟨rfl, rfl⟩ := h₁
  have hcut (c : Case) (hc : c ∈ cutCases all') : Plain c.transition := by
    obtain ⟨d, hd, -, heq⟩ := mem_cutCases.1 hc
    exact heq ▸ hall d hd
  refine (h.combineCases_ensures hcut _ hr).bind fun out r' hout => ?_
  obtain ⟨hr', hext, hsub, hdoes, hfound⟩ := hout
  have hapart := apart_of_sublist hsub
  have hon (d : Case) (hd : d ∈ out) (n : Int) (hn : d.range.contains n = true) :
      Does r' d.range (transitionsAt all' n) d.transition := by
    have hmem := List.mem_eraseDups.1 (hsub.subset (List.mem_map_of_mem hd))
    obtain ⟨e, he, hed⟩ := List.mem_map.1 hmem
    have hpiece := mem_pieces_of_mem_cutCases he
    rw [hed] at hpiece
    exact h.congr _ _ _ _ _ (hdoes d hd) fun t => mem_transitions_cutCases hpiece hn
  refine ensures_pure ⟨hr', hext, tidy_tidyCases hapart, fun c hc n hn => ?_, fun n hne => ?_⟩
  · rcases mem_tidyCases hc with hout | hplain
    · exact hon c hout n hn
    · -- joined cases share their transition with one that was there before
      have hat := (mem_transitionsAt_tidyCases hapart).1 (mem_transitionsAt.2 ⟨c, hc, hn, rfl⟩)
      obtain ⟨d, hd, hdn, heq⟩ := mem_transitionsAt.1 hat
      exact h.unconditional _ _ _ _ _ (heq ▸ hon d hd n hdn) hplain
  · obtain ⟨c, hc, hcn⟩ := exists_mem_cutCases hne
    obtain ⟨d, hd, hdc⟩ := hfound c hc (List.mem_eraseDups.2 (List.mem_map_of_mem hc))
    have hat := (mem_transitionsAt_tidyCases hapart).2
      (mem_transitionsAt.2 ⟨d, hd, hdc ▸ hcn, rfl⟩)
    obtain ⟨e, he, hen, -⟩ := mem_transitionsAt.1 hat
    exact ⟨e, he, hen⟩

end Folding

end ResolutionM

end Munch
