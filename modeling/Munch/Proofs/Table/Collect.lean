/-
Working out the cases of a step. The walk from a position lists the cases of exactly the byte
instructions that lie within it, depth-first, and refuses everything that a table cannot express
(`collectCases_ensures`). Ends of patterns that it comes by are added to the draft.
-/
import Munch.Proofs.Table.Order

namespace Munch

variable {p : Program} {busy : Int → Prop} {d d' : Draft} {i : Nat} {next : Goto}

namespace DraftM

open Program Draft

theorem transitionTo_ensures (hd : Sound p busy d) (next : Goto) :
    Ensures (transitionTo p next) d
      (fun t d' => p.Goes next t ∧ Sound p busy d' ∧ Keeps p d d' ∧
        ∀ index, t = .accept index → d'.acceptors.get? index ≠ none)
      fun _ _ => True := by
  refine ofExcept_bind fun j hj => ofExcept_bind fun inst hget => ?_
  have hi := get_eq_ok_iff.1 hget
  cases inst with
  | accept index =>
    refine (addAcceptor_ensures hd hi).bind fun _ d' h => ?_
    obtain ⟨hd', hkeeps, -, hacc⟩ := h
    refine ensures_pure ⟨⟨j, _, hj, hi, rfl⟩, hd', hkeeps, fun k hk => ?_⟩
    obtain rfl := Transition.accept.inj hk
    exact hacc
  | save | split | look | char | span | oneOf | nop =>
    exact ensures_pure ⟨⟨j, _, hj, hi, rfl⟩, hd, .refl p _, by simp⟩

/-- The cases and what they lead to, in a draft that they fit. -/
structure Collects (p : Program) (busy : Int → Prop) (d d' : Draft) (cases : List Case) : Prop where
  sound : Sound p busy d'
  keeps : Keeps p d d'
  accepts : ∀ c ∈ cases, ∀ index, c.transition = .accept index → d'.acceptors.get? index ≠ none

theorem Collects.nil (hd : Sound p busy d) : Collects p busy d d [] := ⟨hd, .refl p d, by simp⟩

theorem Collects.append {d'' : Draft} {cases more : List Case} (h : Collects p busy d d' cases)
    (h' : Collects p busy d' d'' more) : Collects p busy d d'' (cases ++ more) where
  sound := h'.sound
  keeps := h.keeps.trans h'.keeps
  accepts c hc index hk := by
    rcases List.mem_append.1 hc with hc | hc
    · exact ne_none_of_le (h'.keeps.acceptors index) (h.accepts c hc index hk)
    · exact h'.accepts c hc index hk

theorem byteCases_ensures (hd : Sound p busy d) (ranges : List Interval) (next : Goto) :
    Ensures (byteCases p ranges next) d
      (fun cases d' => Collects p busy d d' cases ∧
        ∃ t, p.Goes next t ∧ cases = ranges.map (⟨·, t⟩))
      fun _ _ => True := by
  refine (transitionTo_ensures hd next).bind fun t d' h => ?_
  obtain ⟨ht, hd', hkeeps, hacc⟩ := h
  refine ensures_pure ⟨⟨hd', hkeeps, fun c hc => ?_⟩, t, ht, rfl⟩
  obtain ⟨r, -, rfl⟩ := List.mem_map.1 hc
  exact hacc

/-- What a visit of the walk comes to. -/
structure Visits (p : Program) (busy : Int → Prop) (i : Nat) (d d' : Draft)
    (r : List Nat × List Case) : Prop extends Collects p busy d d' r.2 where
  follows : FollowsEdges p i r.1
  tabular : p.Tabular i
  listing : p.Listing [i] r.2
  ends : ∀ index, p.insts[i]? = some (.accept index) →
    d'.ends.get? i ≠ none ∧ d'.acceptors.get? index ≠ none

theorem visits_bytes {inst : Inst} {ranges : List Interval} (hd : Sound p busy d)
    (hi : p.insts[i]? = some inst) (hr : inst.reads? = some (ranges, next)) :
    Ensures (do return ([], ← byteCases p ranges next)) d (fun r d' => Visits p busy i d d' r)
      fun _ _ => True := by
  refine (byteCases_ensures hd ranges next).bind fun cases d' h => ?_
  obtain ⟨hcollects, t, ht, rfl⟩ := h
  have hlisting := Listing.single hi hr ht
  cases inst with
  | char | span | oneOf =>
    exact ensures_pure ⟨hcollects, ⟨_, hi, by simp, .nil⟩, ⟨_, hi, trivial⟩, hlisting, by simp [hi]⟩
  | accept | save | split | look | nop => cases hr

theorem instCases_ensures (hd : Sound p busy d) (i : Nat) :
    Ensures (instCases p i) d (fun r d' => Visits p busy i d d' r) fun _ _ => True := by
  refine ofExcept_bind fun inst hget => ?_
  have hi := get_eq_ok_iff.1 hget
  cases inst with
  | char | span | oneOf => exact visits_bytes hd hi rfl
  | save | look | nop => exact ensures_throw trivial
  | accept index =>
    refine (addAcceptor_ensures hd hi).bind fun _ d' h => ?_
    obtain ⟨hd', hkeeps, hend, hacc⟩ := h
    refine ensures_pure ⟨⟨hd', hkeeps, by simp⟩, ⟨_, hi, by simp, .nil⟩, ⟨_, hi, trivial⟩,
      .other hi rfl .nil, fun k hk => ?_⟩
    obtain rfl := Inst.accept.inj (Option.some.inj (hi.symm.trans hk))
    exact ⟨hend ▸ Option.some_ne_none index, hacc⟩
  | split first second =>
    refine ofExcept_bind fun b hb => ofExcept_bind fun a ha => ?_
    exact ensures_pure ⟨.nil hd, ⟨_, hi, by simp, .cons ha (.cons hb .nil)⟩,
      ⟨_, hi, ⟨a, ha⟩, b, hb⟩, .other hi rfl .nil, by simp [hi]⟩

/-- What holds on the way: the cases found are those of the positions visited, the last of which comes
first in `seen`. -/
structure Collected (p : Program) (busy : Int → Prop) (d : Draft) (seen : List Nat)
    (found : List Case) (d' : Draft) : Prop extends Collects p busy d d' found where
  tabular : ∀ j ∈ seen, p.Tabular j
  listing : p.Listing seen.reverse found
  ends : ∀ j ∈ seen, ∀ index, p.insts[j]? = some (.accept index) →
    d'.ends.get? j ≠ none ∧ d'.acceptors.get? index ≠ none

theorem Collected.cons {seen : List Nat} {found : List Case} {r : List Nat × List Case}
    {d'' : Draft} (h : Collected p busy d seen found d') (h' : Visits p busy i d' d'' r) :
    Collected p busy d (i :: seen) (found ++ r.2) d'' where
  toCollects := h.toCollects.append h'.toCollects
  tabular j hj := by
    rcases List.mem_cons.1 hj with rfl | hj
    · exact h'.tabular
    · exact h.tabular j hj
  listing := by
    rw [List.reverse_cons]
    exact h.listing.append h'.listing
  ends j hj index hi := by
    rcases List.mem_cons.1 hj with rfl | hj
    · exact h'.ends index hi
    · obtain ⟨hend, hacc⟩ := h.ends j hj index hi
      exact ⟨ne_none_of_le (h'.keeps.ends j) hend, ne_none_of_le (h'.keeps.acceptors index) hacc⟩

theorem collectCases_ensures (hd : Sound p busy d) (i : Nat) :
    Ensures (collectCases p i) d
      (fun cases d' => p.IsStep i cases ∧ Collects p busy d d' cases ∧
        ∀ j index, p.Within i j → p.insts[j]? = some (.accept index) →
          d'.ends.get? j ≠ none ∧ d'.acceptors.get? index ≠ none)
      fun _ _ => True := by
  have hinit : Collected p busy d [] [] d := ⟨.nil hd, by simp, .nil, by simp⟩
  refine (walkFrom_ensures p.Branches (FollowsEdges p) (fun j seen found d₁ _ _ h => ?_) hinit).mono
    fun cases d' h => ?_
  · refine (instCases_ensures h.sound j).mono fun r d₂ h' => ?_
    exact ⟨h'.follows.lt, h'.follows.length_le, fun k => h'.follows.mem_iff, h'.follows, h.cons h'⟩
  · obtain ⟨order, hvisited, horder, h⟩ := h
    have hmem {j : Nat} (hj : p.Within i j) : j ∈ order.reverse :=
      List.mem_reverse.2 ((horder j).2 hj)
    have hlisting : p.Listing order cases := by simpa using h.listing
    refine ⟨⟨fun j hj => ⟨h.tabular j (hmem hj), ?_⟩, fun c => hlisting.mem_iff.trans ?_, ?_⟩,
      h.toCollects, fun j index hj => h.ends j (hmem hj) index⟩
    · exact hlisting.exists_goes ((horder j).2 hj)
    · simp only [horder, Within]
    · exact hvisited.listing (h.tabular i (hmem .refl)) hlisting

end DraftM

end Munch
