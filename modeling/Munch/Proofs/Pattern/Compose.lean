/-
Patterns are put together from patterns. A text in parentheses is a group of its tree, whatever
stands next to it, and a bar between two texts joins their alternatives (`Tree.parse_compose`). What
is needed of the texts is only that they parse: their readers do not look behind them.
-/
import Munch.Proofs.Pattern.Extends
import Munch.Proofs.Pattern.Parser
import Munch.Proofs.Pattern.Written

namespace Munch

open Text

variable {s t r rest : List Char} {n m : Nat}

namespace Reader

variable {α : Type} {x : Reader α} {expr : Reader Tree} {tree : Tree}

theorem run_eq_ok {a : α} : Reader.run x s = .ok a ↔ ∃ t, Takes x s a t := by
  unfold Reader.run EStateM.run Takes
  cases x s with
  | ok b t => simp
  | error stop t => simp

/-- What returns in turn has what the reader's results have. -/
theorem TakesEach.forall {read : Reader (Option α)} {as : List α} {Q : α → Prop}
    (h : TakesEach read s as t) (hQ : Returns read fun o => ∀ a ∈ o, Q a) : ∀ a ∈ as, Q a := by
  induction h with
  | stop => exact List.forall_mem_nil _
  | next hs _ _ ih => exact List.forall_mem_cons.2 ⟨(hQ _).of_ok hs _ rfl, ih⟩

theorem takes_expr :
    Takes Reader.expr s tree t ↔ Takes (exprUpTo (s.length + 1)) s tree t := by
  refine ⟨fun h => ?_, fun h => takes_get_bind h⟩
  obtain ⟨_, _, ⟨⟩, hrest⟩ := takes_bind.1 h
  exact hrest

end Reader

namespace Tree

open Reader

variable {p q : String} {tree : Tree}

/-- A text parses if it is read as an expression up to its end. -/
theorem parse_eq_ok :
    parse p = .ok tree ↔ Takes (exprUpTo (p.toList.length + 1)) p.toList tree [] := by
  rw [parse, run_eq_ok, ← takes_expr]
  simp only [takes_pattern_iff, exists_eq_left]

/-- The trees that a tree is a choice between. -/
def alternatives : Tree → List Tree
  | .alt items => items
  | t => [t]

theorem alternatives_ofAlternatives {ts : List Tree} (h : ∀ t ∈ ts, ∀ items, t ≠ .alt items) :
    (ofAlternatives ts).alternatives = ts.eraseDups := by
  unfold ofAlternatives
  split
  · next t heq =>
    have ht := h t (List.mem_eraseDups.1 (heq ▸ List.mem_singleton_self t))
    rw [heq]
    cases t <;> first | rfl | exact absurd rfl (ht _)
  · rfl

theorem ofAlternatives_eraseDups (ts us : List Tree) :
    ofAlternatives (ts.eraseDups ++ us.eraseDups) = ofAlternatives (ts ++ us) := by
  rw [ofAlternatives, eraseDups_append_eraseDups, ofAlternatives]

/-- The text in parentheses that do not capture. -/
def bracketed (p : List Char) : List Char := writtenOpening false none ++ p ++ [')']

end Tree

namespace Reader

open Munch.Tree

variable {t u : Tree} {ts : List Tree} {p q : List Char} {xs : List Suffix} {k : Nat}

/-- Groups may always nest deeper. -/
theorem takes_exprUpTo_mono (h : Takes (exprUpTo n) p t []) (hnm : n ≤ m) :
    Takes (exprUpTo m) p t [] := by
  have hclose : Closes [] := by simp [Closes]
  have hmore := takes_exprUpTo_append hclose hnm h (by simp)
  rw [List.append_nil, List.append_nil] at hmore
  exact hmore

/-! ## Groups -/

/-- A text that parses is an atom when it stands in parentheses. -/
theorem takes_atom_bracketed (hp : Takes (exprUpTo n) p t []) :
    Takes (atom (exprUpTo n)) (bracketed p ++ s) (some (.group t false none)) s := by
  have hclose : Closes (')' :: s) := by
    rintro c ⟨⟩
    exact .inr rfl
  have hbody := takes_exprUpTo_append hclose (Nat.le_refl n) hp (by simp)
  exact takes_atom_group hbody (by simp) (by simp)

/-- In front of something that is no suffix it is an item. -/
theorem takesEach_bracketed (hp : Takes (exprUpTo n) p t [])
    (hs : ∀ c ∈ s.head?, startsSuffix c = false) (h : TakesEach (item (exprUpTo n)) s ts rest) :
    TakesEach (item (exprUpTo n)) (bracketed p ++ s) (.group t false none :: ts) rest := by
  have hitem : Takes (item (exprUpTo n)) (bracketed p ++ s)
      (some (suffixed (.group t false none) [])) s :=
    takes_item_suffixed (takes_atom_bracketed hp) (List.forall_mem_nil _) (fun _ => rfl) hs
  refine .next hitem ?_ h
  simp only [bracketed, List.length_append, List.length_singleton]
  omega

/-! ## Bars -/

/-- An expression is read as one alternative and others, and its tree keeps the different ones. -/
theorem exists_alternatives (hp : Takes (exprUpTo (n + 1)) p t []) : ∃ first v others,
    Takes (branch (exprUpTo n)) p first v ∧ TakesEach (nextBranch (exprUpTo n)) v others [] ∧
    t.alternatives = (first :: others).eraseDups := by
  obtain ⟨first, v, others, hfirst, hothers, rfl⟩ :=
    (takes_alternatives_iff (forward_exprUpTo n)).1 hp
  refine ⟨first, v, others, hfirst, hothers, alternatives_ofAlternatives ?_⟩
  have hreturns := returns_exprUpTo n
  refine List.forall_mem_cons.2 ⟨((returns_branch hreturns p).of_ok hfirst).2, fun t ht => ?_⟩
  exact (hothers.forall (returns_nextBranch hreturns) t ht).2

/-- A bar joins the alternatives in front of it and those behind it. -/
theorem takes_exprUpTo_bar (hp : Takes (exprUpTo (n + 1)) p t [])
    (hq : Takes (exprUpTo (n + 1)) q u []) :
    Takes (exprUpTo (n + 1)) (p ++ '|' :: q) (.ofAlternatives (t.alternatives ++ u.alternatives))
      [] := by
  obtain ⟨first, v, others, hfirst, hothers, ht⟩ := exists_alternatives hp
  obtain ⟨first', v', others', hfirst', hothers', hu⟩ := exists_alternatives hq
  have hexpr := forward_exprUpTo n
  have hbar : Closes ('|' :: q) := by
    rintro c ⟨⟩
    exact .inl rfl
  have hin : CarriesInside ('|' :: q) (exprUpTo n) (exprUpTo n) := fun _ _ _ h hne =>
    takes_exprUpTo_append hbar (Nat.le_refl n) h fun hnil => absurd hnil hne
  have hrest : TakesEach (nextBranch (exprUpTo n)) ('|' :: q) (first' :: others') [] := by
    refine .next (takes_nextBranch_some_iff.2 ⟨q, rfl, hfirst'⟩) ?_ hothers'
    exact Nat.lt_succ_of_le ((forward_branch hexpr q).of_ok hfirst').1.length_le
  -- the row in front of the bar ended with the text, and goes on with the row behind the bar
  have hall : TakesEach (nextBranch (exprUpTo n)) (v ++ '|' :: q) (others ++ first' :: others')
      [] := by
    refine hothers.append (fun _ _ _ _ hs _ => takes_nextBranch_append hbar hexpr hin hs) ?_
    intro s hs
    obtain ⟨rfl, -⟩ := takes_nextBranch_none_iff.1 hs
    exact hrest
  rw [ht, hu, ofAlternatives_eraseDups]
  exact (takes_alternatives_iff hexpr).2 ⟨first, v ++ '|' :: q, others ++ first' :: others',
    carries_branch hbar hexpr hin _ _ hfirst, hall, rfl⟩

end Reader

namespace Tree

open Reader

variable {t u : Tree} {p q text : String}

/-- A text that is one alternative parses. -/
theorem parse_of_branch (htext : text.toList = s)
    (h : Takes (branch (exprUpTo s.length)) s tree []) : parse text = .ok tree := by
  subst htext
  refine parse_eq_ok.2 ((takes_alternatives_iff (forward_exprUpTo _)).2
    ⟨tree, [], [], h, .stop (takes_nextBranch_none_iff.2 ⟨rfl, by simp⟩), ?_⟩)
  rw [ofAlternatives, eraseDups_eq_self (by simp)]

/-- A text in parentheses, with suffixes behind it. -/
theorem parse_suffixed {xs : List Suffix} (hp : parse p = .ok t) (hxs : ∀ x ∈ xs, x.IsBounded)
    (htext : text.toList = bracketed p.toList ++ xs.flatMap Suffix.written) :
    parse text = .ok (suffixed (.group t false none) xs) := by
  have hlength : p.toList.length + 1 ≤ text.toList.length := by
    simp only [htext, bracketed, writtenOpening, List.length_append, List.length_cons]
    omega
  have hatom := takes_atom_bracketed (s := xs.flatMap Suffix.written)
    (takes_exprUpTo_mono (parse_eq_ok.1 hp) hlength)
  rw [← htext, ← List.append_nil (xs.flatMap Suffix.written)] at hatom
  have hitem := takes_item_suffixed hatom hxs (fun _ => rfl) (by simp)
  have hend : TakesEach (item (exprUpTo text.toList.length)) [] [] [] :=
    .stop (takes_item_none (by simp))
  refine parse_of_branch rfl (takes_branch_item (.next hitem ?_ hend))
  exact Nat.lt_of_lt_of_le (Nat.succ_pos _) hlength

/-- Two texts in parentheses make a row. -/
theorem parse_pair (hp : parse p = .ok t) (hq : parse q = .ok u)
    (htext : text.toList = bracketed p.toList ++ (bracketed q.toList ++ [])) :
    parse text = .ok (.concat [.group t false none, .group u false none]) := by
  have hlength : p.toList.length + 1 ≤ text.toList.length ∧
      q.toList.length + 1 ≤ text.toList.length := by
    simp only [htext, bracketed, writtenOpening, List.length_append, List.length_cons]
    omega
  have hp := takes_exprUpTo_mono (parse_eq_ok.1 hp) hlength.1
  have hq := takes_exprUpTo_mono (parse_eq_ok.1 hq) hlength.2
  have hlast := takesEach_bracketed hq (s := []) (by simp) (.stop (takes_item_none (by simp)))
  have hrow := takesEach_bracketed hp (by rintro c ⟨⟩; rfl) hlast
  rw [← htext] at hrow
  exact parse_of_branch rfl (takes_branch_concat (Nat.le_refl 2) hrow)

/-- A bar between two texts joins their alternatives. -/
theorem parse_bar (hp : parse p = .ok t) (hq : parse q = .ok u)
    (htext : text.toList = p.toList ++ '|' :: q.toList) :
    parse text = .ok (.ofAlternatives (t.alternatives ++ u.alternatives)) := by
  have hlength : p.toList.length + 1 ≤ text.toList.length + 1 ∧
      q.toList.length + 1 ≤ text.toList.length + 1 := by
    simp only [htext, List.length_append, List.length_cons]
    omega
  have hp := takes_exprUpTo_mono (parse_eq_ok.1 hp) hlength.1
  have hq := takes_exprUpTo_mono (parse_eq_ok.1 hq) hlength.2
  have hbar := takes_exprUpTo_bar hp hq
  rw [← htext] at hbar
  exact parse_eq_ok.2 hbar

theorem ofAlternatives_groups (t u : Tree) :
    ofAlternatives [.group t false none, .group u false none] =
      if t = u then .group t false none
      else .alt [.group t false none, .group u false none] := by
  rw [ofAlternatives, List.eraseDups_cons]
  by_cases htu : t = u
  · simp [htu]
  · have hne : (Tree.group u false none == .group t false none) = false :=
      beq_false_of_ne fun heq => htu (Tree.group.inj heq).1.symm
    simp [hne, htu, List.eraseDups_cons]

/-- Parsing goes by the parts of a text: a part in parentheses is a group wherever it stands, and a
bar joins the alternatives of its two sides. -/
theorem parse_compose (hp : parse p = .ok t) (hq : parse q = .ok u) :
    parse ("(?:" ++ p ++ ")") = .ok (.group t false none) ∧
    parse ("(?:" ++ p ++ ")(?:" ++ q ++ ")") =
      .ok (.concat [.group t false none, .group u false none]) ∧
    parse ("(?:" ++ p ++ ")|(?:" ++ q ++ ")") =
      .ok (if t = u then .group t false none
        else .alt [.group t false none, .group u false none]) ∧
    (∀ (m n : Nat) (greedy : Bool), m ≤ n → n ≤ 1000 →
      parse ("(?:" ++ p ++ ")\x7b" ++ toString m ++ "," ++ toString n ++ "\x7d" ++
          if greedy then "" else "?") =
        .ok (.repeated (.group t false none) m (some n) greedy)) ∧
    parse (p ++ "|" ++ q) = .ok (.ofAlternatives (t.alternatives ++ u.alternatives)) := by
  have hgroup {p : String} {t : Tree} (hp : parse p = .ok t) :
      parse ("(?:" ++ p ++ ")") = .ok (.group t false none) := by
    have hnone : ∀ x ∈ ([] : List Suffix), x.IsBounded := List.forall_mem_nil _
    exact parse_suffixed hp hnone (by simp [bracketed, writtenOpening])
  refine ⟨hgroup hp, parse_pair hp hq ?_, ?_, fun m n greedy hmn hn => ?_, parse_bar hp hq ?_⟩
  · simp [bracketed, writtenOpening]
  · rw [← ofAlternatives_groups]
    exact parse_bar (hgroup hp) (hgroup hq) (by simp)
  · have hbounded : ∀ x ∈ [(⟨m, some n, greedy⟩ : Suffix)], x.IsBounded := by
      refine List.forall_mem_singleton.2 ⟨Nat.le_trans hmn hn, fun k hk => ?_⟩
      obtain rfl := Option.some.inj hk
      exact ⟨hmn, hn⟩
    have hdigits (k : Nat) : (k : Int).repr.toList = Nat.toDigits 10 k := toList_toString_natCast k
    refine parse_suffixed hp hbounded ?_
    cases greedy <;> simp [bracketed, writtenOpening, Suffix.written, writtenBounds, hdigits]
  · simp

/-- Texts that end where a construct might go on: one alternative of its own, and one of both. -/
theorem parse_compose_bars :
    parse "a|[)|]" = .ok (.alt [.symbol (.single 97), .symbol ⟨[⟨41, 41⟩, ⟨124, 124⟩], true⟩]) ∧
    parse "b?|a" = .ok (.alt [.repeated (.symbol (.single 98)) 0 (some 1) true,
      .symbol (.single 97)]) ∧
    parse ("a|[)|]" ++ "|" ++ "b?|a") = .ok (.alt [.symbol (.single 97),
      .symbol ⟨[⟨41, 41⟩, ⟨124, 124⟩], true⟩,
      .repeated (.symbol (.single 98)) 0 (some 1) true]) := by
  have hp : (parse "a|[)|]").toOption = some (.alt [.symbol (.single 97),
      .symbol ⟨[⟨41, 41⟩, ⟨124, 124⟩], true⟩]) := by decide +kernel
  have hq : (parse "b?|a").toOption = some (.alt [.repeated (.symbol (.single 98)) 0 (some 1) true,
      .symbol (.single 97)]) := by decide +kernel
  have hp := toOption_eq_some.1 hp
  have hq := toOption_eq_some.1 hq
  obtain ⟨-, -, -, -, hbar⟩ := parse_compose hp hq
  refine ⟨hp, hq, hbar.trans (congrArg Except.ok ?_)⟩
  decide +kernel

end Tree

end Munch
