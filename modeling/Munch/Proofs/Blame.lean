/-
Which pattern is blamed. Compiling stops at the first pattern that does not parse and says where it
breaks the syntax, or that it looks around (`Machine.compile_eq_error`). It comes to something else
only where a count is made of digits that are no numeral: then no pattern is blamed.
-/
import Munch.Proofs.Pattern.Stops
import Munch.Proofs.PatternSet

namespace Munch

open Text

variable {patterns before : List String} {q : String} {e : Error}

/-- The text is one of a pattern. -/
def Tree.Parses (q : String) : Prop := ∃ t, Tree.parse q = .ok t

instance (q : String) : Decidable (Tree.Parses q) := decidable_of_iff _ isSome_toOption

/-- What is said of a pattern that does not parse, and of its index in the set. -/
inductive Blames (q : String) (index : Nat) : Error → Prop where
  /-- The syntax is broken, at a character of the pattern or at its end. -/
  | malformed (fault : Fault) {position : Nat} : position ≤ q.length →
    Blames q index (.rejected ⟨.malformed fault position, some q, some index⟩)
  | lookaround : Blames q index (.rejected ⟨.unsupported .lookaround none, some q, some index⟩)
  /-- Some digits in the pattern are no numeral; nothing is said of the pattern. -/
  | numeral {digits : List Char} {fault : NumeralFault} : digits ≠ [] → digits <:+: q.toList →
    (∀ c ∈ digits, isDigit c = true) → Text.numeral digits = .error fault →
    Blames q index (.numeral fault)

theorem blames_of_parse (h : Tree.parse q = .error e) (index : Nat) :
    Blames q index (e.inPattern q index) := by
  obtain ⟨stop, position, hposition, hfounded, rfl⟩ := Tree.exists_stop_of_parse h
  cases stop with
  | fault fault => exact .malformed fault hposition
  | lookaround => exact .lookaround
  | numeral fault =>
    obtain ⟨digits, hne, hinfix, hdigits, hfault⟩ := hfounded
    exact .numeral hne hinfix hdigits hfault
  | noCharacter => exact hfounded.elim

/-- The trees are built up to the first pattern that has none. -/
theorem Tree.parseAll_eq_error (index : Nat) (hbefore : ∀ p ∈ before, Tree.Parses p)
    (hq : Tree.parse q = .error e) (after : List String) :
    Tree.parseAll index (before ++ q :: after) =
      .error (e.inPattern q ↑(index + before.length)) := by
  induction before generalizing index with
  | nil =>
    rw [List.nil_append, Tree.parseAll_cons, hq]
    rfl
  | cons p before ih =>
    obtain ⟨t, ht⟩ := hbefore p (by simp)
    have hrest := ih (index + 1) fun p' hp' => hbefore p' (by simp [hp'])
    rw [List.cons_append, Tree.parseAll_cons, ht, List.length_cons]
    simp only [hrest]
    rw [show index + 1 + before.length = index + (before.length + 1) by omega]
    rfl

/-- There is a first pattern that does not parse. -/
theorem exists_first_unparsed (h : ∃ q ∈ patterns, ¬ Tree.Parses q) : ∃ before q after,
    patterns = before ++ q :: after ∧ (∀ p ∈ before, Tree.Parses p) ∧ ¬ Tree.Parses q := by
  obtain ⟨q, hq⟩ := Option.isSome_iff_exists.1
    (List.find?_isSome (p := fun q => decide (¬ Tree.Parses q)).2 (by simpa using h))
  obtain ⟨hnot, before, after, rfl, hbefore⟩ := List.find?_eq_some_iff_append.1 hq
  exact ⟨before, q, after, rfl, by simpa using hbefore, by simpa using hnot⟩

/-- **The first pattern that does not parse is blamed.** -/
theorem Machine.compile_eq_error (h : ∃ q ∈ patterns, ¬ Tree.Parses q) (maxSteps : Option Int) :
    ∃ before q after e, patterns = before ++ q :: after ∧ (∀ p ∈ before, Tree.Parses p) ∧
      ¬ Tree.Parses q ∧ Machine.compile patterns maxSteps = .error e ∧ Blames q before.length e := by
  obtain ⟨before, q, after, rfl, hbefore, hq⟩ := exists_first_unparsed h
  cases hparse : Tree.parse q with
  | ok t => exact absurd ⟨t, hparse⟩ hq
  | error e =>
    have hall := Tree.parseAll_eq_error 0 hbefore hparse after
    rw [Nat.zero_add] at hall
    refine ⟨before, q, after, _, rfl, hbefore, hq, ?_, blames_of_parse hparse before.length⟩
    rw [Machine.compile, hall]
    rfl

/-- Of two patterns that do not parse the first one is blamed. -/
theorem Machine.compile_eq_error_unclosed : (∃ q ∈ ["a", "(b", ")"], ¬ Tree.Parses q) ∧
    ∃ e, Machine.compile ["a", "(b", ")"] none = .error e ∧ Blames "(b" 1 e := by
  have hnot : ¬ Tree.Parses "(b" := by decide +kernel
  have hbad : ∃ q ∈ ["a", "(b", ")"], ¬ Tree.Parses q := ⟨"(b", by simp, hnot⟩
  obtain ⟨before, q, after, e, heq, hbefore, hq, hcompile, hblames⟩ :=
    Machine.compile_eq_error hbad none
  refine ⟨hbad, e, hcompile, ?_⟩
  rcases before with _ | ⟨p, _ | ⟨p', rest⟩⟩
  · obtain ⟨rfl, -⟩ := List.cons.inj heq
    exact absurd (by decide +kernel) hq
  · obtain ⟨-, heq⟩ := List.cons.inj heq
    obtain ⟨rfl, -⟩ := List.cons.inj heq
    exact hblames
  · obtain ⟨-, heq⟩ := List.cons.inj heq
    obtain ⟨rfl, -⟩ := List.cons.inj heq
    exact absurd (hbefore _ (by simp)) hnot

/-- A superscript is a digit, but no numeral; the error that comes of it names no pattern. -/
theorem Machine.compile_superscript :
    Machine.compile ["a\x7b²\x7d"] (some 10000) = .error (.numeral (.notDecimal "²")) := by
  have hparse : Tree.parse "a\x7b²\x7d" = .error (.numeral (.notDecimal "²")) := by
    decide +kernel
  rw [Machine.compile, Tree.parseAll_cons, hparse]
  rfl

end Munch
