/-
What becomes of the patterns on the way from the command line to the set. They come through as they
were written, in their order and never without one (`patterns_of_parse`), and behind a `--` every text
is one (`parse_separator`).
-/
import Munch.CommandLine.Arguments
import Munch.Proofs.Answers

namespace Munch.CommandLine

variable {release : Release} {a a' : Arguments} {s s' : Progress} {argv patterns : List String}
  {arg p : String} {tokens : List Token}

/-- A token that is plain is the argument itself. -/
def Token.Shows (t : Token) (arg : String) : Prop :=
  ∀ p, t = .plain p → p = arg

theorem Token.shows_ofOther (arg : String) : (Token.ofOther arg.toList).Shows arg := by
  intro p h
  rw [Token.ofOther] at h
  split at h
  · rw [← Token.plain.inj h, String.ofList_toList]
  · cases h

theorem Token.shows_ofArgument? {t : Token} (h : Token.ofArgument? release arg = some t) :
    t.Shows arg := by
  rw [Token.ofArgument?] at h
  split at h
  · split at h
    · cases h
      exact shows_ofOther arg
    · split at h
      · cases h
        exact fun p h => nomatch h
      · cases h
        exact fun p h => nomatch h
    · cases h
  · split at h
    · cases h
      exact fun p h => nomatch h
    · cases h
      exact shows_ofOther arg
  · cases h
    exact fun p h => (Token.plain.inj h).symm

theorem shows_of_tokens? :
    ∀ {argv : List String} {tokens : List Token}, tokens? release argv = some tokens →
      List.Forall₂ Token.Shows tokens argv
  | [], _, h => by
    cases h
    exact .nil
  | arg :: argv, tokens, h => by
    rw [tokens?] at h
    split at h
    · cases h
      refine .cons (fun p h => nomatch h) ?_
      rw [List.forall₂_map_left_iff, List.forall₂_same]
      exact fun arg _ p h => (Token.plain.inj h).symm
    · obtain ⟨t, ht, h⟩ := Option.bind_eq_some_iff.1 h
      obtain ⟨ts, hts, h⟩ := Option.bind_eq_some_iff.1 h
      cases h
      exact .cons (Token.shows_ofArgument? ht) (shows_of_tokens? hts)

/-! ## Steps -/

/-- No option changes the patterns. -/
theorem patterns_take {action : Action} (h : a.take release action = .ok a') :
    a'.patterns = a.patterns := by
  cases action with
  | flag f =>
    cases f with
    | help => cases h
    | emit | table | codegen | verbose | time =>
      cases h
      rfl
  | field f value =>
    cases f with
    | file | output | dot =>
      cases h
      rfl
    | maxSteps =>
      rw [Arguments.take] at h
      split at h
      · cases h
        rfl
      · split at h
        · cases h
        · cases h
          rfl

theorem patterns_foldlM {actions : List Action}
    (h : actions.foldlM (Arguments.take release) a = .ok a') : a'.patterns = a.patterns := by
  induction actions generalizing a with
  | nil =>
    cases h
    rfl
  | cons action actions ih =>
    obtain ⟨b, hb, h⟩ := bind_eq_ok.1 h
    rw [ih h, patterns_take hb]

namespace Progress

theorem patterns_take {actions : List Action} {isOdd : Bool}
    (h : s.take release actions isOdd = .ok s') : s'.arguments.patterns = s.arguments.patterns := by
  obtain ⟨a, ha, h⟩ := bind_eq_ok.1 h
  cases h
  exact patterns_foldlM ha

theorem patterns_separator (s : Progress) : s.separator.arguments = s.arguments := by
  rw [separator]
  split
  · rfl
  · rfl

/-- A plain argument is one more pattern, or has no place. -/
theorem patterns_pattern (s : Progress) (p : String) :
    ∃ more, more.Sublist [p] ∧
      (s.pattern p).arguments.patterns = s.arguments.patterns ++ more := by
  rw [pattern]
  split
  · exact ⟨[], List.nil_sublist _, (List.append_nil _).symm⟩
  · exact ⟨[p], .refl _, rfl⟩

/-- All patterns that are read are among the arguments, in their order. -/
theorem patterns_read (h : s.read release tokens = .ok s')
    (hshows : List.Forall₂ Token.Shows tokens argv) :
    ∃ more, more.Sublist argv ∧ s'.arguments.patterns = s.arguments.patterns ++ more := by
  fun_induction read release s tokens generalizing argv with
  | case1 s =>
    cases h
    exact ⟨[], List.nil_sublist _, (List.append_nil _).symm⟩
  | case2 s p rest ih =>
    obtain _ | @⟨_, arg, _, argv, hp, hrest⟩ := hshows
    obtain rfl := hp p rfl
    obtain ⟨first, hfirst, hpattern⟩ := patterns_pattern s p
    obtain ⟨more, hmore, hread⟩ := ih h hrest
    exact ⟨first ++ more, hfirst.append hmore, by rw [hread, hpattern, List.append_assoc]⟩
  | case3 s rest ih =>
    obtain _ | ⟨-, hrest⟩ := hshows
    obtain ⟨more, hmore, hread⟩ := ih h hrest
    exact ⟨more, hmore.cons _, by rw [hread, patterns_separator]⟩
  | case4 => cases h
  | case5 s actions isOdd rest ih =>
    obtain _ | ⟨-, hrest⟩ := hshows
    obtain ⟨t, ht, h⟩ := bind_eq_ok.1 h
    obtain ⟨more, hmore, hread⟩ := ih t h hrest
    exact ⟨more, hmore.cons _, by rw [hread, patterns_take ht]⟩
  | case6 s actions f isOdd value rest ih =>
    obtain _ | ⟨-, _ | ⟨-, hrest⟩⟩ := hshows
    obtain ⟨t, ht, h⟩ := bind_eq_ok.1 h
    obtain ⟨more, hmore, hread⟩ := ih t h hrest
    exact ⟨more, (hmore.cons _).cons _, by rw [hread, patterns_take ht]⟩
  | case7 => cases h

/-- Plain arguments go on with the patterns. -/
theorem read_plain (a : Arguments) (isOdd : Bool) (more : List String) :
    read release ⟨a, .within, isOdd⟩ (more.map .plain) =
      .ok ⟨{ a with patterns := a.patterns ++ more }, .within, isOdd⟩ := by
  induction more generalizing a with
  | nil => rw [List.map_nil, read, List.append_nil]
  | cons p more ih =>
    rw [List.map_cons, read, pattern]
    simp only [ih, List.append_assoc, List.singleton_append]

end Progress

namespace Arguments

/-- The patterns of a command line that is run are some of its arguments, in their order. -/
theorem patterns_of_parse (h : parse release argv = .ok a) :
    a.patterns.Sublist argv ∧ a.patterns ≠ [] := by
  rw [parse] at h
  split at h
  · cases h
  · next tokens htokens =>
    obtain ⟨s, hs, h⟩ := bind_eq_ok.1 h
    obtain ⟨more, hmore, hpatterns⟩ := Progress.patterns_read hs (shows_of_tokens? htokens)
    rw [Progress.finish] at h
    split at h
    · cases h
    · next hfinish =>
      cases h
      refine ⟨hpatterns ▸ hmore, fun hnone => hfinish ?_⟩
      rw [hnone, List.isEmpty_nil, Bool.or_true]

/-- Whatever stands behind a separator is a pattern. -/
theorem parse_separator (release : Release) (hne : patterns ≠ []) :
    parse release ("--" :: patterns) = .ok { Arguments.initial with patterns := patterns } := by
  obtain ⟨p, more, rfl⟩ := List.exists_cons_of_ne_nil hne
  rw [parse, tokens?, if_pos rfl]
  refine bind_eq_ok.2 ⟨_, Progress.read_plain ⟨[p], _, _, _, _, _, _, _, _, _⟩ false more, ?_⟩
  rfl

end Arguments

end Munch.CommandLine
