/-
The text of a table loses nothing. Printable bytes stand in it as themselves, next to the minus signs,
commas and brackets that separate, but from the left each piece can be read in one way only: a byte
by itself, an interval up to something that is no minus, a number up to something that is no digit.
So two tables with the same text have the same steps, cases and ends (`Table.text_inj`).
-/
import Munch.Proofs.Table.IdMap
import Munch.Proofs.Text.Unambiguous
import Munch.Table.Text

namespace Munch

open Text

variable {s t : List Char}

/-! ## Transitions -/

theorem Condition.toList_text (c : Condition) :
    c.text.toList = (toString c.step).toList ++ ([' ', 'i', 'f', ' '] ++ c.range.text.toList) := by
  simp [Condition.text, toString]

theorem Condition.unambiguous_text : Unambiguous (fun c : Condition => c.text.toList)
    (fun c => c.range.IsBytes) fun s => '-' ∉ s.head? := by
  intro c d s t hc hd hs ht h
  simp only [toList_text, List.append_assoc] at h
  have hblank (s : List Char) : ∀ c ∈ ([' ', 'i', 'f', ' '] ++ s).head?, c.isDigit = false :=
    not_isDigit_head?_cons rfl _
  obtain ⟨hstep, htail⟩ := unambiguous_toString _ _ _ _ trivial trivial (hblank _) (hblank _) h
  obtain ⟨hrange, hst⟩ := Interval.unambiguous_text _ _ _ _ hc hd hs ht
    (List.append_cancel_left htail)
  obtain ⟨step, range⟩ := c
  exact ⟨by rw [show step = d.step from hstep, show range = d.range from hrange], hst⟩

namespace Transition

/-- The conditions in brackets, if there are any. -/
def conditionChars : List Condition → List Char
  | [] => []
  | c :: cs => [' ', '['] ++ (c.text.toList ++ (cs.flatMap ([',', ' '] ++ ·.text.toList) ++ [']']))

theorem toList_text_go (target : StepId) (conditions : List Condition) :
    (go target conditions).text.toList = ['s', 't', 'e', 'p', ' ', '=', ' '] ++
      ((toString target).toList ++ conditionChars conditions) := by
  cases conditions with
  | nil => simp [Transition.text, toString, conditionChars]
  | cons c cs =>
    simp [Transition.text, toString, conditionChars, String.toList_intercalate,
      intercalate_cons_eq, List.flatMap_map]

theorem toList_text_accept (index : PatternIndex) : (accept index).text.toList =
    ['r', 'e', 't', 'u', 'r', 'n', ' '] ++ (toString index).toList := by
  simp [Transition.text, toString]

theorem unambiguous_conditionChars : Unambiguous conditionChars
    (fun cs => ∀ c ∈ cs, c.range.IsBytes) fun s => ' ' ∉ s.head? := by
  -- behind the first condition each further one starts with a comma, and a bracket ends them
  have hrow : Unambiguous (List.flatMap fun c : Condition => [',', ' '] ++ c.text.toList)
      (fun cs => ∀ c ∈ cs, c.range.IsBytes) fun s => s.head? = some ']' := by
    refine Unambiguous.row (fun s => s.head? = some ',') (fun s => '-' ∉ s.head?)
      (fun c d s t hc hd hs ht h => ?_) (fun _ _ _ => rfl) ?_ ?_
    · rw [List.append_assoc, List.append_assoc] at h
      exact Condition.unambiguous_text c d s t hc hd hs ht (List.append_cancel_left h)
    · intro s hs hcomma
      rw [hs] at hcomma
      cases hcomma
    · rintro s (hs | hs) <;> simp [hs]
  have hbehind (cs : List Condition) (s : List Char) :
      '-' ∉ (cs.flatMap ([',', ' '] ++ ·.text.toList) ++ ([']'] ++ s)).head? := by
    cases cs <;> simp
  intro cs ds s t hcs hds hs ht h
  cases cs with
  | nil =>
    cases ds with
    | nil => exact ⟨rfl, h⟩
    | cons d ds => exact absurd (show s = ' ' :: _ from h) fun hblank => hs (hblank ▸ rfl)
  | cons c cs =>
    cases ds with
    | nil => exact absurd (show ' ' :: _ = t from h) fun hblank => ht (hblank ▸ rfl)
    | cons d ds =>
      obtain ⟨hc, hcs'⟩ := List.forall_mem_cons.1 hcs
      obtain ⟨hd, hds'⟩ := List.forall_mem_cons.1 hds
      simp only [conditionChars, List.append_assoc] at h
      obtain ⟨rfl, htail⟩ := Condition.unambiguous_text c d _ _ hc hd (hbehind cs s) (hbehind ds t)
        (List.append_cancel_left h)
      obtain ⟨rfl, hst⟩ := hrow cs ds _ _ hcs' hds' rfl rfl htail
      exact ⟨rfl, List.append_cancel_left hst⟩

/-- The conditions hold on bytes. -/
def IsPrintable : Transition → Prop
  | go _ conditions => ∀ c ∈ conditions, c.range.IsBytes
  | accept _ => True

instance : (x : Transition) → Decidable x.IsPrintable
  | go _ conditions => inferInstanceAs (Decidable (∀ c ∈ conditions, c.range.IsBytes))
  | accept _ => .isTrue trivial

/-- A transition ends with its line. -/
theorem unambiguous_text : Unambiguous (fun x : Transition => x.text.toList) IsPrintable
    fun s => s.head? = some '\n' := by
  have hdigit {s : List Char} (hs : s.head? = some '\n') : ∀ c ∈ s.head?, c.isDigit = false := by
    rw [hs]
    rintro c ⟨⟩
    decide
  have hnumber (cs : List Condition) {s : List Char} (hs : s.head? = some '\n') :
      ∀ c ∈ (conditionChars cs ++ s).head?, c.isDigit = false := by
    cases cs with
    | nil => exact hdigit hs
    | cons c cs => exact not_isDigit_head?_cons rfl _
  have hblank {s : List Char} (hs : s.head? = some '\n') : ' ' ∉ s.head? := by simp [hs]
  intro x y s t hx hy hs ht h
  cases x with
  | go target conditions =>
    cases y with
    | go target' conditions' =>
      simp only [toList_text_go, List.append_assoc] at h
      obtain ⟨rfl, htail⟩ := unambiguous_toString _ _ _ _ trivial trivial (hnumber conditions hs)
        (hnumber conditions' ht) (List.append_cancel_left h)
      obtain ⟨rfl, hst⟩ := unambiguous_conditionChars _ _ _ _ hx hy (hblank hs) (hblank ht) htail
      exact ⟨rfl, hst⟩
    | accept index =>
      simp only [toList_text_go, toList_text_accept] at h
      cases h
  | accept index =>
    cases y with
    | go target conditions =>
      simp only [toList_text_go, toList_text_accept] at h
      cases h
    | accept index' =>
      simp only [toList_text_accept, List.append_assoc] at h
      obtain ⟨rfl, hst⟩ := unambiguous_toString _ _ _ _ trivial trivial (hdigit hs) (hdigit ht)
        (List.append_cancel_left h)
      exact ⟨rfl, hst⟩

end Transition

/-! ## Cases -/

namespace Case

/-- The intervals of the case are made of bytes. -/
def IsPrintable (c : Case) : Prop := c.range.IsBytes ∧ c.transition.IsPrintable

instance (c : Case) : Decidable c.IsPrintable :=
  inferInstanceAs (Decidable (_ ∧ _))

/-- The line of a case. -/
def lineChars (c : Case) : List Char := [' ', ' ', ' ', ' '] ++ (c.text.toList ++ ['\n'])

theorem toList_text (c : Case) :
    c.text.toList = c.range.text.toList ++ ([' ', '=', '>', ' '] ++ c.transition.text.toList) := by
  simp [text, toString]

theorem toList_line (c : Case) : ("    " ++ c.text ++ "\n").toList = c.lineChars := by
  simp [lineChars]

theorem unambiguous_lineChars : Unambiguous lineChars IsPrintable fun _ => True := by
  intro c d s t hc hd _ _ h
  simp only [lineChars, toList_text, List.append_assoc] at h
  obtain ⟨hrange, htail⟩ := Interval.unambiguous_text _ _ _ _ hc.1 hd.1 (by simp) (by simp)
    (List.append_cancel_left h)
  obtain ⟨htransition, hst⟩ := Transition.unambiguous_text _ _ _ _ hc.2 hd.2 rfl rfl
    (List.append_cancel_left htail)
  obtain ⟨range, transition⟩ := c
  exact ⟨by rw [show range = d.range from hrange, show transition = d.transition from htransition],
    List.append_cancel_left hst⟩

end Case

/-! ## Tables -/

namespace Table

/-- What a table says of one of its steps. -/
structure Entry where
  step : StepId
  accepted : Option PatternIndex
  cases : List Case

namespace Entry

def IsPrintable (e : Entry) : Prop := ∀ c ∈ e.cases, c.IsPrintable

def acceptedChars : Option PatternIndex → List Char
  | some index => [' ', '(', 'e', 'n', 'd', ' '] ++ ((toString index).toList ++ [')'])
  | none => []

def chars (e : Entry) : List Char :=
  (toString e.step).toList ++
    (':' :: (acceptedChars e.accepted ++ '\n' :: e.cases.flatMap Case.lineChars))

theorem unambiguous_acceptedChars :
    Unambiguous acceptedChars (fun _ => True) fun s => s.head? = some '\n' := by
  intro x y s t _ _ hs ht h
  have hdigit (s : List Char) : ∀ c ∈ ([')'] ++ s).head?, c.isDigit = false :=
    not_isDigit_head?_cons rfl s
  cases x with
  | none =>
    cases y with
    | none => exact ⟨rfl, h⟩
    | some index =>
      obtain rfl : s = ' ' :: _ := h
      cases hs
  | some index =>
    cases y with
    | none =>
      obtain rfl : ' ' :: _ = t := h
      cases ht
    | some index' =>
      simp only [acceptedChars, List.append_assoc] at h
      obtain ⟨rfl, hst⟩ := unambiguous_toString _ _ _ _ trivial trivial (hdigit s) (hdigit t)
        (List.append_cancel_left h)
      exact ⟨rfl, List.append_cancel_left hst⟩

/-- The lines of a step end where no further line is indented. -/
theorem unambiguous_chars : Unambiguous chars IsPrintable fun s => ' ' ∉ s.head? := by
  have hrows : Unambiguous (List.flatMap Case.lineChars) (fun cs => ∀ c ∈ cs, c.IsPrintable)
      fun s => ' ' ∉ s.head? :=
    Unambiguous.row (fun s => ' ' ∈ s.head?) (fun _ => True) Case.unambiguous_lineChars
      (fun _ _ _ => rfl) (fun _ hs hblank => hs hblank) (fun _ _ => trivial)
  have hcolon (s : List Char) : ∀ c ∈ (':' :: s).head?, c.isDigit = false :=
    not_isDigit_head?_cons rfl s
  rintro ⟨step, accepted, cases⟩ ⟨step', accepted', cases'⟩ s t he hf hs ht h
  simp only [chars, List.append_assoc, List.cons_append] at h
  obtain ⟨rfl, hline⟩ := unambiguous_toString _ _ _ _ trivial trivial (hcolon _) (hcolon _) h
  obtain ⟨rfl, hlines⟩ := unambiguous_acceptedChars accepted accepted' _ _ trivial trivial rfl rfl
    (List.cons.inj hline).2
  obtain ⟨rfl, hst⟩ := hrows _ _ _ _ he hf hs ht (List.cons.inj hlines).2
  exact ⟨rfl, hst⟩

/-- Entries are told apart to the end of the text, as none of them is indented. -/
theorem unambiguous_flatMap_chars : Unambiguous (List.flatMap chars)
    (fun es => ∀ e ∈ es, e.IsPrintable) fun s => s = [] := by
  refine Unambiguous.row (fun s => s ≠ [] ∧ ' ' ∉ s.head?) (fun s => ' ' ∉ s.head?)
    unambiguous_chars (fun e s _ => ?_) (fun s hs hstarts => hstarts.1 hs) ?_
  · rw [chars, List.append_assoc]
    exact ⟨by simp, blank_notMem_head?_toString e.step⟩
  · rintro s (hs | rfl)
    · exact hs.2
    · simp

end Entry

/-- The entries of the steps in ascending order. -/
def sortedEntries (t : Table) : List Entry :=
  (sort (· ≤ ·) t.steps.keys).map fun step =>
    ⟨step, t.ends.get? step, (t.steps.get? step).getD []⟩

/-- All intervals of the table are made of bytes, and what is accepted belongs to a step. -/
structure IsPrintable (t : Table) : Prop where
  cases : ∀ e ∈ t.steps.entries, ∀ c ∈ e.2, c.IsPrintable
  ends : ∀ step ∈ t.ends.keys, step ∈ t.steps.keys

instance (t : Table) : Decidable t.IsPrintable :=
  decidable_of_iff ((∀ e ∈ t.steps.entries, ∀ c ∈ e.2, c.IsPrintable) ∧
      ∀ step ∈ t.ends.keys, step ∈ t.steps.keys)
    ⟨fun h => ⟨h.1, h.2⟩, fun h => ⟨h.cases, h.ends⟩⟩

theorem toList_stepText (t : Table) (step : StepId) : (t.stepText step).toList =
    (Entry.mk step (t.ends.get? step) ((t.steps.get? step).getD [])).chars := by
  have hlines (cs : List Case) :
      (String.join (cs.map fun c => "    " ++ c.text ++ "\n")).toList =
        cs.flatMap Case.lineChars := by
    simp only [String.toList_join, List.flatMap_map, Case.toList_line]
  rw [stepText, Entry.chars]
  cases t.ends.get? step <;> simp [hlines, Entry.acceptedChars, toString]

theorem toList_text (t : Table) : t.text.toList = t.sortedEntries.flatMap Entry.chars := by
  simp [text, String.toList_join, sortedEntries, List.flatMap_map, toList_stepText]

theorem IsPrintable.entry {t : Table} {e : Entry} (h : t.IsPrintable) (he : e ∈ t.sortedEntries) :
    e.IsPrintable := by
  obtain ⟨step, -, rfl⟩ := List.mem_map.1 he
  intro c hc
  cases hsteps : t.steps.get? step with
  | none =>
    simp only [hsteps] at hc
    cases hc
  | some cs =>
    simp only [hsteps] at hc
    exact h.cases _ (IdMap.get?_eq_some_iff.1 hsteps) c hc

variable {t u : Table} {step : StepId}

theorem steps_sortedEntries (t : Table) :
    t.sortedEntries.map (·.step) = sort (· ≤ ·) t.steps.keys := by
  rw [sortedEntries, List.map_map]
  exact List.map_id _

/-- The entry of a step says what the table says of it. -/
theorem get?_of_mem_sortedEntries {e : Entry} (h : e ∈ t.sortedEntries) :
    t.steps.get? e.step = some e.cases ∧ t.ends.get? e.step = e.accepted := by
  obtain ⟨step, hstep, rfl⟩ := List.mem_map.1 h
  have hne := IdMap.mem_keys.1 (mem_sort.1 hstep)
  obtain ⟨cs, hcs⟩ := Option.ne_none_iff_exists'.1 hne
  simp [hcs]

/-- A step without an entry is none. -/
theorem IsPrintable.get?_eq_none (h : t.IsPrintable)
    (hstep : step ∉ t.sortedEntries.map (·.step)) :
    t.steps.get? step = none ∧ t.ends.get? step = none := by
  rw [steps_sortedEntries, mem_sort, IdMap.mem_keys, Decidable.not_not] at hstep
  exact ⟨hstep, Decidable.by_contra fun hends =>
    IdMap.mem_keys.1 (h.ends step (IdMap.mem_keys.2 hends)) hstep⟩

/-- Tables that are written in the same way have the same steps, with the same cases, and accept
the same in them. -/
theorem text_inj (ht : t.IsPrintable) (hu : u.IsPrintable) (h : t.text = u.text) (step : StepId) :
    t.steps.get? step = u.steps.get? step ∧ t.ends.get? step = u.ends.get? step := by
  have hchars : t.sortedEntries.flatMap Entry.chars ++ [] =
      u.sortedEntries.flatMap Entry.chars ++ [] := by
    rw [← toList_text, ← toList_text, h]
  obtain ⟨hentries, -⟩ := Entry.unambiguous_flatMap_chars _ _ _ _ (fun _ => ht.entry)
    (fun _ => hu.entry) rfl rfl hchars
  by_cases hstep : step ∈ t.sortedEntries.map (·.step)
  · obtain ⟨e, he, rfl⟩ := List.mem_map.1 hstep
    obtain ⟨hsteps, hends⟩ := get?_of_mem_sortedEntries he
    obtain ⟨hsteps', hends'⟩ := get?_of_mem_sortedEntries (hentries ▸ he)
    exact ⟨hsteps.trans hsteps'.symm, hends.trans hends'.symm⟩
  · obtain ⟨hsteps, hends⟩ := ht.get?_eq_none hstep
    obtain ⟨hsteps', hends'⟩ := hu.get?_eq_none (hentries ▸ hstep)
    exact ⟨hsteps.trans hsteps'.symm, hends.trans hends'.symm⟩

/-- Two tables with the same steps, told in different orders, on bytes that separate, too. -/
theorem text_inj_separators :
    let cases : List Case :=
      [⟨⟨32, 44⟩, .go 1 [⟨1, ⟨44, 44⟩⟩, ⟨0, ⟨45, 93⟩⟩]⟩, ⟨⟨45, 45⟩, .accept 7⟩, ⟨⟨93, 255⟩, .go 0 []⟩]
    let t : Table := ⟨.ofList [(0, cases), (1, [])], .ofList [(0, 7), (1, 2)]⟩
    let u : Table := ⟨.ofList [(1, []), (0, cases)], .ofList [(1, 2), (0, 7)]⟩
    t.IsPrintable ∧ u.IsPrintable ∧ t.text = u.text ∧ ∀ step : StepId,
      t.steps.get? step = u.steps.get? step ∧ t.ends.get? step = u.ends.get? step := by
  intro cases t u
  have ht : t.IsPrintable := by decide
  have hu : u.IsPrintable := by decide
  have h : t.text = u.text := by decide +kernel
  exact ⟨ht, hu, h, text_inj ht hu h⟩

end Table

end Munch
