/-
What a reader makes of a text that goes on. `Takes x s a t` says that the reader returns `a` from `s`
and leaves `t`. There is one rule for each way readers are put together, and `takes_many` reads a
row of values off a row of texts.
-/
import Munch.Pattern.Parser
import Munch.Proofs.Ensures

namespace Munch.Reader

variable {α β : Type} {x y : Reader α} {f : α → Reader β} {a : α} {b : β} {c : Char}
  {s t u text : List Char}

/-- From the first text the reader returns the value and leaves the second. -/
def Takes (x : Reader α) (s : List Char) (a : α) (t : List Char) : Prop :=
  x s = .ok a t

theorem takes_pure (a : α) (s : List Char) : Takes (pure a) s a s := rfl

theorem Takes.bind (hx : Takes x s a t) (hf : Takes (f a) t b u) : Takes (x >>= f) s b u := by
  show EStateM.bind x f s = .ok b u
  rw [EStateM.bind, show x s = .ok a t from hx]
  exact hf

theorem takes_bind : Takes (x >>= f) s b u ↔ ∃ a t, Takes x s a t ∧ Takes (f a) t b u :=
  bind_run_eq_ok

theorem Takes.det {a' : α} (h : Takes x s a t) (h' : Takes x s a' u) : a = a' ∧ t = u := by
  cases (show EStateM.Result.ok a t = .ok a' u from h.symm.trans h')
  exact ⟨rfl, rfl⟩

theorem not_takes_throw {stop : Stop} : ¬Takes (throw stop : Reader α) s a t := nofun

theorem Takes.map {g : α → β} (hx : Takes x s a t) :
    Takes (x >>= fun a => pure (g a)) s (g a) t :=
  hx.bind (takes_pure _ t)

theorem takes_get_bind {g : List Char → Reader β} (h : Takes (g s) s b t) :
    Takes (get >>= g) s b t := h

theorem takes_set_bind {g : PUnit → Reader β} (h : Takes (g ⟨⟩) u b t) :
    Takes (set u >>= g) s b t := h

theorem Takes.of_run (h : Takes x s a []) : Reader.run x s = .ok a := by
  rw [Reader.run, EStateM.run, show x s = .ok a [] from h]

/-! ## Single steps -/

theorem takes_peek (s : List Char) : Takes peek s s.head? s := rfl

theorem takes_next (c : Char) (s : List Char) : Takes next (c :: s) (some c) s := rfl

theorem takes_advance (text s : List Char) : Takes (advance text.length) (text ++ s) ⟨⟩ s := by
  show EStateM.Result.ok _ ((text ++ s).drop text.length) = _
  rw [List.drop_left]

theorem takes_sees (text s : List Char) : Takes (sees text) s (text.isPrefixOf s) s := rfl

theorem takes_accepts (text s : List Char) : Takes (accepts text) (text ++ s) true s := by
  refine (takes_sees text (text ++ s)).bind ?_
  rw [List.isPrefixOf_iff_prefix.2 (List.prefix_append text s), if_pos rfl]
  exact (takes_advance text s).map

theorem takes_accepts_not (h : text.isPrefixOf s = false) : Takes (accepts text) s false s := by
  refine (takes_sees text s).bind ?_
  rw [h]
  exact takes_pure false s

/-- The text does not come next, so the second of two readers goes on. -/
theorem takes_refuse (hs : text.isPrefixOf s = false) (h : Takes y s a t) :
    Takes (accepts text >>= fun b => if b = true then x else y) s a t :=
  (takes_accepts_not hs).bind h

/-- A single character does not come next. -/
theorem takes_accepts_not_char (h : c ∉ s.head?) : Takes (accepts [c]) s false s := by
  refine takes_accepts_not ?_
  cases s with
  | nil => rfl
  | cons d s =>
    have hd : d ≠ c := by simpa using h
    rw [List.isPrefixOf_cons_cons, beq_false_of_ne hd.symm, Bool.false_and]

theorem takes_takeWhile {test : Char → Bool} (htext : ∀ c ∈ text, test c = true)
    (hs : ∀ c ∈ s.head?, test c = false) : Takes (takeWhile test) (text ++ s) text s := by
  have hnone : s.takeWhile test = [] ∧ s.dropWhile test = s := by
    cases s with
    | nil => exact ⟨rfl, rfl⟩
    | cons c s => simp [hs c rfl]
  show EStateM.Result.ok ((text ++ s).takeWhile test) ((text ++ s).dropWhile test) = _
  rw [List.takeWhile_append_of_pos htext, List.dropWhile_append_of_pos htext, hnone.1, hnone.2,
    List.append_nil]

/-! ## Rows -/

/-- The reader returns the values in turn, each from a shorter text, and then nothing. -/
inductive TakesEach (read : Reader (Option α)) : List Char → List α → List Char → Prop where
  | stop {s t : List Char} : Takes read s none t → TakesEach read s [] t
  | next {s t u : List Char} {a : α} {as : List α} : Takes read s (some a) t →
    t.length < s.length → TakesEach read t as u → TakesEach read s (a :: as) u

theorem TakesEach.det {read : Reader (Option α)} {as bs : List α} (h : TakesEach read s as t)
    (h' : TakesEach read s bs u) : as = bs ∧ t = u := by
  induction h generalizing bs with
  | stop hnone =>
    cases h' with
    | stop hnone' => exact ⟨rfl, (hnone.det hnone').2⟩
    | next hsome => cases (hnone.det hsome).1
  | next hsome _ _ ih =>
    cases h' with
    | stop hnone => cases (hsome.det hnone).1
    | next hsome' _ hrest =>
      obtain ⟨heq, rfl⟩ := hsome.det hsome'
      obtain ⟨rfl, rfl⟩ := ih hrest
      exact ⟨congrArg (· :: _) (Option.some.inj heq), rfl⟩

theorem takes_upTo {read : Reader (Option α)} {as : List α} (h : TakesEach read s as t)
    {fuel : Nat} (hfuel : s.length < fuel) : Takes (upTo read fuel) s as t := by
  induction h generalizing fuel with
  | stop hnone =>
    obtain ⟨fuel, rfl⟩ : ∃ n, fuel = n + 1 := ⟨fuel - 1, by omega⟩
    exact hnone.bind (takes_pure [] _)
  | next hsome hlt _ ih =>
    obtain ⟨fuel, rfl⟩ : ∃ n, fuel = n + 1 := ⟨fuel - 1, by omega⟩
    exact hsome.bind (ih (by omega)).map

theorem takes_many {read : Reader (Option α)} {as : List α} (h : TakesEach read s as t) :
    Takes (many read) s as t :=
  takes_get_bind (takes_upTo h (Nat.lt_succ_self _))

theorem takesEach_of_upTo {read : Reader (Option α)} {as : List α} {fuel : Nat}
    (hlt : ∀ s a t, Takes read s (some a) t → t.length < s.length)
    (h : Takes (upTo read fuel) s as t) (hfuel : s.length < fuel) : TakesEach read s as t := by
  induction fuel generalizing s as with
  | zero => exact absurd hfuel (Nat.not_lt_zero _)
  | succ fuel ih =>
    obtain ⟨o, u, ho, h⟩ := takes_bind.1 h
    cases o with
    | none =>
      cases h
      exact .stop ho
    | some a =>
      obtain ⟨as, v, has, h⟩ := takes_bind.1 h
      cases h
      have hus := hlt s a u ho
      exact .next ho hus (ih has (by omega))

/-- A row ends where its reader returns nothing, if the reader gets on. -/
theorem takesEach_of_many {read : Reader (Option α)} {as : List α}
    (hlt : ∀ s a t, Takes read s (some a) t → t.length < s.length) (h : Takes (many read) s as t) :
    TakesEach read s as t :=
  takesEach_of_upTo hlt h (Nat.lt_succ_self _)

/-! ## Whole patterns -/

/-- A pattern is an expression with nothing behind it. -/
theorem takes_pattern_iff {tree : Tree} :
    Takes pattern s tree t ↔ t = [] ∧ Takes expr s tree [] := by
  constructor
  · intro h
    obtain ⟨tree', u, hexpr, hrest⟩ := takes_bind.1 h
    obtain ⟨o, v, ho, hrest⟩ := takes_bind.1 hrest
    obtain ⟨rfl, rfl⟩ := ho.det (takes_peek u)
    cases v with
    | nil =>
      cases hrest
      exact ⟨rfl, hexpr⟩
    | cons c v =>
      simp only [List.head?_cons] at hrest
      split at hrest
      · exact absurd hrest not_takes_throw
      · exact absurd hrest not_takes_throw
  · rintro ⟨rfl, hexpr⟩
    exact hexpr.bind (takes_pure tree [])

end Munch.Reader
