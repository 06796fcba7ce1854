/-
Readers do not look past the end of what they read. What a reader returns from a text, it returns
from the text with a bar or a closing parenthesis behind it as well, and leaves these behind
(`Carries`). There is one rule for each way readers are put together. Two readers are wary of what
comes behind: a minus at the very end of a symbol set would start a range, so nothing may end there,
and a bar goes on with another alternative (`takes_exprUpTo_append`).
-/
import Munch.Proofs.Pattern.Stops
import Munch.Proofs.Pattern.Takes

namespace Munch

open Text

/-- The different ones of some trees, as a choice if there is more than one. -/
def Tree.ofAlternatives (ts : List Tree) : Tree :=
  match ts.eraseDups with
  | [t] => t
  | us => .alt us

namespace Reader

variable {α β : Type} {x x' y y' : Reader α} {f g : α → Reader β} {a b : α}
  {s t u r text : List Char}

/-- What the first reader makes of the text, the second makes of the text with more behind it, and
leaves that behind. -/
def Carries (r : List Char) (x y : Reader α) (s : List Char) : Prop :=
  ∀ a t, Takes x s a t → Takes y (s ++ r) a (t ++ r)

/-- The same of all texts of which something is left. -/
def CarriesInside (r : List Char) (x y : Reader α) : Prop :=
  ∀ s a t, Takes x s a t → t ≠ [] → Takes y (s ++ r) a (t ++ r)

/-- What may come behind an alternative. -/
def Closes (r : List Char) : Prop := ∀ c ∈ r.head?, c = '|' ∨ c = ')'

theorem Closes.forall_head (h : Closes r) {P : Char → Prop} (hbar : P '|') (hclose : P ')') :
    ∀ c ∈ r.head?, P c := by
  intro c hc
  rcases h c hc with rfl | rfl
  · exact hbar
  · exact hclose

theorem carries_pure (a : α) : Carries r (pure a) (pure a) s := by
  rintro _ _ ⟨⟩
  exact takes_pure a _

theorem carries_throw (stop : Stop) : Carries r (throw stop) y s :=
  fun _ _ h => absurd h not_takes_throw

theorem carries_fail (fault : Fault) : Carries r (fail fault) y s := carries_throw _

theorem carries_get_bind {f g : List Char → Reader β} (h : Carries r (f s) (g (s ++ r)) s) :
    Carries r (get >>= f) (get >>= g) s := h

theorem carries_set_bind {f g : PUnit → Reader β} (h : Carries r (f ⟨⟩) (g ⟨⟩) u) :
    Carries r (set u >>= f) (set (u ++ r) >>= g) s := h

theorem Carries.of_takes (h : Takes x s a t) (h' : Takes y (s ++ r) a (t ++ r)) :
    Carries r x y s := by
  intro b u hb
  obtain ⟨rfl, rfl⟩ := h.det hb
  exact h'

theorem Carries.bind (hx : Carries r x y s) (hf : ∀ a t, Takes x s a t → Carries r (f a) (g a) t) :
    Carries r (x >>= f) (y >>= g) s := by
  intro b u h
  obtain ⟨a, t, ha, h⟩ := takes_bind.1 h
  exact (hx a t ha).bind (hf a t ha b u h)

/-- Behind the first reader something is needed, so something is left. -/
theorem CarriesInside.bind (hx : CarriesInside r x y) (hnil : ∀ a b u, ¬Takes (f a) [] b u)
    (hf : ∀ a t, Carries r (f a) (g a) t) : Carries r (x >>= f) (y >>= g) s := by
  intro b u h
  obtain ⟨a, t, ha, hb⟩ := takes_bind.1 h
  refine (hx s a t ha fun ht => ?_).bind (hf a t b u hb)
  exact hnil a b u (ht ▸ hb)

/-- The second reader goes on with a row where the first one is at the end of its own. -/
theorem TakesEach.append {x y : Reader (Option α)} {as bs : List α} (h : TakesEach x s as t)
    (hsome : ∀ s a u as, Takes x s (some a) u → TakesEach x u as t →
      Takes y (s ++ r) (some a) (u ++ r))
    (hnone : ∀ s, Takes x s none t → TakesEach y (s ++ r) bs u) :
    TakesEach y (s ++ r) (as ++ bs) u := by
  induction h with
  | stop hs => exact hnone _ hs
  | next hs hlt hrest ih =>
    exact .next (hsome _ _ _ _ hs hrest) (by simpa using hlt) (ih hsome hnone)

theorem TakesEach.carries {x y : Reader (Option α)} {as : List α} (h : TakesEach x s as t)
    (hsome : ∀ s a u as, Takes x s (some a) u → TakesEach x u as t →
      Takes y (s ++ r) (some a) (u ++ r))
    (hnone : ∀ s, Takes x s none t → Takes y (s ++ r) none (t ++ r)) :
    TakesEach y (s ++ r) as (t ++ r) :=
  List.append_nil as ▸ h.append hsome fun s hs => .stop (hnone s hs)

/-! ## Single steps -/

theorem isPrefixOf_append (h : ∀ c ∈ r.head?, c ∉ text) :
    text.isPrefixOf (s ++ r) = text.isPrefixOf s := by
  induction text generalizing s with
  | nil => rfl
  | cons c cs ih =>
    have hcs : ∀ c ∈ r.head?, c ∉ cs := fun d hd hmem => h d hd (List.mem_cons_of_mem c hmem)
    cases s with
    | cons d s =>
      rw [List.cons_append, List.isPrefixOf_cons_cons, List.isPrefixOf_cons_cons, ih hcs]
    | nil =>
      cases r with
      | nil => rfl
      | cons d r =>
        have hne : c ≠ d := fun heq => h d rfl (heq ▸ List.mem_cons_self)
        rw [List.nil_append, List.isPrefixOf_cons_cons, beq_false_of_ne hne, Bool.false_and]
        rfl

theorem carries_sees (h : ∀ c ∈ r.head?, c ∉ text) : Carries r (sees text) (sees text) s :=
  .of_takes (takes_sees text s) (isPrefixOf_append (s := s) h ▸ takes_sees text (s ++ r))

theorem carries_accepts (h : ∀ c ∈ r.head?, c ∉ text) :
    Carries r (accepts text) (accepts text) s := by
  cases hprefix : text.isPrefixOf s with
  | true =>
    obtain ⟨rest, rfl⟩ := List.isPrefixOf_iff_prefix.1 hprefix
    exact .of_takes (takes_accepts text rest)
      (List.append_assoc text rest r ▸ takes_accepts text (rest ++ r))
  | false =>
    exact .of_takes (takes_accepts_not hprefix)
      (takes_accepts_not ((isPrefixOf_append h).trans hprefix))

theorem Carries.test (h : ∀ c ∈ r.head?, c ∉ text) (hx : ∀ t, Carries r x x' t)
    (hy : Carries r y y' s) :
    Carries r (accepts text >>= fun b => if b = true then x else y)
      (accepts text >>= fun b => if b = true then x' else y') s := by
  cases hprefix : text.isPrefixOf s with
  | true =>
    obtain ⟨rest, rfl⟩ := List.isPrefixOf_iff_prefix.1 hprefix
    refine (carries_accepts h).bind fun b t hb => ?_
    obtain ⟨rfl, rfl⟩ := hb.det (takes_accepts text rest)
    exact hx t
  | false =>
    refine (carries_accepts h).bind fun b t hb => ?_
    obtain ⟨rfl, rfl⟩ := hb.det (takes_accepts_not hprefix)
    exact hy

theorem not_takes_require {fault : Fault} (h : text.isPrefixOf s = false) :
    ¬Takes (accepts text >>= fun b => if b = true then x else fail fault) s a t := by
  intro hall
  obtain ⟨b, u, hb, hrest⟩ := takes_bind.1 hall
  obtain ⟨rfl, rfl⟩ := hb.det (takes_accepts_not h)
  exact not_takes_throw hrest

/-- A text that has to come next is there already. -/
theorem Carries.require {fault : Fault} (hx : ∀ t, Carries r x x' t) :
    Carries r (accepts text >>= fun b => if b = true then x else fail fault)
      (accepts text >>= fun b => if b = true then x' else y') s := by
  intro a u h
  obtain ⟨b, t, hb, hrest⟩ := takes_bind.1 h
  cases hprefix : text.isPrefixOf s with
  | true =>
    obtain ⟨rest, rfl⟩ := List.isPrefixOf_iff_prefix.1 hprefix
    obtain ⟨rfl, rfl⟩ := hb.det (takes_accepts text rest)
    rw [List.append_assoc]
    exact (takes_accepts text (t ++ r)).bind (hx t a u hrest)
  | false => exact absurd h (not_takes_require hprefix)

theorem carries_next {f g : Option Char → Reader β} {stop : Stop} (hnone : f none = throw stop)
    (h : ∀ c t, s = c :: t → Carries r (f (some c)) (g (some c)) t) :
    Carries r (next >>= f) (next >>= g) s := by
  cases s with
  | nil =>
    show Carries r (f none) _ []
    rw [hnone]
    exact carries_throw stop
  | cons c s => exact h c s rfl

theorem carries_advance {n : Nat} (h : n ≤ s.length) : Carries r (advance n) (advance n) s := by
  rintro _ _ ⟨⟩
  show EStateM.Result.ok _ ((s ++ r).drop n) = _
  rw [List.drop_append_of_le_length h]

theorem takes_takeWhile_append {test : Char → Bool}
    (h : s.dropWhile test = [] → ∀ c ∈ r.head?, test c = false) :
    Takes (takeWhile test) (s ++ r) (s.takeWhile test) (s.dropWhile test ++ r) := by
  have hs : Takes (takeWhile test) (s.takeWhile test ++ (s.dropWhile test ++ r)) (s.takeWhile test)
      (s.dropWhile test ++ r) := by
    refine takes_takeWhile (fun c hc => List.mem_takeWhile_imp hc) fun c hc => ?_
    cases hdrop : s.dropWhile test with
    | nil => exact h hdrop c (by simpa [hdrop] using hc)
    | cons d ds =>
      obtain rfl : d = c := by simpa [hdrop] using hc
      have hhead := List.head?_dropWhile_not test s
      rw [hdrop] at hhead
      exact hhead
  rw [← List.append_assoc, List.takeWhile_append_dropWhile] at hs
  exact hs

theorem carries_takeWhile {test : Char → Bool} (h : ∀ c ∈ r.head?, test c = false) :
    Carries r (takeWhile test) (takeWhile test) s :=
  .of_takes rfl (takes_takeWhile_append fun _ => h)

theorem carriesInside_takeWhile (r : List Char) (test : Char → Bool) :
    CarriesInside r (takeWhile test) (takeWhile test) := by
  rintro s _ _ ⟨⟩ hne
  exact takes_takeWhile_append fun hnil => absurd hnil hne

/-! ## Symbol sets -/

theorem carries_hexByte : Carries r hexByte hexByte s := by
  refine carries_get_bind ?_
  match s with
  | [] => exact carries_fail _
  | [_] => exact carries_fail _
  | c :: d :: rest =>
    simp only [List.cons_append]
    split
    · exact carries_set_bind (carries_pure _)
    · exact carries_fail _

theorem carries_memberOf (c : Char) : Carries r (memberOf c) (memberOf c) s := by
  unfold memberOf
  split
  · exact carries_fail _
  · exact carries_pure _

theorem carries_escapedMember : Carries r escapedMember escapedMember s := by
  refine carries_next rfl fun c t _ => ?_
  simp only
  split
  · exact carries_pure _
  · exact carries_pure _
  · split
    · exact carries_hexByte.bind fun _ _ _ => carries_pure _
    split
    · exact carries_pure _
    split
    · exact carries_fail _
    · exact carries_memberOf c

theorem carries_member : Carries r member member s := by
  refine carries_next rfl fun c t _ => ?_
  simp only
  split
  · exact carries_escapedMember
  · exact carries_memberOf c

theorem carries_namedClass (hr : Closes r) (h : 2 ≤ s.length) :
    Carries r namedClass namedClass s := by
  refine (carries_advance h).bind fun _ t _ => ?_
  refine (carries_accepts (hr.forall_head (by simp) (by simp))).bind fun negated u _ => ?_
  refine (carriesInside_takeWhile r _).bind (fun _ _ _ => not_takes_require rfl) fun cs v => ?_
  refine .require fun w => ?_
  split
  · exact carries_pure _
  · exact carries_fail _

/-- Only a minus at the very end can turn into a range. -/
theorem carries_rangeFollows (hr : Closes r) (hs : s ≠ ['-']) :
    Carries r rangeFollows rangeFollows s := by
  match s, hs with
  | [], _ =>
    refine .of_takes (takes_pure false []) ?_
    match r, hr with
    | [], _ => exact takes_pure false _
    | [_], _ => exact takes_pure false _
    | c :: d :: rest, hr =>
      have hc : (c == '-' && d != ']') = false := by
        rcases hr c rfl with rfl | rfl <;> rfl
      exact hc ▸ takes_pure (c == '-' && d != ']') (c :: d :: rest)
  | [c], hs =>
    refine .of_takes (takes_pure false [c]) ?_
    cases r with
    | nil => exact takes_pure false _
    | cons d rest =>
      have hc : (c == '-' && d != ']') = false := by
        rw [beq_false_of_ne fun heq => hs (congrArg (fun c => [c]) heq), Bool.false_and]
      exact hc ▸ takes_pure (c == '-' && d != ']') (c :: d :: rest)
  | c :: d :: rest, _ => exact carries_pure (c == '-' && d != ']')

/-- What is read as a member, a range or a class is so with more behind it, too, unless a minus is
left that would become part of it. -/
theorem takes_memberRanges_append {rs : List Interval} (hr : Closes r)
    (h : Takes memberRanges s rs t) (ht : t ≠ ['-']) :
    Takes memberRanges (s ++ r) rs (t ++ r) := by
  obtain ⟨b, _, hb, hrest⟩ := takes_bind.1 h
  obtain ⟨rfl, rfl⟩ := hb.det (takes_sees ['[', ':'] s)
  refine (carries_sees (hr.forall_head (by simp) (by simp)) _ _ hb).bind ?_
  split at hrest
  · next hprefix =>
    have hlength := (List.isPrefixOf_iff_prefix.1 hprefix).length_le
    rw [if_pos hprefix]
    exact carries_namedClass hr hlength _ _ hrest
  · next hprefix =>
    rw [if_neg hprefix]
    obtain ⟨m, u, hm, hrest⟩ := takes_bind.1 hrest
    refine (carries_member _ _ hm).bind ?_
    cases m with
    | set set => exact carries_pure _ _ _ hrest
    | byte lo =>
      have hu : u ≠ ['-'] := by
        rintro rfl
        cases hrest
        exact ht rfl
      refine (carries_rangeFollows hr hu).bind (fun b v hb => ?_) _ _ hrest
      obtain ⟨-, rfl, hlength⟩ := (reads_rangeFollows u).of_ok hb
      split
      · next hb =>
        have hlength := hlength hb
        refine (carries_advance (by omega)).bind fun _ w _ => carries_member.bind fun m' z _ => ?_
        cases m' with
        | set => exact carries_fail _
        | byte hi =>
          simp only
          split
          · exact carries_fail _
          · exact carries_pure _
      · exact carries_pure _

theorem carries_needsBracket : Carries r needsBracket needsBracket s := by
  cases s with
  | nil => exact carries_fail _
  | cons c s => exact carries_pure _

theorem takes_memberRanges?_append {o : Option (List Interval)} (hr : Closes r)
    (h : Takes memberRanges? s o t) (ht : o ≠ none → t ≠ ['-']) :
    Takes memberRanges? (s ++ r) o (t ++ r) := by
  obtain ⟨_, u, hu, hrest⟩ := takes_bind.1 h
  refine (carries_needsBracket _ _ hu).bind ?_
  obtain ⟨b, v, hb, hrest⟩ := takes_bind.1 hrest
  refine (carries_accepts (hr.forall_head (by simp) (by simp)) _ _ hb).bind ?_
  cases b with
  | true => exact carries_pure _ _ _ hrest
  | false =>
    obtain ⟨rs, w, hrs, hrest⟩ := takes_bind.1 hrest
    cases hrest
    exact (takes_memberRanges_append hr hrs (ht (by simp))).map

theorem takesEach_memberRanges?_of_many {rows : List (List Interval)}
    (h : Takes (many memberRanges?) s rows t) : TakesEach memberRanges? s rows t :=
  takesEach_of_many (fun s _ _ hs => ((consumes_memberRanges? s).of_ok hs).2) h

/-- A symbol set does not end with its last member. -/
theorem not_takesEach_minus {rows : List (List Interval)} :
    ¬TakesEach memberRanges? ['-'] rows t := by
  rintro (hnone | ⟨hsome, -, hnil⟩)
  · cases hnone
  · cases hsome
    cases hnil with
    | stop hnone => cases hnone
    | next hsome => cases hsome

theorem carries_members (hr : Closes r) :
    Carries r (many memberRanges?) (many memberRanges?) s := by
  intro rows t h
  refine takes_many ((takesEach_memberRanges?_of_many h).carries (fun s a u as hs hrest => ?_)
    fun s hs => takes_memberRanges?_append hr hs (by simp))
  exact takes_memberRanges?_append hr hs fun _ hu => not_takesEach_minus (hu ▸ hrest)

theorem carries_symbolSet (hr : Closes r) : Carries r symbolSet symbolSet s := by
  refine .test (hr.forall_head (by simp) (by simp)) (fun t => ?_) (carries_pure _)
  refine (carries_accepts (hr.forall_head (by simp) (by simp))).bind fun negated u _ => ?_
  refine carries_needsBracket.bind fun _ v _ => ?_
  intro o w h
  obtain ⟨first, z, hfirst, h⟩ := takes_bind.1 h
  obtain ⟨others, w, hothers, ⟨⟩⟩ := takes_bind.1 h
  have hz : z ≠ ['-'] := by
    rintro rfl
    exact not_takesEach_minus (takesEach_memberRanges?_of_many hothers)
  refine (takes_memberRanges_append hr hfirst hz).bind ?_
  exact (carries_members hr _ _ hothers).bind (takes_pure _ _)

/-! ## Repetitions -/

theorem carries_number (hr : Closes r) : Carries r number number s := by
  refine (carries_takeWhile (hr.forall_head (by decide) (by decide))).bind fun digits t _ => ?_
  split
  · exact carries_pure _
  split
  · exact carries_throw _
  · split
    · exact carries_fail _
    · exact carries_pure _

theorem carries_counts (hr : Closes r) : Carries r counts counts s := by
  refine .test (hr.forall_head (by simp) (by simp)) (fun t => ?_) ?_
  · refine (carries_number hr).bind fun max u _ => ?_
    cases max with
    | none => exact carries_fail _
    | some max => exact carries_pure _
  · refine (carries_number hr).bind fun min u _ => ?_
    cases min with
    | none => exact carries_fail _
    | some min =>
      refine .test (hr.forall_head (by simp) (by simp)) (fun t => ?_) (carries_pure _)
      refine (carries_number hr).bind fun max u _ => ?_
      cases max with
      | none => exact carries_pure _
      | some max =>
        simp only
        split
        · exact carries_fail _
        · exact carries_pure _

theorem carries_bounds (hr : Closes r) : Carries r bounds bounds s := by
  refine .test (hr.forall_head (by simp) (by simp)) (fun _ => carries_pure _) ?_
  refine .test (hr.forall_head (by simp) (by simp)) (fun _ => carries_pure _) ?_
  refine .test (hr.forall_head (by simp) (by simp)) (fun _ => carries_pure _) ?_
  refine .test (hr.forall_head (by simp) (by simp)) (fun _ => ?_) (carries_pure _)
  exact (carries_counts hr).bind fun _ _ _ => .require fun _ => carries_pure _

theorem carries_suffix (hr : Closes r) (onLook : Bool) :
    Carries r (suffix onLook) (suffix onLook) s := by
  refine (carries_bounds hr).bind fun o t _ => ?_
  cases o with
  | none => exact carries_pure _
  | some b =>
    obtain ⟨min, max⟩ := b
    simp only
    split
    · exact carries_fail _
    · refine (carries_accepts (hr.forall_head (by simp) (by simp))).bind fun _ _ _ => ?_
      exact carries_pure _

theorem carries_suffixes (hr : Closes r) (onLook : Bool) :
    Carries r (many (suffix onLook)) (many (suffix onLook)) s := by
  intro xs t h
  have heach := takesEach_of_many
    (fun s _ _ hs => ((advances_suffix onLook s).of_ok hs).2 (by simp)) h
  exact takes_many (heach.carries (fun _ _ _ _ hs _ => carries_suffix hr onLook _ _ hs)
    fun _ hs => carries_suffix hr onLook _ _ hs)

/-! ## Atoms -/

theorem carries_escape (c : Char) : Carries r escape escape (c :: s) := by
  refine (carries_advance (by simp)).bind fun _ t _ => carries_next rfl fun d u _ => ?_
  simp only
  split
  · exact carries_pure _
  · exact carries_pure _
  · split
    · exact carries_hexByte.bind fun _ _ _ => carries_pure _
    split
    · exact carries_fail _
    · exact carries_pure _

theorem carries_symbol (hr : Closes r) : Carries r symbol symbol s := by
  refine .test (hr.forall_head (by simp) (by simp)) (fun _ => carries_pure _) ?_
  cases s with
  | nil => exact carries_fail _
  | cons c s =>
    refine Carries.bind (.of_takes (takes_peek _) (takes_peek _)) fun o t ho => ?_
    obtain ⟨rfl, rfl⟩ := ho.det (takes_peek _)
    simp only [List.head?_cons]
    split
    · exact carries_escape c
    split
    · exact carries_fail _
    · exact (carries_advance (by simp)).bind fun _ _ _ => carries_pure _

theorem carries_look (hr : Closes r) : Carries r look look s := by
  refine .test (hr.forall_head (by simp) (by simp)) (fun _ => carries_pure _) ?_
  refine .test (hr.forall_head (by simp) (by simp)) (fun _ => carries_pure _) ?_
  refine carries_get_bind ?_
  match s with
  | c :: d :: rest =>
    simp only [List.cons_append]
    split
    · split
      · exact carries_set_bind (carries_pure _)
      · exact carries_pure _
    · exact carries_pure _
  | [c] =>
    -- a backslash at the end comes before a character that makes no assertion with it
    refine .of_takes (takes_pure none [c]) ?_
    cases r with
    | nil => exact takes_pure none _
    | cons d r =>
      have hd : Escape.lookOf? d = none := hr.forall_head (P := fun d => Escape.lookOf? d = none)
        rfl rfl d rfl
      simp only [List.cons_append, List.nil_append, hd]
      split
      · exact takes_pure none _
      · exact takes_pure none _
  | [] =>
    refine .of_takes (takes_pure none []) ?_
    match r, hr with
    | [], _ => exact takes_pure none _
    | [_], _ => exact takes_pure none _
    | c :: d :: r, hr =>
      have hc : c ≠ '\\' := hr.forall_head (P := (· ≠ '\\')) (by decide) (by decide) c rfl
      simp only [List.nil_append, if_neg hc]
      exact takes_pure none _

theorem carries_groupName (r : List Char) : Carries r groupName groupName s := by
  refine (carriesInside_takeWhile r _).bind (fun cs b u h => ?_) fun cs t => ?_
  · simp only at h
    split at h
    · exact not_takes_require rfl h
    · exact not_takes_throw h
  · simp only
    split
    · exact .require fun _ => carries_pure _
    · exact carries_fail _

theorem carries_groupKind (hr : Closes r) : Carries r groupKind groupKind s := by
  have hnamed (t : List Char) : Carries r (groupName >>= fun name => pure (true, some name))
      (groupName >>= fun name => pure (true, some name)) t :=
    (carries_groupName r).bind fun _ _ _ => carries_pure _
  refine .test (hr.forall_head (by simp) (by simp)) (fun t => ?_) (carries_pure _)
  refine .test (hr.forall_head (by simp) (by simp)) (fun _ => carries_pure _) ?_
  refine (carries_sees (hr.forall_head (by simp) (by simp))).bind fun ahead u _ => ?_
  refine (carries_sees (hr.forall_head (by simp) (by simp))).bind fun notAhead v _ => ?_
  refine (carries_sees (hr.forall_head (by simp) (by simp))).bind fun behind w _ => ?_
  refine (carries_sees (hr.forall_head (by simp) (by simp))).bind fun notBehind z _ => ?_
  split
  · exact carries_throw _
  · refine .test (hr.forall_head (by simp) (by simp)) hnamed ?_
    exact .test (hr.forall_head (by simp) (by simp)) hnamed (carries_fail _)

variable {expr expr' : Reader Tree} {tree : Tree}

theorem carries_group (hr : Closes r) (hexpr : CarriesInside r expr expr') :
    Carries r (group expr) (group expr') s := by
  refine .test (hr.forall_head (by simp) (by simp)) (fun t => ?_) (carries_pure _)
  refine (carries_groupKind hr).bind fun kind u _ => ?_
  exact hexpr.bind (fun _ _ _ => not_takes_require rfl) fun _ _ => .require fun _ => carries_pure _

theorem carries_atom (hr : Closes r) (hexpr : CarriesInside r expr expr') :
    Carries r (atom expr) (atom expr') s := by
  cases s with
  | nil =>
    refine .of_takes (takes_pure none []) ((takes_peek r).bind ?_)
    cases r with
    | nil => exact takes_pure none []
    | cons c r =>
      simp only [List.head?_cons, if_pos (hr c rfl)]
      exact takes_pure none _
  | cons c s =>
    refine Carries.bind (.of_takes (takes_peek _) (takes_peek _)) fun o t ho => ?_
    obtain ⟨rfl, rfl⟩ := ho.det (takes_peek _)
    simp only [List.head?_cons]
    split
    · exact carries_pure _
    split
    · exact carries_fail _
    refine (carries_group hr hexpr).bind fun o t _ => ?_
    cases o with
    | some t => exact carries_pure _
    | none =>
      refine (carries_symbolSet hr).bind fun o t _ => ?_
      cases o with
      | some set => exact carries_pure _
      | none =>
        refine (carries_look hr).bind fun o t _ => ?_
        cases o with
        | some kind => exact carries_pure _
        | none => exact (carries_symbol hr).bind fun _ _ _ => carries_pure _

/-! ## Expressions -/

theorem carries_item (hr : Closes r) (hexpr : CarriesInside r expr expr') :
    Carries r (item expr) (item expr') s := by
  refine (carries_atom hr hexpr).bind fun o t _ => ?_
  cases o with
  | none => exact carries_pure _
  | some t => exact (carries_suffixes hr _).bind fun _ _ _ => carries_pure _

theorem carries_branch (hr : Closes r) (h : Forward expr) (hexpr : CarriesInside r expr expr') :
    Carries r (branch expr) (branch expr') s := by
  refine Carries.bind (Carries.bind (fun ts t hts => ?_) fun ts t _ => ?_)
    fun _ _ _ => carries_pure _
  · have heach := takesEach_of_many (fun s _ _ hs => ((advances_item h s).of_ok hs).2 (by simp)) hts
    exact takes_many (heach.carries (fun _ _ _ _ hs _ => carries_item hr hexpr _ _ hs)
      fun _ hs => carries_item hr hexpr _ _ hs)
  · split
    · exact carries_pure _
    · exact carries_pure _
    · exact carries_pure _

theorem takes_nextBranch_some_iff :
    Takes (nextBranch expr) s (some tree) t ↔ ∃ u, s = '|' :: u ∧ Takes (branch expr) u tree t := by
  constructor
  · intro h
    obtain ⟨b, u, hb, hrest⟩ := takes_bind.1 h
    cases hprefix : ['|'].isPrefixOf s with
    | true =>
      obtain ⟨v, rfl⟩ := List.isPrefixOf_iff_prefix.1 hprefix
      obtain ⟨rfl, rfl⟩ := hb.det (takes_accepts ['|'] v)
      obtain ⟨tree', w, hbranch, hsome⟩ := takes_bind.1 hrest
      cases hsome
      exact ⟨_, rfl, hbranch⟩
    | false =>
      obtain ⟨rfl, rfl⟩ := hb.det (takes_accepts_not hprefix)
      cases hrest
  · rintro ⟨u, rfl, hbranch⟩
    exact (takes_accepts ['|'] u).bind hbranch.map

theorem takes_nextBranch_none_iff :
    Takes (nextBranch expr) s none t ↔ t = s ∧ '|' ∉ s.head? := by
  constructor
  · intro h
    obtain ⟨b, v, hb, hrest⟩ := takes_bind.1 h
    by_cases hbar : '|' ∈ s.head?
    · obtain ⟨u, rfl⟩ := List.head?_eq_some_iff.1 hbar
      obtain ⟨rfl, rfl⟩ := hb.det (takes_accepts ['|'] u)
      obtain ⟨tree', w, -, hsome⟩ := takes_bind.1 hrest
      cases hsome
    · obtain ⟨rfl, rfl⟩ := hb.det (takes_accepts_not_char hbar)
      cases hrest
      exact ⟨rfl, hbar⟩
  · rintro ⟨rfl, hbar⟩
    exact (takes_accepts_not_char hbar).bind (takes_pure none t)

theorem takes_nextBranch_append (hr : Closes r) (h : Forward expr)
    (hexpr : CarriesInside r expr expr') (htree : Takes (nextBranch expr) s (some tree) t) :
    Takes (nextBranch expr') (s ++ r) (some tree) (t ++ r) := by
  obtain ⟨u, rfl, hbranch⟩ := takes_nextBranch_some_iff.1 htree
  exact takes_nextBranch_some_iff.2 ⟨u ++ r, rfl, carries_branch hr h hexpr _ _ hbranch⟩

theorem takes_alternatives_iff (h : Forward expr) :
    Takes (alternatives expr) s tree t ↔ ∃ first u others, Takes (branch expr) s first u ∧
      TakesEach (nextBranch expr) u others t ∧ tree = .ofAlternatives (first :: others) := by
  have hlt (s : List Char) (a : Tree) (t : List Char) (hs : Takes (nextBranch expr) s (some a) t) :
      t.length < s.length := ((advances_nextBranch h s).of_ok hs).2 (by simp)
  have hlast (first : Tree) (others : List Tree) (t : List Char) :
      Takes (match (first :: others).eraseDups with
        | [t] => pure t
        | ts => pure (.alt ts)) t (.ofAlternatives (first :: others)) t := by
    unfold Tree.ofAlternatives
    split <;> rfl
  constructor
  · intro htree
    obtain ⟨first, u, hfirst, hrest⟩ := takes_bind.1 htree
    obtain ⟨others, v, hothers, hrest⟩ := takes_bind.1 hrest
    obtain ⟨rfl, rfl⟩ := hrest.det (hlast first others v)
    exact ⟨first, u, others, hfirst, takesEach_of_many hlt hothers, rfl⟩
  · rintro ⟨first, u, others, hfirst, hothers, rfl⟩
    exact hfirst.bind ((takes_many hothers).bind (hlast first others t))

theorem takes_alternatives_append (hr : Closes r) (h : Forward expr) (h' : Forward expr')
    (hexpr : CarriesInside r expr expr') (htree : Takes (alternatives expr) s tree t)
    (ht : t = [] → '|' ∉ r.head?) : Takes (alternatives expr') (s ++ r) tree (t ++ r) := by
  obtain ⟨first, u, others, hfirst, hothers, rfl⟩ := (takes_alternatives_iff h).1 htree
  refine (takes_alternatives_iff h').2
    ⟨first, u ++ r, others, carries_branch hr h hexpr _ _ hfirst, hothers.carries ?_ ?_, rfl⟩
  · exact fun _ _ _ _ hs _ => takes_nextBranch_append hr h hexpr hs
  · intro s hs
    obtain ⟨rfl, hbar⟩ := takes_nextBranch_none_iff.1 hs
    refine takes_nextBranch_none_iff.2 ⟨rfl, ?_⟩
    cases t with
    | nil => exact ht rfl
    | cons c t => exact hbar

/-- An expression that is followed by a bar or a closing parenthesis is read as if the text ended
there, if it does not end with all of the text in front of a bar. It may be read in greater depth,
too. -/
theorem takes_exprUpTo_append {n m : Nat} (hr : Closes r) (hnm : n ≤ m)
    (htree : Takes (exprUpTo n) s tree t) (ht : t = [] → '|' ∉ r.head?) :
    Takes (exprUpTo m) (s ++ r) tree (t ++ r) := by
  induction n generalizing m s tree t with
  | zero => exact absurd htree not_takes_throw
  | succ n ih =>
    obtain ⟨m, rfl⟩ : ∃ k, m = k + 1 := ⟨m - 1, by omega⟩
    refine takes_alternatives_append hr (forward_exprUpTo n) (forward_exprUpTo m)
      (fun s a t ha hne => ?_) htree ht
    exact ih (by omega) ha fun hnil => absurd hnil hne

end Reader

end Munch
