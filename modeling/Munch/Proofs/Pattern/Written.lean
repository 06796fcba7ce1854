/-
What is written for a tree in normal form is read as that tree (`Tree.parse_written`). Each level of
the syntax is read up to what its parent goes on with: an item up to a character that starts no
suffix, a branch up to a bar or a closing parenthesis, an expression up to a closing parenthesis. The
reader of expressions in groups is a parameter here as it is in the parser, so that the proof is by
induction on the depth of nesting.
-/
import Munch.Proofs.Pattern.Spelled

namespace Munch

open Text

variable {t : Tree}

namespace Tree

/-! ## The shape of written items -/

/-- A tree with suffixes around it, the first of them innermost. -/
def suffixed (t : Tree) (xs : List Reader.Suffix) : Tree :=
  xs.foldl (fun t x => .repeated t x.min (x.max.map Int.ofNat) x.greedy) t

theorem exists_suffix {min : Int} {max : Option Int} (h : AreBounds min max) (greedy : Bool) :
    ∃ x : Reader.Suffix, x.IsBounded ∧ min = x.min ∧ max = x.max.map Int.ofNat ∧
      greedy = x.greedy := by
  obtain ⟨hnonneg, hmin, hmax⟩ := h
  obtain ⟨n, rfl⟩ := Int.eq_ofNat_of_zero_le hnonneg
  have hn : n ≤ Reader.maxRepeat := Int.ofNat_le.1 hmin
  cases max with
  | none => exact ⟨⟨n, none, greedy⟩, ⟨hn, by simp⟩, rfl, rfl, rfl⟩
  | some max =>
    obtain ⟨hle, hbound⟩ := hmax max rfl
    obtain ⟨m, rfl⟩ := Int.eq_ofNat_of_zero_le (Int.le_trans hnonneg hle)
    refine ⟨⟨n, some m, greedy⟩, ⟨hn, ?_⟩, rfl, rfl, rfl⟩
    rintro _ ⟨⟩
    exact ⟨Int.ofNat_le.1 hle, Int.ofNat_le.1 hbound⟩

/-- An item is an atom with suffixes; an assertion has none. -/
theorem IsNormal.exists_atom (h : IsNormal .item t) :
    ∃ a xs, IsNormal .atom a ∧ (∀ x ∈ xs, x.IsBounded) ∧ (xs ≠ [] → a.isLook = false) ∧
      t = suffixed a xs ∧ written t = written a ++ xs.flatMap Reader.Suffix.written := by
  generalize hlevel : Level.item = level at h
  induction h with
  | @repeated _ _ _ greedy _ hlook hbounds ih =>
    obtain ⟨a, xs, ha, hxs, hnone, rfl, hwritten⟩ := ih rfl
    obtain ⟨x, hx, rfl, rfl, rfl⟩ := exists_suffix hbounds greedy
    refine ⟨a, xs ++ [x], ha, ?_, fun _ => ?_, ?_, ?_⟩
    · intro y hy
      rcases List.mem_append.1 hy with hy | hy
      · exact hxs y hy
      · exact List.mem_singleton.1 hy ▸ hx
    · cases xs with
      | nil => exact hlook
      | cons y ys => exact hnone (List.cons_ne_nil y ys)
    · simp only [suffixed, List.foldl_append, List.foldl_cons, List.foldl_nil]
    · rw [written, hwritten, List.append_assoc, List.flatMap_append]
      simp [Reader.Suffix.written]
  | @atom a ha _ =>
    exact ⟨a, [], ha, by simp, by simp, rfl, by simp⟩
  | _ => cases hlevel

theorem writtenAlt_cons (t : Tree) (ts : List Tree) :
    writtenAlt (t :: ts) = written t ++ ts.flatMap fun t => '|' :: written t := by
  induction ts generalizing t with
  | nil => simp [writtenAlt]
  | cons u us ih => rw [writtenAlt, ih u, List.flatMap_cons, List.cons_append]; simp

theorem IsNormal.written_eq_cons (h : IsNormal .item t) :
    ∃ c cs, written t = c :: cs ∧ Reader.startsSuffix c = false ∧ c ≠ '|' ∧ c ≠ ')' := by
  obtain ⟨a, xs, ha, -, -, -, hwritten⟩ := h.exists_atom
  rw [hwritten]
  cases ha with
  | @symbol set _ =>
    obtain ⟨ranges, accept⟩ := set
    cases ranges <;> exact ⟨'[', _, rfl, by decide, by decide, by decide⟩
  | @look kind => cases kind <;> exact ⟨_, _, rfl, by decide, by decide, by decide⟩
  | plainGroup | capture | named => exact ⟨'(', _, rfl, by decide, by decide, by decide⟩

/-- What is written for an expression is nothing that could go on with what stands before it. -/
theorem IsNormal.head_written (h : IsNormal .expr t) :
    ∀ c ∈ (written t).head?, Reader.startsSuffix c = false := by
  have hitem : ∀ {t s}, IsNormal .item t → ∀ c ∈ (written t ++ s).head?,
      Reader.startsSuffix c = false := by
    intro t s ht c hc
    obtain ⟨d, ds, heq, hd, -⟩ := ht.written_eq_cons
    rw [heq] at hc
    obtain rfl : d = c := Option.some.inj hc
    exact hd
  have hbranch : ∀ {t s}, IsNormal .branch t → (∀ c ∈ s.head?, Reader.startsSuffix c = false) →
      ∀ c ∈ (written t ++ s).head?, Reader.startsSuffix c = false := by
    intro t s ht hs
    cases ht with
    | epsilon => exact hs
    | @concat items hlength hitems =>
      obtain ⟨u, us, rfl⟩ := List.exists_cons_of_length_pos (Nat.lt_of_lt_of_le (by decide) hlength)
      rw [written, writtenSeq, List.append_assoc]
      exact hitem (hitems u (by simp))
    | item ht => exact hitem ht
  cases h with
  | @alt items hlength _ hitems =>
    obtain ⟨u, us, rfl⟩ := List.exists_cons_of_length_pos (Nat.lt_of_lt_of_le (by decide) hlength)
    rw [written, writtenAlt_cons]
    refine hbranch (hitems u (by simp)) ?_
    cases us with
    | nil => simp
    | cons v vs =>
      rintro _ ⟨⟩
      decide
  | single ht => simpa using hbranch (s := []) ht (by simp)

end Tree

namespace Reader

open Munch.Tree

variable {rest : List Char} {ts : List Tree} {expr : Reader Tree} {n : Nat}

/-- The reader reads back the expressions that are written in fewer characters than the bound, up to
a closing parenthesis. -/
def Inverts (expr : Reader Tree) (n : Nat) : Prop :=
  ∀ t rest, IsNormal .expr t → (written t).length < n → (∀ c ∈ rest.head?, c = ')') →
    Takes expr (written t ++ rest) t rest

/-! ## Atoms -/

theorem takes_atom_look (kind : Look) :
    Takes (atom expr) (kind.text.toList ++ rest) (some (.look kind)) rest := by
  cases kind <;> rfl

/-- A set in square brackets is an atom. -/
theorem takes_atom_of_symbolSet {set : ByteSet} {s : List Char}
    (h : Takes symbolSet ('[' :: s) (some set) rest) :
    Takes (atom expr) ('[' :: s) (some (.symbol set)) rest := by
  refine (takes_peek _).bind ?_
  refine Takes.bind (a := none) (t := '[' :: s) rfl ?_
  exact h.bind (takes_pure _ rest)

theorem takes_atom_symbol {set : ByteSet} (h : IsCanonical set) :
    Takes (atom expr) (writtenSet set.ranges ++ rest) (some (.symbol set)) rest := by
  have hset := takes_symbolSet (s := rest) h
  obtain ⟨cs, hcs⟩ : ∃ cs, writtenSet set.ranges ++ rest = '[' :: cs := by
    obtain ⟨ranges, accept⟩ := set
    cases ranges <;> exact ⟨_, rfl⟩
  rw [hcs] at hset ⊢
  exact takes_atom_of_symbolSet hset

theorem ne_of_isIdentifier {name : String} (h : isIdentifier name = true) :
    ∀ c ∈ name.toList, c ≠ '>' := by
  have hstart : isIdentifierStart '>' = false := by decide +kernel
  have hpart : isIdentifierPart '>' = false := by decide +kernel
  rintro c hc rfl
  rw [isIdentifier] at h
  cases hname : name.toList with
  | nil => simp [hname] at hc
  | cons d ds =>
    simp only [hname, Bool.and_eq_true, List.all_eq_true] at h
    rcases List.mem_cons.1 (hname ▸ hc) with rfl | hmem
    · simp [hstart] at h
    · simpa [hpart] using h.2 _ hmem

theorem takes_groupName {name : String} (h : isIdentifier name = true) :
    Takes groupName (name.toList ++ '>' :: rest) name rest := by
  refine (takes_takeWhile (fun c hc => bne_iff_ne.2 (ne_of_isIdentifier h c hc)) (by simp)).bind ?_
  rw [String.ofList_toList, if_pos h]
  exact (takes_accepts ['>'] rest).bind (takes_pure name rest)

/-- What opens a group is read as what it says, if the body goes on with nothing that belongs to
it. -/
theorem takes_groupKind {capturing : Bool} {name : Option String}
    (hname : ∀ text ∈ name, capturing = true ∧ isIdentifier text = true)
    (hrest : capturing = true → '?' ∉ rest.head?) :
    ∃ s, writtenOpening capturing name ++ rest = '(' :: s ∧
      Takes groupKind s (capturing, name) rest := by
  cases capturing with
  | false =>
    obtain rfl : name = none := by
      cases name with
      | none => rfl
      | some name => exact Bool.noConfusion (hname name rfl).1
    refine ⟨['?'] ++ ([':'] ++ rest), rfl, ?_⟩
    exact (takes_accepts ['?'] _).bind ((takes_accepts [':'] rest).bind (takes_pure _ rest))
  | true =>
    cases name with
    | none => exact ⟨rest, rfl, (takes_accepts_not_char (hrest rfl)).bind (takes_pure _ rest)⟩
    | some name =>
      refine ⟨['?'] ++ (['P', '<'] ++ (name.toList ++ '>' :: rest)), by simp [writtenOpening], ?_⟩
      refine (takes_accepts ['?'] _).bind ((takes_accepts_not rfl).bind ?_)
      refine (takes_sees ['='] _).bind ((takes_sees ['!'] _).bind ?_)
      refine (takes_sees ['<', '='] _).bind ((takes_sees ['<', '!'] _).bind ?_)
      refine (takes_accepts ['P', '<'] _).bind ?_
      exact (takes_groupName (hname name rfl).2).map

theorem takes_atom_group {capturing : Bool} {name : Option String} {body : List Char}
    (hbody : Takes expr (body ++ ')' :: rest) t (')' :: rest))
    (hmark : capturing = true → '?' ∉ (body ++ ')' :: rest).head?)
    (hname : ∀ text ∈ name, capturing = true ∧ isIdentifier text = true) :
    Takes (atom expr) (writtenOpening capturing name ++ body ++ [')'] ++ rest)
      (some (.group t capturing name)) rest := by
  obtain ⟨s, hs, hkind⟩ := takes_groupKind hname hmark
  rw [List.append_assoc, List.append_assoc, List.singleton_append, hs]
  have hgroup : Takes (group expr) ('(' :: s) (some (.group t capturing name)) rest := by
    refine (takes_accepts ['('] s).bind (hkind.bind (hbody.bind ?_))
    exact (takes_accepts [')'] rest).bind (takes_pure _ rest)
  refine (takes_peek _).bind ?_
  exact hgroup.bind (takes_pure _ rest)

/-- A group whose body is written. -/
theorem takes_atom_written {capturing : Bool} {name : Option String} (hexpr : Inverts expr n)
    (ht : IsNormal .expr t) (hlength : (written t).length < n)
    (hname : ∀ text ∈ name, capturing = true ∧ isIdentifier text = true) :
    Takes (atom expr) (writtenOpening capturing name ++ written t ++ [')'] ++ rest)
      (some (.group t capturing name)) rest := by
  refine takes_atom_group (hexpr t (')' :: rest) ht hlength (by simp)) (fun _ => ?_) hname
  cases hwritten : written t with
  | nil => simp
  | cons c cs =>
    rintro ⟨⟩
    exact absurd (ht.head_written '?' (by simp [hwritten])) (by decide)

theorem takes_atom (hexpr : Inverts expr n) (h : IsNormal .atom t)
    (hlength : (written t).length ≤ n) : Takes (atom expr) (written t ++ rest) (some t) rest := by
  have hbody : ∀ {capturing name u}, (written (.group u capturing name)).length ≤ n →
      (written u).length < n := by
    intro capturing name u hu
    rw [written, List.length_append, List.length_append, List.length_singleton] at hu
    omega
  cases h with
  | symbol hset => exact takes_atom_symbol hset
  | look => exact takes_atom_look _
  | plainGroup ht => exact takes_atom_written hexpr ht (hbody hlength) (by simp)
  | capture ht => exact takes_atom_written hexpr ht (hbody hlength) (by simp)
  | named ht hname => exact takes_atom_written hexpr ht (hbody hlength) (by simpa using hname)

/-! ## Rows of items -/

/-- An atom and the suffixes behind it. -/
theorem takes_item_suffixed {s : List Char} {a : Tree} {xs : List Suffix}
    (hatom : Takes (atom expr) s (some a) (xs.flatMap Suffix.written ++ rest))
    (hxs : ∀ x ∈ xs, x.IsBounded) (hnone : xs ≠ [] → a.isLook = false)
    (hrest : ∀ c ∈ rest.head?, startsSuffix c = false) :
    Takes (item expr) s (some (suffixed a xs)) rest := by
  have hsuffixes : TakesEach (suffix a.isLook) (xs.flatMap Suffix.written ++ rest) xs rest := by
    cases xs with
    | nil => exact .stop (takes_suffix_none _ hrest)
    | cons x xs =>
      rw [hnone (List.cons_ne_nil x xs)]
      exact takesEach_suffix hxs hrest
  exact hatom.bind (takes_many hsuffixes).map

theorem takes_item (hexpr : Inverts expr n) (h : IsNormal .item t)
    (hlength : (written t).length ≤ n) (hrest : ∀ c ∈ rest.head?, startsSuffix c = false) :
    Takes (item expr) (written t ++ rest) (some t) rest := by
  obtain ⟨a, xs, ha, hxs, hnone, rfl, hwritten⟩ := h.exists_atom
  rw [hwritten, List.length_append] at hlength
  rw [hwritten, List.append_assoc]
  exact takes_item_suffixed (takes_atom hexpr ha (by omega)) hxs hnone hrest

theorem takes_item_none (hrest : ∀ c ∈ rest.head?, c = '|' ∨ c = ')') :
    Takes (item expr) rest none rest := by
  have hatom : Takes (atom expr) rest none rest := by
    cases rest with
    | nil => exact (takes_peek []).bind (takes_pure none _)
    | cons c rest =>
      refine (takes_peek _).bind ?_
      show Takes (if c = '|' ∨ c = ')' then _ else _) _ none _
      rw [if_pos (hrest c rfl)]
      exact takes_pure none _
  exact hatom.bind (takes_pure none rest)

theorem takesEach_item (hexpr : Inverts expr n) (h : ∀ t ∈ ts, IsNormal .item t)
    (hlength : (writtenSeq ts).length ≤ n) (hrest : ∀ c ∈ rest.head?, c = '|' ∨ c = ')') :
    TakesEach (item expr) (writtenSeq ts ++ rest) ts rest := by
  induction ts with
  | nil => exact .stop (takes_item_none hrest)
  | cons t ts ih =>
    have hnext : ∀ c ∈ (writtenSeq ts ++ rest).head?, startsSuffix c = false := by
      cases ts with
      | nil =>
        intro c hc
        rcases hrest c hc with rfl | rfl <;> decide
      | cons u us =>
        obtain ⟨d, ds, heq, hd, -⟩ := (h u (by simp)).written_eq_cons
        rw [writtenSeq, heq]
        rintro c ⟨⟩
        exact hd
    rw [writtenSeq, List.length_append] at hlength
    rw [writtenSeq, List.append_assoc]
    have hpos : 0 < (written t).length := by
      obtain ⟨c, cs, heq, -⟩ := (h t (by simp)).written_eq_cons
      rw [heq]
      exact Nat.succ_pos _
    refine .next (takes_item hexpr (h t (by simp)) (by omega) hnext) ?_
      (ih (fun u hu => h u (by simp [hu])) (by omega))
    simp only [List.length_append]
    omega

theorem takes_branch_item {s : List Char} (h : TakesEach (item expr) s [t] rest) :
    Takes (branch expr) s t rest :=
  Takes.map (a := some t) ((takes_many h).bind (takes_pure _ rest))

theorem takes_branch_concat {s : List Char} (hlong : 2 ≤ ts.length)
    (h : TakesEach (item expr) s ts rest) : Takes (branch expr) s (.concat ts) rest := by
  refine Takes.map (a := some (Tree.concat ts)) ((takes_many h).bind ?_)
  match ts, hlong with
  | t :: u :: us, _ => exact takes_pure _ rest

theorem takes_branch (hexpr : Inverts expr n) (h : IsNormal .branch t)
    (hlength : (written t).length ≤ n) (hrest : ∀ c ∈ rest.head?, c = '|' ∨ c = ')') :
    Takes (branch expr) (written t ++ rest) t rest := by
  cases h with
  | epsilon =>
    have hitems : TakesEach (item expr) rest [] rest := .stop (takes_item_none hrest)
    exact Takes.map (a := none) ((takes_many hitems).bind (takes_pure none rest))
  | concat hlong hitems =>
    exact takes_branch_concat hlong (takesEach_item hexpr hitems hlength hrest)
  | item ht =>
    have hseq : writtenSeq [t] = written t := by rw [writtenSeq, writtenSeq, List.append_nil]
    have hitems : TakesEach (item expr) (writtenSeq [t] ++ rest) [t] rest :=
      takesEach_item hexpr (by simpa using ht) (hseq ▸ hlength) hrest
    rw [hseq] at hitems
    exact takes_branch_item hitems

/-! ## Alternatives -/

theorem takes_nextBranch_none (hrest : ∀ c ∈ rest.head?, c = ')') :
    Takes (nextBranch expr) rest none rest := by
  refine (takes_accepts_not_char fun hc => ?_).bind (takes_pure none rest)
  exact absurd (hrest '|' hc) (by decide)

theorem takesEach_nextBranch (hexpr : Inverts expr n) (h : ∀ t ∈ ts, IsNormal .branch t)
    (hlength : (ts.flatMap fun t => '|' :: written t).length ≤ n)
    (hrest : ∀ c ∈ rest.head?, c = ')') :
    TakesEach (nextBranch expr) ((ts.flatMap fun t => '|' :: written t) ++ rest) ts rest := by
  induction ts with
  | nil => exact .stop (takes_nextBranch_none hrest)
  | cons t ts ih =>
    have hnext : ∀ c ∈ ((ts.flatMap fun t => '|' :: written t) ++ rest).head?,
        c = '|' ∨ c = ')' := by
      cases ts with
      | nil => exact fun c hc => .inr (hrest c hc)
      | cons u us =>
        rintro c ⟨⟩
        exact .inl rfl
    rw [List.flatMap_cons, List.length_append, List.length_cons] at hlength
    rw [List.flatMap_cons, List.append_assoc, List.cons_append]
    refine .next ((takes_accepts ['|'] _).bind
      (takes_branch hexpr (h t (by simp)) (by omega) hnext).map) ?_
      (ih (fun u hu => h u (by simp [hu])) (by omega))
    simp only [List.length_append, List.length_cons]
    omega

theorem takes_alternatives (hexpr : Inverts expr n) (h : IsNormal .expr t)
    (hlength : (written t).length ≤ n) (hrest : ∀ c ∈ rest.head?, c = ')') :
    Takes (alternatives expr) (written t ++ rest) t rest := by
  cases h with
  | @alt items hlong hnodup hitems =>
    match items, hlong with
    | t :: u :: us, _ =>
      rw [written, writtenAlt_cons, List.length_append] at hlength
      rw [written, writtenAlt_cons, List.append_assoc]
      refine (takes_branch hexpr (hitems t (by simp)) (by omega) ?_).bind ?_
      · rintro c ⟨⟩
        exact .inl rfl
      refine (takes_many (takesEach_nextBranch hexpr (fun v hv => hitems v (by simp [hv]))
        (by omega) hrest)).bind ?_
      rw [eraseDups_eq_self hnodup]
      exact takes_pure _ rest
  | single ht =>
    refine (takes_branch hexpr ht hlength fun c hc => .inr (hrest c hc)).bind ?_
    have hnone : TakesEach (nextBranch expr) rest [] rest :=
      .stop (takes_nextBranch_none hrest)
    exact (takes_many hnone).bind (takes_pure t rest)

/-- An expression nests no deeper than it is long. -/
theorem inverts_exprUpTo (n : Nat) : Inverts (exprUpTo n) n := by
  induction n with
  | zero => exact fun t rest _ hlt _ => absurd hlt (Nat.not_lt_zero _)
  | succ n ih => exact fun t rest ht hlt => takes_alternatives ih ht (Nat.le_of_lt_succ hlt)

end Reader

/-- Reading inverts writing on trees in normal form. -/
theorem Tree.parse_written (h : IsNormal .expr t) :
    parse (String.ofList (written t)) = .ok t := by
  have hexpr : Reader.Takes Reader.expr (written t) t [] := by
    have hread := Reader.inverts_exprUpTo ((written t).length + 1) t [] h (Nat.lt_succ_self _)
      (by simp)
    rw [List.append_nil] at hread
    exact Reader.takes_get_bind hread
  rw [parse, String.toList_ofList]
  exact Reader.Takes.of_run (hexpr.bind (Reader.takes_pure t []))

/-- An empty alternative, two suffixes on a named group, an assertion and a set without members. -/
theorem Tree.parse_written_stacked :
    parse "|(?P<x1>[\\x41-\\x43\\x61-\\x61]|\\b)\x7b2,3\x7d?\x7b0,\x7d\\A[^\\x00-\\xff]" =
      .ok (.alt [.epsilon, .concat [
        .repeated (.repeated (.group (.alt [.symbol ⟨[⟨0x41, 0x43⟩, ⟨0x61, 0x61⟩], true⟩,
          .look .wordBoundary]) true (some "x1")) 2 (some 3) false) 0 none true,
        .look .startText, .symbol ⟨[], true⟩]]) := by
  refine (congrArg parse ?_).trans (parse_written ?_)
  · decide +kernel
  refine .alt (by decide) (by decide +kernel) ?_
  simp only [List.forall_mem_cons]
  refine ⟨.epsilon, .concat (by decide) ?_, List.forall_mem_nil _⟩
  simp only [List.forall_mem_cons]
  refine ⟨?_, .atom .look, .atom (.symbol ⟨rfl, by simp, .nil⟩), List.forall_mem_nil _⟩
  refine .repeated (.repeated (.atom (.named ?_ (by decide +kernel))) rfl ?_) rfl ?_
  · refine .alt (by decide) (by decide +kernel) ?_
    simp only [List.forall_mem_cons]
    refine ⟨.item (.atom (.symbol ⟨rfl, by decide, by simp⟩)), .item (.atom .look),
      List.forall_mem_nil _⟩
  · exact ⟨by decide, by decide, by decide⟩
  · exact ⟨by decide, by decide, by simp⟩

end Munch
