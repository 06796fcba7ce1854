/-
The text of a tree is a pattern for the same language. `RowOf text L` says that the text, wherever it
stands among items, is read as items that denote the language, and `ExprOf text L` that it is read as
an expression up to a closing parenthesis. There is one rule for each way texts are put together, so
that a tree without captures and assertions whose sets are legible is read back from its text as a
tree for the same language (`Tree.parse_text`).
-/
import Munch.Proofs.Pattern.Depth
import Munch.Proofs.Pattern.Legible
import Munch.Proofs.Tree.Language

namespace Munch

open Text

variable {s : List Char}

namespace Reader

open Munch.Tree

/-! ## Suffixes -/

theorem takes_counts_single {n : Nat} (hn : n ≤ maxRepeat) :
    Takes counts ((toString (n : Int)).toList ++ '}' :: s) (n, some n) ('}' :: s) := by
  have hbrace : isDigit '}' = false := by decide
  refine (takes_accepts_comma n _).bind ?_
  refine (takes_number hn (by simpa using hbrace)).bind ?_
  exact (takes_accepts_not_char (by simp)).bind (takes_pure _ _)

/-- The short forms and the counts in braces give the bounds that they are the text of. -/
theorem takes_bounds_text {x : Suffix} (h : x.IsBounded) :
    Takes bounds ((suffixText x.min (x.max.map Int.ofNat) true).toList ++ s) (some (x.min, x.max))
      s := by
  obtain ⟨n, m, greedy⟩ := x
  obtain ⟨hn, hm⟩ := h
  cases m with
  | none =>
    have hcounts := takes_counts (s := s) hn (m := none) (by simp)
    simp only [suffixText, Option.map_none, if_pos]
    split
    · next hzero =>
      obtain rfl : n = 0 := by omega
      exact (takes_accepts_not rfl).bind ((takes_accepts ['*'] s).bind (takes_pure _ s))
    split
    · next hone =>
      obtain rfl : n = 1 := by omega
      refine (takes_accepts_not rfl).bind ((takes_accepts_not rfl).bind ?_)
      exact (takes_accepts ['+'] s).bind (takes_pure _ s)
    · simpa using takes_bounds_counts hcounts
  | some k =>
    have hcounts := takes_counts (s := s) hn (m := some k) hm
    simp only [suffixText, Option.map_some, if_pos]
    split
    · next hoption =>
      obtain ⟨rfl, rfl⟩ : n = 0 ∧ k = 1 := ⟨Int.ofNat.inj hoption.1, Int.ofNat.inj hoption.2⟩
      exact (takes_accepts ['?'] s).bind (takes_pure _ s)
    split
    · next heq =>
      obtain rfl : n = k := Int.ofNat.inj heq
      simpa using takes_bounds_counts (takes_counts_single (s := s) hn)
    · simpa using takes_bounds_counts hcounts

theorem toList_suffixText (min : Int) (max : Option Int) (greedy : Bool) :
    (suffixText min max greedy).toList =
      (suffixText min max true).toList ++ if greedy then [] else ['?'] := by
  cases greedy <;> simp [suffixText]

theorem takes_suffix_text {x : Suffix} (h : x.IsBounded) (hs : '?' ∉ s.head?) :
    Takes (suffix false)
      ((suffixText x.min (x.max.map Int.ofNat) x.greedy).toList ++ s) (some x) s := by
  rw [toList_suffixText, List.append_assoc]
  exact takes_suffix_bounds hs (takes_bounds_text h)

/-! ## Rows of items -/

/-- Wherever items may stand, the text is read as some that denote the language. -/
structure RowOf (text : List Char) (L : Language) : Prop where
  head : ∀ c ∈ text.head?, startsSuffix c = false
  items : ∃ us, DenotesSeq us = L ∧ ∀ rest vs t, (∀ c ∈ rest.head?, startsSuffix c = false) →
    TakesEach (item expr) rest vs t → TakesEach (item expr) (text ++ rest) (us ++ vs) t

theorem seq_denotesSeq (ts us : List Tree) :
    DenotesSeq (ts ++ us) = Language.seq (DenotesSeq ts) (DenotesSeq us) := by
  funext w
  apply propext
  induction ts generalizing w with
  | nil => exact (Language.nil_seq w).symm
  | cons t ts ih => exact (Language.seq_congr ih w).trans (Language.seq_assoc w).symm

namespace RowOf

variable {p q : List Char} {L M : Language}

theorem nil : RowOf [] fun w => w = [] :=
  ⟨by simp, [], rfl, fun _ _ _ _ h => h⟩

theorem head_append (hp : RowOf p L) (hs : ∀ c ∈ s.head?, startsSuffix c = false) :
    ∀ c ∈ (p ++ s).head?, startsSuffix c = false := by
  have hhead := hp.head
  cases p with
  | nil => exact hs
  | cons d p => exact hhead

theorem append (hp : RowOf p L) (hq : RowOf q M) : RowOf (p ++ q) (Language.seq L M) := by
  obtain ⟨us, rfl, hus⟩ := hp.items
  obtain ⟨vs, rfl, hvs⟩ := hq.items
  refine ⟨hp.head_append hq.head, us ++ vs, seq_denotesSeq us vs, fun rest xs t hrest h => ?_⟩
  rw [List.append_assoc, List.append_assoc]
  exact hus _ _ _ (hq.head_append hrest) (hvs _ _ _ hrest h)

theorem row {ps : List (List Char)} {Ls : List Language} (h : List.Forall₂ RowOf ps Ls) :
    RowOf ps.flatten (Language.row Ls) := by
  induction h with
  | nil => exact nil
  | cons hp _ ih => exact hp.append ih

/-- An atom with suffixes behind it. -/
theorem of_item (a : Tree) (xs : List Suffix) (suffixes : List Char) {c : Char}
    (hc : startsSuffix c = false)
    (hatom : ∀ s, Takes (atom expr) (c :: p ++ s) (some a) s)
    (hsuffixes : ∀ s, (∀ c ∈ s.head?, startsSuffix c = false) →
      TakesEach (suffix a.isLook) (suffixes ++ s) xs s) :
    RowOf (c :: p ++ suffixes) (Denotes (suffixed a xs)) := by
  refine ⟨?_, [suffixed a xs], ?_, fun rest vs t hrest h => ?_⟩
  · rintro d ⟨⟩
    exact hc
  · funext w
    exact propext (Language.seq_nil w)
  · have hitem : Takes (item expr) (c :: p ++ suffixes ++ rest) (some (suffixed a xs)) rest := by
      rw [List.append_assoc]
      exact (hatom _).bind (takes_many (hsuffixes rest hrest)).map
    refine .next hitem ?_ h
    simp only [List.length_append, List.length_cons]
    omega

end RowOf

/-! ## Alternatives -/

/-- Items in a row, as the tree of a branch. -/
def ofItems : List Tree → Tree
  | [] => .epsilon
  | [t] => t
  | ts => .concat ts

/-- Up to a closing parenthesis the text is read as an expression that denotes the language. -/
def ExprOf (text : List Char) (L : Language) : Prop :=
  ∃ u, Denotes u = L ∧ ∀ rest, (∀ c ∈ rest.head?, c = ')') → Takes expr (text ++ rest) u rest

theorem denotes_ofItems (us : List Tree) : Denotes (ofItems us) = DenotesSeq us := by
  unfold ofItems
  split
  · rfl
  · next t =>
    funext w
    exact propext (Language.seq_nil w).symm
  · rfl

theorem takes_branch_ofItems {expr : Reader Tree} {us : List Tree} {t : List Char}
    (h : TakesEach (item expr) s us t) : Takes (branch expr) s (ofItems us) t := by
  match us with
  | [] => exact Takes.map (a := none) ((takes_many h).bind (takes_pure none t))
  | [u] => exact takes_branch_item h
  | u :: v :: us => exact takes_branch_concat (by simp) h

theorem denotesAny_iff {ts : List Tree} {w : List UInt8} :
    DenotesAny ts w ↔ ∃ t ∈ ts, Denotes t w := by
  induction ts with
  | nil => simp [DenotesAny]
  | cons t ts ih => simp [DenotesAny, ih]

/-- Keeping each alternative once does not change the language. -/
theorem denotes_ofAlternatives (ts : List Tree) :
    Denotes (ofAlternatives ts) = DenotesAny ts := by
  have hsame : DenotesAny ts.eraseDups = DenotesAny ts := by
    funext w
    simp only [denotesAny_iff, List.mem_eraseDups]
  rw [← hsame, ofAlternatives]
  split
  · next t heq =>
    rw [heq]
    funext w
    simp [DenotesAny]
  · rfl

variable {p : List Char} {ps : List (List Char)} {L : Language} {Ls : List Language}

theorem RowOf.branch (h : RowOf p L) : ∃ u, Denotes u = L ∧
    ∀ rest, Closes rest → Takes (branch expr) (p ++ rest) u rest := by
  obtain ⟨us, rfl, hus⟩ := h.items
  refine ⟨ofItems us, denotes_ofItems us, fun rest hrest => takes_branch_ofItems ?_⟩
  rw [← List.append_nil us]
  exact hus _ _ _ (hrest.forall_head rfl rfl) (.stop (takes_item_none hrest))

theorem closes_others {rest : List Char} (hrest : ∀ c ∈ rest.head?, c = ')') :
    Closes (ps.flatMap ('|' :: ·) ++ rest) := by
  cases ps with
  | nil => exact fun c hc => .inr (hrest c hc)
  | cons p ps =>
    rintro c ⟨⟩
    exact .inl rfl

theorem exists_others (h : List.Forall₂ RowOf ps Ls) : ∃ us, DenotesAny us = Language.any Ls ∧
    ∀ rest, (∀ c ∈ rest.head?, c = ')') →
      TakesEach (nextBranch expr) (ps.flatMap ('|' :: ·) ++ rest) us rest := by
  induction h with
  | nil => exact ⟨[], rfl, fun rest hrest => .stop (takes_nextBranch_none hrest)⟩
  | @cons p L ps Ls hp _ ih =>
    obtain ⟨u, hu, hbranch⟩ := hp.branch
    obtain ⟨us, hus, hothers⟩ := ih
    refine ⟨u :: us, ?_, fun rest hrest => ?_⟩
    · rw [Language.any, ← hu, ← hus]
      rfl
    · rw [List.flatMap_cons, List.append_assoc, List.cons_append]
      refine .next (takes_nextBranch_some_iff.2 ⟨_, rfl, hbranch _ (closes_others hrest)⟩) ?_
        (hothers rest hrest)
      simp only [List.length_append, List.length_cons]
      omega

theorem takes_expr_iff {tree : Tree} {t : List Char} :
    Takes expr s tree t ↔ ∃ first u others, Takes (branch expr) s first u ∧
      TakesEach (nextBranch expr) u others t ∧ tree = ofAlternatives (first :: others) :=
  (show Takes expr s tree t ↔ Takes (alternatives expr) s tree t by rw [← expr_eq]).trans
    (takes_alternatives_iff forward_expr)

/-- Rows with bars between them are a choice between their languages. -/
theorem exprOf_choice (hp : RowOf p L) (h : List.Forall₂ RowOf ps Ls) :
    ExprOf (p ++ ps.flatMap ('|' :: ·)) (Language.any (L :: Ls)) := by
  obtain ⟨u, rfl, hbranch⟩ := hp.branch
  obtain ⟨us, hus, hothers⟩ := exists_others h
  refine ⟨ofAlternatives (u :: us), ?_, fun rest hrest => ?_⟩
  · rw [denotes_ofAlternatives, Language.any, ← hus]
    rfl
  · rw [List.append_assoc]
    exact takes_expr_iff.2 ⟨u, _, us, hbranch _ (closes_others hrest), hothers rest hrest, rfl⟩

theorem RowOf.expr (h : RowOf p L) : ExprOf p L := by
  have hchoice := exprOf_choice h .nil
  rw [List.flatMap_nil, List.append_nil] at hchoice
  have hany : Language.any [L] = L := by
    funext w
    simp [Language.any]
  exact hany ▸ hchoice

/-! ## Groups -/

theorem takes_atom_of_expr {u : Tree} (h : ∀ rest, (∀ c ∈ rest.head?, c = ')') →
    Takes Reader.expr (p ++ rest) u rest) (s : List Char) :
    Takes (atom Reader.expr) (bracketed p ++ s) (some (.group u false none)) s :=
  takes_atom_group (h (')' :: s) (by simp)) (by simp) (by simp)

/-- In parentheses that do not capture, an expression is an item. -/
theorem ExprOf.group (h : ExprOf p L) : RowOf (bracketed p) L := by
  obtain ⟨u, rfl, hu⟩ := h
  have hrow := RowOf.of_item (c := '(') (.group u false none) [] [] (by decide)
    (takes_atom_of_expr hu) fun s hs => .stop (takes_suffix_none _ hs)
  rw [List.append_nil] at hrow
  exact hrow

/-- With counts behind it, it is repeated so often. -/
theorem ExprOf.repeated {min : Int} {max : Option Int} (h : ExprOf p L)
    (hbounds : AreBounds min max) (greedy : Bool) :
    RowOf (bracketed p ++ (suffixText min max greedy).toList) fun w =>
      ∃ n : Nat, min ≤ n ∧ (∀ m ∈ max, (n : Int) ≤ m) ∧ Language.power L n w := by
  obtain ⟨u, rfl, hu⟩ := h
  obtain ⟨x, hx, rfl, rfl, rfl⟩ := exists_suffix hbounds greedy
  refine RowOf.of_item (c := '(') (.group u false none) [x] _ (by decide) (takes_atom_of_expr hu)
    fun s hs => ?_
  have hsuffix := takes_suffix_text hx fun hmark => Bool.noConfusion (hs '?' hmark)
  have hlt := ((advances_suffix false _).of_ok hsuffix).2 (by simp)
  exact .next hsuffix hlt (.stop (takes_suffix_none _ hs))

end Reader

/-! ## Trees -/

namespace Tree

open Reader

mutual

/-- The tree and all trees it is made of. -/
def subtrees : Tree → List Tree
  | .epsilon => [.epsilon]
  | .symbol set => [.symbol set]
  | .concat items => .concat items :: subtreesOf items
  | .alt items => .alt items :: subtreesOf items
  | .repeated body min max greedy => .repeated body min max greedy :: subtrees body
  | .group body capturing name => .group body capturing name :: subtrees body
  | .look kind => [.look kind]
  | .bare => [.bare]

def subtreesOf : List Tree → List Tree
  | [] => []
  | t :: ts => subtrees t ++ subtreesOf ts

end

/-- The tree is a group that captures. -/
def isCapture : Tree → Bool
  | .group _ capturing _ => capturing
  | _ => false

variable {t u : Tree} {ts : List Tree}

theorem mem_subtreesOf (ht : t ∈ ts) (hu : u ∈ t.subtrees) : u ∈ subtreesOf ts := by
  induction ts with
  | nil => cases ht
  | cons v vs ih =>
    rw [subtreesOf, List.mem_append]
    rcases List.mem_cons.1 ht with rfl | ht
    · exact .inl hu
    · exact .inr (ih ht)

/-- The tree has a text, which is a row of items for its language. -/
def HasRow (t : Tree) : Prop := ∃ text, t.text = .ok text ∧ RowOf text.toList (Denotes t)

theorem exists_texts (h : ∀ t ∈ ts, t.HasRow) : ∃ rows, texts ts = .ok rows ∧
    List.Forall₂ RowOf (rows.map String.toList) (ts.map Denotes) := by
  induction ts with
  | nil => exact ⟨[], rfl, .nil⟩
  | cons t ts ih =>
    obtain ⟨⟨text, htext, hrow⟩, hts⟩ := List.forall_mem_cons.1 h
    obtain ⟨rows, hrows, hall⟩ := ih hts
    exact ⟨text :: rows, by rw [texts, htext, hrows]; rfl, .cons hrow hall⟩

theorem hasRow_concat (h : ∀ t ∈ ts, t.HasRow) : (concat ts).HasRow := by
  obtain ⟨rows, hrows, hall⟩ := exists_texts h
  refine ⟨String.join rows, by rw [text, hrows]; rfl, ?_⟩
  rw [String.toList_join, List.flatMap_def, Denotes, denotesSeq_eq]
  exact .row hall

theorem hasRow_alt (hne : ts ≠ []) (h : ∀ t ∈ ts, t.HasRow) : (alt ts).HasRow := by
  obtain ⟨rows, hrows, hall⟩ := exists_texts h
  refine ⟨"(?:" ++ "|".intercalate rows ++ ")", by rw [text, hrows]; rfl, ?_⟩
  rw [Denotes, denotesAny_eq]
  obtain ⟨t, ts, rfl⟩ := List.exists_cons_of_ne_nil hne
  cases rows with
  | nil => cases hall
  | cons row rows =>
    obtain ⟨hfirst, hothers⟩ := List.forall₂_cons.1 hall
    have htext : ("(?:" ++ "|".intercalate (row :: rows) ++ ")").toList =
        bracketed (row.toList ++ (rows.map String.toList).flatMap ('|' :: ·)) := by
      simp [String.toList_intercalate, intercalate_cons_eq, bracketed, writtenOpening]
    rw [htext]
    exact (exprOf_choice hfirst hothers).group

/-- A tree that was read, without captures and assertions, has a text for its language if its sets
are legible. -/
theorem IsShaped.hasRow (h : t.IsShaped)
    (hplain : ∀ u ∈ t.subtrees, u.isCapture = false ∧ u.isLook = false)
    (hsets : ∀ set, .symbol set ∈ t.subtrees → set.IsLegible) : t.HasRow := by
  induction h with
  | epsilon => exact ⟨"(?:)", rfl, RowOf.nil.expr.group⟩
  | @symbol set hset =>
    refine ⟨set.text, rfl, ?_⟩
    have hlegible := hsets set List.mem_cons_self
    obtain ⟨c, cs, htext, hc⟩ := head_text hlegible hset.1
    have hatom (s : List Char) : Takes (atom expr) (set.text.toList ++ s) (some (.symbol set)) s :=
      takes_atom_text hset hlegible
    rw [htext] at hatom ⊢
    have hrow := RowOf.of_item (.symbol set) [] [] hc hatom fun s hs =>
      .stop (takes_suffix_none _ hs)
    rw [List.append_nil] at hrow
    exact hrow
  | @concat items _ _ _ ih =>
    refine hasRow_concat fun t ht => ih t ht (fun u hu => hplain u ?_) fun set hset => hsets set ?_
    · exact List.mem_cons_of_mem _ (mem_subtreesOf ht hu)
    · exact List.mem_cons_of_mem _ (mem_subtreesOf ht hset)
  | @alt items hlength _ _ _ ih =>
    refine hasRow_alt (List.ne_nil_of_length_pos (by omega)) fun t ht =>
      ih t ht (fun u hu => hplain u ?_) fun set hset => hsets set ?_
    · exact List.mem_cons_of_mem _ (mem_subtreesOf ht hu)
    · exact List.mem_cons_of_mem _ (mem_subtreesOf ht hset)
  | @repeated body min max greedy _ _ _ hbounds ih =>
    obtain ⟨body, htext, hrow⟩ := ih (fun u hu => hplain u (List.mem_cons_of_mem _ hu))
      fun set hset => hsets set (List.mem_cons_of_mem _ hset)
    refine ⟨"(?:" ++ body ++ ")" ++ suffixText min max greedy, by rw [text, htext]; rfl, ?_⟩
    have hrepeated := hrow.expr.repeated hbounds greedy
    rw [Denotes]
    simpa [bracketed, writtenOpening] using hrepeated
  | @group body capturing name _ _ ih =>
    obtain rfl : capturing = false := (hplain _ List.mem_cons_self).1
    obtain ⟨body, htext, hrow⟩ := ih (fun u hu => hplain u (List.mem_cons_of_mem _ hu))
      fun set hset => hsets set (List.mem_cons_of_mem _ hset)
    refine ⟨"(?:" ++ body ++ ")", by rw [text, htext]; rfl, ?_⟩
    have hgroup := hrow.expr.group
    rw [Denotes]
    simpa [bracketed, writtenOpening] using hgroup
  | look => cases (hplain _ List.mem_cons_self).2

/-- The text of a tree that was read, without captures and assertions, is a pattern for the same
language if the sets of the tree are legible. -/
theorem parse_text {p : String} (h : parse p = .ok t)
    (hplain : ∀ u ∈ t.subtrees, u.isCapture = false ∧ u.isLook = false)
    (hsets : ∀ set, .symbol set ∈ t.subtrees → set.IsLegible) :
    ∃ text u, t.text = .ok text ∧ parse text = .ok u ∧ ∀ w, Denotes u w ↔ Denotes t w := by
  obtain ⟨text, htext, hrow⟩ := (returns_pattern.of_run h).hasRow hplain hsets
  obtain ⟨u, hu, hread⟩ := hrow.expr
  refine ⟨text, u, htext, ?_, fun w => by rw [hu]⟩
  have hexpr := hread [] (by simp)
  rw [List.append_nil] at hexpr
  exact run_eq_ok.2 ⟨[], takes_pattern_iff.2 ⟨rfl, hexpr⟩⟩

/-- A character in several bytes, an empty alternative, a lazy suffix, and sets with a bracket, a
caret and a minus where they are legible. -/
theorem parse_text_nested :
    let t : Tree := .concat [
      .repeated (.group (.alt [.concat [.symbol (.single 0xc3), .symbol (.single 0xa9)],
        .repeated (.symbol ⟨[⟨93, 94⟩, ⟨97, 99⟩], true⟩) 2 none false, .epsilon]) false none)
        1 none true,
      .symbol ⟨[⟨43, 43⟩, ⟨45, 45⟩], true⟩, .symbol (.single 93)]
    parse "(?:\u00e9|[]^a-c]\x7b2,\x7d?|)+[+\\-]\\]" = .ok t ∧
    (∀ u ∈ t.subtrees, u.isCapture = false ∧ u.isLook = false) ∧
    (∀ set, .symbol set ∈ t.subtrees → set.IsLegible) ∧
    ∃ text u, t.text = .ok text ∧ parse text = .ok u ∧ ∀ w, Denotes u w ↔ Denotes t w := by
  intro t
  have hparse : (parse "(?:\u00e9|[]^a-c]\x7b2,\x7d?|)+[+\\-]\\]").toOption = some t := by
    decide +kernel
  have hok := toOption_eq_some.1 hparse
  have hplain : ∀ u ∈ t.subtrees, u.isCapture = false ∧ u.isLook = false := by decide
  have hsets : ∀ set, .symbol set ∈ t.subtrees → set.IsLegible := by
    intro set hset
    simp [t, subtrees, subtreesOf] at hset
    rcases hset with rfl | rfl | rfl | rfl | rfl <;> decide
  exact ⟨hok, hplain, hsets, parse_text hok hplain hsets⟩

/-- A quoted star is shown as a star, and nothing comes before that to be repeated. -/
theorem parse_text_star :
    parse "\\*" = .ok (.symbol (.single 42)) ∧
    (∀ u ∈ (symbol (.single 42)).subtrees, u.isCapture = false ∧ u.isLook = false) ∧
    text (.symbol (.single 42)) = .ok "*" ∧
    parse "*" = .error (Stop.error 0 (.fault .nothingToRepeat)) := by
  refine ⟨?_, by decide, ?_, ?_⟩
  · exact toOption_eq_some.1 (by decide +kernel)
  · rfl
  · rfl

end Tree

end Munch
