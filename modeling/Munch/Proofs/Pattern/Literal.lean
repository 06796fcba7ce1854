/-
The pattern for a fixed text is read as the characters of the text in a row (`Tree.parse_literal`). A
character without a meaning of its own is taken for itself wherever an item may stand, and so is any
other one behind a backslash: it is neither a letter nor a digit, so no escape has it.
-/
import Munch.Pattern.Parser
import Munch.Proofs.Pattern.Compose

namespace Munch

open Text

variable {c d : Char} {s rest : List Char} {t : Tree} {expr : Reader Tree}

namespace Reader

/-- A character as it stands in the pattern for a text. -/
def quoted (c : Char) : List Char := if isMeta c then ['\\', c] else [c]

/-! ## Single characters -/

theorem ne_of_not_isMeta (h : isMeta c = false) (hd : isMeta d = true) : c ≠ d := by
  rintro rfl
  rw [h] at hd
  cases hd

theorem not_startsSuffix (h : isMeta c = false) : startsSuffix c = false := by
  by_contra hc
  rw [Bool.not_eq_false] at hc
  simp only [startsSuffix, List.contains_iff_mem, List.mem_cons, List.not_mem_nil, or_false] at hc
  rcases hc with rfl | rfl | rfl | rfl <;> exact absurd h (by decide)

/-- The first alphanumeric characters are the digits and the letters of ASCII. -/
theorem isAlphanumeric_of_lt (h : c.toNat < 0xaa) :
    isAlphanumeric c = inRanges [(0x30, 0x39), (0x41, 0x5a), (0x61, 0x7a)] c.toNat := by
  show inRanges ((0x30, 0x39) :: (0x41, 0x5a) :: (0x61, 0x7a) :: (0xaa, _) :: _) c.toNat = _
  simp only [inRanges, h, ↓reduceIte]

/-- Behind a backslash, a character with a meaning of its own has no other one. -/
theorem escape_of_isMeta (h : isMeta c = true) :
    Escape.lookOf? c = none ∧ Escape.classOf? c = none ∧ Escape.byteOf? c = none ∧ c ≠ 'x' ∧
      isAlphanumeric c = false := by
  simp only [isMeta, List.contains_iff_mem, List.mem_cons, List.not_mem_nil, or_false] at h
  rcases h with rfl | rfl | rfl | rfl | rfl | rfl | rfl | rfl | rfl | rfl | rfl | rfl <;>
    exact ⟨rfl, rfl, rfl, by decide, isAlphanumeric_of_lt (by decide)⟩

theorem not_mem_head (h : c ≠ d) : d ∉ (c :: s).head? := fun hd => h (Option.some.inj hd)

/-- What is no group, no set and no assertion is a symbol. -/
theorem takes_atom_of_symbol (hstop : c ≠ '|' ∧ c ≠ ')') (hsuffix : startsSuffix c = false)
    (hopen : c ≠ '(' ∧ c ≠ '[') (hlook : Takes look (c :: s) none (c :: s))
    (hsymbol : Takes symbol (c :: s) t rest) : Takes (atom expr) (c :: s) (some t) rest := by
  refine (takes_peek _).bind ?_
  show Takes (if c = '|' ∨ c = ')' then _ else if startsSuffix c = true then _ else _) _ _ _
  rw [if_neg (not_or.2 hstop), if_neg (by simp [hsuffix])]
  have hgroup : Takes (group expr) (c :: s) none (c :: s) :=
    (takes_accepts_not_char (not_mem_head hopen.1)).bind (takes_pure none _)
  have hset : Takes symbolSet (c :: s) none (c :: s) :=
    (takes_accepts_not_char (not_mem_head hopen.2)).bind (takes_pure none _)
  exact hgroup.bind (hset.bind (hlook.bind hsymbol.map))

theorem takes_look_none (hcaret : c ≠ '^') (hdollar : c ≠ '$')
    (hescape : c = '\\' → ∀ d ∈ s.head?, Escape.lookOf? d = none) :
    Takes look (c :: s) none (c :: s) := by
  refine (takes_accepts_not_char (not_mem_head hcaret)).bind ?_
  refine (takes_accepts_not_char (not_mem_head hdollar)).bind (takes_get_bind ?_)
  cases s with
  | nil => exact takes_pure none _
  | cons d s =>
    show Takes (if c = '\\' then _ else _) _ _ _
    split
    · next hc =>
      rw [hescape hc d rfl]
      exact takes_pure none _
    · exact takes_pure none _

theorem takes_atom_quoted (c : Char) (s : List Char) :
    Takes (atom expr) (quoted c ++ s) (some (.ofChar c)) s := by
  cases hc : isMeta c with
  | false =>
    have hne {d : Char} (hd : isMeta d = true) : c ≠ d := ne_of_not_isMeta hc hd
    have hsymbol : Takes symbol (c :: s) (.ofChar c) s := by
      refine (takes_accepts_not_char (not_mem_head (hne rfl))).bind ((takes_peek _).bind ?_)
      show Takes (if c = '\\' then _ else if isMeta c = true then _ else _) _ _ _
      rw [if_neg (hne rfl), hc, if_neg Bool.false_ne_true]
      exact (takes_advance [c] s).map
    rw [quoted, hc, if_neg Bool.false_ne_true]
    exact takes_atom_of_symbol ⟨hne rfl, hne rfl⟩ (not_startsSuffix hc) ⟨hne rfl, hne rfl⟩
      (takes_look_none (hne rfl) (hne rfl) fun h => absurd h (hne rfl)) hsymbol
  | true =>
    obtain ⟨hlook, hclass, hbyte, hx, halphanumeric⟩ := escape_of_isMeta hc
    have hescape : Takes escape ('\\' :: c :: s) (.ofChar c) s := by
      refine (takes_advance ['\\'] (c :: s)).bind ((takes_next c s).bind ?_)
      simp only [hclass, hbyte, halphanumeric, if_neg hx]
      exact takes_pure _ s
    have hsymbol : Takes symbol ('\\' :: c :: s) (.ofChar c) s :=
      takes_refuse rfl ((takes_peek _).bind hescape)
    rw [quoted, hc, if_pos rfl]
    refine takes_atom_of_symbol (by decide) (by decide) (by decide)
      (takes_look_none (by decide) (by decide) fun _ d hd => ?_) hsymbol
    obtain rfl : c = d := Option.some.inj hd
    exact hlook

/-! ## Texts -/

theorem head_quoted (c : Char) : ∀ d ∈ (quoted c ++ s).head?, startsSuffix d = false := by
  intro d hd
  cases hc : isMeta c with
  | false =>
    rw [quoted, hc, if_neg Bool.false_ne_true] at hd
    obtain rfl : c = d := Option.some.inj hd
    exact not_startsSuffix hc
  | true =>
    rw [quoted, hc, if_pos rfl] at hd
    obtain rfl : '\\' = d := Option.some.inj hd
    rfl

theorem length_quoted (c : Char) : 0 < (quoted c).length := by
  unfold quoted
  split <;> exact Nat.succ_pos _

/-- Each character of the text is an item. -/
theorem takesEach_quoted (cs : List Char) :
    TakesEach (item expr) (cs.flatMap quoted) (cs.map Tree.ofChar) [] := by
  induction cs with
  | nil => exact .stop (takes_item_none (by simp))
  | cons c cs ih =>
    have hnext : ∀ d ∈ (cs.flatMap quoted).head?, startsSuffix d = false := by
      cases cs with
      | nil => simp
      | cons e es => exact head_quoted e
    have hitem : Takes (item expr) (quoted c ++ cs.flatMap quoted)
        (some (Tree.suffixed (.ofChar c) [])) (cs.flatMap quoted) :=
      takes_item_suffixed (takes_atom_quoted c _) (List.forall_mem_nil _) (fun h => absurd rfl h)
        hnext
    refine .next hitem ?_ ih
    have hpos := length_quoted c
    rw [List.flatMap_cons, List.length_append]
    omega

end Reader

namespace Tree

open Reader

/-- Characters in a row. -/
def ofChars : List Char → Tree
  | [c] => .ofChar c
  | cs => .concat (cs.map .ofChar)

/-- The pattern for a text is read as the characters of the text. -/
theorem parse_literal {text : String} (hne : text ≠ "") :
    parse (literal text) = .ok (ofChars text.toList) := by
  have htext : (literal text).toList = text.toList.flatMap quoted := String.toList_ofList
  refine parse_of_branch htext ?_
  have hchars : text.toList ≠ [] := by simpa using hne
  have hitems (depth : Nat) : TakesEach (item (exprUpTo depth)) (text.toList.flatMap quoted)
      (text.toList.map ofChar) [] := takesEach_quoted text.toList
  match htoList : text.toList with
  | [] => exact absurd htoList hchars
  | [c] =>
    rw [htoList] at hitems
    exact takes_branch_item (hitems _)
  | c :: d :: cs =>
    rw [htoList] at hitems
    exact takes_branch_concat (by simp) (hitems _)

end Tree

end Munch
