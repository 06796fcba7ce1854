/-
The parser returns trees in a certain shape (`Tree.shaped_of_parse`), which a program can be made of.
Each level of the syntax returns what the level above it may take up: an atom or an item fits in a
row, and a branch is no choice. Below a group the reader of expressions is a parameter, so the proof
is by induction on the depth of nesting.
-/
import Munch.Proofs.Answers
import Munch.Proofs.Pattern.SymbolSet

namespace Munch

open Text

namespace Tree

variable {t : Tree} {s : ByteSet}

/-- A tree in shape that may stand in a row. -/
def IsItem (t : Tree) : Prop := t.IsShaped ∧ t.FitsRow

/-- A tree in shape that may be an alternative. -/
def IsBranch (t : Tree) : Prop := t.IsShaped ∧ ∀ items, t ≠ .alt items

theorem IsItem.isBranch (h : t.IsItem) : t.IsBranch := ⟨h.1, h.2.not_alt⟩

theorem isItem_symbol (h : IsCanonical s) : IsItem (.symbol s) :=
  ⟨.symbol h, by simp, by simp, by simp⟩

theorem isItem_look (kind : Look) : IsItem (.look kind) := ⟨.look, by simp, by simp, by simp⟩

theorem isCanonical_single {b : Int} (h : IsByte b) : IsCanonical (.single b) :=
  ⟨rfl, ByteSet.wellFormed_single h, List.pairwise_singleton _ _⟩

theorem isCanonical_byte (b : UInt8) : IsCanonical (.single b.toNat) := by
  have hb := b.toNat_lt
  refine isCanonical_single ⟨Int.natCast_nonneg _, ?_⟩
  simp only [Interval.maxByte]
  omega

/-- A character is one symbol, or a row of them if it is not ASCII. -/
theorem isItem_ofChar (c : Char) : IsItem (.ofChar c) := by
  have hlength : (String.utf8EncodeChar c).length = c.utf8Size := String.length_utf8EncodeChar c
  unfold Tree.ofChar
  split
  · exact isItem_symbol (isCanonical_byte _)
  · next hlong =>
    have hlt : 2 ≤ (String.utf8EncodeChar c).length := by
      have hpos := c.utf8Size_pos
      have hone : (String.utf8EncodeChar c).length ≠ 1 := fun hone =>
        (List.length_eq_one_iff.1 hone).elim hlong
      omega
    have hbytes (t : Tree) (ht : t ∈ (String.utf8EncodeChar c).map fun b =>
        Tree.symbol (.single b.toNat)) : t.IsItem := by
      obtain ⟨b, -, rfl⟩ := List.mem_map.1 ht
      exact isItem_symbol (isCanonical_byte b)
    refine ⟨.concat (by simpa using hlt) (fun t ht => (hbytes t ht).1) fun t ht => (hbytes t ht).2,
      by simp, by simp, fun items hitems => ?_⟩
    obtain rfl := Tree.concat.inj hitems
    have hle := c.utf8Size_le_four
    refine ⟨by simpa using hlt, by simpa [hlength] using hle, c, ?_, rfl⟩
    by_contra hascii
    have hone : c.utf8Size = 1 := Char.utf8Size_eq_one_iff.2 (by
      rw [UInt32.le_iff_toNat_le]
      exact Nat.le_of_not_lt hascii)
    omega

theorem areBounds_natCast {min : Nat} {max : Option Nat} :
    AreBounds min (max.map Int.ofNat) ↔
      min ≤ Reader.maxRepeat ∧ ∀ m ∈ max, min ≤ m ∧ m ≤ Reader.maxRepeat := by
  cases max with
  | none =>
    simp only [AreBounds, Reader.maxRepeat, Option.map_none, Option.mem_def, reduceCtorEq,
      false_implies, implies_true, and_true]
    omega
  | some m =>
    simp only [AreBounds, Reader.maxRepeat, Option.map_some, Option.mem_def, Option.some.injEq,
      forall_eq', Int.ofNat_eq_natCast]
    omega

end Tree

namespace Reader

variable {expr : Reader Tree}

/-! ## Repetitions -/

/-- The bounds are some that a repetition can be written with. -/
def AreCounts (bounds : Nat × Option Nat) : Prop :=
  Tree.AreBounds bounds.1 (bounds.2.map Int.ofNat)

theorem returns_number : Returns number fun o => ∀ n ∈ o, n ≤ maxRepeat := by
  refine .bind_any fun digits => ?_
  split
  · exact returns_pure (by simp)
  split
  · exact returns_throw _
  · split
    · exact returns_fail _
    · next hle => exact returns_pure fun m hm => Option.some.inj hm ▸ Nat.le_of_not_lt hle

theorem returns_counts : Returns counts AreCounts := by
  refine .test (returns_number.bind fun max hmax => ?_) (returns_number.bind fun min hmin => ?_)
  · cases max with
    | none => exact returns_fail _
    | some max => exact returns_pure (Tree.areBounds_natCast.2 (by simpa using hmax))
  · cases min with
    | none => exact returns_fail _
    | some min =>
      have hmin := hmin min rfl
      refine .test (returns_number.bind fun max hmax => ?_)
        (returns_pure (Tree.areBounds_natCast.2 (by simpa using hmin)))
      cases max with
      | none => exact returns_pure (Tree.areBounds_natCast.2 (by simpa using hmin))
      | some max =>
        simp only
        split
        · exact returns_fail _
        · next hle =>
          have hmax := hmax max rfl
          refine returns_pure (Tree.areBounds_natCast.2 ⟨hmin, fun m hm => ?_⟩)
          obtain rfl := Option.some.inj hm
          exact ⟨Nat.le_of_not_lt hle, hmax⟩

theorem returns_bounds : Returns bounds fun o => ∀ b ∈ o, AreCounts b := by
  refine .test (returns_pure (by simp [AreCounts, Tree.AreBounds])) ?_
  refine .test (returns_pure (by simp [AreCounts, Tree.AreBounds])) ?_
  refine .test (returns_pure (by simp [AreCounts, Tree.AreBounds])) ?_
  refine .test (returns_counts.bind fun b hb => ?_) (returns_pure (by simp))
  exact .test (returns_pure fun b' h => Option.some.inj h ▸ hb) (returns_fail _)

theorem returns_suffix (onLook : Bool) :
    Returns (suffix onLook) fun o => ∀ s ∈ o, onLook = false ∧ AreCounts (s.min, s.max) := by
  refine returns_bounds.bind fun o ho => ?_
  cases o with
  | none => exact returns_pure (by simp)
  | some b =>
    obtain ⟨min, max⟩ := b
    simp only
    split
    · exact returns_fail _
    · next hlook =>
      refine .bind_any fun _ => returns_pure fun s hs => Option.some.inj hs ▸ ?_
      exact ⟨Bool.not_eq_true _ ▸ hlook, ho _ rfl⟩

/-! ## Atoms -/

theorem returns_escape : Returns escape Tree.IsItem := by
  refine .bind_any fun _ => .bind_any fun o => ?_
  split
  · exact returns_fail _
  · split
    · next hs =>
      exact returns_pure (Tree.isItem_symbol (Escape.wellFormed_classOf? hs).isCanonical)
    · next hb =>
      exact returns_pure (Tree.isItem_symbol (Tree.isCanonical_single (Escape.isByte_byteOf? hb)))
    · split
      · refine returns_hexByte.bind fun b hb => returns_pure ?_
        exact Tree.isItem_symbol (Tree.isCanonical_single hb)
      split
      · exact returns_fail _
      · exact returns_pure (Tree.isItem_ofChar _)

theorem returns_symbol : Returns symbol Tree.IsItem := by
  have hfeed : (ByteSet.negated (.single 0x0a)).WellFormed := by decide
  refine .test (returns_pure (Tree.isItem_symbol hfeed.isCanonical)) (.bind_any fun o => ?_)
  split
  · exact returns_fail _
  · split
    · exact returns_escape
    split
    · exact returns_fail _
    · exact .bind_any fun _ => returns_pure (Tree.isItem_ofChar _)

theorem returns_groupName : Returns groupName fun name => isIdentifier name = true := by
  refine .bind_any fun name => ?_
  simp only
  split
  · next hname => exact .test (returns_pure hname) (returns_fail _)
  · exact returns_fail _

/-- Only a group that captures has a name. -/
theorem returns_groupKind : Returns groupKind fun kind =>
    ∀ text ∈ kind.2, kind.1 = true ∧ isIdentifier text = true := by
  have hnamed : Returns (groupName >>= fun name => pure (true, some name)) fun kind =>
      ∀ text ∈ kind.2, kind.1 = true ∧ isIdentifier text = true := by
    refine returns_groupName.bind fun name hname => returns_pure fun text htext => ?_
    exact ⟨rfl, Option.some.inj htext ▸ hname⟩
  refine .test (.test (returns_pure (by simp)) ?_) (returns_pure (by simp))
  refine .bind_any fun _ => .bind_any fun _ => .bind_any fun _ => .bind_any fun _ => ?_
  split
  · exact returns_throw _
  · exact .test hnamed (.test hnamed (returns_fail _))

theorem returns_group (h : Returns expr Tree.IsShaped) :
    Returns (group expr) fun o => ∀ t ∈ o, t.IsItem := by
  refine .test (returns_groupKind.bind fun kind hkind => h.bind fun body hbody => ?_)
    (returns_pure (by simp))
  refine .test (returns_pure fun t ht => Option.some.inj ht ▸ ?_) (returns_fail _)
  exact ⟨.group hbody hkind, by simp, by simp, by simp⟩

theorem returns_atom (h : Returns expr Tree.IsShaped) :
    Returns (atom expr) fun o => ∀ t ∈ o, t.IsItem := by
  refine .bind_any fun o => ?_
  split
  · exact returns_pure (by simp)
  split
  · exact returns_pure (by simp)
  split
  · exact returns_fail _
  refine (returns_group h).bind fun o ho => ?_
  split
  · next t => exact returns_pure ho
  refine returns_symbolSet.bind fun o hset => ?_
  split
  · next s => exact returns_pure fun t ht => Option.some.inj ht ▸ Tree.isItem_symbol (hset s rfl)
  refine .bind_any fun o => ?_
  split
  · exact returns_pure fun t ht => Option.some.inj ht ▸ Tree.isItem_look _
  · exact returns_symbol.bind fun t ht => returns_pure fun u hu => Option.some.inj hu ▸ ht

/-! ## Expressions -/

theorem isItem_foldl {suffixes : List Suffix} {t : Tree} (ht : t.IsItem)
    (h : ∀ s ∈ suffixes, t.isLook = false ∧ AreCounts (s.min, s.max)) :
    (suffixes.foldl (fun t s => .repeated t s.min (s.max.map Int.ofNat) s.greedy) t).IsItem := by
  induction suffixes generalizing t with
  | nil => exact ht
  | cons s rest ih =>
    obtain ⟨hlook, hcounts⟩ := h s (by simp)
    refine ih ⟨.repeated ht.1 ht.2 hlook hcounts, by simp, by simp, by simp⟩ fun r hr => ?_
    exact ⟨rfl, (h r (by simp [hr])).2⟩

theorem returns_item (h : Returns expr Tree.IsShaped) :
    Returns (item expr) fun o => ∀ t ∈ o, t.IsItem := by
  refine (returns_atom h).bind fun o ho => ?_
  cases o with
  | none => exact returns_pure (by simp)
  | some t =>
    refine (returns_many (returns_suffix _)).bind fun suffixes hs => returns_pure fun u hu => ?_
    exact Option.some.inj hu ▸ isItem_foldl (ho t rfl) hs

theorem returns_concat (h : Returns expr Tree.IsShaped) :
    Returns (concat expr) fun o => ∀ t ∈ o, t.IsBranch := by
  refine (returns_many (returns_item h)).bind fun ts hts => ?_
  split
  · exact returns_pure (by simp)
  · exact returns_pure fun t ht => Option.some.inj ht ▸ (hts _ (by simp)).isBranch
  · next hnil hone =>
    refine returns_pure fun t ht => Option.some.inj ht ▸ ⟨.concat ?_ (fun u hu => (hts u hu).1)
      fun u hu => (hts u hu).2, by simp⟩
    match ts, hnil, hone with
    | [], hnil, _ => exact absurd rfl hnil
    | [t], _, hone => exact absurd rfl (hone t)
    | _ :: _ :: _, _, _ => simp

theorem returns_branch (h : Returns expr Tree.IsShaped) :
    Returns (branch expr) Tree.IsBranch := by
  refine (returns_concat h).bind fun o ho => returns_pure ?_
  cases o with
  | none => exact ⟨.epsilon, by simp⟩
  | some t => exact ho t rfl

theorem returns_nextBranch (h : Returns expr Tree.IsShaped) :
    Returns (nextBranch expr) fun o => ∀ t ∈ o, t.IsBranch := by
  refine .test ((returns_branch h).bind fun t ht => ?_) (returns_pure (by simp))
  exact returns_pure fun u hu => Option.some.inj hu ▸ ht

theorem returns_alternatives (h : Returns expr Tree.IsShaped) :
    Returns (alternatives expr) Tree.IsShaped := by
  refine (returns_branch h).bind fun first hfirst => ?_
  refine (returns_many (returns_nextBranch h)).bind fun others hothers => ?_
  have hall (t : Tree) (ht : t ∈ (first :: others).eraseDups) : t.IsBranch := by
    rcases List.mem_cons.1 (List.mem_eraseDups.1 ht) with rfl | ht
    · exact hfirst
    · exact hothers t ht
  have hnil : (first :: others).eraseDups ≠ [] :=
    List.ne_nil_of_mem (List.mem_eraseDups.2 List.mem_cons_self)
  split
  · next t heq => exact returns_pure (hall t (by simp [heq])).1
  · next hone =>
    refine returns_pure (.alt ?_ (nodup_eraseDups _) (fun t ht => (hall t ht).1)
      fun t ht => (hall t ht).2)
    match (first :: others).eraseDups, hnil, hone with
    | [], hnil, _ => exact absurd rfl hnil
    | [t], _, hone => exact absurd rfl (hone t)
    | _ :: _ :: _, _, _ => simp

theorem returns_exprUpTo (depth : Nat) : Returns (exprUpTo depth) Tree.IsShaped := by
  induction depth with
  | zero => exact returns_fail _
  | succ depth ih => exact returns_alternatives ih

theorem returns_pattern : Returns pattern Tree.IsShaped := by
  have hexpr : Returns Reader.expr Tree.IsShaped := .bind_any fun _ => returns_exprUpTo _
  refine hexpr.bind fun t ht => .bind_any fun o => ?_
  split
  · exact returns_pure ht
  · split
    · exact returns_fail _
    · exact returns_fail _

end Reader

theorem Tree.wellFormed_of_parse {pattern : String} {t : Tree} (h : Tree.parse pattern = .ok t) :
    t.WellFormed :=
  (Reader.returns_pattern.of_run h).wellFormed

/-- Every tree that is read is in shape: its sets are canonical, its rows and choices are flat, its
counts are in bounds and its names are identifiers. -/
theorem Tree.shaped_of_parse {pattern : String} {t : Tree} (h : Tree.parse pattern = .ok t) :
    t.IsShaped :=
  Reader.returns_pattern.of_run h

/-- A row inside of a row, a named group with a suffix, and an alternative that comes twice. -/
theorem Tree.shaped_of_parse_named :
    parse "(?P<x>a\u00e9)*|[^b-\\xff]|(?P<x>a\u00e9)*" = .ok (.alt [
      .repeated (.group (.concat [.symbol (.single 97),
        .concat [.symbol (.single 0xc3), .symbol (.single 0xa9)]]) true (some "x")) 0 none true,
      .symbol ⟨[⟨0, 97⟩], true⟩]) ∧
    IsShaped (.alt [
      .repeated (.group (.concat [.symbol (.single 97),
        .concat [.symbol (.single 0xc3), .symbol (.single 0xa9)]]) true (some "x")) 0 none true,
      .symbol ⟨[⟨0, 97⟩], true⟩]) := by
  have hparse : (parse "(?P<x>a\u00e9)*|[^b-\\xff]|(?P<x>a\u00e9)*").toOption = some (.alt [
      .repeated (.group (.concat [.symbol (.single 97),
        .concat [.symbol (.single 0xc3), .symbol (.single 0xa9)]]) true (some "x")) 0 none true,
      .symbol ⟨[⟨0, 97⟩], true⟩]) := by decide +kernel
  have hok := toOption_eq_some.1 hparse
  exact ⟨hok, shaped_of_parse hok⟩

end Munch
