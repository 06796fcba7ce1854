/-
A printed line is read as what it says. What a line says is a row of words without a blank in them
(`Phrase.text_eq`), each of them is read (`Phrase.ofWords?_words`), and the blanks in front are its
depth (`Line.ofChars?_text`). Comments say nothing, so from a whole source one gets its lines
(`Line.ofSource?_join`).
-/
import Munch.Emit.Load
import Munch.Proofs.Text.Quoted
import Munch.Proofs.Text.Unambiguous

namespace Munch

open Text

variable {cs : List Char} {n : Int} {ending word : String}

/-! ## Words -/

/-- The character can stand in a word: it is no blank, ends no line and no source. -/
def isInk (c : Char) : Bool := c != ' ' && !Line.isEnd c && c != '\x00'

def Inked (cs : List Char) : Prop := ∀ c ∈ cs, isInk c = true

instance (cs : List Char) : Decidable (Inked cs) := List.decidableBAll _ cs

@[simp] theorem inked_append {ds : List Char} : Inked (cs ++ ds) ↔ Inked cs ∧ Inked ds :=
  List.forall_mem_append

@[simp] theorem inked_cons {c : Char} : Inked (c :: cs) ↔ isInk c = true ∧ Inked cs :=
  List.forall_mem_cons

theorem Inked.not_mem_blank (h : Inked cs) : ' ' ∉ cs :=
  fun hc => absurd (h _ hc) (by decide)

theorem isInk_of_le {c : Char} (h : 48 ≤ c.toNat) : isInk c = true := by
  have hne {d : Char} (hd : d.toNat < 48) : (c == d) = false := by
    simp only [beq_eq_false_iff_ne]
    rintro rfl
    omega
  simp only [isInk, Line.isEnd, bne, hne (show ' '.toNat < 48 by decide),
    hne (show '\n'.toNat < 48 by decide), hne (show '\r'.toNat < 48 by decide),
    hne (show '\x00'.toNat < 48 by decide), Bool.or_false, Bool.not_false, Bool.and_true]

theorem inked_toDigits (n : Nat) : Inked (Nat.toDigits 10 n) := by
  intro c hc
  have hdigit : c.isDigit = true := Nat.isDigit_of_mem_toDigits (by decide) (by decide) hc
  exact isInk_of_le (toNat_of_isDigit hdigit).1

@[simp] theorem inked_nil : Inked [] := by simp [Inked]

@[simp] theorem inked_repr (n : Int) : Inked n.repr.toList := by
  show Inked (toString n).toList
  cases n with
  | ofNat n =>
    rw [Int.ofNat_eq_natCast, toList_toString_natCast]
    exact inked_toDigits n
  | negSucc n =>
    rw [toList_toString_negSucc, inked_cons]
    exact ⟨rfl, inked_toDigits (n + 1)⟩

theorem le_of_inRanges {lo hi m : Nat} {ranges : List (Nat × Nat)}
    (h : inRanges ((lo, hi) :: ranges) m = true) : lo ≤ m := by
  by_contra hlt
  rw [inRanges, if_pos (by omega)] at h
  cases h

/-- The first ranges of an identifier's characters are those of the digits and the letters. -/
theorem inked_of_isIdentifier {name : String} (h : isIdentifier name = true) :
    Inked name.toList := by
  unfold isIdentifier at h
  split at h
  · cases h
  · next c rest heq =>
    rw [Bool.and_eq_true, List.all_eq_true] at h
    obtain ⟨hstart, hpart⟩ := h
    rw [isIdentifierStart, identifierStartRanges] at hstart
    have hletter := le_of_inRanges hstart
    rw [heq, inked_cons]
    refine ⟨isInk_of_le (by omega), fun d hd => isInk_of_le ?_⟩
    have hd := hpart d hd
    rw [isIdentifierPart, identifierPartRanges] at hd
    exact le_of_inRanges hd

/-! ## Numbers -/

theorem before?_append (ending word : String) : before? ending (word ++ ending) = some word := by
  rw [before?, if_pos (by simp [List.isSuffixOf_iff_suffix]), String.toList_append,
    List.length_append, Nat.add_sub_cancel, List.take_left', String.ofList_toList]
  rfl

theorem digits?_toDigits (n : Nat) : digits? (Nat.toDigits 10 n) = some n := by
  rw [digits?, Nat.ofDigitChars_ten_toDigits]
  exact if_pos rfl

@[simp] theorem number?_repr (n : Int) : number? n.repr = some n := by
  show number? (toString n) = some n
  unfold number?
  cases n with
  | ofNat n =>
    rw [Int.ofNat_eq_natCast, toList_toString_natCast]
    split
    · next cs heq =>
      have hne := toDigits_append_ne n (s := []) (t := cs)
      rw [List.append_nil] at hne
      exact absurd heq hne
    · rw [digits?_toDigits]
      rfl
  | negSucc n =>
    rw [toList_toString_negSucc]
    show (digits? (Nat.toDigits 10 (n + 1))).map _ = _
    rw [digits?_toDigits]
    rfl

@[simp] theorem numberBefore?_repr (ending : String) (n : Int) :
    numberBefore? ending (n.repr ++ ending) = some n := by
  rw [numberBefore?, before?_append]
  exact number?_repr n

/-! ## Phrases -/

/-- The words of a test; a colon is put behind the last one. -/
def Test.words : Test → List String
  | .step id => ["step", "==", toString id ++ ":"]
  | .byte range =>
    if range.lo = range.hi then ["byte", "==", toString range.lo ++ ":"]
    else [toString range.lo, "<=", "byte", "<=", toString range.hi ++ ":"]

theorem Test.ofWords?_words (t : Test) : Test.ofWords? t.words = some t := by
  cases t with
  | step id => simp [words, ofWords?]
  | byte range =>
    obtain ⟨lo, hi⟩ := range
    by_cases h : lo = hi
    · simp [words, h, ofWords?]
    · simp [words, h, ofWords?]

namespace Phrase

/-- The words of a line. -/
def words : Phrase → List String
  | .define name =>
    ["def", name ++ "(data:", "bytes,", "start:", "int", "=", "0)", "->", "tuple[int,", "int]", "|",
      "None:"]
  | .setStep step => ["step", "=", toString step]
  | .startLast (some index) => ["last", "=", "(" ++ (toString index ++ ","), "start)"]
  | .startLast none => ["last", "=", "None"]
  | .setIndex => ["index", "=", "start"]
  | .setLength => ["length", "=", "len(data)"]
  | .loop => ["while", "index", "<", "length:"]
  | .setByte => ["byte", "=", "data[index]"]
  | .advance => ["index", "+=", "1"]
  | .ask true test => "if" :: test.words
  | .ask false test => "elif" :: test.words
  | .otherwise => ["else:"]
  | .leave => ["break"]
  | .finish index => ["return", toString index ++ ",", "index"]
  | .setLast index => ["last", "=", toString index ++ ",", "index"]
  | .giveLast => ["return", "last"]

theorem ofWords?_words (p : Phrase) : ofWords? p.words = some p := by
  cases p with
  | define name => simp [words, ofWords?, before?_append]
  | startLast index =>
    cases index with
    | none => simp [words, ofWords?]
    | some index => simp [words, ofWords?]
  | ask opens test => cases opens <;> simp [words, ofWords?, Test.ofWords?_words]
  | _ => simp [words, ofWords?]

/-- What the line says can be told apart from what stands around it. -/
def IsInked : Phrase → Prop
  | .define name => Inked name.toList
  | _ => True

theorem inked_words {p : Phrase} (h : p.IsInked) : ∀ word ∈ p.words, Inked word.toList := by
  have htest (t : Test) : ∀ word ∈ t.words, Inked word.toList := by
    cases t with
    | step id => simp [Test.words, isInk, Line.isEnd]
    | byte range =>
      rw [Test.words]
      split
      · simp [isInk, Line.isEnd]
      · simp [isInk, Line.isEnd]
  cases p with
  | define name =>
    rw [IsInked] at h
    simp [words, isInk, Line.isEnd, h]
  | startLast index => cases index <;> simp [words, isInk, Line.isEnd]
  | ask opens test => cases opens <;> simpa [words, isInk, Line.isEnd] using htest test
  | _ => simp [words, isInk, Line.isEnd]

theorem text_eq (p : Phrase) : p.text = " ".intercalate p.words := by
  have htest (t : Test) (first : String) :
      first ++ " " ++ t.text ++ ":" = " ".intercalate (first :: t.words) := by
    cases t with
    | step id => simp [← String.toList_inj, Test.text, Test.words]
    | byte range =>
      rw [Test.text, Test.words]
      split
      · simp [← String.toList_inj]
      · simp [← String.toList_inj]
  cases p with
  | startLast index => cases index <;> simp [← String.toList_inj, text, words]
  | ask opens test =>
    cases opens with
    | true => exact htest test "if"
    | false => exact htest test "elif"
  | setLength => simp [text, words, Routine.lengthName]
  | _ => simp [← String.toList_inj, text, words]

/-- A line starts with a character of its own. -/
theorem exists_text_eq (p : Phrase) :
    ∃ c cs, p.text.toList = c :: cs ∧ c ≠ ' ' ∧ c ≠ '#' := by
  cases p with
  | startLast index => cases index <;> simp [text]
  | ask opens test => cases opens <;> simp [text]
  | _ => simp [text]

theorem splitOn_text {p : Phrase} (h : p.IsInked) :
    p.text.toList.splitOn ' ' = p.words.map String.toList := by
  rw [text_eq, String.toList_intercalate]
  refine List.splitOn_intercalate ' ' ?_ ?_
  · intro l hl
    obtain ⟨word, hword, rfl⟩ := List.mem_map.1 hl
    exact (inked_words h word hword).not_mem_blank
  · rw [ne_eq, List.map_eq_nil_iff]
    intro hnil
    have := ofWords?_words p
    rw [hnil] at this
    cases this

end Phrase

/-! ## Lines -/

namespace Line

variable {l : Line}

theorem toList_text (l : Line) :
    l.text.toList = List.replicate (4 * l.depth) ' ' ++ l.phrase.text.toList := by
  have hblanks (n : Nat) : (String.join (List.replicate n "    ")).toList =
      List.replicate (4 * n) ' ' := by
    induction n with
    | zero => rfl
    | succ n ih =>
      rw [String.toList_join] at ih ⊢
      rw [List.replicate_succ, List.flatMap_cons, ih, Nat.mul_succ, Nat.add_comm,
        ← List.replicate_append_replicate]
      rfl
  rw [text, String.toList_append, hblanks]

/-- The blanks in front of a line end where it says something. -/
theorem splits_text (l : Line) :
    l.text.toList.takeWhile (· == ' ') = List.replicate (4 * l.depth) ' ' ∧
      l.text.toList.dropWhile (· == ' ') = l.phrase.text.toList := by
  have hblanks : ∀ c ∈ List.replicate (4 * l.depth) ' ', (c == ' ') = true := by
    intro c hc
    rw [(List.mem_replicate.1 hc).2]
    rfl
  obtain ⟨c, cs, heq, hblank, -⟩ := l.phrase.exists_text_eq
  rw [toList_text, List.takeWhile_append_of_pos hblanks, List.dropWhile_append_of_pos hblanks, heq]
  simp [hblank]

theorem ofChars?_text (h : l.phrase.IsInked) : ofChars? l.text.toList = some l := by
  obtain ⟨htake, hdrop⟩ := l.splits_text
  rw [ofChars?, htake, hdrop, Phrase.splitOn_text h, List.length_replicate]
  simp [Phrase.ofWords?_words]

theorem isSilent_text (l : Line) : isSilent l.text.toList = false := by
  obtain ⟨c, cs, heq, -, hcomment⟩ := l.phrase.exists_text_eq
  rw [isSilent, l.splits_text.2, heq]
  simpa using hcomment

/-- The characters end neither a line nor a source. -/
def IsClean (cs : List Char) : Prop := ∀ c ∈ cs, isEnd c = false ∧ c ≠ '\x00'

theorem Inked.isClean (h : Inked cs) : IsClean cs := by
  intro c hc
  have hink := h c hc
  simp only [isInk, Bool.and_eq_true, bne_iff_ne, Bool.not_eq_true'] at hink
  exact ⟨hink.1.2, hink.2⟩

theorem isClean_text (h : l.phrase.IsInked) : IsClean l.text.toList := by
  have hblank : isEnd ' ' = false ∧ ' ' ≠ '\x00' := by decide
  rw [toList_text, IsClean, List.forall_mem_append]
  constructor
  · intro c hc
    rw [(List.mem_replicate.1 hc).2]
    exact hblank
  · rw [Phrase.text_eq, String.toList_intercalate]
    refine forall_mem_intercalate (List.forall_mem_singleton.2 hblank) fun piece hpiece => ?_
    obtain ⟨word, hword, rfl⟩ := List.mem_map.1 hpiece
    exact Inked.isClean (Phrase.inked_words h word hword)

/-- Clean lines, each with a line feed behind it, are told apart again; behind the last one there is
an empty line. -/
theorem splitOnP_join {lines : List (List Char)} (h : ∀ line ∈ lines, IsClean line) :
    (lines.flatMap (· ++ ['\n'])).splitOnP isEnd = lines ++ [[]] := by
  induction lines with
  | nil => rfl
  | cons line lines ih =>
    obtain ⟨hline, hlines⟩ := List.forall_mem_cons.1 h
    rw [List.flatMap_cons, List.append_assoc, List.singleton_append,
      List.splitOnP_append_cons_of_forall_mem (fun c hc => (hline c hc).1) _ (by decide), ih hlines]
    rfl

/-- A source is read line by line. -/
theorem ofSource?_join {texts : List String} (h : ∀ text ∈ texts, IsClean text.toList) :
    ofSource? (String.join (texts.map (· ++ "\n"))) =
      ((texts.map String.toList).filter (!isSilent ·)).mapM ofChars? := by
  have hclean : ∀ line ∈ texts.map String.toList, IsClean line := by
    simpa using h
  have hlist : (String.join (texts.map (· ++ "\n"))).toList =
      (texts.map String.toList).flatMap (· ++ ['\n']) := by
    simp [String.toList_join, List.flatMap_map]
  have hzero : '\x00' ∉ (texts.map String.toList).flatMap (· ++ ['\n']) := by
    intro hmem
    obtain ⟨line, hline, hmem⟩ := List.mem_flatMap.1 hmem
    rcases List.mem_append.1 hmem with hmem | hmem
    · exact (hclean line hline _ hmem).2 rfl
    · exact absurd hmem (by decide)
  rw [ofSource?, hlist, if_neg (by simpa using hzero), splitOnP_join hclean, List.filter_append]
  have hlast : [[]].filter (!isSilent ·) = [] := rfl
  rw [hlast, List.append_nil]

/-- Comments in front are left out, and each of the lines behind them is read. -/
theorem ofSource?_comments {comments : List String} {lines : List Line}
    (hcomments : ∀ c ∈ comments, IsClean c.toList ∧ isSilent c.toList = true)
    (hlines : ∀ l ∈ lines, l.phrase.IsInked) :
    ofSource? (String.join ((comments ++ lines.map text).map (· ++ "\n"))) = some lines := by
  have hfilter : ((comments ++ lines.map text).map String.toList).filter (!isSilent ·) =
      lines.map fun l => l.text.toList := by
    rw [List.map_append, List.filter_append, List.map_map, List.filter_eq_nil_iff.2 ?_,
      List.filter_eq_self.2 ?_]
    · rfl
    · simp [isSilent_text]
    · simpa using fun c hc => (hcomments c hc).2
  have hread (ls : List Line) (h : ∀ l ∈ ls, l.phrase.IsInked) :
      (ls.map fun l => l.text.toList).mapM ofChars? = some ls := by
    induction ls with
    | nil => rfl
    | cons l ls ih =>
      obtain ⟨hl, hls⟩ := List.forall_mem_cons.1 h
      rw [List.map_cons, List.mapM_cons, ofChars?_text hl, ih hls]
      rfl
  rw [ofSource?_join, hfilter, hread lines hlines]
  rw [List.forall_mem_append, List.forall_mem_map]
  exact ⟨fun c hc => (hcomments c hc).1, fun l hl => isClean_text (hlines l hl)⟩

end Line

end Munch
