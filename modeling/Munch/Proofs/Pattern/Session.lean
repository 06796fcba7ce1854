/-
Where a cursor is left. Whatever is read from a position of the text, the cursor goes forwards and
stays inside of the text, also when the reader stops, and a fault is reported at the position where
the cursor is left (`Cursor.Moves`). Nothing is ever cut short on the way: no loop and no nesting of
groups comes to the bound that is set for it (`Reader.Unhindered`).
-/
import Munch.Pattern.Session
import Munch.Proofs.Pattern.Depth
import Munch.Proofs.Pattern.Takes

namespace Munch

variable {α β : Type} {s t : List Char}

namespace Reader

/-- On the text the reader goes forwards, for whatever reason it may stop. -/
def Goes (x : Reader α) (s : List Char) (Q : α → List Char → Prop) : Prop :=
  Ensures x s (fun a t => t <:+ s ∧ Q a t) fun _ t => t <:+ s

variable {x : Reader α} {Q : α → List Char → Prop}

theorem Reads.goes (h : Reads x s Q) : Goes x s Q :=
  h.imp (fun _ _ ht => ht) fun _ _ ht => ht.1

theorem Goes.takes (h : Goes x s Q) : Goes x s (Takes x s) := by
  unfold Goes Ensures at *
  cases heq : x s with
  | ok a t => exact ⟨(by simpa only [heq] using h : _ ∧ _).1, heq⟩
  | error stop t => simpa only [heq] using h

/-- A member is looked for at the end of the text, too. -/
theorem goes_member (s : List Char) : Goes member s fun _ _ => True := by
  cases s with
  | nil => exact List.suffix_refl []
  | cons c s => exact (reads_member (List.cons_ne_nil c s)).forget.goes

theorem goes_namedClass (s : List Char) : Goes namedClass s fun _ _ => True := by
  cases s with
  | nil => exact List.suffix_refl []
  | cons c s => exact (reads_namedClass (List.cons_ne_nil c s)).forget.goes

/-- No bound is reached on the text: greater ones, on the depth of groups and on the rounds of each
loop, change nothing. -/
structure Unhindered (s : List Char) : Prop where
  depth : ∀ n, s.length < n → exprUpTo n s = expr s
  branches : ∀ n, s.length < n → upTo (nextBranch expr) n s = many (nextBranch expr) s
  items : ∀ n, s.length < n → upTo (item expr) n s = many (item expr) s
  suffixes : ∀ onLook n, s.length < n → upTo (suffix onLook) n s = many (suffix onLook) s
  members : ∀ n, s.length < n → upTo memberRanges? n s = many memberRanges? s

theorem unhindered (s : List Char) : Unhindered s where
  depth _ h := exprUpTo_eq_expr h
  branches _ h := upTo_eq_many (advances_nextBranch forward_expr) h
  items _ h := upTo_eq_many (advances_item forward_expr) h
  suffixes onLook _ h := upTo_eq_many (advances_suffix onLook) h
  members _ h := upTo_eq_many consumes_memberRanges?.advances h

end Reader

namespace Cursor

/-- The request is answered by reading on from the cursor, or a text from its start. -/
def Request.IsReading : Request → Prop
  | .load _ | .seek _ | .peek _ | .sees _ | .accepts _ | .advance _ => False
  | _ => True

/-- Where the request starts to read. -/
def start (c : Cursor) : Request → Cursor
  | .parse text => ⟨text.toList, 0⟩
  | _ => c

/-- The cursor is moved forwards inside of its text, and left where a fault is reported. -/
structure Moves (c : Cursor) (answer : Except Error α × Cursor) : Prop where
  text : answer.2.text = c.text
  forwards : c.position ≤ answer.2.position
  inside : answer.2.position ≤ c.text.length
  blamed : ∀ fault position, answer.1 = .error (.of (.malformed fault position)) →
    position = answer.2.position

variable {c c' : Cursor} {settles : Bool} {x : Reader α} {Q : α → List Char → Prop} {a : α}

theorem leave_eq (hc : c.position ≤ c.text.length) (settles : Bool) (left : Nat) :
    c.leave settles left = ⟨c.text, c.text.length - left⟩ := by
  rw [leave, decide_eq_true hc, Bool.or_true, if_pos rfl]

theorem le_of_suffix (hc : c.position ≤ c.text.length) (ht : t <:+ c.rest) :
    c.position ≤ c.text.length - t.length := by
  have hlength := ht.length_le
  rw [rest, List.length_drop] at hlength
  omega

theorem run_moves (hc : c.position ≤ c.text.length) (h : Reader.Goes x c.rest Q) :
    c.Moves (c.run settles x) := by
  unfold run EStateM.run
  cases heq : x c.rest with
  | ok a t =>
    simp only [leave_eq hc]
    exact ⟨rfl, le_of_suffix hc (h.of_ok heq).1, Nat.sub_le _ _, fun _ _ hf => nomatch hf⟩
  | error stop t =>
    simp only [leave_eq hc]
    refine ⟨rfl, le_of_suffix hc (h.of_error heq), Nat.sub_le _ _, fun fault position hf => ?_⟩
    cases stop with
    | fault => cases hf; rfl
    | lookaround | numeral | noCharacter => cases hf

theorem exists_of_run (hc : c.position ≤ c.text.length) (h : Reader.Goes x c.rest Q)
    (hrun : c.run settles x = (.ok a, c')) :
    ∃ t, t <:+ c.rest ∧ Q a t ∧ c' = ⟨c.text, c.text.length - t.length⟩ := by
  unfold run EStateM.run at hrun
  cases heq : x c.rest with
  | ok b t =>
    simp only [heq, leave_eq hc] at hrun
    obtain ⟨⟨⟩, rfl⟩ := Prod.mk.inj hrun
    obtain ⟨hts, hQ⟩ := h.of_ok heq
    exact ⟨t, hts, hQ, rfl⟩
  | error stop t =>
    simp only [heq] at hrun
    cases hrun

theorem goes_map (f : α → β) (h : Reader.Goes x s Q) :
    Reader.Goes (f <$> x) s fun _ _ => True := by
  rw [map_eq_pure_bind]
  refine Ensures.bind h fun a t ht => ?_
  exact ensures_pure ⟨ht.1, trivial⟩

theorem reads_optional {x : Reader (Option α)} (f : α → Answer) (h : Reader.Advances x)
    (s : List Char) :
    Reader.Reads (optional f x) s fun a t => a ≠ .nothing → t.length < s.length := by
  refine (h s).bind fun o t ht => ?_
  cases o with
  | none => exact Reader.reads_pure fun hne => absurd rfl hne
  | some a => exact Reader.reads_pure fun _ => ht (by simp)

theorem goes_optional {x : Reader (Option α)} (f : α → Answer) (h : Reader.Forward x)
    (s : List Char) : Reader.Goes (optional f x) s fun _ _ => True := by
  refine Reader.Reads.goes ((h s).bind fun o t _ => ?_)
  cases o with
  | none => exact Reader.reads_pure trivial
  | some a => exact Reader.reads_pure trivial

/-- Whatever may return nothing gets on when it returns something. -/
theorem lt_of_run_optional {x : Reader (Option α)} {f : α → Answer} {answer : Answer}
    (hc : c.position ≤ c.text.length) (h : Reader.Advances x) (hanswer : answer ≠ .nothing)
    (hrun : c.run settles (optional f x) = (.ok answer, c')) : c.position < c'.position := by
  obtain ⟨t, -, hlt, rfl⟩ := exists_of_run hc (reads_optional f h c.rest).goes hrun
  have hlength := hlt hanswer
  rw [rest, List.length_drop] at hlength
  show c.position < c.text.length - t.length
  omega

theorem answer_moves_of_isReading (hc : c.position ≤ c.text.length) {r : Request}
    (hr : r.IsReading) : (c.start r).Moves (c.answer r) := by
  have hexpr := Reader.forward_expr
  cases r with
  | load | seek | peek | sees | accepts | advance => exact hr.elim
  | parse text =>
    exact run_moves (Nat.zero_le _)
      (goes_map Answer.tree (Reader.forward_pattern _).goes)
  | expr => exact run_moves hc (goes_map _ (hexpr _).goes)
  | concat => exact run_moves hc (goes_optional _ (Reader.forward_concat hexpr) _)
  | item => exact run_moves hc (goes_optional _ (Reader.advances_item hexpr).forward _)
  | atom => exact run_moves hc (goes_optional _ (Reader.advances_atom hexpr).forward _)
  | group => exact run_moves hc (goes_optional _ (Reader.advances_group hexpr).forward _)
  | look => exact run_moves hc (goes_optional _ Reader.advances_look.forward _)
  | symbol => exact run_moves hc (goes_map _ (Reader.consumes_symbol.forward _).goes)
  | escape => exact run_moves hc (goes_map _ (Reader.consumes_escape.forward _).goes)
  | hexByte => exact run_moves hc (goes_map _ (Reader.forward_hexByte _).goes)
  | member => exact run_moves hc (goes_map _ (Reader.goes_member _))
  | symbolSet => exact run_moves hc (goes_optional _ Reader.advances_symbolSet.forward _)
  | namedClass => exact run_moves hc (goes_map _ (Reader.goes_namedClass _))
  | counts => exact run_moves hc (goes_map _ (Reader.forward_counts _).goes)
  | number => exact run_moves hc (goes_optional _ Reader.forward_number _)
  | takeUntil stop => exact run_moves hc (goes_map _ (Reader.forward_takeWhile _ _).goes)

/-- A pattern that is read is read to its end. -/
theorem position_of_parse {text : String} {answer : Answer}
    (h : c.answer (.parse text) = (.ok answer, c')) : c'.position = text.toList.length := by
  have hend : Reader.Goes (Answer.tree <$> Reader.pattern) text.toList fun _ t => t = [] := by
    rw [map_eq_pure_bind]
    refine Ensures.bind (Reader.forward_pattern text.toList).goes.takes fun tree t ht => ?_
    exact ensures_pure ⟨ht.1, (Reader.takes_pattern_iff.1 ht.2).1⟩
  obtain ⟨t, -, rfl, rfl⟩ := exists_of_run (Nat.zero_le _) hend h
  rfl

/-- **Reading goes forwards, to the end of the text at most, and comes to an end.** -/
theorem answer_moves (hc : c.position ≤ c.text.length) :
    (∀ r : Request, r.IsReading → (c.start r).Moves (c.answer r)) ∧
    (∀ r ∈ [Request.item, Request.atom], ∀ t c', c.answer r = (.ok (.tree t), c') →
      c.position < c'.position) ∧
    (∀ text t c', c.answer (.parse text) = (.ok (.tree t), c') →
      c'.position = text.toList.length) ∧
    ∀ s, Reader.Unhindered s := by
  refine ⟨fun r hr => answer_moves_of_isReading hc hr, ?_, fun _ _ _ => position_of_parse,
    Reader.unhindered⟩
  simp only [List.forall_mem_cons]
  refine ⟨fun t c' h => ?_, fun t c' h => ?_, List.forall_mem_nil _⟩
  · exact lt_of_run_optional hc (Reader.advances_item Reader.forward_expr) (by simp) h
  · exact lt_of_run_optional hc (Reader.advances_atom Reader.forward_expr) (by simp) h

/-- A count without its closing brace: the fault is reported at the end, where the cursor is left. -/
theorem answer_moves_unclosed :
    (⟨"ab\x7b2".toList, 1⟩ : Cursor).Moves (answer ⟨"ab\x7b2".toList, 1⟩ .item) ∧
      (answer ⟨"ab\x7b2".toList, 1⟩ .item).1 = .error (.of (.malformed (.expected "\x7d") 4)) ∧
      (answer ⟨"ab\x7b2".toList, 1⟩ .item).2.position = 4 := by
  have hc : (⟨"ab\x7b2".toList, 1⟩ : Cursor).position ≤ "ab\x7b2".toList.length := by decide
  exact ⟨(answer_moves hc).1 .item trivial, rfl, rfl⟩

end Cursor

end Munch
