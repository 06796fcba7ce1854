/-
Syntax trees of patterns, and their equality.
-/
import Munch.Tree.ByteSet

namespace Munch

/-- An assertion about the place in the text, which consumes nothing. -/
inductive Look where
  | startLine
  | endLine
  | startText
  | endText
  | wordBoundary
  | notWordBoundary
deriving DecidableEq

/-- The assertion as it is written in a pattern. -/
def Look.text : Look → String
  | .startLine => "^"
  | .endLine => "$"
  | .startText => "\\A"
  | .endText => "\\z"
  | .wordBoundary => "\\b"
  | .notWordBoundary => "\\B"

inductive Tree where
  /-- The empty text. -/
  | epsilon
  /-- One byte of a set. -/
  | symbol (set : ByteSet)
  /-- The items one after the other. -/
  | concat (items : List Tree)
  /-- Any one of the items. -/
  | alt (items : List Tree)
  /-- The body `min` to `max` times, without an upper limit if `max` is absent. -/
  | repeated (body : Tree) (min : Int) (max : Option Int) (greedy : Bool)
  /-- The body in parentheses. -/
  | group (body : Tree) (capturing : Bool) (name : Option String)
  | look (kind : Look)
  /-- A node of no particular kind, which nothing can be made of. -/
  | bare

namespace Tree

mutual

/-- The two trees are the same. -/
def same : Tree → Tree → Bool
  | .epsilon, .epsilon => true
  | .symbol s, .symbol t => s == t
  | .concat xs, .concat ys => sameAll xs ys
  | .alt xs, .alt ys => sameAll xs ys
  | .repeated x min max greedy, .repeated y min' max' greedy' =>
    same x y && min == min' && max == max' && greedy == greedy'
  | .group x capturing name, .group y capturing' name' =>
    same x y && capturing == capturing' && name == name'
  | .look k, .look k' => k == k'
  | .bare, .bare => true
  | _, _ => false

/-- The two lists hold the same trees in the same order. -/
def sameAll : List Tree → List Tree → Bool
  | [], [] => true
  | x :: xs, y :: ys => same x y && sameAll xs ys
  | _, _ => false

end

mutual

theorem same_self : (t : Tree) → same t t = true
  | .epsilon | .symbol _ | .look _ | .bare => by simp [same]
  | .concat xs | .alt xs => by simp [same, sameAll_self xs]
  | .repeated x _ _ _ | .group x _ _ => by simp [same, same_self x]

theorem sameAll_self : (ts : List Tree) → sameAll ts ts = true
  | [] => rfl
  | t :: ts => by simp [sameAll, same_self t, sameAll_self ts]

end

mutual

theorem eq_of_same : (t u : Tree) → same t u = true → t = u
  | .epsilon, u, h => by cases u <;> simp_all [same]
  | .symbol _, u, h => by cases u <;> simp_all [same]
  | .concat xs, u, h => by
    cases u <;> simp [same] at h
    exact congrArg _ (eq_of_sameAll xs _ h)
  | .alt xs, u, h => by
    cases u <;> simp [same] at h
    exact congrArg _ (eq_of_sameAll xs _ h)
  | .repeated x _ _ _, u, h => by
    cases u <;> simp [same] at h
    obtain ⟨⟨⟨hx, rfl⟩, rfl⟩, rfl⟩ := h
    rw [eq_of_same x _ hx]
  | .group x _ _, u, h => by
    cases u <;> simp [same] at h
    obtain ⟨⟨hx, rfl⟩, rfl⟩ := h
    rw [eq_of_same x _ hx]
  | .look _, u, h => by cases u <;> simp_all [same]
  | .bare, u, h => by cases u <;> simp_all [same]

theorem eq_of_sameAll : (ts us : List Tree) → sameAll ts us = true → ts = us
  | [], us, h => by cases us <;> simp_all [sameAll]
  | t :: ts, us, h => by
    cases us <;> simp [sameAll] at h
    rw [eq_of_same t _ h.1, eq_of_sameAll ts _ h.2]

end

instance : DecidableEq Tree := fun t u =>
  if h : same t u = true then .isTrue (eq_of_same t u h)
  else .isFalse fun e => h (e ▸ same_self t)

/-- The tree is an assertion. -/
def isLook : Tree → Bool
  | .look _ => true
  | _ => false

end Tree

end Munch
