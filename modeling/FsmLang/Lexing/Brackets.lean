import Mathlib.Data.List.Basic
import Mathlib.Tactic

set_option relaxedAutoImplicit false
set_option autoImplicit false

/-!
# Balanced brackets

Words in which the brackets of one kind are balanced, by their grammar and by counting: the depth
never falls below that of the beginning, and comes back to it.

## Main definitions

* `Balanced` — the grammar.
* `depth` — the depth after a word.

## Main results

* `balanced_iff_depth` — a word is balanced if and only if the depth comes back to zero.
-/

namespace Lexing

variable {α : Type*} {o c : α}

/-- The brackets `o` and `c` are balanced. -/
inductive Balanced (o c : α) : List α → Prop
  | nil : Balanced o c []
  | other {a : α} {w : List α} (ho : a ≠ o) (hc : a ≠ c) (hw : Balanced o c w) :
      Balanced o c (a :: w)
  | group {u w : List α} (hu : Balanced o c u) (hw : Balanced o c w) :
      Balanced o c (o :: (u ++ c :: w))

variable [DecidableEq α]

/-- The depth after a word, from a depth before it. There is none if a bracket is closed that has
not been opened. -/
def depth (o c : α) : ℕ → List α → Option ℕ
  | d, [] => some d
  | d, a :: w =>
    if a = o then depth o c (d + 1) w
    else if a = c then if d = 0 then none else depth o c (d - 1) w
    else depth o c d w

/-- An opening bracket adds one to the depth. -/
@[simp] lemma depth_open (d : ℕ) (w : List α) : depth o c d (o :: w) = depth o c (d + 1) w :=
  if_pos rfl

/-- A closing bracket takes one off the depth. -/
lemma depth_close (h : c ≠ o) (d : ℕ) (w : List α) :
    depth o c (d + 1) (c :: w) = depth o c d w := by
  rw [depth, if_neg h, if_pos rfl, if_neg (Nat.succ_ne_zero d), Nat.add_sub_cancel]

/-- Another character leaves the depth alone. -/
lemma depth_other {a : α} (ho : a ≠ o) (hc : a ≠ c) (d : ℕ) (w : List α) :
    depth o c d (a :: w) = depth o c d w := by
  rw [depth, if_neg ho, if_neg hc]

/-- The depth of a text in two parts. -/
lemma depth_append (u w : List α) (d : ℕ) :
    depth o c d (u ++ w) = (depth o c d u).bind fun e => depth o c e w := by
  induction u generalizing d with
  | nil => rfl
  | cons a u ih =>
    rw [List.cons_append, depth, depth]
    split_ifs
    · exact ih (d + 1)
    · rfl
    · exact ih (d - 1)
    · exact ih d

/-- A balanced word leaves the depth as it is. -/
lemma Balanced.depth_eq (hne : c ≠ o) {w : List α} (h : Balanced o c w) (d : ℕ) :
    depth o c d w = some d := by
  induction h generalizing d with
  | nil => rfl
  | other ho hc _ ih => rw [depth_other ho hc, ih]
  | group _ _ ihu ihw => rw [depth_open, depth_append, ihu, Option.bind_some, depth_close hne, ihw]

/-- Balanced words with `d` brackets between them that close what has been opened before. -/
def Closing (o c : α) : ℕ → List α → Prop
  | 0, w => Balanced o c w
  | d + 1, w => ∃ u v, w = u ++ c :: v ∧ Balanced o c u ∧ Closing o c d v

omit [DecidableEq α] in
/-- Another character does not close the bracket. -/
lemma Closing.other {a : α} (ho : a ≠ o) (hc : a ≠ c) {d : ℕ} {w : List α}
    (h : Closing o c d w) : Closing o c d (a :: w) := by
  cases d with
  | zero => exact Balanced.other ho hc h
  | succ d =>
    obtain ⟨u, v, rfl, hu, hv⟩ := h
    exact ⟨a :: u, v, rfl, Balanced.other ho hc hu, hv⟩

omit [DecidableEq α] in
/-- An opening bracket has to be closed first. -/
lemma Closing.open {d : ℕ} {w : List α} (h : Closing o c (d + 1) w) : Closing o c d (o :: w) := by
  obtain ⟨u, v, rfl, hu, hv⟩ := h
  cases d with
  | zero => exact .group hu hv
  | succ d =>
    obtain ⟨u', v', rfl, hu', hv'⟩ := hv
    exact ⟨o :: (u ++ c :: u'), v', by simp, .group hu hu', hv'⟩

/-- A text that ends at depth zero closes the bracket. -/
lemma closing_of_depth {d : ℕ} {w : List α} (h : depth o c d w = some 0) : Closing o c d w := by
  induction w generalizing d with
  | nil =>
    obtain rfl := Option.some.inj h
    exact .nil
  | cons a w ih =>
    rw [depth] at h
    split_ifs at h with ho hc hd
    · subst ho
      exact (ih h).open
    · subst hc
      obtain ⟨d, rfl⟩ := Nat.exists_eq_succ_of_ne_zero hd
      exact ⟨[], w, rfl, .nil, ih h⟩
    · exact (ih h).other ho hc

/-- **Counting brackets.** -/
theorem balanced_iff_depth (hne : c ≠ o) {w : List α} :
    Balanced o c w ↔ depth o c 0 w = some 0 :=
  ⟨fun h => h.depth_eq hne 0, closing_of_depth⟩

end Lexing
