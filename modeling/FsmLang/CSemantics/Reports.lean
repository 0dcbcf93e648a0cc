import Mathlib.Data.List.Basic
import Mathlib.Data.List.Nodup
import Mathlib.Tactic

set_option relaxedAutoImplicit false
set_option autoImplicit false

/-!
# Steps that report errors and go on

A reader takes one item after the other into its state. It reports what is wrong with an item, and
takes it in all the same. What matters in the end is whether anything has been reported.

## Main definitions

* `reportRun` — the state after all items, and all reports.

## Main results

* `reportRun_eq_nil_iff` — items that may each come once.
-/

namespace CSemantics

section Reports

variable {κ α μ ι : Type*}

/-- The state after some items, and what has been reported, in order. -/
def reportRun (step : κ → α → κ × List μ) : κ → List α → κ × List μ
  | k, [] => (k, [])
  | k, a :: l =>
    let rest := reportRun step (step k a).1 l
    (rest.1, (step k a).2 ++ rest.2)

variable {step : κ → α → κ × List μ}

/-- Nothing is reported on nothing. -/
@[simp] lemma reportRun_nil (k : κ) : reportRun step k [] = (k, []) := rfl

/-- What is kept of a list, one item at a time. -/
lemma reportRun_cons_fst (k : κ) (a : α) (l : List α) :
    (reportRun step k (a :: l)).1 = (reportRun step (step k a).1 l).1 := rfl

/-- Nothing is reported exactly if nothing is at the first item and at those behind it. -/
@[simp] lemma reportRun_cons_snd_eq_nil (k : κ) (a : α) (l : List α) :
    (reportRun step k (a :: l)).2 = [] ↔
      (step k a).2 = [] ∧ (reportRun step (step k a).1 l).2 = [] := by
  rw [reportRun, List.append_eq_nil_iff]

/-- **Each once.** Items have a kind. The state has a flag for each kind, which an item of this kind
sets, and reports if it is set; besides, an item may be wrong in itself. Then nothing is reported if
and only if no item is wrong in itself and at most one item of each kind comes, none if its flag is
set at first. -/
lemma reportRun_eq_nil_iff {kind : α → ι} {flag : κ → ι → Prop} {ok : α → Prop}
    (hreport : ∀ k a, (step k a).2 = [] ↔ ok a ∧ ¬ flag k (kind a))
    (hflag : ∀ k a i, flag (step k a).1 i ↔ flag k i ∨ kind a = i) (k : κ) (l : List α) :
    (reportRun step k l).2 = [] ↔
      (∀ a ∈ l, ok a) ∧ (l.map kind).Nodup ∧ ∀ a ∈ l, ¬ flag k (kind a) := by
  induction l generalizing k with
  | nil => simp
  | cons a l ih =>
    rw [reportRun_cons_snd_eq_nil, hreport, ih, List.map_cons, List.nodup_cons,
      List.forall_mem_cons, List.forall_mem_cons]
    simp only [hflag, not_or, List.mem_map, not_exists, not_and, forall_and]
    constructor
    · rintro ⟨⟨hok, hfirst⟩, hall, hnodup, hrest, hkinds⟩
      exact ⟨⟨hok, hall⟩, ⟨fun b hb hkind => hkinds b hb hkind.symm, hnodup⟩, hfirst, hrest⟩
    · rintro ⟨⟨hok, hall⟩, ⟨hkinds, hnodup⟩, hfirst, hrest⟩
      exact ⟨⟨hok, hfirst⟩, hall, hnodup, hrest, fun b hb hkind => hkinds b hb hkind.symm⟩

end Reports

end CSemantics
