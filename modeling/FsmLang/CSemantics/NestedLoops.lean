import Mathlib.Data.List.Basic
import Mathlib.Tactic
import FsmLang.CSemantics.Loops

set_option relaxedAutoImplicit false
set_option autoImplicit false

/-!
# Nested event loops

Event loops that form a tree. Each loop handles the events it owns, passes those that are owned
within it to the loop next on the way, and ends with any other event, which its caller goes on
with. A loop may be closed: it discards what it would pass on.

Whatever the depth, this is one loop over all owners: an event goes straight to its owner, unless a
loop on the way is closed. A loop on the way does not change as long as it is waiting.

## Main definitions

* `LoopTree` — the owners of events, and what they do.
* `LoopTree.Runs` — a run of one loop of the tree, with the runs of those within it.
* `LoopTree.flat` — the one loop.

## Main results

* `LoopTree.Runs.exists_after` — a nested run is a stretch of the flat one.
* `LoopTree.exists_runs_iff_returns` — the outermost loop and the flat loop return the same.
-/

namespace CSemantics

variable {W E : Type*}

/-- A tree of event loops. A loop is named by its path from the outermost one. What an owner does
does not close or open another loop. -/
structure LoopTree (W E : Type*) where
  owner : E → Option (List ℕ)
  handle : List ℕ → W → E → Option (W × E)
  closed : List ℕ → W → Bool
  quiet : E
  owner_quiet : owner quiet = none
  closed_handle : ∀ p w e r q, handle p w e = some r → q ≠ p → closed q r.1 = closed q w

namespace LoopTree

variable (T : LoopTree W E)

/-- The loop at a path, called with an event in some world: the world in which it ends, and the
event it ends with. -/
inductive Runs : List ℕ → W → E → W → E → Prop
  | leave {p : List ℕ} {w : W} {e : E} (ho : ∀ q, T.owner e ≠ some (p ++ q)) : Runs p w e w e
  | handle {p : List ℕ} {w w₁ w' : W} {e e₁ e' : E} (ho : T.owner e = some p)
      (hh : T.handle p w e = some (w₁, e₁)) (h : Runs p w₁ e₁ w' e') : Runs p w e w' e'
  | discard {p q : List ℕ} {k : ℕ} {w : W} {e : E} (ho : T.owner e = some (p ++ k :: q))
      (hc : T.closed p w = true) : Runs p w e w T.quiet
  | pass {p q : List ℕ} {k : ℕ} {w w₁ w' : W} {e e₁ e' : E} (ho : T.owner e = some (p ++ k :: q))
      (hc : T.closed p w = false) (hin : Runs (p ++ [k]) w e w₁ e₁) (h : Runs p w₁ e₁ w' e') :
      Runs p w e w' e'

/-- Some loop on the way to the one at `p` is closed. -/
def closedOnTheWay (p : List ℕ) (w : W) : Bool :=
  (List.range p.length).any fun i => T.closed (p.take i) w

/-- One loop over all owners. -/
def flat : WhileLoop (W × E) W where
  cond f := (T.owner f.2).isSome
  body f := (T.owner f.2).elim (some f) fun p =>
    if T.closedOnTheWay p f.1 then some (f.1, T.quiet) else T.handle p f.1 f.2
  finish f := some f.1

variable {T}

/-! ## Closed loops -/

/-- The way to a machine is open if no machine on it is closed. -/
lemma closedOnTheWay_eq_false_iff {p : List ℕ} {w : W} :
    T.closedOnTheWay p w = false ↔ ∀ q k r, p = q ++ k :: r → T.closed q w = false := by
  simp only [closedOnTheWay, List.any_eq_false, List.mem_range, Bool.not_eq_true]
  constructor
  · rintro h q k r rfl
    simpa using h q.length (by simp)
  · intro h i hi
    exact h (p.take i) p[i] (p.drop (i + 1)) (by rw [List.getElem_cons_drop, List.take_append_drop])

/-- The loops on the way to a loop within another are those on the way to it, and the loop
itself. -/
lemma closedOnTheWay_append_singleton {p : List ℕ} {k : ℕ} {w : W}
    (h : T.closedOnTheWay p w = false) (hc : T.closed p w = false) :
    T.closedOnTheWay (p ++ [k]) w = false := by
  rw [closedOnTheWay_eq_false_iff] at h ⊢
  intro q j r heq
  rcases List.eq_nil_or_concat' r with rfl | ⟨r, i, rfl⟩
  · obtain ⟨rfl, -⟩ := List.append_inj' heq rfl
    exact hc
  · rw [← List.cons_append, ← List.append_assoc] at heq
    obtain ⟨rfl, -⟩ := List.append_inj' heq rfl
    exact h q j r rfl

/-- A closed machine closes the way to all below it. -/
lemma closedOnTheWay_of_closed {p q : List ℕ} {k : ℕ} {w : W} (hc : T.closed p w = true) :
    T.closedOnTheWay (p ++ k :: q) w = true := by
  rw [← Bool.not_eq_false]
  intro h
  have := closedOnTheWay_eq_false_iff.mp h p k q rfl
  simp [hc] at this

/-- What the owner at the end of a way does leaves the way open. -/
lemma closedOnTheWay_of_handle {p : List ℕ} {w : W} {e : E} {r : W × E}
    (hh : T.handle p w e = some r) (hopen : T.closedOnTheWay p w = false) :
    T.closedOnTheWay p r.1 = false := by
  rw [closedOnTheWay_eq_false_iff] at hopen ⊢
  intro q k t hp
  rw [T.closed_handle p w e r q hh fun hq => by simpa using hq.trans hp, hopen q k t hp]

/-- A run of a loop changes nothing about loops that are not within it. -/
lemma Runs.closed_eq {p : List ℕ} {w w' : W} {e e' : E} (h : T.Runs p w e w' e') {q : List ℕ}
    (hq : ¬ p <+: q) : T.closed q w' = T.closed q w := by
  induction h with
  | leave => rfl
  | @handle p w w₁ w' e e₁ e' ho hh _ ih =>
    rw [ih hq]
    exact T.closed_handle _ _ _ _ _ hh fun heq => hq (heq ▸ List.prefix_rfl)
  | discard => rfl
  | pass ho hc _ _ ih₁ ih₂ =>
    rw [ih₂ hq, ih₁ fun hpre => hq ((List.prefix_append _ _).trans hpre)]

/-- The loops on the way to a loop stay open while it runs. -/
lemma Runs.closedOnTheWay_eq_false {p : List ℕ} {w w' : W} {e e' : E} (h : T.Runs p w e w' e')
    {q : List ℕ} (hq : q <+: p) (hopen : T.closedOnTheWay q w = false) :
    T.closedOnTheWay q w' = false := by
  rw [closedOnTheWay_eq_false_iff] at hopen ⊢
  rintro r k t rfl
  rw [h.closed_eq, hopen r k t rfl]
  intro hpr
  have hlen := (hq.trans hpr).length_le
  simp at hlen

/-! ## One loop over all owners -/

/-- A pass of the flat loop with an event that has an owner. -/
lemma flat_pass_of_owner {p : List ℕ} {w : W} {e : E} (ho : T.owner e = some p) :
    T.flat.pass (w, e) =
      (if T.closedOnTheWay p w then some (w, T.quiet) else T.handle p w e).elim .stuck .running := by
  rw [WhileLoop.pass_of_cond (by simp [flat, ho])]
  simp [flat, ho]

/-- The flat loop returns at an event without an owner. -/
lemma flat_pass_of_owner_eq_none {w : W} {e : E} (ho : T.owner e = none) :
    T.flat.pass (w, e) = .returned w := by
  rw [WhileLoop.pass_of_not_cond (by simp [flat, ho])]
  rfl

/-- Owners that do the same with their events make the same run. -/
lemma flat_returns_iff_of_handle {T R : LoopTree W E} (howner : T.owner = R.owner)
    (hclosed : T.closed = R.closed) (hquiet : T.quiet = R.quiet)
    (hhandle : ∀ w e p, T.owner e = some p → T.handle p w e = R.handle p w e) (f : W × E)
    (w : W) : T.flat.Returns (.running f) w ↔ R.flat.Returns (.running f) w := by
  have hway : T.closedOnTheWay = R.closedOnTheWay := by
    funext p w
    simp only [closedOnTheWay, hclosed]
  have hpass : ∀ f, R.flat.pass f = T.flat.pass f := by
    intro f
    obtain ⟨w, e⟩ := f
    cases ho : T.owner e with
    | none =>
      rw [flat_pass_of_owner_eq_none ho, flat_pass_of_owner_eq_none (howner ▸ ho)]
    | some p =>
      rw [flat_pass_of_owner ho, flat_pass_of_owner (howner ▸ ho), hhandle w e p ho, hquiet, hway]
  have hafter := WhileLoop.after_eq_of_step_eq (L := T.flat) (M := R.flat) (o := .running f)
    fun _ s _ => hpass s
  simp only [WhileLoop.Returns, hafter]

/-- The outermost loop ends with an event without owner only. -/
lemma owner_eq_none {e : E} (h : ∀ q, T.owner e ≠ some ([] ++ q)) : T.owner e = none := by
  cases ho : T.owner e with
  | none => rfl
  | some q => exact absurd ho (h q)

/-- With such an event the flat loop returns its world. -/
lemma eq_of_after_of_owner_eq_none {w v : W} {e : E} (ho : T.owner e = none) {j : ℕ}
    (hj : T.flat.after j (.running (w, e)) = .returned v) : v = w := by
  cases j with
  | zero => cases hj
  | succ j =>
    rw [WhileLoop.after_succ, WhileLoop.advance_running, flat_pass_of_owner_eq_none ho,
      WhileLoop.after_returned] at hj
    exact (Outcome.returned.inj hj).symm

/-- **From nested to flat.** A run of a loop to which the way is open is a stretch of the flat loop,
which goes on with the event the loop has ended with. -/
theorem Runs.exists_after {p : List ℕ} {w w' : W} {e e' : E} (h : T.Runs p w e w' e')
    (hopen : T.closedOnTheWay p w = false) :
    (∃ j, T.flat.after j (.running (w, e)) = .running (w', e')) ∧
      ∀ q, T.owner e' ≠ some (p ++ q) := by
  induction h with
  | leave ho => exact ⟨⟨0, rfl⟩, ho⟩
  | @handle p w w₁ w' e e₁ e' ho hh hrun ih =>
    have hstep : T.flat.pass (w, e) = .running (w₁, e₁) := by
      rw [flat_pass_of_owner ho, hopen, if_neg (by simp), hh, Option.elim_some]
    obtain ⟨⟨j, hj⟩, hend⟩ := ih (closedOnTheWay_of_handle hh hopen)
    refine ⟨⟨j + 1, ?_⟩, hend⟩
    rw [WhileLoop.after_succ, WhileLoop.advance_running, hstep, hj]
  | @discard p q k w e ho hc =>
    refine ⟨⟨1, ?_⟩, fun q => by simp [T.owner_quiet]⟩
    rw [WhileLoop.after_succ, WhileLoop.advance_running, flat_pass_of_owner ho,
      if_pos (closedOnTheWay_of_closed hc)]
    rfl
  | @pass p q k w w₁ w' e e₁ e' ho hc hin hrun ih₁ ih₂ =>
    obtain ⟨⟨i, hi⟩, -⟩ := ih₁ (closedOnTheWay_append_singleton hopen hc)
    obtain ⟨⟨j, hj⟩, hend⟩ :=
      ih₂ (hin.closedOnTheWay_eq_false (List.prefix_append p [k]) hopen)
    refine ⟨⟨j + i, ?_⟩, hend⟩
    rw [WhileLoop.after_add, hi, hj]

/-- What the flat loop returns comes from some loop of the tree, with a run of it first that takes
at least one pass. -/
lemma exists_runs_of_after (j : ℕ) (q : List ℕ) {p : List ℕ} {w v : W} {e : E}
    (ho : T.owner e = some (p ++ q)) (hopen : T.closedOnTheWay p w = false)
    (hj : T.flat.after j (.running (w, e)) = .returned v) :
    ∃ w' e' i, T.Runs p w e w' e' ∧ i < j ∧ T.flat.after i (.running (w', e')) = .returned v := by
  induction j using Nat.strong_induction_on generalizing q p w e with
  | _ j ihj =>
  -- what the loop does with the event it gets next
  have hnext : ∀ i < j, ∀ p w e, T.closedOnTheWay p w = false →
      T.flat.after i (.running (w, e)) = .returned v →
      ∃ w' e' i', T.Runs p w e w' e' ∧ i' ≤ i ∧
        T.flat.after i' (.running (w', e')) = .returned v := by
    intro i hij p w e hopen hi
    by_cases hown : ∃ q, T.owner e = some (p ++ q)
    · obtain ⟨q, ho⟩ := hown
      obtain ⟨w', e', i', hrun, hlt, hi'⟩ := ihj i hij q ho hopen hi
      exact ⟨w', e', i', hrun, hlt.le, hi'⟩
    · exact ⟨w, e, i, .leave fun q ho => hown ⟨q, ho⟩, le_rfl, hi⟩
  induction q generalizing p w e with
  | nil =>
    rw [List.append_nil] at ho
    obtain ⟨j, rfl⟩ : ∃ k, j = k + 1 := by
      cases j with
      | zero => cases hj
      | succ k => exact ⟨k, rfl⟩
    rw [WhileLoop.after_succ, WhileLoop.advance_running, flat_pass_of_owner ho, hopen,
      if_neg (by simp)] at hj
    cases hh : T.handle p w e with
    | none => simp [hh] at hj
    | some r =>
      obtain ⟨w₁, e₁⟩ := r
      rw [hh, Option.elim_some] at hj
      obtain ⟨w', e', i, hrun, hi, hret⟩ := hnext j (Nat.lt_succ_self j) p w₁ e₁
        (closedOnTheWay_of_handle hh hopen) hj
      exact ⟨w', e', i, .handle ho hh hrun, by omega, hret⟩
  | cons k q ihq =>
    cases hc : T.closed p w with
    | true =>
      obtain ⟨j, rfl⟩ : ∃ k, j = k + 1 := by
        cases j with
        | zero => cases hj
        | succ k => exact ⟨k, rfl⟩
      rw [WhileLoop.after_succ, WhileLoop.advance_running, flat_pass_of_owner ho,
        if_pos (closedOnTheWay_of_closed hc), Option.elim_some] at hj
      exact ⟨w, T.quiet, j, .discard ho hc, by omega, hj⟩
    | false =>
      have ho' : T.owner e = some ((p ++ [k]) ++ q) := by
        rw [ho, List.append_assoc, List.singleton_append]
      obtain ⟨w₁, e₁, i, hin, hi, hret⟩ :=
        ihq ho' (closedOnTheWay_append_singleton hopen hc) hj
      obtain ⟨w', e', i', hrun, hi', hret'⟩ := hnext i hi p w₁ e₁
        (hin.closedOnTheWay_eq_false (List.prefix_append p [k]) hopen) hret
      exact ⟨w', e', i', .pass ho hc hin hrun, by omega, hret'⟩

/-- **Nested loops are one loop.** The outermost loop ends in a world exactly if the flat loop
returns it. -/
theorem exists_runs_iff_returns (w : W) (e : E) (w' : W) :
    (∃ e', T.Runs [] w e w' e') ↔ T.flat.Returns (.running (w, e)) w' := by
  have hopen : T.closedOnTheWay [] w = false := rfl
  constructor
  · rintro ⟨e', hrun⟩
    obtain ⟨⟨j, hj⟩, hend⟩ := hrun.exists_after hopen
    refine ⟨1 + j, ?_⟩
    rw [WhileLoop.after_add, hj, WhileLoop.after_succ, WhileLoop.advance_running,
      flat_pass_of_owner_eq_none (owner_eq_none hend), WhileLoop.after_zero]
  · rintro ⟨j, hj⟩
    cases ho : T.owner e with
    | none =>
      obtain rfl := eq_of_after_of_owner_eq_none ho hj
      exact ⟨e, .leave fun q => by simp [ho]⟩
    | some q =>
      obtain ⟨w₁, e₁, i, hrun, -, hi⟩ := exists_runs_of_after j q (p := []) ho hopen hj
      obtain ⟨-, hend⟩ := hrun.exists_after hopen
      obtain rfl := eq_of_after_of_owner_eq_none (owner_eq_none hend) hi
      exact ⟨e₁, hrun⟩

end LoopTree

end CSemantics
