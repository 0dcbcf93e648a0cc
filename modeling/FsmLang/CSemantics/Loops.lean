import Mathlib.Logic.Function.Iterate
import Mathlib.Tactic

set_option relaxedAutoImplicit false
set_option autoImplicit false

/-!
# While loops

A function that consists of a `while` loop: a condition, a body, and what is done and returned
after the loop. The body and the end may fail to come back, by undefined behaviour or because
a function they call does not return. A run is watched pass by pass, so that nothing is said
about its ending beforehand.

## Main definitions

* `Outcome` — how a run stands: still in the loop, returned, or stuck.
* `WhileLoop` — condition, body and end; `WhileLoop.after` — the run after some passes.
* `WhileLoop.Returns`, `WhileLoop.Diverges` — the two ways a run can go on.
* `WhileLoop.RunsThrough` — a stretch of a run, with what holds in all states on the way.
* `WhileLoop.Extends` — a loop that comes back wherever another one does.

## Main results

* `WhileLoop.after_eq_of_step_eq` — loops that agree on every pass of one run agree on the run.
* `WhileLoop.exists_after_eq_of_steps` — a run whose passes each take one or more passes of
  another loop is followed by a run of that loop.
* `WhileLoop.exists_within_of_steps` — every state of that run is within one of those passes.
* `WhileLoop.after_of_invariant` — an invariant under which the loop goes on.
* `WhileLoop.Returns.exists_finish` — a run returns from a state in which the condition fails.
-/

namespace CSemantics

variable {σ ρ : Type*}

/-- How a run of a loop stands. -/
inductive Outcome (σ ρ : Type*) where
  | running (s : σ)
  | returned (r : ρ)
  | stuck
  deriving DecidableEq, Repr

/-- A `while` loop and the end of the function it is in. -/
structure WhileLoop (σ ρ : Type*) where
  cond : σ → Bool
  body : σ → Option σ
  finish : σ → Option ρ

namespace WhileLoop

/-- One pass: the condition, and then the body or the end of the function. -/
def pass (L : WhileLoop σ ρ) (s : σ) : Outcome σ ρ :=
  if L.cond s then (L.body s).elim .stuck .running else (L.finish s).elim .stuck .returned

/-- One more pass of a run. -/
def advance (L : WhileLoop σ ρ) : Outcome σ ρ → Outcome σ ρ
  | .running s => L.pass s
  | .returned r => .returned r
  | .stuck => .stuck

/-- A run after `k` more passes. -/
def after (L : WhileLoop σ ρ) (k : ℕ) : Outcome σ ρ → Outcome σ ρ := L.advance^[k]

/-- A run that returns `r`. -/
def Returns (L : WhileLoop σ ρ) (o : Outcome σ ρ) (r : ρ) : Prop :=
  ∃ k, L.after k o = .returned r

/-- A run that stays in the loop. -/
def Diverges (L : WhileLoop σ ρ) (o : Outcome σ ρ) : Prop :=
  ∀ k, ∃ s, L.after k o = .running s

variable {L M : WhileLoop σ ρ}

/-- No passes. -/
@[simp] lemma after_zero (L : WhileLoop σ ρ) (o : Outcome σ ρ) : L.after 0 o = o := rfl

/-- One pass first. -/
lemma after_succ (L : WhileLoop σ ρ) (k : ℕ) (o : Outcome σ ρ) :
    L.after (k + 1) o = L.after k (L.advance o) := rfl

/-- One pass last. -/
lemma after_succ' (L : WhileLoop σ ρ) (k : ℕ) (o : Outcome σ ρ) :
    L.after (k + 1) o = L.advance (L.after k o) :=
  Function.iterate_succ_apply' L.advance k o

/-- Passes after passes. -/
lemma after_add (L : WhileLoop σ ρ) (j k : ℕ) (o : Outcome σ ρ) :
    L.after (j + k) o = L.after j (L.after k o) :=
  Function.iterate_add_apply L.advance j k o

/-- A loop that runs makes a pass. -/
@[simp] lemma advance_running (L : WhileLoop σ ρ) (s : σ) : L.advance (.running s) = L.pass s :=
  rfl

/-- A run that has returned stays as it is. -/
@[simp] lemma after_returned (L : WhileLoop σ ρ) (k : ℕ) (r : ρ) :
    L.after k (.returned r) = .returned r :=
  Function.iterate_fixed rfl k

/-- A run that is stuck stays so. -/
@[simp] lemma after_stuck (L : WhileLoop σ ρ) (k : ℕ) : L.after k .stuck = .stuck :=
  Function.iterate_fixed rfl k

/-- A pass where the condition holds is one of the body. -/
lemma pass_of_cond {s : σ} (h : L.cond s = true) :
    L.pass s = (L.body s).elim .stuck .running := if_pos h

/-- A pass where it does not ends the loop. -/
lemma pass_of_not_cond {s : σ} (h : L.cond s = false) :
    L.pass s = (L.finish s).elim .stuck .returned := by
  rw [pass, h]
  rfl

/-- A pass that returns is the last one. -/
lemma after_succ_of_returned {s : σ} {r : ρ} (h : L.pass s = .returned r) (k : ℕ) :
    L.after (k + 1) (.running s) = .returned r := by
  rw [after_succ, advance_running, h, after_returned]

/-! ## Returning and diverging -/

/-- A run returns at most one result. -/
lemma Returns.unique {o : Outcome σ ρ} {r r' : ρ} (h : L.Returns o r) (h' : L.Returns o r') :
    r = r' := by
  obtain ⟨k, hk⟩ := h
  obtain ⟨k', hk'⟩ := h'
  have hadd := L.after_add k k' o
  rw [hk', after_returned, Nat.add_comm, after_add, hk, after_returned] at hadd
  exact Outcome.returned.inj hadd

/-- **Leaving the loop.** A run that returns does so after so many passes, from a state in which the
condition fails. -/
lemma Returns.exists_last {o : Outcome σ ρ} {r : ρ} (h : L.Returns o r)
    (ho : ∀ r, o ≠ .returned r) :
    ∃ k s, L.after k o = .running s ∧ L.cond s = false ∧ L.finish s = some r := by
  obtain ⟨k, hk⟩ := h
  induction k with
  | zero => exact absurd hk (ho r)
  | succ k ih =>
    rw [after_succ'] at hk
    cases hj : L.after k o with
    | returned r' =>
      rw [hj] at hk
      exact ih (hj.trans hk)
    | stuck =>
      rw [hj] at hk
      cases hk
    | running s =>
      rw [hj, advance_running] at hk
      cases hc : L.cond s with
      | true =>
        rw [pass_of_cond hc] at hk
        cases hb : L.body s <;> simp [hb] at hk
      | false =>
        rw [pass_of_not_cond hc] at hk
        cases hf : L.finish s with
        | none => simp [hf] at hk
        | some r' =>
          refine ⟨k, s, hj, hc, ?_⟩
          simpa [hf] using hk

/-- The state in which the condition fails. -/
lemma Returns.exists_finish {o : Outcome σ ρ} {r : ρ} (h : L.Returns o r)
    (ho : ∀ r, o ≠ .returned r) : ∃ s, L.cond s = false ∧ L.finish s = some r := by
  obtain ⟨-, s, -, hs⟩ := h.exists_last ho
  exact ⟨s, hs⟩

/-- A loop whose condition fails returns what the end of the function returns. -/
lemma returns_of_not_cond {s : σ} {r : ρ} (h : L.cond s = false) (hr : L.finish s = some r) :
    L.Returns (.running s) r := by
  refine ⟨1, ?_⟩
  rw [after_succ, advance_running, pass_of_not_cond h, hr]
  rfl

/-- A loop whose condition fails returns nothing else. -/
lemma returns_iff_of_not_cond {s : σ} (h : L.cond s = false) (r : ρ) :
    L.Returns (.running s) r ↔ L.finish s = some r := by
  constructor
  · intro hr
    cases hf : L.finish s with
    | none =>
      obtain ⟨k, hk⟩ := hr
      cases k with
      | zero => cases hk
      | succ k =>
        rw [after_succ, advance_running, pass_of_not_cond h, hf, Option.elim_none,
          after_stuck] at hk
        cases hk
    | some r' => rw [hr.unique (returns_of_not_cond h hf)]
  · exact returns_of_not_cond h

/-- A run returns what it returns after a pass of the body. -/
lemma returns_of_body {s t : σ} {r : ρ} (h : L.cond s = true) (ht : L.body s = some t)
    (hr : L.Returns (.running t) r) : L.Returns (.running s) r := by
  obtain ⟨k, hk⟩ := hr
  refine ⟨k + 1, ?_⟩
  rw [after_succ, advance_running, pass_of_cond h, ht]
  exact hk

/-- A run returns what it returns after a pass. -/
lemma returns_of_pass {s t : σ} {r : ρ} (h : L.pass s = .running t)
    (hr : L.Returns (.running t) r) : L.Returns (.running s) r := by
  obtain ⟨k, hk⟩ := hr
  refine ⟨k + 1, ?_⟩
  rw [after_succ, advance_running, h]
  exact hk

/-- And nothing else. -/
lemma returns_iff_pass (L : WhileLoop σ ρ) (s : σ) (r : ρ) :
    L.Returns (.running s) r ↔ L.Returns (L.pass s) r := by
  constructor
  · rintro ⟨k, hk⟩
    cases k with
    | zero => cases hk
    | succ k => exact ⟨k, hk⟩
  · rintro ⟨k, hk⟩
    exact ⟨k + 1, hk⟩

/-- A pass of the body does not change what a run returns. -/
lemma returns_iff_of_body {s t : σ} (h : L.cond s = true) (ht : L.body s = some t) (r : ρ) :
    L.Returns (.running s) r ↔ L.Returns (.running t) r := by
  constructor
  · intro hr
    obtain ⟨k, hk⟩ := hr
    cases k with
    | zero => cases hk
    | succ k =>
      rw [after_succ, advance_running, pass_of_cond h, ht] at hk
      exact ⟨k, hk⟩
  · exact returns_of_body h ht

/-- A run that stays in the loop does not return. -/
lemma Diverges.not_returns {o : Outcome σ ρ} (h : L.Diverges o) (r : ρ) : ¬ L.Returns o r := by
  intro hr
  obtain ⟨k, hk⟩ := hr
  obtain ⟨s, hs⟩ := h k
  rw [hk] at hs
  cases hs

/-- **Divergence by an invariant.** The run stays in the loop when, under an invariant that may
count the passes, the condition holds and the body comes back and keeps the invariant. -/
theorem after_of_invariant {I : ℕ → σ → Prop}
    (hstep : ∀ k s, I k s → L.cond s = true ∧ ∃ t, L.body s = some t ∧ I (k + 1) t) {s : σ}
    (hs : I 0 s) : ∀ k, ∃ t, L.after k (.running s) = .running t ∧ I k t := by
  intro k
  induction k with
  | zero => exact ⟨s, rfl, hs⟩
  | succ k ih =>
    obtain ⟨t, ht, hI⟩ := ih
    obtain ⟨hcond, u, hu, hIu⟩ := hstep k t hI
    refine ⟨u, ?_, hIu⟩
    rw [after_succ', ht, advance_running, pass_of_cond hcond, hu]
    rfl

/-- An invariant of the body holds whenever the run is in the loop. -/
lemma invariant_of_after {I : σ → Prop}
    (hstep : ∀ s t, I s → L.cond s = true → L.body s = some t → I t) {s : σ} (hs : I s) (k : ℕ)
    {t : σ} (ht : L.after k (.running s) = .running t) : I t := by
  induction k generalizing t with
  | zero =>
    obtain rfl := Outcome.running.inj ht
    exact hs
  | succ k ih =>
    rw [after_succ'] at ht
    cases hk : L.after k (.running s) with
    | returned r => simp [hk, advance] at ht
    | stuck => simp [hk, advance] at ht
    | running u =>
      rw [hk, advance_running, pass] at ht
      split_ifs at ht with hcond
      · cases hb : L.body u with
        | none => simp [hb] at ht
        | some v =>
          rw [hb, Option.elim_some] at ht
          obtain rfl := Outcome.running.inj ht
          exact hstep u v (ih hk) hcond hb
      · cases hf : L.finish u <;> simp [hf] at ht

/-- What a run returns, by an invariant of the body that the end turns into a property of the
result. -/
lemma of_after_eq_returned {I : σ → Prop} {J : ρ → Prop}
    (hbody : ∀ s t, I s → L.body s = some t → I t)
    (hfinish : ∀ s r, I s → L.finish s = some r → J r) {k : ℕ} {s : σ} (hs : I s) {r : ρ}
    (hr : L.after k (.running s) = .returned r) : J r := by
  induction k generalizing s with
  | zero => cases hr
  | succ k ih =>
    rw [after_succ, advance_running, pass] at hr
    split_ifs at hr with hcond
    · cases hb : L.body s with
      | none => simp [hb] at hr
      | some t =>
        rw [hb, Option.elim_some] at hr
        exact ih (hbody s t hs hb) hr
    · cases hf : L.finish s with
      | none => simp [hf] at hr
      | some r' =>
        rw [hf, Option.elim_some, after_returned] at hr
        obtain rfl := Outcome.returned.inj hr
        exact hfinish s r' hs hf

/-- A body that changes nothing while the condition holds. -/
lemma diverges_of_fixed {s : σ} (hcond : L.cond s = true) (hbody : L.body s = some s) :
    L.Diverges (.running s) := by
  intro k
  obtain ⟨t, ht, -⟩ := after_of_invariant (I := fun _ t => t = s)
    (by
      intro k t ht
      subst ht
      exact ⟨hcond, t, hbody, rfl⟩) rfl k
  exact ⟨t, ht⟩

/-! ## Comparing loops -/

/-- **Lockstep.** Two loops that agree on every state one of them reaches make the same run. -/
theorem after_eq_of_step_eq {o : Outcome σ ρ}
    (h : ∀ k s, L.after k o = .running s → M.pass s = L.pass s) (k : ℕ) :
    M.after k o = L.after k o := by
  induction k with
  | zero => rfl
  | succ k ih =>
    rw [after_succ', after_succ', ih]
    cases hk : L.after k o with
    | running s => exact h k s hk
    | returned r => rfl
    | stuck => rfl

/-- **Stuttering.** If every pass of a run is matched by one or more passes of another loop,
the other loop's run follows: it reaches all that the first one reaches, and takes at least as
many passes. -/
theorem exists_after_eq_of_steps {o : Outcome σ ρ}
    (h : ∀ k s, L.after k o = .running s → ∃ j, M.after (j + 1) (.running s) = L.pass s) (k : ℕ) :
    ∃ j, k ≤ j ∧ M.after j o = L.after k o := by
  induction k with
  | zero => exact ⟨0, le_rfl, rfl⟩
  | succ k ih =>
    obtain ⟨j, hkj, hj⟩ := ih
    cases hk : L.after k o with
    | running s =>
      obtain ⟨i, hi⟩ := h k s hk
      refine ⟨i + 1 + j, by omega, ?_⟩
      rw [after_add, hj, hk, hi, after_succ', hk, advance_running]
    | returned r =>
      refine ⟨j + 1, by omega, ?_⟩
      rw [after_succ', hj, hk, after_succ', hk]
      rfl
    | stuck =>
      refine ⟨j + 1, by omega, ?_⟩
      rw [after_succ', hj, hk, after_succ', hk]
      rfl

/-- Both runs return the same then. -/
lemma returns_iff_of_steps {o : Outcome σ ρ}
    (h : ∀ k s, L.after k o = .running s → ∃ j, M.after (j + 1) (.running s) = L.pass s) (r : ρ) :
    L.Returns o r ↔ M.Returns o r := by
  constructor
  · rintro ⟨k, hk⟩
    obtain ⟨j, -, hj⟩ := exists_after_eq_of_steps h k
    exact ⟨j, hj.trans hk⟩
  · rintro ⟨k, hk⟩
    obtain ⟨j, hkj, hj⟩ := exists_after_eq_of_steps h k
    refine ⟨k, hj.symm.trans ?_⟩
    rw [← Nat.sub_add_cancel hkj, after_add, hk, after_returned]

/-- The same for runs that stay within an invariant of the second loop. -/
lemma returns_iff_of_invariant {I : σ → Prop}
    (hI : ∀ s t, I s → M.cond s = true → M.body s = some t → I t)
    (h : ∀ s, I s → ∃ j, M.after (j + 1) (.running s) = L.pass s) {s : σ} (hs : I s) (r : ρ) :
    L.Returns (.running s) r ↔ M.Returns (.running s) r := by
  have hinv : ∀ k t, L.after k (.running s) = .running t → I t := by
    intro k
    induction k with
    | zero =>
      intro t ht
      obtain rfl := Outcome.running.inj ht
      exact hs
    | succ k ih =>
      intro t ht
      rw [after_succ'] at ht
      cases hk : L.after k (.running s) with
      | running u =>
        obtain ⟨j, hj⟩ := h u (ih u hk)
        rw [hk, advance_running, ← hj] at ht
        exact invariant_of_after hI (ih u hk) (j + 1) ht
      | returned r => simp [hk, advance] at ht
      | stuck => simp [hk, advance] at ht
  exact returns_iff_of_steps (fun k t ht => h t (hinv k t ht)) r

/-- A loop that does what another does as far as that one comes back. -/
structure Extends (M L : WhileLoop σ ρ) : Prop where
  cond : ∀ s, M.cond s = L.cond s
  body : ∀ s t, L.body s = some t → M.body s = some t
  finish : ∀ s r, L.finish s = some r → M.finish s = some r

/-- Such a loop returns what the other one returns. -/
lemma Extends.after_eq_returned (h : M.Extends L) {o : Outcome σ ρ} {r : ρ} {k : ℕ}
    (hk : L.after k o = .returned r) : M.after k o = .returned r := by
  induction k generalizing o with
  | zero => exact hk
  | succ k ih =>
    rw [after_succ] at hk ⊢
    cases o with
    | running s =>
      rw [advance_running] at hk ⊢
      cases hc : L.cond s with
      | true =>
        rw [pass_of_cond hc] at hk
        rw [pass_of_cond ((h.cond s).trans hc)]
        cases hb : L.body s with
        | none => simp [hb] at hk
        | some t =>
          rw [hb, Option.elim_some] at hk
          rw [h.body s t hb]
          exact ih hk
      | false =>
        rw [pass_of_not_cond hc] at hk
        rw [pass_of_not_cond ((h.cond s).trans hc)]
        cases hf : L.finish s with
        | none => simp [hf] at hk
        | some r' =>
          rw [hf, Option.elim_some] at hk
          rw [h.finish s r' hf]
          exact ih hk
    | returned r' => exact ih hk
    | stuck => exact ih hk

/-- An extension returns what the loop returns. -/
lemma Extends.returns (h : M.Extends L) {o : Outcome σ ρ} {r : ρ} (hr : L.Returns o r) :
    M.Returns o r := by
  obtain ⟨k, hk⟩ := hr
  exact ⟨k, h.after_eq_returned hk⟩

/-- A run comes to an outcome, and `I` holds in all states on the way. -/
inductive RunsThrough (M : WhileLoop σ ρ) (I : σ → Prop) : Outcome σ ρ → Outcome σ ρ → Prop where
  | refl (o : Outcome σ ρ) : RunsThrough M I o o
  | pass {s : σ} {o : Outcome σ ρ} (hs : I s) (h : RunsThrough M I (M.pass s) o) :
      RunsThrough M I (.running s) o

/-- What runs through to an outcome runs through to an equal one. -/
lemma RunsThrough.trans_eq {I : σ → Prop} {o o' o'' : Outcome σ ρ} (h : M.RunsThrough I o o')
    (ho : o' = o'') : M.RunsThrough I o o'' := ho ▸ h

/-- The passes of a stretch of a run. -/
lemma RunsThrough.exists_after {I : σ → Prop} {o o' : Outcome σ ρ} (h : M.RunsThrough I o o') :
    ∃ j, M.after j o = o' ∧ ∀ i < j, ∃ t, M.after i o = .running t ∧ I t := by
  induction h with
  | refl o => exact ⟨0, rfl, fun i hi => absurd hi (Nat.not_lt_zero i)⟩
  | @pass s o hs _ ih =>
    obtain ⟨j, hj, hway⟩ := ih
    refine ⟨j + 1, hj, ?_⟩
    intro i hi
    cases i with
    | zero => exact ⟨s, rfl, hs⟩
    | succ i => exact hway i (by omega)

/-- All states before the `j`-th pass are within passes of the loop `L`. -/
def CoveredUpTo (M L : WhileLoop σ ρ) (I : σ → σ → Prop) (o : Outcome σ ρ) (j : ℕ) : Prop :=
  ∀ i < j, ∀ t, M.after i o = .running t → ∃ n s, L.after n o = .running s ∧ I s t

/-- One more pass is covered if the state behind it is. -/
lemma CoveredUpTo.succ {I : σ → σ → Prop} {o : Outcome σ ρ} {j : ℕ} (h : M.CoveredUpTo L I o j)
    (hj : ∀ t, M.after j o = .running t → ∃ n s, L.after n o = .running s ∧ I s t) :
    M.CoveredUpTo L I o (j + 1) := by
  intro i hi t ht
  rcases Nat.lt_succ_iff_lt_or_eq.mp hi with hlt | rfl
  · exact h i hlt t ht
  · exact hj t ht

/-- **Stuttering, from below.** Where every pass of a run is matched by passes of another loop, all
states of that loop's run are within one of the passes. -/
theorem exists_within_of_steps {I : σ → σ → Prop} (hI : ∀ s, I s s) {s₀ : σ}
    (h : ∀ n s, L.after n (.running s₀) = .running s →
      M.RunsThrough (I s) (M.pass s) (L.pass s)) (k : ℕ) {t : σ}
    (ht : M.after k (.running s₀) = .running t) :
    ∃ n s, L.after n (.running s₀) = .running s ∧ I s t := by
  -- the induction is on the passes of `L`; the run of `M` is covered as far as the pass it has come to
  have hcover : ∀ n, ∃ j, n ≤ j ∧ M.after j (.running s₀) = L.after n (.running s₀) ∧
      M.CoveredUpTo L I (.running s₀) j := by
    intro n
    induction n with
    | zero => exact ⟨0, le_rfl, rfl, fun i hi => absurd hi (Nat.not_lt_zero i)⟩
    | succ n ih =>
      obtain ⟨j, hnj, hj, hway⟩ := ih
      cases hn : L.after n (.running s₀) with
      | running s =>
        rw [hn] at hj
        have hnext : M.CoveredUpTo L I (.running s₀) (j + 1) := hway.succ fun t ht => by
          obtain rfl := Outcome.running.inj (hj.symm.trans ht)
          exact ⟨n, s, hn, hI s⟩
        obtain ⟨i, hi, hway'⟩ := (h n s hn).exists_after
        refine ⟨i + 1 + j, by omega, ?_, ?_⟩
        · rw [after_add, hj, after_succ, advance_running, hi, after_succ', hn, advance_running]
        · intro i' hi' t ht
          rcases Nat.lt_or_ge i' (j + 1) with hlt | hge
          · exact hnext i' hlt t ht
          · obtain ⟨m, rfl⟩ : ∃ m, i' = m + 1 + j := ⟨i' - (j + 1), by omega⟩
            obtain ⟨t', ht', hIt'⟩ := hway' m (by omega)
            rw [after_add, hj, after_succ, advance_running, ht'] at ht
            obtain rfl := Outcome.running.inj ht
            exact ⟨n, s, hn, hIt'⟩
      | returned | stuck =>
        rw [hn] at hj
        refine ⟨j + 1, by omega, ?_, hway.succ fun t ht => by cases hj.symm.trans ht⟩
        rw [after_succ', hj, after_succ', hn]
        rfl
  obtain ⟨j, hkj, -, hway⟩ := hcover (k + 1)
  exact hway k (by omega) t ht

end WhileLoop

end CSemantics
