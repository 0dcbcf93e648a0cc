import Mathlib.Data.List.Basic
import Mathlib.Tactic

set_option relaxedAutoImplicit false
set_option autoImplicit false

/-!
# Runs

A step function takes a world and an input to the next world; a run is a fold over a list of
inputs. What holds of the steps of a run is said of the world before a step and of its input.

## Main definitions

* `EachStep` — a property of all steps of a run.
* `sideBySide` — two systems that get the same inputs.
* `EachReturns`, `EachMet` — runs of steps that may fail to return, with a property of all worlds
  reached, and with a condition on all steps.

## Main results

* `eachStep_congr` — properties that are the same where an invariant holds are the same of runs.
* `eachStep_sideBySide` — a simulation gives a property of all steps of two systems.
* `eachReturns_iff` — the property holds of a run if and only if the condition does.
-/

namespace CSemantics

variable {ω ι : Type*}

/-- All steps of a run have the property. -/
def EachStep (step : ω → ι → ω) (Q : ω → ι → Prop) (w : ω) : List ι → Prop
  | [] => True
  | i :: is => Q w i ∧ EachStep step Q (step w i) is

variable {step : ω → ι → ω} {Q R : ω → ι → Prop} {I : ω → Prop} {P : ι → Prop}

/-- A run without steps. -/
@[simp] lemma eachStep_nil (w : ω) : EachStep step Q w [] := trivial

/-- A run, one step at a time. -/
@[simp] lemma eachStep_cons {w : ω} {i : ι} {is : List ι} :
    EachStep step Q w (i :: is) ↔ Q w i ∧ EachStep step Q (step w i) is := Iff.rfl

/-- Properties that are the same where an invariant holds, which steps with the second one
preserve. -/
lemma eachStep_congr (hiff : ∀ w i, I w → P i → (Q w i ↔ R w i))
    (hstep : ∀ w i, I w → P i → R w i → I (step w i)) {w : ω} (hw : I w) {is : List ι}
    (his : ∀ i ∈ is, P i) : EachStep step Q w is ↔ EachStep step R w is := by
  induction is generalizing w with
  | nil => exact Iff.rfl
  | cons i is ih =>
    obtain ⟨hi, his⟩ := List.forall_mem_cons.mp his
    rw [eachStep_cons, eachStep_cons, hiff w i hw hi]
    exact and_congr_right fun hR => ih (hstep w i hw hi hR) his

/-- A property of all steps taken with an invariant. -/
lemma eachStep_of_invariant (hQ : ∀ w i, I w → P i → Q w i)
    (hstep : ∀ w i, I w → P i → I (step w i)) {w : ω} (hw : I w) {is : List ι}
    (his : ∀ i ∈ is, P i) : EachStep step Q w is := by
  induction is generalizing w with
  | nil => trivial
  | cons i is ih =>
    obtain ⟨hi, his⟩ := List.forall_mem_cons.mp his
    exact ⟨hQ w i hw hi, ih (hstep w i hw hi) his⟩

/-- A property of all steps is decided step by step. -/
instance decidableEachStep [∀ w i, Decidable (Q w i)] :
    (w : ω) → (is : List ι) → Decidable (EachStep step Q w is)
  | _, [] => .isTrue trivial
  | w, i :: is =>
    have := decidableEachStep (step w i) is
    inferInstanceAs (Decidable (Q w i ∧ EachStep step Q (step w i) is))

/-! ## Two systems -/

variable {ω' : Type*} {step' : ω' → ι → ω'} {Sim : ω → ω' → Prop} {S : ω × ω' → ι → Prop}

/-- Two systems get the same inputs. -/
def sideBySide (step : ω → ι → ω) (step' : ω' → ι → ω') (w : ω × ω') (i : ι) : ω × ω' :=
  (step w.1 i, step' w.2 i)

/-- A relation that steps with a property preserve, and a property of both systems that it gives. -/
lemma eachStep_sideBySide
    (hstep : ∀ w w' i, Sim w w' → Q w i → S (w, w') i ∧ Sim (step w i) (step' w' i)) {w : ω}
    {w' : ω'} (hw : Sim w w') {is : List ι} (h : EachStep step Q w is) :
    EachStep (sideBySide step step') S (w, w') is := by
  induction is generalizing w w' with
  | nil => trivial
  | cons i is ih =>
    obtain ⟨hS, hnext⟩ := hstep w w' i hw h.1
    exact ⟨hS, ih hnext h.2⟩

/-! ## Steps that may not return -/

section Returns

variable {next : ω → ι → ω → Prop} {R : ω → Prop}

/-- All steps of a run return, and the worlds they return have the property. -/
def EachReturns (next : ω → ι → ω → Prop) (R : ω → Prop) (w : ω) : List ι → Prop
  | [] => True
  | i :: is => ∃ w', next w i w' ∧ R w' ∧ EachReturns next R w' is

/-- All steps of a run meet the condition. -/
def EachMet (next : ω → ι → ω → Prop) (C : ω → ι → Prop) (w : ω) : List ι → Prop
  | [] => True
  | i :: is => C w i ∧ ∀ w', next w i w' → EachMet next C w' is

/-- A run whose first step is known. -/
lemma eachReturns_cons_iff (hunique : ∀ w i w' w'', next w i w' → next w i w'' → w' = w'')
    {w w' : ω}
    {i : ι} (h : next w i w') (is : List ι) :
    EachReturns next R w (i :: is) ↔ R w' ∧ EachReturns next R w' is := by
  constructor
  · rintro ⟨w'', hnext, hR, hrest⟩
    obtain rfl := hunique w i w' w'' h hnext
    exact ⟨hR, hrest⟩
  · rintro ⟨hR, hrest⟩
    exact ⟨w', h, hR, hrest⟩

/-- The condition is met in a run if it is in the first step and behind it. -/
lemma eachMet_cons_iff {C : ω → ι → Prop}
    (hunique : ∀ w i w' w'', next w i w' → next w i w'' → w' = w'') {w w' : ω} {i : ι}
    (h : next w i w') (is : List ι) :
    EachMet next C w (i :: is) ↔ C w i ∧ EachMet next C w' is := by
  constructor
  · rintro ⟨hC, hrest⟩
    exact ⟨hC, hrest w' h⟩
  · rintro ⟨hC, hrest⟩
    refine ⟨hC, fun w'' hnext => ?_⟩
    obtain rfl := hunique w i w' w'' h hnext
    exact hrest

/-- **Runs under a condition.** Where an invariant holds, steps with the condition return to the
invariant and to the property, and steps without it do not return to the property. -/
lemma eachReturns_iff {C : ω → ι → Prop}
    (hunique : ∀ w i w' w'', next w i w' → next w i w'' → w' = w'')
    (hgood : ∀ w i, I w → P i → C w i → ∃ w', next w i w' ∧ R w' ∧ I w')
    (hbad : ∀ w i w', I w → P i → next w i w' → R w' → C w i) {w : ω} (hw : I w) {is : List ι}
    (his : ∀ i ∈ is, P i) : EachReturns next R w is ↔ EachMet next C w is := by
  induction is generalizing w with
  | nil => exact Iff.rfl
  | cons i is ih =>
    obtain ⟨hi, his⟩ := List.forall_mem_cons.mp his
    constructor
    · rintro ⟨w', hnext, hR, hrest⟩
      have hC := hbad w i w' hw hi hnext hR
      obtain ⟨w₁, hnext₁, -, hI₁⟩ := hgood w i hw hi hC
      obtain rfl := hunique w i w' w₁ hnext hnext₁
      refine ⟨hC, fun w'' hnext'' => ?_⟩
      obtain rfl := hunique w i w' w'' hnext hnext''
      exact (ih hI₁ his).mp hrest
    · rintro ⟨hC, hrest⟩
      obtain ⟨w', hnext, hR, hI⟩ := hgood w i hw hi hC
      exact ⟨w', hnext, hR, (ih hI his).mpr (hrest w' hnext)⟩

end Returns

end CSemantics
