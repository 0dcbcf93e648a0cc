import Mathlib.Data.List.Nodup
import Mathlib.Data.List.Range
import Mathlib.Tactic
import FsmLang.ActionArray
import FsmLang.HandledEvents

set_option relaxedAutoImplicit false
set_option autoImplicit false

/-!
# Capturing a machine

`capture_machine` takes over what has been parsed of a machine: it makes checks, makes and fills
the action array, and computes which share of the events each state handles, which share of the
states handles each event, and the averages of both. Errors are reported and the routine goes on.

A machine must declare states or events, and need not declare both. The shares are divided by
the numbers of events and states all the same.

## Main definitions

* `MachineBody` — what has been parsed.
* `captureMachine` — the routine, with the faults that end the program.
* `MachineBody.StaysInTable` — no cell outside the table is stored in.
* `Capture.WithinBounds` — all densities are between 0 and 100.

## Main results

* `handlingNoted_populateActionArray` — which events a state handles, after a walk without error.
* `length_peventsHandled_le`, `length_phandlingStates_le` — and how many.
* `captureMachine_right_iff` — when the routine ends, with densities within their bounds.
-/

namespace FsmLang

open CSemantics

section Capture

variable {ε σ : Type*} [DecidableEq ε] [DecidableEq σ]

/-! ## What has been parsed -/

/-- A parsed machine. An identifier that its entries name and that it does not declare is
`noTransition`, whose order is -1, or `noEvent`, whose order is -1 if the machine's actions return
events and 0 if only its translators do. -/
structure MachineBody (ε σ : Type*) extends MachineMatrix ε σ where
  noEventMarked : Bool
  hasParent : Bool
  hasData : Bool
  hasTranslator : ε → Bool
  hasDataBlock : ε → Bool
  translatorsReturnEvents : Bool

/-- What ends the program. -/
inductive Fault where
  | divisionByZero
  | outsideTable
  deriving DecidableEq, Repr

/-- What has been computed of a machine. -/
structure Capture (ε σ : Type*) where
  actionArray : ActionArray ε σ
  eventDensityPct : σ → ℕ
  stateDensityPct : ε → ℕ
  averageStateEventDensityPct : ℕ
  averageEventStateDensityPct : ℕ
  error : Bool

/-! ## Capturing -/

/-- The sanity checks. -/
def MachineBody.sanityError (M : MachineBody ε σ) (namesOnly : Bool) : Bool :=
  let dataTranslatorCount := M.eventList.countP M.hasTranslator
  let dataBlockCount := M.eventList.countP M.hasDataBlock
  (M.hasParent && decide (dataBlockCount ≠ 0) && !namesOnly) ||
    (decide (dataTranslatorCount ≠ 0) && !M.hasData && !namesOnly && !M.translatorsReturnEvents)

/-- `allocateActionArray` fails without states or without events. -/
def MachineBody.allocateActionArray (M : MachineBody ε σ) : Bool :=
  decide (M.stateList.length = 0 ∨ M.eventList.length = 0)

/-- The row and the column of the cell for an event and a state. -/
def MachineMatrix.cellOrder (M : MachineMatrix ε σ) (x : (ε × σ) × ℕ) : ℕ × ℕ :=
  (M.eventOrder x.1.1, M.stateOrder x.1.2)

/-- The cell for an event and a state is in the table. -/
def MachineBody.inTable (M : MachineBody ε σ) (x : (ε × σ) × ℕ) : Bool :=
  decide (x.1.1 ∈ M.eventList ∨ M.noEventMarked = false ∧ M.eventList ≠ []) &&
    decide (x.1.2 ∈ M.stateList)

/-- The walk over the cells that the entries name ends at the first one that has been filled
before; up to there all cells are in the table. -/
def MachineBody.staysInTable (M : MachineBody ε σ) (filled : List (ℕ × ℕ)) :
    List ((ε × σ) × ℕ) → Bool
  | [] => true
  | x :: xs =>
    if M.inTable x = false then false
    else if M.cellOrder x ∈ filled then true
    else M.staysInTable (M.cellOrder x :: filled) xs

/-- Unsigned division. -/
def divide (a b : ℕ) : Except Fault ℕ :=
  if b = 0 then .error .divisionByZero else .ok (a / b)

/-- The callback for the density of one state or one event, which handles `handled a` of `count`,
and for the sum of all densities. -/
def densityStep {α : Type*} [DecidableEq α] (handled : α → ℕ) (count : ℕ) (D : (α → ℕ) × ℕ) (a : α) :
    Except Fault ((α → ℕ) × ℕ) :=
  (divide (100 * handled a % 2 ^ 32) count).bind fun pct =>
    .ok (Function.update D.1 a pct, (D.2 + pct) % 2 ^ 32)

/-- `compute_state_density_pct_and_average`. -/
def computeStateDensityPctAndAverage (M : MachineBody ε σ) (A : ActionArray ε σ) :
    (σ → ℕ) × ℕ → σ → Except Fault ((σ → ℕ) × ℕ) :=
  densityStep (fun s => (A.peventsHandled s).length) M.eventList.length

/-- `compute_event_density_pct_and_average`. -/
def computeEventDensityPctAndAverage (M : MachineBody ε σ) (A : ActionArray ε σ) :
    (ε → ℕ) × ℕ → ε → Except Fault ((ε → ℕ) × ℕ) :=
  densityStep (fun e => (A.phandlingStates e).length) M.stateList.length

/-- `compute_event_and_state_density_pct`, for a machine with the errors reported so far. -/
def computeEventAndStateDensityPct (M : MachineBody ε σ) (A : ActionArray ε σ) (error : Bool) :
    Except Fault (Capture ε σ) :=
  (M.stateList.foldlM (computeStateDensityPctAndAverage M A) (fun _ => 0, 0)).bind fun states =>
    (M.eventList.foldlM (computeEventDensityPctAndAverage M A) (fun _ => 0, 0)).bind fun events =>
      (divide states.2 M.stateList.length).bind fun averageState =>
        (divide events.2 M.eventList.length).bind fun averageEvent =>
          .ok ⟨A, states.1, events.1, averageState, averageEvent, error⟩

/-- `capture_machine`. -/
def captureMachine (M : MachineBody ε σ) (namesOnly : Bool) : Except Fault (Capture ε σ) :=
  let A := populateActionArray M.toMachineMatrix
  if M.staysInTable [] (namedCells M.toMachineMatrix) then
    computeEventAndStateDensityPct M A
      (M.sanityError namesOnly || M.allocateActionArray || A.error)
  else .error .outsideTable

/-- Every cell that the entries name after none that is named twice is in the table. -/
def MachineBody.StaysInTable (M : MachineBody ε σ) : Prop :=
  ∀ l x r, namedCells M.toMachineMatrix = l ++ x :: r → (l.map M.cellOrder).Nodup →
    M.inTable x = true

/-- All densities are between 0 and 100. -/
structure Capture.WithinBounds (M : MachineBody ε σ) (C : Capture ε σ) : Prop where
  eventDensityPct : ∀ s ∈ M.stateList, C.eventDensityPct s ≤ 100
  stateDensityPct : ∀ e ∈ M.eventList, C.stateDensityPct e ≤ 100
  averageState : C.averageStateEventDensityPct ≤ 100
  averageEvent : C.averageEventStateDensityPct ≤ 100

/-! ## Which events a state handles -/

/-- The notes of which state handles which event, when exactly the cells in `done` are filled. -/
structure HandlingNoted (M : MachineMatrix ε σ) (done : List ((ε × σ) × ℕ)) (A : ActionArray ε σ) :
    Prop where
  nodup : (done.map M.cellOrder).Nodup
  cell : ∀ i j, (A.cell i j).isSome = true ↔ (i, j) ∈ done.map M.cellOrder
  handled : ∀ s, ∀ e ∈ A.peventsHandled s, ∃ idx, ((e, s), idx) ∈ done
  handling : ∀ e, ∀ s ∈ A.phandlingStates e, ∃ idx, ((e, s), idx) ∈ done
  nodup_handled : ∀ s, (A.peventsHandled s).Nodup
  nodup_handling : ∀ e, (A.phandlingStates e).Nodup
  error : A.error = false

/-- Only the table, the notes and the error flag count. -/
lemma HandlingNoted.congr {M : MachineMatrix ε σ} {done : List ((ε × σ) × ℕ)}
    {A B : ActionArray ε σ} (h : HandlingNoted M done A) (hcell : B.cell = A.cell)
    (hhandled : B.peventsHandled = A.peventsHandled)
    (hhandling : B.phandlingStates = A.phandlingStates) (herror : B.error = false) :
    HandlingNoted M done B :=
  ⟨h.nodup, by rw [hcell]; exact h.cell, by rw [hhandled]; exact h.handled,
    by rw [hhandling]; exact h.handling, by rw [hhandled]; exact h.nodup_handled,
    by rw [hhandling]; exact h.nodup_handling, herror⟩

/-- One state of an entry, for one event. -/
private lemma stepSpec_handlingNoted {M : MachineMatrix ε σ} (idx : ℕ) (pai : ActionInfo ε σ)
    (e : ε)
    (s : σ) (done : List ((ε × σ) × ℕ)) (A : ActionArray ε σ) (h : HandlingNoted M done A) :
    StepSpec (HandlingNoted M) (fun _ => True) (fun A => A.error = true) done [((e, s), idx)]
      (addToActionArray M idx pai e A s) := by
  cases hcell : A.cell (M.eventOrder e) (M.stateOrder s) with
  | some idx' => exact ⟨by simp [addToActionArray, hcell], by simp [addToActionArray, hcell],
      fun _ _ => trivial⟩
  | none =>
    have herror : (addToActionArray M idx pai e A s).1.error = false := by
      simp [addToActionArray, hcell, h.error]
    have hfalse : (addToActionArray M idx pai e A s).2 = false := by
      simp [addToActionArray, hcell, h.error]
    have hnew : M.cellOrder ((e, s), idx) ∉ done.map M.cellOrder := by
      intro hmem
      have hsome := (h.cell _ _).mpr hmem
      rw [hcell] at hsome
      cases hsome
    obtain ⟨hhandled, hhandling, -⟩ := addToActionArray_notes M idx pai e A s hcell
    refine ⟨fun _ => ⟨?_, ?_, ?_, ?_, ?_, ?_, herror⟩, by simp [hfalse], fun _ _ => trivial⟩
    · rw [List.map_append]
      exact List.nodup_append.mpr ⟨h.nodup, by simp, fun x hx y hy hxy => by
        obtain rfl : y = M.cellOrder ((e, s), idx) := by simpa using hy
        exact hnew (hxy ▸ hx)⟩
    · intro i j
      have hupdate : (addToActionArray M idx pai e A s).1.cell =
          Function.update A.cell (M.eventOrder e)
            (Function.update (A.cell (M.eventOrder e)) (M.stateOrder s) (some idx)) := by
        simp [addToActionArray, hcell]
      rw [hupdate, List.map_append, List.mem_append, ← h.cell]
      by_cases hi : i = M.eventOrder e
      · by_cases hj : j = M.stateOrder s
        · simp [hi, hj, MachineMatrix.cellOrder]
        · simp [hi, hj, MachineMatrix.cellOrder]
      · simp [hi, MachineMatrix.cellOrder]
    · intro s' e' he'
      rw [hhandled, mem_addUniqueAt] at he'
      rcases he' with he' | ⟨rfl, rfl⟩
      · obtain ⟨idx', hmem⟩ := h.handled s' e' he'
        exact ⟨idx', List.mem_append_left _ hmem⟩
      · exact ⟨idx, by simp⟩
    · intro e' s' hs'
      rw [hhandling, mem_addUniqueAt] at hs'
      rcases hs' with hs' | ⟨rfl, rfl⟩
      · obtain ⟨idx', hmem⟩ := h.handling e' s' hs'
        exact ⟨idx', List.mem_append_left _ hmem⟩
      · exact ⟨idx, by simp⟩
    · rw [hhandled]
      exact nodup_addUniqueAt h.nodup_handled s e
    · rw [hhandling]
      exact nodup_addUniqueAt h.nodup_handling e s

/-- All states of an entry, for one event. -/
private lemma stepSpec_handlingNoted_event {M : MachineMatrix ε σ} (pai : ActionInfo ε σ × ℕ)
    (e : ε)
    (done : List ((ε × σ) × ℕ)) (A : ActionArray ε σ) (h : HandlingNoted M done A) :
    StepSpec (HandlingNoted M) (fun _ => True) (fun A => A.error = true) done
      (namedByEvent M pai e) (iterateMatrixStates M pai.2 pai.1 A e) := by
  have hbegin : HandlingNoted M done (beginEvent A pai.2 e) := h.congr rfl rfl rfl rfl
  have hwalk := StepSpec.iterate (M.expandStates pai.1)
    (fun s _ done A hA => stepSpec_handlingNoted pai.2 pai.1 e s done A hA) done _ hbegin
  rw [← List.map_eq_flatMap] at hwalk
  obtain ⟨hhandled, hhandling, -⟩ := endEvent_notes M
    (iterate (addToActionArray M pai.2 pai.1 e) (beginEvent A pai.2 e) (M.expandStates pai.1)).1 e
  exact StepSpec.report (fun _ _ hA => hA.error) hwalk (fun hr => hr.congr (endEvent_cell _ _ _)
    hhandled hhandling (by rw [endEvent_error]; exact hr.error)) (endEvent_error _ _ _)

/-- **Which events a state handles.** After a walk without error no cell has been named twice, and
what is noted are events and states of cells that are named. -/
theorem handlingNoted_populateActionArray {M : MachineMatrix ε σ}
    (hno : (populateActionArray M).error = false) :
    HandlingNoted M (namedCells M) (populateActionArray M) := by
  have hfresh : HandlingNoted M [] (ActionArray.fresh : ActionArray ε σ) :=
    ⟨by simp, by simp [ActionArray.fresh], by simp [ActionArray.fresh], by simp [ActionArray.fresh],
      by simp [ActionArray.fresh], by simp [ActionArray.fresh], rfl⟩
  have hwalk := StepSpec.iterate M.actionInfoList.zipIdx (fun pai _ done A hA => by
    have hevents := StepSpec.iterate (M.expandEvents pai.1)
      (fun e _ done A hA => stepSpec_handlingNoted_event pai e done A hA) done A hA
    exact StepSpec.report (fun _ _ hA => hA.error) hevents id rfl) [] _ hfresh
  cases h : (iterate (processActionInfo M) ActionArray.fresh M.actionInfoList.zipIdx).2 with
  | false => exact hwalk.good h
  | true =>
    have herror : (populateActionArray M).error = true := hwalk.failed h
    rw [hno] at herror
    cases herror

omit [DecidableEq ε] [DecidableEq σ] in
/-- As many different numbers as are below a bound. -/
lemma length_le_of_lt {α : Type*} {l : List α} {f : α → ℕ} {n : ℕ} (hnd : (l.map f).Nodup)
    (hlt : ∀ a ∈ l, f a < n) : l.length ≤ n := by
  have hsub : l.map f ⊆ List.range n := by
    intro i hi
    obtain ⟨a, ha, rfl⟩ := List.mem_map.mp hi
    exact List.mem_range.mpr (hlt a ha)
  have hle := (List.subperm_of_subset hnd hsub).length_le
  simpa using hle

/-- The cell order of what has been filled tells cells apart. -/
lemma HandlingNoted.inj {M : MachineMatrix ε σ} {done : List ((ε × σ) × ℕ)} {A : ActionArray ε σ}
    (h : HandlingNoted M done A) {x y : (ε × σ) × ℕ} (hx : x ∈ done) (hy : y ∈ done)
    (hxy : M.cellOrder x = M.cellOrder y) : x = y :=
  List.inj_on_of_nodup_map h.nodup hx hy hxy

/-- A cell in the table has its row and its column there. -/
lemma MachineBody.order_lt_of_inTable {M : MachineBody ε σ} {x : (ε × σ) × ℕ}
    (h : M.inTable x = true) :
    M.eventOrder x.1.1 < M.eventList.length ∧ M.stateOrder x.1.2 < M.stateList.length := by
  rw [MachineBody.inTable, Bool.and_eq_true, decide_eq_true_eq, decide_eq_true_eq] at h
  refine ⟨?_, enumeratePidList_lt h.2⟩
  by_cases hx : x.1.1 ∈ M.eventList
  · exact enumeratePidList_lt hx
  · -- `noEvent` with order 0
    obtain ⟨-, hne⟩ := h.1.resolve_left hx
    rw [MachineMatrix.eventOrder, enumeratePidList_of_notMem hx]
    exact List.length_pos_of_ne_nil hne

/-- After a walk without error, which has stayed in the table, all cells are in it. -/
lemma HandlingNoted.inTable {M : MachineBody ε σ} {A : ActionArray ε σ}
    (h : HandlingNoted M.toMachineMatrix (namedCells M.toMachineMatrix) A) (hM : M.StaysInTable)
    {x : (ε × σ) × ℕ} (hx : x ∈ namedCells M.toMachineMatrix) : M.inTable x = true := by
  obtain ⟨l, r, hlr⟩ := List.append_of_mem hx
  refine hM l x r hlr ?_
  have hnd := h.nodup
  rw [hlr, List.map_append] at hnd
  exact (List.nodup_append.mp hnd).1

/-- A state handles at most as many events as there are. -/
lemma length_peventsHandled_le {M : MachineBody ε σ} {A : ActionArray ε σ}
    (h : HandlingNoted M.toMachineMatrix (namedCells M.toMachineMatrix) A) (hM : M.StaysInTable)
    (s : σ) : (A.peventsHandled s).length ≤ M.eventList.length := by
  refine length_le_of_lt (f := M.eventOrder) ?_ ?_
  · refine List.Nodup.map_on (fun e he e' he' hee => ?_) (h.nodup_handled s)
    obtain ⟨idx, hx⟩ := h.handled s e he
    obtain ⟨idx', hy⟩ := h.handled s e' he'
    have hsame := h.inj hx hy (by simp [MachineMatrix.cellOrder, hee])
    exact congrArg (fun x => x.1.1) hsame
  · intro e he
    obtain ⟨idx, hx⟩ := h.handled s e he
    exact (MachineBody.order_lt_of_inTable (h.inTable hM hx)).1

/-- At most as many states as there are handle an event. -/
lemma length_phandlingStates_le {M : MachineBody ε σ} {A : ActionArray ε σ}
    (h : HandlingNoted M.toMachineMatrix (namedCells M.toMachineMatrix) A) (hM : M.StaysInTable)
    (e : ε) : (A.phandlingStates e).length ≤ M.stateList.length := by
  refine length_le_of_lt (f := M.stateOrder) ?_ ?_
  · refine List.Nodup.map_on (fun s hs s' hs' hss => ?_) (h.nodup_handling e)
    obtain ⟨idx, hx⟩ := h.handling e s hs
    obtain ⟨idx', hy⟩ := h.handling e s' hs'
    have hsame := h.inj hx hy (by simp [MachineMatrix.cellOrder, hss])
    exact congrArg (fun x => x.1.2) hsame
  · intro s hs
    obtain ⟨idx, hx⟩ := h.handling e s hs
    exact (MachineBody.order_lt_of_inTable (h.inTable hM hx)).2

/-! ## The densities -/

/-- Where the walk can get to. -/
private lemma staysInTable_eq_true_iff {M : MachineBody ε σ} {filled : List (ℕ × ℕ)}
    {cells : List ((ε × σ) × ℕ)} :
    M.staysInTable filled cells = true ↔ ∀ l x r, cells = l ++ x :: r →
      (l.map M.cellOrder).Nodup → (∀ y ∈ l, M.cellOrder y ∉ filled) → M.inTable x = true := by
  induction cells generalizing filled with
  | nil => simp [MachineBody.staysInTable]
  | cons c cells ih =>
    rw [MachineBody.staysInTable]
    cases hc : M.inTable c with
    | false =>
      simp only [if_true, Bool.false_eq_true, false_iff, not_forall]
      exact ⟨[], c, cells, rfl, by simp, by simp, by simp [hc]⟩
    | true =>
      simp only [Bool.true_eq_false, if_false]
      by_cases hfilled : M.cellOrder c ∈ filled
      · simp only [hfilled, if_true, true_iff]
        intro l x r hlr _ hnew
        cases l with
        | nil =>
          obtain ⟨rfl, -⟩ := List.cons.inj hlr
          exact hc
        | cons d l =>
          obtain ⟨rfl, -⟩ := List.cons.inj hlr
          exact absurd hfilled (hnew c (by simp))
      · rw [if_neg hfilled, ih]
        constructor
        · intro h l x r hlr hnd hnew
          cases l with
          | nil =>
            obtain ⟨rfl, -⟩ := List.cons.inj hlr
            exact hc
          | cons d l =>
            obtain ⟨rfl, hrest⟩ := List.cons.inj hlr
            obtain ⟨hd, hnd⟩ := List.nodup_cons.mp hnd
            refine h l x r hrest hnd fun y hy hmem => ?_
            rcases List.mem_cons.mp hmem with heq | hmem
            · exact hd (heq ▸ List.mem_map_of_mem hy)
            · exact hnew y (List.mem_cons_of_mem c hy) hmem
        · intro h l x r hlr hnd hnew
          refine h (c :: l) x r (by rw [hlr, List.cons_append]) ?_ ?_
          · refine List.nodup_cons.mpr ⟨fun hmem => ?_, hnd⟩
            obtain ⟨y, hy, hyc⟩ := List.mem_map.mp hmem
            exact hnew y hy (by rw [hyc]; exact List.mem_cons_self)
          · refine List.forall_mem_cons.mpr ⟨hfilled, fun y hy hmem => ?_⟩
            exact hnew y hy (List.mem_cons_of_mem _ hmem)

/-- The walk stays in the table exactly if the machine does. -/
lemma staysInTable_iff (M : MachineBody ε σ) :
    M.staysInTable [] (namedCells M.toMachineMatrix) = true ↔ M.StaysInTable := by
  rw [staysInTable_eq_true_iff, MachineBody.StaysInTable]
  simp

/-- A division has a result unless the divisor is zero. -/
@[simp] lemma divide_eq_ok_iff {a b c : ℕ} : divide a b = .ok c ↔ b ≠ 0 ∧ c = a / b := by
  unfold divide
  split_ifs with h
  · simp [h]
  · simp [h, eq_comm]

omit [DecidableEq ε] [DecidableEq σ] in
/-- A loop over all states or all events, each of which handles at most `count`. -/
lemma exists_foldlM_densityStep {α : Type*} [DecidableEq α] (handled : α → ℕ) {count : ℕ}
    (hcount : count ≠ 0) (l : List α) (D : (α → ℕ) × ℕ) :
    ∃ D', l.foldlM (densityStep handled count) D = .ok D' ∧ ((∀ a, handled a ≤ count) →
      (∀ a ∈ l, D'.1 a ≤ 100) ∧ (∀ a ∉ l, D'.1 a = D.1 a) ∧ D'.2 ≤ D.2 + 100 * l.length) := by
  induction l generalizing D with
  | nil => exact ⟨D, rfl, fun _ => by simp⟩
  | cons b l ih =>
    have hstep : densityStep handled count D b =
        .ok (Function.update D.1 b (100 * handled b % 2 ^ 32 / count),
          (D.2 + 100 * handled b % 2 ^ 32 / count) % 2 ^ 32) := by
      rw [densityStep, divide_eq_ok_iff.mpr ⟨hcount, rfl⟩]
      rfl
    obtain ⟨D', hfold, hbounds⟩ :=
      ih (Function.update D.1 b (100 * handled b % 2 ^ 32 / count),
        (D.2 + 100 * handled b % 2 ^ 32 / count) % 2 ^ 32)
    refine ⟨D', by rw [List.foldlM_cons, hstep]; exact hfold, fun hle => ?_⟩
    obtain ⟨hin, hout, htotal⟩ := hbounds hle
    have hpct : 100 * handled b % 2 ^ 32 / count ≤ 100 := by
      have hmod := Nat.mod_le (100 * handled b) (2 ^ 32)
      have hmul := Nat.mul_le_mul_left 100 (hle b)
      exact Nat.div_le_of_le_mul (by linarith)
    dsimp only at hout htotal
    refine ⟨fun a ha => ?_, fun a ha => ?_, ?_⟩
    · by_cases hal : a ∈ l
      · exact hin a hal
      · obtain rfl : a = b := (List.mem_cons.mp ha).resolve_right hal
        rw [hout a hal, Function.update_self]
        exact hpct
    · rw [List.mem_cons, not_or] at ha
      rw [hout a ha.2, Function.update_of_ne ha.1]
    · have hmod := Nat.mod_le (D.2 + 100 * handled b % 2 ^ 32 / count) (2 ^ 32)
      rw [List.length_cons]
      omega

/-- The computation ends only if there are states and events. -/
private lemma ne_nil_of_computeEventAndStateDensityPct {M : MachineBody ε σ} {A : ActionArray ε σ}
    {error : Bool} {C : Capture ε σ} (h : computeEventAndStateDensityPct M A error = .ok C) :
    M.eventList ≠ [] ∧ M.stateList ≠ [] := by
  unfold computeEventAndStateDensityPct at h
  cases hs : M.stateList.foldlM (computeStateDensityPctAndAverage M A) (fun _ => 0, 0) with
  | error fault => rw [hs] at h; cases h
  | ok states =>
    cases he : M.eventList.foldlM (computeEventDensityPctAndAverage M A) (fun _ => 0, 0) with
    | error fault => rw [hs, he] at h; cases h
    | ok events =>
      cases has : divide states.2 M.stateList.length with
      | error fault => rw [hs, he] at h; simp [Except.bind, has] at h
      | ok averageState =>
        cases hae : divide events.2 M.eventList.length with
        | error fault => rw [hs, he] at h; simp [Except.bind, has, hae] at h
        | ok averageEvent =>
          have hstates := (divide_eq_ok_iff.mp has).1
          have hevents := (divide_eq_ok_iff.mp hae).1
          exact ⟨fun hnil => hevents (by simp [hnil]), fun hnil => hstates (by simp [hnil])⟩

/-- With states and events it ends, and the densities are within their bounds if no state handles
more events than there are, and the other way round. -/
lemma exists_computeEventAndStateDensityPct {M : MachineBody ε σ} (hevents : M.eventList ≠ [])
    (hstates : M.stateList ≠ []) (A : ActionArray ε σ) (error : Bool) :
    ∃ C, computeEventAndStateDensityPct M A error = .ok C ∧ C.error = error ∧
      ((∀ s, (A.peventsHandled s).length ≤ M.eventList.length) →
        (∀ e, (A.phandlingStates e).length ≤ M.stateList.length) → C.WithinBounds M) := by
  have hevents : M.eventList.length ≠ 0 := fun h => hevents (List.length_eq_zero_iff.mp h)
  have hstates : M.stateList.length ≠ 0 := fun h => hstates (List.length_eq_zero_iff.mp h)
  obtain ⟨states, hs, hsbounds⟩ := exists_foldlM_densityStep
    (fun s => (A.peventsHandled s).length) hevents M.stateList (fun _ => 0, 0)
  obtain ⟨events, he, hebounds⟩ := exists_foldlM_densityStep
    (fun e => (A.phandlingStates e).length) hstates M.eventList (fun _ => 0, 0)
  refine ⟨⟨A, states.1, events.1, states.2 / M.stateList.length, events.2 / M.eventList.length,
    error⟩, ?_, rfl, fun hhandled hhandling => ?_⟩
  · unfold computeEventAndStateDensityPct computeStateDensityPctAndAverage
      computeEventDensityPctAndAverage
    rw [hs, he]
    simp only [Except.bind]
    rw [divide_eq_ok_iff.mpr ⟨hstates, rfl⟩, divide_eq_ok_iff.mpr ⟨hevents, rfl⟩]
  · obtain ⟨hspct, -, hstotal⟩ := hsbounds hhandled
    obtain ⟨hepct, -, hetotal⟩ := hebounds hhandling
    exact ⟨hspct, hepct, Nat.div_le_of_le_mul (by dsimp only at hstotal; linarith),
      Nat.div_le_of_le_mul (by dsimp only at hetotal; linarith)⟩

/-- **Densities.** For every machine body, `capture_machine` comes to its end, and with densities
between 0 and 100 if no error has been reported, if and only if the machine has events and states,
and the entries name no cell outside the table before a cell that is named twice.

**Proof sketch.** A state handles an event for each of its cells that is filled, so with different
orders for different cells there are at most as many as events. The sums of percentages are divided
by the numbers that the percentages were added up for. -/
theorem captureMachine_right_iff (M : MachineBody ε σ) (namesOnly : Bool) :
    (∃ C, captureMachine M namesOnly = .ok C ∧ (C.error = false → C.WithinBounds M)) ↔
      M.eventList ≠ [] ∧ M.stateList ≠ [] ∧ M.StaysInTable := by
  simp only [captureMachine]
  constructor
  · rintro ⟨C, hC, -⟩
    split_ifs at hC with htable
    obtain ⟨hevents, hstates⟩ := ne_nil_of_computeEventAndStateDensityPct hC
    exact ⟨hevents, hstates, (staysInTable_iff M).mp htable⟩
  · rintro ⟨hevents, hstates, htable⟩
    rw [if_pos ((staysInTable_iff M).mpr htable)]
    obtain ⟨C, hC, herror, hbounds⟩ := exists_computeEventAndStateDensityPct hevents hstates
      (populateActionArray M.toMachineMatrix) (M.sanityError namesOnly || M.allocateActionArray ||
        (populateActionArray M.toMachineMatrix).error)
    refine ⟨C, hC, fun hno => ?_⟩
    rw [herror, Bool.or_eq_false_iff] at hno
    have hnoted := handlingNoted_populateActionArray hno.2
    exact hbounds (length_peventsHandled_le hnoted htable) (length_phandlingStates_le hnoted htable)

end Capture

/-- A machine that declares one state, no event, and a sub-machine. -/
def withoutEvents : MachineBody ℕ ℕ where
  eventList := []
  stateList := [0]
  consumedByTranslator := fun _ => false
  implementedBySubMachine := fun _ => false
  actionInfoList := []
  noEventMarked := true
  hasParent := false
  hasData := false
  hasTranslator := fun _ => false
  hasDataBlock := fun _ => false
  translatorsReturnEvents := false

/-- Its state's density is divided by the number of events. -/
theorem not_captureMachine_withoutEvents :
    captureMachine withoutEvents false = .error .divisionByZero ∧
      ¬ ∃ C, captureMachine withoutEvents false = .ok C ∧
        (C.error = false → C.WithinBounds withoutEvents) := by
  have hfault : captureMachine withoutEvents false = .error .divisionByZero := rfl
  refine ⟨hfault, ?_⟩
  rintro ⟨C, hC, -⟩
  rw [hfault] at hC
  cases hC

end FsmLang
