import Mathlib.Data.List.Basic
import Mathlib.Tactic
import FsmLang.GeneratedCode

set_option relaxedAutoImplicit false
set_option autoImplicit false

/-!
# The state functions and the event table

A flat machine generated with -ts has a function for each state and, before it, a handler for the
events that one entry handles in all states; generated with -te it has a handler for each event.

An event that an action of the all-states handler returns goes to the state function in the same
pass. The state function has no cases for the events of the all-states handler, so that such an
event is taken for one with an empty cell. Any other pass does what the cell says.

Where actions return nothing, the -te handlers print the call of the function for empty cells in
the wrong places: in the cells that have a transition only, and not in the default of the switch.

## Main definitions

* `HandsOn` — the all-states handler returns no event of its own.
* `EmptyCellsAgree` — the -te handler calls the function for empty cells where it should.

## Main results

* `stateFn_eq`, `allStatesHandler_of_single`, `eventHandler_eq` — what is printed does what the
  cells say.
* `exists_eventTable_after_eq_switch` — the runs of both machines.
-/

namespace FsmLang

open CSemantics

namespace AcceptedActions

variable {m : Machine} (D : AcceptedActions m) (U : UserCode m.StateIdx) (B : EventBounds)

/-- The action of an event handled in all states does not return another such event. -/
def HandsOn (w : World m.StateIdx) (e : ℤ) : Prop :=
  ∀ (i j : m.EventIdx) pai, B.eventValue i = some e →
    D.actionArray.singlePaiForAllStates i = true → D.cell i w.state = some pai →
    pai.action ≠ "" → B.eventValue j = some (U.action (w.trace ++ [.action pai.action])) →
    D.actionArray.singlePaiForAllStates j = false

/-- There is no function for empty cells, or the cell has an action, or one entry handles the
event in all states, or no state handles it. -/
def EmptyCellsAgree (w : World m.StateIdx) (e : ℤ) : Prop :=
  ∀ i : m.EventIdx, B.eventValue i = some e → D.emptyCellFn = none ∨
    (∃ pai, D.cell i w.state = some pai ∧ pai.action ≠ "") ∨
    D.actionArray.singlePaiForAllStates i = true ∨ ∀ s, D.cell i s = none

/-! ## The notes of a flat machine -/

section Notes

variable {D}

/-- A flat machine has no state that a sub-machine implements. -/
lemma implementingMachine_eq_none (hflat : m.machineList = []) (s : m.StateIdx) :
    D.implementingMachine s = none := by
  cases h : D.implementingMachine s with
  | none => rfl
  | some k => exact absurd k.isLt (by simp [hflat])

/-- The notes of a flat machine agree with its cells: ALL names all states. -/
lemma noted (hflat : m.machineList = []) (hstates : m.stateList ≠ []) :
    Noted D.matrix (namedCells D.matrix) D.actionArray := by
  have hne : List.finRange m.stateList.length ≠ [] := by
    simpa [List.finRange_eq_nil_iff] using hstates
  refine noted_populateActionArray D.declared (List.nodup_finRange _) hne ?_ D.populated
  intro pai _
  unfold MachineMatrix.expandStates
  split_ifs with hall
  · rw [List.filter_eq_self.mpr]
    · exact hne
    · intro s _
      simp [MachineActions.matrix, implementingMachine_eq_none hflat s]
  · exact hall

variable (hflat : m.machineList = []) (hstates : m.stateList ≠ [])

/-- The named cells are those with an entry. -/
lemma mem_namedCells_iff {i : m.EventIdx} {s : m.StateIdx} {idx : ℕ} :
    ((i, s), idx) ∈ namedCells D.matrix ↔ D.cellIdx i s = some idx := by
  rw [cellIdx, D.filled.cell_order (List.mem_finRange i) (List.mem_finRange s)]

include hflat hstates

/-- The events noted for a state are those with an entry there. -/
lemma mem_peventsHandled {i : m.EventIdx} {s : m.StateIdx} :
    i ∈ D.actionArray.peventsHandled s ↔ (D.cellIdx i s).isSome := by
  rw [(noted hflat hstates).handled, Option.isSome_iff_exists]
  simp only [mem_namedCells_iff]

/-- The states noted for an event are those with an entry for it. -/
lemma mem_phandlingStates {i : m.EventIdx} {s : m.StateIdx} :
    s ∈ D.actionArray.phandlingStates i ↔ (D.cellIdx i s).isSome := by
  rw [(noted hflat hstates).handling, Option.isSome_iff_exists]
  simp only [mem_namedCells_iff]

/-- **Events handled in all states** are those whose cells all hold one entry. -/
lemma singlePaiForAllStates_iff {i : m.EventIdx} :
    D.actionArray.singlePaiForAllStates i = true ↔ ∃ idx, ∀ s, D.cellIdx i s = some idx := by
  rw [(noted hflat hstates).single]
  simp only [mem_namedCells_iff]
  exact exists_congr fun idx => ⟨fun h s => h s (List.mem_finRange s), fun h s _ => h s⟩

/-- Events with one entry in some state are both handled in all states, or none of them is. -/
private lemma singlePaiForAllStates_congr {i j : m.EventIdx} {s : m.StateIdx}
    (hi : (D.cellIdx i s).isSome) (hij : D.cellIdx i s = D.cellIdx j s) :
    D.actionArray.singlePaiForAllStates i = D.actionArray.singlePaiForAllStates j := by
  have hone : ∀ i j : m.EventIdx, (D.cellIdx i s).isSome → D.cellIdx i s = D.cellIdx j s →
      D.actionArray.singlePaiForAllStates i = true →
      D.actionArray.singlePaiForAllStates j = true := by
    intro i j hi hij hsingle
    obtain ⟨idx, hall⟩ := (singlePaiForAllStates_iff hflat hstates).mp hsingle
    refine (singlePaiForAllStates_iff hflat hstates).mpr ⟨idx, ?_⟩
    -- the entry names the event `j`, and all states
    obtain ⟨pai, hpai, hj, -⟩ := D.cellIdx_eq_some_iff.mp (hij.symm.trans (hall s))
    intro t
    obtain ⟨pai', hpai', -, ht⟩ := D.cellIdx_eq_some_iff.mp (hall t)
    obtain rfl := Option.some.inj (hpai.symm.trans hpai')
    exact D.cellIdx_eq_some_iff.mpr ⟨pai, hpai, hj, ht⟩
  rw [Bool.eq_iff_iff]
  exact ⟨hone i j hi hij, hone j i (hij ▸ hi) hij.symm⟩

/-- The entry noted for an event handled in all states is that of its cells. -/
lemma singlePai_eq {i : m.EventIdx} (hsingle : D.actionArray.singlePaiForAllStates i = true)
    (s : m.StateIdx) : D.singlePai i = D.cell i s := by
  obtain ⟨idx, hall⟩ := (singlePaiForAllStates_iff hflat hstates).mp hsingle
  have hpsingle : D.actionArray.psinglePai i = some idx := by
    cases h : D.actionArray.psinglePai i with
    | none =>
      exact absurd (mem_namedCells_iff.mpr (hall s))
        ((noted hflat hstates).psinglePai_none i h s idx)
    | some idx' =>
      obtain ⟨t, ht⟩ := (noted hflat hstates).psinglePai_some i idx' h
      rw [← hall t, ← mem_namedCells_iff.mp ht]
  rw [singlePai, cell, hpsingle, hall s]

/-- An event that is handled in all states has an entry in every cell. -/
lemma exists_cell_of_single {i : m.EventIdx}
    (hsingle : D.actionArray.singlePaiForAllStates i = true) (s : m.StateIdx) :
    ∃ pai, D.cell i s = some pai ∧ pai ∈ D.actionInfoList := by
  obtain ⟨idx, hall⟩ := (singlePaiForAllStates_iff hflat hstates).mp hsingle
  exact D.exists_cell_of_cellIdx (hall s)

end Notes

/-! ## State functions -/

section Dispatch

variable {D U B} (hflat : m.machineList = []) (hstates : m.stateList ≠ [])
  (hplace : ∀ i : m.EventIdx, B.eventValue i = some ((i : ℕ) : ℤ))

/-- The labels of an event in a machine without ancestors. -/
lemma mem_caseLabels {i : m.EventIdx} {e : ℤ} :
    e ∈ D.caseLabels B (fun _ => []) i ↔ B.eventValue i = some e := by
  simp [caseLabels, Option.mem_toList]

include hplace in
/-- Different events have different values. -/
lemma eq_of_eventValue {i j : m.EventIdx} (h : B.eventValue j = some ((i : ℕ) : ℤ)) : j = i := by
  have := Option.some.inj ((hplace j).symm.trans h)
  exact Fin.ext (by omega)

include hflat hstates hplace

/-- **State functions** do what the cells say, for events that are not handled in all states. -/
lemma stateFn_eq {i : m.EventIdx} (w : World m.StateIdx)
    (hsingle : D.actionArray.singlePaiForAllStates i = false) :
    D.stateFn U B (fun _ => []) w (i : ℕ) =
      D.cellStep U B.noEvent (i : ℕ) (D.cell i w.state) w := by
  rw [stateFn, implementingMachine_eq_none hflat]
  have hunique : ∀ c : m.EventIdx, ((i : ℕ) : ℤ) ∈ D.caseLabels B (fun _ => []) c → c = i :=
    fun c hc => eq_of_eventValue hplace (mem_caseLabels.mp hc)
  cases hcell : D.cell i w.state with
  | none =>
    have hidx := D.cell_eq_none_iff.mp hcell
    have hnone : switchBody (D.stateFnCases B (fun _ => []) w.state) ((i : ℕ) : ℤ) = none := by
      apply switchBody_eq_none
      intro c hc hx
      obtain ⟨a, -, hprinted, hlabels⟩ := exists_of_mem_printCases hc
      obtain rfl := hunique a (hlabels ▸ hx)
      simp [hidx] at hprinted
    simp only [hnone, cellStep]
  | some pai =>
    have hidx : (D.cellIdx i w.state).isSome := by
      rw [Option.isSome_iff_ne_none]
      intro hnone
      simp [D.cell_eq_none_iff.mpr hnone] at hcell
    have hbody : switchBody (D.stateFnCases B (fun _ => []) w.state) ((i : ℕ) : ℤ) = some pai := by
      refine switchBody_printCases ((mem_peventsHandled hflat hstates).mpr hidx) ?_
        (mem_caseLabels.mpr (hplace i)) hcell (fun c _ _ hx => hunique c hx) ?_
      · simp [hsingle, hidx]
      · intro c hc d hd hkey
        have hc := (mem_peventsHandled hflat hstates).mp hc
        have hd := (mem_peventsHandled hflat hstates).mp hd
        refine ⟨?_, by rw [cell, cell, hkey]⟩
        rw [singlePaiForAllStates_congr hflat hstates hc hkey, hc, hd]
    simp only [hbody, cellStep]

omit hflat hstates in
/-- A state function has no case for an event that is handled in all states. -/
private lemma stateFn_of_single (hflat : m.machineList = [])
    (hart : m.artifactsImplementing = false)
    {i : m.EventIdx} (w : World m.StateIdx)
    (hsingle : D.actionArray.singlePaiForAllStates i = true) :
    D.stateFn U B (fun _ => []) w (i : ℕ) = D.cellStep U B.noEvent (i : ℕ) none w := by
  have hnone : switchBody (D.stateFnCases B (fun _ => []) w.state) ((i : ℕ) : ℤ) = none := by
    apply switchBody_eq_none
    intro c hc hx
    obtain ⟨a, -, hprinted, hlabels⟩ := exists_of_mem_printCases hc
    obtain rfl := eq_of_eventValue hplace (mem_caseLabels.mp (hlabels ▸ hx))
    simp [hsingle, hart] at hprinted
  rw [stateFn, implementingMachine_eq_none hflat]
  simp only [hnone, cellStep]

/-! ## The handler for all states -/

/-- **The all-states handler** does what the cells say. -/
lemma allStatesHandler_of_single {i : m.EventIdx} (w : World m.StateIdx)
    (hsingle : D.actionArray.singlePaiForAllStates i = true) :
    D.allStatesHandler U B w (i : ℕ) =
      if m.actionsReturn = .void then
        ((D.cellStep U B.noEvent (i : ℕ) (D.cell i w.state) w).1, none)
      else ((D.cellStep U B.noEvent (i : ℕ) (D.cell i w.state) w).1,
        if (D.cellStep U B.noEvent (i : ℕ) (D.cell i w.state) w).2 = B.noEvent then none
        else some (D.cellStep U B.noEvent (i : ℕ) (D.cell i w.state) w).2) := by
  obtain ⟨pai, hcell, hpai⟩ := exists_cell_of_single hflat hstates hsingle w.state
  obtain ⟨p, hp, rfl⟩ := exists_switchBody
    ((D.matrix.eventList.filter D.actionArray.singlePaiForAllStates).map
      fun i : m.EventIdx => Case.mk (B.eventValue i).toList (D.singlePai i))
    ((i : ℕ) : ℤ) (· = pai)
    (by
      refine ⟨_, List.mem_map_of_mem (List.mem_filter.mpr ⟨List.mem_finRange i, hsingle⟩), ?_⟩
      simp [hplace i])
    (by
      intro c hc hx
      obtain ⟨j, -, rfl⟩ := List.mem_map.mp hc
      obtain rfl := eq_of_eventValue hplace (show B.eventValue j = some ((i : ℕ) : ℤ) by
        simpa [Option.mem_toList] using hx)
      exact ⟨pai, by rw [singlePai_eq hflat hstates hsingle w.state, hcell], rfl⟩)
  have hhas := (noted hflat hstates).hasSingle i hsingle
  rw [allStatesHandler, if_pos hhas]
  simp only [hp, hcell, cellStep]
  cases m.actionsReturn with
  | void => rfl
  | events =>
    simp only [runEntry, D.runAction_isNone U hpai, reduceCtorEq, if_false]
    rfl
  | states =>
    simp only [runEntry, D.runAction_isNone U hpai, reduceCtorEq, if_false]
    rfl

/-! ## Event handlers -/

omit hplace in
/-- The switch of an event handler finds the cell of the state. -/
lemma switchBody_eventHandlerCases {i : m.EventIdx} (s : m.StateIdx) :
    switchBody (D.eventHandlerCases i) s = D.cell i s := by
  have hunique : ∀ c : m.StateIdx, s ∈ [c] → c = s := by
    intro c hc
    exact (List.mem_singleton.mp hc).symm
  cases hcell : D.cell i s with
  | none =>
    apply switchBody_eq_none
    intro c hc hx
    obtain ⟨a, ha, -, hlabels⟩ := exists_of_mem_printCases hc
    obtain rfl := hunique a (hlabels ▸ hx)
    obtain hidx := (mem_phandlingStates hflat hstates).mp ha
    simp [D.cell_eq_none_iff.mp hcell] at hidx
  | some pai =>
    have hidx : (D.cellIdx i s).isSome := by
      rw [Option.isSome_iff_ne_none]
      intro hnone
      simp [D.cell_eq_none_iff.mpr hnone] at hcell
    refine switchBody_printCases ((mem_phandlingStates hflat hstates).mpr hidx) rfl (by simp) hcell
      (fun c _ _ hx => hunique c hx) ?_
    intro c _ d _ hkey
    exact ⟨rfl, by rw [cell, cell, hkey]⟩

omit hplace in
/-- An event without handling states has empty cells only. -/
lemma cell_eq_none_of_isEmpty {i : m.EventIdx}
    (h : (D.actionArray.phandlingStates i).isEmpty = true) (s : m.StateIdx) :
    D.cell i s = none := by
  rw [D.cell_eq_none_iff, ← Option.not_isSome_iff_eq_none, ← mem_phandlingStates hflat hstates,
    List.isEmpty_iff.mp h]
  simp

/-- **Event handlers** do what the cells say, where actions return events. -/
lemma eventHandler_eq (hret : m.actionsReturn = .events) {i : m.EventIdx} (w : World m.StateIdx) :
    D.eventHandler U B i w = D.cellStep U B.noEvent (i : ℕ) (D.cell i w.state) w := by
  unfold eventHandler
  rw [hplace i, Option.getD_some]
  by_cases hsingle : D.actionArray.singlePaiForAllStates i = true
  · obtain ⟨pai, hcell, -⟩ := exists_cell_of_single hflat hstates hsingle w.state
    simp only [if_pos hsingle, singlePai_eq hflat hstates hsingle w.state, hcell, cellStep]
  · rw [if_neg hsingle]
    by_cases hempty : (D.actionArray.phandlingStates i).isEmpty = true
    · simp only [if_pos hempty, cell_eq_none_of_isEmpty hflat hstates hempty, cellStep]
    · rw [if_neg hempty, switchBody_eventHandlerCases hflat hstates, hret]
      cases hcell : D.cell i w.state with
      | none => simp only [cellStep]
      | some pai =>
        simp only [cellStep, runEntry, D.runAction_isNone U (D.mem_of_cell hcell)]

/-! ## Loops that return events -/

omit hflat hstates in
/-- The cell of an event. -/
private lemma cellCode_dispatch (w : World m.StateIdx) (i : m.EventIdx) :
    (D.cellCode U B).dispatch w (i : ℕ) =
      some (D.cellStep U B.noEvent (i : ℕ) (D.cell i w.state) w) := by
  have hfind : D.matrix.eventList.find?
      (fun j : m.EventIdx => B.eventValue j = some ((i : ℕ) : ℤ)) = some i := by
    cases h : D.matrix.eventList.find?
        (fun j : m.EventIdx => B.eventValue j = some ((i : ℕ) : ℤ)) with
    | none =>
      have hnot := List.find?_eq_none.mp h i (List.mem_finRange i)
      exact absurd (hplace i) (by simpa using hnot)
    | some j =>
      have hj : B.eventValue j = some ((i : ℕ) : ℤ) := by simpa using List.find?_some h
      rw [eq_of_eventValue hplace hj]
  simp only [cellCode, hfind, Option.map_some]

omit hstates in
/-- A pass of the cell loop. -/
lemma cellLoop_pass (hret : m.actionsReturn = .events) {i : m.EventIdx}
    (hi : ((i : ℕ) : ℤ) ≠ B.noEvent) (w : World m.StateIdx) (d : List (ℕ × ℤ)) :
    (D.cellLoop U B).pass ⟨w, (i : ℕ), d⟩ =
      .running ⟨(D.cellStep U B.noEvent (i : ℕ) (D.cell i w.state) w).1,
        (D.cellStep U B.noEvent (i : ℕ) (D.cell i w.state) w).2, d⟩ := by
  have hcond : (D.cellLoop U B).cond ⟨w, (i : ℕ), d⟩ = true := by
    simp [cellLoop, OwnCode.topLoop, hret, hi]
  rw [WhileLoop.pass_of_cond hcond]
  simp [cellLoop, OwnCode.topLoop, hret, hflat, OwnCode.topInnards, OwnCode.callDispatch,
    cellCode_dispatch hplace]

omit hflat hstates hplace in
/-- The loop returns at `noEvent`. -/
lemma cellLoop_pass_noEvent (hret : m.actionsReturn = .events) {f : Frame (World m.StateIdx)}
    (hf : f.e = B.noEvent) : (D.cellLoop U B).pass f = .returned f := by
  have hcond : (D.cellLoop U B).cond f = false := by simp [cellLoop, OwnCode.topLoop, hret, hf]
  rw [WhileLoop.pass_of_not_cond hcond]
  simp [cellLoop, OwnCode.topLoop, hret]

/-- A pass of the -te machine. -/
lemma eventTable_pass (hret : m.actionsReturn = .events) {i : m.EventIdx}
    (hi : ((i : ℕ) : ℤ) ≠ B.noEvent) (w : World m.StateIdx) (d : List (ℕ × ℤ)) :
    (D.flatLoop U B .eventTable).pass ⟨w, (i : ℕ), d⟩ = (D.cellLoop U B).pass ⟨w, (i : ℕ), d⟩ := by
  rw [flatLoop_pass (by decide) hflat hret hi, cellLoop_pass hflat hplace hret hi]
  simp only [ownCode, show tableBase B [] = 0 from if_pos rfl, eventAt?_natCast, Option.map_some,
    Option.elim_some, eventHandler_eq hflat hstates hplace hret]

/-- A pass of the -ts machine for an event that is not handled in all states. -/
lemma switch_pass_of_not_single (hret : m.actionsReturn = .events) {i : m.EventIdx}
    (hi : ((i : ℕ) : ℤ) ≠ B.noEvent) (hsingle : D.actionArray.singlePaiForAllStates i = false)
    (w : World m.StateIdx) (d : List (ℕ × ℤ)) :
    (D.flatLoop U B .switch).pass ⟨w, (i : ℕ), d⟩ = (D.cellLoop U B).pass ⟨w, (i : ℕ), d⟩ := by
  have hcond : (D.flatLoop U B .switch).cond ⟨w, (i : ℕ), d⟩ = true := by
    simp [flatLoop, OwnCode.topLoop, hret, hi]
  have hforeign : D.allStatesHandler U B w (i : ℕ) = (w, some ((i : ℕ) : ℤ)) := by
    apply D.allStatesHandler_of_not_single U B (.inr hi)
    intro j hj
    rw [eq_of_eventValue hplace hj, hsingle]
  rw [WhileLoop.pass_of_cond hcond, cellLoop_pass hflat hplace hret hi]
  simp [flatLoop, OwnCode.topLoop, hret, hflat, OwnCode.topInnards, OwnCode.switchInnards,
    OwnCode.callDispatch, ownCode, hforeign, stateFn_eq hflat hstates hplace w hsingle]

/-- A pass of the -ts machine for an event that is handled in all states: what its action returns
goes to the state function. -/
lemma switch_pass_of_single (hret : m.actionsReturn = .events) {i : m.EventIdx}
    (hi : ((i : ℕ) : ℤ) ≠ B.noEvent) (hsingle : D.actionArray.singlePaiForAllStates i = true)
    {w : World m.StateIdx} {r : World m.StateIdx × ℤ}
    (hr : D.cellStep U B.noEvent (i : ℕ) (D.cell i w.state) w = r) (d : List (ℕ × ℤ)) :
    (D.flatLoop U B .switch).pass ⟨w, (i : ℕ), d⟩ = .running (if r.2 = B.noEvent then ⟨r.1, r.2, d⟩
      else ⟨(D.stateFn U B (fun _ => []) r.1 r.2).1, (D.stateFn U B (fun _ => []) r.1 r.2).2,
        d⟩) := by
  have hcond : (D.flatLoop U B .switch).cond ⟨w, (i : ℕ), d⟩ = true := by
    simp [flatLoop, OwnCode.topLoop, hret, hi]
  have hhandler := allStatesHandler_of_single (U := U) hflat hstates hplace w hsingle
  rw [if_neg (by simp [hret]), hr] at hhandler
  rw [WhileLoop.pass_of_cond hcond]
  by_cases hno : r.2 = B.noEvent
  · rw [if_pos hno] at hhandler
    simp [flatLoop, OwnCode.topLoop, hret, hflat, OwnCode.topInnards, OwnCode.switchInnards,
      ownCode, hhandler, hno]
  · rw [if_neg hno] at hhandler
    simp [flatLoop, OwnCode.topLoop, hret, hflat, OwnCode.topInnards, OwnCode.switchInnards,
      OwnCode.callDispatch, ownCode, hhandler, hno]

omit hflat hstates hplace in
/-- A cell leads to `noEvent` or to what its action has returned. -/
lemma cellStep_snd (e : ℤ) (c : Option (ActionInfo m.EventIdx m.StateIdx)) (w : World m.StateIdx) :
    (D.cellStep U B.noEvent e c w).2 = B.noEvent ∨
      ∃ pai, c = some pai ∧ pai.action ≠ "" ∧
        (D.cellStep U B.noEvent e c w).2 = U.action (w.trace ++ [.action pai.action]) := by
  cases c with
  | none => exact .inl rfl
  | some pai =>
    by_cases haction : pai.action = ""
    · exact .inl (by simp [cellStep, runEntry, runAction, haction])
    · exact .inr ⟨pai, rfl, haction, by
        simp [cellStep, runEntry, runAction, haction, UserCode.callAction]⟩

omit hstates hplace in
/-- So does a state function. -/
private lemma stateFn_snd (ancestors : m.EventIdx → List ℤ) (w : World m.StateIdx) (e : ℤ) :
    (D.stateFn U B ancestors w e).2 = B.noEvent ∨
      ∃ t, (D.stateFn U B ancestors w e).2 = U.action t := by
  unfold stateFn
  rw [implementingMachine_eq_none hflat]
  cases h : switchBody (D.stateFnCases B ancestors w.state) e with
  | none => exact .inl rfl
  | some pai => exact D.runEntry_snd U _ _ _ _ _

/-- Whenever the -ts machine is in its loop, its event is one of the enumeration. -/
private lemma isEvent_of_switch_after (hret : m.actionsReturn = .events) (hU : U.ReturnsEvents B)
    {f g : Frame (World m.StateIdx)} (hf : f.e = B.noEvent ∨ IsEvent m B f.e) {k : ℕ}
    (hk : (D.flatLoop U B .switch).after k (.running f) = .running g) :
    g.e = B.noEvent ∨ IsEvent m B g.e := by
  refine hU.isEvent_of_after ?_ hf hk
  intro s t hs hcond hbody
  have hne : s.e ≠ B.noEvent := by simpa [flatLoop, OwnCode.topLoop, hret] using hcond
  obtain ⟨i, hi⟩ := hs.resolve_left hne
  obtain ⟨w, e, d⟩ := s
  obtain rfl : e = ((i : ℕ) : ℤ) := Option.some.inj (hi.symm.trans (hplace i))
  have hpass : (D.flatLoop U B .switch).pass ⟨w, (i : ℕ), d⟩ = .running t := by
    rw [WhileLoop.pass_of_cond hcond, hbody]
    rfl
  have hcell := cellStep_snd (D := D) (U := U) (B := B) (i : ℕ) (D.cell i w.state) w
  by_cases hsingle : D.actionArray.singlePaiForAllStates i = true
  · rw [switch_pass_of_single hflat hstates hplace hret hne hsingle rfl] at hpass
    obtain rfl := Outcome.running.inj hpass
    by_cases hno : (D.cellStep U B.noEvent (i : ℕ) (D.cell i w.state) w).2 = B.noEvent
    · rw [if_pos hno]
      exact .inl hno
    · rw [if_neg hno]
      exact stateFn_snd hflat _ _ _
  · rw [switch_pass_of_not_single hflat hstates hplace hret hne (by simpa using hsingle),
      cellLoop_pass hflat hplace hret hne] at hpass
    obtain rfl := Outcome.running.inj hpass
    rcases hcell with h | h
    · exact .inl h
    · obtain ⟨pai, -, -, h⟩ := h
      exact .inr ⟨_, h⟩

omit hstates in
/-- So is the event of the cell loop. -/
private lemma isEvent_of_cell_after (hret : m.actionsReturn = .events) (hU : U.ReturnsEvents B)
    {f g : Frame (World m.StateIdx)} (hf : f.e = B.noEvent ∨ IsEvent m B f.e) {k : ℕ}
    (hk : (D.cellLoop U B).after k (.running f) = .running g) :
    g.e = B.noEvent ∨ IsEvent m B g.e := by
  refine hU.isEvent_of_after ?_ hf hk
  intro s t hs hcond hbody
  have hne : s.e ≠ B.noEvent := by simpa [cellLoop, OwnCode.topLoop, hret] using hcond
  obtain ⟨i, hi⟩ := hs.resolve_left hne
  obtain ⟨w, e, d⟩ := s
  obtain rfl : e = ((i : ℕ) : ℤ) := Option.some.inj (hi.symm.trans (hplace i))
  have hpass := cellLoop_pass (D := D) (U := U) hflat hplace hret hne w d
  rw [WhileLoop.pass_of_cond hcond, hbody] at hpass
  obtain rfl := Outcome.running.inj hpass
  rcases cellStep_snd (D := D) (U := U) (B := B) (i : ℕ) (D.cell i w.state) w with h | h
  · exact .inl h
  · obtain ⟨pai, -, -, h⟩ := h
    exact .inr ⟨_, h⟩

/-- **The -te machine** makes the run that the cells describe. -/
lemma eventTable_after_eq (hret : m.actionsReturn = .events) (hU : U.ReturnsEvents B)
    {f : Frame (World m.StateIdx)} (hf : f.e = B.noEvent ∨ IsEvent m B f.e) (k : ℕ) :
    (D.flatLoop U B .eventTable).after k (.running f) = (D.cellLoop U B).after k (.running f) := by
  apply WhileLoop.after_eq_of_step_eq
  intro k g hg
  by_cases hne : g.e = B.noEvent
  · rw [flatLoop_pass_noEvent hret hne, cellLoop_pass_noEvent hret hne]
  · obtain ⟨i, hi⟩ := (isEvent_of_cell_after hflat hplace hret hU hf hg).resolve_left hne
    obtain ⟨w, e, d⟩ := g
    obtain rfl : e = ((i : ℕ) : ℤ) := Option.some.inj (hi.symm.trans (hplace i))
    exact eventTable_pass hflat hstates hplace hret hne w d

/-- **The -ts machine** makes the run that the cells describe, in fewer passes, as long as the
all-states handler returns none of its own events. -/
lemma exists_cellLoop_after_eq_switch (hret : m.actionsReturn = .events)
    (hU : U.ReturnsEvents B) {f : Frame (World m.StateIdx)}
    (hf : f.e = B.noEvent ∨ IsEvent m B f.e)
    (h : ∀ k g, (D.flatLoop U B .switch).after k (.running f) = .running g → g.e ≠ B.noEvent →
      D.HandsOn U B g.world g.e) (k : ℕ) :
    ∃ j, k ≤ j ∧ (D.cellLoop U B).after j (.running f) =
      (D.flatLoop U B .switch).after k (.running f) := by
  apply WhileLoop.exists_after_eq_of_steps
  intro k g hg
  by_cases hne : g.e = B.noEvent
  · refine ⟨0, ?_⟩
    rw [flatLoop_pass_noEvent hret hne]
    exact cellLoop_pass_noEvent hret hne
  · obtain ⟨i, hi⟩ := (isEvent_of_switch_after hflat hstates hplace hret hU hf hg).resolve_left hne
    have hands := h k g hg hne
    obtain ⟨w, e, d⟩ := g
    obtain rfl : e = ((i : ℕ) : ℤ) := Option.some.inj (hi.symm.trans (hplace i))
    by_cases hsingle : D.actionArray.singlePaiForAllStates i = true
    · have hpass := cellLoop_pass (D := D) (U := U) hflat hplace hret hne w d
      set r := D.cellStep U B.noEvent (i : ℕ) (D.cell i w.state) w with hr
      rw [switch_pass_of_single hflat hstates hplace hret hne hsingle hr.symm]
      by_cases hno : r.2 = B.noEvent
      · rw [if_pos hno]
        exact ⟨0, hpass⟩
      · -- the action has returned an event that has cases in the state function
        obtain ⟨pai, hcell, haction, hv⟩ := (cellStep_snd (D := D) (U := U) (B := B) (i : ℕ)
          (D.cell i w.state) w).resolve_left hno
        rw [← hr] at hv
        obtain ⟨j, hj⟩ := (hU (w.trace ++ [.action pai.action])).resolve_left (hv ▸ hno)
        have hnot := hands i j pai hi hsingle hcell haction hj
        have hvj : r.2 = ((j : ℕ) : ℤ) := hv.trans (Option.some.inj (hj.symm.trans (hplace j)))
        refine ⟨1, ?_⟩
        rw [WhileLoop.after_succ, WhileLoop.advance_running, hpass, WhileLoop.after_succ,
          WhileLoop.advance_running, WhileLoop.after_zero, if_neg hno, hvj,
          cellLoop_pass hflat hplace hret (hvj ▸ hno), stateFn_eq hflat hstates hplace _ hnot]
    · refine ⟨0, ?_⟩
      exact (switch_pass_of_not_single hflat hstates hplace hret hne (by simpa using hsingle)
        w d).symm

/-! ## Functions that return nothing -/

omit hflat hstates hplace in
/-- The call of the function for empty cells can be seen. -/
lemma countP_handleEmptyCell (w : World m.StateIdx) :
    (D.handleEmptyCell U w).trace.countP Obs.isAction =
      w.trace.countP Obs.isAction + if D.emptyCellFn = none then 0 else 1 := by
  cases h : D.emptyCellFn with
  | none => simp [handleEmptyCell, h]
  | some name =>
    simp [handleEmptyCell, h, UserCode.callAction, List.countP_append, List.countP_cons,
      Obs.isAction]

omit hflat hstates hplace in
/-- Nothing is done in an empty cell if there is no function for empty cells. -/
lemma handleEmptyCell_eq_iff (w : World m.StateIdx) :
    w = D.handleEmptyCell U w ↔ D.emptyCellFn = none := by
  constructor
  · intro h
    have hcount := countP_handleEmptyCell (D := D) (U := U) w
    rw [← h] at hcount
    by_contra hsome
    rw [if_neg hsome] at hcount
    omega
  · intro h
    simp [handleEmptyCell, h]

omit hflat hstates hplace in
/-- Whether an entry without action calls the function for empty cells makes a difference if there
is one. -/
private lemma runEntry_eq_iff (pai : ActionInfo m.EventIdx m.StateIdx) (e : ℤ)
    (w : World m.StateIdx) :
    (D.runEntry U B.noEvent true pai e w).1 = (D.runEntry U B.noEvent false pai e w).1 ↔
      D.emptyCellFn = none ∨ pai.action ≠ "" := by
  by_cases haction : pai.action = ""
  · simp only [runEntry, runAction, if_true, Bool.false_eq_true, if_false,
      haction, ne_eq, not_true_eq_false, or_false]
    constructor
    · intro h
      have hcount := congrArg (fun w => w.trace.countP Obs.isAction) h
      simp only [D.countP_changeState fun _ => Obs.isAction_of_isStateChange,
        U.countP_takeTransition, countP_handleEmptyCell] at hcount
      by_contra hsome
      rw [if_neg hsome] at hcount
      omega
    · intro h
      rw [← (handleEmptyCell_eq_iff (D := D) (U := U) w).mpr h]
  · simp [runEntry, runAction, haction]

/-- **Event handlers** whose actions return nothing do what the cells say if the function for
empty cells is called where it should be. -/
lemma eventHandler_void_iff (hret : m.actionsReturn = .void) {i : m.EventIdx}
    (w : World m.StateIdx) : (D.eventHandler U B i w).1 =
        (D.cellStep U B.noEvent (i : ℕ) (D.cell i w.state) w).1 ↔
      D.EmptyCellsAgree B w (i : ℕ) := by
  have hagree : D.EmptyCellsAgree B w (i : ℕ) ↔ (D.emptyCellFn = none ∨
      (∃ pai, D.cell i w.state = some pai ∧ pai.action ≠ "") ∨
      D.actionArray.singlePaiForAllStates i = true ∨ ∀ s, D.cell i s = none) := by
    constructor
    · intro h
      exact h i (hplace i)
    · intro h j hj
      rw [eq_of_eventValue hplace hj]
      exact h
  rw [hagree, eventHandler, hplace i, Option.getD_some]
  by_cases hsingle : D.actionArray.singlePaiForAllStates i = true
  · obtain ⟨pai, hcell, -⟩ := exists_cell_of_single hflat hstates hsingle w.state
    simp [hsingle, singlePai_eq hflat hstates hsingle w.state, hcell, cellStep]
  · rw [if_neg hsingle]
    by_cases hempty : (D.actionArray.phandlingStates i).isEmpty = true
    · have hnone := cell_eq_none_of_isEmpty hflat hstates hempty
      simp [hempty, hnone, cellStep]
    · rw [if_neg hempty, switchBody_eventHandlerCases hflat hstates, hret]
      -- some state handles the event
      have hsome : ¬ ∀ s, D.cell i s = none := by
        intro hnone
        apply hempty
        rw [List.isEmpty_iff, List.eq_nil_iff_forall_not_mem]
        intro s hs
        rw [mem_phandlingStates hflat hstates, D.cell_eq_none_iff.mp (hnone s)] at hs
        cases hs
      cases hcell : D.cell i w.state with
      | none =>
        simp only [cellStep, handleEmptyCell_eq_iff, reduceCtorEq, false_and, exists_false,
          hsingle, hsome, or_false]
      | some pai => simp [cellStep, runEntry_eq_iff, hsingle, hsome]

omit hstates hplace in
/-- The -te machine whose actions return nothing. -/
private lemma eventTable_pass_void (hret : m.actionsReturn = .void) (i : m.EventIdx)
    (w : World m.StateIdx) (d : List (ℕ × ℤ)) :
    (D.flatLoop U B .eventTable).pass ⟨w, (i : ℕ), d⟩ =
      .returned ⟨(D.eventHandler U B i w).1, (i : ℕ), d⟩ := by
  rw [WhileLoop.pass_of_not_cond (by simp [flatLoop, OwnCode.topLoop, hret, OwnCode.once])]
  simp [flatLoop, OwnCode.topLoop, hret, OwnCode.once, hflat, OwnCode.topInnards,
    OwnCode.callDispatch, ownCode, show tableBase B [] = 0 from if_pos rfl, eventAt?_natCast]

/-- The -ts machine whose actions return nothing. -/
private lemma switch_pass_void (hret : m.actionsReturn = .void) (i : m.EventIdx)
    (w : World m.StateIdx) (d : List (ℕ × ℤ)) :
    (D.flatLoop U B .switch).pass ⟨w, (i : ℕ), d⟩ =
      .returned ⟨(D.cellStep U B.noEvent (i : ℕ) (D.cell i w.state) w).1, (i : ℕ), d⟩ := by
  rw [WhileLoop.pass_of_not_cond (by simp [flatLoop, OwnCode.topLoop, hret, OwnCode.once])]
  by_cases hsingle : D.actionArray.singlePaiForAllStates i = true
  · have hhandler := allStatesHandler_of_single (U := U) hflat hstates hplace w hsingle
    rw [if_pos hret] at hhandler
    simp [flatLoop, OwnCode.topLoop, hret, OwnCode.once, hflat, OwnCode.topInnards,
      OwnCode.switchInnards, ownCode, hhandler]
  · have hforeign : D.allStatesHandler U B w (i : ℕ) = (w, some ((i : ℕ) : ℤ)) := by
      apply D.allStatesHandler_of_not_single U B (.inl hret)
      intro j hj
      rw [eq_of_eventValue hplace hj]
      simpa using hsingle
    simp [flatLoop, OwnCode.topLoop, hret, OwnCode.once, hflat, OwnCode.topInnards,
      OwnCode.switchInnards, OwnCode.callDispatch, ownCode, hforeign,
      stateFn_eq hflat hstates hplace w (by simpa using hsingle)]

/-- **Functions that return nothing.** Both machines make the same run exactly if the function for
empty cells is called where it should be. -/
lemma eventTable_after_eq_switch_void_iff (hret : m.actionsReturn = .void)
    {f : Frame (World m.StateIdx)} (hf : IsEvent m B f.e) :
    (∀ k, (D.flatLoop U B .eventTable).after k (.running f) =
        (D.flatLoop U B .switch).after k (.running f)) ↔ D.EmptyCellsAgree B f.world f.e := by
  obtain ⟨i, hi⟩ := hf
  obtain ⟨w, e, d⟩ := f
  obtain rfl : e = ((i : ℕ) : ℤ) := Option.some.inj (hi.symm.trans (hplace i))
  have hte := eventTable_pass_void (D := D) (U := U) (B := B) hflat hret i w d
  have hts := switch_pass_void (D := D) (U := U) hflat hstates hplace hret i w d
  rw [← eventHandler_void_iff (D := D) (U := U) hflat hstates hplace hret w]
  constructor
  · intro h
    have h := h 1
    rw [WhileLoop.after_succ_of_returned hte, WhileLoop.after_succ_of_returned hts] at h
    exact congrArg Frame.world (Outcome.returned.inj h)
  · intro h k
    cases k with
    | zero => rfl
    | succ k => rw [WhileLoop.after_succ_of_returned hte, WhileLoop.after_succ_of_returned hts, h]

end Dispatch

end AcceptedActions

/-- **The state functions and the event table.** In a flat machine whose event values are their
places: where actions return events, the -te machine makes the run that the cells describe, every
event dispatched by its own cell; and so does the -ts machine, in fewer passes, in a run in which
no action of the all-states handler returns another event handled in all states. Where actions
return nothing, both machines do the same exactly when the function for empty cells is called
where it should be. -/
theorem exists_eventTable_after_eq_switch (compactActionArray : Bool) (designated : String → ℤ)
    {top : Machine} (htop : top.Accepted) (hflat : top.machineList = []) :
    ∃ s B, eventEnum compactActionArray designated top = some s ∧ eventBounds s [] top = some B ∧
      ∀ (D : AcceptedActions top) (U : UserCode top.StateIdx) (f : Frame (World top.StateIdx)),
        (∀ i : top.EventIdx, B.eventValue i = some ((i : ℕ) : ℤ)) →
        (top.actionsReturn = .events → U.ReturnsEvents B → f.e = B.noEvent ∨ IsEvent top B f.e →
          (∀ k, (D.flatLoop U B .eventTable).after k (.running f) =
            (D.cellLoop U B).after k (.running f)) ∧
          ((∀ k g, (D.flatLoop U B .switch).after k (.running f) = .running g →
              g.e ≠ B.noEvent → D.HandsOn U B g.world g.e) →
            ∀ k, ∃ j, k ≤ j ∧ (D.flatLoop U B .eventTable).after j (.running f) =
              (D.flatLoop U B .switch).after k (.running f))) ∧
        (top.actionsReturn = .void → IsEvent top B f.e →
          ((∀ k, (D.flatLoop U B .eventTable).after k (.running f) =
              (D.flatLoop U B .switch).after k (.running f)) ↔
            D.EmptyCellsAgree B f.world f.e)) := by
  obtain ⟨own, b, last, -, hs⟩ := exists_eventEnum compactActionArray designated htop
  obtain ⟨B, hB⟩ := exists_eventBounds_top htop hs
  have hstates : top.stateList ≠ [] := (top.accepted_iff.mp htop).2.1
  refine ⟨_, B, hs, hB, ?_⟩
  intro D U f hplace
  constructor
  · intro hret hU hf
    have hte := AcceptedActions.eventTable_after_eq (D := D) hflat hstates hplace hret hU hf
    refine ⟨hte, ?_⟩
    intro hands k
    obtain ⟨j, hkj, hj⟩ := AcceptedActions.exists_cellLoop_after_eq_switch hflat hstates hplace hret
      hU hf hands k
    exact ⟨j, hkj, (hte j).trans hj⟩
  · intro hret hf
    exact AcceptedActions.eventTable_after_eq_switch_void_iff hflat hstates hplace hret hf

/-- A flat machine with two events and one state. -/
def twoEventMachine : Machine :=
  .mk { name := "m", eventList := [{ name := "e" }, { name := "f" }],
        stateList := [{ name := "s" }] } []

/-- An action for each of its events. -/
def twoEventActions : AcceptedActions twoEventMachine where
  actionInfoList := [⟨"a", none, [⟨0, by decide⟩], []⟩, ⟨"b", none, [⟨1, by decide⟩], []⟩]
  named := by simp
  populated := by decide

/-- The first action returns the second event when it is the first call; every other action
returns `noEvent`. -/
def twoEventCode : UserCode twoEventMachine.StateIdx where
  action := fun t => if t = [.action "a"] then 1 else 2
  transitionFn := fun _ => ⟨0, by decide⟩
  subMachine := fun _ => 2

/-- Both events are handled in the machine's only state by one entry each. -/
lemma twoEventActions_single (i : twoEventMachine.EventIdx) :
    twoEventActions.actionArray.singlePaiForAllStates i = true := by
  revert i
  decide

/-- The -te machine calls both actions, and the -ts machine the first one only. -/
theorem not_eventTable_after_eq_switch :
    ¬ ∀ top : Machine, top.Accepted → top.machineList = [] → top.actionsReturn = .events →
      ∃ s B, eventEnum false (fun _ => 0) top = some s ∧ eventBounds s [] top = some B ∧
        ∀ (D : AcceptedActions top) (U : UserCode top.StateIdx), U.ReturnsEvents B →
          ∀ f : Frame (World top.StateIdx), f.e = B.noEvent ∨ IsEvent top B f.e →
            ∀ k, ∃ j, k ≤ j ∧ (D.flatLoop U B .eventTable).after j (.running f) =
              (D.flatLoop U B .switch).after k (.running f) := by
  intro h
  obtain ⟨s, B, hs, hB, h⟩ := h twoEventMachine
    (by simp [twoEventMachine, Machine.Accepted, Machine.AcceptedList]) rfl rfl
  have hbounds : (eventEnum false (fun _ => 0) twoEventMachine).bind
      (fun s => (eventBounds s [] twoEventMachine).map
        fun B => (B.noEvent, B.eventValue 0, B.eventValue 1)) = some (2, some 0, some 1) := by
    decide
  rw [hs, Option.bind_some, hB, Option.map_some] at hbounds
  simp only [Option.some.injEq, Prod.mk.injEq] at hbounds
  obtain ⟨hno, hzero, hone⟩ := hbounds
  have hplace : ∀ i : twoEventMachine.EventIdx, B.eventValue i = some ((i : ℕ) : ℤ) := by
    intro i
    obtain ⟨i, hi⟩ := i
    have : i < 2 := hi
    interval_cases i
    · exact hzero
    · exact hone
  have hU : twoEventCode.ReturnsEvents B := by
    intro t
    by_cases ht : t = [.action "a"]
    · exact .inr ⟨⟨1, by decide⟩, by simpa [twoEventCode, ht] using hone⟩
    · exact .inl (by simp [twoEventCode, ht, hno])
  have hfirst : twoEventActions.cellStep twoEventCode B.noEvent ((0 : ℕ) : ℤ)
      (twoEventActions.cell ⟨0, by decide⟩ ⟨0, by decide⟩) ⟨⟨0, by decide⟩, []⟩ =
        (⟨⟨0, by decide⟩, [.action "a"]⟩, 1) := rfl
  have hsecond : twoEventActions.cellStep twoEventCode B.noEvent ((1 : ℕ) : ℤ)
      (twoEventActions.cell ⟨1, by decide⟩ ⟨0, by decide⟩) ⟨⟨0, by decide⟩, [.action "a"]⟩ =
        (⟨⟨0, by decide⟩, [.action "a", .action "b"]⟩, 2) := rfl
  have hi : ∀ i : twoEventMachine.EventIdx, ((i : ℕ) : ℤ) ≠ B.noEvent := by
    intro i
    have : (i : ℕ) < 2 := i.isLt
    omega
  have hlast : ∀ g w, (twoEventActions.flatLoop twoEventCode B g).Returns
      (.running ⟨w, 2, []⟩) ⟨w, 2, []⟩ :=
    fun g w => ⟨1, AcceptedActions.flatLoop_pass_noEvent rfl hno.symm⟩
  -- the -te machine calls the action of the second event
  have hte : (twoEventActions.flatLoop twoEventCode B .eventTable).Returns
      (.running ⟨⟨⟨0, by decide⟩, []⟩, ((0 : ℕ) : ℤ), []⟩)
      ⟨⟨⟨0, by decide⟩, [.action "a", .action "b"]⟩, 2, []⟩ := by
    have hpass : ∀ (i : twoEventMachine.EventIdx) w r,
        twoEventActions.cellStep twoEventCode B.noEvent (i : ℕ)
          (twoEventActions.cell i w.state) w = r →
        (twoEventActions.flatLoop twoEventCode B .eventTable).pass ⟨w, (i : ℕ), []⟩ =
          .running ⟨r.1, r.2, []⟩ := by
      intro i w r hr
      rw [AcceptedActions.eventTable_pass rfl (by simp [twoEventMachine]) hplace rfl (hi i),
        AcceptedActions.cellLoop_pass rfl hplace rfl (hi i), hr]
    exact WhileLoop.returns_of_pass (hpass ⟨0, by decide⟩ _ _ hfirst)
      (WhileLoop.returns_of_pass (hpass ⟨1, by decide⟩ _ _ hsecond) (hlast _ _))
  -- in the -ts machine the state function has no case for it
  have hts : (twoEventActions.flatLoop twoEventCode B .switch).Returns
      (.running ⟨⟨⟨0, by decide⟩, []⟩, ((0 : ℕ) : ℤ), []⟩)
      ⟨⟨⟨0, by decide⟩, [.action "a"]⟩, 2, []⟩ := by
    have hpass := AcceptedActions.switch_pass_of_single (U := twoEventCode)
      (w := ⟨⟨0, by decide⟩, []⟩) rfl (by simp [twoEventMachine]) hplace rfl (hi ⟨0, by decide⟩)
      (twoEventActions_single ⟨0, by decide⟩) hfirst []
    have hdefault := AcceptedActions.stateFn_of_single (U := twoEventCode) hplace rfl rfl
      (⟨⟨0, by decide⟩, [.action "a"]⟩ : World twoEventMachine.StateIdx)
      (twoEventActions_single ⟨1, by decide⟩)
    rw [if_neg (by simp [hno])] at hpass
    refine WhileLoop.returns_of_pass hpass ?_
    rw [show ((1 : ℤ)) = ((1 : ℕ) : ℤ) from rfl]
    rw [hdefault]
    have hempty : twoEventActions.cellStep twoEventCode B.noEvent ((1 : ℕ) : ℤ) none
        (⟨⟨0, by decide⟩, [.action "a"]⟩ : World twoEventMachine.StateIdx) =
        (⟨⟨0, by decide⟩, [.action "a"]⟩, B.noEvent) := rfl
    rw [hempty, hno]
    exact hlast _ _
  obtain ⟨k, hk⟩ := hts
  obtain ⟨j, -, hj⟩ := h twoEventActions twoEventCode hU
    ⟨⟨⟨0, by decide⟩, []⟩, ((0 : ℕ) : ℤ), []⟩ (.inr ⟨⟨0, by decide⟩, hzero⟩) k
  have heq := hte.unique ⟨j, hj.trans hk⟩
  simp at heq

/-- In the one-cell machine both make the same run. -/
theorem exists_eventTable_after_eq_switch_oneCell :
    ∃ s B, eventEnum false (fun _ => 0) oneCellMachine = some s ∧
      eventBounds s [] oneCellMachine = some B ∧ ∀ k, ∃ j, k ≤ j ∧
        ((oneCellActions none).flatLoop oneCellCode B .eventTable).after j
            (.running ⟨⟨⟨0, by decide⟩, []⟩, 0, []⟩) =
          ((oneCellActions none).flatLoop oneCellCode B .switch).after k
            (.running ⟨⟨⟨0, by decide⟩, []⟩, 0, []⟩) := by
  obtain ⟨s, B, hs, hB, h⟩ := exists_eventTable_after_eq_switch false (fun _ => 0)
    (show oneCellMachine.Accepted by
      simp [oneCellMachine, plainMachine, Machine.Accepted, Machine.AcceptedList]) rfl
  obtain ⟨hno, hplace⟩ := oneCellMachine_values hs hB
  refine ⟨s, B, hs, hB, ?_⟩
  refine ((h (oneCellActions none) oneCellCode _ hplace).1 rfl (fun _ => .inl hno.symm)
    (.inr ⟨⟨0, by decide⟩, hplace ⟨0, by decide⟩⟩)).2 ?_
  intro k g _ _ i j pai _ _ _ _ hj
  -- no event has the value that the action returns
  obtain rfl : j = ⟨0, by decide⟩ := Subsingleton.elim j _
  rw [hplace] at hj
  simp [oneCellCode] at hj

end FsmLang
