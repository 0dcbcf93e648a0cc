import Mathlib.Data.List.Basic
import Mathlib.Tactic
import FsmLang.MachineRuns

set_option relaxedAutoImplicit false
set_option autoImplicit false

/-!
# Machines whose actions return states

Such a machine enters the state that an action or a transition gives it, unless that is
`noTransition`. With -ts the caller of a state function looks at what it returns. The handler of
the events handled in all states looks at `new_s`; but without functions for state changes there is
no such variable, and what comes is assigned to the machine's state as it is.

With -te the handler of an event has a variable for the state to return, which only the cases of
its switch assign to. In a state without a case it returns what happens to be there. A plain
transition is left to a routine of the user, `transitionTo<S>`, which is not generated.

## Main definitions

* `result` — what is returned for an entry.
* `StateRight` — a step of -ts does what it should; `NoTransitionLookedAt` — when it does.
* `HandlersRight` — the handlers and the runs of -te do what they should; `HandlersAssign` — when
  they do.

## Main results

* `ReturnsStates.switchStep_state` — the state after an event of -ts.
* `statesDeclared_iff` — when the state is declared after all events of a run of -ts.
* `handlersRight_iff` — when the handlers of -te return what they should.
-/

namespace FsmLang

open CSemantics

namespace RunningMachine

section StatesReturned

variable {ε σ : Type*} [DecidableEq ε] [DecidableEq σ] (P : RunningMachine ε σ) (U : UserFns ε σ)

/-- What the parser has seen to, for a machine whose actions return states: besides what it sees to
for all machines, plain transitions are to states of the machine or to `noTransition`, which is not
one of them. -/
structure ReturnsStates : Prop extends P.Accepted where
  actionsReturnStates : P.actionsReturn = .states
  declaredTargets : ∀ pai ∈ P.actionInfoList, ∀ s, pai.transition = some (.state s) →
    s ∈ P.stateList ∨ s = P.noTransition
  noTransition_notMem : P.noTransition ∉ P.stateList

/-- The user's functions return states of the machine or `noTransition`. -/
def UserStatesDeclared : Prop :=
  ∀ calls, U.state calls ∈ P.stateList ∨ U.state calls = P.noTransition

/-- What is returned for an entry after some calls: the result of its action, or its transition. -/
def result (pai : ActionInfo ε σ) (calls : List (Call ε σ)) : σ :=
  match pai.transition with
  | none => U.state (calls ++ [.action pai.action])
  | some (.state s) => s
  | some (.fn name _) => U.state (calls ++ [.transitionFn (P.ufMachineName ++ "_" ++ name) none])

/-- What is returned for an event with -ts, if there is an entry for it. -/
def stepResult (w : MachineState ε σ) (v : EventValue ε) : Option σ :=
  match P.uniformEntry v with
  | some pai => some (P.result U pai w.calls)
  | none =>
    (P.stateFnEntry w.state v).map fun pai => P.result U pai (P.stateFnStart U w.state w v).calls

/-- With -ts, the machine is in a declared state after the event, and in the same one as before if
`noTransition` is returned. -/
structure StateRight (w : MachineState ε σ) (v : EventValue ε) : Prop where
  declared : (P.switchStep U w v).state ∈ P.stateList
  unchanged : P.stepResult U w v = some P.noTransition → (P.switchStep U w v).state = w.state

/-- The event is not one for which an entry that handles it in all states returns `noTransition`,
unless functions are called on state changes. -/
def NoTransitionLookedAt (w : MachineState ε σ) (v : EventValue ε) : Prop :=
  P.executesFnsOnStateTransitions = true ∨
    ∀ pai, P.uniformEntry v = some pai → P.result U pai w.calls ≠ P.noTransition

instance (w : MachineState ε σ) (v : EventValue ε) : Decidable (P.NoTransitionLookedAt U w v) :=
  inferInstanceAs (Decidable (P.executesFnsOnStateTransitions = true ∨
    ∀ pai ∈ P.uniformEntry v, P.result U pai w.calls ≠ P.noTransition))

variable {P U}

/-- What is returned is a declared state or `noTransition`. -/
lemma ReturnsStates.result_mem (h : P.ReturnsStates) (hU : P.UserStatesDeclared U)
    {pai : ActionInfo ε σ} (hpai : pai ∈ P.actionInfoList) (calls : List (Call ε σ)) :
    P.result U pai calls ∈ P.stateList ∨ P.result U pai calls = P.noTransition := by
  unfold result
  rcases htransition : pai.transition with _ | (s | ⟨name, _⟩)
  · exact hU _
  · exact h.declaredTargets pai hpai s htransition
  · exact hU _

/-- An entry with a transition has no action. -/
lemma ReturnsStates.action_eq (h : P.ReturnsStates) {pai : ActionInfo ε σ}
    (hpai : pai ∈ P.actionInfoList) {t : Transition σ} (ht : pai.transition = some t) :
    pai.action = "" :=
  (h.oneResult h.actionsReturnStates pai hpai).resolve_right (by simp [ht])

/-- An entry without a transition has an action. -/
lemma ReturnsStates.action_ne (h : P.ReturnsStates) {pai : ActionInfo ε σ}
    (hpai : pai ∈ P.actionInfoList) (ht : pai.transition = none) : pai.action ≠ "" :=
  (h.named pai hpai).resolve_right (by simp [ht])

/-! ## State functions -/

/-- The statements of a case return what is returned for the entry, and leave the state alone. -/
private lemma ReturnsStates.foldl_stateFnBody (h : P.ReturnsStates) {pai : ActionInfo ε σ}
    (hpai : pai ∈ P.actionInfoList) (s : σ) (v : EventValue ε) (f : Locals ε σ) :
    ((P.stateFnBody s pai).foldl (P.exec U v) f).retState = some (P.result U pai f.calls) ∧
      Quiet f.toMachineState ((P.stateFnBody s pai).foldl (P.exec U v) f).toMachineState := by
  have hbody : P.stateFnBody s pai = P.stateReturningStateFnCase pai := by
    simp [GeneratedMachine.stateFnBody, GeneratedMachine.transitionsOnly, h.actionsReturnStates]
  rw [hbody]
  refine ⟨?_, quiet_foldl v f (target_stateReturningStateFnCase pai)⟩
  unfold GeneratedMachine.stateReturningStateFnCase result
  rcases htransition : pai.transition with _ | (t | ⟨name, _⟩)
  · rw [if_pos (h.action_ne hpai htransition), foldl_profiled]
    simp [exec, h.actionsReturnStates, Locals.assign, Locals.call]
  · rw [if_neg (by simp [h.action_eq hpai htransition])]
    rfl
  · rw [if_neg (by simp [h.action_eq hpai htransition])]
    simp [exec, transitionArg, h.actionsReturnStates, Locals.assign, Locals.call]

/-- The end of a state function leaves the state alone. -/
lemma ReturnsStates.stateFnEpilogue_eq (h : P.ReturnsStates) (p : σ) (f : Locals ε σ) :
    (P.stateFnEpilogue p f).state = f.state ∧ (P.stateFnEpilogue p f).retState = f.retState := by
  unfold stateFnEpilogue
  rw [if_pos h.actionsReturnStates]
  rcases hret : f.retState with _ | s
  · exact ⟨rfl, hret⟩
  · by_cases hs : s ≠ P.noTransition
    · simp only [if_pos hs]
      exact ⟨trivial, trivial⟩
    · simp only [if_neg hs]
      exact ⟨trivial, hret⟩

/-- A state function returns what is returned for its entry, or `noTransition`. -/
lemma ReturnsStates.stateFn_eq (h : P.ReturnsStates) (p : σ) (w : MachineState ε σ)
    (v : EventValue ε) :
    (P.stateFn U p w v).state = w.state ∧
      (P.stateFn U p w v).retState =
        some (((P.stateFnEntry p v).map fun pai =>
          P.result U pai (P.stateFnStart U p w v).calls).getD P.noTransition) := by
  obtain ⟨hstate, hret⟩ := h.stateFnEpilogue_eq p (P.runBody U v (bodyFor (P.stateFnCases p) v)
    (if P.implementedBySubMachine p then [] else [P.noAction]) (P.stateFnStart U p w v))
  rw [stateFn, hstate, hret, runBody, map_statements_stateFnCases]
  have hstart := quiet_stateFnStart (P := P) (U := U) p w v
  cases hentry : P.stateFnEntry p v with
  | some pai =>
    obtain ⟨hresult, hquiet⟩ := h.foldl_stateFnBody (U := U) (mem_of_stateFnEntry hentry) p v
      (P.stateFnStart U p w v)
    exact ⟨(hstart.trans hquiet).state, hresult⟩
  | none =>
    have hret : (P.stateFnStart U p w v).retState = some P.noTransition := by
      unfold stateFnStart
      split_ifs <;> rfl
    obtain ⟨more, hmore, -⟩ := foldl_default (P := P) (U := U) v (P.stateFnStart U p w v)
      (l := if P.implementedBySubMachine p then [] else [P.noAction]) (by split_ifs <;> simp)
    rw [Option.map_none, Option.getD_none, hmore]
    exact ⟨hstart.state, hret⟩

/-- After the call of a state function the machine is in the state that is returned, unless that is
`noTransition`. -/
private lemma ReturnsStates.callStateFn_state (h : P.ReturnsStates) (w : MachineState ε σ)
    (v : EventValue ε) :
    (P.callStateFn U w v).1.state =
      match (P.stateFnEntry w.state v).map fun pai =>
        P.result U pai (P.stateFnStart U w.state w v).calls with
      | none => w.state
      | some s => if s = P.noTransition then w.state else s := by
  have hstates := h.actionsReturnStates
  have hcalled : P.calledState w = w.state := by simp [calledState, hstates]
  obtain ⟨hstate, hret⟩ := h.stateFn_eq (U := U) w.state w v
  unfold callStateFn
  rw [if_neg (by simp [hstates]), hcalled]
  simp only [hstates, hret, Option.getD_some]
  cases (P.stateFnEntry w.state v).map fun pai =>
      P.result U pai (P.stateFnStart U w.state w v).calls with
  | none => simpa using hstate
  | some s =>
    by_cases hs : s = P.noTransition
    · simpa [hs] using hstate
    · simp [hs]

/-! ## The handler of the events handled in all states -/

/-- The statements of a case assign what is returned for the entry to `new_s`, or to the machine's
state if no functions are called on state changes. -/
private lemma ReturnsStates.foldl_allStatesBody (h : P.ReturnsStates) {pai : ActionInfo ε σ}
    (hpai : pai ∈ P.actionInfoList) (v : EventValue ε) (f : Locals ε σ) :
    ((P.allStatesBody pai).foldl (P.exec U v) f).handled = true ∧
      if P.executesFnsOnStateTransitions then
        ((P.allStatesBody pai).foldl (P.exec U v) f).newState = P.result U pai f.calls ∧
          ((P.allStatesBody pai).foldl (P.exec U v) f).state = f.state
      else ((P.allStatesBody pai).foldl (P.exec U v) f).state = P.result U pai f.calls := by
  unfold GeneratedMachine.allStatesBody result GeneratedMachine.stateTarget
  simp only [h.actionsReturnStates]
  rcases htransition : pai.transition with _ | (t | ⟨name, _⟩)
  · rw [if_neg (h.action_ne hpai htransition), List.append_nil, List.foldl_append,
      foldl_profiled]
    cases P.executesFnsOnStateTransitions <;>
      simp [exec, h.actionsReturnStates, Locals.assign, Locals.call]
  · rw [if_pos (h.action_eq hpai htransition)]
    cases P.executesFnsOnStateTransitions <;> simp [exec, Locals.assign]
  · rw [if_pos (h.action_eq hpai htransition)]
    cases P.executesFnsOnStateTransitions <;>
      simp [exec, transitionArg, h.actionsReturnStates, Locals.assign, Locals.call]

/-- The handler for an event that has no case in it. -/
lemma allStatesHandler_of_none {v : EventValue ε} (hentry : P.allStatesEntry v = none)
    (w : MachineState ε σ) :
    (P.allStatesHandler U w v).handled = false ∧
      (P.allStatesHandler U w v).toMachineState = w := by
  unfold allStatesHandler runBody
  rw [map_statements_allStatesCases, hentry]
  simp [allStatesEpilogue]

/-- The end of the handler enters the state in `new_s`, unless that is `noTransition`. -/
private lemma ReturnsStates.allStatesEpilogue_eq (h : P.ReturnsStates) (f : Locals ε σ) :
    (P.allStatesEpilogue f).handled = f.handled ∧ (P.allStatesEpilogue f).state =
      if P.executesFnsOnStateTransitions ∧ f.newState ≠ P.noTransition then f.newState
      else f.state := by
  unfold allStatesEpilogue
  by_cases hsame : f.state = f.newState
  · simp [hsame]
  · by_cases hnew : P.executesFnsOnStateTransitions = true ∧ f.newState ≠ P.noTransition
    · simp [hsame, hnew, h.actionsReturnStates]
    · rw [if_neg hnew, if_neg (by simp_all [h.actionsReturnStates])]
      exact ⟨rfl, rfl⟩

/-- The handler for an event that has a case in it. -/
lemma ReturnsStates.allStatesHandler_of_some (h : P.ReturnsStates) {v : EventValue ε}
    {pai : ActionInfo ε σ} (hentry : P.allStatesEntry v = some pai) (w : MachineState ε σ) :
    (P.allStatesHandler U w v).handled = true ∧
      (P.allStatesHandler U w v).state =
        if P.executesFnsOnStateTransitions ∧ P.result U pai w.calls = P.noTransition then w.state
        else P.result U pai w.calls := by
  have hbody := h.foldl_allStatesBody (U := U) (mem_of_allStatesEntry hentry) v
    { w with retEvent := v, newState := w.state, newStateFn := w.currentState }
  unfold allStatesHandler runBody
  rw [map_statements_allStatesCases, hentry, Option.map_some, Option.getD_some]
  obtain ⟨hhandled, hnew⟩ := hbody
  obtain ⟨hhandled', hstate⟩ := h.allStatesEpilogue_eq ((P.allStatesBody pai).foldl (P.exec U v)
    { w with retEvent := v, newState := w.state, newStateFn := w.currentState })
  refine ⟨hhandled'.trans hhandled, hstate.trans ?_⟩
  cases hexecutes : P.executesFnsOnStateTransitions with
  | false =>
    rw [hexecutes, if_neg (by simp)] at hnew
    simpa using hnew
  | true =>
    rw [hexecutes, if_pos rfl] at hnew
    obtain ⟨hnew, hstate⟩ := hnew
    rw [hnew, hstate]
    by_cases hno : P.result U pai w.calls = P.noTransition <;> simp [hno]

/-! ## Steps and runs -/

/-- **The state after an event** is what is returned for it. If that is `noTransition`, or nothing,
it is the state before; but `noTransition` is entered if it is the result of an entry that handles
the event in all states, and no functions are called on state changes. -/
lemma ReturnsStates.switchStep_state (h : P.ReturnsStates) (w : MachineState ε σ)
    (v : EventValue ε) :
    (P.switchStep U w v).state =
      match P.stepResult U w v with
      | none => w.state
      | some s =>
        if s = P.noTransition ∧
            (P.executesFnsOnStateTransitions = true ∨ P.uniformEntry v = none) then w.state
        else s := by
  unfold switchStep
  cases hlabel : v.isLabel with
  | false =>
    obtain ⟨huniform, hentry⟩ := entries_of_not_isLabel (P := P) hlabel w.state
    rw [switchPass_of_not_isLabel hlabel, (quiet_foreignPass w v).state, stepResult, huniform,
      hentry]
    rfl
  | true =>
    obtain ⟨x, rfl⟩ := EventValue.exists_eq_label hlabel
    have hcall := h.callStateFn_state (U := U) w (.label x)
    unfold switchPass stepResult
    by_cases hhas : P.actionArray.hasSinglePaiEvents = true
    · have huniform : P.uniformEntry (.label x) = P.allStatesEntry (.label x) := by
        rw [uniformEntry, if_pos hhas]
      simp only [if_pos hhas, h.actionsReturnStates, huniform]
      cases hentry : P.allStatesEntry (.label x) with
      | some pai =>
        obtain ⟨hhandled, hstate⟩ := h.allStatesHandler_of_some (U := U) hentry w
        simp only [hhandled, if_true, hstate]
        by_cases hno : P.result U pai w.calls = P.noTransition <;> simp [hno]
      | none =>
        obtain ⟨hhandled, hworld⟩ := allStatesHandler_of_none (U := U) hentry w
        simpa [hhandled, hworld] using hcall
    · have huniform : P.uniformEntry (.label x) = none := by rw [uniformEntry, if_neg hhas]
      simpa [if_neg hhas, huniform] using hcall

/-- What is returned for an event. -/
private lemma ReturnsStates.stepResult_mem (h : P.ReturnsStates) (hU : P.UserStatesDeclared U)
    {w : MachineState ε σ} {v : EventValue ε} {s : σ} (hs : P.stepResult U w v = some s) :
    s ∈ P.stateList ∨ s = P.noTransition := by
  unfold stepResult at hs
  cases huniform : P.uniformEntry v with
  | some pai =>
    rw [huniform] at hs
    obtain rfl := Option.some.inj hs
    unfold uniformEntry at huniform
    split_ifs at huniform
    exact h.result_mem hU (mem_of_allStatesEntry huniform) _
  | none =>
    rw [huniform] at hs
    obtain ⟨pai, hentry, rfl⟩ := Option.map_eq_some_iff.mp hs
    exact h.result_mem hU (mem_of_stateFnEntry hentry) _

/-- **Steps.** From a declared state a step does what it should exactly if `noTransition` is looked
at in it. -/
lemma ReturnsStates.stateRight_iff (h : P.ReturnsStates) (hU : P.UserStatesDeclared U)
    {w : MachineState ε σ} (hw : w.state ∈ P.stateList) (v : EventValue ε) :
    P.StateRight U w v ↔ P.NoTransitionLookedAt U w v := by
  have hstate := h.switchStep_state (U := U) w v
  constructor
  · intro hright
    rw [NoTransitionLookedAt, or_iff_not_imp_left]
    intro hexecutes pai huniform hno
    -- `noTransition` is entered, which is no state
    have hresult : P.stepResult U w v = some P.noTransition := by
      simp only [stepResult, huniform, hno]
    rw [hresult] at hstate
    simp only [huniform, hexecutes, reduceCtorEq, or_self, and_false, if_false] at hstate
    exact h.noTransition_notMem (hstate ▸ hright.declared)
  · intro hlooked
    have hno : P.stepResult U w v = some P.noTransition →
        P.executesFnsOnStateTransitions = true ∨ P.uniformEntry v = none := by
      intro hresult
      rcases hlooked with hexecutes | hlooked
      · exact .inl hexecutes
      · refine .inr (Option.eq_none_iff_forall_ne_some.mpr fun pai huniform => ?_)
        rw [stepResult, huniform] at hresult
        exact hlooked pai huniform (Option.some.inj hresult)
    cases hresult : P.stepResult U w v with
    | none =>
      rw [hresult] at hstate
      exact ⟨hstate ▸ hw, fun hsome => by simp [hresult] at hsome⟩
    | some s =>
      rw [hresult] at hstate hno
      by_cases hs : s = P.noTransition
      · obtain rfl := hs
        simp only [true_and, if_pos (hno rfl)] at hstate
        exact ⟨hstate ▸ hw, fun _ => hstate⟩
      · simp only [hs, false_and, if_false] at hstate
        refine ⟨?_, fun hsome => ?_⟩
        · rw [hstate]
          exact (h.stepResult_mem hU hresult).resolve_right hs
        · rw [hresult] at hsome
          exact absurd (Option.some.inj hsome) hs

/-- **The state is declared** after every event of a run of -ts, and `noTransition` leaves it
unchanged, exactly if `noTransition` is looked at in every step: if it is not the result of an
entry that handles the event in all states, unless functions are called on state changes. -/
theorem statesDeclared_iff (h : P.ReturnsStates) (hU : P.UserStatesDeclared U)
    {w : MachineState ε σ} (hw : w.state ∈ P.stateList) (vs : List (EventValue ε)) :
    EachStep (P.switchStep U) (P.StateRight U) w vs ↔
      EachStep (P.switchStep U) (P.NoTransitionLookedAt U) w vs := by
  refine eachStep_congr (I := fun w => w.state ∈ P.stateList) (P := fun _ => True) ?_ ?_ hw
    (fun _ _ => trivial)
  · intro w v hw _
    exact h.stateRight_iff hU hw v
  · intro w v hw _ hlooked
    exact ((h.stateRight_iff hU hw v).mpr hlooked).declared

/-- A machine with one state, whose action for one event may return `noTransition`. -/
def noTransitionMachine : RunningMachine ℕ ℕ where
  eventList := [0]
  stateList := [0]
  consumedByTranslator := fun _ => false
  implementedBySubMachine := fun _ => false
  actionInfoList := [⟨"a", none, [0], [0]⟩]
  actionsReturn := .states
  noTransition := 1

/-- Its action returns `noTransition`. -/
def noTransitionFns : UserFns ℕ ℕ where
  event := fun _ => .noEvent
  state := fun _ => 1
  stateAndFn := fun _ => (0, 0)
  suppliesTransitionTo := fun _ => false
  unassigned := fun _ => 0

/-- The parser takes it. -/
private lemma returnsStates_noTransitionMachine : noTransitionMachine.ReturnsStates where
  declared := by simp [MachineMatrix.Declared, noTransitionMachine]
  nodup := by decide
  nonempty := by decide
  named := by decide
  elsewhere := by decide
  oneResult := by decide
  populated := by decide
  actionsReturnStates := rfl
  declaredTargets := by simp [noTransitionMachine]
  noTransition_notMem := by decide

/-- A machine with two states: one action handles the first event in both, and the second event is
for a plain transition in the first state and for a transition function in the second one. -/
def twoRowsMachine : RunningMachine ℕ ℕ where
  eventList := [0, 1]
  stateList := [0, 1]
  consumedByTranslator := fun _ => false
  implementedBySubMachine := fun _ => false
  actionInfoList :=
    [⟨"a", none, [0], []⟩, ⟨"", some (.state 1), [1], [0]⟩, ⟨"", some (.fn "f" []), [1], [1]⟩]
  actionsReturn := .states
  noTransition := 2

/-- The action returns the first state and the transition function `noTransition`; the user supplies
the routine for the plain transition. -/
def twoRowsFns : UserFns ℕ ℕ where
  event := fun _ => .noEvent
  state := fun calls => if calls.getLast? = some (.action "a") then 0 else 2
  stateAndFn := fun _ => (0, 0)
  suppliesTransitionTo := fun _ => true
  unassigned := fun _ => 0

/-- The parser takes it. -/
lemma returnsStates_twoRowsMachine : twoRowsMachine.ReturnsStates where
  declared := by simp [MachineMatrix.Declared, twoRowsMachine]
  nodup := by decide
  nonempty := by decide
  named := by decide
  elsewhere := by decide
  oneResult := by decide
  populated := by decide
  actionsReturnStates := rfl
  declaredTargets := by simp [twoRowsMachine]
  noTransition_notMem := by decide

/-- Its functions return its first state or `noTransition`. -/
lemma userStatesDeclared_twoRowsFns : twoRowsMachine.UserStatesDeclared twoRowsFns := by
  intro calls
  show (if calls.getLast? = some (.action "a") then 0 else 2) ∈ twoRowsMachine.stateList ∨
    (if calls.getLast? = some (.action "a") then 0 else 2) = twoRowsMachine.noTransition
  by_cases hlast : calls.getLast? = some (.action "a")
  · rw [if_pos hlast]
    exact .inl (by decide)
  · rw [if_neg hlast]
    exact .inr rfl

/-- The second event takes it to the second state, where the transition function returns
`noTransition`; the first event takes it back. -/
theorem statesDeclared_twoRowsMachine :
    EachStep (twoRowsMachine.switchStep twoRowsFns) (twoRowsMachine.StateRight twoRowsFns)
      ⟨0, 0, []⟩ [.label (.this 1), .label (.this 1), .label (.this 0), .label (.this 0)] :=
  (statesDeclared_iff returnsStates_twoRowsMachine userStatesDeclared_twoRowsFns (by decide) _).mpr
    (by decide)

/-- The event takes it to `noTransition`. -/
theorem not_statesDeclared_noTransitionMachine :
    ¬ ∀ (P : RunningMachine ℕ ℕ) (U : UserFns ℕ ℕ), P.ReturnsStates → P.UserStatesDeclared U →
      ∀ w : MachineState ℕ ℕ, w.state ∈ P.stateList → ∀ vs : List (EventValue ℕ),
        EachStep (P.switchStep U) (P.StateRight U) w vs := by
  intro h
  have hrun := h noTransitionMachine noTransitionFns returnsStates_noTransitionMachine
    (fun _ => .inr rfl) ⟨0, 0, []⟩ (by decide) [.label (.this 0)]
  have hstate : (noTransitionMachine.switchStep noTransitionFns ⟨0, 0, []⟩
      (.label (.this 0))).state = 1 := by decide
  have hdeclared := hrun.1.declared
  rw [hstate] at hdeclared
  exact absurd hdeclared (by decide)

/-! ## Event handlers -/

/-- The routine for an entry's plain transition is supplied. -/
def Supplied (U : UserFns ε σ) (pai : ActionInfo ε σ) : Prop :=
  ∀ t, pai.transition = some (.state t) → U.suppliesTransitionTo t = true

/-- The entry in a cell. -/
def cell (P : RunningMachine ε σ) (e : ε) (s : σ) : Option (ActionInfo ε σ) :=
  (P.cellIdx e s).bind (P.actionInfoList[·]?)

/-- What an event's handler returns is determined by the cell: what is returned for its entry, and
for an empty cell a value that leaves the machine in its state. -/
def HandlerRight (P : RunningMachine ε σ) (U : UserFns ε σ) (w : MachineState ε σ) (e : ε) :
    Prop :=
  match P.cell e w.state with
  | some pai => (P.eventHandler U w e).retState = some (P.result U pai w.calls)
  | none => (P.eventHandler U w e).retState = some P.noTransition ∨
      (P.eventHandler U w e).retState = some w.state

/-- The state that the matrix prescribes after an event. -/
def prescribed (P : RunningMachine ε σ) (U : UserFns ε σ) (w : MachineState ε σ) :
    EventValue ε → σ
  | .label (.this e) =>
    match P.cell e w.state with
    | some pai =>
      let s := P.result U pai w.calls
      if s = P.noTransition then w.state else s
    | none => w.state
  | _ => w.state

/-- The machine is in the state that the matrix prescribes after the event. -/
def StatePrescribed (P : RunningMachine ε σ) (U : UserFns ε σ) (w : MachineState ε σ)
    (v : EventValue ε) : Prop :=
  (P.eventTableStep U w v).state = P.prescribed U w v

/-- An event that the machine can be called with: its own events are those that it declares. -/
def Receivable (P : RunningMachine ε σ) (v : EventValue ε) : Prop :=
  ∀ e, v = .label (.this e) → e ∈ P.eventList

/-- The handlers of -te return what they should, and every run of receivable events from a declared
state goes as the matrix prescribes. -/
structure HandlersRight (P : RunningMachine ε σ) (U : UserFns ε σ) : Prop where
  handler : ∀ e ∈ P.eventList, ∀ w : MachineState ε σ, w.state ∈ P.stateList → P.HandlerRight U w e
  run : ∀ w : MachineState ε σ, w.state ∈ P.stateList → ∀ vs, (∀ v ∈ vs, P.Receivable v) →
    EachStep (P.eventTableStep U) (P.StatePrescribed U) w vs

/-- Every event is handled in all states or in none, and the routine for every plain transition is
supplied. -/
structure HandlersAssign (P : RunningMachine ε σ) (U : UserFns ε σ) : Prop where
  rows : ∀ e ∈ P.eventList, (∀ s ∈ P.stateList, P.cell e s ≠ none) ∨
    ∀ s ∈ P.stateList, P.cell e s = none
  supplied : ∀ e ∈ P.eventList, ∀ s ∈ P.stateList, ∀ pai, P.cell e s = some pai → Supplied U pai

/-- The statements of a case return what is returned for the entry, if the routine for its
transition is supplied. -/
private lemma ReturnsStates.foldl_handlerStateCase (h : P.ReturnsStates) {pai : ActionInfo ε σ}
    (hpai : pai ∈ P.actionInfoList) (v : EventValue ε) (f : Locals ε σ) :
    ((P.handlerStateCase pai).foldl (P.exec U v) f).retState = some (P.result U pai f.calls) ↔
      Supplied U pai := by
  unfold GeneratedMachine.handlerStateCase GeneratedMachine.handlerTransition result Supplied
  simp only [h.actionsReturnStates]
  rcases htransition : pai.transition with _ | (t | ⟨name, _⟩)
  · simp [h.action_ne hpai htransition, exec, h.actionsReturnStates, Locals.assign, Locals.call]
  · cases hsupplied : U.suppliesTransitionTo t <;>
      simp [h.action_eq hpai htransition, exec, hsupplied, Locals.assign]
  · simp [h.action_eq hpai htransition, exec, transitionArg, h.actionsReturnStates, Locals.assign,
      Locals.call]

/-- The handler of an event that one entry handles in all states has the statements of a case. -/
private lemma ReturnsStates.singlePaiBody_eq (h : P.ReturnsStates) {pai : ActionInfo ε σ}
    (hpai : pai ∈ P.actionInfoList) : P.singlePaiBody pai = P.handlerStateCase pai := by
  have hnamed : ¬ (pai.action = "" ∧ pai.transition = none) := by
    rintro ⟨haction, htransition⟩
    exact h.action_ne hpai htransition haction
  simp only [singlePaiBody, GeneratedMachine.handlerStateCase, h.actionsReturnStates, if_neg hnamed,
    List.append_nil]

/-- In such a machine nothing follows the transition in a handler. -/
lemma ReturnsStates.transitionHandlers_eq (h : P.ReturnsStates) (transitions : Bool)
    (f : Locals ε σ) : P.transitionHandlers transitions f = f := by
  simp [transitionHandlers, h.actionsReturnStates]

/-- The frame that an event handler starts with. -/
def handlerStart (w : MachineState ε σ) : Locals ε σ :=
  { w with newState := w.state, newStateFn := w.currentState }

/-- **Handlers and cells.** The handler of an event does what the statements for the cell say. -/
lemma ReturnsStates.eventHandler_of_some (h : P.ReturnsStates) {e : ε} (he : e ∈ P.eventList)
    {w : MachineState ε σ} (hw : w.state ∈ P.stateList) {pai : ActionInfo ε σ}
    (hcell : P.cell e w.state = some pai) : P.eventHandler U w e =
      (P.handlerStateCase pai).foldl (P.exec U (.label (.this e))) (handlerStart w) := by
  obtain ⟨idx, hidx, hpai⟩ := Option.bind_eq_some_iff.mp hcell
  have hmem := List.mem_of_getElem? hpai
  unfold eventHandler
  by_cases hsingle : P.actionArray.singlePaiForAllStates e = true
  · -- the entry for all states is that of the cell
    obtain ⟨idx', hfirst, hall⟩ := (h.rowsNoted.single e).mp hsingle
    have hcell' := hall w.state hw
    rw [rowCells_namedRows] at hcell'
    obtain rfl := Option.some.inj (hidx.symm.trans ((h.cellIdx_eq_some_iff he hw).mpr hcell'))
    simp only [if_pos hsingle, hfirst, Option.bind_some, hpai, h.transitionHandlers_eq]
    by_cases hown : P.eventHandlerCannotBeItsAction pai = true
    · rw [if_pos hown, h.singlePaiBody_eq hmem]
      rfl
    · rw [if_neg hown]
      have htransition : pai.transition = none := by
        simp only [eventHandlerCannotBeItsAction, Bool.or_eq_true, not_or] at hown
        simpa using hown.2
      have hbody : P.handlerStateCase pai = P.profiled (.callAction (some .result) pai.action) := by
        simp [GeneratedMachine.handlerStateCase, GeneratedMachine.handlerTransition,
          h.actionsReturnStates, h.action_ne hmem htransition, htransition]
      rw [hbody, foldl_profiled, h.actionsReturnStates]
      rfl
  · have hstates : P.actionArray.phandlingStates e ≠ [] :=
      List.ne_nil_of_mem (h.mem_phandlingStates.mpr ⟨idx, (h.cellIdx_eq_some_iff he hw).mp hidx⟩)
    obtain ⟨-, pai', hpai', hbody⟩ := h.leadsTo_handlerCases he hw hidx
    obtain rfl := Option.some.inj (hpai.symm.trans hpai')
    simp only [if_neg hsingle, if_neg hstates, h.transitionHandlers_eq, hbody]
    rfl

/-- The handler of an event in a state with an empty cell returns the state if no state handles the
event, and nothing otherwise. -/
private lemma ReturnsStates.eventHandler_of_none (h : P.ReturnsStates) {e : ε}
    (he : e ∈ P.eventList)
    {w : MachineState ε σ} (hw : w.state ∈ P.stateList) (hcell : P.cell e w.state = none) :
    (P.eventHandler U w e).state = w.state ∧ (P.eventHandler U w e).retState =
      if P.actionArray.phandlingStates e = [] then some w.state else none := by
  have hidx : ∀ idx, P.cellIdx e w.state ≠ some idx := by
    intro idx hidx
    obtain ⟨pai, hpai, -, -⟩ := h.exists_entry he hw hidx
    simp [cell, hidx, hpai] at hcell
  have hsingle : ¬ P.actionArray.singlePaiForAllStates e = true := by
    intro hsingle
    obtain ⟨idx, -, hall⟩ := (h.rowsNoted.single e).mp hsingle
    have hcell' := hall w.state hw
    rw [rowCells_namedRows] at hcell'
    exact hidx idx ((h.cellIdx_eq_some_iff he hw).mpr hcell')
  unfold eventHandler
  by_cases hstates : P.actionArray.phandlingStates e = []
  · obtain ⟨more, hmore, -⟩ := foldl_default (P := P) (U := U) (.label (.this e)) (handlerStart w)
      (l := [P.noAction]) (by simp)
    have hrun : P.runBody U (.label (.this e)) none [P.noAction]
        { w with newState := w.state, newStateFn := w.currentState } =
          { handlerStart w with calls := (handlerStart w).calls ++ more } := hmore
    simp only [if_neg hsingle, if_pos hstates, if_pos h.actionsReturnStates, hrun]
    exact ⟨rfl, rfl⟩
  · have hbody : switchBody (P.handlerCases e) w.state = none := by
      apply switchBody_eq_none
      intro c hc hmem
      obtain ⟨t, ht, -, hlabels⟩ := exists_of_mem_printCases hc
      obtain rfl := List.mem_singleton.mp (hlabels ▸ hmem)
      obtain ⟨-, -, idx, ht⟩ := h.exists_of_mem_phandlingStates ht
      exact hidx idx ht
    simp only [if_neg hsingle, if_neg hstates, h.transitionHandlers_eq, hbody,
      h.actionsReturnStates]
    exact ⟨rfl, rfl⟩

/-- **The handler in a state with an entry** returns what it should if the routine for the entry's
transition is supplied, and leaves the machine's state to its caller. -/
lemma ReturnsStates.handlerRight_of_some (h : P.ReturnsStates) {e : ε} (he : e ∈ P.eventList)
    {w : MachineState ε σ} (hw : w.state ∈ P.stateList) {pai : ActionInfo ε σ}
    (hcell : P.cell e w.state = some pai) :
    (P.HandlerRight U w e ↔ Supplied U pai) ∧ (P.eventHandler U w e).state = w.state := by
  obtain ⟨idx, -, hpai⟩ := Option.bind_eq_some_iff.mp hcell
  have hmem := List.mem_of_getElem? hpai
  rw [HandlerRight, hcell, h.eventHandler_of_some he hw hcell]
  exact ⟨h.foldl_handlerStateCase hmem _ (handlerStart w),
    (quiet_foldl _ (handlerStart w)
      (target_eventTableBodies (.inl h.actionsReturnStates) pai).1).state⟩

/-- **The handler in a state without an entry** returns what it should if no state handles the
event. -/
lemma ReturnsStates.handlerRight_of_none (h : P.ReturnsStates) {e : ε} (he : e ∈ P.eventList)
    {w : MachineState ε σ} (hw : w.state ∈ P.stateList) (hcell : P.cell e w.state = none) :
    (P.HandlerRight U w e ↔ ∀ s ∈ P.stateList, P.cell e s = none) ∧
      (P.eventHandler U w e).state = w.state := by
  obtain ⟨hstate, hret⟩ := h.eventHandler_of_none (U := U) he hw hcell
  have hempty : P.actionArray.phandlingStates e = [] ↔ ∀ s ∈ P.stateList, P.cell e s = none := by
    rw [List.eq_nil_iff_forall_not_mem]
    constructor
    · intro hnot s hs
      rw [cell, Option.bind_eq_none_iff]
      intro idx hidx
      exact absurd (h.mem_phandlingStates.mpr ⟨idx, (h.cellIdx_eq_some_iff he hs).mp hidx⟩) (hnot s)
    · intro hnone s hmem
      obtain ⟨-, hs, idx, hidx⟩ := h.exists_of_mem_phandlingStates hmem
      obtain ⟨pai, hpai, -, -⟩ := h.exists_entry he hs hidx
      simpa [cell, hidx, hpai] using hnone s hs
  refine ⟨?_, hstate⟩
  rw [HandlerRight, hcell, hret, ← hempty]
  by_cases hstates : P.actionArray.phandlingStates e = [] <;> simp [hstates]

/-- The caller of a handler that is right takes the machine to the prescribed state. -/
private lemma ReturnsStates.statePrescribed_of_handlerRight (h : P.ReturnsStates) {e : ε}
    {w : MachineState ε σ} (hstate : (P.eventHandler U w e).state = w.state)
    (hright : P.HandlerRight U w e) : P.StatePrescribed U w (.label (.this e)) := by
  unfold HandlerRight at hright
  unfold StatePrescribed eventTableStep eventTablePass prescribed
  simp only [h.actionsReturnStates]
  cases hcell : P.cell e w.state with
  | some pai =>
    rw [hcell] at hright
    simp only [hright, Option.getD_some]
    by_cases hno : P.result U pai w.calls = P.noTransition
    · simp [hno, hstate]
    · simp [hno]
  | none =>
    rw [hcell] at hright
    rcases hright with hret | hret
    · simp [hret, hstate]
    · simp only [hret, Option.getD_some]
      split_ifs <;> first | rfl | exact hstate

/-- The prescribed state is a declared one. -/
lemma ReturnsStates.prescribed_mem (h : P.ReturnsStates) (hU : P.UserStatesDeclared U)
    {w : MachineState ε σ} (hw : w.state ∈ P.stateList) (v : EventValue ε) :
    P.prescribed U w v ∈ P.stateList := by
  unfold prescribed
  split
  · split
    · rename_i pai hcell
      obtain ⟨idx, -, hpai⟩ := Option.bind_eq_some_iff.mp hcell
      by_cases hno : P.result U pai w.calls = P.noTransition
      · simpa [hno] using hw
      · simpa [hno] using (h.result_mem hU (List.mem_of_getElem? hpai) w.calls).resolve_right hno
    · exact hw
  · exact hw

/-- **Handlers of -te** return what they should, and the runs go as the matrix prescribes, exactly
if every event is handled in all states or in none, and the routine for every plain transition is
supplied.

**Proof sketch.** The handler of an event does the statements for the cell of the current state.
They assign to the variable that is returned, if a transition's routine is there. Without a cell
the default of the switch assigns nothing, unless no state handles the event; then no switch is
printed, and the current state is returned. What the handlers return is what the caller enters. -/
theorem handlersRight_iff (h : P.ReturnsStates) (hU : P.UserStatesDeclared U) :
    P.HandlersRight U ↔ P.HandlersAssign U := by
  constructor
  · intro hright
    refine ⟨?_, ?_⟩
    · intro e he
      by_cases hall : ∀ s ∈ P.stateList, P.cell e s ≠ none
      · exact .inl hall
      · obtain ⟨s, hs, hcell⟩ : ∃ s ∈ P.stateList, P.cell e s = none := by
          simpa using hall
        let w : MachineState ε σ := { state := s, currentState := s }
        exact .inr ((h.handlerRight_of_none (w := w) he hs hcell).1.mp (hright.handler e he w hs))
    · intro e he s hs pai hcell
      let w : MachineState ε σ := { state := s, currentState := s }
      exact (h.handlerRight_of_some (w := w) he hs hcell).1.mp (hright.handler e he w hs)
  · intro hassign
    have hhandler : ∀ e ∈ P.eventList, ∀ w : MachineState ε σ, w.state ∈ P.stateList →
        P.HandlerRight U w e ∧ (P.eventHandler U w e).state = w.state := by
      intro e he w hw
      cases hcell : P.cell e w.state with
      | some pai =>
        obtain ⟨hiff, hstate⟩ := h.handlerRight_of_some (U := U) he hw hcell
        exact ⟨hiff.mpr (hassign.supplied e he w.state hw pai hcell), hstate⟩
      | none =>
        obtain ⟨hiff, hstate⟩ := h.handlerRight_of_none (U := U) he hw hcell
        exact ⟨hiff.mpr ((hassign.rows e he).resolve_left fun hall => hall _ hw hcell), hstate⟩
    -- one step
    have hstep : ∀ w : MachineState ε σ, ∀ v, w.state ∈ P.stateList → P.Receivable v →
        P.StatePrescribed U w v := by
      intro w v hw hv
      match v with
      | .label (.this e) =>
        obtain ⟨hright, hstate⟩ := hhandler e (hv e rfl) w hw
        exact h.statePrescribed_of_handlerRight hstate hright
      | .label (.ancestor e k) => exact (quiet_foreignPass w _).state
      | .noEvent => exact (quiet_foreignPass w _).state
      | .other n => exact (quiet_foreignPass w _).state
    refine ⟨fun e he w hw => (hhandler e he w hw).1, ?_⟩
    intro w hw vs hvs
    refine eachStep_of_invariant (I := fun w => w.state ∈ P.stateList) (P := P.Receivable) hstep
      ?_ hw hvs
    intro w v hw hv
    exact (hstep w v hw hv).symm ▸ h.prescribed_mem hU hw v

/-- The handlers of the two events of the machine with an entry in every cell are right. -/
theorem handlersRight_twoRowsMachine : twoRowsMachine.HandlersRight twoRowsFns :=
  (handlersRight_iff returnsStates_twoRowsMachine userStatesDeclared_twoRowsFns).mpr
    ⟨by decide, fun _ _ _ _ _ _ _ _ => rfl⟩

/-- A machine with two states, one of which handles the event. -/
def halfHandledMachine : RunningMachine ℕ ℕ where
  eventList := [0]
  stateList := [0, 1]
  consumedByTranslator := fun _ => false
  implementedBySubMachine := fun _ => false
  actionInfoList := [⟨"a", none, [0], [0]⟩]
  actionsReturn := .states
  noTransition := 2

/-- In the other state its handler returns no value. -/
theorem not_handlersRight_halfHandledMachine :
    ¬ ∀ (P : RunningMachine ℕ ℕ) (U : UserFns ℕ ℕ), P.ReturnsStates → P.UserStatesDeclared U →
      P.HandlersRight U := by
  intro h
  let U : UserFns ℕ ℕ := { noTransitionFns with state := fun _ => 0, unassigned := fun _ => 7 }
  have hreturns : halfHandledMachine.ReturnsStates :=
    ⟨⟨by simp [MachineMatrix.Declared, halfHandledMachine], by decide, by decide, by decide,
      by decide, by decide, by decide⟩, rfl, by simp [halfHandledMachine], by decide⟩
  have hright := (h halfHandledMachine U hreturns fun _ => .inl List.mem_cons_self).handler 0
    (by decide) ⟨1, 1, []⟩ (by decide)
  have hcell : halfHandledMachine.cell 0 1 = none := by decide
  have hret : (halfHandledMachine.eventHandler U ⟨1, 1, []⟩ 0).retState = none := by decide
  rw [HandlerRight, hcell, hret] at hright
  simp at hright

end StatesReturned

end RunningMachine

end FsmLang
