import Mathlib.Data.List.Basic
import Mathlib.Tactic
import FsmLang.CompactStates
import FsmLang.StatesReturned

set_option relaxedAutoImplicit false
set_option autoImplicit false

/-!
# Functions on state changes

A machine may have a function for all transitions, and its states functions for their entry and
exit. Five places call them: the end of a state function, the handler of the events handled in all
states, the handlers of -te, their caller where actions return states, and a state function that
returns a state together with its caller. The last one does not compare the state with the one
before: the state function calls the machine's function and the exit function if it returns any
state, and its caller the entry function.

With -ts a step can be the work of two functions, and of two events: the handler of the events
handled in all states may return another event, which a state function gets. `handedOn` tells the
first part from the second.

## Main definitions

* `HooksRight` — what is called between two states.
* `SwitchHooksRight` — so in both parts of a step of -ts.
* `NoSelfTransition` — a state function does not return the current state.

## Main results

* `hooksRight_of_quiet`, `hooksRight_of_enter` — what has not changed and what has.
* `hooksRight_iff` — when the functions are called as they should in a run.
-/

namespace FsmLang

open CSemantics

/-- The calls of the functions for state changes. -/
def Call.isHook {ε σ : Type*} : Call ε σ → Bool
  | .action _ => false
  | .transitionFn _ _ => false
  | .transitionTo _ => false
  | .subMachine _ => false
  | .machineTransition _ _ => true
  | .exitFn _ => true
  | .entryFn _ => true
  | .setState _ => false

/-- A call that changes no state is none of the functions for state changes. -/
lemma Call.isHook_eq_false {ε σ : Type*} {c : Call ε σ} (hc : c.isStateChange = false) :
    c.isHook = false := by
  cases c <;> first | rfl | cases hc

namespace RunningMachine

section Definitions

variable {ε σ : Type*} [DecidableEq ε] [DecidableEq σ] (P : RunningMachine ε σ) (U : UserFns ε σ)

/-- A flat machine with a function for its transitions; states may have entry and exit functions. -/
structure FlatWithHooks : Prop extends P.Accepted where
  machineTransition : P.machineTransition.isSome = true
  notImplemented : ∀ s, P.implementedBySubMachine s = false
  isTop : P.isSubMachine = false
  noSubMachines : P.hasSubMachines = false
  returnsStates : P.actionsReturn = .states → P.ReturnsStates

/-- From one state to another the machine's function is called with the new state, then the exit
function of the old one and the entry function of the new one, before the state is changed. While
the machine stays in its state none of them is called. -/
def HooksRight (w w' : MachineState ε σ) : Prop :=
  ∃ more, w'.calls = w.calls ++ more ∧
    if w'.state = w.state then ∀ c ∈ more, c.isHook = false
    else more.filter Call.isStateChange =
      P.stateChangeFns w.state w'.state ++ [.setState w'.state]

/-- This holds in both parts of a step of -ts. -/
def SwitchHooksRight (w : MachineState ε σ) (v : EventValue ε) : Prop :=
  if v.isLabel then
    P.HooksRight w (P.handedOn U w v).1 ∧
      ∀ v', (P.handedOn U w v).2 = some v' →
        P.HooksRight (P.handedOn U w v).1 (P.callStateFn U (P.handedOn U w v).1 v').1
  else P.HooksRight w (P.switchStep U w v)

/-- What a state function returns, where actions return states: what is returned for its entry, if
it has one for the event. -/
def returned (w : MachineState ε σ) (v : EventValue ε) : σ :=
  ((P.stateFnEntry w.state v).map (P.result U · w.calls)).getD P.noTransition

/-- Where actions return states, a state function does not return the current state, which is not
`noTransition`. -/
def NoSelfTransition (w : MachineState ε σ) (v : EventValue ε) : Prop :=
  P.actionsReturn = .states → P.uniformEntry v = none →
    P.returned U w v = w.state → w.state = P.noTransition

instance (w : MachineState ε σ) (v : EventValue ε) : Decidable (P.NoSelfTransition U w v) :=
  inferInstanceAs (Decidable (_ → _ → _ → _))

end Definitions

section Hooks

variable {ε σ : Type*} [DecidableEq ε] [DecidableEq σ] {P : RunningMachine ε σ} {U : UserFns ε σ}
  {w w' : MachineState ε σ}

omit [DecidableEq ε] in
/-- Nothing is called where nothing has changed. -/
lemma hooksRight_of_quiet (h : Quiet w w') : P.HooksRight w w' := by
  obtain ⟨hstate, -, more, hcalls, hmore⟩ := h
  refine ⟨more, hcalls, ?_⟩
  rw [if_pos hstate]
  exact fun c hc => Call.isHook_eq_false (hmore c hc)

omit [DecidableEq ε] [DecidableEq σ] in
/-- The functions for state changes are among the calls for state changes. -/
private lemma filter_stateChangeFns (s t : σ) :
    (P.stateChangeFns s t).filter Call.isStateChange = P.stateChangeFns s t := by
  rw [List.filter_eq_self]
  intro c hc
  simp only [stateChangeFns, List.mem_append, Option.mem_toList, Option.map_eq_some_iff] at hc
  rcases hc with (⟨name, -, rfl⟩ | ⟨name, -, rfl⟩) | ⟨name, -, rfl⟩ <;> rfl

omit [DecidableEq ε] in
/-- The functions are called where another state is entered. -/
lemma hooksRight_of_enter (h : Quiet w w') {t : σ} (ht : t ≠ w.state) {w'' : MachineState ε σ}
    (hstate : w''.state = t)
    (hcalls : w''.calls = w'.calls ++ P.stateChangeFns w.state t ++ [.setState t]) :
    P.HooksRight w w'' := by
  obtain ⟨-, -, more, hcalls', hmore⟩ := h
  refine ⟨more ++ P.stateChangeFns w.state t ++ [.setState t], ?_, ?_⟩
  · rw [hcalls, hcalls']
    simp only [List.append_assoc]
  · have hnone : more.filter Call.isStateChange = [] := by
      rw [List.filter_eq_nil_iff]
      intro c hc
      simp [hmore c hc]
    rw [hstate, if_neg ht, List.filter_append, List.filter_append, hnone, filter_stateChangeFns]
    rfl

omit [DecidableEq ε] in
/-- The functions are called if another state is entered, and not if the same state is assigned. -/
lemma hooksRight_of_compare (h : Quiet w w') {t : σ} {w'' : MachineState ε σ}
    (hstate : w''.state = t) (hcalls : w''.calls = w'.calls ++
      (if t ≠ w'.state then P.stateChangeFns w'.state t else []) ++ [.setState t]) :
    P.HooksRight w w'' := by
  by_cases ht : t = w.state
  · obtain ⟨hstate', -, more, hcalls', hmore⟩ := h
    rw [if_neg (by simp [ht, hstate']), List.append_nil, hcalls', List.append_assoc] at hcalls
    refine ⟨more ++ [.setState t], hcalls, ?_⟩
    rw [if_pos (hstate.trans ht)]
    exact List.forall_mem_append.mpr
      ⟨fun c hc => Call.isHook_eq_false (hmore c hc), by simp [Call.isHook]⟩
  · rw [h.state, if_pos ht] at hcalls
    exact hooksRight_of_enter h ht hstate hcalls

/-! ## Functions of -ts -/

omit [DecidableEq ε] [DecidableEq σ] in
/-- Functions are called on state changes, so the state to be entered is a local variable. -/
lemma stateTarget_eq (h : P.machineTransition.isSome = true) :
    P.executesFnsOnStateTransitions = true ∧ P.stateTarget = .newState := by
  have hfns : P.executesFnsOnStateTransitions = true := by
    simp [GeneratedMachine.executesFnsOnStateTransitions, h]
  exact ⟨hfns, by simp [GeneratedMachine.stateTarget, hfns]⟩

/-- What a state function does before its end. -/
lemma quiet_stateFnBody (h : P.stateTarget = .newState) (p : σ) (v : EventValue ε) :
    Quiet w (P.runBody U v (bodyFor (P.stateFnCases p) v)
      (if P.implementedBySubMachine p then [] else [P.noAction])
      (P.stateFnStart U p w v)).toMachineState := by
  refine (quiet_stateFnStart p w v).trans (quiet_runBody v _ ?_ ?_)
  · intro sts hsts
    rw [map_statements_stateFnCases] at hsts
    obtain ⟨pai, -, rfl⟩ := Option.map_eq_some_iff.mp hsts
    exact target_stateFnBody h p pai
  · split_ifs
    · simp
    · exact target_noAction

omit [DecidableEq ε] in
/-- The end of the handler of the events handled in all states. -/
private lemma hooksRight_allStatesEpilogue {f : Locals ε σ} (h : Quiet w f.toMachineState) :
    P.HooksRight w (P.allStatesEpilogue f).toMachineState := by
  unfold allStatesEpilogue
  by_cases hchange : (P.executesFnsOnStateTransitions && f.state ≠ f.newState &&
      (P.actionsReturn ≠ .states || f.newState ≠ P.noTransition)) = true
  · rw [if_pos hchange]
    have hne : f.newState ≠ w.state := by
      simp only [Bool.and_eq_true, decide_eq_true_eq] at hchange
      rw [← h.state]
      exact hchange.1.2.symm
    exact hooksRight_of_enter h hne rfl (by rw [h.state])
  · rw [if_neg hchange]
    exact hooksRight_of_quiet h

/-- **The handler of the events handled in all states.** -/
lemma hooksRight_allStatesHandler (h : P.stateTarget = .newState) (v : EventValue ε) :
    P.HooksRight w (P.allStatesHandler U w v).toMachineState := by
  apply hooksRight_allStatesEpilogue
  refine quiet_runBody v { w with retEvent := v, newState := w.state, newStateFn := w.currentState }
    ?_ ?_
  · intro sts hsts
    rw [map_statements_allStatesCases] at hsts
    obtain ⟨pai, -, rfl⟩ := Option.map_eq_some_iff.mp hsts
    exact target_allStatesBody h pai
  · simp

/-- The end of a state function, where actions do not return states. -/
private lemma hooksRight_stateFnEpilogue (hkind : P.actionsReturn ≠ .states) {f : Locals ε σ}
    (h : Quiet w f.toMachineState) :
    P.HooksRight w (P.stateFnEpilogue w.state f).toMachineState := by
  unfold stateFnEpilogue
  rw [if_neg hkind]
  by_cases hchange : (P.executesFnsOnStateTransitions && P.transitionsArePossible w.state &&
      w.state ≠ f.newState) = true
  · rw [if_pos hchange]
    have hne : f.newState ≠ w.state := by
      simp only [Bool.and_eq_true, decide_eq_true_eq] at hchange
      exact hchange.2.symm
    exact hooksRight_of_enter h hne rfl rfl
  · rw [if_neg hchange]
    exact hooksRight_of_quiet h

/-- **State functions** that do not return states. -/
lemma hooksRight_callStateFn (h : P.stateTarget = .newState) (hkind : P.actionsReturn ≠ .states)
    (hcalled : P.calledState w = w.state) (v : EventValue ε) :
    P.HooksRight w (P.callStateFn U w v).1 := by
  have hfn : P.HooksRight w (P.stateFn U w.state w v).toMachineState :=
    hooksRight_stateFnEpilogue hkind (quiet_stateFnBody h w.state v)
  unfold callStateFn
  rw [hcalled]
  split_ifs
  · exact hooksRight_of_quiet (Quiet.refl w)
  · cases hret : P.actionsReturn with
    | events => exact hfn
    | void => exact hfn
    | states => exact absurd hret hkind

/-- The end of a state function that returns a state. -/
private lemma stateFnEpilogue_of_states (hkind : P.actionsReturn = .states) {p s : σ}
    {f : Locals ε σ} (hret : f.retState = some s) : P.stateFnEpilogue p f =
      if s = P.noTransition then f
      else
        { f with
          calls := f.calls ++
            (P.machineTransition.map fun name => .machineTransition name s).toList ++
              ((P.exitFn p).map .exitFn).toList } := by
  unfold stateFnEpilogue
  rw [if_pos hkind, hret]
  by_cases hno : s = P.noTransition <;> simp [hno]

/-- A state function that returns a state, with its caller: unless that is `noTransition`, the
functions for state changes are called, and the state is entered. -/
private lemma FlatWithHooks.exists_callStateFn_eq (h : P.FlatWithHooks)
    (hkind : P.actionsReturn = .states)
    (w : MachineState ε σ) (v : EventValue ε) :
    ∃ w' : MachineState ε σ, Quiet w w' ∧ (P.callStateFn U w v).1 =
      if P.returned U w v = P.noTransition then w'
      else
        { w' with
          state := P.returned U w v
          calls := w'.calls ++ P.stateChangeFns w.state (P.returned U w v) ++
            [.setState (P.returned U w v)] } := by
  have hreturns := h.returnsStates hkind
  have hcalled : P.calledState w = w.state := by simp [calledState, hkind]
  have hstart : (P.stateFnStart U w.state w v).calls = w.calls := by
    simp [stateFnStart, h.notImplemented]
  -- what is returned, and what has been called before the end of the state function
  obtain ⟨-, hret⟩ := hreturns.stateFn_eq (U := U) w.state w v
  rw [hstart] at hret
  have htarget := (stateTarget_eq h.machineTransition).2
  have hquiet := quiet_stateFnBody (U := U) (w := w) htarget w.state v
  unfold stateFn at hret
  rw [(hreturns.stateFnEpilogue_eq _ _).2] at hret
  unfold callStateFn stateFn
  rw [if_neg (by simp [hkind]), hcalled]
  generalize P.runBody U v (bodyFor (P.stateFnCases w.state) v)
    (if P.implementedBySubMachine w.state then [] else [P.noAction])
    (P.stateFnStart U w.state w v) = f at hret hquiet ⊢
  change f.retState = some (P.returned U w v) at hret
  refine ⟨f.toMachineState, hquiet, ?_⟩
  rw [stateFnEpilogue_of_states hkind hret]
  simp only [hkind]
  by_cases hno : P.returned U w v = P.noTransition
  · simp [hno, hret]
  · simp [hno, hret, stateChangeFns]

/-- **State functions that return states**, with their caller: the functions for state changes are
called for every state that is returned. -/
lemma FlatWithHooks.hooksRight_callStateFn_iff (h : P.FlatWithHooks)
    (hkind : P.actionsReturn = .states) (w : MachineState ε σ) (v : EventValue ε) :
    P.HooksRight w (P.callStateFn U w v).1 ↔
      (P.returned U w v = w.state → w.state = P.noTransition) := by
  obtain ⟨w', hquiet, hcall⟩ := h.exists_callStateFn_eq (U := U) hkind w v
  rw [hcall]
  by_cases hno : P.returned U w v = P.noTransition
  · rw [if_pos hno]
    exact ⟨fun _ hsame => hsame.symm.trans hno, fun _ => hooksRight_of_quiet hquiet⟩
  · rw [if_neg hno]
    by_cases hsame : P.returned U w v = w.state
    · -- the machine's function is called though the state is the same
      refine iff_of_false ?_ fun hcond => hno (hsame.trans (hcond hsame))
      rintro ⟨more, hcalls, hright⟩
      obtain ⟨name, hname⟩ := Option.isSome_iff_exists.mp h.machineTransition
      obtain ⟨-, -, before, hbefore, -⟩ := hquiet
      simp only [hsame, if_true] at hcalls hright
      rw [hbefore, List.append_assoc, List.append_assoc] at hcalls
      have hmore := List.append_cancel_left hcalls
      have hmem : Call.machineTransition name w.state ∈ more := by
        rw [← hmore]
        simp [stateChangeFns, hname]
      exact absurd (hright _ hmem) (by simp [Call.isHook])
    · refine iff_of_true ?_ fun h => absurd h hsame
      exact hooksRight_of_enter hquiet hsame rfl rfl

/-! ## Handlers of -te -/

omit [DecidableEq ε] in
/-- The end of an event handler. -/
private lemma hooksRight_transitionHandlers (transitions : Bool) {f : Locals ε σ}
    (h : Quiet w f.toMachineState) :
    P.HooksRight w (P.transitionHandlers transitions f).toMachineState := by
  unfold transitionHandlers
  by_cases hfollows :
      (P.actionsReturn ≠ .states && P.executesFnsOnStateTransitions && transitions) = true
  · rw [if_pos hfollows]
    exact hooksRight_of_compare h rfl rfl
  · rw [if_neg hfollows]
    exact hooksRight_of_quiet h

/-- An event handler up to its end. -/
private lemma exists_eventHandler_eq (h : P.stateTarget = .newState) (w : MachineState ε σ)
    (e : ε) :
    ∃ transitions f, Quiet w f.toMachineState ∧ (P.eventHandler U w e).toMachineState =
      (P.transitionHandlers transitions f).toMachineState := by
  have hnone : ∀ f : Locals ε σ, P.transitionHandlers false f = f := by simp [transitionHandlers]
  let f : Locals ε σ := { w with newState := w.state, newStateFn := w.currentState }
  -- all bodies of handlers assign to local variables
  have hrun : ∀ body sts, (∀ sts', body.map CaseBody.statements = some sts' →
      ∀ st ∈ sts', st.target ≠ some .machineState) → (∀ st ∈ sts, st.target ≠ some .machineState) →
        Quiet w (P.runBody U (.label (.this e)) body sts f).toMachineState :=
    fun body sts hbody hsts => quiet_runBody _ f hbody hsts
  unfold eventHandler
  by_cases hsingle : P.actionArray.singlePaiForAllStates e = true
  · rw [if_pos hsingle]
    cases (P.actionArray.psinglePai e).bind (P.actionInfoList[·]?) with
    | none => exact ⟨false, f, Quiet.refl w, by rw [hnone]⟩
    | some pai =>
      by_cases hown : P.eventHandlerCannotBeItsAction pai = true
      · refine ⟨pai.transition.isSome, _, hrun none (P.singlePaiBody pai) (by simp) ?_, ?_⟩
        · exact (target_eventTableBodies (.inr h) pai).2
        · simp only [if_pos hown]
          rfl
      · refine ⟨false, _, hrun none [.callAction (if P.actionsReturn = .void then none
          else some .result) pai.action] (by simp) ?_, ?_⟩
        · split_ifs <;> simp [BodyStatement.target]
        · simp only [if_neg hown, hnone]
          rfl
  · rw [if_neg hsingle]
    by_cases hstates : P.actionArray.phandlingStates e = []
    · refine ⟨false, _, hrun none [P.noAction] (by simp) target_noAction, ?_⟩
      rw [if_pos hstates, hnone]
      simp only
      split_ifs <;> rfl
    · rw [if_neg hstates]
      refine ⟨P.findTransition e, _, hrun (switchBody (P.handlerCases e) w.state)
        (if P.actionsReturn = .events then [P.noAction] else []) ?_ ?_, rfl⟩
      · intro sts hsts
        rw [map_statements_handlerCases] at hsts
        obtain ⟨pai, -, rfl⟩ := Option.map_eq_some_iff.mp hsts
        exact (target_eventTableBodies (.inr h) pai).1
      · split_ifs
        · exact target_noAction
        · simp

/-- **Event handlers of -te**, with their caller. -/
lemma hooksRight_eventTableStep (h : P.stateTarget = .newState) (w : MachineState ε σ)
    (v : EventValue ε) : P.HooksRight w (P.eventTableStep U w v) := by
  match v with
  | .label (.this e) =>
    obtain ⟨transitions, f, hquiet, hhandler⟩ := exists_eventHandler_eq (U := U) h w e
    have hhooks := hooksRight_transitionHandlers (P := P) transitions hquiet
    rw [← hhandler] at hhooks
    unfold eventTableStep eventTablePass
    cases hkind : P.actionsReturn with
    | events => exact hhooks
    | void => exact hhooks
    | states =>
      have hstates : P.transitionHandlers transitions f = f := by simp [transitionHandlers, hkind]
      rw [hstates] at hhandler
      rw [← hhandler] at hquiet
      simp only
      by_cases hno : (P.eventHandler U w e).retState.getD
          (U.unassigned (P.eventHandler U w e).calls) = P.noTransition
      · rw [if_neg (by simpa using hno)]
        exact hooksRight_of_quiet hquiet
      · rw [if_pos hno]
        exact hooksRight_of_compare hquiet rfl rfl
  | .label (.ancestor e k) => exact hooksRight_of_quiet (quiet_foreignPass w _)
  | .noEvent => exact hooksRight_of_quiet (quiet_foreignPass w _)
  | .other n => exact hooksRight_of_quiet (quiet_foreignPass w _)

/-! ## Steps of -ts -/

/-- The handler of the events handled in all states, as a part of a step. -/
lemma hooksRight_handedOn (h : P.stateTarget = .newState) (w : MachineState ε σ)
    (v : EventValue ε) : P.HooksRight w (P.handedOn U w v).1 := by
  unfold handedOn
  split_ifs
  · exact hooksRight_allStatesHandler h v
  · exact hooksRight_of_quiet (Quiet.refl w)

/-- Where actions return states, an event is left to a state function if no entry handles it in all
states. -/
private lemma ReturnsStates.handedOn_eq (h : P.ReturnsStates) (w : MachineState ε σ)
    (v : EventValue ε) :
    if P.uniformEntry v = none then P.handedOn U w v = (w, some v)
    else (P.handedOn U w v).2 = none := by
  unfold handedOn uniformEntry
  by_cases hhas : P.actionArray.hasSinglePaiEvents = true
  · simp only [if_pos hhas, h.actionsReturnStates]
    cases hentry : P.allStatesEntry v with
    | none =>
      obtain ⟨hhandled, hworld⟩ := allStatesHandler_of_none (U := U) hentry w
      simp [hhandled, hworld]
    | some pai =>
      obtain ⟨hhandled, -⟩ := h.allStatesHandler_of_some (U := U) hentry w
      simp [hhandled]
  · simp [if_neg hhas]

/-- The machine calls the function of its state, also after a step and between its parts. -/
lemma calledState_switchStep (hU : P.compactActionArray = true → U.Matching)
    (hw : P.calledState w = w.state) (v : EventValue ε) :
    P.calledState (P.handedOn U w v).1 = (P.handedOn U w v).1.state ∧
      P.calledState (P.switchStep U w v) = (P.switchStep U w v).state := by
  unfold calledState at hw ⊢
  by_cases hcompact : (P.compactActionArray && P.actionsReturn ≠ .states) = true
  · simp only [if_pos hcompact] at hw ⊢
    simp only [Bool.and_eq_true, decide_eq_true_eq] at hcompact
    have hself : Matches w w := ⟨rfl, rfl, hw⟩
    exact ⟨(hself.handedOn hcompact.1 hcompact.2 (hU hcompact.1) v).1.paired,
      (hself.switchPass hcompact.1 hcompact.2 (hU hcompact.1) v).1.paired⟩
  · simp only [if_neg hcompact]
    exact ⟨trivial, trivial⟩

/-- **One step of -ts.** -/
lemma FlatWithHooks.switchHooksRight_iff (h : P.FlatWithHooks)
    (hU : P.compactActionArray = true → U.Matching) (hw : P.calledState w = w.state)
    (v : EventValue ε) : P.SwitchHooksRight U w v ↔ P.NoSelfTransition U w v := by
  have htarget := (stateTarget_eq h.machineTransition).2
  unfold SwitchHooksRight NoSelfTransition
  cases hlabel : v.isLabel with
  | false =>
    obtain ⟨-, hentry⟩ := entries_of_not_isLabel (P := P) hlabel w.state
    refine iff_of_true ?_ fun _ _ hsame => ?_
    · rw [if_neg (by simp), switchStep, switchPass_of_not_isLabel hlabel]
      exact hooksRight_of_quiet (quiet_foreignPass w v)
    · rw [returned, hentry] at hsame
      exact hsame.symm
  | true =>
    rw [if_pos rfl]
    by_cases hkind : P.actionsReturn = .states
    · have hhanded := (h.returnsStates hkind).handedOn_eq (U := U) w v
      by_cases huniform : P.uniformEntry v = none
      · rw [if_pos huniform] at hhanded
        rw [hhanded, ← h.hooksRight_callStateFn_iff hkind w v]
        constructor
        · rintro ⟨-, hright⟩ _ _
          exact hright v rfl
        · intro hright
          refine ⟨hooksRight_of_quiet (Quiet.refl w), fun v' hv' => ?_⟩
          obtain rfl := Option.some.inj hv'
          exact hright hkind huniform
      · rw [if_neg huniform] at hhanded
        refine iff_of_true ⟨hooksRight_handedOn htarget w v, ?_⟩
          fun _ hnone => absurd hnone huniform
        simp [hhanded]
    · refine iff_of_true ⟨hooksRight_handedOn htarget w v, fun v' _ => ?_⟩
        fun hstates => absurd hstates hkind
      exact hooksRight_callStateFn htarget hkind (calledState_switchStep hU hw v).1 v'

/-- **Functions on state changes** of a flat machine are called as they should in a run of -ts
exactly if, where actions return states, no state function returns the current state in it; and in
every run of -te.

**Proof sketch.** The bodies of all functions assign to local variables, so that nothing is called
for a state change before the end of a function. There the new state is compared with the one
before, but not in a state function that returns a state. This one calls the machine's function for
every state that it returns. -/
theorem hooksRight_iff (h : P.FlatWithHooks) (hU : P.compactActionArray = true → U.Matching)
    (hw : P.calledState w = w.state) (vs : List (EventValue ε)) :
    (EachStep (P.switchStep U) (P.SwitchHooksRight U) w vs ↔
        EachStep (P.switchStep U) (P.NoSelfTransition U) w vs) ∧
      EachStep (P.eventTableStep U) (fun w v => P.HooksRight w (P.eventTableStep U w v)) w vs := by
  constructor
  · refine eachStep_congr (I := fun w => P.calledState w = w.state) (P := fun _ => True) ?_ ?_ hw
      (fun _ _ => trivial)
    · intro w v hw _
      exact h.switchHooksRight_iff hU hw v
    · intro w v hw _ _
      exact (calledState_switchStep hU hw v).2
  · have htarget := (stateTarget_eq h.machineTransition).2
    refine eachStep_of_invariant (I := fun _ => True) (P := fun _ => True) ?_ ?_ trivial
      (fun _ _ => trivial)
    · intro w v _ _
      exact hooksRight_eventTableStep htarget w v
    · intro w v _ _
      trivial

end Hooks

/-- A machine with two states and all functions for state changes; its event is handled in the first
state, by an action that returns a state. -/
def selfTransitionMachine : RunningMachine ℕ ℕ where
  eventList := [0]
  stateList := [0, 1]
  consumedByTranslator := fun _ => false
  implementedBySubMachine := fun _ => false
  actionInfoList := [⟨"a", none, [0], [0]⟩]
  actionsReturn := .states
  machineTransition := some "t"
  entryFn := fun _ => some "entered"
  exitFn := fun _ => some "left"
  noTransition := 2

/-- Its action returns the first state. -/
def firstStateFns : UserFns ℕ ℕ where
  event := fun _ => .noEvent
  state := fun _ => 0
  stateAndFn := fun _ => (0, 0)
  suppliesTransitionTo := fun _ => false
  unassigned := fun _ => 0

/-- The machine is flat and has functions for state changes. -/
lemma flatWithHooks_selfTransitionMachine : selfTransitionMachine.FlatWithHooks := by
  have haccepted : selfTransitionMachine.Accepted :=
    ⟨by simp [MachineMatrix.Declared, selfTransitionMachine], by decide, by decide, by decide,
      by decide, by decide, by decide⟩
  exact ⟨haccepted, rfl, fun _ => rfl, rfl, rfl,
    fun _ => ⟨haccepted, rfl, by simp [selfTransitionMachine], by decide⟩⟩

/-- The same functions, but for an action that returns the second state. -/
def otherStateFns : UserFns ℕ ℕ := { firstStateFns with state := fun _ => 1 }

/-- The event takes the machine from the first state to the second one, where it is not handled. -/
theorem hooksRight_selfTransitionMachine :
    EachStep (selfTransitionMachine.switchStep otherStateFns)
        (selfTransitionMachine.SwitchHooksRight otherStateFns) ⟨0, 0, []⟩
        [.label (.this 0), .label (.this 0)] ∧
      EachStep (selfTransitionMachine.eventTableStep otherStateFns)
        (fun w v => selfTransitionMachine.HooksRight w
          (selfTransitionMachine.eventTableStep otherStateFns w v)) ⟨0, 0, []⟩
        [.label (.this 0), .label (.this 0)] := by
  have hright := hooksRight_iff (U := otherStateFns) (w := ⟨0, 0, []⟩)
    flatWithHooks_selfTransitionMachine nofun rfl [.label (.this 0), .label (.this 0)]
  exact ⟨hright.1.mpr (by decide), hright.2⟩

/-- The event calls `t`, `left` and `entered` in the first state, though the machine stays in it. -/
theorem not_hooksRight_selfTransitionMachine :
    ¬ ∀ (P : RunningMachine ℕ ℕ) (U : UserFns ℕ ℕ), P.FlatWithHooks →
      (P.compactActionArray = true → U.Matching) → ∀ w : MachineState ℕ ℕ,
        P.calledState w = w.state → ∀ vs : List (EventValue ℕ),
          EachStep (P.switchStep U) (P.SwitchHooksRight U) w vs ∧
            EachStep (P.eventTableStep U) (fun w v => P.HooksRight w (P.eventTableStep U w v)) w
              vs := by
  intro h
  have hrun := h selfTransitionMachine firstStateFns flatWithHooks_selfTransitionMachine nofun
    ⟨0, 0, []⟩ rfl [.label (.this 0)]
  obtain ⟨more, hcalls, hnone⟩ := hrun.1.1.2 (.label (.this 0)) (by decide)
  have hbefore : (selfTransitionMachine.handedOn firstStateFns ⟨0, 0, []⟩
      (.label (.this 0))).1 = ⟨0, 0, []⟩ := by decide
  rw [hbefore] at hcalls hnone
  have hstate : (selfTransitionMachine.callStateFn firstStateFns ⟨0, 0, []⟩
      (.label (.this 0))).1.state = 0 := by decide
  rw [if_pos hstate] at hnone
  have hmem : Call.machineTransition "t" 0 ∈ (selfTransitionMachine.callStateFn firstStateFns
      ⟨0, 0, []⟩ (.label (.this 0))).1.calls := by decide
  rw [hcalls] at hmem
  exact absurd (hnone _ (by simpa using hmem)) (by decide)

end RunningMachine

end FsmLang
