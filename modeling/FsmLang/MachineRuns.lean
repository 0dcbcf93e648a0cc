import Mathlib.Data.List.Basic
import Mathlib.Tactic
import FsmLang.CSemantics.Runs
import FsmLang.CaseLabels

set_option relaxedAutoImplicit false
set_option autoImplicit false

/-!
# Running the functions of -ts and -te

What the printed statements do, what the functions around them do before and after the switch, and
what a machine's function does with one event. A run processes events one after the other; they
come from outside or, where actions return events, from the pass before.

The user's functions are seen through their calls, and return what they please. A local variable
that no statement has assigned to has some value, too.

## Main definitions

* `Call`, `MachineState`, `UserFns` — what is observed, and what the user's functions return.
* `RunningMachine` — what the functions read besides the matrix.
* `exec` — a statement.
* `stateFn`, `allStatesHandler`, `eventHandler` — the functions.
* `switchPass`, `eventTablePass` — one event in the machine's function.

## Main results

* `map_statements_stateFnCases` and its siblings — the switches, by the entries they lead to.
* `quiet_foldl`, `quiet_runBody` — statements and bodies that leave the machine's state alone.
-/

namespace FsmLang

open CSemantics

/-! ## Values and calls -/

/-- The value of an event: one of those that the machine's switches have labels for, `noEvent`, or
an event of a sub-machine. -/
inductive EventValue (ε : Type*) where
  | label (x : EventLabel ε)
  | noEvent
  | other (n : ℕ)
  deriving DecidableEq, Repr

/-- The switches have a label for the value. -/
def EventValue.isLabel {ε : Type*} : EventValue ε → Bool
  | .label _ => true
  | .noEvent => false
  | .other _ => false

/-- A call of one of the user's functions or of a sub-machine, with its arguments other than the
machine itself, or an assignment to the machine's state. Transition functions go by their names in
C. -/
inductive Call (ε σ : Type*) where
  | action (name : String)
  | transitionFn (cName : String) (e : Option (EventValue ε))
  | transitionTo (s : σ)
  | subMachine (e : EventValue ε)
  | machineTransition (name : String) (s : σ)
  | exitFn (name : String)
  | entryFn (name : String)
  | setState (s : σ)
  deriving DecidableEq, Repr

/-- The calls of the functions for state changes, and the state changes. -/
def Call.isStateChange {ε σ : Type*} : Call ε σ → Bool
  | .action _ => false
  | .transitionFn _ _ => false
  | .transitionTo _ => false
  | .subMachine _ => false
  | .machineTransition _ _ => true
  | .exitFn _ => true
  | .entryFn _ => true
  | .setState _ => true

/-- A machine at run time: its state, the state whose function it points to, if it is compact, and
the calls so far. -/
structure MachineState (ε σ : Type*) where
  state : σ
  currentState : σ
  calls : List (Call ε σ) := []
  deriving DecidableEq, Repr

/-- What the user's functions return after the calls so far, their own included: actions and
sub-machines an event, actions and transition functions a state, transition functions of compact
machines a state and the state whose function they return; which of the routines `transitionTo<S>`
the user supplies; and what is found in a variable that has no value. -/
structure UserFns (ε σ : Type*) where
  event : List (Call ε σ) → EventValue ε
  state : List (Call ε σ) → σ
  stateAndFn : List (Call ε σ) → σ × σ
  suppliesTransitionTo : σ → Bool
  unassigned : List (Call ε σ) → σ

/-- The local variables of a function: what it returns, where the event table has no value in the
beginning; `new_s` (or `s`) and `new_sfn`; and `handled`. -/
structure Locals (ε σ : Type*) extends MachineState ε σ where
  retEvent : EventValue ε := .noEvent
  retState : Option σ := none
  newState : σ
  newStateFn : σ
  handled : Bool := false
  deriving DecidableEq, Repr

/-- The events that have labels. -/
lemma EventValue.exists_eq_label {ε : Type*} {v : EventValue ε} (hv : v.isLabel = true) :
    ∃ x, v = .label x := by
  cases v with
  | label x => exact ⟨x, rfl⟩
  | noEvent => cases hv
  | other n => cases hv

section Values

variable {ε σ : Type*}

/-- What a statement assigns to. -/
def BodyStatement.target : BodyStatement σ → Option Target
  | .actionEntry => none
  | .actionExit => none
  | .debugPrintf => none
  | .handled => none
  | .setNoEvent => none
  | .callEmptyCellFn _ => none
  | .callAction x _ => x
  | .setState x _ => some x
  | .setStateFn x _ => some x
  | .callTransitionFn x _ => some x
  | .callCompactTransitionFn x _ => some x
  | .callTransitionTo x _ => some x

/-- One more call. -/
def MachineState.call (w : MachineState ε σ) (c : Call ε σ) : MachineState ε σ :=
  { w with calls := w.calls ++ [c] }

/-- One more call, in a function. -/
def Locals.call (f : Locals ε σ) (c : Call ε σ) : Locals ε σ := { f with calls := f.calls ++ [c] }

/-- Assign a state. -/
def Locals.assign (f : Locals ε σ) (x : Target) (s : σ) : Locals ε σ :=
  match x with
  | .result => { f with retState := some s }
  | .newState => { f with newState := s }
  | .machineState => { f with state := s, calls := f.calls ++ [.setState s] }

/-- Assign a state function, in a compact machine. -/
def Locals.assignFn (f : Locals ε σ) (x : Target) (s : σ) : Locals ε σ :=
  match x with
  | .result => f
  | .newState => { f with newStateFn := s }
  | .machineState => { f with currentState := s }

end Values

/-- A machine as its functions are printed: the state that stands for no transition, the names that
C functions begin with (`ufMachineName`, which may be short, and `fqMachineName`), whether it is a
sub-machine, and its own sub-machines. -/
structure RunningMachine (ε σ : Type*) extends GeneratedMachine ε σ where
  noTransition : σ
  ufMachineName : String := ""
  fqMachineName : String := ""
  isSubMachine : Bool := false
  hasSubMachines : Bool := false
  inhibitsSubMachines : σ → Bool := fun _ => false

namespace RunningMachine

/-! ## Statements -/

section Exec

variable {ε σ : Type*} (P : RunningMachine ε σ) (U : UserFns ε σ)

/-- The event that a transition function gets. -/
def transitionArg (e : EventValue ε) : Option (EventValue ε) :=
  if P.actionsReturn = .states then none else some e

/-- A statement, in a function that is called for the event `e`. -/
def exec (e : EventValue ε) (f : Locals ε σ) : BodyStatement σ → Locals ε σ
  | .actionEntry => f
  | .actionExit => f
  | .debugPrintf => f
  | .handled => { f with handled := true }
  | .setNoEvent => { f with retEvent := .noEvent }
  | .callEmptyCellFn name => f.call (.action name)
  | .callAction none name => f.call (.action name)
  | .callAction (some x) name =>
    let g := f.call (.action name)
    if P.actionsReturn = .states then g.assign x (U.state g.calls)
    else { g with retEvent := U.event g.calls }
  | .setState x s => f.assign x s
  | .setStateFn x s => f.assignFn x s
  | .callTransitionFn x name =>
    let g := f.call (.transitionFn (P.ufMachineName ++ "_" ++ name) (P.transitionArg e))
    g.assign x (U.state g.calls)
  | .callCompactTransitionFn x name =>
    let g := f.call (.transitionFn (P.fqMachineName ++ "_" ++ name) (P.transitionArg e))
    (g.assign x (U.stateAndFn g.calls).1).assignFn x (U.stateAndFn g.calls).2
  | .callTransitionTo x s =>
    let g := f.call (.transitionTo s)
    if U.suppliesTransitionTo s then g.assign x s else { g with retState := none }

/-- The body of a case, or the default. -/
def runBody (e : EventValue ε) (body : Option (CaseBody σ)) (default : List (BodyStatement σ))
    (f : Locals ε σ) : Locals ε σ :=
  ((body.map (·.statements)).getD default).foldl (P.exec U e) f

/-- The functions that are called on the way from one state to another. -/
def stateChangeFns (s t : σ) : List (Call ε σ) :=
  (P.machineTransition.map fun name => .machineTransition name t).toList ++
    ((P.exitFn s).map .exitFn).toList ++ ((P.entryFn t).map .entryFn).toList

/-- What becomes of an event that is not the machine's own. -/
def foreignPass (w : MachineState ε σ) (v : EventValue ε) : MachineState ε σ × EventValue ε :=
  if P.hasSubMachines && !P.inhibitsSubMachines w.state then
    let w' := w.call (.subMachine v)
    (w', if P.actionsReturn = .events then U.event w'.calls else .noEvent)
  else (w, .noEvent)

end Exec

/-! ## The functions of -ts -/

section Switch

variable {ε σ : Type*} [DecidableEq ε] [DecidableEq σ] (P : RunningMachine ε σ) (U : UserFns ε σ)

/-- The body that a switch over events leads to. -/
def bodyFor {β : Type*} (cases : List (Case (EventLabel ε) β)) : EventValue ε → Option β
  | .label x => switchBody cases x
  | .noEvent => none
  | .other _ => none

/-- An entry of the state's column has a transition (`find_first_array_element_with_transition`). -/
def transitionsArePossible (s : σ) : Bool :=
  P.eventList.any fun e => ((P.cellIdx e s).bind (P.actionInfoList[·]?)).any (·.transition.isSome)

/-- The end of a state function (`print_state_fn_epilogue`, and that of
`define_state_returning_state_fn`). -/
def stateFnEpilogue (p : σ) (f : Locals ε σ) : Locals ε σ :=
  if P.actionsReturn = .states then
    match f.retState with
    | none => f
    | some s =>
      if s ≠ P.noTransition then
        { f with calls := f.calls ++
            (P.machineTransition.map fun name => .machineTransition name s).toList ++
              ((P.exitFn p).map .exitFn).toList }
      else f
  else if P.executesFnsOnStateTransitions && P.transitionsArePossible p && p ≠ f.newState then
    { f with
      state := f.newState
      currentState := if P.compactActionArray then f.newStateFn else f.currentState
      calls := f.calls ++ P.stateChangeFns p f.newState ++ [.setState f.newState] }
  else f

/-- The frame that a state function starts its switch with. -/
def stateFnStart (p : σ) (w : MachineState ε σ) (v : EventValue ε) : Locals ε σ :=
  let f : Locals ε σ :=
    { w with retState := some P.noTransition, newState := p, newStateFn := p }
  if P.implementedBySubMachine p then
    let g := f.call (.subMachine v)
    if P.actionsReturn = .events then { g with retEvent := U.event g.calls } else g
  else f

/-- The function of the state `p`. -/
def stateFn (p : σ) (w : MachineState ε σ) (v : EventValue ε) : Locals ε σ :=
  P.stateFnEpilogue p
    (P.runBody U v (bodyFor (P.stateFnCases p) v)
      (if P.implementedBySubMachine p then [] else [P.noAction]) (P.stateFnStart U p w v))

/-- The end of the handler of the events handled in all states. -/
def allStatesEpilogue (f : Locals ε σ) : Locals ε σ :=
  if P.executesFnsOnStateTransitions && f.state ≠ f.newState &&
      (P.actionsReturn ≠ .states || f.newState ≠ P.noTransition) then
    { f with
      state := f.newState
      currentState := if P.compactActionArray then f.newStateFn else f.currentState
      calls := f.calls ++ P.stateChangeFns f.state f.newState ++ [.setState f.newState] }
  else f

/-- The handler of the events handled in all states (`defineAllStateHandler`). Where actions return
events, its default returns the event. -/
def allStatesHandler (w : MachineState ε σ) (v : EventValue ε) : Locals ε σ :=
  let f : Locals ε σ :=
    { w with retEvent := v, newState := w.state, newStateFn := w.currentState }
  P.allStatesEpilogue (P.runBody U v (bodyFor P.allStatesCases v) [] f)

/-- The state whose function is called: the one that the array of state functions is indexed by, or
in a compact machine the one pointed to. -/
def calledState (w : MachineState ε σ) : σ :=
  if P.compactActionArray && P.actionsReturn ≠ .states then w.currentState else w.state

/-- The call of a state function. A sub-machine whose actions do not return states tests the event
first. The caller of a function that returns a state enters it. -/
def callStateFn (w : MachineState ε σ) (v : EventValue ε) : MachineState ε σ × EventValue ε :=
  if P.isSubMachine && P.actionsReturn ≠ .states && !v.isLabel then (w, v)
  else
    let f := P.stateFn U (P.calledState w) w v
    match P.actionsReturn with
    | .events => (f.toMachineState, f.retEvent)
    | .void => (f.toMachineState, .noEvent)
    | .states =>
      let s := f.retState.getD (U.unassigned f.calls)
      if s ≠ P.noTransition then
        ({ f.toMachineState with
            state := s
            calls := f.calls ++ ((P.entryFn s).map .entryFn).toList ++ [.setState s] }, .noEvent)
      else (f.toMachineState, .noEvent)

/-- One event in the function of the machine, with the event that is to be processed next. -/
def switchPass (w : MachineState ε σ) (v : EventValue ε) : MachineState ε σ × EventValue ε :=
  match v with
  | .label _ =>
    if P.actionArray.hasSinglePaiEvents then
      let f := P.allStatesHandler U w v
      match P.actionsReturn with
      | .events =>
        if f.retEvent = .noEvent then (f.toMachineState, .noEvent)
        else P.callStateFn U f.toMachineState f.retEvent
      | _ =>
        if f.handled then (f.toMachineState, .noEvent) else P.callStateFn U f.toMachineState v
    else P.callStateFn U w v
  | _ => P.foreignPass U w v

/-- The machine after one event. -/
def switchStep (w : MachineState ε σ) (v : EventValue ε) : MachineState ε σ :=
  (P.switchPass U w v).1

end Switch

/-! ## The functions of -te -/

section EventTable

variable {ε σ : Type*} [DecidableEq ε] [DecidableEq σ] (P : RunningMachine ε σ) (U : UserFns ε σ)

/-- The statements for an event that one entry handles in all states
(`print_event_table_handler_body_for_single_state_or_pai_events_are`, `.._arv` and `.._ars`). -/
def singlePaiBody (pai : ActionInfo ε σ) : List (BodyStatement σ) :=
  match P.actionsReturn with
  | .events =>
    (if pai.action = "" then [.setNoEvent, .debugPrintf]
      else P.profiled (.callAction (some .result) pai.action)) ++
      P.handlerTransition P.stateTarget pai.transition
  | .void =>
    (if pai.action = "" then [.debugPrintf] else P.profiled (.callAction none pai.action)) ++
      P.handlerTransition P.stateTarget pai.transition
  | .states =>
    (if pai.action = "" then [] else P.profiled (.callAction (some .result) pai.action)) ++
      P.handlerTransition .result pai.transition

/-- The handler is a function of its own, and not the entry's action. -/
def eventHandlerCannotBeItsAction (pai : ActionInfo ε σ) : Bool :=
  P.addProfilingMacros || pai.transition.isSome

/-- What follows the transition in a handler (`print_any_transition_handlers`). -/
def transitionHandlers (transitions : Bool) (f : Locals ε σ) : Locals ε σ :=
  if P.actionsReturn ≠ .states && P.executesFnsOnStateTransitions && transitions then
    { f with
      state := f.newState
      calls := f.calls ++
        (if f.newState ≠ f.state then P.stateChangeFns f.state f.newState else []) ++
          [.setState f.newState] }
  else f

/-- One of the states that handle an event has a transition for it (`find_transition`). -/
def findTransition (e : ε) : Bool :=
  (P.actionArray.phandlingStates e).any fun s =>
    ((P.cellIdx e s).bind (P.actionInfoList[·]?)).any (·.transition.isSome)

/-- The handler of an event (`define_event_table_handler`). -/
def eventHandler (w : MachineState ε σ) (e : ε) : Locals ε σ :=
  let v : EventValue ε := .label (.this e)
  let f : Locals ε σ := { w with newState := w.state, newStateFn := w.currentState }
  if P.actionArray.singlePaiForAllStates e then
    match (P.actionArray.psinglePai e).bind (P.actionInfoList[·]?) with
    | none => f
    | some pai =>
      if P.eventHandlerCannotBeItsAction pai then
        P.transitionHandlers pai.transition.isSome (P.runBody U v none (P.singlePaiBody pai) f)
      else
        let x := if P.actionsReturn = .void then none else some .result
        P.runBody U v none [.callAction x pai.action] f
  else if P.actionArray.phandlingStates e = [] then
    let g := P.runBody U v none [P.noAction] f
    if P.actionsReturn = .states then { g with retState := some g.state } else g
  else
    P.transitionHandlers (P.findTransition e)
      (P.runBody U v (switchBody (P.handlerCases e) w.state)
        (if P.actionsReturn = .events then [P.noAction] else []) f)

/-- One event in the function of the machine. The caller of a handler that returns a state enters
it. -/
def eventTablePass (w : MachineState ε σ) (v : EventValue ε) : MachineState ε σ × EventValue ε :=
  match v with
  | .label (.this e) =>
    let f := P.eventHandler U w e
    match P.actionsReturn with
    | .events => (f.toMachineState, f.retEvent)
    | .void => (f.toMachineState, .noEvent)
    | .states =>
      let s := f.retState.getD (U.unassigned f.calls)
      if s ≠ P.noTransition then
        ({ f.toMachineState with
            state := s
            calls := f.calls ++ (if s ≠ f.state then P.stateChangeFns f.state s else []) ++
              [.setState s] }, .noEvent)
      else (f.toMachineState, .noEvent)
  | _ => P.foreignPass U w v

/-- The machine after one event. -/
def eventTableStep (w : MachineState ε σ) (v : EventValue ε) : MachineState ε σ :=
  (P.eventTablePass U w v).1

end EventTable

/-! ## Entries -/

section Entries

variable {ε σ : Type*} [DecidableEq ε] [DecidableEq σ] (P : RunningMachine ε σ)

/-- The entry that the switch of a state function leads to. -/
def stateFnEntry (s : σ) (v : EventValue ε) : Option (ActionInfo ε σ) :=
  bodyFor (printCases (P.printsStateFnCase s) P.eventLabels (P.cellIdx · s)
    (fun e => (P.cellIdx e s).bind (P.actionInfoList[·]?)) (P.actionArray.peventsHandled s)) v

/-- The entry that the switch of the handler of the events handled in all states leads to. -/
def allStatesEntry (v : EventValue ε) : Option (ActionInfo ε σ) :=
  bodyFor ((P.eventList.filter P.actionArray.singlePaiForAllStates).map fun e =>
    ⟨P.allStatesLabels e, (P.actionArray.psinglePai e).bind (P.actionInfoList[·]?)⟩) v

/-- The entry that handles an event in all states. -/
def uniformEntry (v : EventValue ε) : Option (ActionInfo ε σ) :=
  if P.actionArray.hasSinglePaiEvents then P.allStatesEntry v else none

/-- The entry that the switch of an event handler leads to. -/
def handlerEntry (e : ε) (s : σ) : Option (ActionInfo ε σ) :=
  switchBody (printCases (fun _ => true) (fun s => [s]) (P.cellIdx e ·)
    (fun s => (P.cellIdx e s).bind (P.actionInfoList[·]?)) (P.actionArray.phandlingStates e)) s

omit [DecidableEq σ] in
/-- A body that is mapped is found under the same label. -/
lemma bodyFor_map {β γ : Type*} (g : β → γ) (cases : List (Case (EventLabel ε) β))
    (v : EventValue ε) : bodyFor (cases.map (Case.map g)) v = (bodyFor cases v).map g := by
  cases v with
  | label x => exact switchBody_map g cases x
  | noEvent => rfl
  | other n => rfl

omit [DecidableEq σ] in
/-- A body that a switch over events leads to is that of a case. -/
lemma exists_of_bodyFor {β : Type*} {cases : List (Case (EventLabel ε) β)} {v : EventValue ε}
    {b : β} (h : bodyFor cases v = some b) : ∃ c ∈ cases, c.body = some b := by
  cases v with
  | label x => exact exists_of_switchBody h
  | noEvent => cases h
  | other n => cases h

omit [DecidableEq ε] [DecidableEq σ] in
/-- The statements for the entry with a number. -/
lemma map_statements_entryBody (statements : ActionInfo ε σ → List (BodyStatement σ))
    (idx : Option ℕ) : (idx.bind (P.entryBody statements)).map (·.statements) =
      (idx.bind (P.actionInfoList[·]?)).map statements := by
  cases idx with
  | none => rfl
  | some idx =>
    simp only [Option.bind_some, GeneratedMachine.entryBody, Option.map_map]
    rfl

/-- **State functions**, by the entries their switches lead to. -/
lemma map_statements_stateFnCases (s : σ) (v : EventValue ε) :
    (bodyFor (P.stateFnCases s) v).map (·.statements) =
      (P.stateFnEntry s v).map (P.stateFnBody s) := by
  rw [← bodyFor_map, stateFnEntry, ← bodyFor_map, GeneratedMachine.stateFnCases, ← printCases_map,
    ← printCases_map]
  simp only [map_statements_entryBody]

/-- **The handler of the events handled in all states**, by the entries its switch leads to. -/
lemma map_statements_allStatesCases (v : EventValue ε) :
    (bodyFor P.allStatesCases v).map (·.statements) =
      (P.allStatesEntry v).map P.allStatesBody := by
  rw [← bodyFor_map, allStatesEntry, ← bodyFor_map, GeneratedMachine.allStatesCases, List.map_map,
    List.map_map]
  congr 1
  refine List.map_congr_left fun e _ => ?_
  simp only [Function.comp, Case.map, map_statements_entryBody]

/-- **Event handlers**, by the entries their switches lead to. -/
lemma map_statements_handlerCases (e : ε) (s : σ) :
    (switchBody (P.handlerCases e) s).map (·.statements) =
      (P.handlerEntry e s).map P.handlerStateCase := by
  rw [← switchBody_map, handlerEntry, ← switchBody_map, GeneratedMachine.handlerCases,
    ← printCases_map, ← printCases_map]
  simp only [map_statements_entryBody]

variable {P}

/-- The entries that state functions lead to are the machine's. -/
lemma mem_of_stateFnEntry {s : σ} {v : EventValue ε} {pai : ActionInfo ε σ}
    (h : P.stateFnEntry s v = some pai) : pai ∈ P.actionInfoList := by
  obtain ⟨c, hc, hb⟩ := exists_of_bodyFor h
  obtain ⟨e, -, hbody⟩ := exists_body_of_mem_printCases hc hb
  obtain ⟨idx, -, hidx⟩ := Option.bind_eq_some_iff.mp hbody
  exact List.mem_of_getElem? hidx

/-- So are those of the handler of the events handled in all states. -/
lemma mem_of_allStatesEntry {v : EventValue ε} {pai : ActionInfo ε σ}
    (h : P.allStatesEntry v = some pai) : pai ∈ P.actionInfoList := by
  obtain ⟨c, hc, hb⟩ := exists_of_bodyFor h
  obtain ⟨e, -, rfl⟩ := List.mem_map.mp hc
  obtain ⟨idx, -, hidx⟩ := Option.bind_eq_some_iff.mp hb
  exact List.mem_of_getElem? hidx

/-- An event of a sub-machine. -/
lemma switchPass_of_not_isLabel {U : UserFns ε σ} {v : EventValue ε} (hv : v.isLabel = false)
    (w : MachineState ε σ) : P.switchPass U w v = P.foreignPass U w v := by
  cases v with
  | label x => cases hv
  | noEvent => rfl
  | other n => rfl

/-- There is no entry for an event of a sub-machine. -/
lemma entries_of_not_isLabel {v : EventValue ε} (hv : v.isLabel = false) (s : σ) :
    P.uniformEntry v = none ∧ P.stateFnEntry s v = none := by
  cases v with
  | label x => cases hv
  | noEvent => exact ⟨by unfold uniformEntry; split_ifs <;> rfl, rfl⟩
  | other n => exact ⟨by unfold uniformEntry; split_ifs <;> rfl, rfl⟩

end Entries

/-! ## What statements leave alone -/

section Quiet

variable {ε σ : Type*} {P : RunningMachine ε σ} {U : UserFns ε σ}

/-- A machine has stayed in its state, and no function for state changes has been called. -/
structure Quiet (w w' : MachineState ε σ) : Prop where
  state : w'.state = w.state
  currentState : w'.currentState = w.currentState
  calls : ∃ more, w'.calls = w.calls ++ more ∧ ∀ c ∈ more, c.isStateChange = false

/-- Nothing happens quietly. -/
lemma Quiet.refl (w : MachineState ε σ) : Quiet w w := ⟨rfl, rfl, [], by simp, by simp⟩

/-- What happens quietly twice happens quietly. -/
lemma Quiet.trans {w w' w'' : MachineState ε σ} (h : Quiet w w') (h' : Quiet w' w'') :
    Quiet w w'' := by
  obtain ⟨hstate, hcurrent, more, hcalls, hmore⟩ := h
  obtain ⟨hstate', hcurrent', more', hcalls', hmore'⟩ := h'
  refine ⟨hstate'.trans hstate, hcurrent'.trans hcurrent, more ++ more', ?_, ?_⟩
  · rw [hcalls', hcalls, List.append_assoc]
  · intro c hc
    rcases List.mem_append.mp hc with hc | hc
    · exact hmore c hc
    · exact hmore' c hc

/-- A call that is not one for a state change. -/
lemma quiet_call (w : MachineState ε σ) {c : Call ε σ} (hc : c.isStateChange = false) :
    Quiet w (w.call c) :=
  ⟨rfl, rfl, [c], rfl, by simpa using hc⟩

/-- A call that changes no state is quiet. -/
lemma quiet_locals_call (f : Locals ε σ) {c : Call ε σ} (hc : c.isStateChange = false) :
    Quiet f.toMachineState (f.call c).toMachineState :=
  ⟨rfl, rfl, [c], rfl, by simpa using hc⟩

/-- An assignment to a local variable. -/
lemma quiet_assign (f : Locals ε σ) {x : Target} (hx : x ≠ .machineState) (s : σ) :
    Quiet f.toMachineState (f.assign x s).toMachineState := by
  cases x with
  | result => exact Quiet.refl _
  | newState => exact Quiet.refl _
  | machineState => exact absurd rfl hx

/-- Assigning to a variable is quiet. -/
lemma quiet_assignFn (f : Locals ε σ) {x : Target} (hx : x ≠ .machineState) (s : σ) :
    Quiet f.toMachineState (f.assignFn x s).toMachineState := by
  cases x with
  | result => exact Quiet.refl _
  | newState => exact Quiet.refl _
  | machineState => exact absurd rfl hx

/-- A statement that does not assign to the machine's state. -/
private lemma quiet_exec (e : EventValue ε) (f : Locals ε σ) {st : BodyStatement σ}
    (hst : st.target ≠ some .machineState) :
    Quiet f.toMachineState (P.exec U e f st).toMachineState := by
  cases st with
  | actionEntry => exact Quiet.refl _
  | actionExit => exact Quiet.refl _
  | debugPrintf => exact Quiet.refl _
  | handled => exact Quiet.refl _
  | setNoEvent => exact Quiet.refl _
  | callEmptyCellFn name => exact quiet_locals_call f rfl
  | callAction x name =>
    cases x with
    | none => exact quiet_locals_call f rfl
    | some x =>
      have hcall := quiet_locals_call f (c := .action name) rfl
      rw [exec]
      by_cases hkind : P.actionsReturn = .states
      · simp only [if_pos hkind]
        exact hcall.trans (quiet_assign _ (fun h => hst (congrArg some h)) _)
      · simp only [if_neg hkind]
        exact hcall
  | setState x s => exact quiet_assign f (fun h => hst (congrArg some h)) s
  | setStateFn x s => exact quiet_assignFn f (fun h => hst (congrArg some h)) s
  | callTransitionFn x name =>
    exact (quiet_locals_call f rfl).trans (quiet_assign _ (fun h => hst (congrArg some h)) _)
  | callCompactTransitionFn x name =>
    have hx : x ≠ .machineState := fun h => hst (congrArg some h)
    exact ((quiet_locals_call f rfl).trans (quiet_assign _ hx _)).trans (quiet_assignFn _ hx _)
  | callTransitionTo x s =>
    have hcall := quiet_locals_call f (c := .transitionTo s) rfl
    rw [exec]
    by_cases hs : U.suppliesTransitionTo s = true
    · simp only [if_pos hs]
      exact hcall.trans (quiet_assign _ (fun h => hst (congrArg some h)) _)
    · simp only [if_neg hs]
      exact hcall

/-- Statements that do not assign to the machine's state. -/
lemma quiet_foldl (e : EventValue ε) (f : Locals ε σ) {sts : List (BodyStatement σ)}
    (hsts : ∀ st ∈ sts, st.target ≠ some .machineState) :
    Quiet f.toMachineState (sts.foldl (P.exec U e) f).toMachineState := by
  induction sts generalizing f with
  | nil => exact Quiet.refl _
  | cons st sts ih =>
    obtain ⟨hst, hsts⟩ := List.forall_mem_cons.mp hsts
    exact (quiet_exec e f hst).trans (ih _ hsts)

/-- The profiling macros do nothing that is observed. -/
@[simp] lemma foldl_profiled (e : EventValue ε) (f : Locals ε σ) (st : BodyStatement σ) :
    (P.profiled st).foldl (P.exec U e) f = P.exec U e f st := by
  unfold GeneratedMachine.profiled
  cases P.addProfilingMacros <;> rfl

/-- The macros assign to nothing. -/
lemma target_profiled {call : BodyStatement σ} (hcall : call.target ≠ some .machineState) :
    ∀ st ∈ P.profiled call, st.target ≠ some .machineState := by
  unfold GeneratedMachine.profiled
  cases P.addProfilingMacros with
  | false => simpa using hcall
  | true => exact List.forall_mem_cons.mpr ⟨nofun, by simpa using ⟨hcall, nofun⟩⟩

/-- The call before the switch of a state function. -/
lemma quiet_stateFnStart (p : σ) (w : MachineState ε σ) (v : EventValue ε) :
    Quiet w (P.stateFnStart U p w v).toMachineState := by
  unfold stateFnStart
  by_cases himplemented : P.implementedBySubMachine p = true
  · simp only [if_pos himplemented]
    split_ifs
    · exact quiet_call w rfl
    · exact quiet_call w rfl
  · simp only [if_neg himplemented]
    exact Quiet.refl w

/-- An event of a sub-machine. -/
lemma quiet_foreignPass (w : MachineState ε σ) (v : EventValue ε) :
    Quiet w (P.foreignPass U w v).1 := by
  unfold foreignPass
  by_cases hsub : (P.hasSubMachines && !P.inhibitsSubMachines w.state) = true
  · rw [if_pos hsub]
    exact quiet_call w rfl
  · rw [if_neg hsub]
    exact Quiet.refl w

/-- What is printed for an empty cell changes no local variable. -/
lemma exec_noAction (v : EventValue ε) (f : Locals ε σ) :
    P.exec U v f P.noAction = f ∨ ∃ name, P.exec U v f P.noAction = f.call (.action name) := by
  unfold GeneratedMachine.noAction
  cases P.emptyCellFn with
  | none => exact .inl rfl
  | some name => exact .inr ⟨name, rfl⟩

/-- The default of a state function, which is what is printed for an empty cell or nothing, changes
no local variable. -/
lemma foldl_default (v : EventValue ε) (f : Locals ε σ) {l : List (BodyStatement σ)}
    (hl : ∀ st ∈ l, st = P.noAction) :
    ∃ more, l.foldl (P.exec U v) f = { f with calls := f.calls ++ more } ∧
      ∀ c ∈ more, c.isStateChange = false := by
  induction l generalizing f with
  | nil => exact ⟨[], by simp, by simp⟩
  | cons st l ih =>
    obtain ⟨hst, hrest⟩ := List.forall_mem_cons.mp hl
    rw [List.foldl_cons, hst]
    rcases exec_noAction (P := P) (U := U) v f with hexec | ⟨name, hexec⟩
    · rw [hexec]
      exact ih f hrest
    · obtain ⟨more, hmore, hquiet⟩ := ih (f.call (.action name)) hrest
      refine ⟨.action name :: more, ?_, List.forall_mem_cons.mpr ⟨rfl, hquiet⟩⟩
      rw [hexec, hmore]
      simp [Locals.call]

/-! ## What bodies assign to -/

/-- Where actions return states, a state function assigns to the variable that it returns. -/
lemma target_stateReturningStateFnCase (pai : ActionInfo ε σ) :
    ∀ st ∈ P.stateReturningStateFnCase pai, st.target ≠ some .machineState := by
  unfold GeneratedMachine.stateReturningStateFnCase
  split_ifs
  · exact target_profiled (by simp [BodyStatement.target])
  · rcases pai.transition with _ | (t | ⟨name, _⟩) <;> simp [BodyStatement.target]

/-- A transition in a switch assigns to the variable only, if that is where states go. -/
lemma target_switchTransition (h : P.stateTarget = .newState) (t : Option (Transition σ)) :
    ∀ st ∈ P.switchTransition t, st.target ≠ some .machineState := by
  unfold GeneratedMachine.switchTransition
  rw [h]
  rcases t with _ | (s | ⟨name, _⟩)
  · simp
  · split_ifs <;> simp [BodyStatement.target]
  · split_ifs <;> simp [BodyStatement.target]

/-- So does a transition in an event handler. -/
lemma target_handlerTransition {x : Target} (hx : x ≠ .machineState) (t : Option (Transition σ)) :
    ∀ st ∈ P.handlerTransition x t, st.target ≠ some .machineState := by
  unfold GeneratedMachine.handlerTransition
  rcases t with _ | (s | ⟨name, _⟩)
  · simp
  · split_ifs <;> simpa [BodyStatement.target] using hx
  · simpa [BodyStatement.target] using hx

/-- What is printed for an action, or instead of it. -/
lemma target_actionOr {name : String} {x : Option Target} (hx : x ≠ some .machineState)
    {sts : List (BodyStatement σ)} (hsts : ∀ st ∈ sts, st.target ≠ some .machineState) :
    ∀ st ∈ (if name = "" then sts else P.profiled (.callAction x name)),
      st.target ≠ some .machineState := by
  split_ifs
  · exact hsts
  · exact target_profiled hx

/-- So does the statement for empty cells. -/
lemma target_noAction : ∀ st ∈ [P.noAction], st.target ≠ some .machineState := by
  unfold GeneratedMachine.noAction
  cases P.emptyCellFn <;> simp [BodyStatement.target]

/-- **State functions** assign to local variables, if functions are called on state changes. -/
lemma target_stateFnBody (h : P.stateTarget = .newState) (s : σ) (pai : ActionInfo ε σ) :
    ∀ st ∈ P.stateFnBody s pai, st.target ≠ some .machineState := by
  have htransition := target_switchTransition h pai.transition
  unfold GeneratedMachine.stateFnBody
  split_ifs
  · exact htransition
  · cases P.actionsReturn with
    | events =>
      exact List.forall_mem_append.mpr
        ⟨target_actionOr (by simp) (by simp [BodyStatement.target]), htransition⟩
    | void =>
      exact List.forall_mem_append.mpr
        ⟨target_actionOr (by simp) (by simp [BodyStatement.target]), htransition⟩
    | states => exact target_stateReturningStateFnCase pai

/-- So does the handler of the events handled in all states. -/
lemma target_allStatesBody (h : P.stateTarget = .newState) (pai : ActionInfo ε σ) :
    ∀ st ∈ P.allStatesBody pai, st.target ≠ some .machineState := by
  have htransition := target_switchTransition h pai.transition
  have hhandled : ∀ st ∈ ([.handled] : List (BodyStatement σ)), st.target ≠ some .machineState := by
    simp [BodyStatement.target]
  unfold GeneratedMachine.allStatesBody
  cases P.actionsReturn with
  | events =>
    refine List.forall_mem_append.mpr ⟨target_actionOr (by simp) ?_, htransition⟩
    split <;> simp [BodyStatement.target]
  | void =>
    refine List.forall_mem_append.mpr ⟨List.forall_mem_append.mpr ⟨?_, htransition⟩, hhandled⟩
    exact target_actionOr (by simp) (by simp [BodyStatement.target])
  | states =>
    refine List.forall_mem_append.mpr ⟨List.forall_mem_append.mpr ⟨?_, ?_⟩, hhandled⟩
    · refine target_actionOr ?_ (by simp)
      rw [h]
      split_ifs <;> simp
    · rw [h]
      rcases pai.transition with _ | (t | ⟨name, _⟩) <;> simp [BodyStatement.target]

/-- And so do the handlers of -te, also where actions return states. -/
lemma target_eventTableBodies (h : P.actionsReturn = .states ∨ P.stateTarget = .newState)
    (pai : ActionInfo ε σ) :
    (∀ st ∈ P.handlerStateCase pai, st.target ≠ some .machineState) ∧
      ∀ st ∈ P.singlePaiBody pai, st.target ≠ some .machineState := by
  have hstate : P.actionsReturn ≠ .states → ∀ st ∈ P.handlerTransition P.stateTarget pai.transition,
      st.target ≠ some .machineState := by
    intro hkind
    exact target_handlerTransition (by simp [h.resolve_left hkind]) pai.transition
  have hresult : ∀ st ∈ P.handlerTransition .result pai.transition,
      st.target ≠ some .machineState := target_handlerTransition (by simp) pai.transition
  have hnone : ∀ st ∈ ([.debugPrintf] : List (BodyStatement σ)),
      st.target ≠ some .machineState := by simp [BodyStatement.target]
  have hempty : ∀ st ∈ [P.noAction], st.target ≠ some .machineState := target_noAction
  unfold GeneratedMachine.handlerStateCase singlePaiBody
  cases hkind : P.actionsReturn with
  | events =>
    have hstate := hstate (by simp [hkind])
    refine ⟨List.forall_mem_append.mpr ⟨target_actionOr (by simp) ?_, hstate⟩,
      List.forall_mem_append.mpr ⟨target_actionOr (by simp) ?_, hstate⟩⟩
    · split_ifs
      · exact hempty
      · exact hnone
    · simp [BodyStatement.target]
  | void =>
    have hstate := hstate (by simp [hkind])
    exact ⟨List.forall_mem_append.mpr ⟨target_actionOr (by simp) hempty, hstate⟩,
      List.forall_mem_append.mpr ⟨target_actionOr (by simp) hnone, hstate⟩⟩
  | states =>
    have haction : ∀ st ∈ (if pai.action = "" then [] else
        P.profiled (.callAction (some .result) pai.action)), st.target ≠ some .machineState :=
      target_actionOr (by simp) (by simp)
    refine ⟨List.forall_mem_append.mpr ⟨List.forall_mem_append.mpr ⟨haction, hresult⟩, ?_⟩,
      List.forall_mem_append.mpr ⟨haction, hresult⟩⟩
    split_ifs
    · exact hempty
    · simp

/-- A body, or the default of its switch, that assigns to local variables. -/
lemma quiet_runBody (v : EventValue ε) {body : Option (CaseBody σ)}
    {default : List (BodyStatement σ)} (f : Locals ε σ)
    (hbody : ∀ sts, body.map (·.statements) = some sts →
      ∀ st ∈ sts, st.target ≠ some .machineState)
    (hdefault : ∀ st ∈ default, st.target ≠ some .machineState) :
    Quiet f.toMachineState (P.runBody U v body default f).toMachineState := by
  apply quiet_foldl
  cases hsts : body.map (·.statements) with
  | none => exact hdefault
  | some sts => exact hbody sts hsts

end Quiet

end RunningMachine

end FsmLang
