import Mathlib.Data.List.Basic
import Mathlib.Tactic
import FsmLang.CSemantics.Switch
import FsmLang.HandledEvents
import FsmLang.Machine

set_option relaxedAutoImplicit false
set_option autoImplicit false

/-!
# The functions of -ts and -te, statement by statement

With -ts a function is printed for each state and one for the events handled in all states, with
-te one for each event. They dispatch with a switch, whose cases are printed for the members of the
lists that populating the action array has filled: a label, and below it the statements for the
entry of the cell. The statements are left out where the next member of the list has the same
entry.

The file models what is printed, for machines of all kinds. Events and states are kept generic, as
in the walk that fills the lists.

## Main definitions

* `GeneratedMachine` — the matrix of a machine and what else the printing reads.
* `BodyStatement` — a statement of a case.
* `stateFnCases`, `allStatesCases`, `handlerCases` — the three switches.
* `GeneratedMachine.Accepted` — what the parser has seen to.
-/

namespace FsmLang

open CSemantics

/-! ## Statements -/

/-- What a statement assigns to: the variable that the function returns (`retVal`, `event` or
`state`), the local variable for the state to be entered (`new_s`, and `s` in an event handler), or
the machine's own state. With a compact action array the two last stand for a state function too
(`new_sfn` and `pfsm->currentState`). -/
inductive Target where
  | result
  | newState
  | machineState
  deriving DecidableEq, Repr

/-- A statement of a case. A transition function is called with the event that is handled, unless
actions return states; in a compact machine it returns a state and a state function. -/
inductive BodyStatement (σ : Type*) where
  | actionEntry
  | actionExit
  | debugPrintf
  | handled
  | setNoEvent
  | callEmptyCellFn (name : String)
  | callAction (x : Option Target) (name : String)
  | setState (x : Target) (s : σ)
  | setStateFn (x : Target) (s : σ)
  | callTransitionFn (x : Target) (name : String)
  | callCompactTransitionFn (x : Target) (name : String)
  | callTransitionTo (x : Target) (s : σ)
  deriving DecidableEq, Repr

/-- The body of a case, with the place of the entry that it is printed for. -/
structure CaseBody (σ : Type*) where
  entry : ℕ
  statements : List (BodyStatement σ)
  deriving DecidableEq, Repr

/-- The label of an event: `THIS(event)`, or that of the event of the same name of an ancestor, with
the ancestor's distance. -/
inductive EventLabel (ε : Type*) where
  | this (e : ε)
  | ancestor (e : ε) (k : ℕ)
  deriving DecidableEq, Repr

/-- A machine's matrix, its functions for state changes, its flags, and the options of the command
line. -/
structure GeneratedMachine (ε σ : Type*) extends MachineMatrix ε σ where
  actionsReturn : ActionsReturn := .events
  artifactsImplementing : Bool := false
  sharedWithParent : ε → Bool := fun _ => false
  ancestors : ℕ := 0
  machineTransition : Option String := none
  entryFn : σ → Option String := fun _ => none
  exitFn : σ → Option String := fun _ => none
  compactActionArray : Bool := false
  addProfilingMacros : Bool := false
  emptyCellFn : Option String := none

namespace GeneratedMachine

section Bodies

variable {ε σ : Type*} (P : GeneratedMachine ε σ)

/-- Functions are called on state changes. -/
def executesFnsOnStateTransitions : Bool :=
  P.stateList.any (fun s => (P.entryFn s).isSome || (P.exitFn s).isSome) ||
    P.machineTransition.isSome

/-- The variable for the state to be entered. -/
def stateTarget : Target :=
  if P.executesFnsOnStateTransitions then .newState else .machineState

/-- The call of an action, between the profiling macros if they are asked for. -/
def profiled (call : BodyStatement σ) : List (BodyStatement σ) :=
  (if P.addProfilingMacros then [.actionEntry] else []) ++ [call] ++
    if P.addProfilingMacros then [.actionExit] else []

/-- An entry's transition in the functions of -ts, where actions do not return states. -/
def switchTransition : Option (Transition σ) → List (BodyStatement σ)
  | none => []
  | some (.state s) =>
    (if P.compactActionArray then [.setStateFn P.stateTarget s] else []) ++
      [.setState P.stateTarget s]
  | some (.fn name _) =>
    if P.compactActionArray then [.callCompactTransitionFn P.stateTarget name]
    else [.callTransitionFn P.stateTarget name]

/-- The statements of `print_event_returning_state_fn_case`. -/
def eventReturningStateFnCase (pai : ActionInfo ε σ) : List (BodyStatement σ) :=
  (if pai.action = "" then [.debugPrintf]
    else P.profiled (.callAction (some .result) pai.action)) ++ P.switchTransition pai.transition

/-- The statements of `print_void_returning_state_fn_case`. -/
def voidReturningStateFnCase (pai : ActionInfo ε σ) : List (BodyStatement σ) :=
  (if pai.action = "" then [.debugPrintf] else P.profiled (.callAction none pai.action)) ++
    P.switchTransition pai.transition

/-- The statements of `print_transitions_only_case`. -/
def transitionsOnlyCase (pai : ActionInfo ε σ) : List (BodyStatement σ) :=
  P.switchTransition pai.transition

/-- The statements of `print_state_returning_state_fn_case`. -/
def stateReturningStateFnCase (pai : ActionInfo ε σ) : List (BodyStatement σ) :=
  if pai.action ≠ "" then P.profiled (.callAction (some .result) pai.action)
  else
    match pai.transition with
    | none => []
    | some (.state s) => [.setState .result s]
    | some (.fn name _) => [.callTransitionFn .result name]

/-- The function of the state has the transitions of the sub-machine that implements it only. -/
def transitionsOnly (s : σ) : Bool :=
  P.actionsReturn ≠ .states && P.implementedBySubMachine s

/-- The statements of a case in the function of a state. -/
def stateFnBody (s : σ) (pai : ActionInfo ε σ) : List (BodyStatement σ) :=
  if P.transitionsOnly s then P.transitionsOnlyCase pai
  else
    match P.actionsReturn with
    | .events => P.eventReturningStateFnCase pai
    | .void => P.voidReturningStateFnCase pai
    | .states => P.stateReturningStateFnCase pai

/-- The statements of `print_switch_cases_for_events_handled_in_all_states_arev` and of its sibling
for actions that return states. -/
def allStatesBody (pai : ActionInfo ε σ) : List (BodyStatement σ) :=
  match P.actionsReturn with
  | .void => P.voidReturningStateFnCase pai ++ [.handled]
  | .events =>
    (if pai.action = "" then
        [.setNoEvent,
          match P.emptyCellFn, pai.transition with
          | some name, none => .callEmptyCellFn name
          | _, _ => .debugPrintf]
      else P.profiled (.callAction (some .result) pai.action)) ++ P.switchTransition pai.transition
  | .states =>
    (if pai.action = "" then []
      else P.profiled (.callAction (if pai.transition.isSome then none else some P.stateTarget)
        pai.action)) ++
      (match pai.transition with
        | none => []
        | some (.state s) => [.setState P.stateTarget s]
        | some (.fn name _) => [.callTransitionFn P.stateTarget name]) ++ [.handled]

/-- An entry's transition in an event handler (`print_transition_for_assignment_to_state_var`). -/
def handlerTransition (x : Target) : Option (Transition σ) → List (BodyStatement σ)
  | none => []
  | some (.state s) =>
    if P.actionsReturn = .states then [.callTransitionTo x s] else [.setState x s]
  | some (.fn name _) => [.callTransitionFn x name]

/-- What is printed for an empty cell. -/
def noAction : BodyStatement σ :=
  match P.emptyCellFn with
  | some name => .callEmptyCellFn name
  | none => .debugPrintf

/-- The statements of `print_event_table_handler_state_case_are`, `.._arv` and `.._ars`. -/
def handlerStateCase (pai : ActionInfo ε σ) : List (BodyStatement σ) :=
  match P.actionsReturn with
  | .events =>
    (if pai.action = "" then [if pai.transition = none then P.noAction else .debugPrintf]
      else P.profiled (.callAction (some .result) pai.action)) ++
      P.handlerTransition P.stateTarget pai.transition
  | .void =>
    (if pai.action = "" then [P.noAction] else P.profiled (.callAction none pai.action)) ++
      P.handlerTransition P.stateTarget pai.transition
  | .states =>
    (if pai.action = "" then [] else P.profiled (.callAction (some .result) pai.action)) ++
      P.handlerTransition .result pai.transition ++
      if pai.action = "" ∧ pai.transition = none then [P.noAction] else []

/-- The labels of an event in the functions of -ts (`print_ancestor_case_statements`). -/
def eventLabels (e : ε) : List (EventLabel ε) :=
  .this e :: if P.artifactsImplementing && P.sharedWithParent e then
    (List.range P.ancestors).map (.ancestor e) else []

/-- The labels of an event in the handler of the events handled in all states. -/
def allStatesLabels (e : ε) : List (EventLabel ε) :=
  if P.actionsReturn = .states then P.eventLabels e else [.this e]

end Bodies

/-! ## Switches -/

section Switches

variable {ε σ : Type*} [DecidableEq ε] [DecidableEq σ] (P : GeneratedMachine ε σ)

/-- The populated action array. -/
def actionArray : ActionArray ε σ := populateActionArray P.toMachineMatrix

/-- The place of the entry in a cell. -/
def cellIdx (e : ε) (s : σ) : Option ℕ :=
  P.actionArray.cell (P.eventOrder e) (P.stateOrder s)

/-- The body printed for the entry with number `idx`. -/
def entryBody (statements : ActionInfo ε σ → List (BodyStatement σ)) (idx : ℕ) :
    Option (CaseBody σ) :=
  (P.actionInfoList[idx]?).map fun pai => ⟨idx, statements pai⟩

/-- The function of a state has a case for the event. -/
def printsStateFnCase (s : σ) (e : ε) : Bool :=
  if P.transitionsOnly s then
    !P.actionArray.singlePaiForAllStates e &&
      ((P.cellIdx e s).bind (P.actionInfoList[·]?)).any (·.transition.isSome)
  else
    (!P.actionArray.singlePaiForAllStates e || P.artifactsImplementing) && (P.cellIdx e s).isSome

/-- The switch of a state function. -/
def stateFnCases (s : σ) : List (Case (EventLabel ε) (CaseBody σ)) :=
  printCases (P.printsStateFnCase s) P.eventLabels (P.cellIdx · s)
    (fun e => (P.cellIdx e s).bind (P.entryBody (P.stateFnBody s))) (P.actionArray.peventsHandled s)

/-- The switch of the handler of the events handled in all states. -/
def allStatesCases : List (Case (EventLabel ε) (CaseBody σ)) :=
  (P.eventList.filter P.actionArray.singlePaiForAllStates).map fun e =>
    ⟨P.allStatesLabels e, (P.actionArray.psinglePai e).bind (P.entryBody P.allStatesBody)⟩

/-- The switch of the handler of an event. -/
def handlerCases (e : ε) : List (Case σ (CaseBody σ)) :=
  printCases (fun _ => true) (fun s => [s]) (P.cellIdx e ·)
    (fun s => (P.cellIdx e s).bind (P.entryBody P.handlerStateCase))
    (P.actionArray.phandlingStates e)

/-- What the parser has seen to: entries name events and states of the machine and have an action
or a transition; actions are not for states implemented by sub-machines; an action that returns a
state has no transition; and no cell is named twice. -/
structure Accepted : Prop where
  declared : P.Declared
  nodup : P.stateList.Nodup
  nonempty : P.stateList ≠ []
  named : ∀ pai ∈ P.actionInfoList, pai.action ≠ "" ∨ pai.transition ≠ none
  elsewhere : ∀ pai ∈ P.actionInfoList, pai.action ≠ "" →
    ∀ s ∈ pai.stateList, P.implementedBySubMachine s = false
  oneResult : P.actionsReturn = .states → ∀ pai ∈ P.actionInfoList,
    pai.action = "" ∨ pai.transition = none
  populated : P.actionArray.error = false

end Switches

end GeneratedMachine

end FsmLang
