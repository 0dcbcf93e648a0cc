import Mathlib.Data.List.Basic
import Mathlib.Tactic
import FsmLang.CSemantics.Switch
import FsmLang.Combine
import FsmLang.ConsolidatedCases
import FsmLang.EventLoops
import FsmLang.HandledEvents
import FsmLang.StateTransitionRoutines

set_option relaxedAutoImplicit false
set_option autoImplicit false

/-!
# The code of one machine

What the four generators print for the cells of a machine's matrix: the table of -tc, the switch
on `COMBINE(event, state)` of -tss, the state functions of -ts with the handler for events
handled identically in all states, and the event handlers of -te. It is modelled for machines
whose actions return events or nothing.

## Main definitions

* `MachineActions`, `AcceptedActions` — a machine's matrix and functions, and that the parser
  accepts them.
* `cellStep` — what a cell of the matrix says is to be done; `cellLoop` — a flat machine that
  does this for every event.
* `tableDispatch`, `singleSwitchDispatch`, `stateFn`, `eventHandler` — what is printed.
* `ownCode` — all this as the code that a machine's loop calls; `flatLoop` — the function of a
  machine without sub-machines.

## Main results

* `cell_eq_some_iff` — the cells, by the entries.
* `UserCode.ReturnsEvents.isEvent_of_after` — a run stays within the enumeration if the actions
  do.
-/

namespace FsmLang

open CSemantics

/-! ## Matrix and functions -/

/-- The events of a machine, by their place in its list. -/
abbrev Machine.EventIdx (m : Machine) := Fin m.eventList.length

/-- The states of a machine, by their place in its list. -/
abbrev Machine.StateIdx (m : Machine) := Fin m.stateList.length

/-- The name of one of the machine's events. -/
def Machine.eventName (m : Machine) (i : m.EventIdx) : String := (m.eventList.get i).name

/-- The matrix of a machine and the functions it names. A state may be implemented by one of the
sub-machines. The function for empty cells is given on the command line. -/
structure MachineActions (m : Machine) where
  actionInfoList : List (ActionInfo m.EventIdx m.StateIdx)
  consumedByTranslator : m.EventIdx → Bool := fun _ => false
  sharedWithParent : m.EventIdx → Bool := fun _ => false
  implementingMachine : m.StateIdx → Option (Fin m.machineList.length) := fun _ => none
  machineTransition : Option String := none
  entryFn : m.StateIdx → Option String := fun _ => none
  exitFn : m.StateIdx → Option String := fun _ => none
  emptyCellFn : Option String := none

/-- What `populate_action_array` reads. -/
def MachineActions.matrix {m : Machine} (D : MachineActions m) :
    MachineMatrix m.EventIdx m.StateIdx where
  eventList := List.finRange m.eventList.length
  stateList := List.finRange m.stateList.length
  consumedByTranslator := D.consumedByTranslator
  implementedBySubMachine := fun s => (D.implementingMachine s).isSome
  actionInfoList := D.actionInfoList

/-- A matrix that the parser accepts: every entry has an action or a transition, as the grammar
has it, and no cell is named twice. -/
structure AcceptedActions (m : Machine) extends MachineActions m where
  named : ∀ pai ∈ actionInfoList, pai.action ≠ "" ∨ pai.transition ≠ none
  populated : (populateActionArray toMachineActions.matrix).error = false

namespace AcceptedActions

variable {m : Machine}

/-! ## Cells and notes -/

/-- The populated action array. -/
def actionArray (D : AcceptedActions m) : ActionArray m.EventIdx m.StateIdx :=
  populateActionArray D.matrix

/-- The place of the entry in a cell. -/
def cellIdx (D : AcceptedActions m) (i : m.EventIdx) (s : m.StateIdx) : Option ℕ :=
  D.actionArray.cell (D.matrix.eventOrder i) (D.matrix.stateOrder s)

/-- The entry in a cell. -/
def cell (D : AcceptedActions m) (i : m.EventIdx) (s : m.StateIdx) :
    Option (ActionInfo m.EventIdx m.StateIdx) :=
  (D.cellIdx i s).bind (D.actionInfoList[·]?)

/-- The entry that handles an event in all states. -/
def singlePai (D : AcceptedActions m) (i : m.EventIdx) :
    Option (ActionInfo m.EventIdx m.StateIdx) :=
  (D.actionArray.psinglePai i).bind (D.actionInfoList[·]?)

/-! ## State changes, actions, empty cells -/

variable (D : AcceptedActions m) (U : UserCode m.StateIdx)

/-- Go to the state that is to be entered, with the functions called on the way. -/
def changeState (r : World m.StateIdx × m.StateIdx) : World m.StateIdx :=
  if r.2 = r.1.state then r.1
  else
    { state := r.2
      trace := r.1.trace ++ (D.machineTransition.map fun name => .machineTransition name r.2).toList
        ++ ((D.exitFn r.1.state).map .exitFn).toList ++ ((D.entryFn r.2).map .entryFn).toList
        ++ [.enters r.2] }

/-- What is printed for an empty cell: the call of the function for empty cells, if there is one.
The result is not used. -/
def handleEmptyCell (w : World m.StateIdx) : World m.StateIdx :=
  match D.emptyCellFn with
  | some name => (U.callAction name w).1
  | none => w

/-- An entry's action. For an entry without action some places print what is printed for an empty
cell, with `emptyCell`. -/
def runAction (noEvent : ℤ) (emptyCell : Bool) (pai : ActionInfo m.EventIdx m.StateIdx)
    (w : World m.StateIdx) : World m.StateIdx × ℤ :=
  if pai.action = "" then (if emptyCell then D.handleEmptyCell U w else w, noEvent)
  else U.callAction pai.action w

/-- An entry's action and its transition; a transition function gets the event `e`. -/
def runEntry (noEvent : ℤ) (emptyCell : Bool) (pai : ActionInfo m.EventIdx m.StateIdx) (e : ℤ)
    (w : World m.StateIdx) : World m.StateIdx × ℤ :=
  let r := D.runAction U noEvent emptyCell pai w
  (D.changeState (U.takeTransition pai.transition e r.1), r.2)

/-- What the matrix says is to be done in a cell for the event `e`: the entry's action, and its
transition for the same event; in an empty cell the call of the function for empty cells, and
`noEvent`. -/
def cellStep (noEvent e : ℤ) (c : Option (ActionInfo m.EventIdx m.StateIdx))
    (w : World m.StateIdx) : World m.StateIdx × ℤ :=
  match c with
  | some pai => D.runEntry U noEvent false pai e w
  | none => (D.handleEmptyCell U w, noEvent)

/-! ## What is printed -/

variable (B : EventBounds)

/-- The place of an event in a table that starts with the event number `base`. -/
def eventAt? (m : Machine) (base e : ℤ) : Option m.EventIdx :=
  if h : 0 ≤ e - base ∧ (e - base).toNat < m.eventList.length then some ⟨_, h.2⟩ else none

/-- The number that the tables of the machine at `path` start with: the top-level machine indexes
them by the event itself. -/
def tableBase (path : List ℕ) : ℤ := if path = [] then 0 else B.firstEvent

/-- The call of the function in the action part of a cell of the table. In an empty cell it is the
function for empty cells; without one, and in a cell without action, it is `noAction`. -/
def tableAction (noEvent : ℤ) (c : Option (ActionInfo m.EventIdx m.StateIdx))
    (w : World m.StateIdx) : World m.StateIdx × ℤ :=
  match c with
  | some pai =>
    if pai.action = "" then U.callNoAction noEvent w else U.callAction pai.action w
  | none =>
    match D.emptyCellFn with
    | some name => U.callAction name w
    | none => U.callNoAction noEvent w

/-- The transition part of a cell of the table: a state, or in a machine with transition functions
the call of a function. -/
def tableTransition (t : Option (Transition m.StateIdx)) (e : ℤ) (w : World m.StateIdx) :
    World m.StateIdx × m.StateIdx :=
  if transitionFnList D.matrix = [] then U.takeTransition t e w
  else U.takeTableTransition t e w

/-- The -tc machine (`writeOriginalFSMLoopInnards`, `defineActionArray`). What the function in the
action part of the cell returns is the next event. -/
def tableDispatch (path : List ℕ) (w : World m.StateIdx) (e : ℤ) :
    Option (World m.StateIdx × ℤ) :=
  (eventAt? m (tableBase B path) e).map fun i : m.EventIdx =>
    let c := (D.actionArray.cell i w.state).bind (D.actionInfoList[·]?)
    let r := D.tableAction U B.noEvent c w
    (D.changeState (D.tableTransition U (c.bind (·.transition)) e r.1), r.2)

/-- The `case` labels of a matrix (`print_matrices`); a state's value is its place. -/
def matrixLabels (path : List ℕ) (pai : ActionInfo m.EventIdx m.StateIdx) : List ℕ :=
  (D.matrix.matrixCases pai).filterMap fun x =>
    (B.eventValue x.1).map fun v => combine path v (x.2 : ℕ)

/-- The -tss machine (`writeSingleSwitchFSMLoopInnardsAre` and its sibling). A transition function
gets the event that the action has returned, if actions return events. -/
def singleSwitchDispatch (path : List ℕ) (w : World m.StateIdx) (e : ℤ) : World m.StateIdx × ℤ :=
  let cases := D.matrix.consolidateActionInfoList.map fun c =>
    (⟨c.members.flatMap (D.matrixLabels B path), some c.leader⟩ :
      Case ℕ (ActionInfo m.EventIdx m.StateIdx))
  match switchBody cases (combine path e (w.state : ℕ)) with
  | some pai =>
    let r := D.runAction U B.noEvent false pai w
    let arg := if m.actionsReturn = .void then e else r.2
    (D.changeState (U.takeTransition pai.transition arg r.1), r.2)
  | none => (D.handleEmptyCell U w, B.noEvent)

/-- The `case` labels of an event in the functions of -ts. In a machine that implements artifacts
an event shared with the parent has the labels of its `ancestors` too, the events of the same name
(`print_ancestor_case_statements`). -/
def caseLabels (ancestors : m.EventIdx → List ℤ) (i : m.EventIdx) : List ℤ :=
  (B.eventValue i).toList ++
    if m.artifactsImplementing && D.sharedWithParent i then ancestors i else []

/-- The cases of a state function (`print_event_returning_state_fn_case` and its sibling). -/
def stateFnCases (ancestors : m.EventIdx → List ℤ) (s : m.StateIdx) :
    List (Case ℤ (ActionInfo m.EventIdx m.StateIdx)) :=
  printCases
    (fun i => (!D.actionArray.singlePaiForAllStates i || m.artifactsImplementing) &&
      (D.cellIdx i s).isSome)
    (D.caseLabels B ancestors) (D.cellIdx · s) (D.cell · s) (D.actionArray.peventsHandled s)

/-- The cases of the function of a state implemented by a sub-machine
(`print_transitions_only_case`). -/
def transitionsOnlyCases (ancestors : m.EventIdx → List ℤ) (s : m.StateIdx) :
    List (Case ℤ (ActionInfo m.EventIdx m.StateIdx)) :=
  printCases
    (fun i => !D.actionArray.singlePaiForAllStates i &&
      (D.cell i s).any (·.transition.isSome))
    (D.caseLabels B ancestors) (D.cellIdx · s) (D.cell · s) (D.actionArray.peventsHandled s)

/-- A state function of the -ts machine (`define_event_returning_state_fn` and its sibling). -/
def stateFn (ancestors : m.EventIdx → List ℤ) (w : World m.StateIdx) (e : ℤ) :
    World m.StateIdx × ℤ :=
  match D.implementingMachine w.state with
  | some k =>
    let w' := w.observe (.subMachine k e)
    match switchBody (D.transitionsOnlyCases B ancestors w.state) e with
    | some pai => (D.changeState (U.takeTransition pai.transition e w'), U.subMachine w'.trace)
    | none => (w', U.subMachine w'.trace)
  | none =>
    match switchBody (D.stateFnCases B ancestors w.state) e with
    | some pai => D.runEntry U B.noEvent false pai e w
    | none => (D.handleEmptyCell U w, B.noEvent)

/-- The handler of -ts for the events handled in all states (`defineAllStateHandler`), with the
event that is left: what `checkWhetherEventIsHandledInAllStates` returns, unless it is `noEvent`,
or the event that `eventIsNotHandledInAllStates`. -/
def allStatesHandler (w : World m.StateIdx) (e : ℤ) : World m.StateIdx × Option ℤ :=
  if D.actionArray.hasSinglePaiEvents then
    let cases := (D.matrix.eventList.filter D.actionArray.singlePaiForAllStates).map
      fun i : m.EventIdx => Case.mk (B.eventValue i).toList (D.singlePai i)
    match switchBody cases e, m.actionsReturn with
    | some pai, .void => ((D.runEntry U B.noEvent false pai e w).1, none)
    | some pai, _ =>
      let r := D.runEntry U B.noEvent pai.transition.isNone pai e w
      (r.1, if r.2 = B.noEvent then none else some r.2)
    | none, .void => (w, some e)
    | none, _ => (w, if e = B.noEvent then none else some e)
  else (w, some e)

/-- The cases of an event handler (`print_event_table_handler_state_case_are` and its sibling). -/
def eventHandlerCases (i : m.EventIdx) :
    List (Case m.StateIdx (ActionInfo m.EventIdx m.StateIdx)) :=
  printCases (fun _ => true) (fun s => [s]) (D.cellIdx i ·) (D.cell i ·)
    (D.actionArray.phandlingStates i)

/-- An event handler of the -te machine (`define_event_table_handler`). A transition function
gets `THIS(event)`. Where actions return nothing, an entry without action calls the function for
empty cells, and the default of the switch does not. -/
def eventHandler (i : m.EventIdx) (w : World m.StateIdx) : World m.StateIdx × ℤ :=
  let this := (B.eventValue i).getD B.noEvent
  if D.actionArray.singlePaiForAllStates i then
    match D.singlePai i with
    | some pai => D.runEntry U B.noEvent false pai this w
    | none => (w, B.noEvent)
  else if (D.actionArray.phandlingStates i).isEmpty then
    (D.handleEmptyCell U w, B.noEvent)
  else
    match switchBody (D.eventHandlerCases i) w.state, m.actionsReturn with
    | some pai, .void => D.runEntry U B.noEvent true pai this w
    | some pai, _ => D.runEntry U B.noEvent pai.transition.isNone pai this w
    | none, .void => (w, B.noEvent)
    | none, _ => (D.handleEmptyCell U w, B.noEvent)

/-- The all-states handler has no case for other events. -/
lemma allStatesHandler_of_not_single {e : ℤ} (he : m.actionsReturn = .void ∨ e ≠ B.noEvent)
    (w : World m.StateIdx) (h : ∀ i : m.EventIdx, B.eventValue i = some e →
      D.actionArray.singlePaiForAllStates i = false) :
    D.allStatesHandler U B w e = (w, some e) := by
  have hnone : switchBody ((D.matrix.eventList.filter D.actionArray.singlePaiForAllStates).map
      fun i : m.EventIdx => Case.mk (B.eventValue i).toList (D.singlePai i)) e = none := by
    apply switchBody_eq_none
    intro c hc hx
    obtain ⟨i, hi, rfl⟩ := List.mem_map.mp hc
    have hsingle := (List.mem_filter.mp hi).2
    rw [h i (by simpa [Option.mem_toList] using hx)] at hsingle
    cases hsingle
  unfold allStatesHandler
  by_cases hhas : D.actionArray.hasSinglePaiEvents = true
  · simp only [if_pos hhas, hnone]
    cases hret : m.actionsReturn with
    | void => rfl
    | events => simp [he.resolve_left (by simp [hret])]
    | states => simp [he.resolve_left (by simp [hret])]
  · rw [if_neg hhas]

/-- The code of the machine at `path`. -/
def ownCode (path : List ℕ) (g : Generator) (ancestors : m.EventIdx → List ℤ) :
    OwnCode m B (World m.StateIdx) where
  state := World.state
  dispatch := fun w e =>
    match g with
    | .table => D.tableDispatch U B path w e
    | .singleSwitch => some (D.singleSwitchDispatch U B path w e)
    | .switch => some (D.stateFn U B ancestors w e)
    | .eventTable => (eventAt? m (tableBase B path) e).map fun i => D.eventHandler U B i w
  handleInAllStates := D.allStatesHandler U B
  runSubMachine := fun k w e =>
    some (w.observe (.subMachine k e), U.subMachine (w.observe (.subMachine k e)).trace)
  handleInAllStates_foreign := fun w e hne hforeign =>
    D.allStatesHandler_of_not_single U B (.inr hne) w fun i hi => absurd hi (hforeign i)
  state_runSubMachine := by
    intro k w e r hr
    obtain rfl := Option.some.inj hr
    rfl

/-- The function of a flat machine. -/
def flatLoop (g : Generator) :
    WhileLoop (Frame (World m.StateIdx)) (Frame (World m.StateIdx)) :=
  (D.ownCode U B [] g fun _ => []).topLoop g

/-- The machine as its matrix describes it: every event is dispatched by its own cell. -/
def cellCode : OwnCode m B (World m.StateIdx) where
  state := World.state
  dispatch := fun w e =>
    (D.matrix.eventList.find? fun i : m.EventIdx => B.eventValue i = some e).map
      fun i : m.EventIdx => D.cellStep U B.noEvent e (D.cell i w.state) w
  handleInAllStates := fun w e => (w, some e)
  runSubMachine := fun k w e =>
    some (w.observe (.subMachine k e), U.subMachine (w.observe (.subMachine k e)).trace)
  handleInAllStates_foreign := fun _ _ _ _ => rfl
  state_runSubMachine := by
    intro k w e r hr
    obtain rfl := Option.some.inj hr
    rfl

/-- The function of a flat machine as its matrix describes it. -/
def cellLoop : WhileLoop (Frame (World m.StateIdx)) (Frame (World m.StateIdx)) :=
  (D.cellCode U B).topLoop .eventTable

/-! ## Entries and cells -/

/-- Order numbers are places in the list. -/
lemma enumeratePidList_finRange {n : ℕ} (a : Fin n) : enumeratePidList (List.finRange n) a = a := by
  have h := ((getElem?_enumeratePids (List.finRange n) 0 (fun _ => 0) a).1 (List.mem_finRange a)).2
  obtain ⟨hlt, hget⟩ := List.getElem?_eq_some_iff.mp h
  rw [List.getElem_finRange] at hget
  have := congrArg Fin.val hget
  simpa [enumeratePidList] using this

/-- An event's place is its number. -/
@[simp] lemma matrix_eventOrder (i : m.EventIdx) : D.matrix.eventOrder i = i :=
  enumeratePidList_finRange i

/-- A state's place is its number. -/
@[simp] lemma matrix_stateOrder (s : m.StateIdx) : D.matrix.stateOrder s = s :=
  enumeratePidList_finRange s

/-- The events and states of the entries are declared. -/
lemma declared : D.matrix.Declared := by
  intro pai _
  exact ⟨fun i _ => List.mem_finRange i, fun s _ => List.mem_finRange s⟩

/-- The walk has filled the cells. -/
lemma filled : Filled D.matrix (namedCells D.matrix) D.actionArray :=
  D.declared.cellsDeclared.filled D.populated

/-- The entry of a cell is the one that names it. -/
lemma cellIdx_eq_some_iff {i : m.EventIdx} {s : m.StateIdx} {idx : ℕ} :
    D.cellIdx i s = some idx ↔ ∃ pai, D.actionInfoList[idx]? = some pai ∧
      i ∈ D.matrix.expandEvents pai ∧ s ∈ D.matrix.expandStates pai := by
  rw [cellIdx, D.filled.cell_order (List.mem_finRange i) (List.mem_finRange s), mem_namedCells]
  rfl

/-- A cell that holds an entry's place holds an entry. -/
lemma exists_cell_of_cellIdx {i : m.EventIdx} {s : m.StateIdx} {idx : ℕ}
    (h : D.cellIdx i s = some idx) : ∃ pai, D.cell i s = some pai ∧ pai ∈ D.actionInfoList := by
  obtain ⟨pai, hpai, -⟩ := D.cellIdx_eq_some_iff.mp h
  exact ⟨pai, by rw [cell, h, Option.bind_some, hpai], List.mem_of_getElem? hpai⟩

/-- What is in a cell is an entry. -/
lemma mem_of_cell {i : m.EventIdx} {s : m.StateIdx} {pai : ActionInfo m.EventIdx m.StateIdx}
    (h : D.cell i s = some pai) : pai ∈ D.actionInfoList := by
  obtain ⟨idx, -, hidx⟩ := Option.bind_eq_some_iff.mp h
  exact List.mem_of_getElem? hidx

/-- A cell without an entry has none by number. -/
lemma cell_eq_none_iff {i : m.EventIdx} {s : m.StateIdx} :
    D.cell i s = none ↔ D.cellIdx i s = none := by
  cases h : D.cellIdx i s with
  | none => simp [cell, h]
  | some idx =>
    obtain ⟨pai, hpai, -⟩ := D.exists_cell_of_cellIdx h
    simp [hpai]

/-- **Cells.** A cell holds an entry that names it. -/
lemma cell_eq_some_iff {i : m.EventIdx} {s : m.StateIdx}
    {pai : ActionInfo m.EventIdx m.StateIdx} :
    D.cell i s = some pai ↔ pai ∈ D.actionInfoList ∧ i ∈ D.matrix.expandEvents pai ∧
      s ∈ D.matrix.expandStates pai := by
  constructor
  · intro h
    obtain ⟨idx, hidx, hpai⟩ := Option.bind_eq_some_iff.mp h
    obtain ⟨pai', hpai', hi, hs⟩ := D.cellIdx_eq_some_iff.mp hidx
    obtain rfl := Option.some.inj (hpai'.symm.trans hpai)
    exact ⟨List.mem_of_getElem? hpai, hi, hs⟩
  · intro h
    obtain ⟨hmem, hi, hs⟩ := h
    obtain ⟨idx, hidx⟩ := List.getElem?_of_mem hmem
    rw [cell, D.cellIdx_eq_some_iff.mpr ⟨pai, hidx, hi, hs⟩, Option.bind_some, hidx]

/-- The place of an event in a table that starts with the number before it. -/
lemma eventAt?_add (b : ℤ) (i : m.EventIdx) : eventAt? m b (b + (i : ℕ)) = some i := by
  have h : (0 : ℤ) ≤ b + (i : ℕ) - b ∧ (b + (i : ℕ) - b).toNat < m.eventList.length :=
    ⟨by omega, by simp⟩
  rw [eventAt?, dif_pos h]
  simp

/-- The place of an event in a table that starts with zero. -/
lemma eventAt?_natCast (i : m.EventIdx) : eventAt? m 0 (i : ℕ) = some i := by
  simpa using eventAt?_add 0 i

/-- A state change adds to what has been observed. -/
lemma exists_changeState_trace (r : World m.StateIdx × m.StateIdx) :
    ∃ t, (D.changeState r).trace = r.1.trace ++ t := by
  unfold changeState
  split_ifs
  · exact ⟨[], by simp⟩
  · simp only [List.append_assoc]
    exact ⟨_, rfl⟩

/-- It adds no call of another kind. -/
lemma countP_changeState {p : Obs m.StateIdx → Bool}
    (hp : ∀ o, o.isStateChange = true → p o = false) (r : World m.StateIdx × m.StateIdx) :
    (D.changeState r).trace.countP p = r.1.trace.countP p := by
  have hmachine : ∀ name s, p (.machineTransition name s) = false := fun _ _ => hp _ rfl
  have hexit : ∀ name, p (.exitFn name) = false := fun _ => hp _ rfl
  have hentry : ∀ name, p (.entryFn name) = false := fun _ => hp _ rfl
  have henters : ∀ s, p (.enters s) = false := fun _ => hp _ rfl
  unfold changeState
  split_ifs
  · rfl
  · cases D.machineTransition <;> cases D.exitFn r.1.state <;> cases D.entryFn r.2 <;>
      simp [List.countP_append, hmachine, hexit, hentry, henters]

/-- An entry leads to `noEvent` or to what an action has returned. -/
lemma runEntry_snd (noEvent : ℤ) (emptyCell : Bool) (pai : ActionInfo m.EventIdx m.StateIdx)
    (e : ℤ) (w : World m.StateIdx) : (D.runEntry U noEvent emptyCell pai e w).2 = noEvent ∨
      ∃ t, (D.runEntry U noEvent emptyCell pai e w).2 = U.action t := by
  by_cases haction : pai.action = ""
  · exact .inl (by simp [runEntry, runAction, haction])
  · exact .inr ⟨(w.observe (.action pai.action)).trace, by
      simp only [runEntry, runAction, if_neg haction, UserCode.callAction]⟩

/-- So does a cell of the table. -/
lemma tableAction_snd (noEvent : ℤ) (c : Option (ActionInfo m.EventIdx m.StateIdx))
    (w : World m.StateIdx) : (D.tableAction U noEvent c w).2 = noEvent ∨
      ∃ t, (D.tableAction U noEvent c w).2 = U.action t := by
  have hno : (U.callNoAction noEvent w).2 = noEvent ∨
      ∃ t, (U.callNoAction noEvent w).2 = U.action t := by
    unfold UserCode.callNoAction
    split_ifs
    · exact .inr ⟨_, rfl⟩
    · exact .inl rfl
  unfold tableAction
  cases c with
  | some pai =>
    by_cases haction : pai.action = ""
    · simpa only [haction, if_true] using hno
    · simp only [haction, if_false]
      exact .inr ⟨_, rfl⟩
  | none =>
    cases D.emptyCellFn with
    | some name => exact .inr ⟨_, rfl⟩
    | none => exact hno

/-- An entry without action has a transition, so that nothing is printed for an empty cell. -/
lemma runAction_isNone {pai : ActionInfo m.EventIdx m.StateIdx} (hpai : pai ∈ D.actionInfoList)
    (noEvent : ℤ) (w : World m.StateIdx) :
    D.runAction U noEvent pai.transition.isNone pai w = D.runAction U noEvent false pai w := by
  by_cases haction : pai.action = ""
  · have htransition : pai.transition.isNone = false := by
      simpa [haction, Option.isSome_iff_ne_none] using D.named pai hpai
    rw [htransition]
  · simp only [runAction, if_neg haction]

/-! ## Flat machines -/

variable {D U B}

/-- One pass in the loop of a flat machine. -/
lemma flatLoop_pass {g : Generator} (hg : g ≠ .switch) (hflat : m.machineList = [])
    (hret : m.actionsReturn = .events) {f : Frame (World m.StateIdx)} (hf : f.e ≠ B.noEvent) :
    (D.flatLoop U B g).pass f = ((((D.ownCode U B [] g fun _ => []).dispatch f.world f.e).map
      fun r => { f with world := r.1, e := r.2 }).elim .stuck .running) := by
  have hcond : (D.flatLoop U B g).cond f = true := by simp [flatLoop, OwnCode.topLoop, hret, hf]
  rw [WhileLoop.pass_of_cond hcond]
  cases g with
  | switch => exact absurd rfl hg
  | table => simp [flatLoop, OwnCode.topLoop, hret, hflat, OwnCode.topInnards, OwnCode.callDispatch]
  | singleSwitch =>
    simp [flatLoop, OwnCode.topLoop, hret, hflat, OwnCode.topInnards, OwnCode.callDispatch]
  | eventTable =>
    simp [flatLoop, OwnCode.topLoop, hret, hflat, OwnCode.topInnards, OwnCode.callDispatch]

/-- Both loops have one condition. -/
lemma flatLoop_pass_noEvent {g : Generator} (hret : m.actionsReturn = .events)
    {f : Frame (World m.StateIdx)} (hf : f.e = B.noEvent) :
    (D.flatLoop U B g).pass f = .returned f := by
  have hcond : (D.flatLoop U B g).cond f = false := by simp [flatLoop, OwnCode.topLoop, hret, hf]
  rw [WhileLoop.pass_of_not_cond hcond]
  simp [flatLoop, OwnCode.topLoop, hret]

end AcceptedActions

/-- The value of one of the machine's events. -/
def IsEvent (m : Machine) (B : EventBounds) (v : ℤ) : Prop :=
  ∃ i : m.EventIdx, B.eventValue i = some v

/-- The actions return values of the machine's enumeration. -/
def UserCode.ReturnsEvents {m : Machine} (U : UserCode m.StateIdx) (B : EventBounds) : Prop :=
  ∀ t, U.action t = B.noEvent ∨ IsEvent m B (U.action t)

/-- A loop whose passes lead to `noEvent` or to what an action has returned stays in the
enumeration. -/
lemma UserCode.ReturnsEvents.isEvent_of_after {m : Machine} {B : EventBounds}
    {U : UserCode m.StateIdx} (hU : U.ReturnsEvents B)
    {L : WhileLoop (Frame (World m.StateIdx)) (Frame (World m.StateIdx))}
    (hbody : ∀ f h, f.e = B.noEvent ∨ IsEvent m B f.e → L.cond f = true → L.body f = some h →
      h.e = B.noEvent ∨ ∃ t, h.e = U.action t) {f g : Frame (World m.StateIdx)}
    (hf : f.e = B.noEvent ∨ IsEvent m B f.e) {k : ℕ}
    (hk : L.after k (.running f) = .running g) : g.e = B.noEvent ∨ IsEvent m B g.e := by
  refine WhileLoop.invariant_of_after (I := fun g => g.e = B.noEvent ∨ IsEvent m B g.e) ?_ hf k hk
  intro s t hs hcond ht
  rcases hbody s t hs hcond ht with h | h
  · exact .inl h
  · obtain ⟨u, hu⟩ := h
    exact hu ▸ hU u

/-- The values of a machine's events. -/
lemma eventBounds_eventValue {s : EnumScope Enumerator} {path : List ℕ} {m : Machine}
    {B : EventBounds} (hB : eventBounds s path m = some B) (i : ℕ) :
    B.eventValue i = s.valueOf ⟨path, .event i⟩ := by
  simp only [eventBounds, Option.bind_eq_some_iff, Option.map_eq_some_iff] at hB
  obtain ⟨-, -, -, -, -, -, rfl⟩ := hB
  rfl

/-! ## A machine with one cell -/

/-- A flat machine with one event and one state. -/
def oneCellMachine : Machine := plainMachine "m" "e" "s" []

instance : Subsingleton oneCellMachine.EventIdx := inferInstanceAs (Subsingleton (Fin 1))

instance : Subsingleton oneCellMachine.StateIdx := inferInstanceAs (Subsingleton (Fin 1))

/-- One entry for its cell, with an action and the given transition. -/
def oneCellActions (t : Option (Transition oneCellMachine.StateIdx)) :
    AcceptedActions oneCellMachine where
  actionInfoList := [⟨"a", t, [⟨0, by decide⟩], [⟨0, by decide⟩]⟩]
  named := by simp
  populated := by
    cases t with
    | none => decide
    | some t =>
      cases t with
      | state s =>
        obtain rfl : s = ⟨0, by decide⟩ := Subsingleton.elim s _
        decide
      | fn name returnsDecl => rfl

/-- Actions that return `noEvent`, in the one-cell machine. -/
def oneCellCode : UserCode oneCellMachine.StateIdx where
  action := fun _ => 1
  transitionFn := fun _ => ⟨0, by decide⟩
  subMachine := fun _ => 1

/-- The values of the one-cell machine. -/
lemma oneCellMachine_values {s : EnumScope Enumerator} {B : EventBounds}
    (hs : eventEnum false (fun _ => 0) oneCellMachine = some s)
    (hB : eventBounds s [] oneCellMachine = some B) :
    B.noEvent = 1 ∧ ∀ i : oneCellMachine.EventIdx, B.eventValue i = some ((i : ℕ) : ℤ) := by
  have hbounds : (eventEnum false (fun _ => 0) oneCellMachine).bind
      (fun s => (eventBounds s [] oneCellMachine).map fun B => (B.noEvent, B.eventValue 0)) =
      some (1, some 0) := by decide
  rw [hs, Option.bind_some, hB, Option.map_some] at hbounds
  simp only [Option.some.injEq, Prod.mk.injEq] at hbounds
  refine ⟨hbounds.1, ?_⟩
  intro i
  obtain rfl : i = ⟨0, by decide⟩ := Subsingleton.elim i _
  exact hbounds.2

end FsmLang
