import Mathlib.Data.List.Basic
import Mathlib.Tactic
import FsmLang.Combine
import FsmLang.ConsolidatedCases
import FsmLang.StateTransitionRoutines
import FsmLang.TransitionHooks

set_option relaxedAutoImplicit false
set_option autoImplicit false

/-!
# Tables and single switches whose actions return states

With -tc the action array of such a machine holds one function a cell: the entry's action, its
transition function, or the routine `transitionTo<S>` for a plain transition. An empty cell holds
the function for empty cells, and what it returns is looked at like any other result. With -tss the
entries are the cases of one switch on `COMBINE(event, state)`, and the default drops that result.

Both enter the state that has been returned unless it is `noTransition`, and call the functions for
state changes if it is another one than before.

What is printed is not always a program. A table may refer to routines that are not there, the
labels of a switch may be the same number, and the function of a top-level machine with sub-machines
uses a variable `e` that it declares only if some event has data. The structures for the two
programs say that none of this happens.

## Main definitions

* `EventNumbers` — the values of a machine's events in the enumeration.
* `TableProgram`, `SingleSwitchProgram` — what is printed with -tc and with -tss, if C takes it.
* `TableProgram.step`, `SingleSwitchProgram.step` — what they do with one of the machine's events.
* `Followed` — the machine has gone where the matrix says.
* `EmptyCellStays` — the function in an empty cell returns no other state.
* `StrayCaseStays` — the case that an empty cell leads to, if there is one, returns no other state.

## Main results

* `SingleSwitchProgram.body_of_cell` — a cell with an entry leads to the statements for the entry.
* `singleSwitch_followed_iff` — when the runs of -tss go where the matrix says.
* `table_followed_iff` — when the runs of -tc do.
-/

namespace FsmLang

open CSemantics

/-- The numbers of a machine's events: the value of each one in the enumeration, the value of the
first one (`firstEvent`, of a sub-machine), the number behind all of them (`numEvents`, and
`noEvent` of a sub-machine), and the one behind the events of its sub-machines (`lastEvent`); and
how many of the events have data. -/
structure EventNumbers (ε : Type*) where
  value : ε → ℤ
  firstEvent : ℤ := 0
  numEvents : ℤ
  lastEvent : ℤ
  dataBlockCount : ℕ := 0

namespace RunningMachine

section Definitions

variable {ε σ : Type*} [DecidableEq ε] [DecidableEq σ] (P : RunningMachine ε σ) (U : UserFns ε σ)
  (N : EventNumbers ε)

/-! ## Numbers -/

/-- The number that the rows of the action array start with. -/
def tableBase : ℤ := if P.isSubMachine then N.firstEvent else 0

/-- The events are numbered one after the other, as they are without external designations. -/
structure Consecutive : Prop where
  value : ∀ e ∈ P.eventList, N.value e = P.tableBase N + P.eventOrder e
  numEvents : N.numEvents = P.tableBase N + P.eventList.length

/-- The function has the variable `e` that it calls `findAndRunSubMachine` with. -/
def DeclaresE : Prop := P.isSubMachine = true ∨ P.hasSubMachines = false ∨ 0 < N.dataBlockCount

/-- `COMBINE` of an event and a state, which has its place for its value. -/
def key (e : ε) (s : σ) : ℕ :=
  combine (if P.isSubMachine then [0] else []) (N.value e) (P.stateOrder s)

/-- Different events and states have different keys. -/
def KeysSeparate : Prop :=
  ∀ e ∈ P.eventList, ∀ e' ∈ P.eventList, ∀ s ∈ P.stateList, ∀ s' ∈ P.stateList,
    P.key N e s = P.key N e' s' → e = e' ∧ s = s'

/-! ## State changes -/

/-- Enter the state `s` that has been returned: nothing is done for `noTransition`, and the
functions for state changes are called if it is another state (`writeActionsReturnStateFSM`,
`handleStateTransitionActions` and `setNewState`). -/
def enter (s : σ) (w : MachineState ε σ) : MachineState ε σ :=
  if s ≠ P.noTransition then
    { w with
      state := s
      calls := w.calls ++
        (if P.executesFnsOnStateTransitions && s ≠ w.state then P.stateChangeFns w.state s
          else []) ++ [.setState s] }
  else w

/-! ## The function of -tc -/

/-- The call of the function in a cell of the action array (`defineActionArray`), by the place of
its row. -/
def tableFn (row : ℕ) (s : σ) : Call ε σ :=
  match (P.actionArray.cell row (P.stateOrder s)).bind (P.actionInfoList[·]?) with
  | some pai =>
    if pai.action ≠ "" then .action pai.action
    else
      match pai.transition with
      | some (.state t) => .transitionTo t
      | some (.fn name _) => .transitionFn (P.ufMachineName ++ "_" ++ name) none
      -- the parser takes no entry with neither
      | none => .action pai.action
  | none => .action (P.emptyCellFn.getD "noAction")

/-- What such a function returns. The generated routine `transitionTo<S>` returns `S`; it is a weak
function that the user may replace. -/
def fnResult (calls : List (Call ε σ)) : Call ε σ → σ
  | .transitionTo t => if U.suppliesTransitionTo t then U.state calls else t
  | _ => U.state calls

/-- What is printed with -tc, if it is a program: the routines that the table refers to are declared
and defined once, and `e` is declared where it is used. -/
structure TableProgram extends EventNumbers ε where
  generateWeakFns : Bool := true
  routines : RoutinesComplete P.toMachineMatrix
    ⟨P.ufMachineName, P.fqMachineName, generateWeakFns, P.emptyCellFn⟩
  declaresE : P.DeclaresE toEventNumbers

variable {P} in
/-- The machine after one of its events, with -tc (`writeActionsReturnStateFSM`,
`writeActionsReturnStateSubFSM`). With sub-machines the event is compared first. -/
def TableProgram.step (T : TableProgram P) (w : MachineState ε σ) (e : ε) : MachineState ε σ :=
  let v := T.value e
  if P.hasSubMachines && T.numEvents ≤ v then w.call (.subMachine (.label (.this e)))
  else
    let f := P.tableFn (v - P.tableBase T.toEventNumbers).toNat w.state
    let w' := w.call f
    P.enter (fnResult U w'.calls f) w'

/-! ## The function of -tss -/

/-- The cases of the switch (`writeSingleSwitchFSMLoopInnardsArs`). -/
def singleSwitchCases : List (Case ℕ (ActionInfo ε σ)) :=
  P.consolidateActionInfoList.map fun c =>
    ⟨(c.members.flatMap P.matrixCases).map fun x => P.key N x.1 x.2, some c.leader⟩

/-- The statements of a case (`print_consolidated_cases_ars`); the variable `s` is that of the
state to be entered. -/
def singleSwitchCase (pai : ActionInfo ε σ) : List (BodyStatement σ) :=
  (if pai.action = "" then [] else P.profiled (.callAction (some .newState) pai.action)) ++
    match pai.transition with
    | none => []
    | some (.state t) => [.setState .newState t]
    | some (.fn name _) => [.callTransitionFn .newState name]

/-- What is printed with -tss, if it is a program: the labels are different numbers, and `e` is
declared where it is used. -/
structure SingleSwitchProgram extends EventNumbers ε where
  labels : ((P.singleSwitchCases toEventNumbers).flatMap Case.labels).Nodup
  declaresE : P.DeclaresE toEventNumbers

variable {P} in
/-- The switch (`writeSingleSwitchFSMLoopInnardsArs`). The variable `s` starts with the current
state. -/
def SingleSwitchProgram.runSwitch (T : SingleSwitchProgram P) (w : MachineState ε σ) (e : ε) :
    MachineState ε σ :=
  let body := (switchBody (P.singleSwitchCases T.toEventNumbers)
    (P.key T.toEventNumbers e w.state)).map P.singleSwitchCase
  let f := (body.getD [P.noAction]).foldl (P.exec U (.label (.this e))) (handlerStart w)
  P.enter f.newState f.toMachineState

variable {P} in
/-- The machine after one of its events, with -tss (`writeOriginalSwitchFSMLoopArs` and its sibling
for sub-machines). A top-level machine with sub-machines compares the event before the switch, a
sub-machine with sub-machines behind it. -/
def SingleSwitchProgram.step (T : SingleSwitchProgram P) (w : MachineState ε σ) (e : ε) :
    MachineState ε σ :=
  if P.isSubMachine then
    let w' := T.runSwitch U w e
    if T.numEvents < T.value e ∧ T.value e < T.lastEvent then
      (P.foreignPass U w' (.label (.this e))).1
    else w'
  else if P.hasSubMachines && T.numEvents ≤ T.value e then
    (P.foreignPass U w (.label (.this e))).1
  else T.runSwitch U w e

/-! ## What the matrix says -/

/-- The machine is in the state that the matrix prescribes, and the functions for state changes have
been called as they should. -/
structure Followed (step : MachineState ε σ → ε → MachineState ε σ) (w : MachineState ε σ)
    (e : ε) : Prop where
  state : (step w e).state = P.prescribed U w (.label (.this e))
  hooks : P.HooksRight w (step w e)

/-- In an empty cell the function for empty cells returns `noTransition` or the current state. -/
def EmptyCellStays (w : MachineState ε σ) (e : ε) : Prop :=
  P.cell e w.state = none →
    let s := U.state (w.calls ++ [.action (P.emptyCellFn.getD "noAction")])
    s = P.noTransition ∨ s = w.state

/-- In an empty cell that has the key of a cell with an entry, `noTransition` or the current state
is returned for this entry. -/
def StrayCaseStays (w : MachineState ε σ) (e : ε) : Prop :=
  P.cell e w.state = none → ∀ e' ∈ P.eventList, ∀ s' ∈ P.stateList, ∀ pai ∈ P.cell e' s',
    P.key N e' s' = P.key N e w.state →
      P.result U pai w.calls = P.noTransition ∨ P.result U pai w.calls = w.state

instance (w : MachineState ε σ) (e : ε) : Decidable (P.EmptyCellStays U w e) :=
  inferInstanceAs (Decidable (_ → _))

instance (w : MachineState ε σ) (e : ε) : Decidable (P.StrayCaseStays U N w e) :=
  inferInstanceAs (Decidable (_ → _))

end Definitions

section Followed

variable {ε σ : Type*} [DecidableEq ε] [DecidableEq σ] {P : RunningMachine ε σ} {U : UserFns ε σ}
  {N : EventNumbers ε} {w w' : MachineState ε σ}

/-! ## Numbers of events -/

omit [DecidableEq σ] in
/-- The place of an event's row is that of the event. -/
private lemma Consecutive.row_eq (hN : P.Consecutive N) {e : ε} (he : e ∈ P.eventList) :
    (N.value e - P.tableBase N).toNat = P.eventOrder e := by
  rw [hN.value e he]
  omega

omit [DecidableEq σ] in
/-- The machine's events come before the number behind them. -/
lemma Consecutive.value_lt (hN : P.Consecutive N) {e : ε} (he : e ∈ P.eventList) :
    N.value e < N.numEvents := by
  have hlt : P.eventOrder e < P.eventList.length := enumeratePidList_lt he
  rw [hN.value e he, hN.numEvents]
  omega

/-! ## Entering states -/

omit [DecidableEq ε] [DecidableEq σ] in
/-- If no functions are called on state changes, there are none. -/
private lemma stateChangeFns_eq_nil (h : P.executesFnsOnStateTransitions = false) {s t : σ}
    (hs : s ∈ P.stateList) (ht : t ∈ P.stateList) : P.stateChangeFns s t = [] := by
  simp only [GeneratedMachine.executesFnsOnStateTransitions, Bool.or_eq_false_iff,
    List.any_eq_false, Bool.not_eq_true] at h
  obtain ⟨hfns, hmachine⟩ := h
  simp only [Option.isSome_eq_false_iff, Option.isNone_iff_eq_none] at hfns hmachine
  obtain ⟨-, hexit⟩ := hfns s hs
  obtain ⟨hentry, -⟩ := hfns t ht
  simp [stateChangeFns, hmachine, hexit, hentry]

omit [DecidableEq ε] in
/-- The state after entering one. -/
private lemma enter_state (s : σ) (w : MachineState ε σ) :
    (P.enter s w).state = if s = P.noTransition then w.state else s := by
  unfold enter
  by_cases hs : s = P.noTransition <;> simp [hs]

omit [DecidableEq ε] in
/-- **State changes.** The functions for them are called where another state is entered. -/
lemma hooksRight_enter (h : Quiet w w') (hw : w.state ∈ P.stateList) {s : σ}
    (hs : s ∈ P.stateList ∨ s = P.noTransition) : P.HooksRight w (P.enter s w') := by
  unfold enter
  by_cases hno : s = P.noTransition
  · rw [if_neg (by simpa using hno)]
    exact hooksRight_of_quiet h
  · rw [if_pos hno]
    have hcalls : (if P.executesFnsOnStateTransitions && s ≠ w'.state then
        P.stateChangeFns w'.state s else []) =
          if s ≠ w'.state then P.stateChangeFns w'.state s else [] := by
      cases hexecutes : P.executesFnsOnStateTransitions with
      | true => simp
      | false =>
        have hnil := stateChangeFns_eq_nil hexecutes (h.state ▸ hw) (hs.resolve_right hno)
        simp [hnil]
    rw [hcalls]
    exact hooksRight_of_compare h rfl rfl

/-- A step that enters a state goes where the matrix says if that state is prescribed. -/
lemma followed_iff_of_enter {step : MachineState ε σ → ε → MachineState ε σ} {e : ε} {s : σ}
    (hstep : step w e = P.enter s w') (h : Quiet w w') (hw : w.state ∈ P.stateList)
    (hs : s ∈ P.stateList ∨ s = P.noTransition) : P.Followed U step w e ↔
      (if s = P.noTransition then w.state else s) = P.prescribed U w (.label (.this e)) := by
  have hstate : (step w e).state = if s = P.noTransition then w.state else s := by
    rw [hstep, enter_state, h.state]
  constructor
  · intro hfollowed
    exact hstate.symm.trans hfollowed.state
  · intro heq
    exact ⟨hstate.trans heq, hstep ▸ hooksRight_enter h hw hs⟩

/-- In a cell with an entry that is what is returned for the entry. -/
lemma followed_of_some {step : MachineState ε σ → ε → MachineState ε σ} {e : ε}
    {pai : ActionInfo ε σ} (hcell : P.cell e w.state = some pai)
    (hstep : step w e = P.enter (P.result U pai w.calls) w') (h : Quiet w w')
    (hw : w.state ∈ P.stateList)
    (hs : P.result U pai w.calls ∈ P.stateList ∨ P.result U pai w.calls = P.noTransition) :
    P.Followed U step w e := by
  rw [followed_iff_of_enter hstep h hw hs, prescribed, hcell]

/-- In an empty cell it is the current state. -/
lemma followed_iff_of_none {step : MachineState ε σ → ε → MachineState ε σ} {e : ε} {s : σ}
    (hcell : P.cell e w.state = none) (hstep : step w e = P.enter s w') (h : Quiet w w')
    (hw : w.state ∈ P.stateList) (hs : s ∈ P.stateList ∨ s = P.noTransition) :
    P.Followed U step w e ↔ s = P.noTransition ∨ s = w.state := by
  rw [followed_iff_of_enter hstep h hw hs, prescribed, hcell]
  by_cases hno : s = P.noTransition <;> simp [hno]

/-! ## Cells -/

/-- The entry that names a cell is in it. -/
lemma ReturnsStates.cell_of_mem (h : P.ReturnsStates) {pai : ActionInfo ε σ}
    (hpai : pai ∈ P.actionInfoList) {e : ε} (he : e ∈ P.expandEvents pai) {s : σ}
    (hs : s ∈ P.expandStates pai) : P.cell e s = some pai := by
  obtain ⟨idx, hidx⟩ := List.getElem?_of_mem hpai
  have hnamed : ((e, s), idx) ∈ namedCells P.toMachineMatrix :=
    mem_namedCells.mpr ⟨pai, hidx, he, hs⟩
  obtain ⟨he', hs'⟩ := h.filled.declared _ hnamed
  rw [cell, (h.cellIdx_eq_some_iff he' hs').mpr hnamed, Option.bind_some, hidx]

/-- The entry in a cell names it. -/
lemma ReturnsStates.mem_of_cell (h : P.ReturnsStates) {pai : ActionInfo ε σ} {e : ε}
    (he : e ∈ P.eventList) {s : σ} (hs : s ∈ P.stateList) (hcell : P.cell e s = some pai) :
    pai ∈ P.actionInfoList ∧ e ∈ P.expandEvents pai ∧ s ∈ P.expandStates pai := by
  obtain ⟨idx, hidx, hpai⟩ := Option.bind_eq_some_iff.mp hcell
  obtain ⟨pai', hpai', hnamed⟩ := h.exists_entry he hs hidx
  obtain rfl := Option.some.inj (hpai.symm.trans hpai')
  exact ⟨List.mem_of_getElem? hpai, hnamed⟩

/-- The labels of a case are the keys of cells whose entries have its statements. -/
lemma ReturnsStates.exists_of_mem_labels (h : P.ReturnsStates) {c : Case ℕ (ActionInfo ε σ)}
    (hc : c ∈ P.singleSwitchCases N) {x : ℕ} (hx : x ∈ c.labels) :
    ∃ e ∈ P.eventList, ∃ s ∈ P.stateList, ∃ leader pai, P.key N e s = x ∧
      c.body = some leader ∧ P.cell e s = some pai ∧
        P.singleSwitchCase leader = P.singleSwitchCase pai := by
  obtain ⟨r, hr, rfl⟩ := List.mem_map.mp hc
  obtain ⟨⟨e, s⟩, hes, rfl⟩ := List.mem_map.mp hx
  obtain ⟨pai, hpai, hes⟩ := List.mem_flatMap.mp hes
  obtain ⟨hmem, haction, htransition⟩ := P.consolidateActionInfoList_spec.1 r hr pai hpai
  obtain ⟨he, hs⟩ := P.mem_matrixCases.mp hes
  have hcell := h.cell_of_mem hmem he hs
  obtain ⟨he, hs⟩ := h.declared.cellsDeclared pai hmem e he s hs
  refine ⟨e, he, s, hs, r.leader, pai, rfl, rfl, hcell, ?_⟩
  rw [singleSwitchCase, singleSwitchCase, haction, htransition]

/-- The key of a cell with an entry is the label of some case. -/
private lemma ReturnsStates.exists_label (h : P.ReturnsStates) {e : ε} (he : e ∈ P.eventList)
    {s : σ}
    (hs : s ∈ P.stateList) {pai : ActionInfo ε σ} (hcell : P.cell e s = some pai) :
    ∃ c ∈ P.singleSwitchCases N, P.key N e s ∈ c.labels := by
  obtain ⟨hpai, hnamed⟩ := h.mem_of_cell he hs hcell
  obtain ⟨c, hc, hmem⟩ := P.consolidateActionInfoList_spec.2 pai hpai
  refine ⟨_, List.mem_map_of_mem hc, List.mem_map.mpr ⟨(e, s), ?_, rfl⟩⟩
  exact List.mem_flatMap.mpr ⟨pai, hmem, P.mem_matrixCases.mpr hnamed⟩

/-! ## The single switch -/

/-- All labels are the keys of the cells that the entries name, in some order. -/
private lemma labels_perm : ((P.singleSwitchCases N).flatMap Case.labels).Perm
    ((namedCells P.toMachineMatrix).map fun x => P.key N x.1.1 x.1.2) := by
  have hlabels : (P.singleSwitchCases N).flatMap Case.labels =
      (P.consolidateActionInfoList.flatMap fun c => c.members.flatMap P.matrixCases).map
        fun x => P.key N x.1 x.2 := by
    rw [singleSwitchCases, List.flatMap_map, List.map_flatMap]
  rw [hlabels]
  simpa [Function.comp_def] using P.consolidatedCases_perm.map fun x => P.key N x.1 x.2

/-- Cells with entries and one key are the same. -/
lemma ReturnsStates.eq_of_key_eq (h : P.ReturnsStates) (T : SingleSwitchProgram P) {e e' : ε}
    (he : e ∈ P.eventList) (he' : e' ∈ P.eventList) {s s' : σ} (hs : s ∈ P.stateList)
    (hs' : s' ∈ P.stateList) {pai pai' : ActionInfo ε σ} (hcell : P.cell e s = some pai)
    (hcell' : P.cell e' s' = some pai')
    (hkey : P.key T.toEventNumbers e s = P.key T.toEventNumbers e' s') : e = e' ∧ s = s' := by
  have hnamed : ∀ {e : ε} {s : σ} {pai : ActionInfo ε σ}, e ∈ P.eventList → s ∈ P.stateList →
      P.cell e s = some pai → ∃ idx, ((e, s), idx) ∈ namedCells P.toMachineMatrix := by
    intro e s pai he hs hcell
    obtain ⟨idx, hidx, -⟩ := Option.bind_eq_some_iff.mp hcell
    exact ⟨idx, (h.cellIdx_eq_some_iff he hs).mp hidx⟩
  obtain ⟨idx, hmem⟩ := hnamed he hs hcell
  obtain ⟨idx', hmem'⟩ := hnamed he' hs' hcell'
  have heq := List.inj_on_of_nodup_map (labels_perm.nodup_iff.mp T.labels) hmem hmem' hkey
  simpa using congrArg Prod.fst heq

/-- **The single switch.** The key of a cell with an entry leads to the statements for the entry. -/
lemma SingleSwitchProgram.body_of_cell (T : SingleSwitchProgram P) (h : P.ReturnsStates) {e : ε}
    (he : e ∈ P.eventList) {s : σ} (hs : s ∈ P.stateList) {pai : ActionInfo ε σ}
    (hcell : P.cell e s = some pai) :
    (switchBody (P.singleSwitchCases T.toEventNumbers) (P.key T.toEventNumbers e s)).map
      P.singleSwitchCase = some (P.singleSwitchCase pai) := by
  obtain ⟨leader, hbody, hleader⟩ := exists_switchBody (P.singleSwitchCases T.toEventNumbers)
    (P.key T.toEventNumbers e s) (fun p => P.singleSwitchCase p = P.singleSwitchCase pai)
    (h.exists_label he hs hcell)
    (by
      intro c hc hx
      obtain ⟨e', he', s', hs', leader, pai', hkey, hbody, hcell', hleader⟩ :=
        h.exists_of_mem_labels hc hx
      obtain ⟨rfl, rfl⟩ := h.eq_of_key_eq T he' he hs' hs hcell' hcell hkey
      obtain rfl := Option.some.inj (hcell'.symm.trans hcell)
      exact ⟨leader, hbody, hleader⟩)
  rw [hbody, Option.map_some, hleader]

/-- A key that no cell with an entry has leads to the default. -/
private lemma ReturnsStates.body_of_not_key (h : P.ReturnsStates) {x : ℕ}
    (hx : ∀ e ∈ P.eventList, ∀ s ∈ P.stateList, ∀ pai, P.cell e s = some pai → P.key N e s ≠ x) :
    (switchBody (P.singleSwitchCases N) x).map P.singleSwitchCase = none := by
  rw [Option.map_eq_none_iff]
  apply switchBody_eq_none
  intro c hc hmem
  obtain ⟨e, he, s, hs, -, pai, hkey, -, hcell, -⟩ := h.exists_of_mem_labels hc hmem
  exact hx e he s hs pai hcell hkey

/-- The statements of a case leave in `s` what is returned for the entry. -/
private lemma ReturnsStates.foldl_singleSwitchCase (h : P.ReturnsStates) {pai : ActionInfo ε σ}
    (hpai : pai ∈ P.actionInfoList) (v : EventValue ε) (f : Locals ε σ) :
    ((P.singleSwitchCase pai).foldl (P.exec U v) f).newState = P.result U pai f.calls ∧
      Quiet f.toMachineState ((P.singleSwitchCase pai).foldl (P.exec U v) f).toMachineState := by
  refine ⟨?_, quiet_foldl v f ?_⟩
  · unfold singleSwitchCase result
    rcases htransition : pai.transition with _ | (t | ⟨name, _⟩)
    · rw [if_neg (h.action_ne hpai htransition), List.append_nil, foldl_profiled]
      simp [exec, h.actionsReturnStates, Locals.assign, Locals.call]
    · rw [if_pos (h.action_eq hpai htransition)]
      rfl
    · rw [if_pos (h.action_eq hpai htransition)]
      simp [exec, transitionArg, h.actionsReturnStates, Locals.assign, Locals.call]
  · unfold singleSwitchCase
    refine List.forall_mem_append.mpr ⟨target_actionOr (by simp) (by simp), ?_⟩
    rcases pai.transition with _ | (t | ⟨name, _⟩) <;> simp [BodyStatement.target]

/-! ## Steps -/

omit [DecidableEq ε] [DecidableEq σ] in
/-- What is printed for an empty cell leaves the current state in `s`. -/
private lemma exec_noAction_handlerStart (v : EventValue ε) :
    (P.exec U v (handlerStart w) P.noAction).newState = w.state ∧
      Quiet w (P.exec U v (handlerStart w) P.noAction).toMachineState := by
  rcases exec_noAction (P := P) (U := U) v (handlerStart w) with hexec | ⟨name, hexec⟩
  · rw [hexec]
    exact ⟨rfl, Quiet.refl w⟩
  · rw [hexec]
    exact ⟨rfl, quiet_call w rfl⟩

/-- The machine's own events come to the switch, and to nothing else. -/
lemma SingleSwitchProgram.step_eq (T : SingleSwitchProgram P)
    (hN : P.Consecutive T.toEventNumbers) {e : ε} (he : e ∈ P.eventList) :
    T.step U w e = T.runSwitch U w e := by
  have hlt := hN.value_lt he
  unfold SingleSwitchProgram.step
  split_ifs with hsub hbehind hbefore
  · omega
  · rfl
  · simp only [Bool.and_eq_true, decide_eq_true_eq] at hbefore
    omega
  · rfl

/-- The switch, when it leads to the statements for an entry. -/
lemma SingleSwitchProgram.exists_runSwitch_of_body (T : SingleSwitchProgram P)
    (h : P.ReturnsStates) {e : ε} {pai : ActionInfo ε σ} (hpai : pai ∈ P.actionInfoList)
    (hbody : (switchBody (P.singleSwitchCases T.toEventNumbers)
      (P.key T.toEventNumbers e w.state)).map P.singleSwitchCase =
        some (P.singleSwitchCase pai)) :
    ∃ w', Quiet w w' ∧ T.runSwitch U w e = P.enter (P.result U pai w.calls) w' := by
  obtain ⟨hnew, hquiet⟩ := h.foldl_singleSwitchCase (U := U) hpai (.label (.this e))
    (handlerStart w)
  refine ⟨_, hquiet, ?_⟩
  rw [SingleSwitchProgram.runSwitch]
  simp only [hbody, Option.getD_some]
  rw [hnew]
  rfl

/-- The switch, when it leads to the default. -/
private lemma SingleSwitchProgram.exists_runSwitch_of_not_body (T : SingleSwitchProgram P) {e : ε}
    (hbody : (switchBody (P.singleSwitchCases T.toEventNumbers)
      (P.key T.toEventNumbers e w.state)).map P.singleSwitchCase = none) :
    ∃ w', Quiet w w' ∧ T.runSwitch U w e = P.enter w.state w' := by
  obtain ⟨hnew, hquiet⟩ := exec_noAction_handlerStart (P := P) (U := U) (w := w)
    (.label (.this e))
  refine ⟨_, hquiet, ?_⟩
  rw [SingleSwitchProgram.runSwitch]
  simp only [hbody, Option.getD_none, List.foldl_cons, List.foldl_nil]
  rw [hnew]

/-- **A step of -tss** goes where the matrix says unless it is one in an empty cell whose key is
that of a cell with an entry, and another state is returned for this entry. -/
lemma ReturnsStates.followed_singleSwitch_iff (h : P.ReturnsStates) (T : SingleSwitchProgram P)
    (hN : P.Consecutive T.toEventNumbers) (hU : P.UserStatesDeclared U)
    (hw : w.state ∈ P.stateList) {e : ε} (he : e ∈ P.eventList) :
    P.Followed U (T.step U) w e ↔ P.StrayCaseStays U T.toEventNumbers w e := by
  have hstep := T.step_eq (U := U) (w := w) hN he
  cases hcell : P.cell e w.state with
  | some pai =>
    have hpai := (h.mem_of_cell he hw hcell).1
    obtain ⟨w', hquiet, hswitch⟩ := T.exists_runSwitch_of_body (U := U) h hpai
      (T.body_of_cell h he hw hcell)
    refine iff_of_true (followed_of_some hcell (hstep.trans hswitch) hquiet hw
      (h.result_mem hU hpai w.calls)) ?_
    intro hnone
    cases hcell.symm.trans hnone
  | none =>
    by_cases hstray : ∃ e' ∈ P.eventList, ∃ s' ∈ P.stateList, ∃ pai, P.cell e' s' = some pai ∧
        P.key T.toEventNumbers e' s' = P.key T.toEventNumbers e w.state
    · obtain ⟨e', he', s', hs', pai, hcell', hkey⟩ := hstray
      have hpai := (h.mem_of_cell he' hs' hcell').1
      obtain ⟨w', hquiet, hswitch⟩ := T.exists_runSwitch_of_body (U := U) (w := w) (e := e) h hpai
        (hkey ▸ T.body_of_cell h he' hs' hcell')
      rw [followed_iff_of_none hcell (hstep.trans hswitch) hquiet hw (h.result_mem hU hpai w.calls)]
      constructor
      · -- the other cell is the only one with the key
        intro hstays _ e'' he'' s'' hs'' pai'' hcell'' hkey''
        obtain ⟨rfl, rfl⟩ :=
          h.eq_of_key_eq T he' he'' hs' hs'' hcell' hcell'' (hkey.trans hkey''.symm)
        obtain rfl := Option.some.inj (hcell'.symm.trans hcell'')
        exact hstays
      · intro hstays
        exact hstays hcell e' he' s' hs' pai hcell' hkey
    · push Not at hstray
      obtain ⟨w', hquiet, hswitch⟩ := T.exists_runSwitch_of_not_body (U := U) (w := w) (e := e)
        (h.body_of_not_key hstray)
      refine iff_of_true ?_ ?_
      · rw [followed_iff_of_none hcell (hstep.trans hswitch) hquiet hw (.inl hw)]
        exact .inr rfl
      · intro _ e' he' s' hs' pai hcell' hkey
        exact absurd hkey (hstray e' he' s' hs' pai hcell')

/-- Where keys are different, an empty cell leads to no case. -/
lemma KeysSeparate.strayCaseStays (hkeys : P.KeysSeparate N) (hw : w.state ∈ P.stateList) {e : ε}
    (he : e ∈ P.eventList) : P.StrayCaseStays U N w e := by
  intro hcell e' he' s' hs' pai hcell' hkey
  obtain ⟨rfl, rfl⟩ := hkeys e' he' e he s' hs' w.state hw hkey
  cases hcell.symm.trans hcell'

/-- The function in a cell with an entry returns what is returned for the entry, if the user leaves
the generated routines as they are. -/
private lemma ReturnsStates.fnResult_of_some (h : P.ReturnsStates)
    (hkeeps : ∀ t, U.suppliesTransitionTo t = false) {pai : ActionInfo ε σ}
    (hpai : pai ∈ P.actionInfoList) {e : ε} (hcell : P.cell e w.state = some pai) :
    fnResult U (w.call (P.tableFn (P.eventOrder e) w.state)).calls
      (P.tableFn (P.eventOrder e) w.state) = P.result U pai w.calls := by
  have hentry : (P.actionArray.cell (P.eventOrder e) (P.stateOrder w.state)).bind
      (P.actionInfoList[·]?) = some pai := hcell
  unfold tableFn result
  rw [hentry]
  rcases htransition : pai.transition with _ | (t | ⟨name, _⟩)
  · simp [h.action_ne hpai htransition, fnResult, MachineState.call]
  · simp [h.action_eq hpai htransition, htransition, fnResult, hkeeps]
  · simp [h.action_eq hpai htransition, htransition, fnResult, MachineState.call]

/-- No function in a cell is one for state changes. -/
private lemma isStateChange_tableFn (row : ℕ) (s : σ) :
    (P.tableFn row s).isStateChange = false := by
  unfold tableFn
  split
  · split_ifs
    · rfl
    · split <;> rfl
  · rfl

/-- The machine's own events come to their row of the table. -/
lemma TableProgram.step_eq (T : TableProgram P) (hN : P.Consecutive T.toEventNumbers) {e : ε}
    (he : e ∈ P.eventList) : T.step U w e =
      P.enter (fnResult U (w.call (P.tableFn (P.eventOrder e) w.state)).calls
          (P.tableFn (P.eventOrder e) w.state))
        (w.call (P.tableFn (P.eventOrder e) w.state)) := by
  have hlt := hN.value_lt he
  simp only [TableProgram.step, hN.row_eq he]
  rw [if_neg (by simp [hlt])]

/-- **A step of -tc** goes where the matrix says unless it is one in an empty cell and the function
for empty cells returns another state. -/
lemma ReturnsStates.followed_table_iff (h : P.ReturnsStates) (T : TableProgram P)
    (hN : P.Consecutive T.toEventNumbers) (hU : P.UserStatesDeclared U)
    (hkeeps : ∀ t, U.suppliesTransitionTo t = false) (hw : w.state ∈ P.stateList) {e : ε}
    (he : e ∈ P.eventList) : P.Followed U (T.step U) w e ↔ P.EmptyCellStays U w e := by
  have hstep := T.step_eq (U := U) (w := w) hN he
  have hquiet := quiet_call w (isStateChange_tableFn (P := P) (P.eventOrder e) w.state)
  cases hcell : P.cell e w.state with
  | some pai =>
    have hpai := (h.mem_of_cell he hw hcell).1
    rw [h.fnResult_of_some hkeeps hpai hcell] at hstep
    refine iff_of_true (followed_of_some hcell hstep hquiet hw (h.result_mem hU hpai w.calls)) ?_
    intro hnone
    cases hcell.symm.trans hnone
  | none =>
    have hentry : (P.actionArray.cell (P.eventOrder e) (P.stateOrder w.state)).bind
        (P.actionInfoList[·]?) = none := hcell
    have hfn : P.tableFn (P.eventOrder e) w.state =
        .action (P.emptyCellFn.getD "noAction") := by
      rw [tableFn, hentry]
    rw [hfn] at hstep hquiet
    rw [followed_iff_of_none hcell hstep hquiet hw (hU _)]
    exact ⟨fun hstays _ => hstays, fun hstays => hstays hcell⟩

/-! ## Runs -/

/-- **Single switches whose actions return states.** Let the events be numbered one after the other.
From a declared state, a run of the machine's events goes where the matrix says, exactly if in every
empty cell whose key is that of a cell with an entry, `noTransition` or the current state is
returned for that entry. Where the matrix says is: after each event the machine is in the state that
is returned for the entry in its cell, or where it was, if that is `noTransition` or the cell is
empty; and on the way to another state the functions for state changes are called, once each and in
their order.

**Proof sketch.** Consolidating loses no entry and moves none to another body, and the labels are
different, so that a cell with an entry leads to its statements. These leave in `s` what is returned
for the entry; the default leaves the current state in it. So the state stays a declared one, and
the step is one like the others. -/
theorem singleSwitch_followed_iff (h : P.ReturnsStates) (T : SingleSwitchProgram P)
    (hN : P.Consecutive T.toEventNumbers) (hU : P.UserStatesDeclared U)
    (hw : w.state ∈ P.stateList) {es : List ε} (hes : ∀ e ∈ es, e ∈ P.eventList) :
    EachStep (T.step U) (P.Followed U (T.step U)) w es ↔
      EachStep (T.step U) (P.StrayCaseStays U T.toEventNumbers) w es := by
  refine eachStep_congr (I := fun w => w.state ∈ P.stateList) (P := (· ∈ P.eventList)) ?_ ?_ hw hes
  · intro w e hw he
    exact h.followed_singleSwitch_iff T hN hU hw he
  · intro w e hw he hstays
    rw [((h.followed_singleSwitch_iff T hN hU hw he).mpr hstays).state]
    exact h.prescribed_mem hU hw _

/-- A machine with seventeen states and a function for its transitions: of its two events the second
one has an entry in the first state, with a plain transition to the second state. -/
def seventeenStatesMachine : RunningMachine ℕ ℕ where
  eventList := [0, 1]
  stateList := List.range 17
  consumedByTranslator := fun _ => false
  implementedBySubMachine := fun _ => false
  actionInfoList := [⟨"", some (.state 1), [1], [0]⟩]
  actionsReturn := .states
  machineTransition := some "t"
  noTransition := 17

/-- The parser takes it. -/
private lemma returnsStates_seventeenStatesMachine : seventeenStatesMachine.ReturnsStates where
  declared := by simp [MachineMatrix.Declared, seventeenStatesMachine]
  nodup := by decide
  nonempty := by decide
  named := by decide
  elsewhere := by decide
  oneResult := by decide
  populated := by decide
  actionsReturnStates := rfl
  declaredTargets := by simp [seventeenStatesMachine]
  noTransition_notMem := by decide

/-- Its events from zero on. -/
def seventeenStatesProgram : SingleSwitchProgram seventeenStatesMachine where
  value e := e
  numEvents := 2
  lastEvent := 2
  labels := by decide
  declaresE := .inr (.inl rfl)

/-- In the first two states the events lead where they should; in the last one the first event leads
to the case of the second event in the first state. -/
theorem singleSwitch_followed_seventeenStatesMachine :
    EachStep (seventeenStatesProgram.step firstStateFns)
        (seventeenStatesMachine.Followed firstStateFns (seventeenStatesProgram.step firstStateFns))
        ⟨0, 0, []⟩ [1, 0, 1] ∧
      ¬ EachStep (seventeenStatesProgram.step firstStateFns)
        (seventeenStatesMachine.Followed firstStateFns (seventeenStatesProgram.step firstStateFns))
        ⟨16, 16, []⟩ [0] := by
  have hiff : ∀ w : MachineState ℕ ℕ, w.state ∈ seventeenStatesMachine.stateList →
      ∀ es : List ℕ, (∀ e ∈ es, e ∈ seventeenStatesMachine.eventList) →
        (EachStep (seventeenStatesProgram.step firstStateFns) (seventeenStatesMachine.Followed
            firstStateFns (seventeenStatesProgram.step firstStateFns)) w es ↔
          EachStep (seventeenStatesProgram.step firstStateFns)
            (seventeenStatesMachine.StrayCaseStays firstStateFns
              seventeenStatesProgram.toEventNumbers) w es) :=
    fun w hw es hes => singleSwitch_followed_iff returnsStates_seventeenStatesMachine
      seventeenStatesProgram ⟨by decide, by decide⟩
      (fun _ => .inl (by simp [firstStateFns, seventeenStatesMachine])) hw hes
  rw [hiff _ (by decide) _ (by decide), hiff _ (by decide) _ (by decide)]
  decide

/-- **Tables whose actions return states.** Let the events be numbered one after the other, and the
user leave the generated routines `transitionTo<S>` as they are. From a declared state, a run of the
machine's events goes where the matrix says, exactly if the function for empty cells returns
`noTransition` or the current state whenever it is called for an empty cell. -/
theorem table_followed_iff (h : P.ReturnsStates) (T : TableProgram P)
    (hN : P.Consecutive T.toEventNumbers) (hU : P.UserStatesDeclared U)
    (hkeeps : ∀ t, U.suppliesTransitionTo t = false) (hw : w.state ∈ P.stateList) {es : List ε}
    (hes : ∀ e ∈ es, e ∈ P.eventList) :
    EachStep (T.step U) (P.Followed U (T.step U)) w es ↔
      EachStep (T.step U) (P.EmptyCellStays U) w es := by
  refine eachStep_congr (I := fun w => w.state ∈ P.stateList) (P := (· ∈ P.eventList)) ?_ ?_ hw hes
  · intro w e hw he
    exact h.followed_table_iff T hN hU hkeeps hw he
  · intro w e hw he hstays
    rw [((h.followed_table_iff T hN hU hkeeps hw he).mpr hstays).state]
    exact h.prescribed_mem hU hw _

/-- A machine with two states: an action, a plain transition and a transition function, and a cell
without an entry. -/
def threeCellsMachine : RunningMachine ℕ ℕ where
  eventList := [0, 1]
  stateList := [0, 1]
  consumedByTranslator := fun _ => false
  implementedBySubMachine := fun _ => false
  actionInfoList := [⟨"a", none, [0], [0]⟩, ⟨"", some (.state 1), [1], [0]⟩,
    ⟨"", some (.fn "f" []), [1], [1]⟩]
  actionsReturn := .states
  machineTransition := some "t"
  noTransition := 2

/-- The parser takes it. -/
private lemma returnsStates_threeCellsMachine : threeCellsMachine.ReturnsStates where
  declared := by simp [MachineMatrix.Declared, threeCellsMachine]
  nodup := by decide
  nonempty := by decide
  named := by decide
  elsewhere := by decide
  oneResult := by decide
  populated := by decide
  actionsReturnStates := rfl
  declaredTargets := by simp [threeCellsMachine]
  noTransition_notMem := by decide

/-- Its events from zero on; the routine for its plain transition is there. -/
def threeCellsProgram : TableProgram threeCellsMachine where
  value e := e
  numEvents := 2
  lastEvent := 2
  routines := by
    unfold RoutinesComplete
    decide
  declaresE := .inr (.inl rfl)

/-- A run through all three cells goes where it should; then the first event meets the empty cell,
and the function for empty cells returns the other state. -/
theorem table_followed_threeCellsMachine :
    EachStep (threeCellsProgram.step firstStateFns)
        (threeCellsMachine.Followed firstStateFns (threeCellsProgram.step firstStateFns))
        ⟨0, 0, []⟩ [0, 1, 1, 1] ∧
      ¬ EachStep (threeCellsProgram.step firstStateFns)
        (threeCellsMachine.Followed firstStateFns (threeCellsProgram.step firstStateFns))
        ⟨0, 0, []⟩ [0, 1, 0] := by
  have hiff : ∀ es : List ℕ, (∀ e ∈ es, e ∈ threeCellsMachine.eventList) →
      (EachStep (threeCellsProgram.step firstStateFns)
          (threeCellsMachine.Followed firstStateFns (threeCellsProgram.step firstStateFns))
          ⟨0, 0, []⟩ es ↔
        EachStep (threeCellsProgram.step firstStateFns)
          (threeCellsMachine.EmptyCellStays firstStateFns) ⟨0, 0, []⟩ es) :=
    fun es hes => table_followed_iff returnsStates_threeCellsMachine threeCellsProgram
      ⟨by decide, by decide⟩ (fun _ => .inl (by simp [firstStateFns, threeCellsMachine]))
      (fun _ => rfl) (by decide) hes
  rw [hiff _ (by decide), hiff _ (by decide)]
  decide

end Followed

end RunningMachine

end FsmLang
