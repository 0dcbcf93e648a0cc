import Mathlib.Data.List.Perm.Basic
import Mathlib.Tactic
import FsmLang.CSemantics.Lists
import FsmLang.Machine
import FsmLang.UserCode

set_option relaxedAutoImplicit false
set_option autoImplicit false

/-!
# The cases of the single switch

The -tss generator prints one switch on `COMBINE(event, state)`. Entries with the same action, the
same transition and the same events are consolidated into one record, and a record is printed as
the `case` labels of all its matrices, followed by one body. This file models the labels and the
bodies as they are printed, for all three kinds of actions, and what a body does with the variables
of the function around it.

The labels are the cells of the action array, each once, as long as the matrices name events and
states of the machine. But where translators return events, they may name `noEvent`, which is none;
its order number is 0. A body calls a transition function after the action. Where actions return
events it then hands it what the action has returned, and not the event that is processed; where
they return nothing, it hands it a variable that is not always there.

## Main definitions

* `consolidateActionInfoList` — the records.
* `SwitchMachine` — what is read for the cases; `printConsolidatedCases` — the whole switch.
* `LoopVariables`, `runBody` — the variables of the function, and what a body does with them.
* `performEntry` — what a cell's entry says is to be done with an event.
* `CasesRight` — the labels are the cells, and the bodies perform their entries.

## Main results

* `consolidateActionInfoList_spec` — every entry is in a record with its action and its transition.
* `runBody_caseBody_eq_iff` — when a body performs its entry.
* `casesRight_iff` — when the cases are right.
-/

namespace FsmLang

open CSemantics

/-! ## The consolidated list -/

namespace MachineMatrix

variable {ε σ : Type*} [DecidableEq ε] [DecidableEq σ] (M : MachineMatrix ε σ)

/-- Two entries go into one record if they have the same action, transition and events
(`consolidate_records`, `matrices_have_same_events`). -/
def sameRecord (p q : ActionInfo ε σ) : Bool :=
  p.action = q.action ∧ p.transition = q.transition ∧ M.expandEvents p = M.expandEvents q

/-- The consolidated list of the machine's entries (`consolidate_action_info_list`). -/
def consolidateActionInfoList : List (Cluster (ActionInfo ε σ)) :=
  clusters M.sameRecord M.actionInfoList

/-- The labels `COMBINE(THIS(event), STATE(state))` of a matrix (`print_matrices`,
`print_matrix_event_cases`, `print_matrix_case`). -/
def matrixCases (pai : ActionInfo ε σ) : List (ε × σ) :=
  (M.expandEvents pai).flatMap fun e => (M.expandStates pai).map fun s => (e, s)

/-- The entry in the cell of an event and a state. -/
def entryAt (e : ε) (s : σ) : Option (ActionInfo ε σ) :=
  ((populateActionArray M).cell (M.eventOrder e) (M.stateOrder s)).bind (M.actionInfoList[·]?)

/-- **Records.** They hold the entries, each under one with its action and its transition. -/
lemma consolidateActionInfoList_spec :
    (∀ c ∈ M.consolidateActionInfoList, ∀ p ∈ c.members, p ∈ M.actionInfoList ∧
        c.leader.action = p.action ∧ c.leader.transition = p.transition) ∧
      ∀ p ∈ M.actionInfoList, ∃ c ∈ M.consolidateActionInfoList, p ∈ c.members := by
  have hrefl : ∀ p, M.sameRecord p p = true := fun p => by simp [sameRecord]
  obtain ⟨hsound, hcomplete⟩ := clusters_spec hrefl M.actionInfoList
  refine ⟨?_, hcomplete⟩
  intro c hc p hp
  obtain ⟨hmem, hsame⟩ := hsound c hc p hp
  simp only [sameRecord, decide_eq_true_eq] at hsame
  exact ⟨hmem, hsame.1, hsame.2.1⟩

omit [DecidableEq ε] [DecidableEq σ] in
/-- A matrix has a label for each of its events and states. -/
lemma mem_matrixCases {pai : ActionInfo ε σ} {e : ε} {s : σ} :
    (e, s) ∈ M.matrixCases pai ↔ e ∈ M.expandEvents pai ∧ s ∈ M.expandStates pai := by
  simp [matrixCases]

omit [DecidableEq ε] [DecidableEq σ] in
/-- The labels of all entries are the cells they name. -/
lemma flatMap_matrixCases :
    M.actionInfoList.flatMap M.matrixCases = (namedCells M).map Prod.fst := by
  have hentry : ∀ pai : ActionInfo ε σ × ℕ,
      (namedByEntry M pai).map Prod.fst = M.matrixCases pai.1 := by
    intro pai
    simp only [namedByEntry, namedByEvent, matrixCases, List.map_flatMap, List.map_map,
      Function.comp_def]
  calc M.actionInfoList.flatMap M.matrixCases
      = (M.actionInfoList.zipIdx.map Prod.fst).flatMap M.matrixCases := by rw [List.zipIdx_map_fst]
    _ = M.actionInfoList.zipIdx.flatMap fun pai => M.matrixCases pai.1 := by rw [List.flatMap_map]
    _ = (namedCells M).map Prod.fst := by
      rw [namedCells, List.map_flatMap]
      simp only [hentry]

/-- The labels of all records are the cells that the entries name, in some order. -/
lemma consolidatedCases_perm :
    (M.consolidateActionInfoList.flatMap fun c => c.members.flatMap M.matrixCases).Perm
      ((namedCells M).map Prod.fst) := by
  rw [← flatMap_matrixCases, ← List.flatMap_assoc]
  exact (clusters_members_perm M.actionInfoList).flatMap_right _

variable {M} {e : ε} {s : σ} {pai : ActionInfo ε σ}

/-- **Cells.** In a populated array the cell of an event and a state holds an entry if and only if
the entry's matrix names both. -/
lemma CellsDeclared.entryAt_eq_some_iff (hM : M.CellsDeclared)
    (herror : (populateActionArray M).error = false) (he : e ∈ M.eventList)
    (hs : s ∈ M.stateList) :
    M.entryAt e s = some pai ↔ pai ∈ M.actionInfoList ∧ (e, s) ∈ M.matrixCases pai := by
  have hcell := (hM.filled herror).cell_order he hs
  rw [entryAt, Option.bind_eq_some_iff, mem_matrixCases]
  constructor
  · intro h
    obtain ⟨idx, hidx, hpai⟩ := h
    obtain ⟨pai', hpai', hnamed⟩ := mem_namedCells.mp ((hcell idx).mp hidx)
    obtain rfl := Option.some.inj (hpai'.symm.trans hpai)
    exact ⟨List.mem_of_getElem? hpai, hnamed⟩
  · intro h
    obtain ⟨hmem, hnamed⟩ := h
    obtain ⟨idx, hidx⟩ := List.getElem?_of_mem hmem
    exact ⟨idx, (hcell idx).mpr (mem_namedCells.mpr ⟨pai, hidx, hnamed⟩), hidx⟩

end MachineMatrix

/-! ## What is printed -/

/-- The variable that a body hands to a transition function. -/
inductive EventVariable where
  | e
  | event
  deriving DecidableEq, Repr

/-- A statement of a `case` body. The result of an action is assigned to `e` where actions return
events, to `s` where they return states, and to nothing where they return nothing. -/
inductive CaseStatement (σ : Type*) where
  | actionEntry
  | callAction (name : String)
  | actionExit
  | setNoEvent
  | debugPrintf
  | setState (s : σ)
  | callTransitionFn (name : String) (arg : Option EventVariable)
  deriving DecidableEq, Repr

/-- What the printing of the cases reads of a machine: besides the matrix what its actions return,
whether profiling macros are asked for, whether it is a sub-machine (`parent`), whether it has data,
and how many of its events have data and translators, which may return events. -/
structure SwitchMachine (ε σ : Type*) extends MachineMatrix ε σ where
  actionsReturn : ActionsReturn
  addProfilingMacros : Bool := false
  isSubMachine : Bool := false
  hasData : Bool := false
  dataBlockCount : ℕ := 0
  dataTranslatorCount : ℕ := 0
  translatorsReturnEvents : Bool := false

/-- The labels and the body of one record. -/
structure SwitchCase (ε σ : Type*) where
  labels : List (ε × σ)
  body : List (CaseStatement σ)
  deriving DecidableEq, Repr

/-- What the user's functions return in a machine of any kind: `state` is what an action returns
where actions return states. -/
structure AnyUserCode (σ : Type*) extends UserCode σ where
  state : List (Obs σ) → σ

/-- What a body reads and changes: the machine with what has been observed so far, and the local
variables. A variable may not be declared, or be no event. -/
structure LoopVariables (σ : Type*) where
  world : World σ
  event : Option ℤ
  e : Option ℤ
  s : σ

/-- What comes of an entry: the world, the event that is next where actions return events, and the
state that is next. -/
structure Outcome (σ : Type*) where
  world : World σ
  next : ℤ
  state : σ

namespace SwitchMachine

variable {ε σ : Type*} (P : SwitchMachine ε σ)

/-- The variable that the bodies of `print_consolidated_cases_arv` hand to transition functions. -/
def voidEventVariable : EventVariable :=
  if (P.isSubMachine && P.translatorsReturnEvents) || (!P.isSubMachine && P.hasData) then .e
  else .event

/-- The argument of a transition function besides the machine. -/
def transitionArg : Option EventVariable :=
  match P.actionsReturn with
  | .events => some .e
  | .void => some P.voidEventVariable
  | .states => none

/-- The part of a body that is for the action. -/
def actionBody (pai : ActionInfo ε σ) : List (CaseStatement σ) :=
  if pai.action = "" then
    match P.actionsReturn with
    | .events => [.setNoEvent, .debugPrintf]
    | .void => [.debugPrintf]
    | .states => []
  else
    (if P.addProfilingMacros then [.actionEntry] else []) ++ [.callAction pai.action] ++
      (if P.addProfilingMacros then [.actionExit] else [])

/-- The part of a body that is for the transition. -/
def transitionBody (pai : ActionInfo ε σ) : List (CaseStatement σ) :=
  match pai.transition with
  | none => []
  | some (.state s) => [.setState s]
  | some (.fn name _) => [.callTransitionFn name P.transitionArg]

/-- The statements before `break` that `print_consolidated_cases_are` and its two siblings print
for a record with the entry `pai`. -/
def caseBody (pai : ActionInfo ε σ) : List (CaseStatement σ) :=
  P.actionBody pai ++ P.transitionBody pai

/-- The cases of the switch. -/
def printConsolidatedCases [DecidableEq ε] [DecidableEq σ] : List (SwitchCase ε σ) :=
  P.consolidateActionInfoList.map fun c =>
    ⟨c.members.flatMap P.matrixCases, P.caseBody c.leader⟩

/-- The labels of the switch, in the order in which they are printed. -/
def caseLabels [DecidableEq ε] [DecidableEq σ] : List (ε × σ) :=
  P.printConsolidatedCases.flatMap SwitchCase.labels

/-! ## What a body does -/

/-- The function declares `e` (`set_local_fsm_fn_event_vars` and its sibling for sub-machines). -/
def declaresE : Bool :=
  P.actionsReturn = .events ||
    if P.isSubMachine then 0 < P.dataTranslatorCount && P.translatorsReturnEvents
    else 0 < P.dataBlockCount

/-- The function's parameter `event` is an event. That of a top-level machine that has events with
data points to the event and its data. -/
def eventIsValue : Bool := P.isSubMachine || P.dataBlockCount = 0

/-- The event that is processed is what a translator has made of the one received. -/
def translatesEvents : Bool :=
  P.translatorsReturnEvents &&
    0 < if P.isSubMachine then P.dataTranslatorCount else P.dataBlockCount

/-- The variables in front of a body, when the function has been called with the event `received`
and processes the event `v`. Where actions return events, later passes process what an action has
returned. -/
def loopVariables (w : World σ) (received v : ℤ) : LoopVariables σ where
  world := w
  event := if P.eventIsValue then some received else none
  e := if P.declaresE then some v else none
  s := w.state

variable (U : AnyUserCode σ) (noEvent : ℤ)

/-- Call an action. -/
def callAction (name : String) (x : LoopVariables σ) : LoopVariables σ :=
  let w := x.world.observe (.action name)
  match P.actionsReturn with
  | .events => { x with world := w, e := some (U.action w.trace) }
  | .void => { x with world := w }
  | .states => { x with world := w, s := U.state w.trace }

/-- The value of the variable that is handed to a transition function. The functions that get no
event are observed with `noEvent`. -/
def argValue (x : LoopVariables σ) : Option EventVariable → Option ℤ
  | some .e => x.e
  | some .event => x.event
  | none => some noEvent

/-- Call a transition function. -/
def callTransitionFn (name : String) (arg : Option EventVariable) (x : LoopVariables σ) :
    Option (LoopVariables σ) :=
  (argValue noEvent x arg).map fun v =>
    let w := x.world.observe (.transitionFn name v)
    { x with world := w, s := U.transitionFn w.trace }

/-- One statement. There is no statement that reads a variable which is not there. -/
def runStatement (x : LoopVariables σ) : CaseStatement σ → Option (LoopVariables σ)
  | .callAction name => some (P.callAction U name x)
  | .setNoEvent => some { x with e := some noEvent }
  | .setState s => some { x with s := s }
  | .callTransitionFn name arg => callTransitionFn U noEvent name arg x
  | .actionEntry | .actionExit | .debugPrintf => some x

/-- The statements of a body, one after the other. -/
def runBody (body : List (CaseStatement σ)) (x : LoopVariables σ) : Option (LoopVariables σ) :=
  body.foldlM (P.runStatement U noEvent) x

/-- What the variables say after a body. -/
def outcome (x : LoopVariables σ) : Option (Outcome σ) :=
  if P.actionsReturn = .events then x.e.map fun v => ⟨x.world, v, x.s⟩
  else some ⟨x.world, noEvent, x.s⟩

/-! ## What an entry says -/

/-- The action of an entry: what comes of it if there is no transition. -/
def performAction (pai : ActionInfo ε σ) (w : World σ) : Outcome σ :=
  if pai.action = "" then ⟨w, noEvent, w.state⟩
  else
    let w' := w.observe (.action pai.action)
    match P.actionsReturn with
    | .events => ⟨w', U.action w'.trace, w.state⟩
    | .void => ⟨w', noEvent, w.state⟩
    | .states => ⟨w', noEvent, U.state w'.trace⟩

/-- What an entry says is to be done with the event `v`: its action, and its transition for the
same event. Where actions return states, transition functions get no event. -/
def performEntry (v : ℤ) (pai : ActionInfo ε σ) (w : World σ) : Outcome σ :=
  let r := P.performAction U noEvent pai w
  match pai.transition with
  | none => r
  | some t =>
    let q := U.takeTransition (some t) (if P.actionsReturn = .states then noEvent else v) r.world
    { r with world := q.1, state := q.2 }

/-- A body performs an entry, whatever the user's functions return. Without a translator, and
unless an action has returned it, the event that is processed is the one received. -/
def Performs (body : List (CaseStatement σ)) (pai : ActionInfo ε σ) : Prop :=
  ∀ (U : AnyUserCode σ) (noEvent received v : ℤ) (w : World σ),
    (P.actionsReturn ≠ .events → P.translatesEvents = false → received = v) →
      (P.runBody U noEvent body (P.loopVariables w received v)).bind (P.outcome noEvent) =
        some (P.performEntry U noEvent v pai w)

/-- The labels are exactly the non-empty cells, each once, and the body under a label performs the
entry in its cell. -/
structure CasesRight [DecidableEq ε] [DecidableEq σ] : Prop where
  labels : ∀ e s, (e, s) ∈ P.caseLabels ↔
    e ∈ P.eventList ∧ s ∈ P.stateList ∧ (P.entryAt e s).isSome
  nodup : P.caseLabels.Nodup
  bodies : ∀ c ∈ P.printConsolidatedCases, ∀ x ∈ c.labels, ∃ pai,
    P.entryAt x.1 x.2 = some pai ∧ P.Performs c.body pai

/-- Transition functions get what they are to get: no event, or the event that is processed in a
variable that the function has. -/
def HandsEvent : Prop :=
  match P.actionsReturn with
  | .events => False
  | .void =>
    if P.isSubMachine then P.translatorsReturnEvents = true → 0 < P.dataTranslatorCount
    else P.hasData = true ↔ 0 < P.dataBlockCount
  | .states => True

variable {P U noEvent}

/-! ## Bodies -/

/-- The world in front of a body. -/
private lemma loopVariables_world (w : World σ) (received v : ℤ) :
    (P.loopVariables w received v).world = w := rfl

/-- The first part of a body calls the action. -/
private lemma runBody_actionBody (pai : ActionInfo ε σ) (x : LoopVariables σ) :
    P.runBody U noEvent (P.actionBody pai) x =
      some (if pai.action = "" then
          (if P.actionsReturn = .events then { x with e := some noEvent } else x)
        else P.callAction U pai.action x) := by
  unfold runBody actionBody
  by_cases haction : pai.action = ""
  · rw [if_pos haction, if_pos haction]
    cases hret : P.actionsReturn <;> rfl
  · rw [if_neg haction, if_neg haction]
    cases P.addProfilingMacros <;> rfl

/-- What a body leads to: its action has been called, and the rest is the transition. -/
lemma runBody_caseBody (pai : ActionInfo ε σ) (x : LoopVariables σ) :
    P.runBody U noEvent (P.caseBody pai) x =
      P.runBody U noEvent (P.transitionBody pai)
        (if pai.action = "" then
          (if P.actionsReturn = .events then { x with e := some noEvent } else x)
        else P.callAction U pai.action x) := by
  have haction : (P.actionBody pai).foldlM (P.runStatement U noEvent) x = _ :=
    runBody_actionBody pai x
  rw [runBody, caseBody, List.foldlM_append, haction]
  rfl

/-- An action that returns nothing leaves the variables alone. -/
lemma callAction_loopVariables (hret : P.actionsReturn = .void) (name : String) (w : World σ)
    (received v : ℤ) : P.callAction U name (P.loopVariables w received v) =
      P.loopVariables (w.observe (.action name)) received v := by
  simp [callAction, loopVariables, hret]

/-- The variable that is handed to the transition functions of a machine whose actions return
nothing holds the event that is processed, or is not there. -/
lemma argValue_voidEventVariable (hret : P.actionsReturn = .void) {received v : ℤ}
    (hreceived : P.translatesEvents = false → received = v) (w : World σ) :
    (P.HandsEvent → argValue noEvent (P.loopVariables w received v)
        (some P.voidEventVariable) = some v) ∧
      (¬ P.HandsEvent → argValue noEvent (P.loopVariables w received v)
        (some P.voidEventVariable) = none) := by
  unfold HandsEvent voidEventVariable
  rw [hret]
  cases hsub : P.isSubMachine with
  | true =>
    cases htr : P.translatorsReturnEvents with
    | true =>
      simp only [Bool.and_self, Bool.true_or, if_true, argValue, loopVariables, declaresE, hret,
        hsub, htr, Bool.and_true]
      constructor
      · intro h
        simp [h]
      · intro h
        have hzero : P.dataTranslatorCount = 0 := by simpa using h
        simp [hzero]
    | false =>
      have h := hreceived (by simp [translatesEvents, htr])
      simp [argValue, loopVariables, eventIsValue, hsub, h]
  | false =>
    cases hdata : P.hasData with
    | true =>
      simp only [Bool.not_false, Bool.and_self, Bool.or_true, if_true, argValue, loopVariables,
        declaresE, hret, hsub]
      constructor
      · intro h
        simp [h.mp trivial]
      · intro h
        have hzero : P.dataBlockCount = 0 := by simpa using h
        simp [hzero]
    | false =>
      simp only [Bool.not_false, Bool.false_and, Bool.and_false, Bool.or_false, Bool.false_eq_true,
        if_false, argValue, loopVariables, eventIsValue, hsub, Bool.false_or]
      constructor
      · intro h
        have hzero : P.dataBlockCount = 0 := by simpa using h
        have heq := hreceived (by simp [translatesEvents, hsub, hzero])
        simp [hzero, heq]
      · intro h
        have hpos : P.dataBlockCount ≠ 0 := by simpa using h
        simp [hpos]

/-- A body without the call of a transition function performs its entry. -/
private lemma performs_caseBody_of_not_fn {pai : ActionInfo ε σ}
    (h : ∀ name returnsDecl, pai.transition ≠ some (.fn name returnsDecl)) :
    P.Performs (P.caseBody pai) pai := by
  intro U noEvent received v w _
  rw [runBody_caseBody, performEntry, performAction, transitionBody]
  rcases htransition : pai.transition with _ | (t | ⟨name, returnsDecl⟩)
  · by_cases haction : pai.action = "" <;> cases hret : P.actionsReturn <;>
      simp [runBody, outcome, callAction, loopVariables, haction, hret]
  · by_cases haction : pai.action = "" <;> cases hret : P.actionsReturn <;>
      simp [runBody, runStatement, outcome, callAction, loopVariables, UserCode.takeTransition,
        haction, hret]
  · exact absurd htransition (h name returnsDecl)

/-- A body with the call of a transition function. -/
lemma runBody_caseBody_fn {pai : ActionInfo ε σ} {name : String} {returnsDecl : List σ}
    (ht : pai.transition = some (.fn name returnsDecl)) (x : LoopVariables σ) :
    P.runBody U noEvent (P.caseBody pai) x =
      callTransitionFn U noEvent name P.transitionArg
        (if pai.action = "" then
          (if P.actionsReturn = .events then { x with e := some noEvent } else x)
        else P.callAction U pai.action x) := by
  rw [runBody_caseBody, transitionBody, ht]
  simp [runBody, runStatement]

/-- **Bodies.** A body performs its entry, whatever the user's functions return, if and only if the
entry has no transition function or transition functions get what they are to get.

**Proof sketch.** The action comes first in both. A transition function is handed a variable. Where
actions return events it is the one that the action's result has just been assigned to: an action
that returns another event than the one that is processed tells the two apart. Where they return
nothing the variable has not been assigned to, but it may not be there. -/
lemma performs_caseBody_iff (s : σ) {pai : ActionInfo ε σ} :
    P.Performs (P.caseBody pai) pai ↔
      ∀ name returnsDecl, pai.transition = some (.fn name returnsDecl) → P.HandsEvent := by
  constructor
  · intro h name returnsDecl ht
    unfold HandsEvent
    cases hret : P.actionsReturn with
    | events =>
      -- the event 1 is processed, and an action returns `noEvent`, which is 0
      have hrun := h ⟨⟨fun _ => 0, fun _ => s, fun _ => 0, fun _ => false⟩, fun _ => s⟩ 0 1 1
        ⟨s, []⟩ (by simp)
      rw [runBody_caseBody_fn ht] at hrun
      by_cases haction : pai.action = "" <;>
        simp [callTransitionFn, transitionArg, argValue, outcome, performEntry, performAction,
          callAction, loopVariables, UserCode.takeTransition, World.observe, haction, hret, ht]
          at hrun
    | void =>
      by_contra hnot
      have hnot : ¬ P.HandsEvent := by
        unfold HandsEvent
        rwa [hret]
      have hrun := h ⟨⟨fun _ => 0, fun _ => s, fun _ => 0, fun _ => false⟩, fun _ => s⟩ 0 1 1
        ⟨s, []⟩ (by simp)
      have hnone : ∀ w : World σ,
          argValue 0 (P.loopVariables w 1 1) (some P.voidEventVariable) = none :=
        fun w => (argValue_voidEventVariable hret (fun _ => rfl) w).2 hnot
      rw [runBody_caseBody_fn ht] at hrun
      by_cases haction : pai.action = "" <;>
        simp [callTransitionFn, transitionArg, callAction_loopVariables, haction, hret, hnone]
          at hrun
    | states => trivial
  · intro h U noEvent received v w hreceived
    by_cases hfn : ∃ name returnsDecl, pai.transition = some (.fn name returnsDecl)
    · obtain ⟨name, returnsDecl, ht⟩ := hfn
      have hands := h name returnsDecl ht
      rw [runBody_caseBody_fn ht, performEntry, performAction, ht]
      cases hret : P.actionsReturn with
      | events => simp [HandsEvent, hret] at hands
      | void =>
        have harg : ∀ w : World σ,
            argValue noEvent (P.loopVariables w received v) (some P.voidEventVariable) = some v :=
          fun w => (argValue_voidEventVariable hret (hreceived (by simp [hret])) w).1 hands
        by_cases haction : pai.action = "" <;>
          simp [callTransitionFn, transitionArg, callAction_loopVariables, outcome,
            UserCode.takeTransition, loopVariables_world, haction, hret, harg]
      | states =>
        by_cases haction : pai.action = "" <;>
          simp [callTransitionFn, transitionArg, argValue, callAction, outcome, loopVariables,
            UserCode.takeTransition, haction, hret]
    · push Not at hfn
      exact performs_caseBody_of_not_fn hfn U noEvent received v w hreceived

/-! ## All cases -/

section Cases

variable [DecidableEq ε] [DecidableEq σ]

/-- The labels are the cells that the entries name. -/
lemma caseLabels_perm : P.caseLabels.Perm ((namedCells P.toMachineMatrix).map Prod.fst) := by
  rw [caseLabels, printConsolidatedCases, List.flatMap_map]
  exact P.consolidatedCases_perm

/-- A label is one of the matrix of some entry. -/
lemma mem_caseLabels {x : ε × σ} :
    x ∈ P.caseLabels ↔ ∃ pai ∈ P.actionInfoList, x ∈ P.matrixCases pai := by
  rw [caseLabels_perm.mem_iff, ← MachineMatrix.flatMap_matrixCases, List.mem_flatMap]

/-- A label stands over the body of an entry whose matrix it is of. -/
lemma exists_of_mem_labels {c : SwitchCase ε σ} (hc : c ∈ P.printConsolidatedCases) {x : ε × σ}
    (hx : x ∈ c.labels) :
    ∃ pai ∈ P.actionInfoList, x ∈ P.matrixCases pai ∧ c.body = P.caseBody pai := by
  obtain ⟨r, hr, rfl⟩ := List.mem_map.mp hc
  obtain ⟨pai, hpai, hmem⟩ := List.mem_flatMap.mp hx
  obtain ⟨hentry, haction, htransition⟩ := P.consolidateActionInfoList_spec.1 r hr pai hpai
  refine ⟨pai, hentry, hmem, ?_⟩
  simp only [caseBody, actionBody, transitionBody, haction, htransition]

/-- **The cases of the single switch.** Let the action array be populated without error. The labels
are exactly the non-empty cells, each once, and the body under a label performs the entry in its
cell, if and only if all matrices name events and states of the machine, and either no cell has a
transition function, or actions return states, or they return nothing and the variable that is
printed for the event is there and holds it.

**Proof sketch.** Consolidating moves matrices between records and loses none, so that the labels
are the cells named by the entries in some order; these are distinct because populating the array
has found no cell occupied. A record's matrices are those of entries with its action and its
transition, and a body depends on nothing else. -/
theorem casesRight_iff (P : SwitchMachine ε σ)
    (herror : (populateActionArray P.toMachineMatrix).error = false) :
    P.CasesRight ↔ P.CellsDeclared ∧ ∀ e ∈ P.eventList, ∀ s ∈ P.stateList, ∀ pai,
      P.entryAt e s = some pai → ∀ name returnsDecl,
        pai.transition = some (.fn name returnsDecl) → P.HandsEvent := by
  constructor
  · intro h
    have hM : P.CellsDeclared := by
      intro pai hpai e he s hs
      have hlabel : (e, s) ∈ P.caseLabels :=
        mem_caseLabels.mpr ⟨pai, hpai, P.mem_matrixCases.mpr ⟨he, hs⟩⟩
      obtain ⟨he, hs, -⟩ := (h.labels e s).mp hlabel
      exact ⟨he, hs⟩
    refine ⟨hM, ?_⟩
    intro e he s hs pai hcell
    have hlabel := (h.labels e s).mpr ⟨he, hs, by rw [hcell]; rfl⟩
    obtain ⟨c, hc, hx⟩ := List.mem_flatMap.mp hlabel
    obtain ⟨pai', hcell', hperforms⟩ := h.bodies c hc _ hx
    obtain rfl := Option.some.inj (hcell'.symm.trans hcell)
    -- the body is that of the cell's entry
    obtain ⟨p, hp, hmem, hbody⟩ := exists_of_mem_labels hc hx
    obtain rfl := Option.some.inj
      (((hM.entryAt_eq_some_iff herror he hs).mpr ⟨hp, hmem⟩).symm.trans hcell)
    rw [hbody] at hperforms
    exact (performs_caseBody_iff s).mp hperforms
  · intro h
    obtain ⟨hM, hfn⟩ := h
    refine ⟨?_, ?_, ?_⟩
    · intro e s
      rw [mem_caseLabels]
      constructor
      · intro hlabel
        obtain ⟨pai, hpai, hmem⟩ := hlabel
        obtain ⟨he, hs⟩ := P.mem_matrixCases.mp hmem
        obtain ⟨he, hs⟩ := hM pai hpai e he s hs
        exact ⟨he, hs, by rw [(hM.entryAt_eq_some_iff herror he hs).mpr ⟨hpai, hmem⟩]; rfl⟩
      · intro hcell
        obtain ⟨he, hs, hcell⟩ := hcell
        obtain ⟨pai, hpai⟩ := Option.isSome_iff_exists.mp hcell
        exact ⟨pai, (hM.entryAt_eq_some_iff herror he hs).mp hpai⟩
    · exact caseLabels_perm.nodup_iff.mpr (hM.filled herror).nodup
    · intro c hc x hx
      obtain ⟨pai, hpai, hmem, hbody⟩ := exists_of_mem_labels hc hx
      obtain ⟨he, hs⟩ := P.mem_matrixCases.mp hmem
      obtain ⟨he, hs⟩ := hM pai hpai x.1 he x.2 hs
      have hcell := (hM.entryAt_eq_some_iff herror he hs).mpr ⟨hpai, hmem⟩
      exact ⟨pai, hcell, hbody ▸ (performs_caseBody_iff x.2).mpr (hfn _ he _ hs pai hcell)⟩

end Cases

/-- A top-level machine without data whose actions return nothing: two events and two states, an
action for both events in the first state, and a transition function in a cell of the second. -/
def voidMachine : SwitchMachine ℕ ℕ where
  eventList := [0, 1]
  stateList := [0, 1]
  consumedByTranslator := fun _ => false
  implementedBySubMachine := fun _ => false
  actionInfoList := [⟨"a", none, [], [0]⟩, ⟨"b", some (.fn "f" []), [1], [1]⟩]
  actionsReturn := .void

/-- Its cases are right. -/
theorem casesRight_voidMachine : voidMachine.CasesRight :=
  (casesRight_iff voidMachine (by decide)).mpr
    ⟨by decide, fun _ _ _ _ _ _ _ _ _ => by simp [HandsEvent, voidMachine]⟩

/-- The same with data, but no event that has data: there is no variable `e`. -/
def undeclaredVariableMachine : SwitchMachine ℕ ℕ := { voidMachine with hasData := true }

/-- A machine whose actions return events, with an action and a transition function in its only
cell. -/
def transitionFnMachine : SwitchMachine ℕ ℕ where
  eventList := [0]
  stateList := [0]
  consumedByTranslator := fun _ => false
  implementedBySubMachine := fun _ => false
  actionInfoList := [⟨"a", some (.fn "t" [0]), [0], [0]⟩]
  actionsReturn := .events

/-- A machine whose actions return nothing and whose translators return events, with an entry for
`noEvent`, which is `1` and no event of the machine. -/
def noEventMachine : SwitchMachine ℕ ℕ where
  eventList := [0]
  stateList := [0]
  consumedByTranslator := fun _ => false
  implementedBySubMachine := fun _ => false
  actionInfoList := [⟨"a", none, [1], [0]⟩]
  actionsReturn := .void
  translatorsReturnEvents := true

/-- The first transition function gets what the action returns, the second one a variable that is
not there, and the label of `noEvent` is no cell. -/
theorem not_casesRight :
    ((populateActionArray transitionFnMachine.toMachineMatrix).error = false ∧
        ¬ transitionFnMachine.CasesRight) ∧
      ((populateActionArray undeclaredVariableMachine.toMachineMatrix).error = false ∧
        ¬ undeclaredVariableMachine.CasesRight) ∧
      (populateActionArray noEventMachine.toMachineMatrix).error = false ∧
        ¬ noEventMachine.CasesRight := by
  refine ⟨⟨by decide, ?_⟩, ⟨by decide, ?_⟩, by decide, ?_⟩
  · intro h
    obtain ⟨pai, hcell, hperforms⟩ := h.bodies
      ⟨[(0, 0)], transitionFnMachine.caseBody ⟨"a", some (.fn "t" [0]), [0], [0]⟩⟩ (by decide)
      (0, 0) (by decide)
    obtain rfl := Option.some.inj ((by decide : transitionFnMachine.entryAt 0 0 =
      some ⟨"a", some (.fn "t" [0]), [0], [0]⟩).symm.trans hcell)
    exact (performs_caseBody_iff 0).mp hperforms "t" [0] rfl
  · intro h
    obtain ⟨pai, hcell, hperforms⟩ := h.bodies
      ⟨[(1, 1)], undeclaredVariableMachine.caseBody ⟨"b", some (.fn "f" []), [1], [1]⟩⟩ (by decide)
      (1, 1) (by decide)
    obtain rfl := Option.some.inj ((by decide : undeclaredVariableMachine.entryAt 1 1 =
      some ⟨"b", some (.fn "f" []), [1], [1]⟩).symm.trans hcell)
    have hands := (performs_caseBody_iff 0).mp hperforms "f" [] rfl
    simp [HandsEvent, undeclaredVariableMachine, voidMachine] at hands
  · intro h
    have hlabel := (h.labels 1 0).mp (by decide)
    exact absurd hlabel.1 (by decide)

end SwitchMachine

end FsmLang
