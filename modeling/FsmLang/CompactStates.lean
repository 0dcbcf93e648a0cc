import Mathlib.Data.List.Basic
import Mathlib.Tactic
import FsmLang.MachineRuns

set_option relaxedAutoImplicit false
set_option autoImplicit false

/-!
# Compact machines of -ts

A compact machine points to the function of its state, and does not index the array of state
functions. State and function are assigned to in separate statements. A transition function returns
both; it is called by the full name of the machine, while its declaration, and the machine with the
array, use the name for user functions, which may be short.

The compact machine is compared with the one with the array, which gets the same events. In between
is the machine with the array that calls transition functions by full names: it always does what
the compact one does.

## Main definitions

* `withArray`, `withFullNames` — the other two machines.
* `NamesAgree` — an event does not lead to a transition function, or both names are the same.
* `Matches` — the relation of a compact machine and one with the array.

## Main results

* `Matches.switchPass` — one event in a compact machine and in one with the array and full names.
* `compactStates_right` — the state function is that of the state after all events, and the machine
  with the array does the same where names agree.
-/

namespace FsmLang

open CSemantics

section Definitions

variable {ε σ : Type*}

/-- Transition functions of a compact machine return a state and the function of this state. -/
def UserFns.Matching (U : UserFns ε σ) : Prop :=
  ∀ calls, U.stateAndFn calls = (U.state calls, U.state calls)

/-- A compact machine points to the function of its state. -/
def MachineState.Paired (w : MachineState ε σ) : Prop := w.currentState = w.state

/-- A statement assigns a state, or calls a function that returns one. -/
def BodyStatement.isTransition : BodyStatement σ → Bool
  | .actionEntry => false
  | .actionExit => false
  | .debugPrintf => false
  | .handled => false
  | .setNoEvent => false
  | .callEmptyCellFn _ => false
  | .callAction _ _ => false
  | .setState _ _ => true
  | .setStateFn _ _ => true
  | .callTransitionFn _ _ => true
  | .callCompactTransitionFn _ _ => true
  | .callTransitionTo _ _ => true

/-- An entry's transition is a function. -/
def ActionInfo.hasTransitionFn (pai : ActionInfo ε σ) : Bool :=
  match pai.transition with
  | none => false
  | some (.state _) => false
  | some (.fn _ _) => true

end Definitions

namespace RunningMachine

section Machines

variable {ε σ : Type*} (P : RunningMachine ε σ)

/-- The machine that indexes the array of state functions by its state. -/
def withArray : RunningMachine ε σ := { P with compactActionArray := false }

/-- The machine that calls its transition functions by its full name. -/
def withFullNames : RunningMachine ε σ := { P with ufMachineName := P.fqMachineName }

end Machines

/-! ## What the machines have in common -/

section Fields

variable {ε σ : Type*} (P : RunningMachine ε σ)

/-- The array is for the same kind of actions. -/
@[simp] lemma withArray_actionsReturn : P.withArray.actionsReturn = P.actionsReturn := rfl

/-- Full names are for the same kind of actions. -/
@[simp] lemma withFullNames_actionsReturn : P.withFullNames.actionsReturn = P.actionsReturn := rfl

/-- The array has the same `noTransition`. -/
@[simp] lemma withArray_noTransition : P.withArray.noTransition = P.noTransition := rfl

/-- Full names have the same `noTransition`. -/
@[simp] lemma withFullNames_noTransition : P.withFullNames.noTransition = P.noTransition := rfl

/-- The array leaves the machine's place in the tree alone. -/
@[simp] lemma withArray_isSubMachine : P.withArray.isSubMachine = P.isSubMachine := rfl

/-- Full names leave the machine's place in the tree alone. -/
@[simp] lemma withFullNames_isSubMachine : P.withFullNames.isSubMachine = P.isSubMachine := rfl

/-- The array leaves the implementing machines alone. -/
@[simp] lemma withArray_implementedBySubMachine :
    P.withArray.implementedBySubMachine = P.implementedBySubMachine := rfl

/-- Full names leave the implementing machines alone. -/
@[simp] lemma withFullNames_implementedBySubMachine :
    P.withFullNames.implementedBySubMachine = P.implementedBySubMachine := rfl

/-- The array has the same functions for state changes. -/
@[simp] lemma withArray_executesFnsOnStateTransitions :
    P.withArray.executesFnsOnStateTransitions = P.executesFnsOnStateTransitions := rfl

/-- Full names have the same functions for state changes. -/
@[simp] lemma withFullNames_executesFnsOnStateTransitions :
    P.withFullNames.executesFnsOnStateTransitions = P.executesFnsOnStateTransitions := rfl

/-- The array has the same statement for empty cells. -/
@[simp] lemma withArray_noAction : P.withArray.noAction = P.noAction := rfl

/-- Full names have the same statement for empty cells. -/
@[simp] lemma withFullNames_noAction : P.withFullNames.noAction = P.noAction := rfl

variable [DecidableEq ε] [DecidableEq σ]

/-- The cells do not depend on the array. -/
@[simp] lemma withArray_actionArray : P.withArray.actionArray = P.actionArray := rfl

/-- The cells do not depend on the names. -/
@[simp] lemma withFullNames_actionArray : P.withFullNames.actionArray = P.actionArray := rfl

/-- Whether transitions are possible does not depend on the array. -/
@[simp] lemma withArray_transitionsArePossible :
    P.withArray.transitionsArePossible = P.transitionsArePossible := rfl

/-- Whether transitions are possible does not depend on the names. -/
@[simp] lemma withFullNames_transitionsArePossible :
    P.withFullNames.transitionsArePossible = P.transitionsArePossible := rfl

/-- The entries of the state functions do not depend on the array. -/
@[simp] lemma withArray_stateFnEntry : P.withArray.stateFnEntry = P.stateFnEntry := rfl

/-- The entries of the state functions do not depend on the names. -/
@[simp] lemma withFullNames_stateFnEntry : P.withFullNames.stateFnEntry = P.stateFnEntry := rfl

/-- The entry for all states does not depend on the array. -/
@[simp] lemma withArray_allStatesEntry : P.withArray.allStatesEntry = P.allStatesEntry := rfl

/-- The entry for all states does not depend on the names. -/
@[simp] lemma withFullNames_allStatesEntry :
    P.withFullNames.allStatesEntry = P.allStatesEntry := rfl

end Fields

section Steps

variable {ε σ : Type*} [DecidableEq ε] [DecidableEq σ] (P : RunningMachine ε σ) (U : UserFns ε σ)

/-- What the handler of the events handled in all states makes of one of the machine's events, with
the event that it leaves to a state function, if any. -/
def handedOn (w : MachineState ε σ) (v : EventValue ε) :
    MachineState ε σ × Option (EventValue ε) :=
  if P.actionArray.hasSinglePaiEvents then
    let f := P.allStatesHandler U w v
    (f.toMachineState,
      match P.actionsReturn with
      | .events => if f.retEvent = .noEvent then none else some f.retEvent
      | _ => if f.handled then none else some v)
  else (w, some v)

/-- The entries that the event leads to have no transition functions, or the name for user functions
is the full name. -/
def NamesAgree (w : MachineState ε σ) (v : EventValue ε) : Prop :=
  P.ufMachineName = P.fqMachineName ∨
    (∀ pai, P.uniformEntry v = some pai → pai.hasTransitionFn = false) ∧
      ∀ v', (P.handedOn U w v).2 = some v' →
        ∀ pai, P.stateFnEntry (P.handedOn U w v).1.state v' = some pai →
          pai.hasTransitionFn = false

instance (w : MachineState ε σ) (v : EventValue ε) : Decidable (P.NamesAgree U w v) :=
  inferInstanceAs (Decidable (P.ufMachineName = P.fqMachineName ∨
    (∀ pai ∈ P.uniformEntry v, pai.hasTransitionFn = false) ∧
      ∀ v' ∈ (P.handedOn U w v).2, ∀ pai ∈ P.stateFnEntry (P.handedOn U w v).1.state v',
        pai.hasTransitionFn = false))

/-- The compact machine and the one with the array are in the same state after the event, after the
same calls, and have the same event to process next. -/
structure SameAfter (w : MachineState ε σ × MachineState ε σ) (v : EventValue ε) : Prop where
  state : (P.withArray.switchStep U w.2 v).state = (P.switchStep U w.1 v).state
  calls : (P.withArray.switchStep U w.2 v).calls = (P.switchStep U w.1 v).calls
  event : (P.withArray.switchPass U w.2 v).2 = (P.switchPass U w.1 v).2

/-- **One of the machine's events**, by what the handler of the events handled in all states leaves
to a state function. -/
lemma switchPass_label (w : MachineState ε σ) (x : EventLabel ε) :
    P.switchPass U w (.label x) =
      match (P.handedOn U w (.label x)).2 with
      | none => ((P.handedOn U w (.label x)).1, .noEvent)
      | some v => P.callStateFn U (P.handedOn U w (.label x)).1 v := by
  unfold switchPass handedOn
  by_cases hhas : P.actionArray.hasSinglePaiEvents = true
  · simp only [if_pos hhas]
    cases P.actionsReturn with
    | events =>
      by_cases hno : (P.allStatesHandler U w (.label x)).retEvent = .noEvent <;> simp [hno]
    | void => cases (P.allStatesHandler U w (.label x)).handled <;> rfl
    | states => cases (P.allStatesHandler U w (.label x)).handled <;> rfl
  · simp only [if_neg hhas]

end Steps

/-! ## Bodies -/

section Bodies

variable {ε σ : Type*} {P : RunningMachine ε σ}

/-- Profiling a call makes no transition of it. -/
lemma isTransition_profiled {call : BodyStatement σ} (hcall : call.isTransition = false) :
    ∀ st ∈ P.profiled call, st.isTransition = false := by
  unfold GeneratedMachine.profiled
  cases P.addProfilingMacros with
  | false => simpa using hcall
  | true => exact List.forall_mem_cons.mpr ⟨rfl, by simpa using ⟨hcall, rfl⟩⟩

/-- The bodies of the cases in a state function: the entry's transition, after statements that do
not depend on whether the machine is compact. -/
lemma exists_stateFnBody_eq (hkind : P.actionsReturn ≠ .states) (s : σ) (pai : ActionInfo ε σ) :
    ∃ pre : List (BodyStatement σ), (∀ st ∈ pre, st.isTransition = false) ∧
      P.stateFnBody s pai = pre ++ P.switchTransition pai.transition ∧
      P.withArray.stateFnBody s pai = pre ++ P.withArray.switchTransition pai.transition := by
  have hempty : ∀ st ∈ ([.debugPrintf] : List (BodyStatement σ)), st.isTransition = false := by
    simp [BodyStatement.isTransition]
  unfold GeneratedMachine.stateFnBody
  have honly : P.withArray.transitionsOnly s = P.transitionsOnly s := rfl
  rw [honly]
  by_cases hs : P.transitionsOnly s = true
  · rw [if_pos hs, if_pos hs]
    exact ⟨[], by simp, rfl, rfl⟩
  · rw [if_neg hs, if_neg hs]
    rw [withArray_actionsReturn]
    cases hret : P.actionsReturn with
    | events =>
      refine ⟨_, ?_, rfl, rfl⟩
      split_ifs
      · exact hempty
      · exact isTransition_profiled rfl
    | void =>
      refine ⟨_, ?_, rfl, rfl⟩
      split_ifs
      · exact hempty
      · exact isTransition_profiled rfl
    | states => exact absurd hret hkind

/-- The bodies of the cases in the handler of the events handled in all states. -/
lemma exists_allStatesBody_eq (hkind : P.actionsReturn ≠ .states) (pai : ActionInfo ε σ) :
    ∃ pre post : List (BodyStatement σ), (∀ st ∈ pre ++ post, st.isTransition = false) ∧
      P.allStatesBody pai = pre ++ (P.switchTransition pai.transition ++ post) ∧
      P.withArray.allStatesBody pai =
        pre ++ (P.withArray.switchTransition pai.transition ++ post) := by
  unfold GeneratedMachine.allStatesBody
  rw [withArray_actionsReturn]
  cases hret : P.actionsReturn with
  | events =>
    refine ⟨_, [], ?_, congrArg (HAppend.hAppend _) (List.append_nil _).symm,
      congrArg (HAppend.hAppend _) (List.append_nil _).symm⟩
    rw [List.append_nil]
    split_ifs
    · split <;> simp [BodyStatement.isTransition]
    · exact isTransition_profiled rfl
  | void =>
    refine ⟨_, [.handled], ?_, List.append_assoc _ _ _, List.append_assoc _ _ _⟩
    refine List.forall_mem_append.mpr ⟨?_, by simp [BodyStatement.isTransition]⟩
    split_ifs
    · simp [BodyStatement.isTransition]
    · exact isTransition_profiled rfl
  | states => exact absurd hret hkind

end Bodies

/-! ## The relation -/

/-- A compact machine and one with the array are in the same state after the same calls, and the
compact one points to the function of its state. -/
structure Matches {ε σ : Type*} (w w' : MachineState ε σ) : Prop where
  state : w'.state = w.state
  calls : w'.calls = w.calls
  paired : w.Paired

/-- So in two functions, whose local variables agree. -/
structure LocalsMatch {ε σ : Type*} (f f' : Locals ε σ) : Prop
    extends Matches f.toMachineState f'.toMachineState where
  retEvent : f'.retEvent = f.retEvent
  newState : f'.newState = f.newState
  handled : f'.handled = f.handled
  pairedNew : f.newStateFn = f.newState

section Simulation

variable {ε σ : Type*} {P : RunningMachine ε σ} {U : UserFns ε σ} {f f' : Locals ε σ}

/-- A call leaves the variables matched. -/
lemma LocalsMatch.call (h : LocalsMatch f f') (c : Call ε σ) :
    LocalsMatch (f.call c) (f'.call c) :=
  { h with calls := congrArg (· ++ [c]) h.calls }

/-- A statement that is no transition. -/
lemma LocalsMatch.exec (hkind : P.actionsReturn ≠ .states) (v : EventValue ε)
    {st : BodyStatement σ} (hst : st.isTransition = false) (h : LocalsMatch f f') :
    LocalsMatch (P.exec U v f st) (P.withArray.withFullNames.exec U v f' st) := by
  cases st with
  | actionEntry => exact h
  | actionExit => exact h
  | debugPrintf => exact h
  | handled => exact { h with handled := rfl }
  | setNoEvent => exact { h with retEvent := rfl }
  | callEmptyCellFn name => exact h.call _
  | callAction x name =>
    cases x with
    | none => exact h.call _
    | some x =>
      have hcall := h.call (.action name)
      simp only [RunningMachine.exec, withFullNames_actionsReturn, withArray_actionsReturn, hkind,
        if_false]
      exact { hcall with retEvent := congrArg U.event hcall.calls }
  | setState x s => cases hst
  | setStateFn x s => cases hst
  | callTransitionFn x name => cases hst
  | callCompactTransitionFn x name => cases hst
  | callTransitionTo x s => cases hst

/-- Statements that are no transitions leave the variables matched. -/
lemma LocalsMatch.foldl (hkind : P.actionsReturn ≠ .states) (v : EventValue ε)
    {sts : List (BodyStatement σ)} (hsts : ∀ st ∈ sts, st.isTransition = false)
    (h : LocalsMatch f f') :
    LocalsMatch (sts.foldl (P.exec U v) f)
      (sts.foldl (P.withArray.withFullNames.exec U v) f') := by
  induction sts generalizing f f' with
  | nil => exact h
  | cons st sts ih =>
    obtain ⟨hst, hsts⟩ := List.forall_mem_cons.mp hsts
    exact ih hsts (h.exec hkind v hst)

/-- Both machines assign the same state, and the compact one its function. -/
lemma LocalsMatch.assign (h : LocalsMatch f f') (x : Target) (s : σ) :
    LocalsMatch ((f.assign x s).assignFn x s) (f'.assign x s) := by
  cases x with
  | result => exact { h with }
  | newState => exact { h with newState := rfl, pairedNew := rfl }
  | machineState =>
    exact { h with state := rfl, paired := rfl, calls := congrArg (· ++ [Call.setState s]) h.calls }

/-- Assigning the result of a function does not touch what is assigned besides. -/
private lemma assign_assignFn (f : Locals ε σ) (x : Target) (s t : σ) :
    (f.assignFn x t).assign x s = (f.assign x s).assignFn x t := by
  cases x <;> rfl

/-- **Transitions.** Both machines take the same transition. -/
lemma LocalsMatch.switchTransition (hcompact : P.compactActionArray = true) (hU : U.Matching)
    (v : EventValue ε) (t : Option (Transition σ)) (h : LocalsMatch f f') :
    LocalsMatch ((P.switchTransition t).foldl (P.exec U v) f)
      ((P.withArray.switchTransition t).foldl (P.withArray.withFullNames.exec U v) f') := by
  rcases t with _ | (s | ⟨name, _⟩)
  · exact h
  · have hstate : P.switchTransition (some (.state s)) =
        [.setStateFn P.stateTarget s, .setState P.stateTarget s] := by
      simp [GeneratedMachine.switchTransition, hcompact]
    rw [hstate, List.foldl_cons, List.foldl_cons, RunningMachine.exec, RunningMachine.exec,
      assign_assignFn]
    exact h.assign P.stateTarget s
  · have hfn : P.switchTransition (some (.fn name ‹_›)) =
        [.callCompactTransitionFn P.stateTarget name] := by
      simp [GeneratedMachine.switchTransition, hcompact]
    have hcall := h.call (.transitionFn (P.fqMachineName ++ "_" ++ name) (P.transitionArg v))
    have hmatch := hcall.assign P.stateTarget (U.state (f.calls ++
      [.transitionFn (P.fqMachineName ++ "_" ++ name) (P.transitionArg v)]))
    rw [hfn, List.foldl_cons, List.foldl_nil, RunningMachine.exec]
    simp only [hU _]
    change LocalsMatch _ (Locals.assign _ _ (U.state (f'.calls ++ _)))
    rw [h.calls]
    exact hmatch

end Simulation

/-! ## Functions -/

section Functions

variable {ε σ : Type*} [DecidableEq ε] [DecidableEq σ] {P : RunningMachine ε σ} {U : UserFns ε σ}
  {w w' : MachineState ε σ}

omit [DecidableEq ε] [DecidableEq σ] in
/-- Both machines enter the state in the local variable, and the compact one its function. -/
lemma LocalsMatch.enter (hcompact : P.compactActionArray = true) (s : σ) {f f' : Locals ε σ}
    (h : LocalsMatch f f') :
    LocalsMatch
      { f with
        state := f.newState
        currentState := if P.compactActionArray then f.newStateFn else f.currentState
        calls := f.calls ++ P.stateChangeFns s f.newState ++ [.setState f.newState] }
      { f' with
        state := f'.newState
        currentState := if P.withArray.withFullNames.compactActionArray then f'.newStateFn
          else f'.currentState
        calls := f'.calls ++ P.withArray.withFullNames.stateChangeFns s f'.newState ++
          [.setState f'.newState] } := by
  refine { h with state := h.newState, calls := ?_, paired := ?_ }
  · simp only [h.calls, h.newState]
    rfl
  · exact (if_pos hcompact).trans h.pairedNew

/-- The end of a state function. -/
lemma LocalsMatch.stateFnEpilogue (hcompact : P.compactActionArray = true)
    (hkind : P.actionsReturn ≠ .states) (p : σ) {f f' : Locals ε σ} (h : LocalsMatch f f') :
    LocalsMatch (P.stateFnEpilogue p f) (P.withArray.withFullNames.stateFnEpilogue p f') := by
  unfold RunningMachine.stateFnEpilogue
  rw [withFullNames_actionsReturn, withArray_actionsReturn, if_neg hkind, if_neg hkind,
    withFullNames_executesFnsOnStateTransitions, withArray_executesFnsOnStateTransitions,
    withFullNames_transitionsArePossible, withArray_transitionsArePossible]
  have htest : (P.executesFnsOnStateTransitions && P.transitionsArePossible p && p ≠ f'.newState) =
      (P.executesFnsOnStateTransitions && P.transitionsArePossible p && p ≠ f.newState) := by
    rw [h.newState]
  by_cases hchange : (P.executesFnsOnStateTransitions && P.transitionsArePossible p &&
      p ≠ f.newState) = true
  · rw [if_pos hchange, if_pos (htest.trans hchange)]
    exact h.enter hcompact p
  · rw [if_neg hchange, if_neg (htest ▸ hchange)]
    exact h

omit [DecidableEq ε] in
/-- The end of the handler of the events handled in all states. -/
lemma LocalsMatch.allStatesEpilogue (hcompact : P.compactActionArray = true) {f f' : Locals ε σ}
    (h : LocalsMatch f f') :
    LocalsMatch (P.allStatesEpilogue f) (P.withArray.withFullNames.allStatesEpilogue f') := by
  unfold RunningMachine.allStatesEpilogue
  rw [withFullNames_actionsReturn, withArray_actionsReturn,
    withFullNames_executesFnsOnStateTransitions, withArray_executesFnsOnStateTransitions,
    withFullNames_noTransition, withArray_noTransition]
  have htest : (P.executesFnsOnStateTransitions && f'.state ≠ f'.newState &&
      (P.actionsReturn ≠ .states || f'.newState ≠ P.noTransition)) =
        (P.executesFnsOnStateTransitions && f.state ≠ f.newState &&
          (P.actionsReturn ≠ .states || f.newState ≠ P.noTransition)) := by
    rw [h.state, h.newState]
  by_cases hchange : (P.executesFnsOnStateTransitions && f.state ≠ f.newState &&
      (P.actionsReturn ≠ .states || f.newState ≠ P.noTransition)) = true
  · rw [if_pos hchange, if_pos (htest.trans hchange), h.state]
    exact h.enter hcompact f.state
  · rw [if_neg hchange, if_neg (htest ▸ hchange)]
    exact h

omit [DecidableEq ε] [DecidableEq σ] in
/-- The start of a state function. -/
lemma Matches.stateFnStart (h : Matches w w') (p : σ) (v : EventValue ε) :
    LocalsMatch (P.stateFnStart U p w v) (P.withArray.withFullNames.stateFnStart U p w' v) := by
  have hstart : LocalsMatch
      { w with retState := some P.noTransition, newState := p, newStateFn := p }
      { w' with retState := some P.noTransition, newState := p, newStateFn := p } :=
    { h with retEvent := rfl, newState := rfl, handled := rfl, pairedNew := rfl }
  have hcall := hstart.call (.subMachine v)
  unfold RunningMachine.stateFnStart
  rw [withFullNames_implementedBySubMachine, withArray_implementedBySubMachine,
    withFullNames_actionsReturn, withArray_actionsReturn]
  split_ifs
  · exact { hcall with retEvent := congrArg U.event hcall.calls }
  · exact hcall
  · exact hstart

/-- **State functions.** -/
lemma Matches.stateFn (hcompact : P.compactActionArray = true) (hkind : P.actionsReturn ≠ .states)
    (hU : U.Matching) (h : Matches w w') (p : σ) (v : EventValue ε) :
    LocalsMatch (P.stateFn U p w v) (P.withArray.withFullNames.stateFn U p w' v) := by
  have hstart := h.stateFnStart (P := P) (U := U) p v
  apply LocalsMatch.stateFnEpilogue hcompact hkind
  unfold RunningMachine.runBody
  rw [map_statements_stateFnCases, map_statements_stateFnCases, withFullNames_stateFnEntry,
    withArray_stateFnEntry, withFullNames_implementedBySubMachine,
    withArray_implementedBySubMachine, withFullNames_noAction, withArray_noAction]
  cases P.stateFnEntry p v with
  | none =>
    refine hstart.foldl hkind v ?_
    unfold GeneratedMachine.noAction
    cases P.emptyCellFn <;> split_ifs <;> simp [BodyStatement.isTransition]
  | some pai =>
    obtain ⟨pre, hpre, hbody, hbody'⟩ := exists_stateFnBody_eq hkind p pai
    have hbody' : P.withArray.withFullNames.stateFnBody p pai =
      pre ++ P.withArray.switchTransition pai.transition := hbody'
    rw [Option.map_some, Option.map_some, Option.getD_some, Option.getD_some, hbody, hbody',
      List.foldl_append, List.foldl_append]
    exact (hstart.foldl hkind v hpre).switchTransition hcompact hU v pai.transition

/-- **The handler of the events handled in all states.** -/
lemma Matches.allStatesHandler (hcompact : P.compactActionArray = true)
    (hkind : P.actionsReturn ≠ .states) (hU : U.Matching) (h : Matches w w') (v : EventValue ε) :
    LocalsMatch (P.allStatesHandler U w v) (P.withArray.withFullNames.allStatesHandler U w' v) := by
  have hstart : LocalsMatch
      { w with retEvent := v, newState := w.state, newStateFn := w.currentState }
      { w' with retEvent := v, newState := w'.state, newStateFn := w'.currentState } :=
    { h with retEvent := rfl, newState := h.state, handled := rfl, pairedNew := h.paired }
  apply LocalsMatch.allStatesEpilogue hcompact
  unfold RunningMachine.runBody
  rw [map_statements_allStatesCases, map_statements_allStatesCases, withFullNames_allStatesEntry,
    withArray_allStatesEntry]
  cases P.allStatesEntry v with
  | none => exact hstart
  | some pai =>
    obtain ⟨pre, post, hpre, hbody, hbody'⟩ := exists_allStatesBody_eq hkind pai
    obtain ⟨hpre, hpost⟩ := List.forall_mem_append.mp hpre
    have hbody' : P.withArray.withFullNames.allStatesBody pai =
      pre ++ (P.withArray.switchTransition pai.transition ++ post) := hbody'
    rw [Option.map_some, Option.map_some, Option.getD_some, Option.getD_some, hbody, hbody',
      List.foldl_append, List.foldl_append, List.foldl_append, List.foldl_append]
    exact ((hstart.foldl hkind v hpre).switchTransition hcompact hU v pai.transition).foldl hkind v
      hpost

/-- What is left to a state function. -/
lemma Matches.handedOn (hcompact : P.compactActionArray = true) (hkind : P.actionsReturn ≠ .states)
    (hU : U.Matching) (h : Matches w w') (v : EventValue ε) :
    Matches (P.handedOn U w v).1 (P.withArray.withFullNames.handedOn U w' v).1 ∧
      (P.withArray.withFullNames.handedOn U w' v).2 = (P.handedOn U w v).2 := by
  have hhandler := h.allStatesHandler hcompact hkind hU v
  unfold RunningMachine.handedOn
  rw [withFullNames_actionArray, withArray_actionArray, withFullNames_actionsReturn,
    withArray_actionsReturn]
  split_ifs
  · refine ⟨hhandler.toMatches, ?_⟩
    simp only [hhandler.retEvent, hhandler.handled]
  · exact ⟨h, rfl⟩

/-- The call of a state function: the compact machine calls the function that it points to, which
is that of its state. -/
lemma Matches.callStateFn (hcompact : P.compactActionArray = true)
    (hkind : P.actionsReturn ≠ .states) (hU : U.Matching) (h : Matches w w') (v : EventValue ε) :
    Matches (P.callStateFn U w v).1 (P.withArray.withFullNames.callStateFn U w' v).1 ∧
      (P.withArray.withFullNames.callStateFn U w' v).2 = (P.callStateFn U w v).2 := by
  have hcalled : P.calledState w = w.state := by
    rw [calledState, if_pos (by simp [hcompact, hkind]), h.paired]
  have hcalled' : P.withArray.withFullNames.calledState w' = w.state := by
    rw [calledState, if_neg (by simp [withArray, withFullNames]), h.state]
  have hfn := h.stateFn hcompact hkind hU w.state v
  unfold RunningMachine.callStateFn
  rw [withFullNames_isSubMachine, withArray_isSubMachine, withFullNames_actionsReturn,
    withArray_actionsReturn, hcalled, hcalled']
  split_ifs
  · exact ⟨h, rfl⟩
  · cases hret : P.actionsReturn with
    | events => exact ⟨hfn.toMatches, hfn.retEvent⟩
    | void => exact ⟨hfn.toMatches, rfl⟩
    | states => exact absurd hret hkind

omit [DecidableEq ε] [DecidableEq σ] in
/-- An event of a sub-machine. -/
lemma Matches.foreignPass (h : Matches w w') (v : EventValue ε) :
    Matches (P.foreignPass U w v).1 (P.withArray.withFullNames.foreignPass U w' v).1 ∧
      (P.withArray.withFullNames.foreignPass U w' v).2 = (P.foreignPass U w v).2 := by
  have hsub : (P.withArray.withFullNames.hasSubMachines &&
      !P.withArray.withFullNames.inhibitsSubMachines w'.state) =
        (P.hasSubMachines && !P.inhibitsSubMachines w.state) := by
    rw [h.state]
    rfl
  have hcalls : (w'.call (.subMachine v)).calls = (w.call (.subMachine v)).calls :=
    congrArg (· ++ [Call.subMachine v]) h.calls
  unfold RunningMachine.foreignPass
  rw [hsub, withFullNames_actionsReturn, withArray_actionsReturn]
  by_cases hrun : (P.hasSubMachines && !P.inhibitsSubMachines w.state) = true
  · simp only [if_pos hrun, hcalls]
    exact ⟨{ h with calls := hcalls }, trivial⟩
  · simp only [if_neg hrun]
    exact ⟨h, trivial⟩

/-- **One event** in a compact machine, and in one with the array that calls its transition
functions by full names. -/
lemma Matches.switchPass (hcompact : P.compactActionArray = true)
    (hkind : P.actionsReturn ≠ .states) (hU : U.Matching) (h : Matches w w') (v : EventValue ε) :
    Matches (P.switchPass U w v).1 (P.withArray.withFullNames.switchPass U w' v).1 ∧
      (P.withArray.withFullNames.switchPass U w' v).2 = (P.switchPass U w v).2 := by
  cases hlabel : v.isLabel with
  | false =>
    rw [switchPass_of_not_isLabel hlabel, switchPass_of_not_isLabel hlabel]
    exact h.foreignPass v
  | true =>
    obtain ⟨x, rfl⟩ := EventValue.exists_eq_label hlabel
    obtain ⟨hmatch, hevent⟩ := h.handedOn hcompact hkind hU (.label x)
    rw [switchPass_label, switchPass_label, hevent]
    cases (P.handedOn U w (.label x)).2 with
    | none => exact ⟨hmatch, rfl⟩
    | some v => exact hmatch.callStateFn hcompact hkind hU v

end Functions

/-! ## Names -/

section Names

variable {ε σ : Type*} {P : RunningMachine ε σ} {U : UserFns ε σ}

/-- The full name is the name for user functions. -/
private lemma withFullNames_eq (h : P.ufMachineName = P.fqMachineName) : P.withFullNames = P := by
  obtain ⟨machine, noTransition, ufName, fqName, isSub, hasSub, inhibits⟩ := P
  simp only at h
  subst h
  rfl

/-- The statements of a transition that is no function. -/
lemma ne_callTransitionFn_of_mem {pai : ActionInfo ε σ} (hpai : pai.hasTransitionFn = false) :
    ∀ st ∈ P.switchTransition pai.transition, ∀ x name, st ≠ .callTransitionFn x name := by
  unfold GeneratedMachine.switchTransition
  unfold ActionInfo.hasTransitionFn at hpai
  rcases htransition : pai.transition with _ | (s | ⟨name, _⟩)
  · simp
  · cases P.compactActionArray <;> simp
  · simp [htransition] at hpai

/-- A statement that is no transition does not call a transition function. -/
lemma ne_callTransitionFn {st : BodyStatement σ} (hst : st.isTransition = false) (x : Target)
    (name : String) : st ≠ .callTransitionFn x name := by
  rintro rfl
  cases hst

/-- Only calls of transition functions depend on the name for user functions. -/
lemma foldl_withFullNames (v : EventValue ε) {sts : List (BodyStatement σ)} (f : Locals ε σ)
    (hsts : ∀ st ∈ sts, ∀ x name, st ≠ .callTransitionFn x name) :
    sts.foldl (P.withFullNames.exec U v) f = sts.foldl (P.exec U v) f := by
  refine List.foldl_ext _ _ _ fun f st hst => ?_
  cases st with
  | callTransitionFn x name => exact absurd rfl (hsts _ hst x name)
  | callAction x name => cases x <;> rfl
  | actionEntry => rfl
  | actionExit => rfl
  | debugPrintf => rfl
  | handled => rfl
  | setNoEvent => rfl
  | callEmptyCellFn name => rfl
  | setState x s => rfl
  | setStateFn x s => rfl
  | callCompactTransitionFn x name => rfl
  | callTransitionTo x s => rfl

variable [DecidableEq ε] [DecidableEq σ] {w : MachineState ε σ}

/-- A state function that does not lead to a transition function. -/
private lemma stateFn_withFullNames (hkind : P.actionsReturn ≠ .states) {p : σ} {v : EventValue ε}
    (hentry : ∀ pai, P.stateFnEntry p v = some pai → pai.hasTransitionFn = false) :
    P.withArray.withFullNames.stateFn U p w v = P.withArray.stateFn U p w v := by
  have hbodies : P.withArray.withFullNames.stateFnBody p = P.withArray.stateFnBody p := rfl
  have hbody : P.withArray.withFullNames.runBody U v
      (bodyFor (P.withArray.withFullNames.stateFnCases p) v)
      (if P.implementedBySubMachine p then [] else [P.noAction])
      (P.withArray.stateFnStart U p w v) =
        P.withArray.runBody U v (bodyFor (P.withArray.stateFnCases p) v)
          (if P.implementedBySubMachine p then [] else [P.noAction])
          (P.withArray.stateFnStart U p w v) := by
    unfold runBody
    rw [map_statements_stateFnCases, map_statements_stateFnCases, withFullNames_stateFnEntry,
      withArray_stateFnEntry, hbodies]
    refine foldl_withFullNames v _ ?_
    cases hsome : P.stateFnEntry p v with
    | none =>
      rw [Option.map_none, Option.getD_none]
      unfold GeneratedMachine.noAction
      cases P.emptyCellFn <;> split_ifs <;> simp
    | some pai =>
      obtain ⟨pre, hpre, -, hbody⟩ := exists_stateFnBody_eq hkind p pai
      rw [Option.map_some, Option.getD_some, hbody]
      refine List.forall_mem_append.mpr ⟨?_, ne_callTransitionFn_of_mem (hentry pai hsome)⟩
      exact fun st hst => ne_callTransitionFn (hpre st hst)
  exact congrArg (P.withArray.stateFnEpilogue p) hbody

/-- The call of such a state function. -/
private lemma callStateFn_withFullNames (hkind : P.actionsReturn ≠ .states) {v : EventValue ε}
    (hentry : ∀ pai, P.stateFnEntry w.state v = some pai → pai.hasTransitionFn = false) :
    P.withArray.withFullNames.callStateFn U w v = P.withArray.callStateFn U w v := by
  have hcalled : P.withArray.calledState w = w.state := by
    rw [calledState, if_neg (by simp [withArray])]
  have hcalled' : P.withArray.withFullNames.calledState w = w.state := hcalled
  unfold callStateFn
  simp only [hcalled, hcalled', stateFn_withFullNames hkind hentry]
  rfl

/-- The handler of the events handled in all states, for an event that does not lead to a transition
function. -/
private lemma allStatesHandler_withFullNames (hkind : P.actionsReturn ≠ .states) {v : EventValue ε}
    (hentry : ∀ pai, P.allStatesEntry v = some pai → pai.hasTransitionFn = false) :
    P.withArray.withFullNames.allStatesHandler U w v = P.withArray.allStatesHandler U w v := by
  have hbodies : P.withArray.withFullNames.allStatesBody = P.withArray.allStatesBody := rfl
  have hbody : ∀ f : Locals ε σ, P.withArray.withFullNames.runBody U v
      (bodyFor P.withArray.withFullNames.allStatesCases v) [] f =
        P.withArray.runBody U v (bodyFor P.withArray.allStatesCases v) [] f := by
    intro f
    unfold runBody
    rw [map_statements_allStatesCases, map_statements_allStatesCases, withFullNames_allStatesEntry,
      withArray_allStatesEntry, hbodies]
    refine foldl_withFullNames v f ?_
    cases hsome : P.allStatesEntry v with
    | none => simp
    | some pai =>
      obtain ⟨pre, post, hpre, -, hbody⟩ := exists_allStatesBody_eq hkind pai
      obtain ⟨hpre, hpost⟩ := List.forall_mem_append.mp hpre
      rw [Option.map_some, Option.getD_some, hbody]
      refine List.forall_mem_append.mpr ⟨?_, List.forall_mem_append.mpr ⟨?_, ?_⟩⟩
      · exact fun st hst => ne_callTransitionFn (hpre st hst)
      · exact ne_callTransitionFn_of_mem (hentry pai hsome)
      · exact fun st hst => ne_callTransitionFn (hpost st hst)
  exact congrArg P.withArray.allStatesEpilogue (hbody _)

/-- **One event** that does not lead to a transition function, in the machine with the array. -/
lemma switchPass_withFullNames (hkind : P.actionsReturn ≠ .states) {v : EventValue ε}
    (huniform : ∀ pai, P.uniformEntry v = some pai → pai.hasTransitionFn = false)
    (hentry : ∀ v', (P.withArray.withFullNames.handedOn U w v).2 = some v' → ∀ pai,
      P.stateFnEntry (P.withArray.withFullNames.handedOn U w v).1.state v' = some pai →
        pai.hasTransitionFn = false) :
    P.withArray.withFullNames.switchPass U w v = P.withArray.switchPass U w v := by
  have hhanded : P.withArray.withFullNames.handedOn U w v = P.withArray.handedOn U w v := by
    unfold handedOn
    rw [withFullNames_actionArray, withArray_actionArray, withFullNames_actionsReturn]
    by_cases hhas : P.actionArray.hasSinglePaiEvents = true
    · have hhandler := allStatesHandler_withFullNames (U := U) (w := w) hkind
        (fun pai hpai => huniform pai (by rwa [uniformEntry, if_pos hhas]))
      rw [if_pos hhas, if_pos hhas, hhandler]
    · rw [if_neg hhas, if_neg hhas]
  cases hlabel : v.isLabel with
  | false =>
    rw [switchPass_of_not_isLabel hlabel, switchPass_of_not_isLabel hlabel]
    rfl
  | true =>
    obtain ⟨x, rfl⟩ := EventValue.exists_eq_label hlabel
    rw [switchPass_label, switchPass_label, ← hhanded]
    cases hleft : (P.withArray.withFullNames.handedOn U w (.label x)).2 with
    | none => rfl
    | some v => exact callStateFn_withFullNames hkind (hentry v hleft)

end Names

/-! ## Runs -/

section Runs

variable {ε σ : Type*} [DecidableEq ε] [DecidableEq σ] {P : RunningMachine ε σ} {U : UserFns ε σ}
  {w w' : MachineState ε σ}

/-- **One step.** The compact machine and the one with the array stay related, and do the same, if
names agree. -/
lemma Matches.sameAfter (hcompact : P.compactActionArray = true) (hkind : P.actionsReturn ≠ .states)
    (hU : U.Matching) (h : Matches w w') {v : EventValue ε} (hnames : P.NamesAgree U w v) :
    P.SameAfter U (w, w') v ∧
      Matches (P.switchStep U w v) (P.withArray.switchStep U w' v) := by
  obtain ⟨hmatch, hevent⟩ := h.switchPass hcompact hkind hU v
  have hpass : P.withArray.withFullNames.switchPass U w' v = P.withArray.switchPass U w' v := by
    rcases hnames with hsame | ⟨huniform, hentry⟩
    · exact congrArg (fun Q : RunningMachine ε σ => Q.switchPass U w' v) (withFullNames_eq hsame)
    · obtain ⟨hhanded, hleft⟩ := h.handedOn hcompact hkind hU v
      refine switchPass_withFullNames hkind huniform ?_
      rw [hleft, hhanded.state]
      exact hentry
  rw [hpass] at hmatch hevent
  exact ⟨⟨hmatch.state, hmatch.calls, hevent⟩, hmatch⟩

/-- **Compact machines.** After every event of a run the compact machine points to the function of
its state; and in a run in which names agree in every step, it makes the calls and state changes of
the machine that indexes the array of state functions.

**Proof sketch.** The compact machine does what the one with the array and full names does, function
by function, and statement by statement where a transition counts as one. So its state and the
function it points to belong together. The machines with the array differ in the calls of transition
functions only. -/
theorem compactStates_right (hcompact : P.compactActionArray = true)
    (hkind : P.actionsReturn ≠ .states) (hU : U.Matching) (hw : w.Paired)
    (vs : List (EventValue ε)) :
    EachStep (P.switchStep U) (fun w v => (P.switchStep U w v).Paired) w vs ∧
      (EachStep (P.switchStep U) (P.NamesAgree U) w vs →
        EachStep (sideBySide (P.switchStep U) (P.withArray.switchStep U)) (P.SameAfter U) (w, w)
          vs) := by
  have hstep : ∀ w : MachineState ε σ, ∀ v, w.Paired → (P.switchStep U w v).Paired := by
    intro w v hw
    have hself : Matches w w := ⟨rfl, rfl, hw⟩
    exact (hself.switchPass hcompact hkind hU v).1.paired
  constructor
  · exact eachStep_of_invariant (P := fun _ => True) (fun w v hw _ => hstep w v hw)
      (fun w v hw _ => hstep w v hw) hw (fun _ _ => trivial)
  · intro hnames
    refine eachStep_sideBySide ?_ (⟨rfl, rfl, hw⟩ : Matches w w) hnames
    intro w w' v h hagree
    exact h.sameAfter hcompact hkind hU hagree

end Runs

/-- A compact sub-machine with short names for user functions: two states, and an event that a
transition function handles in the first one. -/
def shortNamesMachine : RunningMachine ℕ ℕ where
  eventList := [0]
  stateList := [0, 1]
  consumedByTranslator := fun _ => false
  implementedBySubMachine := fun _ => false
  actionInfoList := [⟨"", some (.fn "f" []), [0], [0]⟩]
  compactActionArray := true
  noTransition := 2
  ufMachineName := "sub"
  fqMachineName := "top_sub"
  isSubMachine := true

/-- Its transition function returns the second state. -/
def secondStateFns : UserFns ℕ ℕ where
  event := fun _ => .noEvent
  state := fun _ => 1
  stateAndFn := fun _ => (1, 1)
  suppliesTransitionTo := fun _ => false
  unassigned := fun _ => 0

/-- The same with another event, for which the first state has an action and a plain transition. -/
def plainEventMachine : RunningMachine ℕ ℕ :=
  { shortNamesMachine with
    eventList := [0, 1]
    actionInfoList := [⟨"", some (.fn "f" []), [0], [0]⟩, ⟨"b", some (.state 1), [1], [0]⟩] }

/-- The other event takes it to the second state, where the first event is not handled: in the
machine with the array, too. -/
theorem compactStates_plainEventMachine :
    EachStep (plainEventMachine.switchStep secondStateFns)
        (fun w v => (plainEventMachine.switchStep secondStateFns w v).Paired) ⟨0, 0, []⟩
        [.label (.this 1), .label (.this 0)] ∧
      EachStep (sideBySide (plainEventMachine.switchStep secondStateFns)
          (plainEventMachine.withArray.switchStep secondStateFns))
        (plainEventMachine.SameAfter secondStateFns) (⟨0, 0, []⟩, ⟨0, 0, []⟩)
        [.label (.this 1), .label (.this 0)] := by
  have hright := compactStates_right (P := plainEventMachine) (U := secondStateFns)
    (w := ⟨0, 0, []⟩) rfl (by decide) (fun _ => rfl) rfl [.label (.this 1), .label (.this 0)]
  exact ⟨hright.1, hright.2 (by decide)⟩

/-- The event calls `top_sub_f` in the compact machine, and `sub_f` in the one with the array. -/
theorem not_compactStates_shortNamesMachine :
    ¬ ∀ (P : RunningMachine ℕ ℕ) (U : UserFns ℕ ℕ), P.Accepted → P.compactActionArray = true →
      P.actionsReturn ≠ .states → U.Matching → ∀ w : MachineState ℕ ℕ, w.Paired →
        ∀ vs : List (EventValue ℕ),
          EachStep (P.switchStep U) (fun w v => (P.switchStep U w v).Paired) w vs ∧
            EachStep (sideBySide (P.switchStep U) (P.withArray.switchStep U)) (P.SameAfter U) (w, w)
              vs := by
  intro h
  have hrun := h shortNamesMachine secondStateFns
    ⟨by simp [MachineMatrix.Declared, shortNamesMachine], by decide, by decide, by decide,
      by decide, by decide, by decide⟩ rfl (by decide) (fun _ => rfl) ⟨0, 0, []⟩ rfl
    [.label (.this 0)]
  have hcalls := hrun.2.1.calls
  revert hcalls
  decide

end RunningMachine

end FsmLang
