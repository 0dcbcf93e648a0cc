import Mathlib.Data.List.Basic
import Mathlib.Logic.Function.Basic
import Mathlib.Tactic
import FsmLang.SwitchEventTable
import FsmLang.TableSingleSwitch
import FsmLang.TreeRuns

set_option relaxedAutoImplicit false
set_option autoImplicit false

/-!
# Trees of matrices

What a tree of machines is for: each event of the tree is dispatched by the cell of the machine
that declares it, in the state that machine is in. The -te generator prints for each machine the
event handlers of its matrix, and the -tc generator its action array; the loops find the machine.

## Main definitions

* `TreeWorld` — the states of all machines, and what has been observed.
* `TreeUserCode` — what the user's functions return.
* `printedCode` — the own code of all machines, as it is printed.
* `cellTree` — the own code of all machines, as their matrices describe it.

## Main results

* `AcceptedActions.ownCode_dispatch` — the printed code of a machine at any place in the tree does
  what its cells say.
* `exists_callMachine_iff_cells` — the printed tree and the tree of matrices return the same.
-/

namespace FsmLang

open CSemantics

/-! ## The code of one machine in a tree -/

namespace AcceptedActions

variable {m : Machine} (D : AcceptedActions m)

/-- The matrix and functions of a machine none of whose states is implemented by a sub-machine, for
the machine alone. -/
def alone (himpl : ∀ s, D.implementingMachine s = none) : AcceptedActions (.mk m.info []) where
  actionInfoList := D.actionInfoList
  consumedByTranslator := D.consumedByTranslator
  sharedWithParent := D.sharedWithParent
  implementingMachine := fun _ => none
  machineTransition := D.machineTransition
  entryFn := D.entryFn
  exitFn := D.exitFn
  emptyCellFn := D.emptyCellFn
  named := D.named
  populated := by
    have hpopulated := D.populated
    simp only [MachineActions.matrix, himpl] at hpopulated
    exact hpopulated

variable {D} (himpl : ∀ s, D.implementingMachine s = none)

/-- Without its sub-machines a machine has the same matrix. -/
lemma matrix_alone : (D.alone himpl).matrix = D.matrix := by
  simp only [MachineActions.matrix, himpl]
  rfl

/-- And the same action array. -/
lemma actionArray_alone : (D.alone himpl).actionArray = D.actionArray :=
  congrArg populateActionArray (matrix_alone himpl)

/-- And the same entries in its cells, by number. -/
lemma cellIdx_alone (i : m.EventIdx) (s : m.StateIdx) :
    (D.alone himpl).cellIdx i s = D.cellIdx i s := by
  have h : (D.alone himpl).matrix = D.matrix := matrix_alone himpl
  unfold cellIdx actionArray
  rw [h]
  rfl

/-- And the same entries in its cells. -/
lemma cell_alone (i : m.EventIdx) (s : m.StateIdx) : (D.alone himpl).cell i s = D.cell i s := by
  unfold cell
  exact congrArg (fun idx => idx.bind (D.actionInfoList[·]?)) (cellIdx_alone himpl i s)

include himpl in
/-- The entry noted for an event handled in all states. -/
private lemma singlePai_eq_cell (hstates : m.stateList ≠ []) {i : m.EventIdx}
    (hsingle : D.actionArray.singlePaiForAllStates i = true) (s : m.StateIdx) :
    D.singlePai i = D.cell i s := by
  rw [← actionArray_alone himpl] at hsingle
  have h := (singlePai_eq (D := D.alone himpl) rfl hstates hsingle s).trans (cell_alone himpl i s)
  refine Eq.trans ?_ h
  unfold singlePai
  exact congrArg (fun A : ActionArray m.EventIdx m.StateIdx =>
    (A.psinglePai i).bind (D.actionInfoList[·]?)) (actionArray_alone himpl).symm

include himpl in
/-- An event that is handled in all states has an entry in every cell. -/
private lemma exists_cell_of_singlePai (hstates : m.stateList ≠ []) {i : m.EventIdx}
    (hsingle : D.actionArray.singlePaiForAllStates i = true) (s : m.StateIdx) :
    ∃ pai, D.cell i s = some pai := by
  rw [← actionArray_alone himpl] at hsingle
  obtain ⟨pai, hpai, -⟩ := exists_cell_of_single (D := D.alone himpl) rfl hstates hsingle s
  exact ⟨pai, (cell_alone himpl i s).symm.trans hpai⟩

include himpl in
/-- An event without handling states. -/
private lemma cell_eq_none_of_phandlingStates (hstates : m.stateList ≠ []) {i : m.EventIdx}
    (h : (D.actionArray.phandlingStates i).isEmpty = true) (s : m.StateIdx) :
    D.cell i s = none := by
  rw [← actionArray_alone himpl] at h
  rw [← cell_alone himpl]
  exact cell_eq_none_of_isEmpty (D := D.alone himpl) rfl hstates h s

include himpl in
/-- The switch of an event handler. -/
private lemma switchBody_eventHandlerCases_eq_cell (hstates : m.stateList ≠ []) {i : m.EventIdx}
    (s : m.StateIdx) : switchBody (D.eventHandlerCases i) s = D.cell i s := by
  have h := (switchBody_eventHandlerCases (D := D.alone himpl) (i := i) rfl hstates s).trans
    (cell_alone himpl i s)
  refine Eq.trans (congrArg (switchBody · s) ?_) h
  have hcell : (fun s => D.cell i s) = fun s => (D.alone himpl).cell i s :=
    funext fun s => (cell_alone himpl i s).symm
  have hidx : (fun s => D.cellIdx i s) = fun s => (D.alone himpl).cellIdx i s :=
    funext fun s => (cellIdx_alone himpl i s).symm
  unfold eventHandlerCases
  rw [hcell, hidx, ← actionArray_alone himpl]
  rfl

variable {U : UserCode m.StateIdx} {B : EventBounds}

include himpl in
/-- **Event handlers** do what the cells say, whatever the numbers of the events are. -/
lemma eventHandler_eq_cellStep (hstates : m.stateList ≠ []) (hret : m.actionsReturn = .events)
    {i : m.EventIdx} {v : ℤ} (hv : B.eventValue i = some v) (w : World m.StateIdx) :
    D.eventHandler U B i w = D.cellStep U B.noEvent v (D.cell i w.state) w := by
  unfold eventHandler
  rw [hv, Option.getD_some]
  by_cases hsingle : D.actionArray.singlePaiForAllStates i = true
  · obtain ⟨pai, hcell⟩ := exists_cell_of_singlePai himpl hstates hsingle w.state
    simp only [if_pos hsingle, singlePai_eq_cell himpl hstates hsingle w.state, hcell, cellStep]
  · rw [if_neg hsingle]
    by_cases hempty : (D.actionArray.phandlingStates i).isEmpty = true
    · simp only [if_pos hempty, cell_eq_none_of_phandlingStates himpl hstates hempty, cellStep]
    · rw [if_neg hempty, switchBody_eventHandlerCases_eq_cell himpl hstates, hret]
      cases hcell : D.cell i w.state with
      | none => simp only [cellStep]
      | some pai =>
        simp only [cellStep, runEntry, D.runAction_isNone U (D.mem_of_cell hcell)]

/-- The cell of an event, by its value. -/
private lemma cellCode_dispatch_eq {base : ℤ}
    (hvalue : ∀ i : m.EventIdx, B.eventValue i = some (base + i))
    (w : World m.StateIdx) (i : m.EventIdx) : (D.cellCode U B).dispatch w (base + (i : ℕ)) =
      some (D.cellStep U B.noEvent (base + (i : ℕ)) (D.cell i w.state) w) := by
  have hfind : D.matrix.eventList.find?
      (fun j : m.EventIdx => B.eventValue j = some (base + (i : ℕ))) = some i := by
    cases h : D.matrix.eventList.find?
        (fun j : m.EventIdx => B.eventValue j = some (base + (i : ℕ))) with
    | none =>
      have hnot := List.find?_eq_none.mp h i (List.mem_finRange i)
      exact absurd (hvalue i) (by simpa using hnot)
    | some j =>
      have hj : B.eventValue j = some (base + (i : ℕ)) := by simpa using List.find?_some h
      have := Option.some.inj ((hvalue j).symm.trans hj)
      rw [Fin.ext (by omega : (j : ℕ) = i)]
  simp only [cellCode, hfind, Option.map_some]

/-- Where no weak function is replaced, the transition part of a table's cell is the entry's
transition. -/
private lemma keepsTransition_of_replaces (hweak : ∀ f, U.replaces f = false)
    (t : Option (Transition m.StateIdx)) : D.KeepsTransition U t := by
  intro _
  rcases t with _ | (s | ⟨name, returnsDecl⟩)
  · exact hweak _
  · exact hweak _
  · trivial

/-- A cell of the table does what the matrix says, unless there is a function for empty cells or
the user replaces a weak function. -/
private lemma tableDispatch_eq_cellStep (hempty : D.emptyCellFn = none)
    (hweak : ∀ f, U.replaces f = false)
    (noEvent e : ℤ) (c : Option (ActionInfo m.EventIdx m.StateIdx)) (w : World m.StateIdx) :
    (D.changeState (D.tableTransition U (c.bind (·.transition)) e (D.tableAction U noEvent c w).1),
        (D.tableAction U noEvent c w).2) = D.cellStep U noEvent e c w := by
  rw [tableTransition_eq (keepsTransition_of_replaces hweak _)]
  cases c with
  | none =>
    simp [tableAction, hempty, UserCode.callNoAction, hweak, cellStep, handleEmptyCell,
      UserCode.takeTransition, changeState_self]
  | some pai =>
    by_cases haction : pai.action = ""
    · simp [tableAction, haction, UserCode.callNoAction, hweak, cellStep, runEntry, runAction]
    · simp [tableAction, haction, cellStep, runEntry, runAction]

include himpl in
/-- **What is printed for a machine** at any place in a tree does what its cells say: the event
handlers of -te, and the table of -tc unless there is a function for empty cells or the user
replaces a weak function. -/
lemma ownCode_dispatch (hstates : m.stateList ≠ []) (hret : m.actionsReturn = .events)
    {path : List ℕ} {g : Generator}
    (hg : g = .eventTable ∨
      (g = .table ∧ D.emptyCellFn = none ∧ ∀ f, U.replaces f = false))
    (hvalue : ∀ i : m.EventIdx, B.eventValue i = some (tableBase B path + i))
    (ancestors : m.EventIdx → List ℤ) (w : World m.StateIdx) (i : m.EventIdx) :
    (D.ownCode U B path g ancestors).dispatch w (tableBase B path + (i : ℕ)) =
      (D.cellCode U B).dispatch w (tableBase B path + (i : ℕ)) := by
  rw [cellCode_dispatch_eq hvalue]
  rcases hg with rfl | ⟨rfl, hempty, hweak⟩
  · simp only [ownCode, eventAt?_add, Option.map_some,
      eventHandler_eq_cellStep himpl hstates hret (hvalue i)]
  · have hcell : (D.actionArray.cell i w.state).bind (D.actionInfoList[·]?) = D.cell i w.state := by
      rw [cell, cellIdx, matrix_eventOrder, matrix_stateOrder]
    simp only [ownCode, tableDispatch, eventAt?_add, Option.map_some, hcell,
      tableDispatch_eq_cellStep hempty hweak]

end AcceptedActions

/-! ## Worlds and users -/

/-- An observation, with the machine it is made at. -/
abbrev TreeObs (top : Machine) := (n : top.Node) × Obs n.machine.StateIdx

/-- The states of all machines of a tree, and what has been observed so far. -/
structure TreeWorld (top : Machine) where
  state : (n : top.Node) → n.machine.StateIdx
  trace : List (TreeObs top)

/-- What the user's functions return, from all that has been observed in the tree, and which of the
generated weak functions of a machine the user replaces. -/
structure TreeUserCode (top : Machine) where
  action : top.Node → List (TreeObs top) → ℤ
  transitionFn : (n : top.Node) → List (TreeObs top) → n.machine.StateIdx
  replaces : (n : top.Node) → WeakStub n.machine.StateIdx → Bool := fun _ _ => false

/-- What the user's functions of one machine return, from what is observed there after `trace`.
Sub-machines are called by the loops only. -/
def TreeUserCode.at {top : Machine} (U : TreeUserCode top) (n : top.Node)
    (trace : List (TreeObs top)) : UserCode n.machine.StateIdx where
  action := fun t => U.action n (trace ++ t.map (⟨n, ·⟩))
  transitionFn := fun t => U.transitionFn n (trace ++ t.map (⟨n, ·⟩))
  subMachine := fun _ => 0
  replaces := U.replaces n

namespace TreeWorld

variable {top : Machine}

/-- What a machine's own code sees of the world. -/
def see (w : TreeWorld top) (n : top.Node) : World n.machine.StateIdx := ⟨w.state n, []⟩

/-- The world after a machine's own code. -/
def commit (w : TreeWorld top) (n : top.Node) (l : World n.machine.StateIdx) : TreeWorld top where
  state := Function.update w.state n l.state
  trace := w.trace ++ l.trace.map (⟨n, ·⟩)

/-- A machine that has done nothing leaves the tree alone. -/
@[simp] lemma commit_see (w : TreeWorld top) (n : top.Node) : w.commit n (w.see n) = w := by
  simp [commit, see]

/-- A machine's step leaves the states of the others alone. -/
lemma state_commit_of_ne {n q : top.Node} (h : q ≠ n) (w : TreeWorld top)
    (l : World n.machine.StateIdx) : (w.commit n l).state q = w.state q :=
  Function.update_of_ne h _ _

end TreeWorld

/-! ## The printed tree and the tree of matrices -/

section Codes

variable {top : Machine} (D : (n : top.Node) → AcceptedActions n.machine) (U : TreeUserCode top)
  (B : top.Node → EventBounds)

/-- A tree whose machines' own code is given for the worlds of single machines. -/
def treeCode (C : (n : top.Node) → UserCode n.machine.StateIdx →
    OwnCode n.machine (B n) (World n.machine.StateIdx)) : TreeCode top B (TreeWorld top) where
  state := fun n w => w.state n
  dispatch := fun n w e => ((C n (U.at n w.trace)).dispatch (w.see n) e).map
    fun r => (w.commit n r.1, r.2)
  handleInAllStates := fun n w e =>
    (w.commit n ((C n (U.at n w.trace)).handleInAllStates (w.see n) e).1,
      ((C n (U.at n w.trace)).handleInAllStates (w.see n) e).2)
  handleInAllStates_foreign := by
    intro n w e hne hforeign
    rw [(C n (U.at n w.trace)).handleInAllStates_foreign _ e hne hforeign, TreeWorld.commit_see]
  state_dispatch := by
    intro n q w e r hr hq
    obtain ⟨r', -, rfl⟩ := Option.map_eq_some_iff.mp hr
    exact TreeWorld.state_commit_of_ne hq w r'.1
  state_handleInAllStates := fun n q w e hq => TreeWorld.state_commit_of_ne hq w _

/-- The own code of all machines, as a generator prints it. -/
def printedCode (g : Generator) : TreeCode top B (TreeWorld top) :=
  treeCode U B fun n V => (D n).ownCode V (B n) n.path g fun _ => []

/-- The own code of all machines, as their matrices describe it. -/
def cellTree : TreeCode top B (TreeWorld top) :=
  treeCode U B fun n V => (D n).cellCode V (B n)

/-- The generator is -te; or it is -tc, no machine has a function for empty cells, the user replaces
no weak function, and no state inhibits sub-machines. -/
def PrintsCells (g : Generator) : Prop :=
  g = .eventTable ∨ (g = .table ∧ ∀ n : top.Node, (D n).emptyCellFn = none ∧
    (∀ f, U.replaces n f = false) ∧
    ∀ s : n.machine.StateIdx, (n.machine.stateList.get s).inhibitSubMachines = false)

variable {D U B} {g : Generator}

/-- Code that is printed for the cells is suited. -/
private lemma PrintsCells.suited (hg : PrintsCells D U g) : (printedCode D U B g).Suited g := by
  rcases hg with hg | ⟨hg, h⟩
  · exact .inl hg
  · exact .inr ⟨hg, fun n w => (h n).2.2 (w.state n)⟩

/-- What is asked of the generator is asked of every machine. -/
lemma PrintsCells.dispatch (hg : PrintsCells D U g) (n : top.Node) :
    g = .eventTable ∨
      (g = .table ∧ (D n).emptyCellFn = none ∧ ∀ f, U.replaces n f = false) := by
  rcases hg with hg | ⟨hg, h⟩
  · exact .inl hg
  · exact .inr ⟨hg, (h n).1, (h n).2.1⟩

variable (himpl : ∀ n s, (D n).implementingMachine s = none)
  (hstates : ∀ n : top.Node, n.machine.stateList ≠ [])
  (hret : ∀ n : top.Node, n.machine.actionsReturn = .events)
  (hvalue : ∀ (n : top.Node) (i : n.machine.EventIdx),
    (B n).eventValue i = some (AcceptedActions.tableBase (B n) n.path + i))

include himpl hstates hret hvalue

/-- What is printed for a machine leads to `noEvent` or to what an action has returned. -/
private lemma printedCode_fits (hg : PrintsCells D U g) {s : EnumScope Enumerator}
    (hU : ∀ n t, Expected s B n (U.action n t)) : (printedCode D U B g).Fits s := by
  intro n w v r hr
  obtain ⟨r', hr', rfl⟩ := Option.map_eq_some_iff.mp hr
  have hor : r'.2 = (B n).noEvent ∨ ∃ t, r'.2 = (U.at n w.trace).action t := by
    rcases hg.dispatch n with rfl | ⟨rfl, -⟩
    · obtain ⟨i, -, rfl⟩ := Option.map_eq_some_iff.mp hr'
      rw [AcceptedActions.eventHandler_eq_cellStep (himpl n) (hstates n) (hret n) (hvalue n i)]
      rcases AcceptedActions.cellStep_snd (D := D n) (U := U.at n w.trace) (B := B n)
        (AcceptedActions.tableBase (B n) n.path + (i : ℕ)) ((D n).cell i (w.see n).state)
        (w.see n) with h | h
      · exact .inl h
      · obtain ⟨pai, -, -, h⟩ := h
        exact .inr ⟨_, h⟩
    · exact AcceptedActions.tableDispatch_snd hr'
  rcases hor with h | ⟨t, h⟩
  · exact .inl h
  · rw [h]
    exact hU n _

/-- The printed code and the cells do the same with a machine's own events. -/
private lemma printedCode_dispatch (hg : PrintsCells D U g) (n : top.Node) (w : TreeWorld top)
    (i : n.machine.EventIdx) {v : ℤ} (hv : (B n).eventValue i = some v) :
    (printedCode D U B g).dispatch n w v = (cellTree D U B).dispatch n w v := by
  obtain rfl := Option.some.inj ((hvalue n i).symm.trans hv)
  have h := AcceptedActions.ownCode_dispatch (U := U.at n w.trace) (himpl n) (hstates n) (hret n)
    (hg.dispatch n) (hvalue n) (fun _ => []) (w.see n) i
  exact congrArg (Option.map fun r => (w.commit n r.1, r.2)) h

/-- The loop over the printed code of all machines is the loop over their cells. -/
private lemma printedCode_returns_iff (hg : PrintsCells D U g) {s : EnumScope Enumerator}
    (hevent : ∀ (n : top.Node) v, eventOwner s v = some n.path →
      ∃ i : n.machine.EventIdx, (B n).eventValue i = some v)
    (f : TreeWorld top × Option ℤ) (w : TreeWorld top) :
    ((printedCode D U B g).loopTree s).flat.Returns (.running f) w ↔
      ((cellTree D U B).loopTree s).flat.Returns (.running f) w := by
  have hhandle : ∀ (w : TreeWorld top) (e : Option ℤ) (p : List ℕ),
      ((printedCode D U B g).loopTree s).owner e = some p →
      ((printedCode D U B g).loopTree s).handle p w e =
        ((cellTree D U B).loopTree s).handle p w e := by
    intro w e p ho
    obtain ⟨v, rfl, ho⟩ := Option.bind_eq_some_iff.mp ho
    simp only [TreeCode.loopTree]
    cases hn : Machine.Node.at? top p with
    | none => rfl
    | some n =>
      obtain rfl := Machine.Node.at?_eq_some_iff.mp hn
      obtain ⟨i, hi⟩ := hevent n v ho
      simp only [Option.bind_some, printedCode_dispatch himpl hstates hret hvalue hg n w i hi]
  exact LoopTree.flat_returns_iff_of_handle (T := (printedCode D U B g).loopTree s)
    (R := (cellTree D U B).loopTree s) rfl rfl rfl hhandle f w

end Codes

/-- The numbers of a machine's events count from the base of its tables. -/
private lemma eventValue_eq_tableBase {compactActionArray : Bool} {designated : String → ℤ}
    {top : Machine}
    (htop : top.Accepted) (hext : externalEventDesignationCount top = 0)
    {s : EnumScope Enumerator} (hs : eventEnum compactActionArray designated top = some s)
    {n : top.Node} {B : EventBounds} (hB : eventBounds s n.path n.machine = some B)
    (i : n.machine.EventIdx) : B.eventValue i = some (AcceptedActions.tableBase B n.path + i) := by
  have hi : (i : ℕ) < n.machine.eventList.length := i.isLt
  rw [eventBounds_eventValue hB]
  by_cases hpath : n.path = []
  · have hroot : n.machine = top := by
      have hsub := n.sub?_path
      rw [hpath] at hsub
      exact (Option.some.inj hsub).symm
    have hi : (i : ℕ) < top.eventList.length := by
      rw [← congrArg (fun m => m.eventList.length) hroot]
      exact hi
    rw [AcceptedActions.tableBase, if_pos hpath, hpath,
      valueOf_top_event designated htop hext hs hi, zero_add]
  · obtain ⟨b, hb⟩ := exists_numberedFrom htop hs hpath n.sub?_path
    have hfirst := (eventBounds_spec hB).1
    rw [hb.valueOf] at hfirst
    obtain rfl : b = B.firstEvent := Option.some.inj hfirst
    rw [hb.valueOf, Machine.ownValue, if_pos hi, AcceptedActions.tableBase, if_neg hpath]

/-- **A tree of matrices.** Take an accepted tree without external designations whose actions return
events, in which every machine below the top resumes and no state is implemented by a sub-machine,
any matrices of its machines, and users' functions that return events their machine's loop expects.
What -te prints, and what -tc prints if there is neither a function for empty cells nor a weak
function that the user replaces nor a state that inhibits sub-machines, returns from a call with any
event of the tree exactly what the matrices say: one loop, in which each event is dispatched by the
cell of the machine that declares it, in the state in which that machine is then.

**Proof sketch.** The printed tree is one loop over the printed code of its machines. For its own
events the printed code of a machine does what its cells say. -/
theorem exists_callMachine_iff_cells (compactActionArray : Bool) (designated : String → ℤ)
    {top : Machine} (htop : top.Accepted) (hext : externalEventDesignationCount top = 0)
    (hret : ∀ n : top.Node, n.machine.actionsReturn = .events)
    (hres : ∀ n : top.Node, n.path ≠ [] → n.machine.Resumes) :
    ∃ s, ∃ B : top.Node → EventBounds, eventEnum compactActionArray designated top = some s ∧
      (∀ n : top.Node, eventBounds s n.path n.machine = some (B n)) ∧
      ∀ (D : (n : top.Node) → AcceptedActions n.machine) (U : TreeUserCode top) (g : Generator),
        (∀ n s, (D n).implementingMachine s = none) → PrintsCells D U g →
        (∀ n t, Expected s B n (U.action n t)) → ∀ v, (eventOwner s v).isSome → ∀ w w',
          (∃ k, ((printedCode D U B g).callMachine g k (.root top)).1 w v =
              some (w', (B (.root top)).noEvent)) ↔
            ((cellTree D U B).loopTree s).flat.Returns (.running (w, some v)) w' := by
  obtain ⟨own, b, last, -, hs⟩ := exists_eventEnum compactActionArray designated htop
  choose B hB using fun n : top.Node => exists_eventBounds htop hs n.sub?_path
  refine ⟨_, B, hs, hB, ?_⟩
  intro D U g himpl hg hU v hv w w'
  have N := treeNumbers htop hext hs hres hB hret
  have hstates : ∀ n : top.Node, n.machine.stateList ≠ [] :=
    fun n => ((Machine.accepted_iff _).mp (htop.sub? n.sub?_path)).2.1
  have hvalue := fun n : top.Node => eventValue_eq_tableBase htop hext hs (hB n)
  have hT := printedCode_fits himpl hstates hret hvalue hg hU
  obtain ⟨q, hq⟩ := Option.isSome_iff_exists.mp hv
  have hexp : Expected _ B (.root top) v := .inr ⟨q, hq, .inl List.nil_prefix⟩
  rw [TreeCode.exists_callMachine_iff N hT hg.suited hret hexp, knownEvent_of_owner hq,
    LoopTree.exists_runs_iff_returns]
  refine printedCode_returns_iff himpl hstates hret hvalue hg ?_ _ w'
  intro n v ho
  obtain ⟨i, hi⟩ := (eventOwner_iff htop hext hs hres).mp ho
  have hlt := lt_length_of_valueOf htop (assignExternalEventValues_eq_false htop hext) hs hi
  exact ⟨⟨i, hlt⟩, (eventBounds_eventValue (hB n) i).trans hi⟩

/-- The matrix of the top-level machine: one action. -/
def callingTopActions : AcceptedActions callingMachine where
  actionInfoList := [⟨"a", none, [⟨0, by decide⟩], [⟨0, by decide⟩]⟩]
  named := by simp
  populated := by decide

/-- That of the sub-machine: one action. -/
def callingSubActions : AcceptedActions (plainMachine "M" "em" "sm" []) where
  actionInfoList := [⟨"b", none, [⟨0, by decide⟩], [⟨0, by decide⟩]⟩]
  named := by simp
  populated := by decide

/-- The machine at the top is the calling machine. -/
private lemma callingMachine_machine_root {n : callingMachine.Node} (h : n.path = []) :
    callingMachine = n.machine := by
  rcases callingMachine_node n with h' | h'
  · exact h'.2.symm
  · rw [h'.1] at h
    cases h

/-- The other machine is its sub-machine. -/
private lemma callingMachine_machine_sub {n : callingMachine.Node} (h : n.path ≠ []) :
    plainMachine "M" "em" "sm" [] = n.machine := by
  rcases callingMachine_node n with h' | h'
  · exact absurd h'.1 h
  · exact h'.2.symm

/-- An action for each of the two machines. -/
def callingActions (n : callingMachine.Node) : AcceptedActions n.machine :=
  if h : n.path = [] then callingMachine_machine_root h ▸ callingTopActions
  else callingMachine_machine_sub h ▸ callingSubActions

/-- A machine's matrix names no implementing machine under another name for the machine. -/
lemma implementingMachine_cast {m m' : Machine} (h : m = m') {D : AcceptedActions m}
    (hD : ∀ s, D.implementingMachine s = none) (s : m'.StateIdx) :
    (h ▸ D).implementingMachine s = none := by
  subst h
  exact hD s

/-- Both machines have a state. -/
private lemma callingMachine_stateList_pos (n : callingMachine.Node) :
    0 < n.machine.stateList.length := by
  rcases callingMachine_node n with h | h <;> rw [h.2] <;> decide

/-- The only state of a machine. -/
def callingState (n : callingMachine.Node) : n.machine.StateIdx :=
  ⟨0, callingMachine_stateList_pos n⟩

/-- The action of the top-level machine returns the event of the sub-machine, whose action returns
its `noEvent`. -/
def callingUser : TreeUserCode callingMachine where
  action := fun n _ => if n.path = [] then 3 else 4
  transitionFn := fun n _ => callingState n

/-- An action without transition, in the tree of matrices. -/
private lemma dispatch_cellTree {top : Machine} {D : (n : top.Node) → AcceptedActions n.machine}
    {U : TreeUserCode top} {B : top.Node → EventBounds} {n : top.Node}
    (hvalue : ∀ i : n.machine.EventIdx,
      (B n).eventValue i = some (AcceptedActions.tableBase (B n) n.path + i))
    {w : TreeWorld top} {i : n.machine.EventIdx}
    {c : ActionInfo n.machine.EventIdx n.machine.StateIdx}
    (hcell : (D n).cell i (w.state n) = some c) (haction : c.action ≠ "")
    (htransition : c.transition = none) :
    (cellTree D U B).dispatch n w (AcceptedActions.tableBase (B n) n.path + (i : ℕ)) =
      some (⟨w.state, w.trace ++ [⟨n, .action c.action⟩]⟩,
        U.action n (w.trace ++ [⟨n, .action c.action⟩])) := by
  have hstep : (D n).cellStep (U.at n w.trace) (B n).noEvent
      (AcceptedActions.tableBase (B n) n.path + (i : ℕ)) ((D n).cell i (w.state n)) (w.see n) =
        ((w.see n).observe (.action c.action),
          U.action n (w.trace ++ [⟨n, .action c.action⟩])) := by
    simp only [hcell, AcceptedActions.cellStep, AcceptedActions.runEntry,
      AcceptedActions.runAction, if_neg haction, htransition, UserCode.callAction,
      UserCode.takeTransition, AcceptedActions.changeState_self]
    rfl
  have h := (AcceptedActions.cellCode_dispatch_eq (D := D n) (U := U.at n w.trace) hvalue
    (w.see n) i).trans (congrArg some hstep)
  refine (congrArg (Option.map fun r => (w.commit n r.1, r.2)) h).trans ?_
  simp [TreeWorld.commit, TreeWorld.see]

/-- One call runs both actions, as the matrices say. -/
theorem exists_cells_callingMachine :
    ∃ s, ∃ B : callingMachine.Node → EventBounds,
      eventEnum false (fun _ => 0) callingMachine = some s ∧
      (∀ n : callingMachine.Node, eventBounds s n.path n.machine = some (B n)) ∧
      ∃ k, ((printedCode callingActions callingUser B .eventTable).callMachine .eventTable k
          (.root callingMachine)).1 ⟨callingState, []⟩ 0 =
        some (⟨callingState, [⟨.root callingMachine, .action "a"⟩, ⟨callingSub, .action "b"⟩]⟩,
          (B (.root callingMachine)).noEvent) := by
  have hcases := callingMachine_node
  have htop : callingMachine.Accepted := by
    simp [callingMachine, plainMachine, Machine.Accepted, Machine.AcceptedList]
  obtain ⟨s, B, hs, hB, h⟩ := exists_callMachine_iff_cells false (fun _ => 0) htop (by decide)
    (by
      intro n
      rcases hcases n with h | h <;> rw [h.2] <;> rfl)
    (by
      intro n hn
      rcases hcases n with h | h
      · exact absurd h.1 hn
      · rw [h.2]
        simp [Machine.Resumes, plainMachine])
  have hzero : (eventEnum false (fun _ => 0) callingMachine).map (eventOwner · 0) =
      some (some []) := by decide
  have hthree : (eventEnum false (fun _ => 0) callingMachine).map (eventOwner · 3) =
      some (some [0]) := by decide
  have hfour : (eventEnum false (fun _ => 0) callingMachine).map (eventOwner · 4) =
      some none := by decide
  have hno : (eventEnum false (fun _ => 0) callingMachine).map (·.valueOf ⟨[0], .noEvent⟩) =
      some (some 4) := by decide
  have hfirst : (eventEnum false (fun _ => 0) callingMachine).map
      (·.valueOf ⟨[0], .firstEvent⟩) = some (some 3) := by decide
  rw [hs] at hzero hthree hfour hno hfirst
  have hvalue := fun n : callingMachine.Node => eventValue_eq_tableBase htop (by decide) hs (hB n)
  -- the cell of the event in the top-level machine, and that in the sub-machine
  have hcell₁ := dispatch_cellTree (D := callingActions) (U := callingUser)
    (w := ⟨callingState, []⟩) (i := ⟨0, by decide⟩) (hvalue (.root callingMachine))
    (c := ⟨"a", none, [⟨0, by decide⟩], [⟨0, by decide⟩]⟩) (by decide) (by decide) rfl
  have hcell₂ := dispatch_cellTree (D := callingActions) (U := callingUser)
    (w := ⟨callingState, [⟨.root callingMachine, .action "a"⟩]⟩) (i := ⟨0, by decide⟩)
    (hvalue callingSub) (c := ⟨"b", none, [⟨0, by decide⟩], [⟨0, by decide⟩]⟩) (by decide)
    (by decide) rfl
  have hbase : AcceptedActions.tableBase (B callingSub) callingSub.path = 3 :=
    Option.some.inj ((eventBounds_spec (hB callingSub)).1.symm.trans (Option.some.inj hfirst))
  rw [hbase] at hcell₂
  refine ⟨s, B, hs, hB, (h callingActions callingUser .eventTable ?_ (.inl rfl) ?_ 0 ?_ _ _).mpr
    (returns_callingMachine (Option.some.inj hzero) (Option.some.inj hthree)
      (Option.some.inj hfour) hcell₁ rfl hcell₂)⟩
  · intro n s
    unfold callingActions
    split_ifs
    · exact implementingMachine_cast _ (fun _ => rfl) s
    · exact implementingMachine_cast _ (fun _ => rfl) s
  · intro n t
    rcases hcases n with h | h
    · refine .inr ⟨[0], ?_, .inl (h.1 ▸ List.nil_prefix)⟩
      simpa [callingUser, h.1] using Option.some.inj hthree
    · left
      have hret : n.machine.actionsReturn = .events := by
        rw [h.2]
        rfl
      have hnoEvent := eventBounds_noEvent (hB n) hret
      rw [h.1, show s.valueOf ⟨[0], .noEvent⟩ = some 4 from Option.some.inj hno] at hnoEvent
      simp [callingUser, h.1, Option.some.inj hnoEvent]
  · rw [show eventOwner s 0 = some [] from Option.some.inj hzero]
    rfl

end FsmLang
