import Mathlib.Data.List.Basic
import Mathlib.Tactic
import FsmLang.GeneratedCode

set_option relaxedAutoImplicit false
set_option autoImplicit false

/-!
# The table and the single switch

For one flat machine whose actions return events, the -tc machine looks the cell up in a table
by the event and the state, and the -tss machine switches on `COMBINE(event, state)`.

They part in three kinds of cells. In a cell without action, the empty ones included, the -tc
machine calls a function all the same: the one for empty cells, or `noAction`, and takes what it
returns for the next event; the -tss machine goes on with `noEvent`. A transition function is called
after the action: by the -tc machine with the event that is processed, by the -tss machine with the
event that the action has returned. And in a machine with transition functions the -tc machine calls
a function in the other cells, too. `noAction` and these functions are generated, and make a
difference if the user replaces them.

## Main definitions

* `LabelsDistinct` — the labels of the -tss switch are different numbers.
* `SameStep` — the condition under which one pass is the same in both.

## Main results

* `tableDispatch_eq`, `singleSwitchDispatch_of_cell` — what both do in a cell.
* `tableDispatch_eq_singleSwitchDispatch_iff` — when they do the same.
* `exists_singleSwitch_after_eq_table` — runs whose passes meet the condition are the same, and
  only those.
-/

namespace FsmLang

open CSemantics

namespace AcceptedActions

variable {m : Machine} (D : AcceptedActions m) (U : UserCode m.StateIdx) (B : EventBounds)

/-! ## One pass -/

/-- The labels of the switch of the machine at `path` are different numbers; C takes no other
switch. -/
def LabelsDistinct (path : List ℕ) : Prop :=
  ∀ (i j : m.EventIdx) (s t : m.StateIdx) (v w : ℤ), (D.cell i s).isSome → (D.cell j t).isSome →
    B.eventValue i = some v → B.eventValue j = some w →
      combine path v (s : ℕ) = combine path w (t : ℕ) → i = j ∧ s = t

/-- The table has `noAction` in the cell. -/
def HoldsNoAction (c : Option (ActionInfo m.EventIdx m.StateIdx)) : Prop :=
  match c with
  | none => D.emptyCellFn = none
  | some pai => pai.action = ""

/-- The user does not replace the weak function in the transition part of a cell. -/
def KeepsTransition (t : Option (Transition m.StateIdx)) : Prop :=
  transitionFnList D.matrix ≠ [] →
    match t with
    | none => U.replaces .noTransitionFn = false
    | some (.state s) => U.replaces (.transitionTo s) = false
    | some (.fn _ _) => True

/-- The -tc and the -tss machine do the same for the event `e` in the world `w`: the event's value
is its place in the table; if the cell is empty, no other cell has its key, and the function for
empty cells returns `noEvent`; weak functions in the cell are not replaced; and the action of a cell
with a transition function returns `e` itself. -/
structure SameStep (w : World m.StateIdx) (e : ℤ) : Prop where
  ordinal : ∀ i : m.EventIdx, B.eventValue i = some e → (i : ℤ) = e
  separate : ∀ i : m.EventIdx, B.eventValue i = some e → D.cell i w.state = none →
    ∀ (j : m.EventIdx) (s : m.StateIdx) (v : ℤ), B.eventValue j = some v → (D.cell j s).isSome →
      combine [] v (s : ℕ) ≠ combine [] e (w.state : ℕ)
  emptyCell : ∀ (i : m.EventIdx) (name : String), B.eventValue i = some e →
    D.cell i w.state = none → D.emptyCellFn = some name →
      U.action (w.trace ++ [.action name]) = B.noEvent
  noAction : ∀ i : m.EventIdx, B.eventValue i = some e → D.HoldsNoAction (D.cell i w.state) →
    U.replaces .noAction = false
  keepsTransition : ∀ i : m.EventIdx, B.eventValue i = some e →
    D.KeepsTransition U ((D.cell i w.state).bind (·.transition))
  transitionFn : ∀ (i : m.EventIdx) pai name returnsDecl, B.eventValue i = some e →
    D.cell i w.state = some pai → pai.transition = some (.fn name returnsDecl) →
    pai.action ≠ "" ∧ U.action (w.trace ++ [.action pai.action]) = e

/-- **The table.** -/
lemma tableDispatch_eq (i : m.EventIdx) (w : World m.StateIdx) :
    D.tableDispatch U B [] w (i : ℕ) =
      some (D.changeState (D.tableTransition U ((D.cell i w.state).bind (·.transition)) (i : ℕ)
          (D.tableAction U B.noEvent (D.cell i w.state) w).1),
        (D.tableAction U B.noEvent (D.cell i w.state) w).2) := by
  have hplace : eventAt? m (tableBase B []) (i : ℕ) = some i := by
    rw [show tableBase B [] = 0 from if_pos rfl, eventAt?_natCast]
  have hcell : (D.actionArray.cell i w.state).bind (D.actionInfoList[·]?) = D.cell i w.state := by
    rw [cell, cellIdx, matrix_eventOrder, matrix_stateOrder]
  simp only [tableDispatch, hplace, Option.map_some, hcell]

/-! ## The single switch -/

/-- The labels of a matrix are the keys of its entry's cells. -/
lemma mem_matrixLabels {path : List ℕ} {pai : ActionInfo m.EventIdx m.StateIdx}
    (hpai : pai ∈ D.actionInfoList) {x : ℕ} :
    x ∈ D.matrixLabels B path pai ↔ ∃ (i : m.EventIdx) (s : m.StateIdx) (v : ℤ),
      D.cell i s = some pai ∧ B.eventValue i = some v ∧ x = combine path v (s : ℕ) := by
  simp only [matrixLabels, List.mem_filterMap, Option.map_eq_some_iff]
  constructor
  · intro h
    obtain ⟨⟨i, s⟩, hmem, v, hv, rfl⟩ := h
    exact ⟨i, s, v, D.cell_eq_some_iff.mpr ⟨hpai, D.matrix.mem_matrixCases.mp hmem⟩, hv, rfl⟩
  · intro h
    obtain ⟨i, s, v, hcell, hv, rfl⟩ := h
    exact ⟨(i, s), D.matrix.mem_matrixCases.mpr (D.cell_eq_some_iff.mp hcell).2, v, hv, rfl⟩

/-- No named cell but the current one has its key. -/
def KeyAlone (path : List ℕ) (i : m.EventIdx) (s : m.StateIdx) (e : ℤ) : Prop :=
  ∀ (j : m.EventIdx) (t : m.StateIdx) (v : ℤ), B.eventValue j = some v → (D.cell j t).isSome →
    combine path v (t : ℕ) = combine path e (s : ℕ) → j = i ∧ t = s

variable {D U B}

/-- **The single switch**, in a cell with an entry. -/
lemma singleSwitchDispatch_of_cell {path : List ℕ} {i : m.EventIdx} {w : World m.StateIdx} {e : ℤ}
    (he : B.eventValue i = some e) (halone : D.KeyAlone B path i w.state e)
    {pai : ActionInfo m.EventIdx m.StateIdx} (hcell : D.cell i w.state = some pai) :
    D.singleSwitchDispatch U B path w e =
      (D.changeState (U.takeTransition pai.transition
          (if m.actionsReturn = .void then e else (D.runAction U B.noEvent false pai w).2)
          (D.runAction U B.noEvent false pai w).1), (D.runAction U B.noEvent false pai w).2) := by
  obtain ⟨hsound, hcomplete⟩ := D.matrix.consolidateActionInfoList_spec
  have hpai := D.mem_of_cell hcell
  obtain ⟨p, hp, haction, htransition⟩ := exists_switchBody
    (D.matrix.consolidateActionInfoList.map fun c => (⟨c.members.flatMap (D.matrixLabels B path),
      some c.leader⟩ : Case ℕ (ActionInfo m.EventIdx m.StateIdx)))
    (combine path e (w.state : ℕ))
    (fun p => p.action = pai.action ∧ p.transition = pai.transition)
    (by
      obtain ⟨c, hc, hmem⟩ := hcomplete pai hpai
      refine ⟨_, List.mem_map_of_mem hc, List.mem_flatMap.mpr ⟨pai, hmem, ?_⟩⟩
      exact (D.mem_matrixLabels B hpai).mpr ⟨i, w.state, e, hcell, he, rfl⟩)
    (by
      intro k hk hx
      obtain ⟨c, hc, rfl⟩ := List.mem_map.mp hk
      obtain ⟨q, hq, hx⟩ := List.mem_flatMap.mp hx
      obtain ⟨hmem, hqaction, hqtransition⟩ := hsound c hc q hq
      obtain ⟨j, t, v, hjt, hv, hkey⟩ := (D.mem_matrixLabels B hmem).mp hx
      -- the matrix that has the key is that of the cell's entry
      obtain ⟨rfl, rfl⟩ := halone j t v hv (by simp [hjt]) hkey.symm
      obtain rfl := Option.some.inj (hcell.symm.trans hjt)
      exact ⟨c.leader, rfl, hqaction, hqtransition⟩)
  simp only [singleSwitchDispatch, hp, runAction, haction, htransition]

/-- The single switch in an empty cell. -/
private lemma singleSwitchDispatch_of_empty {path : List ℕ} {i : m.EventIdx} {w : World m.StateIdx}
    {e : ℤ}
    (halone : D.KeyAlone B path i w.state e) (hcell : D.cell i w.state = none) :
    D.singleSwitchDispatch U B path w e = (D.handleEmptyCell U w, B.noEvent) := by
  have hnone := switchBody_eq_none
    (D.matrix.consolidateActionInfoList.map fun c => (⟨c.members.flatMap (D.matrixLabels B path),
      some c.leader⟩ : Case ℕ (ActionInfo m.EventIdx m.StateIdx)))
    (combine path e (w.state : ℕ))
    (by
      intro k hk hx
      obtain ⟨c, hc, rfl⟩ := List.mem_map.mp hk
      obtain ⟨q, hq, hx⟩ := List.mem_flatMap.mp hx
      have hmem := (D.matrix.consolidateActionInfoList_spec.1 c hc q hq).1
      obtain ⟨j, t, v, hjt, hv, hkey⟩ := (D.mem_matrixLabels B hmem).mp hx
      obtain ⟨rfl, rfl⟩ := halone j t v hv (by simp [hjt]) hkey.symm
      simp [hcell] at hjt)
  simp only [singleSwitchDispatch, hnone]


/-! ## Calls in a cell of the table -/

/-- `noAction` is called, unless it is the generated one. -/
lemma countP_callNoAction (w : World m.StateIdx) :
    (U.callNoAction B.noEvent w).1.trace.countP Obs.isAction =
      w.trace.countP Obs.isAction + if U.replaces .noAction then 1 else 0 := by
  unfold UserCode.callNoAction
  split_ifs
  · simp [UserCode.callAction, List.countP_append, Obs.isAction]
  · rfl

/-- The generated `noAction` does nothing. -/
lemma callNoAction_eq (h : U.replaces .noAction = false) (w : World m.StateIdx) :
    U.callNoAction B.noEvent w = (w, B.noEvent) := by
  simp [UserCode.callNoAction, h]

/-- A transition calls its function, if it has one. -/
private lemma countP_isTransition (t : Option (Transition m.StateIdx)) (e e' : ℤ)
    (w : World m.StateIdx) :
    (U.takeTransition t e w).1.trace.countP Obs.isTransition =
      (U.takeTransition t e' w).1.trace.countP Obs.isTransition := by
  rcases t with _ | (s | ⟨name, returnsDecl⟩)
  · rfl
  · rfl
  · simp [UserCode.takeTransition, List.countP_append, Obs.isTransition]

/-- Where the weak functions are kept, the transition part of a cell is the entry's transition. -/
lemma tableTransition_eq {t : Option (Transition m.StateIdx)} (h : D.KeepsTransition U t) (e : ℤ)
    (w : World m.StateIdx) : D.tableTransition U t e w = U.takeTransition t e w := by
  unfold tableTransition
  split_ifs with hfns
  · rfl
  · have hkeeps := h hfns
    rcases t with _ | (s | ⟨name, returnsDecl⟩)
    · simp [UserCode.takeTableTransition, UserCode.takeTransition, show _ = false from hkeeps]
    · simp [UserCode.takeTableTransition, UserCode.takeTransition, show _ = false from hkeeps]
    · rfl

/-- A weak function that is replaced is one more call. -/
lemma keepsTransition_of_countP {t : Option (Transition m.StateIdx)} {e : ℤ} {w : World m.StateIdx}
    (h : (D.tableTransition U t e w).1.trace.countP Obs.isTransition =
      (U.takeTransition t e w).1.trace.countP Obs.isTransition) : D.KeepsTransition U t := by
  intro hfns
  rw [tableTransition, if_neg hfns] at h
  rcases t with _ | (s | ⟨name, returnsDecl⟩)
  · show U.replaces .noTransitionFn = false
    by_contra hnot
    rw [Bool.not_eq_false] at hnot
    simp [UserCode.takeTableTransition, UserCode.takeTransition, hnot, List.countP_append,
      Obs.isTransition] at h
  · show U.replaces (.transitionTo s) = false
    by_contra hnot
    rw [Bool.not_eq_false] at hnot
    simp [UserCode.takeTableTransition, UserCode.takeTransition, hnot, List.countP_append,
      Obs.isTransition] at h
  · trivial

/-- In a cell with an entry the table's action is the entry's, unless `noAction` is replaced. -/
lemma tableAction_eq_runAction {pai : ActionInfo m.EventIdx m.StateIdx}
    (h : D.HoldsNoAction (some pai) → U.replaces .noAction = false) (w : World m.StateIdx) :
    D.tableAction U B.noEvent (some pai) w = D.runAction U B.noEvent false pai w := by
  by_cases haction : pai.action = ""
  · simp [tableAction, runAction, haction, callNoAction_eq (h haction)]
  · simp [tableAction, runAction, haction]

/-- If both call the same actions, the user does not replace `noAction`. -/
private lemma replaces_noAction_of_countP {pai : ActionInfo m.EventIdx m.StateIdx}
    {w : World m.StateIdx}
    (h : (D.tableAction U B.noEvent (some pai) w).1.trace.countP Obs.isAction =
      (D.runAction U B.noEvent false pai w).1.trace.countP Obs.isAction)
    (haction : D.HoldsNoAction (some pai)) : U.replaces .noAction = false := by
  have haction : pai.action = "" := haction
  simp only [tableAction, runAction, if_pos haction, countP_callNoAction, Bool.false_eq_true,
    if_false] at h
  by_contra hnot
  rw [if_pos (by simpa using hnot)] at h
  omega

/-- The same for an empty cell. -/
lemma tableAction_none_fst (h : D.HoldsNoAction none → U.replaces .noAction = false)
    (w : World m.StateIdx) :
    (D.tableAction U B.noEvent none w).1 = D.handleEmptyCell U w := by
  cases hfn : D.emptyCellFn with
  | none => simp [tableAction, handleEmptyCell, hfn, callNoAction_eq (h hfn)]
  | some name => simp [tableAction, handleEmptyCell, hfn]

/-- What comes of an empty cell of the table is `noEvent` if the function for empty cells returns
it. -/
lemma tableAction_none_snd_eq_iff (h : D.HoldsNoAction none → U.replaces .noAction = false)
    (w : World m.StateIdx) : (D.tableAction U B.noEvent none w).2 = B.noEvent ↔
      ∀ name, D.emptyCellFn = some name → U.action (w.trace ++ [.action name]) = B.noEvent := by
  cases hfn : D.emptyCellFn with
  | none => simp [tableAction, hfn, callNoAction_eq (h hfn)]
  | some name => simp [tableAction, hfn, UserCode.callAction]

/-- If both call the same functions in an empty cell, the user does not replace `noAction`. -/
private lemma replaces_noAction_of_countP_none {w : World m.StateIdx}
    (h : (D.tableAction U B.noEvent none w).1.trace.countP Obs.isAction =
      (D.handleEmptyCell U w).trace.countP Obs.isAction)
    (hfn : D.HoldsNoAction none) : U.replaces .noAction = false := by
  have hfn : D.emptyCellFn = none := hfn
  simp only [tableAction, handleEmptyCell, hfn, countP_callNoAction] at h
  by_contra hnot
  rw [if_pos (by simpa using hnot)] at h
  omega

/-- The transition part of a cell calls no action. -/
lemma countP_tableTransition (t : Option (Transition m.StateIdx)) (e : ℤ) (w : World m.StateIdx) :
    (D.tableTransition U t e w).1.trace.countP Obs.isAction = w.trace.countP Obs.isAction := by
  unfold tableTransition
  split_ifs
  · exact U.countP_takeTransition t e w
  · rcases t with _ | (s | ⟨name, returnsDecl⟩)
    · rw [UserCode.takeTableTransition]
      split_ifs
      · exact U.countP_takeTransition _ e w
      · rfl
    · rw [UserCode.takeTableTransition]
      split_ifs
      · simp [List.countP_append, Obs.isAction]
      · rfl
    · exact U.countP_takeTransition _ e w

/-! ## The same pass -/

/-- What a transition function has been called with can be seen. -/
private lemma transitionFn_arg_inj {name : String} {returnsDecl : List m.StateIdx} {e e' : ℤ}
    {w : World m.StateIdx}
    (h : D.changeState (U.takeTransition (some (.fn name returnsDecl)) e w) =
      D.changeState (U.takeTransition (some (.fn name returnsDecl)) e' w)) : e = e' := by
  obtain ⟨t, ht⟩ := D.exists_changeState_trace (U.takeTransition (some (.fn name returnsDecl)) e w)
  obtain ⟨t', ht'⟩ := D.exists_changeState_trace
    (U.takeTransition (some (.fn name returnsDecl)) e' w)
  have htrace := congrArg World.trace h
  rw [ht, ht'] at htrace
  simp only [UserCode.takeTransition, World.observe_trace, List.append_assoc,
    List.append_cancel_left_eq, List.singleton_append, List.cons.injEq,
    Obs.transitionFn.injEq] at htrace
  exact htrace.1.2

/-- Other transitions do not ask for the event. -/
private lemma takeTransition_eq {t : Option (Transition m.StateIdx)}
    (ht : ∀ name returnsDecl, t ≠ some (.fn name returnsDecl)) (e e' : ℤ) (w : World m.StateIdx) :
    U.takeTransition t e w = U.takeTransition t e' w := by
  cases t with
  | none => rfl
  | some t =>
    cases t with
    | state s => rfl
    | fn name returnsDecl => exact absurd rfl (ht name returnsDecl)

/-- What an action returns for an event that is not `noEvent`. -/
lemma runAction_snd_eq_iff {pai : ActionInfo m.EventIdx m.StateIdx} {e : ℤ} (he : e ≠ B.noEvent)
    (w : World m.StateIdx) : (D.runAction U B.noEvent false pai w).2 = e ↔
      pai.action ≠ "" ∧ U.action (w.trace ++ [.action pai.action]) = e := by
  by_cases haction : pai.action = ""
  · simp [runAction, haction, he.symm]
  · simp [runAction, haction, UserCode.callAction]

/-- A state that is not changed. -/
lemma changeState_self (w : World m.StateIdx) : D.changeState (w, w.state) = w := by
  simp [changeState]

/-- **One pass, in an empty cell.** -/
lemma table_eq_singleSwitch_of_empty_iff (e : ℤ) (w : World m.StateIdx) :
    (D.changeState (D.tableTransition U none e (D.tableAction U B.noEvent none w).1),
        (D.tableAction U B.noEvent none w).2) = (D.handleEmptyCell U w, B.noEvent) ↔
      (D.HoldsNoAction none → U.replaces .noAction = false) ∧ D.KeepsTransition U none ∧
        ∀ name, D.emptyCellFn = some name → U.action (w.trace ++ [.action name]) = B.noEvent := by
  constructor
  · intro h
    obtain ⟨hworld, hnext⟩ := Prod.ext_iff.mp h
    have haction := congrArg (fun w => w.trace.countP Obs.isAction) hworld
    simp only [D.countP_changeState fun _ => Obs.isAction_of_isStateChange,
      countP_tableTransition] at haction
    have hno := replaces_noAction_of_countP_none haction
    have htransition := congrArg (fun w => w.trace.countP Obs.isTransition) hworld
    simp only [D.countP_changeState fun _ => Obs.isTransition_of_isStateChange,
      tableAction_none_fst hno] at htransition
    exact ⟨hno, keepsTransition_of_countP htransition, (tableAction_none_snd_eq_iff hno w).mp hnext⟩
  · intro h
    obtain ⟨hno, hkeeps, hempty⟩ := h
    rw [tableTransition_eq hkeeps, tableAction_none_fst hno, UserCode.takeTransition,
      changeState_self, (tableAction_none_snd_eq_iff hno w).mpr hempty]

/-- **One pass, in a cell with an entry.** -/
lemma table_eq_singleSwitch_of_some_iff {e : ℤ} (he : e ≠ B.noEvent) (w : World m.StateIdx)
    (pai : ActionInfo m.EventIdx m.StateIdx) :
    (D.changeState (D.tableTransition U pai.transition e
          (D.tableAction U B.noEvent (some pai) w).1),
        (D.tableAction U B.noEvent (some pai) w).2) =
      (D.changeState (U.takeTransition pai.transition (D.runAction U B.noEvent false pai w).2
          (D.runAction U B.noEvent false pai w).1), (D.runAction U B.noEvent false pai w).2) ↔
      (D.HoldsNoAction (some pai) → U.replaces .noAction = false) ∧
        D.KeepsTransition U pai.transition ∧
        ∀ name returnsDecl, pai.transition = some (.fn name returnsDecl) →
          pai.action ≠ "" ∧ U.action (w.trace ++ [.action pai.action]) = e := by
  constructor
  · intro h
    have hworld := (Prod.ext_iff.mp h).1
    have hactions : ∀ r : World m.StateIdx × m.StateIdx,
        (D.changeState r).trace.countP Obs.isAction = r.1.trace.countP Obs.isAction :=
      D.countP_changeState fun _ => Obs.isAction_of_isStateChange
    have htransitions : ∀ r : World m.StateIdx × m.StateIdx,
        (D.changeState r).trace.countP Obs.isTransition = r.1.trace.countP Obs.isTransition :=
      D.countP_changeState fun _ => Obs.isTransition_of_isStateChange
    -- the actions are the same, then the transition functions, then what they get
    have haction := congrArg (fun w => w.trace.countP Obs.isAction) hworld
    simp only [hactions, countP_tableTransition, U.countP_takeTransition] at haction
    have hno := replaces_noAction_of_countP haction
    rw [tableAction_eq_runAction hno] at hworld
    have htransition := congrArg (fun w => w.trace.countP Obs.isTransition) hworld
    simp only [htransitions] at htransition
    have hkeeps := keepsTransition_of_countP (htransition.trans
      (countP_isTransition pai.transition _ e _))
    refine ⟨hno, hkeeps, ?_⟩
    intro name returnsDecl ht
    rw [tableTransition_eq hkeeps, ht] at hworld
    exact (runAction_snd_eq_iff he w).mp (transitionFn_arg_inj hworld).symm
  · intro h
    obtain ⟨hno, hkeeps, hfn⟩ := h
    rw [tableTransition_eq hkeeps, tableAction_eq_runAction hno]
    by_cases ht : ∃ name returnsDecl, pai.transition = some (.fn name returnsDecl)
    · obtain ⟨name, returnsDecl, ht⟩ := ht
      rw [(runAction_snd_eq_iff he w).mpr (hfn name returnsDecl ht)]
    · push Not at ht
      rw [takeTransition_eq ht]

variable (D U B) in
/-- The condition of one pass, in the current cell of the event `i`. -/
def SameCell (i : m.EventIdx) (w : World m.StateIdx) : Prop :=
  (D.HoldsNoAction (D.cell i w.state) → U.replaces .noAction = false) ∧
    D.KeepsTransition U ((D.cell i w.state).bind (·.transition)) ∧
    (D.cell i w.state = none → ∀ name, D.emptyCellFn = some name →
      U.action (w.trace ++ [.action name]) = B.noEvent) ∧
    ∀ pai name returnsDecl, D.cell i w.state = some pai →
      pai.transition = some (.fn name returnsDecl) →
      pai.action ≠ "" ∧ U.action (w.trace ++ [.action pai.action]) = (i : ℕ)

/-- **One pass.** Where the event is its own place in the table and no other cell has the key, both
machines do the same exactly under the condition. -/
lemma tableDispatch_eq_singleSwitchDispatch_iff (hret : m.actionsReturn = .events)
    {w : World m.StateIdx} {i : m.EventIdx} (he : ((i : ℕ) : ℤ) ≠ B.noEvent)
    (hi : B.eventValue i = some ((i : ℕ) : ℤ)) (halone : D.KeyAlone B [] i w.state (i : ℕ)) :
    D.tableDispatch U B [] w (i : ℕ) = some (D.singleSwitchDispatch U B [] w (i : ℕ)) ↔
      D.SameCell U B i w := by
  rw [D.tableDispatch_eq U B, Option.some_inj, SameCell]
  cases hcell : D.cell i w.state with
  | none =>
    rw [singleSwitchDispatch_of_empty halone hcell, Option.bind_none,
      table_eq_singleSwitch_of_empty_iff]
    simp
  | some pai =>
    rw [singleSwitchDispatch_of_cell hi halone hcell, hret, if_neg (by decide), Option.bind_some,
      table_eq_singleSwitch_of_some_iff he]
    refine and_congr_right fun _ => and_congr_right fun _ => ?_
    constructor
    · intro h
      refine ⟨nofun, ?_⟩
      intro p name returnsDecl hp ht
      obtain rfl := Option.some.inj hp
      exact h name returnsDecl ht
    · intro h name returnsDecl ht
      exact h.2 pai name returnsDecl rfl ht

/-- The -tc machine's passes lead to `noEvent` or to what an action has returned. -/
lemma tableDispatch_snd {path : List ℕ} {w : World m.StateIdx} {e : ℤ}
    {r : World m.StateIdx × ℤ} (h : D.tableDispatch U B path w e = some r) :
    r.2 = B.noEvent ∨ ∃ t, r.2 = U.action t := by
  obtain ⟨i, -, rfl⟩ := Option.map_eq_some_iff.mp h
  exact D.tableAction_snd U _ _ _

/-- Whenever the -tc machine is in its loop, its event is one of the enumeration. -/
lemma isEvent_of_table_after (hflat : m.machineList = []) (hret : m.actionsReturn = .events)
    (hU : U.ReturnsEvents B) {f g : Frame (World m.StateIdx)}
    (hf : f.e = B.noEvent ∨ IsEvent m B f.e) {k : ℕ}
    (hk : (D.flatLoop U B .table).after k (.running f) = .running g) :
    g.e = B.noEvent ∨ IsEvent m B g.e := by
  refine hU.isEvent_of_after ?_ hf hk
  intro s t _ hcond hbody
  have hne : s.e ≠ B.noEvent := by simpa [flatLoop, OwnCode.topLoop, hret] using hcond
  have hpass := flatLoop_pass (D := D) (U := U) (g := .table) (by decide) hflat hret hne
  rw [WhileLoop.pass_of_cond hcond, hbody] at hpass
  cases hd : D.tableDispatch U B [] s.world s.e with
  | none => simp [ownCode, hd] at hpass
  | some r =>
    have ht : t = { s with world := r.1, e := r.2 } := by simpa [ownCode, hd] using hpass
    rw [ht]
    exact tableDispatch_snd hd

/-- The current cell's key is its own: other labels are different, and in an empty cell there is no
label with the key. -/
private lemma SameStep.keyAlone {w : World m.StateIdx} {e : ℤ} (h : D.SameStep U B w e)
    (hlabels : D.LabelsDistinct B []) {i : m.EventIdx} (hi : B.eventValue i = some e) :
    D.KeyAlone B [] i w.state e := by
  intro j t v hv ht hkey
  cases hcell : D.cell i w.state with
  | none => exact absurd hkey (h.separate i hi hcell j t v hv ht)
  | some pai => exact hlabels j i t w.state v e ht (by simp [hcell]) hv hi hkey

/-- The condition holds in the current cell. -/
private lemma SameStep.sameCell {w : World m.StateIdx} {i : m.EventIdx}
    (h : D.SameStep U B w (i : ℕ)) (hi : B.eventValue i = some ((i : ℕ) : ℤ)) :
    D.SameCell U B i w :=
  ⟨h.noAction i hi, h.keepsTransition i hi, fun hcell name => h.emptyCell i name hi hcell,
    fun pai name returnsDecl => h.transitionFn i pai name returnsDecl hi⟩

/-- **Runs.** The -tss machine makes the run of the -tc machine if every pass of it meets the
condition. -/
lemma singleSwitch_after_eq_table (hflat : m.machineList = []) (hret : m.actionsReturn = .events)
    (hU : U.ReturnsEvents B) (hlabels : D.LabelsDistinct B []) {f : Frame (World m.StateIdx)}
    (hf : f.e = B.noEvent ∨ IsEvent m B f.e)
    (h : ∀ k g, (D.flatLoop U B .table).after k (.running f) = .running g → g.e ≠ B.noEvent →
      D.SameStep U B g.world g.e) (k : ℕ) :
    (D.flatLoop U B .singleSwitch).after k (.running f) =
      (D.flatLoop U B .table).after k (.running f) := by
  apply WhileLoop.after_eq_of_step_eq
  intro k g hg
  by_cases hne : g.e = B.noEvent
  · rw [flatLoop_pass_noEvent hret hne, flatLoop_pass_noEvent hret hne]
  · have hsame := h k g hg hne
    obtain ⟨i, hi⟩ := (isEvent_of_table_after hflat hret hU hf hg).resolve_left hne
    have hord := hsame.ordinal i hi
    have halone := hsame.keyAlone hlabels hi
    rw [flatLoop_pass (by decide) hflat hret hne, flatLoop_pass (by decide) hflat hret hne]
    rw [← hord] at hne hi halone hsame
    have heq := (tableDispatch_eq_singleSwitchDispatch_iff hret hne hi halone).mpr
      (hsame.sameCell hi)
    rw [hord] at heq
    simp only [ownCode, heq]

/-- The condition holds at every pass of a run that both machines make, if event values are places
and keys are different. -/
lemma sameStep_of_after_eq (hflat : m.machineList = []) (hret : m.actionsReturn = .events)
    (hU : U.ReturnsEvents B) (hord : ∀ i : m.EventIdx, B.eventValue i = some ((i : ℕ) : ℤ))
    (hkeys : ∀ i s, D.KeyAlone B [] i s (i : ℕ)) {f : Frame (World m.StateIdx)}
    (hf : f.e = B.noEvent ∨ IsEvent m B f.e)
    (h : ∀ k, (D.flatLoop U B .singleSwitch).after k (.running f) =
      (D.flatLoop U B .table).after k (.running f)) {k : ℕ} {g : Frame (World m.StateIdx)}
    (hg : (D.flatLoop U B .table).after k (.running f) = .running g) (hne : g.e ≠ B.noEvent) :
    D.SameStep U B g.world g.e := by
  obtain ⟨i, hi⟩ := (isEvent_of_table_after hflat hret hU hf hg).resolve_left hne
  have hge : g.e = (i : ℕ) := Option.some.inj (hi.symm.trans (hord i))
  -- the pass after `k` is the same in both machines
  have hpass : (D.flatLoop U B .singleSwitch).pass g = (D.flatLoop U B .table).pass g := by
    have hk := h (k + 1)
    rwa [WhileLoop.after_succ', WhileLoop.after_succ', h k, hg] at hk
  rw [flatLoop_pass (by decide) hflat hret hne, flatLoop_pass (by decide) hflat hret hne] at hpass
  have hdispatch : D.tableDispatch U B [] g.world (i : ℕ) =
      some (D.singleSwitchDispatch U B [] g.world (i : ℕ)) := by
    rw [← hge]
    cases hd : D.tableDispatch U B [] g.world g.e with
    | none => simp [ownCode, hd] at hpass
    | some r =>
      simp only [ownCode, hd, Option.map_some, Option.elim_some, Outcome.running.injEq,
        Frame.mk.injEq, and_true] at hpass
      rw [Prod.ext hpass.1 hpass.2]
  have huniq : ∀ j : m.EventIdx, B.eventValue j = some g.e → j = i := by
    intro j hj
    have := Option.some.inj ((hord j).symm.trans hj)
    exact Fin.ext (by omega)
  obtain ⟨hno, hkeeps, hempty, hfn⟩ := (tableDispatch_eq_singleSwitchDispatch_iff hret (hge ▸ hne)
    (hord i) (hkeys i g.world.state)).mp hdispatch
  refine ⟨?_, ?_, ?_, ?_, ?_, ?_⟩
  · intro j hj
    rw [huniq j hj, hge]
  · intro j hj hcell j' s v hv hs hkey
    rw [huniq j hj] at hcell
    obtain ⟨rfl, rfl⟩ := hkeys i g.world.state j' s v hv hs (hge ▸ hkey)
    simp [hcell] at hs
  · intro j name hj hcell hname
    exact hempty (huniq j hj ▸ hcell) name hname
  · intro j hj
    rw [huniq j hj]
    exact hno
  · intro j hj
    rw [huniq j hj]
    exact hkeeps
  · intro j pai name returnsDecl hj hcell ht
    rw [hge]
    exact hfn pai name returnsDecl (huniq j hj ▸ hcell) ht

end AcceptedActions

/-! ## Every flat machine -/

/-- **The table and the single switch.** In a flat machine whose actions return events and whose
-tss labels are different, the -tss machine makes the run of the -tc machine, call by call and state
by state, if every pass of that run meets the condition. If no event has an external designation and
the keys of different cells are different, it does so only then. -/
theorem exists_singleSwitch_after_eq_table (compactActionArray : Bool) (designated : String → ℤ)
    {top : Machine} (htop : top.Accepted) (hflat : top.machineList = [])
    (hret : top.actionsReturn = .events) :
    ∃ s B, eventEnum compactActionArray designated top = some s ∧ eventBounds s [] top = some B ∧
      ∀ (D : AcceptedActions top) (U : UserCode top.StateIdx), U.ReturnsEvents B →
        ∀ f : Frame (World top.StateIdx), f.e = B.noEvent ∨ IsEvent top B f.e →
          (D.LabelsDistinct B [] →
            (∀ k g, (D.flatLoop U B .table).after k (.running f) = .running g → g.e ≠ B.noEvent →
              D.SameStep U B g.world g.e) →
            ∀ k, (D.flatLoop U B .singleSwitch).after k (.running f) =
              (D.flatLoop U B .table).after k (.running f)) ∧
          (externalEventDesignationCount top = 0 → CombineSeparates s [] top →
            (∀ k, (D.flatLoop U B .singleSwitch).after k (.running f) =
              (D.flatLoop U B .table).after k (.running f)) →
            ∀ k g, (D.flatLoop U B .table).after k (.running f) = .running g →
              g.e ≠ B.noEvent → D.SameStep U B g.world g.e) := by
  obtain ⟨own, b, last, -, hs⟩ := exists_eventEnum compactActionArray designated htop
  obtain ⟨B, hB⟩ := exists_eventBounds_top htop hs
  refine ⟨_, B, hs, hB, ?_⟩
  intro D U hU f hf
  refine ⟨fun hlabels => AcceptedActions.singleSwitch_after_eq_table hflat hret hU hlabels hf, ?_⟩
  intro hext hsep heq k g hg hne
  have hord : ∀ i : top.EventIdx, B.eventValue i = some ((i : ℕ) : ℤ) := by
    intro i
    rw [eventBounds_eventValue hB]
    exact valueOf_top_event designated htop hext hs i.isLt
  refine AcceptedActions.sameStep_of_after_eq hflat hret hU hord ?_ hf heq hg hne
  intro i t j t' v hv _ hkey
  obtain ⟨hji, htt⟩ := hsep j i t' t v ((i : ℕ) : ℤ) _ _ j.isLt i.isLt t'.isLt t.isLt
    (eventBounds_eventValue hB j ▸ hv) (eventBounds_eventValue hB i ▸ hord i)
    (stateValue_eq t'.isLt) (stateValue_eq t.isLt) hkey
  exact ⟨Fin.ext hji, Fin.ext htt⟩

/-- The transition function of the cell is called with the event by the -tc machine, and with
`noEvent` by the -tss machine. -/
theorem not_singleSwitch_after_eq_table :
    ¬ ∀ top : Machine, top.Accepted → top.machineList = [] → top.actionsReturn = .events →
      ∃ s B, eventEnum false (fun _ => 0) top = some s ∧ eventBounds s [] top = some B ∧
        ∀ (D : AcceptedActions top) (U : UserCode top.StateIdx), U.ReturnsEvents B →
          D.LabelsDistinct B [] →
          ∀ f : Frame (World top.StateIdx), f.e = B.noEvent ∨ IsEvent top B f.e →
            ∀ k, (D.flatLoop U B .singleSwitch).after k (.running f) =
              (D.flatLoop U B .table).after k (.running f) := by
  intro h
  obtain ⟨s, B, hs, hB, h⟩ := h oneCellMachine
    (by simp [oneCellMachine, plainMachine, Machine.Accepted, Machine.AcceptedList]) rfl rfl
  obtain ⟨hno, hord⟩ := oneCellMachine_values hs hB
  set D := oneCellActions (some (.fn "t" [⟨0, by decide⟩])) with hD
  have hU : oneCellCode.ReturnsEvents B := fun _ => .inl hno.symm
  have hzero : B.eventValue 0 = some 0 := hord ⟨0, by decide⟩
  have hlabels : D.LabelsDistinct B [] :=
    fun i j s t _ _ _ _ _ _ _ => ⟨Subsingleton.elim i j, Subsingleton.elim s t⟩
  have hsame := AcceptedActions.sameStep_of_after_eq rfl rfl hU hord
    (fun i s j t v _ _ _ => ⟨Subsingleton.elim j i, Subsingleton.elim t s⟩)
    (f := ⟨⟨⟨0, by decide⟩, []⟩, 0, []⟩) (.inr ⟨⟨0, by decide⟩, hzero⟩)
    (h D oneCellCode hU hlabels _ (.inr ⟨⟨0, by decide⟩, hzero⟩)) (k := 0) rfl (by simp [hno])
  have hfn := hsame.transitionFn ⟨0, by decide⟩ _ "t" [⟨0, by decide⟩] hzero
    (show D.cell ⟨0, by decide⟩ ⟨0, by decide⟩ = some _ from rfl) rfl
  simp [oneCellCode] at hfn

/-- Without a transition function both machines make the same run. -/
theorem exists_singleSwitch_after_eq_table_oneCell :
    ∃ s B, eventEnum false (fun _ => 0) oneCellMachine = some s ∧
      eventBounds s [] oneCellMachine = some B ∧ ∀ k,
        ((oneCellActions none).flatLoop oneCellCode B .singleSwitch).after k
            (.running ⟨⟨⟨0, by decide⟩, []⟩, 0, []⟩) =
          ((oneCellActions none).flatLoop oneCellCode B .table).after k
            (.running ⟨⟨⟨0, by decide⟩, []⟩, 0, []⟩) := by
  obtain ⟨s, B, hs, hB, h⟩ := exists_singleSwitch_after_eq_table false (fun _ => 0)
    (show oneCellMachine.Accepted by
      simp [oneCellMachine, plainMachine, Machine.Accepted, Machine.AcceptedList]) rfl rfl
  obtain ⟨hno, hord⟩ := oneCellMachine_values hs hB
  refine ⟨s, B, hs, hB, ?_⟩
  refine (h (oneCellActions none) oneCellCode (fun _ => .inl hno.symm) _
    (.inr ⟨⟨0, by decide⟩, hord ⟨0, by decide⟩⟩)).1
    (fun i j s t _ _ _ _ _ _ _ => ⟨Subsingleton.elim i j, Subsingleton.elim s t⟩) ?_
  intro k g _ _
  have hcell : ∀ (i : oneCellMachine.EventIdx) (t : oneCellMachine.StateIdx),
      (oneCellActions none).cell i t ≠ none := by
    intro i t
    obtain rfl : i = ⟨0, by decide⟩ := Subsingleton.elim i _
    obtain rfl : t = ⟨0, by decide⟩ := Subsingleton.elim t _
    decide
  refine ⟨fun i hi => Option.some.inj ((hord i).symm.trans hi), ?_, ?_, ?_, ?_, ?_⟩
  · intro i _ hempty
    exact absurd hempty (hcell i _)
  · intro i name _ hempty
    exact absurd hempty (hcell i _)
  · intro i _ _
    rfl
  · intro i _ hfns
    exact absurd (show transitionFnList (oneCellActions none).matrix = [] by decide) hfns
  · intro i pai name returnsDecl _ hcell ht
    have hmem := (oneCellActions none).mem_of_cell hcell
    obtain rfl := List.mem_singleton.mp hmem
    cases ht

end FsmLang
