import Mathlib.Data.List.Nodup
import Mathlib.Tactic
import FsmLang.ActionArray
import FsmLang.HandledEvents
import FsmLang.ReturnDeclarations

set_option relaxedAutoImplicit false
set_option autoImplicit false

/-!
# Transitions into and out of a state

The walk of `populate_action_array` notes for each state the states that a transition leads to
and those that one comes from. The statistics and the documentation count the states with no way
in and no way out by these lists.

A transition function leads to the states it is declared to return. The walk reads one of the two
lists of declared returns, that of the plain declarations, and takes all of its members but the
state itself; `noTransition`, which says that there is no transition, may be among them. What is
declared with `when` or `otherwise` is in the other list.

## Main definitions

* `CapturedMachine` — a machine whose action array has been filled without error.
* `TransitionsNoted` — the lists are those of the cells filled so far.
* `TransitionListsRight` — the lists, and the counts made of them, are the true ones.

## Main results

* `transitionsNoted_populateActionArray` — what the lists hold after the walk.
* `CapturedMachine.transitionListsRight_iff` — when they are the true ones.
-/

namespace FsmLang

open CSemantics

section Lists

variable {ε σ : Type*} [DecidableEq ε] [DecidableEq σ]

/-! ## Where a cell leads -/

omit [DecidableEq σ] in
/-- The state of a transition, or what its function is declared to return without `when` and
`otherwise`. -/
def plainTargets : Option (Transition σ) → List σ
  | none => []
  | some (.state t) => [t]
  | some (.fn _ returnsDecl) => returnsDecl

omit [DecidableEq σ] in
/-- What the function of a transition is declared to return with `when` or `otherwise`. -/
def conditionalTargets (returnsCondDecl : String → List (ReturnChoiceData σ)) :
    Option (Transition σ) → List σ
  | some (.fn name _) => (returnsCondDecl name).map ReturnChoiceData.state
  | _ => []

/-- A machine whose action array has been filled without error. `noTransition` is a state to the
parser, and to it only. An entry for `noTransition` or `noEvent`, whose order is -1, would be
stored outside of the table. -/
structure CapturedMachine (ε σ : Type*) [DecidableEq ε] [DecidableEq σ] extends
    MachineMatrix ε σ where
  noTransition : σ
  returnsCondDecl : String → List (ReturnChoiceData σ)
  nodup_stateList : stateList.Nodup
  noTransition_notMem : noTransition ∉ stateList
  declared : toMachineMatrix.Declared
  plainTargets_declared : ∀ pai ∈ actionInfoList, ∀ t ∈ plainTargets pai.transition,
    t ∈ stateList ∨ t = noTransition
  conditionalTargets_declared : ∀ pai ∈ actionInfoList,
    ∀ t ∈ conditionalTargets returnsCondDecl pai.transition, t ∈ stateList ∨ t = noTransition
  accepted : (populateActionArray toMachineMatrix).error = false

/-- An entry for a state, and for some event, leads to a state. -/
def MachineMatrix.Leads (M : MachineMatrix ε σ) (targets : Option (Transition σ) → List σ)
    (s t : σ) : Prop :=
  ∃ pai ∈ M.actionInfoList, M.expandEvents pai ≠ [] ∧ s ∈ M.expandStates pai ∧
    t ∈ targets pai.transition

/-- A cell of a state leads to a state. -/
def MachineMatrix.leadsTo (M : MachineMatrix ε σ) (A : ActionArray ε σ)
    (targets : Option (Transition σ) → List σ) (s t : σ) : Bool :=
  M.eventList.any fun e =>
    ((A.cell (M.eventOrder e) (M.stateOrder s)).bind (M.actionInfoList[·]?)).any
      fun pai => decide (t ∈ targets pai.transition)

/-! ## Counting -/

/-- `count_states_with_no_way_in`. The first state has a way in, by default. -/
def countStatesWithNoWayIn (stateList : List σ) (pinboundTransitions : σ → List σ) : ℕ :=
  stateList.zipIdx.countP fun x => decide (x.2 ≠ 0 ∧ (pinboundTransitions x.1).length = 0)

/-- `count_states_with_no_way_out`. -/
def countStatesWithNoWayOut (stateList : List σ) (poutboundTransitions : σ → List σ) : ℕ :=
  stateList.countP fun s => decide ((poutboundTransitions s).length = 0)

/-- The action array. -/
def CapturedMachine.actionArray (M : CapturedMachine ε σ) : ActionArray ε σ :=
  populateActionArray M.toMachineMatrix

/-- A cell of a state has another state as its transition or as a declared return of its transition
function. -/
def CapturedMachine.wayFromTo (M : CapturedMachine ε σ) (s t : σ) : Bool :=
  decide (t ≠ s) && M.leadsTo M.actionArray
    (fun tr => plainTargets tr ++ conditionalTargets M.returnsCondDecl tr) s t

/-- The lists hold the states that there is a way to and from, each once, and the counts are those
of the states, after the first, that there is no way to, and of the states that there is no way
from. -/
structure CapturedMachine.TransitionListsRight (M : CapturedMachine ε σ) : Prop where
  outbound : ∀ s ∈ M.stateList, ∀ t, t ∈ M.actionArray.poutboundTransitions s ↔
    t ∈ M.stateList ∧ M.wayFromTo s t = true
  inbound : ∀ t ∈ M.stateList, ∀ s, s ∈ M.actionArray.pinboundTransitions t ↔
    s ∈ M.stateList ∧ M.wayFromTo s t = true
  nodup : ∀ s ∈ M.stateList, (M.actionArray.poutboundTransitions s).Nodup ∧
    (M.actionArray.pinboundTransitions s).Nodup
  noWayIn : countStatesWithNoWayIn M.stateList M.actionArray.pinboundTransitions =
    M.stateList.zipIdx.countP fun x => decide (x.2 ≠ 0 ∧ ∀ s ∈ M.stateList, M.wayFromTo s x.1 = false)
  noWayOut : countStatesWithNoWayOut M.stateList M.actionArray.poutboundTransitions =
    M.stateList.countP fun s => decide (∀ t ∈ M.stateList, M.wayFromTo s t = false)

/-! ## What the walk notes -/

/-- The lists are those of the cells that have been filled. -/
structure TransitionsNoted (M : MachineMatrix ε σ) (done : List ((ε × σ) × ℕ))
    (A : ActionArray ε σ) : Prop extends Filled M done A where
  outbound : ∀ s t, t ∈ A.poutboundTransitions s ↔
    t ≠ s ∧ ∃ e idx pai, ((e, s), idx) ∈ done ∧ M.actionInfoList[idx]? = some pai ∧
      t ∈ plainTargets pai.transition
  inbound : ∀ s t, s ∈ A.pinboundTransitions t ↔ t ∈ A.poutboundTransitions s
  nodup_outbound : ∀ s, (A.poutboundTransitions s).Nodup
  nodup_inbound : ∀ t, (A.pinboundTransitions t).Nodup

/-- Adding one state to the lists of several. -/
private lemma mem_foldl_addUniqueAt {l : List σ} {f : σ → List σ} {a b t : σ} :
    b ∈ l.foldl (fun f k => addUniqueAt f k a) f t ↔ b ∈ f t ∨ t ∈ l ∧ b = a := by
  induction l generalizing f with
  | nil => simp
  | cons k l ih =>
    rw [List.foldl_cons, ih, mem_addUniqueAt, List.mem_cons]
    tauto

/-- Adding a state to several lists makes no duplicates. -/
private lemma nodup_foldl_addUniqueAt {l : List σ} {f : σ → List σ} (h : ∀ k, (f k).Nodup)
    (a t : σ) :
    (l.foldl (fun f k => addUniqueAt f k a) f t).Nodup := by
  induction l generalizing f with
  | nil => exact h t
  | cons k l ih => exact ih (nodup_addUniqueAt h k a)

omit [DecidableEq ε] in
/-- What `recordTransition` adds to the lists of outbound transitions. -/
lemma mem_recordTransition_outbound (A : ActionArray ε σ) (tr : Option (Transition σ))
    (s s' t : σ) :
    t ∈ (recordTransition A tr s).poutboundTransitions s' ↔
      t ∈ A.poutboundTransitions s' ∨ s' = s ∧ t ≠ s ∧ t ∈ plainTargets tr := by
  match tr with
  | none => simp [recordTransition, plainTargets]
  | some (.state u) =>
    by_cases hu : u = s
    · subst hu
      simp [recordTransition, plainTargets]
    · simp only [recordTransition, if_neg hu, mem_addUniqueAt, plainTargets, List.mem_singleton]
      constructor
      · rintro (h | ⟨hs, rfl⟩)
        · exact .inl h
        · exact .inr ⟨hs, hu, rfl⟩
      · rintro (h | ⟨hs, -, ht⟩)
        · exact .inl h
        · exact .inr ⟨hs, ht⟩
  | some (.fn name returnsDecl) =>
    by_cases hs : s' = s
    · subst hs
      simp only [recordTransition, Function.update_self, mem_foldl_addUniqueToList,
        List.mem_filter, decide_eq_true_eq, plainTargets, true_and]
      tauto
    · simp [recordTransition, hs]

omit [DecidableEq ε] in
/-- What it adds to the lists of inbound transitions. -/
private lemma mem_recordTransition_inbound (A : ActionArray ε σ) (tr : Option (Transition σ))
    (s s' t : σ) :
    s' ∈ (recordTransition A tr s).pinboundTransitions t ↔
      s' ∈ A.pinboundTransitions t ∨ s' = s ∧ t ≠ s ∧ t ∈ plainTargets tr := by
  match tr with
  | none => simp [recordTransition, plainTargets]
  | some (.state u) =>
    by_cases hu : u = s
    · subst hu
      simp [recordTransition, plainTargets]
    · simp only [recordTransition, if_neg hu, mem_addUniqueAt, plainTargets, List.mem_singleton]
      constructor
      · rintro (h | ⟨rfl, hs⟩)
        · exact .inl h
        · exact .inr ⟨hs, hu, rfl⟩
      · rintro (h | ⟨hs, -, ht⟩)
        · exact .inl h
        · exact .inr ⟨ht, hs⟩
  | some (.fn name returnsDecl) =>
    simp only [recordTransition, mem_foldl_addUniqueAt, List.mem_filter, decide_eq_true_eq,
      plainTargets]
    tauto

omit [DecidableEq ε] in
/-- Recording a transition makes no duplicates. -/
private lemma nodup_recordTransition (A : ActionArray ε σ) (tr : Option (Transition σ)) (s : σ)
    (hout : ∀ s, (A.poutboundTransitions s).Nodup) (hin : ∀ t, (A.pinboundTransitions t).Nodup)
    (s' : σ) :
    ((recordTransition A tr s).poutboundTransitions s').Nodup ∧
      ((recordTransition A tr s).pinboundTransitions s').Nodup := by
  match tr with
  | none => exact ⟨hout s', hin s'⟩
  | some (.state u) =>
    simp only [recordTransition]
    split_ifs
    · exact ⟨hout s', hin s'⟩
    · exact ⟨nodup_addUniqueAt hout s u s', nodup_addUniqueAt hin u s s'⟩
  | some (.fn name returnsDecl) =>
    refine ⟨?_, nodup_foldl_addUniqueAt hin s s'⟩
    by_cases hs : s' = s
    · subst hs
      simpa [recordTransition] using nodup_foldl_addUniqueToList (hout s')
    · simpa [recordTransition, hs] using hout s'

/-- Storing an entry in a free cell notes its transition; nothing else that it notes touches the
lists. -/
private lemma exists_addToActionArray_eq {M : MachineMatrix ε σ} {e : ε} {A : ActionArray ε σ}
    {s : σ}
    (h : A.cell (M.eventOrder e) (M.stateOrder s) = none) (idx : ℕ) (pai : ActionInfo ε σ) :
    ∃ B, (addToActionArray M idx pai e A s).1 = recordTransition B pai.transition s ∧
      B.poutboundTransitions = A.poutboundTransitions ∧
      B.pinboundTransitions = A.pinboundTransitions := by
  simp only [addToActionArray, h]
  refine ⟨_, rfl, ?_, ?_⟩ <;>
    unfold recordHandling recordSinglePai recordAction <;> split_ifs <;> rfl

/-- One state of an entry, for one event. -/
private lemma stepSpec_transitionsNoted {M : MachineMatrix ε σ} {idx : ℕ} {pai : ActionInfo ε σ}
    (hpai : M.actionInfoList[idx]? = some pai) {e : ε} (he : e ∈ M.eventList) {s : σ}
    (hs : s ∈ M.stateList) (done : List ((ε × σ) × ℕ)) (A : ActionArray ε σ)
    (h : TransitionsNoted M done A) :
    StepSpec (TransitionsNoted M) NamedTwice (fun A => A.error = true) done [((e, s), idx)]
      (addToActionArray M idx pai e A s) := by
  apply (stepSpec_addToActionArray idx pai he hs done A h.toFilled).of_good
  intro hr hfilled
  have hfree : A.cell (M.eventOrder e) (M.stateOrder s) = none := by
    cases hcell : A.cell (M.eventOrder e) (M.stateOrder s) with
    | none => rfl
    | some idx' => simp [addToActionArray, hcell] at hr
  obtain ⟨B, hB, hout, hin⟩ := exists_addToActionArray_eq hfree idx pai
  rw [hB] at hfilled ⊢
  have hnodup := nodup_recordTransition B pai.transition s (by rw [hout]; exact h.nodup_outbound)
    (by rw [hin]; exact h.nodup_inbound)
  refine ⟨hfilled, fun s' t => ?_, fun s' t => ?_, fun s' => (hnodup s').1, fun s' => (hnodup s').2⟩
  · rw [mem_recordTransition_outbound, hout, h.outbound]
    constructor
    · rintro (⟨hne, e', idx', pai', hmem, hidx', ht⟩ | ⟨rfl, hne, ht⟩)
      · exact ⟨hne, e', idx', pai', List.mem_append_left _ hmem, hidx', ht⟩
      · exact ⟨hne, e, idx, pai, by simp, hpai, ht⟩
    · rintro ⟨hne, e', idx', pai', hmem, hidx', ht⟩
      rcases List.mem_append.mp hmem with hmem | hmem
      · exact .inl ⟨hne, e', idx', pai', hmem, hidx', ht⟩
      · -- the cell that has just been filled
        obtain ⟨⟨-, rfl⟩, rfl⟩ : (e' = e ∧ s' = s) ∧ idx' = idx := by simpa using hmem
        obtain rfl : pai = pai' := Option.some.inj (hpai.symm.trans hidx')
        exact .inr ⟨rfl, hne, ht⟩
  · rw [mem_recordTransition_outbound, mem_recordTransition_inbound, hout, hin, h.inbound]

/-- All states of an entry, for one event. -/
private lemma stepSpec_transitionsNoted_event {M : MachineMatrix ε σ} {pai : ActionInfo ε σ × ℕ}
    (hpai : M.actionInfoList[pai.2]? = some pai.1) (hstates : M.expandStates pai.1 ⊆ M.stateList)
    {e : ε} (he : e ∈ M.eventList) (done : List ((ε × σ) × ℕ)) (A : ActionArray ε σ)
    (h : TransitionsNoted M done A) :
    StepSpec (TransitionsNoted M) NamedTwice (fun A => A.error = true) done (namedByEvent M pai e)
      (iterateMatrixStates M pai.2 pai.1 A e) := by
  have hbegin : TransitionsNoted M done (beginEvent A pai.2 e) :=
    ⟨⟨h.nodup, h.declared, h.cell, rfl⟩, h.outbound, h.inbound, h.nodup_outbound, h.nodup_inbound⟩
  have hwalk := StepSpec.iterate (M.expandStates pai.1)
    (fun s hs done A hA => stepSpec_transitionsNoted hpai he (hstates hs) done A hA) done _ hbegin
  rw [← List.map_eq_flatMap] at hwalk
  refine StepSpec.report (fun _ _ hA => hA.error) hwalk (fun hr => ?_) (endEvent_error _ _ _)
  -- what is noted at the end concerns the event only
  unfold endEvent
  split_ifs
  · exact ⟨hr.toFilled.congr rfl rfl, hr.outbound, hr.inbound, hr.nodup_outbound, hr.nodup_inbound⟩
  · exact hr

/-- **What the lists hold.** After a walk without error the lists are those of all cells that the
entries name. -/
theorem transitionsNoted_populateActionArray {M : MachineMatrix ε σ} (hM : M.Declared)
    (hno : (populateActionArray M).error = false) :
    TransitionsNoted M (namedCells M) (populateActionArray M) := by
  have hfresh : TransitionsNoted M [] (ActionArray.fresh : ActionArray ε σ) :=
    ⟨⟨by simp, by simp, by simp [ActionArray.fresh], rfl⟩, by simp [ActionArray.fresh],
      by simp [ActionArray.fresh], by simp [ActionArray.fresh], by simp [ActionArray.fresh]⟩
  have hwalk := StepSpec.iterate M.actionInfoList.zipIdx (fun pai hpai done A hA => by
    have hidx : M.actionInfoList[pai.2]? = some pai.1 := List.mem_zipIdx_iff_getElem?.mp hpai
    have hmem : pai.1 ∈ M.actionInfoList := List.mem_of_getElem? hidx
    have hevents := StepSpec.iterate (M.expandEvents pai.1)
      (fun e he done A hA => stepSpec_transitionsNoted_event hidx (hM.expandStates_subset hmem)
        (hM.expandEvents_subset hmem he) done A hA) done A hA
    exact StepSpec.report (fun _ _ hA => hA.error) hevents id rfl) [] _ hfresh
  cases h : (iterate (processActionInfo M) ActionArray.fresh M.actionInfoList.zipIdx).2 with
  | false => exact hwalk.good h
  | true =>
    have herror : (populateActionArray M).error = true := hwalk.failed h
    rw [hno] at herror
    cases herror

/-! ## When the lists are the true ones -/

omit [DecidableEq ε] [DecidableEq σ] in
/-- A state leads where an entry for it does. -/
lemma exists_namedCells_iff {M : MachineMatrix ε σ} {targets : Option (Transition σ) → List σ}
    {s t : σ} :
    (∃ e idx pai, ((e, s), idx) ∈ namedCells M ∧ M.actionInfoList[idx]? = some pai ∧
      t ∈ targets pai.transition) ↔ M.Leads targets s t := by
  constructor
  · rintro ⟨e, idx, pai, hmem, hidx, ht⟩
    obtain ⟨pai', hidx', he, hs⟩ := mem_namedCells.mp hmem
    obtain rfl : pai' = pai := Option.some.inj (hidx'.symm.trans hidx)
    exact ⟨pai', List.mem_of_getElem? hidx, List.ne_nil_of_mem he, hs, ht⟩
  · rintro ⟨pai, hpai, hevents, hs, ht⟩
    obtain ⟨idx, hidx⟩ := List.getElem?_of_mem hpai
    obtain ⟨e, he⟩ := List.exists_mem_of_ne_nil _ hevents
    exact ⟨e, idx, pai, mem_namedCells.mpr ⟨pai, hidx, he, hs⟩, hidx, ht⟩

/-- What the cells of a state lead to. -/
private lemma leadsTo_eq_true_iff {M : MachineMatrix ε σ} {A : ActionArray ε σ}
    (hA : Filled M (namedCells M) A) {targets : Option (Transition σ) → List σ} {s t : σ}
    (hs : s ∈ M.stateList) : M.leadsTo A targets s t = true ↔ M.Leads targets s t := by
  rw [← exists_namedCells_iff]
  simp only [MachineMatrix.leadsTo, List.any_eq_true, Option.any_eq_true, Option.bind_eq_some_iff,
    decide_eq_true_eq]
  constructor
  · rintro ⟨e, he, pai, ⟨idx, hcell, hidx⟩, ht⟩
    exact ⟨e, idx, pai, (hA.cell_order he hs idx).mp hcell, hidx, ht⟩
  · rintro ⟨e, idx, pai, hmem, hidx, ht⟩
    have he := (hA.declared _ hmem).1
    exact ⟨e, he, pai, ⟨idx, (hA.cell_order he hs idx).mpr hmem, hidx⟩, ht⟩

namespace CapturedMachine

variable (M : CapturedMachine ε σ)

/-- The walk has noted the transitions. -/
lemma transitionsNoted : TransitionsNoted M.toMachineMatrix (namedCells M.toMachineMatrix)
    M.actionArray :=
  transitionsNoted_populateActionArray M.declared M.accepted

/-- A state leads where one of two kinds of targets does. -/
private lemma leads_append {targets targets' : Option (Transition σ) → List σ} {s t : σ} :
    M.Leads (fun tr => targets tr ++ targets' tr) s t ↔
      M.Leads targets s t ∨ M.Leads targets' s t := by
  simp only [MachineMatrix.Leads, List.mem_append]
  constructor
  · rintro ⟨pai, hpai, hevents, hs, ht | ht⟩
    · exact .inl ⟨pai, hpai, hevents, hs, ht⟩
    · exact .inr ⟨pai, hpai, hevents, hs, ht⟩
  · rintro (⟨pai, hpai, hevents, hs, ht⟩ | ⟨pai, hpai, hevents, hs, ht⟩)
    · exact ⟨pai, hpai, hevents, hs, .inl ht⟩
    · exact ⟨pai, hpai, hevents, hs, .inr ht⟩

variable {M} in
/-- The states that there is a way to. -/
lemma wayFromTo_eq_true_iff {s t : σ} (hs : s ∈ M.stateList) :
    M.wayFromTo s t = true ↔ t ≠ s ∧
      (M.Leads plainTargets s t ∨ M.Leads (conditionalTargets M.returnsCondDecl) s t) := by
  rw [wayFromTo, Bool.and_eq_true, decide_eq_true_eq,
    leadsTo_eq_true_iff M.transitionsNoted.toFilled hs, leads_append]

variable {M} in
/-- The states in the list of outbound transitions. -/
lemma mem_outbound_iff {s t : σ} :
    t ∈ M.actionArray.poutboundTransitions s ↔ t ≠ s ∧ M.Leads plainTargets s t := by
  rw [M.transitionsNoted.outbound, exists_namedCells_iff]

variable {M} in
/-- An entry leads from a state of the machine. -/
lemma mem_stateList_of_leads {targets : Option (Transition σ) → List σ} {s t : σ}
    (h : M.Leads targets s t) : s ∈ M.stateList := by
  obtain ⟨pai, hpai, -, hs, -⟩ := h
  exact M.declared.expandStates_subset hpai hs

omit [DecidableEq ε] [DecidableEq σ] in
/-- A list is empty when it has none of the members that it should. -/
lemma length_eq_zero_iff_of_mem {l states : List σ} {way : σ → Bool}
    (h : ∀ a, a ∈ l ↔ a ∈ states ∧ way a = true) :
    l.length = 0 ↔ ∀ a ∈ states, way a = false := by
  rw [List.length_eq_zero_iff, List.eq_nil_iff_forall_not_mem]
  refine forall_congr' fun a => ?_
  rw [h, not_and, Bool.not_eq_true]

/-- **Ways in and out.** In every machine whose action array is filled without error, the lists of
transitions out of and into each state hold exactly the other states that some cell of the state
leads to, and that have a cell leading to it, each once, and the states with no way in and no way
out are counted rightly, if and only if no entry for a state leads to `noTransition` by its
transition or a plain declaration, and every other state that an entry for a state leads to by a
declaration with `when` or `otherwise` is one that an entry for the state leads to without.

**Proof sketch.** The walk adds to both lists at once, for each cell, the state or the plain
returns of the transition. So after the walk they hold what plain targets lead to; that is what all
targets lead to, less `noTransition`, under the condition only. -/
theorem transitionListsRight_iff :
    M.TransitionListsRight ↔ ∀ s ∈ M.stateList, ¬ M.Leads plainTargets s M.noTransition ∧
      ∀ t ∈ M.stateList, t ≠ s → M.Leads (conditionalTargets M.returnsCondDecl) s t →
        M.Leads plainTargets s t := by
  constructor
  · intro h s hs
    refine ⟨fun hno => ?_, fun t ht hne hcond => ?_⟩
    · have hns : M.noTransition ≠ s := fun heq => M.noTransition_notMem (heq ▸ hs)
      have hmem := (h.outbound s hs M.noTransition).mp (mem_outbound_iff.mpr ⟨hns, hno⟩)
      exact M.noTransition_notMem hmem.1
    · have hway := (wayFromTo_eq_true_iff hs).mpr ⟨hne, .inr hcond⟩
      exact (mem_outbound_iff.mp ((h.outbound s hs t).mpr ⟨ht, hway⟩)).2
  · intro h
    have hplain : ∀ s t, M.Leads plainTargets s t → t ∈ M.stateList := by
      intro s t hlead
      obtain ⟨pai, hpai, -, -, ht⟩ := id hlead
      rcases M.plainTargets_declared pai hpai t ht with hmem | rfl
      · exact hmem
      · exact absurd hlead (h s (mem_stateList_of_leads hlead)).1
    have hout : ∀ s ∈ M.stateList, ∀ t, t ∈ M.actionArray.poutboundTransitions s ↔
        t ∈ M.stateList ∧ M.wayFromTo s t = true := by
      intro s hs t
      rw [mem_outbound_iff, wayFromTo_eq_true_iff hs]
      constructor
      · rintro ⟨hne, hlead⟩
        exact ⟨hplain s t hlead, hne, .inl hlead⟩
      · rintro ⟨ht, hne, hlead | hlead⟩
        · exact ⟨hne, hlead⟩
        · exact ⟨hne, (h s hs).2 t ht hne hlead⟩
    have hin : ∀ t ∈ M.stateList, ∀ s, s ∈ M.actionArray.pinboundTransitions t ↔
        s ∈ M.stateList ∧ M.wayFromTo s t = true := by
      intro t ht s
      rw [M.transitionsNoted.inbound]
      constructor
      · intro hmem
        have hs := mem_stateList_of_leads (mem_outbound_iff.mp hmem).2
        exact ⟨hs, ((hout s hs t).mp hmem).2⟩
      · rintro ⟨hs, hway⟩
        exact (hout s hs t).mpr ⟨ht, hway⟩
    refine ⟨hout, hin, fun s _ => ⟨M.transitionsNoted.nodup_outbound s,
      M.transitionsNoted.nodup_inbound s⟩, ?_, ?_⟩
    · refine List.countP_congr fun x hx => ?_
      have hmem : x.1 ∈ M.stateList := List.fst_mem_of_mem_zipIdx hx
      rw [decide_eq_true_eq, decide_eq_true_eq, length_eq_zero_iff_of_mem (hin x.1 hmem)]
    · refine List.countP_congr fun s hs => ?_
      rw [decide_eq_true_eq, decide_eq_true_eq, length_eq_zero_iff_of_mem (hout s hs)]

end CapturedMachine

end Lists

/-- `guard` is declared with `guard returns 1 when ready, 0 otherwise;` and is the transition of the
only cell of state 0; state 1 has no cell. -/
def conditionalGuard : CapturedMachine ℕ ℕ where
  eventList := [0]
  stateList := [0, 1]
  consumedByTranslator := fun _ => false
  implementedBySubMachine := fun _ => false
  actionInfoList := [⟨"act", some (.fn "guard" []), [0], [0]⟩]
  noTransition := 2
  returnsCondDecl := fun _ => [⟨1, some "ready", false⟩, ⟨0, none, true⟩]
  nodup_stateList := by decide
  noTransition_notMem := by decide
  declared := by simp [MachineMatrix.Declared]
  plainTargets_declared := by simp [plainTargets]
  conditionalTargets_declared := by simp [conditionalTargets]
  accepted := by decide

/-- There is a way from state 0 to state 1, which is in neither list, and state 1 is counted as one
with no way in. -/
theorem not_transitionListsRight_conditionalGuard :
    ¬ conditionalGuard.TransitionListsRight ∧ conditionalGuard.wayFromTo 0 1 = true ∧
      conditionalGuard.actionArray.poutboundTransitions 0 = [] ∧
      conditionalGuard.actionArray.pinboundTransitions 1 = [] ∧
      countStatesWithNoWayIn [0, 1] conditionalGuard.actionArray.pinboundTransitions = 1 := by
  have hway : conditionalGuard.wayFromTo 0 1 = true := by decide
  have hout : conditionalGuard.actionArray.poutboundTransitions 0 = [] := by decide
  refine ⟨fun h => ?_, hway, hout, by decide, by decide⟩
  have hmem := (h.outbound 0 (by decide) 1).mpr ⟨by decide, hway⟩
  rw [hout] at hmem
  simp at hmem

end FsmLang
