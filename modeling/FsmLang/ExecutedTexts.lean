import Mathlib.Data.List.Basic
import Mathlib.Tactic
import FsmLang.ParsedMachines
import FsmLang.TableStates

set_option relaxedAutoImplicit false
set_option autoImplicit false

/-!
# Running what has been read

A text says what a machine does: in a state, an event is met by the matrix that names both, and the
machine goes where the transition of this matrix leads, or where its action sends it. No table is
needed to say so. The code that is generated from an accepted text does this step by step.

## Main definitions

* `MachineText.Meets` — a matrix is for an event in a state.
* `MachineText.Goes` — a step of a text.
* `MachineText.FollowsText` — a step of generated code is the one of the text.

## Main results

* `goes_iff` — a text prescribes one state, and it is that of the populated array.
* `runs_of_readFile` — the runs of what is generated from accepted files.
-/

namespace FsmLang

open CSemantics

/-! ## Steps of a text -/

namespace MachineText

variable (m : MachineText)

/-- The matrix is for the event: `all` stands for the declared ones that no translator consumes. -/
def MeetsEvent (v : ActionMatrix Ident Ident) (e : Ident) : Prop :=
  if v.events = .all then
    e ∈ m.own.eventNames ∧ ∀ d ∈ m.own.events, d.name = e → d.consumedByTranslator = false
  else e ∈ vectorNames v.events

/-- The matrix is for the state: `all` stands for the declared ones that no machine implements. -/
def MeetsState (v : ActionMatrix Ident Ident) (s : Ident) : Prop :=
  if v.states = [] then
    s ∈ m.own.stateNames ∧ ∀ d ∈ m.own.states, d.name = s → d.data.implementingMachine = none
  else s ∈ v.states

/-- The matrix is for the event in the state. -/
def Meets (v : ActionMatrix Ident Ident) (e s : Ident) : Prop := m.MeetsEvent v e ∧ m.MeetsState v s

/-- No matrix is for the event in the state. -/
def Unmet (e s : Ident) : Prop := ∀ v ∈ m.own.actionMatrices m.ids, ¬ m.Meets v e s

instance (v : ActionMatrix Ident Ident) (e : Ident) : Decidable (m.MeetsEvent v e) :=
  inferInstanceAs (Decidable (if v.events = .all then
    e ∈ m.own.eventNames ∧ ∀ d ∈ m.own.events, d.name = e → d.consumedByTranslator = false
  else e ∈ vectorNames v.events))

instance (v : ActionMatrix Ident Ident) (s : Ident) : Decidable (m.MeetsState v s) :=
  inferInstanceAs (Decidable (if v.states = [] then
    s ∈ m.own.stateNames ∧ ∀ d ∈ m.own.states, d.name = s → d.data.implementingMachine = none
  else s ∈ v.states))

instance (v : ActionMatrix Ident Ident) (e s : Ident) : Decidable (m.Meets v e s) :=
  inferInstanceAs (Decidable (_ ∧ _))

instance (e s : Ident) : Decidable (m.Unmet e s) :=
  inferInstanceAs (Decidable (∀ v ∈ _, ¬ _))

end MachineText

/-- The state after `t` has been returned in the state `s`. -/
def orStay (s t : Ident) : Ident := if t = .noTransition then s else t

/-- A step of a text whose actions return states, from the state `s` with the event `e`, when the
functions in `calls` have been called: where the machine goes. The functions of transitions have
the machine's name before their own. -/
inductive MachineText.Goes (m : MachineText) (U : UserFns Ident Ident) (ufMachineName : String)
    (calls : List (Call Ident Ident)) (s e : Ident) : Ident → Prop
  | unmet (h : m.Unmet e s) : m.Goes U ufMachineName calls s e s
  | action {v : ActionMatrix Ident Ident} (hv : v ∈ m.own.actionMatrices m.ids)
    (hmeets : m.Meets v e s) (ht : v.transition = none) :
    m.Goes U ufMachineName calls s e (orStay s (U.state (calls ++ [.action v.action])))
  | transition {v : ActionMatrix Ident Ident} (hv : v ∈ m.own.actionMatrices m.ids)
    (hmeets : m.Meets v e s) {t : Ident} (ht : v.transition = some (.state t)) :
    m.Goes U ufMachineName calls s e (orStay s t)
  | transitionFn {v : ActionMatrix Ident Ident} (hv : v ∈ m.own.actionMatrices m.ids)
    (hmeets : m.Meets v e s) {name : String} {decl : List Ident}
    (ht : v.transition = some (.fn name decl)) :
    m.Goes U ufMachineName calls s e
      (orStay s (U.state (calls ++ [.transitionFn (ufMachineName ++ "_" ++ name) none])))

section Goes

variable {m : MachineText} {S : Surroundings} {U : UserFns Ident Ident}
  {v : ActionMatrix Ident Ident} {e s t : Ident} {w : MachineState Ident Ident}

/-- Only the vector of all names no member. -/
lemma vectorNames_eq_nil_iff {x : EventVector Ident} : vectorNames x = [] ↔ x = .all := by
  cases x <;> simp [vectorNames]

/-- An event is none of some kind if no event of its name is. -/
private lemma hasEvent_eq_false_iff {o : OwnText} {p : EventText → Bool} {x : Ident} :
    o.hasEvent p x = false ↔ ∀ d ∈ o.events, d.name = x → p d = false := by
  simp [OwnText.hasEvent]

/-- The matrix's entry is expanded to the events that it is for. -/
lemma mem_expandEvents_iff :
    e ∈ (m.generated S).expandEvents (v.actionInfo m.own.scope) ↔ m.MeetsEvent v e := by
  have hread : (v.actionInfo m.own.scope).eventList = vectorNames v.events :=
    read_fst_eq_vectorNames _ _
  rw [MachineMatrix.expandEvents, hread, MachineText.MeetsEvent]
  by_cases hall : v.events = .all
  · rw [if_pos (vectorNames_eq_nil_iff.mpr hall), if_pos hall, List.mem_filter,
      ← hasEvent_eq_false_iff]
    exact and_congr_right' (iff_of_eq (Bool.not_eq_true' _))
  · rw [if_neg (vectorNames_eq_nil_iff.not.mpr hall), if_neg hall]

/-- And to the states. -/
lemma mem_expandStates_iff :
    s ∈ (m.generated S).expandStates (v.actionInfo m.own.scope) ↔ m.MeetsState v s := by
  have himplemented : (!(m.generated S).implementedBySubMachine s) = true ↔
      ∀ d ∈ m.own.states, d.name = s → d.data.implementingMachine = none := by
    simp [MachineText.generated, OwnText.matrix, OwnText.scope]
  rw [MachineMatrix.expandStates, MachineText.MeetsState]
  by_cases hall : v.states = []
  · rw [if_pos (show (v.actionInfo m.own.scope).stateList = [] from hall), if_pos hall,
      List.mem_filter, himplemented]
    rfl
  · rw [if_neg (show ¬ (v.actionInfo m.own.scope).stateList = [] from hall), if_neg hall]
    rfl

/-- The cell of an event and a state holds the entry of the matrix that is for them. -/
lemma cell_of_meets (h : (m.generated S).ReturnsStates) (hv : v ∈ m.own.actionMatrices m.ids)
    (hmeets : m.Meets v e s) : (m.generated S).cell e s = some (v.actionInfo m.own.scope) :=
  h.cell_of_mem (mem_actionInfoList_generated.mpr ⟨v, hv, rfl⟩) (mem_expandEvents_iff.mpr hmeets.1)
    (mem_expandStates_iff.mpr hmeets.2)

/-- The entry in a cell is that of a matrix for the event and the state. -/
lemma exists_of_cell (h : (m.generated S).ReturnsStates) (he : e ∈ m.own.eventNames)
    (hs : s ∈ m.own.stateNames) {pai : ActionInfo Ident Ident}
    (hcell : (m.generated S).cell e s = some pai) :
    ∃ v ∈ m.own.actionMatrices m.ids, m.Meets v e s ∧ v.actionInfo m.own.scope = pai := by
  obtain ⟨hpai, hevents, hstates⟩ := h.mem_of_cell he hs hcell
  obtain ⟨v, hv, rfl⟩ := mem_actionInfoList_generated.mp hpai
  exact ⟨v, hv, ⟨mem_expandEvents_iff.mp hevents, mem_expandStates_iff.mp hstates⟩, rfl⟩

/-- No matrix is for an event in a state exactly if the cell is empty. -/
lemma unmet_iff (h : (m.generated S).ReturnsStates) (he : e ∈ m.own.eventNames)
    (hs : s ∈ m.own.stateNames) : m.Unmet e s ↔ (m.generated S).cell e s = none := by
  constructor
  · intro hunmet
    by_contra hcell
    obtain ⟨pai, hpai⟩ := Option.ne_none_iff_exists'.mp hcell
    obtain ⟨v, hv, hmeets, -⟩ := exists_of_cell h he hs hpai
    exact hunmet v hv hmeets
  · intro hcell v hv hmeets
    cases hcell.symm.trans (cell_of_meets h hv hmeets)

/-- What is prescribed where a matrix is for the event. -/
lemma prescribed_of_meets (h : (m.generated S).ReturnsStates)
    (hv : v ∈ m.own.actionMatrices m.ids) (hmeets : m.Meets v e w.state) :
    (m.generated S).prescribed U w (.label (.this e)) =
      orStay w.state ((m.generated S).result U (v.actionInfo m.own.scope) w.calls) := by
  rw [RunningMachine.prescribed, cell_of_meets h hv hmeets]
  rfl

/-- **A text prescribes one state**, which is the one that is found in the populated array. -/
theorem goes_iff (h : (m.generated S).ReturnsStates) (he : e ∈ m.own.eventNames)
    (hs : w.state ∈ m.own.stateNames) : m.Goes U S.ufMachineName w.calls w.state e t ↔
      t = (m.generated S).prescribed U w (.label (.this e)) := by
  constructor
  · intro hgoes
    cases hgoes with
    | unmet hunmet => rw [RunningMachine.prescribed, (unmet_iff h he hs).mp hunmet]
    | action hv hmeets ht =>
      rw [prescribed_of_meets h hv hmeets, RunningMachine.result, ActionMatrix.actionInfo, ht]
    | transition hv hmeets ht =>
      rw [prescribed_of_meets h hv hmeets, RunningMachine.result, ActionMatrix.actionInfo, ht]
    | transitionFn hv hmeets ht =>
      rw [prescribed_of_meets h hv hmeets, RunningMachine.result, ActionMatrix.actionInfo, ht]
      rfl
  · rintro rfl
    cases hcell : (m.generated S).cell e w.state with
    | none =>
      have hstay : (m.generated S).prescribed U w (.label (.this e)) = w.state := by
        rw [RunningMachine.prescribed, hcell]
      rw [hstay]
      exact .unmet ((unmet_iff h he hs).mpr hcell)
    | some pai =>
      obtain ⟨v, hv, hmeets, -⟩ := exists_of_cell h he hs hcell
      rw [prescribed_of_meets h hv hmeets, RunningMachine.result, ActionMatrix.actionInfo]
      cases ht : v.transition with
      | none => exact .action hv hmeets ht
      | some r =>
        cases r with
        | state t => exact .transition hv hmeets ht
        | fn name decl => exact .transitionFn hv hmeets ht

end Goes

/-! ## Steps of generated code -/

/-- A step of generated code goes to the one state that the text goes to, and calls the functions
for state changes as it should. -/
structure MachineText.FollowsText (m : MachineText) (S : Surroundings) (U : UserFns Ident Ident)
    (step : MachineState Ident Ident → Ident → MachineState Ident Ident)
    (w : MachineState Ident Ident) (e : Ident) : Prop where
  state : ∀ t, m.Goes U S.ufMachineName w.calls w.state e t ↔ t = (step w e).state
  hooks : (m.generated S).HooksRight w (step w e)

/-- The function for empty cells, where it is called, leaves the machine in its state. -/
def MachineText.UnmetStays (m : MachineText) (S : Surroundings) (U : UserFns Ident Ident)
    (w : MachineState Ident Ident) (e : Ident) : Prop :=
  m.Unmet e w.state →
    orStay w.state (U.state (w.calls ++ [.action (S.emptyCellFn.getD "noAction")])) = w.state

instance (m : MachineText) (S : Surroundings) (U : UserFns Ident Ident)
    (w : MachineState Ident Ident) (e : Ident) : Decidable (m.UnmetStays S U w e) :=
  inferInstanceAs (Decidable (_ → _))

section Runs

variable {namesOnly : Bool} {ms : List MachineText} {top m : MachineText} {S : Surroundings}
  {U : UserFns Ident Ident} {e : Ident} {w : MachineState Ident Ident}

/-- A step of generated code is that of the text if it goes where the matrix says. -/
lemma followsText_iff (h : (m.generated S).ReturnsStates) (he : e ∈ m.own.eventNames)
    (hs : w.state ∈ m.own.stateNames)
    (step : MachineState Ident Ident → Ident → MachineState Ident Ident) :
    m.FollowsText S U step w e ↔ (m.generated S).Followed U step w e := by
  have hstate : (∀ t, m.Goes U S.ufMachineName w.calls w.state e t ↔ t = (step w e).state) ↔
      (step w e).state = (m.generated S).prescribed U w (.label (.this e)) := by
    constructor
    · intro hall
      exact (goes_iff h he hs).mp ((hall _).mpr rfl)
    · intro heq t
      rw [goes_iff h he hs, heq]
  exact ⟨fun hf => ⟨hstate.mp hf.state, hf.hooks⟩, fun hf => ⟨hstate.mpr hf.state, hf.hooks⟩⟩

/-- Nothing in the text is for an event where its cell is empty. -/
lemma unmetStays_iff (h : (m.generated S).ReturnsStates) (he : e ∈ m.own.eventNames)
    (hs : w.state ∈ m.own.stateNames) :
    m.UnmetStays S U w e ↔ (m.generated S).EmptyCellStays U w e := by
  have hstay : ∀ t, orStay w.state t = w.state ↔ t = .noTransition ∨ t = w.state := by
    intro t
    rw [orStay]
    split_ifs with ht
    · simp [ht]
    · simp [ht]
  rw [MachineText.UnmetStays, unmet_iff h he hs, hstay]
  rfl

/-- **From texts to runs.** Let a machine of an accepted file be qualified with actions that return
states, and name neither `noTransition` as one of its states nor an undeclared `noEvent`; let its
events be numbered one after the other, and what is printed for it be a program. Then, with -tss,
if the keys of different events and states are different, every run of its events from a declared
state goes from state to state as the text says, for all functions of the user that return declared
states or `noTransition`; and with -tc, if the user leaves the generated routines as they are, it
does if and only if the function for empty cells leaves the machine in its state wherever no matrix
is for the event. -/
theorem runs_of_readFile (hfile : readFile namesOnly ms = some []) (htop : top ∈ ms)
    (hm : m.Within top) (hstates : .actionsReturn .states ∈ m.own.qualifiers)
    (hnot : .noTransition ∉ m.own.stateNames)
    (hmatrices : ∀ v ∈ m.own.actionMatrices m.ids, .noTransition ∉ v.states ∧
      (.noEvent ∈ vectorNames v.events → .noEvent ∈ m.own.eventNames))
    (hU : ∀ calls, U.state calls ∈ m.own.stateNames ∨ U.state calls = .noTransition)
    (hw : w.state ∈ m.own.stateNames) {es : List Ident} (hes : ∀ e ∈ es, e ∈ m.own.eventNames) :
    (∀ T : RunningMachine.SingleSwitchProgram (m.generated S),
        (m.generated S).Consecutive T.toEventNumbers →
          (m.generated S).KeysSeparate T.toEventNumbers →
            EachStep (T.step U) (m.FollowsText S U (T.step U)) w es) ∧
      ∀ T : RunningMachine.TableProgram (m.generated S),
        (m.generated S).Consecutive T.toEventNumbers →
          (∀ t, U.suppliesTransitionTo t = false) →
            (EachStep (T.step U) (m.FollowsText S U (T.step U)) w es ↔
              EachStep (T.step U) (m.UnmetStays S U) w es) := by
  obtain ⟨parentHasData, hproper⟩ := exists_proper_of_readFile hfile htop hm
  have h : (m.generated S).ReturnsStates := returnsStates_generated hproper hstates hnot hmatrices
  have hmem : ∀ (w : MachineState Ident Ident) (e : Ident), w.state ∈ m.own.stateNames →
      (m.generated S).prescribed U w (.label (.this e)) ∈ m.own.stateNames :=
    fun w e hw => h.prescribed_mem hU hw _
  refine ⟨?_, ?_⟩
  · intro T hN hkeys
    have hstep : ∀ (w : MachineState Ident Ident) (e : Ident), w.state ∈ m.own.stateNames →
        e ∈ m.own.eventNames → (m.generated S).Followed U (T.step U) w e :=
      fun w e hw he =>
        (h.followed_singleSwitch_iff T hN hU hw he).mpr (hkeys.strayCaseStays hw he)
    refine eachStep_of_invariant (I := fun w => w.state ∈ m.own.stateNames)
      (P := fun e => e ∈ m.own.eventNames) ?_ ?_ hw hes
    · intro w e hw he
      exact (followsText_iff h he hw _).mpr (hstep w e hw he)
    · intro w e hw he
      rw [(hstep w e hw he).state]
      exact hmem w e hw
  · intro T hN hkeeps
    refine eachStep_congr (I := fun w => w.state ∈ m.own.stateNames)
      (P := fun e => e ∈ m.own.eventNames) ?_ ?_ hw hes
    · intro w e hw he
      rw [followsText_iff h he hw, unmetStays_iff h he hw]
      exact h.followed_table_iff T hN hU hkeeps hw he
    · intro w e hw he hstays
      have hfollowed := (h.followed_table_iff T hN hU hkeeps hw he).mpr
        ((unmetStays_iff h he hw).mp hstays)
      rw [hfollowed.state]
      exact hmem w e hw

/-- Functions that return the second state of the machine with two states. -/
def secondStateFns : UserFns Ident Ident where
  event _ := .noEvent
  state _ := .of 'b' []
  stateAndFn _ := (.of 'b' [], .of 'b' [])
  suppliesTransitionTo _ := false
  unassigned _ := .of 'a' []

/-- What is printed for it with -tss. -/
def statesSwitchProgram : RunningMachine.SingleSwitchProgram (statesText.generated {}) where
  value _ := 0
  numEvents := 1
  lastEvent := 1
  labels := by decide
  declaresE := .inr (.inl rfl)

/-- And with -tc. -/
def statesTableProgram : RunningMachine.TableProgram (statesText.generated {}) where
  value _ := 0
  numEvents := 1
  lastEvent := 1
  routines := by
    unfold RoutinesComplete
    decide
  declaresE := .inr (.inl rfl)

/-- The event twice: the second time no matrix is for it. -/
theorem runs_of_readFile_statesText :
    EachStep (statesSwitchProgram.step secondStateFns)
        (statesText.FollowsText {} secondStateFns (statesSwitchProgram.step secondStateFns))
        ⟨.of 'a' [], .of 'a' [], []⟩ [.of 'e' [], .of 'e' []] ∧
      EachStep (statesTableProgram.step secondStateFns)
        (statesText.FollowsText {} secondStateFns (statesTableProgram.step secondStateFns))
        ⟨.of 'a' [], .of 'a' [], []⟩ [.of 'e' [], .of 'e' []] := by
  obtain ⟨hswitch, htable⟩ := @runs_of_readFile false [statesText] statesText statesText {}
    secondStateFns ⟨.of 'a' [], .of 'a' [], []⟩ (by decide) (by simp) (.self _) (by decide)
    (by decide) (by decide)
    (fun _ => .inl (show Ident.of 'b' [] ∈ statesText.own.stateNames by decide)) (by decide)
    [.of 'e' [], .of 'e' []] (by decide)
  refine ⟨hswitch statesSwitchProgram ⟨by decide, by decide⟩ ?_, ?_⟩
  · unfold RunningMachine.KeysSeparate
    decide
  · refine (htable statesTableProgram ⟨by decide, by decide⟩ (fun _ => rfl)).mpr ?_
    decide

end Runs

end FsmLang
