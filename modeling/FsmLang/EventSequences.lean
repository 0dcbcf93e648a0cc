import Mathlib.Data.List.Basic
import Mathlib.Tactic
import FsmLang.CSemantics.Runs
import FsmLang.ActionArray
import FsmLang.TransitionLists
import FsmLang.Densities

set_option relaxedAutoImplicit false
set_option autoImplicit false

/-!
# Event sequences

A machine may come with sequences of events, each with the state that the sequence expects next if
it says so. The documentation generators trace a sequence: at each event they read the cell of the
event and the state they are in, go to the expected state or to the one that the cell leads to, and
note where the two disagree or the cell does not tell.

The identifiers `noTransition` and `noEvent` are a state and an event to the parser. A sequence may
start in `noTransition` or expect it, and a cell may lead to it; then the tracer is in a state whose
order is no column of the table.

## Main definitions

* `determineNextState`, `sequenceNode` — one event.
* `EventSequence` — a sequence that the parser accepts.
* `EventSequence.Right` — all states are states of the machine, and without notes the sequence is
  a run of the table.

## Main results

* `next_iff` — what the tracer does at one event.
* `EventSequence.right_iff` — which sequences are traced rightly.
-/

namespace FsmLang

open CSemantics

section Sequences

variable {ε σ : Type*} [DecidableEq ε] [DecidableEq σ]

/-! ## What is traced -/

/-- What is noted at an event. -/
inductive TransitionNote where
  | none
  | stateMismatch
  | fnMismatch
  | fnMatch
  | firstReturn
  | noFnReturnList
  | noFsmTransition
  deriving DecidableEq, Repr

/-- An event of a sequence, with the state that is expected next. -/
structure EventSequenceNode (ε σ : Type*) where
  pevent : ε
  pnewState : Option σ
  deriving DecidableEq, Repr

/-- Where the tracer is, with what has been read and noted at the last event. -/
structure SequenceTracker (σ : Type*) where
  pcurrState : σ
  pcurrTransition : Option (Transition σ)
  pvisitedStates : List σ
  paction : Option String
  note : TransitionNote
  deriving DecidableEq, Repr

/-- An accepted machine. `noEvent` has order -1 if it is marked, and order 0 else. -/
structure SequencedMachine (ε σ : Type*) [DecidableEq ε] [DecidableEq σ] extends
    CapturedMachine ε σ where
  noEventMarked : Bool
  eventList_ne_nil : eventList ≠ []
  stateList_ne_nil : stateList ≠ []

/-- A sequence that the parser accepts. Where it starts, and what it expects next, are states of the
machine or `noTransition`. Any other event than those of the machine is `noEvent`. -/
structure EventSequence (M : SequencedMachine ε σ) where
  startState : Option σ
  sequence : List (EventSequenceNode ε σ)
  startState_declared : ∀ s ∈ startState, s ∈ M.stateList ∨ s = M.noTransition
  sequence_ne_nil : sequence ≠ []
  sequence_declared : ∀ n ∈ sequence, ∀ s ∈ n.pnewState, s ∈ M.stateList ∨ s = M.noTransition

namespace SequencedMachine

variable (M : SequencedMachine ε σ)

/-! ## The tracer -/

/-- The row and the column of an event and a state are in the table. -/
def InTable (e : ε) (s : σ) : Prop :=
  (e ∈ M.eventList ∨ M.noEventMarked = false) ∧ s ∈ M.stateList

instance (e : ε) (s : σ) : Decidable (M.InTable e s) := inferInstanceAs (Decidable (_ ∧ _))

/-- The entry in the cell of an event and a state. -/
def cellPai (e : ε) (s : σ) : Option (ActionInfo ε σ) :=
  (M.actionArray.cell (M.eventOrder e) (M.stateOrder s)).bind (M.actionInfoList[·]?)

/-- The transition of the cell. -/
def cellTransition (e : ε) (s : σ) : Option (Transition σ) :=
  (M.cellPai e s).bind ActionInfo.transition

/-- `get_transition`. -/
def getTransition (e : ε) (s : σ) : Except Fault (Option (Transition σ)) :=
  if M.InTable e s then .ok ((M.cellPai e s).bind ActionInfo.transition)
  else .error .outsideTable

/-- `get_action`. -/
def getAction (e : ε) (s : σ) : Except Fault (Option String) :=
  if M.InTable e s then
    .ok ((M.cellPai e s).bind fun pai => if pai.action = "" then none else some pai.action)
  else .error .outsideTable

end SequencedMachine

omit [DecidableEq ε] in
/-- The next state, and what is noted: by the expected state, if there is one, and the transition of
the cell. -/
def nextStateAndNote (currState : σ) : Option σ → Option (Transition σ) → σ × TransitionNote
  | some t, some (.state u) => (t, if u ≠ t then .stateMismatch else .none)
  | some t, some (.fn _ returnsDecl) => (t, if t ∈ returnsDecl then .fnMatch else .fnMismatch)
  | some t, none => (t, .noFsmTransition)
  | none, some (.state u) => (u, .none)
  | none, some (.fn _ (u :: _)) => (u, .firstReturn)
  | none, some (.fn _ []) => (currState, .noFnReturnList)
  | none, none => (currState, .none)

namespace SequencedMachine

variable (M : SequencedMachine ε σ)

/-- `determine_next_state`. -/
def determineNextState (T : SequenceTracker σ) (n : EventSequenceNode ε σ) :
    Except Fault (SequenceTracker σ) :=
  (M.getTransition n.pevent T.pcurrState).map fun ptransition =>
    let r := nextStateAndNote T.pcurrState n.pnewState ptransition
    { T with
      pcurrState := r.1
      pcurrTransition := ptransition
      pvisitedStates := addUniqueToList T.pvisitedStates r.1
      note := r.2 }

/-- One event of a sequence: the action is looked up, then the next state determined. -/
def sequenceNode (T : SequenceTracker σ) (n : EventSequenceNode ε σ) :
    Except Fault (SequenceTracker σ) :=
  (M.getAction n.pevent T.pcurrState).bind fun paction =>
    (M.determineNextState T n).map fun T' => { T' with paction := paction }

/-- One event is traced, from where the tracer is to where it gets. -/
def Next (T : SequenceTracker σ) (n : EventSequenceNode ε σ) (T' : SequenceTracker σ) : Prop :=
  M.sequenceNode T n = .ok T'

/-- A step of the table: the plain transition of the cell for an event of the machine, or no change
if the cell has none. -/
def TableStep (s : σ) (e : ε) (s' : σ) : Prop :=
  e ∈ M.eventList ∧
    match M.cellTransition e s with
    | none => s' = s
    | some (.state t) => s' = t
    | some (.fn _ _) => False

/-- Where the tracer leads from a state to a state, by the table and the sequence. -/
def LeadsToState (T : SequenceTracker σ) (n : EventSequenceNode ε σ) : Prop :=
  T.pcurrState ≠ M.noTransition ∧ (n.pevent ∈ M.eventList ∨ M.noEventMarked = false) ∧
    match n.pnewState, M.cellTransition n.pevent T.pcurrState with
    | some t, _ => t ≠ M.noTransition
    | none, some (.state t) => t ≠ M.noTransition
    | none, some (.fn _ returnsDecl) => returnsDecl.head? ≠ some M.noTransition
    | none, none => True

/-- The sequence and the table agree: the cell has a plain transition, to the expected state if
there is one, or it has none and no state is expected. -/
def Agrees (T : SequenceTracker σ) (n : EventSequenceNode ε σ) : Prop :=
  match n.pnewState, M.cellTransition n.pevent T.pcurrState with
  | some t, some (.state u) => u = t
  | none, some (.state _) => True
  | none, none => True
  | _, _ => False

end SequencedMachine

namespace EventSequence

variable {M : SequencedMachine ε σ} (seq : EventSequence M)

/-- The initial state: the one that is given, or the machine's first. -/
def initialState : σ := seq.startState.getD (M.stateList.head M.stateList_ne_nil)

/-- The tracer before the first event. -/
def start : SequenceTracker σ := ⟨seq.initialState, none, [seq.initialState], none, .none⟩

/-- All events are traced, to states of the machine; and if nothing is noted at any of them, each is
a step of the table. -/
structure Right : Prop where
  declared : EachReturns M.Next (fun T => T.pcurrState ∈ M.stateList) seq.start seq.sequence
  run : EachReturns M.Next (fun T => T.note = .none) seq.start seq.sequence →
    EachReturns (fun T n T' => M.Next T n T' ∧ M.TableStep T.pcurrState n.pevent T'.pcurrState)
      (fun _ => True) seq.start seq.sequence

end EventSequence

/-! ## One event -/

namespace SequencedMachine

variable {M : SequencedMachine ε σ}

/-- Where the tracer gets at an event whose cell is in the table. -/
def after (M : SequencedMachine ε σ) (T : SequenceTracker σ) (n : EventSequenceNode ε σ) :
    SequenceTracker σ :=
  let r := nextStateAndNote T.pcurrState n.pnewState (M.cellTransition n.pevent T.pcurrState)
  { pcurrState := r.1
    pcurrTransition := M.cellTransition n.pevent T.pcurrState
    pvisitedStates := addUniqueToList T.pvisitedStates r.1
    paction := (M.cellPai n.pevent T.pcurrState).bind fun pai =>
      if pai.action = "" then none else some pai.action
    note := r.2 }

/-- **One event.** The tracer goes on if the cell is in the table, and only then. -/
lemma next_iff {T T' : SequenceTracker σ} {n : EventSequenceNode ε σ} :
    M.Next T n T' ↔ M.InTable n.pevent T.pcurrState ∧ T' = M.after T n := by
  unfold Next sequenceNode determineNextState getAction getTransition
  by_cases h : M.InTable n.pevent T.pcurrState
  · simp only [h, if_true, Except.bind, Except.map, true_and]
    constructor
    · intro hok
      exact (Except.ok.inj hok).symm
    · intro hT'
      rw [hT']
      rfl
  · simp [h, Except.bind]

/-- A node leads to one state of the tracker. -/
lemma next_unique (T : SequenceTracker σ) (n : EventSequenceNode ε σ) (T' T'' : SequenceTracker σ)
    (h : M.Next T n T') (h' : M.Next T n T'') : T' = T'' := by
  rw [(next_iff.mp h).2, (next_iff.mp h').2]

/-- A cell leads to states of the machine, or to `noTransition`. -/
private lemma mem_plainTargets_cellTransition {e : ε} {s t : σ}
    (h : t ∈ plainTargets (M.cellTransition e s)) : t ∈ M.stateList ∨ t = M.noTransition := by
  unfold cellTransition cellPai at h
  match hcell : (M.actionArray.cell (M.eventOrder e) (M.stateOrder s)).bind
      (M.actionInfoList[·]?) with
  | none => simp [hcell, plainTargets] at h
  | some pai =>
    obtain ⟨idx, -, hidx⟩ := Option.bind_eq_some_iff.mp hcell
    rw [hcell, Option.bind_some] at h
    exact M.plainTargets_declared pai (List.mem_of_getElem? hidx) t h

/-- A sequence that leads to a state of the machine leads to one by the table. -/
lemma after_mem_stateList_iff {T : SequenceTracker σ} {n : EventSequenceNode ε σ}
    (hT : T.pcurrState ∈ M.stateList)
    (hn : ∀ s ∈ n.pnewState, s ∈ M.stateList ∨ s = M.noTransition)
    (he : n.pevent ∈ M.eventList ∨ M.noEventMarked = false) :
    (M.after T n).pcurrState ∈ M.stateList ↔ M.LeadsToState T n := by
  have hne : ∀ t, t ∈ M.stateList ∨ t = M.noTransition → (t ∈ M.stateList ↔ t ≠ M.noTransition) := by
    intro t ht
    constructor
    · rintro hmem rfl
      exact M.noTransition_notMem hmem
    · exact fun h => ht.resolve_right h
  have hcurr : T.pcurrState ≠ M.noTransition := (hne _ (.inl hT)).mp hT
  simp only [after, LeadsToState, hcurr, he, ne_eq, not_false_eq_true, true_and]
  have htargets := @mem_plainTargets_cellTransition _ _ _ _ M n.pevent T.pcurrState
  match hnew : n.pnewState, htr : M.cellTransition n.pevent T.pcurrState with
  | some t, some (.state u) => exact hne t (hn t hnew)
  | some t, some (.fn name returnsDecl) => exact hne t (hn t hnew)
  | some t, none => exact hne t (hn t hnew)
  | none, some (.state u) => exact hne u (htargets (by simp [htr, plainTargets]))
  | none, some (.fn name (u :: us)) =>
    have hu := hne u (htargets (by simp [htr, plainTargets]))
    simpa [nextStateAndNote] using hu
  | none, some (.fn name []) => simpa [nextStateAndNote] using hT
  | none, none => simpa [nextStateAndNote] using hT

/-- Nothing is noted where the sequence and the table agree. -/
private lemma after_note_eq_none_iff {T : SequenceTracker σ} {n : EventSequenceNode ε σ} :
    (M.after T n).note = .none ↔ M.Agrees T n := by
  simp only [after, Agrees]
  match n.pnewState, M.cellTransition n.pevent T.pcurrState with
  | some t, some (.state u) =>
    by_cases hut : u = t <;> simp [nextStateAndNote, hut]
  | some t, some (.fn name returnsDecl) =>
    by_cases ht : t ∈ returnsDecl <;> simp [nextStateAndNote, ht]
  | some t, none => simp [nextStateAndNote]
  | none, some (.state u) => simp [nextStateAndNote]
  | none, some (.fn name (u :: us)) => simp [nextStateAndNote]
  | none, some (.fn name []) => simp [nextStateAndNote]
  | none, none => simp [nextStateAndNote]

/-- Where they agree, an event of the machine is a step of the table. -/
private lemma tableStep_after_iff {T : SequenceTracker σ} {n : EventSequenceNode ε σ}
    (h : M.Agrees T n) :
    M.TableStep T.pcurrState n.pevent (M.after T n).pcurrState ↔ n.pevent ∈ M.eventList := by
  simp only [TableStep, after]
  simp only [Agrees] at h
  cases htr : M.cellTransition n.pevent T.pcurrState with
  | none =>
    cases hnew : n.pnewState with
    | none => simp [nextStateAndNote]
    | some t => simp [hnew, htr] at h
  | some transition =>
    cases transition with
    | state u =>
      cases hnew : n.pnewState with
      | none => simp [nextStateAndNote]
      | some t =>
        rw [hnew, htr] at h
        simp [nextStateAndNote, show u = t from h]
    | fn name returnsDecl => cases hnew : n.pnewState <;> simp [hnew, htr] at h

/-! ## A sequence -/

/-- All events are traced to states of the machine where each leads to one. -/
private lemma eachReturns_declared_iff {T : SequenceTracker σ}
    {nodes : List (EventSequenceNode ε σ)}
    (hT : T.pcurrState ∈ M.stateList ∨ T.pcurrState = M.noTransition)
    (hnodes : ∀ n ∈ nodes, ∀ s ∈ n.pnewState, s ∈ M.stateList ∨ s = M.noTransition) :
    EachReturns M.Next (fun T => T.pcurrState ∈ M.stateList) T nodes ↔
      EachMet M.Next M.LeadsToState T nodes := by
  refine eachReturns_iff
    (I := fun T => T.pcurrState ∈ M.stateList ∨ T.pcurrState = M.noTransition) next_unique
    ?_ ?_ hT hnodes
  · intro T n hT hn hleads
    have hmem : T.pcurrState ∈ M.stateList := hT.resolve_right hleads.1
    have hafter := (after_mem_stateList_iff hmem hn hleads.2.1).mpr hleads
    exact ⟨M.after T n, next_iff.mpr ⟨⟨hleads.2.1, hmem⟩, rfl⟩, hafter, .inl hafter⟩
  · intro T n T' _ hn hnext hafter
    obtain ⟨⟨he, hmem⟩, rfl⟩ := next_iff.mp hnext
    exact (after_mem_stateList_iff hmem hn he).mp hafter

/-- Where all events are traced to states of the machine, nothing is noted if the sequence and the
table agree throughout, and then the sequence is a run of the table unless it names `noEvent`. -/
lemma eachReturns_note_iff {T : SequenceTracker σ} {nodes : List (EventSequenceNode ε σ)}
    (h : EachReturns M.Next (fun T => T.pcurrState ∈ M.stateList) T nodes) :
    (EachReturns M.Next (fun T => T.note = .none) T nodes ↔ EachMet M.Next M.Agrees T nodes) ∧
      (EachMet M.Next M.Agrees T nodes →
        (EachReturns
            (fun T n T' => M.Next T n T' ∧ M.TableStep T.pcurrState n.pevent T'.pcurrState)
            (fun _ => True) T nodes ↔ ∀ n ∈ nodes, n.pevent ∈ M.eventList)) := by
  induction nodes generalizing T with
  | nil => exact ⟨Iff.rfl, fun _ => by simp [EachReturns]⟩
  | cons n nodes ih =>
    obtain ⟨T', hnext, -, hrest⟩ := h
    obtain ⟨hnote, htable⟩ := ih hrest
    have hT' := (next_iff.mp hnext).2
    rw [eachReturns_cons_iff next_unique hnext, eachMet_cons_iff next_unique hnext, hnote, hT',
      after_note_eq_none_iff]
    refine ⟨Iff.rfl, fun hagrees => ?_⟩
    have hstep := tableStep_after_iff hagrees.1
    rw [← hT'] at hstep hagrees
    rw [List.forall_mem_cons, ← htable hagrees.2, ← hstep]
    constructor
    · rintro ⟨T'', ⟨hnext', hTT⟩, -, hrest'⟩
      obtain rfl := next_unique T n T' T'' hnext hnext'
      exact ⟨hTT, hrest'⟩
    · rintro ⟨hTT, hrest'⟩
      exact ⟨T', ⟨hnext, hTT⟩, trivial, hrest'⟩

end SequencedMachine

/-- **Event sequences.** For every accepted machine and every accepted sequence of events, all
events are traced to states of the machine, and are steps of the table if nothing is noted, if and
only if each event, where the tracer has got to, leads from a state to a state, and no event is
`noEvent` where the sequence and the table agree throughout.

**Proof sketch.** From a state of the machine the tracer goes to the expected state, to a target of
the cell, or nowhere. All of these are states of the machine or `noTransition`, which the condition
leaves out. Notes say where the sequence and the table differ. -/
theorem EventSequence.right_iff {M : SequencedMachine ε σ} (seq : EventSequence M) :
    seq.Right ↔ EachMet M.Next M.LeadsToState seq.start seq.sequence ∧
      (EachMet M.Next M.Agrees seq.start seq.sequence →
        ∀ n ∈ seq.sequence, n.pevent ∈ M.eventList) := by
  have hstart : seq.start.pcurrState ∈ M.stateList ∨ seq.start.pcurrState = M.noTransition := by
    cases h : seq.startState with
    | none =>
      have hinitial : seq.initialState = M.stateList.head M.stateList_ne_nil := by
        simp [EventSequence.initialState, h]
      left
      show seq.initialState ∈ M.stateList
      rw [hinitial]
      exact List.head_mem _
    | some s =>
      have hinitial : seq.initialState = s := by simp [EventSequence.initialState, h]
      have hs := seq.startState_declared s h
      rw [← hinitial] at hs
      exact hs
  rw [← SequencedMachine.eachReturns_declared_iff hstart seq.sequence_declared]
  constructor
  · rintro ⟨hdeclared, hrun⟩
    obtain ⟨hnote, htable⟩ := SequencedMachine.eachReturns_note_iff hdeclared
    exact ⟨hdeclared, fun hagrees => (htable hagrees).mp (hrun (hnote.mpr hagrees))⟩
  · rintro ⟨hdeclared, hevents⟩
    obtain ⟨hnote, htable⟩ := SequencedMachine.eachReturns_note_iff hdeclared
    exact ⟨hdeclared, fun hnotes => (htable (hnote.mp hnotes)).mpr (hevents (hnote.mp hnotes))⟩

end Sequences

/-- `guard` is declared with `guard returns noTransition, 0;` and is the transition of the only
cell. -/
def noTransitionFirst : SequencedMachine ℕ ℕ where
  eventList := [0]
  stateList := [0]
  consumedByTranslator := fun _ => false
  implementedBySubMachine := fun _ => false
  actionInfoList := [⟨"act", some (.fn "guard" [1, 0]), [0], [0]⟩]
  noTransition := 1
  returnsCondDecl := fun _ => []
  nodup_stateList := by decide
  noTransition_notMem := by decide
  declared := by simp [MachineMatrix.Declared]
  plainTargets_declared := by simp [plainTargets]
  conditionalTargets_declared := by simp [conditionalTargets]
  accepted := by decide
  noEventMarked := true
  eventList_ne_nil := by decide
  stateList_ne_nil := by decide

/-- The event, twice. -/
def twiceTheEvent : EventSequence noTransitionFirst where
  startState := none
  sequence := [⟨0, none⟩, ⟨0, none⟩]
  startState_declared := by simp
  sequence_ne_nil := by simp
  sequence_declared := by simp

/-- The first event is traced to `noTransition`, and the second reads outside of the table. -/
theorem not_right_twiceTheEvent :
    ¬ twiceTheEvent.Right ∧
      (noTransitionFirst.sequenceNode twiceTheEvent.start ⟨0, none⟩).map
        SequenceTracker.pcurrState = .ok 1 ∧
      ((noTransitionFirst.sequenceNode twiceTheEvent.start ⟨0, none⟩).bind fun T =>
        noTransitionFirst.sequenceNode T ⟨0, none⟩) = .error .outsideTable := by
  have hfirst : (noTransitionFirst.sequenceNode twiceTheEvent.start ⟨0, none⟩).map
      SequenceTracker.pcurrState = .ok 1 := by decide
  refine ⟨?_, hfirst, by decide⟩
  rintro ⟨⟨T, hnext, hT, -⟩, -⟩
  rw [SequencedMachine.Next] at hnext
  rw [hnext] at hfirst
  have hstate : T.pcurrState = 1 := Except.ok.inj hfirst
  rw [hstate] at hT
  simp [noTransitionFirst] at hT

end FsmLang
