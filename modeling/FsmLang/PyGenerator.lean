import Mathlib.Data.List.Basic
import Mathlib.Tactic
import FsmLang.ActionArray
import FsmLang.CSemantics.Lists
import FsmLang.ConsolidatedCases
import FsmLang.ReturnDeclarations

set_option relaxedAutoImplicit false
set_option autoImplicit false

/-!
# The PyTransitions generator

For a flat machine the generator prints a Python class with the machine's states, a list of
transitions, a dictionary of the actions of all cells, and the function `_fsm_prepare_event` that
looks an action up and calls it. The transitions are printed for the records of the consolidated
action list, as lists or as dictionaries; a transition function becomes one transition for each of
its choices, `noTransition` included.

Commas depend on a flag that is shared by the entries and by the names of source states within an
entry. Whether actions are called by `_fsm_prepare_event` is found out before, in a pass of its own.

An identifier of the machine stands for its name. Names that clash with attributes that the library
gives to a model are left out.

## Main definitions

* `PyMachine` — what the generator reads; `ConditionalMachine` — a flat machine that the parser
  accepts, whose transition functions have conditional returns.
* `PyClass` — a class as Python reads it.
* `printTransitions`, `printActionsDict` — what is printed; `PyMachine.generated` — what Python
  reads.

## Main results

* `cell_eq_some_iff` — the cells, by the entries.
* `generated_eq` — the class can be read, with all transitions in their order.
-/

namespace FsmLang

open CSemantics

/-! ## The machine -/

/-- What the generator reads of a machine. For an event with data `userEventData` gives its
translator, if one is named. The states include `noTransition`. -/
structure PyMachine (ε σ : Type*) where
  matrix : MachineMatrix ε σ
  noTransition : σ
  eventName : ε → String
  stateName : σ → String
  userEventData : ε → Option (Option String) := fun _ => none
  returnsCondDecl : String → List (ReturnChoiceData σ) := fun _ => []
  machineTransition : Option String := none
  entryFn : σ → Option String := fun _ => none
  exitFn : σ → Option String := fun _ => none

/-- The choices of a conditional returns declaration: some with `when`, and at the end one with
`otherwise`. -/
structure ConditionalReturns (σ : Type*) where
  whens : List (σ × String)
  otherwise : σ
  deriving DecidableEq, Repr

/-- The choices as they are written. -/
def ConditionalReturns.choices {σ : Type*} (R : ConditionalReturns σ) : List (Choice σ) :=
  R.whens.map (fun w => .when w.1 w.2) ++ [.otherwise R.otherwise]

/-! ## What Python reads -/

/-- A state of the printed list. -/
structure PyState (σ : Type*) where
  name : σ
  onEnter : Option String
  onExit : Option String
  deriving DecidableEq, Repr

/-- The source states of an entry, in brackets unless there is only one. -/
structure PrintedSource (σ : Type*) where
  brackets : Bool
  names : List (Separated σ)
  deriving DecidableEq, Repr

/-- An entry of the transitions list, as a list or as a dictionary. A missing `dest` is `None`. -/
inductive PrintedEntry (ε σ : Type*) where
  | list (trigger : ε) (source : PrintedSource σ) (dest : Option σ)
  | dict (trigger : ε) (source : PrintedSource σ) (dest : Option σ) (before : Option String)
      (condition : Option String)
  deriving DecidableEq, Repr

/-- A transition of the library's machine. -/
structure PyTransition (ε σ : Type*) where
  trigger : ε
  source : σ
  dest : Option σ
  before : Option String
  condition : Option String
  deriving DecidableEq, Repr

/-- The source states of an entry, as they are read. -/
def readSource {σ : Type*} : PrintedSource σ → Option (List σ)
  | ⟨true, names⟩ => readSeparated names
  | ⟨false, [⟨false, s⟩]⟩ => some [s]
  | ⟨false, _⟩ => none

/-- An entry is a transition for each of its source states. -/
def readEntry {ε σ : Type*} : PrintedEntry ε σ → Option (List (PyTransition ε σ))
  | .list e source dest =>
    (readSource source).map fun l => l.map fun s => ⟨e, s, dest, none, none⟩
  | .dict e source dest before condition =>
    (readSource source).map fun l => l.map fun s => ⟨e, s, dest, before, condition⟩

/-- The class. The dictionaries of translators and of actions may be missing; with that of actions
comes `_fsm_prepare_event`. -/
structure PyClass (ε σ : Type*) where
  states : List (PyState σ)
  transitions : List (PyTransition ε σ)
  fsmTranslators : Option (List (ε × String))
  fsmActions : Option (List ((σ × ε) × String))
  afterStateChange : Option String
  deriving DecidableEq, Repr

/-! ## What is printed -/

namespace PyMachine

variable {ε σ : Type*} [DecidableEq ε] [DecidableEq σ] (D : PyMachine ε σ)

/-- The consolidated list of the machine's entries. -/
def consolidated : List (Cluster (ActionInfo ε σ)) := D.matrix.consolidateActionInfoList

/-- An event with data is printed (`scan_event`). -/
def usesEventData : Bool :=
  D.consolidated.any fun c => c.members.any fun p =>
    (D.matrix.expandEvents p).any fun e => (D.userEventData e).isSome

/-- Some entry has a named action (`scan_consolidated`). -/
def usesActions : Bool := D.consolidated.any fun c => c.leader.action ≠ ""

/-- Actions are called by `_fsm_prepare_event`. -/
def usesPrepareEvent : Bool := D.usesEventData || D.usesActions

/-- The names of source states; they share the flag of the entries, which is set before. -/
def printSource (states : List σ) : PrintedSource σ :=
  ⟨1 < states.length, (printList printMember true states).1⟩

/-- The `before` callback of a dictionary entry. -/
def before (pai : ActionInfo ε σ) : Option String :=
  if pai.action ≠ "" ∧ D.usesPrepareEvent = false then some pai.action else none

/-- The destination of an entry without transition function. -/
def plainDest : Option (Transition σ) → Option σ
  | some (.state t) => some t
  | _ => none

/-- The synthesized condition for a state. -/
def chooseState (s : σ) : String := "choose_" ++ D.stateName s

/-- The condition of a stored choice. -/
def choiceCondition (c : ReturnChoiceData σ) : Option String :=
  match c.conditionFn with
  | some fn => some fn
  | none => if c.isOtherwise then some (D.chooseState c.state) else none

/-- What prints the entries for an event, from the flag that they share. -/
abbrev EntryPrinter (ε σ : Type*) := Bool → ε → List (Separated (PrintedEntry ε σ)) × Bool

/-- `['event', states, dest]`. -/
def printTransitionAsList (pai matrix : ActionInfo ε σ) : EntryPrinter ε σ := fun first e =>
  printMember first (.list e (printSource (D.matrix.expandStates matrix))
    (plainDest pai.transition))

/-- An entry with a plain transition or none. -/
def printSimpleTransitionAsDict (pai matrix : ActionInfo ε σ) : EntryPrinter ε σ := fun first e =>
  printMember first (.dict e (printSource (D.matrix.expandStates matrix))
    (plainDest pai.transition) (D.before pai) none)

/-- An entry for a declared return. -/
def printTransitionFnReturnOption (pai matrix : ActionInfo ε σ) (e : ε) (first : Bool) (s : σ) :
    List (Separated (PrintedEntry ε σ)) × Bool :=
  printMember first (.dict e (printSource (D.matrix.expandStates matrix)) (some s)
    (D.before pai) (some (D.chooseState s)))

/-- An entry for a choice of a conditional declaration. -/
def printTransitionFnReturnCondOption (pai matrix : ActionInfo ε σ) (e : ε) (first : Bool)
    (c : ReturnChoiceData σ) : List (Separated (PrintedEntry ε σ)) × Bool :=
  printMember first (.dict e (printSource (D.matrix.expandStates matrix)) (some c.state)
    (D.before pai) (D.choiceCondition c))

/-- The entries for a transition function: for its conditional declaration, if it has one. -/
def printTransitionFnAsDict (pai matrix : ActionInfo ε σ) (name : String) (returnsDecl : List σ) :
    EntryPrinter ε σ := fun first e =>
  if D.returnsCondDecl name ≠ [] then
    printList (D.printTransitionFnReturnCondOption pai matrix e) first (D.returnsCondDecl name)
  else printList (D.printTransitionFnReturnOption pai matrix e) first returnsDecl

/-- An entry, or several, as dictionaries. -/
def printTransitionAsDict (pai matrix : ActionInfo ε σ) : EntryPrinter ε σ := fun first e =>
  match pai.transition with
  | some (.fn name returnsDecl) => D.printTransitionFnAsDict pai matrix name returnsDecl first e
  | _ => D.printSimpleTransitionAsDict pai matrix first e

/-- The transition is a function. -/
def isTransitionFn : Option (Transition σ) → Bool
  | some (.fn _ _) => true
  | _ => false

/-- What is printed for an event of a matrix. -/
def printTrigger (pai matrix : ActionInfo ε σ) : EntryPrinter ε σ := fun first e =>
  if (D.usesPrepareEvent = false ∧ pai.action ≠ "") ∨ isTransitionFn pai.transition = true ∨
      (D.userEventData e).isSome = true then
    D.printTransitionAsDict pai matrix first e
  else D.printTransitionAsList pai matrix first e

/-- What is printed for a matrix of a record. -/
def printMatrices (pai : ActionInfo ε σ) (first : Bool) (matrix : ActionInfo ε σ) :
    List (Separated (PrintedEntry ε σ)) × Bool :=
  printList (D.printTrigger pai matrix) first (D.matrix.expandEvents matrix)

/-- What is printed for a record. -/
def printConsolidatedActionInfo (first : Bool) (c : Cluster (ActionInfo ε σ)) :
    List (Separated (PrintedEntry ε σ)) × Bool :=
  printList (D.printMatrices c.leader) first c.members

/-- The transitions list. -/
def printTransitions : List (Separated (PrintedEntry ε σ)) :=
  (printList D.printConsolidatedActionInfo true D.consolidated).1

/-- The dictionary of actions (`print_actions_dict_consolidated`). -/
def printActionsDict : List ((σ × ε) × String) :=
  D.consolidated.flatMap fun c =>
    if c.leader.action = "" then []
    else c.members.flatMap fun p => (D.matrix.expandEvents p).flatMap fun e =>
      (D.matrix.expandStates p).map fun s => ((s, e), c.leader.action)

/-- The dictionary of translators (`print_event_translator_mapping`). -/
def printTranslators : List (ε × String) :=
  D.matrix.eventList.filterMap fun e =>
    (D.userEventData e).map fun t => (e, t.getD ("translate_" ++ D.eventName e))

/-- The list of states: names only, if no state has an entry or exit function. -/
def printStates : List (Separated (PyState σ)) :=
  if D.matrix.stateList.any (fun s => (D.entryFn s).isSome || (D.exitFn s).isSome) then
    (printList (fun first s => printMember first ⟨s, D.entryFn s, D.exitFn s⟩) true
      D.matrix.stateList).1
  else (printList (fun first s => printMember first ⟨s, none, none⟩) true D.matrix.stateList).1

/-- The class that is printed, as Python reads it. -/
def generated : Option (PyClass ε σ) :=
  (readSeparated D.printStates).bind fun states =>
    (readSeparated D.printTransitions).bind fun entries =>
      (readEach readEntry entries).map fun transitions => {
        states := states
        transitions := transitions
        fsmTranslators := if D.usesEventData then some D.printTranslators else none
        fsmActions := if D.usesPrepareEvent then some D.printActionsDict else none
        afterStateChange := D.machineTransition }

end PyMachine

/-! ## What is accepted -/

/-- A flat machine that the parser accepts, each of whose transition functions in use has
conditional returns. Plain transitions and choices lead to states of the machine or are
`noTransition`. -/
structure ConditionalMachine (ε σ : Type*) [DecidableEq ε] [DecidableEq σ]
    extends PyMachine ε σ where
  declared : matrix.Declared
  populated : (populateActionArray matrix).error = false
  flatStates : ∀ s, matrix.implementedBySubMachine s = false
  notListed : noTransition ∉ matrix.stateList
  plainTargets : ∀ pai ∈ matrix.actionInfoList, ∀ t, pai.transition = some (.state t) →
    t ∈ matrix.stateList ∨ t = noTransition
  returns : ∀ pai ∈ matrix.actionInfoList, ∀ name returnsDecl,
    pai.transition = some (.fn name returnsDecl) → ∃ R : ConditionalReturns σ,
      returnsCondDecl name = R.choices.map Choice.data
  choiceTargets : ∀ pai ∈ matrix.actionInfoList, ∀ name returnsDecl,
    pai.transition = some (.fn name returnsDecl) → ∀ c ∈ returnsCondDecl name,
      c.state ∈ matrix.stateList ∨ c.state = noTransition

namespace ConditionalMachine

variable {ε σ : Type*} [DecidableEq ε] [DecidableEq σ] (D : ConditionalMachine ε σ)

/-- The entry in a cell of the matrix. -/
def cell (e : ε) (s : σ) : Option (ActionInfo ε σ) :=
  ((populateActionArray D.matrix).cell (D.matrix.eventOrder e) (D.matrix.stateOrder s)).bind
    (D.matrix.actionInfoList[·]?)

/-! ## Cells and records -/

/-- The entry in a cell is the one that names it. -/
lemma cell_eq_some_iff {e : ε} {s : σ} (he : e ∈ D.matrix.eventList) (hs : s ∈ D.matrix.stateList)
    {pai : ActionInfo ε σ} : D.cell e s = some pai ↔
      pai ∈ D.matrix.actionInfoList ∧ e ∈ D.matrix.expandEvents pai ∧
        s ∈ D.matrix.expandStates pai := by
  have hcell := ((populateActionArray_correct D.declared).2 D.populated e he s hs).1
  constructor
  · intro h
    obtain ⟨idx, hidx, hpai⟩ := Option.bind_eq_some_iff.mp h
    obtain ⟨pai', hpai', hnamed⟩ := (hcell idx).mp hidx
    obtain rfl := Option.some.inj (hpai'.symm.trans hpai)
    exact ⟨List.mem_of_getElem? hpai, hnamed⟩
  · intro h
    obtain ⟨hmem, hnamed⟩ := h
    obtain ⟨idx, hidx⟩ := List.getElem?_of_mem hmem
    rw [cell, (hcell idx).mpr ⟨pai, hidx, hnamed⟩, Option.bind_some, hidx]

/-- No entry is printed with a `before` callback: a named action is called by
`_fsm_prepare_event`. -/
private lemma before_eq_none {c : Cluster (ActionInfo ε σ)} (hc : c ∈ D.consolidated) :
    D.before c.leader = none := by
  apply if_neg
  intro h
  obtain ⟨haction, hprepare⟩ := h
  have huses : D.usesActions = true :=
    List.any_eq_true.mpr ⟨c, hc, by simpa using haction⟩
  simp [PyMachine.usesPrepareEvent, huses] at hprepare

/-! ## The class is read -/

/-- The destinations and conditions that an entry's transition is printed with. -/
def choices (t : Option (Transition σ)) : List (Option σ × Option String) :=
  match t with
  | some (.fn name returnsDecl) =>
    if D.returnsCondDecl name ≠ [] then
      (D.returnsCondDecl name).map fun c => (some c.state, D.choiceCondition c)
    else returnsDecl.map fun s => (some s, some (D.chooseState s))
  | t => [(PyMachine.plainDest t, none)]

/-- A transition function has one transition for each of its choices. -/
lemma choices_fn (name : String) (returnsDecl : List σ) :
    D.choices (some (.fn name returnsDecl)) =
      if D.returnsCondDecl name ≠ [] then
        (D.returnsCondDecl name).map fun c => (some c.state, D.choiceCondition c)
      else returnsDecl.map fun s => (some s, some (D.chooseState s)) := rfl

/-- What is printed for a record's first entry, a matrix and an event. -/
def entries (pai matrix : ActionInfo ε σ) (e : ε) : List (PrintedEntry ε σ) :=
  (D.choices pai.transition).map fun ch =>
    if (D.usesPrepareEvent = false ∧ pai.action ≠ "") ∨
        PyMachine.isTransitionFn pai.transition = true ∨ (D.userEventData e).isSome = true then
      .dict e (PyMachine.printSource (D.matrix.expandStates matrix)) ch.1 (D.before pai) ch.2
    else .list e (PyMachine.printSource (D.matrix.expandStates matrix)) ch.1

/-- An entry is printed with what it depends on. -/
private lemma prints_printTrigger (pai matrix : ActionInfo ε σ) :
    Prints (D.printTrigger pai matrix) (D.entries pai matrix) := by
  intro first e
  unfold PyMachine.printTrigger entries
  cases htransition : pai.transition with
  | none =>
    split_ifs with hdict
    · rw [PyMachine.printTransitionAsDict, htransition]
      show D.printSimpleTransitionAsDict pai matrix first e = _
      rw [PyMachine.printSimpleTransitionAsDict, htransition]
      exact prints_printMember first _
    · rw [PyMachine.printTransitionAsList, htransition]
      exact prints_printMember first _
  | some t =>
    cases t with
    | state t =>
      split_ifs with hdict
      · rw [PyMachine.printTransitionAsDict, htransition]
        show D.printSimpleTransitionAsDict pai matrix first e = _
        rw [PyMachine.printSimpleTransitionAsDict, htransition]
        exact prints_printMember first _
      · rw [PyMachine.printTransitionAsList, htransition]
        exact prints_printMember first _
    | fn name returnsDecl =>
      -- a transition function is always printed as dictionaries
      have hfn : PyMachine.isTransitionFn (some (Transition.fn name returnsDecl)) = true := rfl
      simp only [hfn, true_or, or_true, if_true]
      rw [PyMachine.printTransitionAsDict, htransition, choices_fn]
      show D.printTransitionFnAsDict pai matrix name returnsDecl first e = _
      unfold PyMachine.printTransitionFnAsDict
      split_ifs
      · rw [List.map_map]
        exact prints_map _ first _
      · rw [List.map_map]
        exact prints_map _ first _

/-- A walk over all records prints the entries of all records. -/
private lemma readSeparated_printTransitions : readSeparated D.printTransitions =
    some (D.consolidated.flatMap fun c => c.members.flatMap fun p =>
      (D.matrix.expandEvents p).flatMap (D.entries c.leader p)) := by
  have hrecord : Prints D.printConsolidatedActionInfo fun c => c.members.flatMap fun p =>
      (D.matrix.expandEvents p).flatMap (D.entries c.leader p) := by
    intro first c
    have hmatrix : Prints (D.printMatrices c.leader) fun p =>
        (D.matrix.expandEvents p).flatMap (D.entries c.leader p) := fun first p =>
      (D.prints_printTrigger c.leader p).printList first (D.matrix.expandEvents p)
    exact hmatrix.printList first c.members
  rw [PyMachine.printTransitions, hrecord.printList, readSeparated_printSeparated]

/-- The transitions for a record's first entry, a matrix and an event. -/
def transitionsOf (pai matrix : ActionInfo ε σ) (e : ε) : List (PyTransition ε σ) :=
  (D.choices pai.transition).flatMap fun ch =>
    (D.matrix.expandStates matrix).map fun s => ⟨e, s, ch.1, none, ch.2⟩

/-- All transitions, in the order in which they are printed. -/
def transitions : List (PyTransition ε σ) :=
  D.consolidated.flatMap fun c => c.members.flatMap fun p =>
    (D.matrix.expandEvents p).flatMap (D.transitionsOf c.leader p)

omit [DecidableEq σ] in
/-- The source states of an entry are read back. -/
private lemma readSource_printSource {states : List σ} (h : states ≠ []) :
    readSource (PyMachine.printSource states) = some states := by
  have hnames : (printList printMember true states).1 = printSeparated true states := by
    rw [show printList printMember true states = _ from prints_map id true states, List.map_id]
  rw [PyMachine.printSource, hnames]
  cases states with
  | nil => exact absurd rfl h
  | cons s states =>
    cases states with
    | nil => rfl
    | cons t states =>
      have hbrackets : decide (1 < (s :: t :: states).length) = true := by simp
      rw [hbrackets, readSource, readSeparated_printSeparated]

/-- The events and states that a matrix is printed for are not empty. -/
private lemma expandStates_ne_nil {s : σ} (hs : s ∈ D.matrix.stateList) (p : ActionInfo ε σ) :
    D.matrix.expandStates p ≠ [] := by
  unfold MachineMatrix.expandStates
  split_ifs with hempty
  · intro hnil
    have : s ∈ D.matrix.stateList.filter fun s => !D.matrix.implementedBySubMachine s :=
      List.mem_filter.mpr ⟨hs, by simp [D.flatStates]⟩
    rw [hnil] at this
    cases this
  · exact hempty

/-- Only the choices of transition functions have conditions. -/
private lemma snd_eq_none_of_mem_choices {t : Option (Transition σ)}
    (ht : PyMachine.isTransitionFn t ≠ true) {ch : Option σ × Option String}
    (hch : ch ∈ D.choices t) : ch.2 = none := by
  have hplain : D.choices t = [(PyMachine.plainDest t, none)] := by
    unfold choices
    split
    · exact absurd rfl ht
    · rfl
  rw [hplain, List.mem_singleton] at hch
  rw [hch]

/-- The entries of a record, a matrix and an event are read as its transitions. -/
private lemma readEach_entries {s : σ} (hs : s ∈ D.matrix.stateList) {c : Cluster (ActionInfo ε σ)}
    (hc : c ∈ D.consolidated) (p : ActionInfo ε σ) (e : ε) :
    readEach readEntry (D.entries c.leader p e) = some (D.transitionsOf c.leader p e) := by
  apply readEach_map
  intro ch hch
  have hsource := readSource_printSource (D.expandStates_ne_nil hs p)
  split_ifs with hdict
  · rw [readEntry, hsource, D.before_eq_none hc]
    rfl
  · have hfn : PyMachine.isTransitionFn c.leader.transition ≠ true :=
      fun h => hdict (.inr (.inl h))
    rw [readEntry, hsource, D.snd_eq_none_of_mem_choices hfn hch]
    rfl

/-- The list of states is read back. -/
private lemma readSeparated_printStates : readSeparated D.printStates =
    some (D.matrix.stateList.map fun s => ⟨s, D.entryFn s, D.exitFn s⟩) := by
  unfold PyMachine.printStates
  split_ifs with hfns
  · rw [prints_map, readSeparated_printSeparated]
  · rw [prints_map, readSeparated_printSeparated]
    refine congrArg some (List.map_congr_left fun s hs => ?_)
    rw [Bool.not_eq_true, List.any_eq_false] at hfns
    have hnone := hfns s hs
    rw [Bool.or_eq_true, not_or, Bool.not_eq_true, Bool.not_eq_true, Option.isSome_eq_false_iff,
      Option.isSome_eq_false_iff, Option.isNone_iff_eq_none, Option.isNone_iff_eq_none] at hnone
    rw [hnone.1, hnone.2]

/-- The class that is read. -/
def pyClass : PyClass ε σ where
  states := D.matrix.stateList.map fun s => ⟨s, D.entryFn s, D.exitFn s⟩
  transitions := D.transitions
  fsmTranslators := if D.usesEventData then some D.printTranslators else none
  fsmActions := if D.usesPrepareEvent then some D.printActionsDict else none
  afterStateChange := D.machineTransition

/-- **The class.** The class of a machine with a state can be read: commas and brackets stand where
they are due. -/
lemma generated_eq {s : σ} (hs : s ∈ D.matrix.stateList) : D.generated = some D.pyClass := by
  have htransitions : readEach readEntry (D.consolidated.flatMap fun c => c.members.flatMap fun p =>
      (D.matrix.expandEvents p).flatMap (D.entries c.leader p)) = some D.transitions := by
    refine readEach_flatMap fun c hc => readEach_flatMap fun p _ => readEach_flatMap fun e _ => ?_
    exact D.readEach_entries hs hc p e
  rw [PyMachine.generated, D.readSeparated_printStates, D.readSeparated_printTransitions,
    Option.bind_some, Option.bind_some, htransitions, Option.map_some]
  rfl

end ConditionalMachine

end FsmLang
