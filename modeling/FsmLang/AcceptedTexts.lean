import Mathlib.Data.List.Basic
import Mathlib.Tactic
import FsmLang.ActionMatrices
import FsmLang.Densities
import FsmLang.Identifiers

set_option relaxedAutoImplicit false
set_option autoImplicit false

/-!
# Reading a file

The rules of the grammar check what they read, and report what they find wrong; a name of another
type than a rule asks for is a syntax error, and ends the reading. When the brace of a machine is
reached, what has been read of it is captured, which may end the program too. A file is accepted if
it is read to its end and nothing is reported.

What is asked of a machine can be said without the order of the reading: of each of its names,
of its qualifiers, states, events, matrices and cells, one by one, and of each of its sub-machines.

## Main definitions

* `StateText.data`, `StateText.errors`, `EventText.errors`, `StatementText.errors` — the checks of
  the rules.
* `OwnText.body` — what is captured.
* `MachineText.read`, `readFile` — reading a machine and a file.
* `MachineText.Proper`, `MachineText.Sound` — what is asked of a machine, and of a tree.

## Main results

* `MachineText.read_eq_some_iff` — a machine is read without errors if and only if it is sound.
* `textAccepted_iff` — when a text is accepted.
-/

namespace FsmLang

open CSemantics

/-! ## States -/

/-- What is said of a state (`STATE_DATA` and its flags). -/
structure StateData where
  inhibitsSubMachines : Bool := false
  implementingMachine : Option Ident := none
  hasEntryFn : Bool := false
  entryFn : Option Ident := none
  hasExitFn : Bool := false
  exitFn : Option Ident := none
  deriving DecidableEq

/-- A clause of a state. A function without a name is named after the state later on. -/
def addClause (d : StateData) : StateClause → StateData × List String
  | .inhibitsSubMachines =>
    ({ d with inhibitsSubMachines := true },
      report d.implementingMachine.isSome
        "a state implemented by a sub-machine cannot inhibit sub-machines")
  | .implementedBy machine =>
    ({ d with implementingMachine := some machine },
      report d.inhibitsSubMachines "a state inhibiting sub-machines cannot be implemented by such")
  | .onEntry fn => ({ d with hasEntryFn := true, entryFn := fn.or d.entryFn }, [])
  | .onExit fn => ({ d with hasExitFn := true, exitFn := fn.or d.exitFn }, [])

/-- What is said of a state in all. -/
def StateText.data (s : StateText) : StateData := (reportRun addClause {} s.clauses).1

def StateText.errors (s : StateText) : List String := (reportRun addClause {} s.clauses).2

/-- The state does not both inhibit sub-machines and have an implementing machine. -/
def StateText.InhibitsOrImplemented (s : StateText) : Prop :=
  .inhibitsSubMachines ∉ s.clauses ∨ ∀ machine, .implementedBy machine ∉ s.clauses

/-- The clauses of a state are reported on if it inhibits sub-machines and is implemented by one. -/
private lemma reportRun_addClause (d : StateData) (l : List StateClause)
    (hd : d.inhibitsSubMachines = false ∨ d.implementingMachine = none) :
    (reportRun addClause d l).2 = [] ↔
      (d.inhibitsSubMachines = false ∧ .inhibitsSubMachines ∉ l) ∨
        (d.implementingMachine = none ∧ ∀ machine, .implementedBy machine ∉ l) := by
  induction l generalizing d with
  | nil => simpa using hd
  | cons c l ih =>
    rw [reportRun_cons_snd_eq_nil]
    cases c with
    | inhibitsSubMachines =>
      cases hm : d.implementingMachine with
      | none =>
        rw [ih _ (by simp [addClause, hm])]
        simp [addClause, hm]
      | some machine => simp [addClause, hm]
    | implementedBy machine =>
      cases hi : d.inhibitsSubMachines with
      | false =>
        rw [ih _ (by simp [addClause, hi])]
        simp only [addClause, hi, List.mem_cons, reduceCtorEq, false_or, report_eq_nil, true_and,
          false_and, or_false]
        exact ⟨.inl, fun h => h.resolve_right fun hnone => hnone.2 machine (.inl rfl)⟩
      | true =>
        simp only [addClause, hi, List.mem_cons, report_eq_nil, Bool.true_eq_false, false_and,
          false_or, false_iff, not_and, not_forall, not_not]
        exact fun _ => ⟨machine, .inl rfl⟩
    | onEntry fn =>
      rw [ih _ (by simpa [addClause] using hd)]
      simp [addClause]
    | onExit fn =>
      rw [ih _ (by simpa [addClause] using hd)]
      simp [addClause]

/-- A state is reported on if it inhibits sub-machines and is implemented by one. -/
lemma StateText.errors_eq_nil_iff (s : StateText) : s.errors = [] ↔ s.InhibitsOrImplemented := by
  rw [StateText.errors, reportRun_addClause _ _ (.inl rfl)]
  simp [StateText.InhibitsOrImplemented]

/-! ## Events -/

/-- The translator of an event's data. -/
def EventText.translator (e : EventText) : Option TranslatorText :=
  match e.userEventData with
  | .translator fn _ => some fn
  | _ => none

/-- The event has a block of data. -/
def EventText.hasDataBlock (e : EventText) : Bool :=
  match e.userEventData with
  | .none => false
  | .translator _ b => b.isSome
  | .block _ => true

/-- The flag `consumed_by_translator`. It is set from the translator's flags when the event's record
has been written; where the translator has the event's name it is the same record, and the
designation has taken the place of the flags. -/
def EventText.consumedByTranslator (e : EventText) : Bool :=
  e.translator.any fun fn => fn.consuming && fn.name ≠ e.name

/-- The list `psharing_sub_machines` is not empty. No sub-machine has referred to the event, but a
machine of its name, which is to implement the translator, leaves the translator in this place of
the record. -/
def EventText.sharedBySubMachines (e : EventText) : Bool :=
  e.translator.any fun fn => e.name ∈ fn.implementedBy

/-- `data_translator_common`: the data that a translator translates into are those of the machine's
parent. `none` stands for no parent. -/
def EventText.errors (parentHasData : Option Bool) (e : EventText) : List String :=
  report (e.translator.isSome && parentHasData = some false)
    "data translator declared for sub-machine having parent with no data"

def DeclText.errors (parentHasData : Option Bool) : DeclText → List String
  | .states first rest => (first :: rest).flatMap StateText.errors
  | .events first rest => (first :: rest).flatMap (EventText.errors parentHasData)

/-! ## Matrices -/

/-- What a transition is to: the type of its name tells. -/
def TransitionText.transition (ids : IdList) (t : TransitionText) : Transition Ident :=
  if ids t.name = .known .state then .state t.name else .fn t.name.name []

/-- The matrix of an action. -/
def ActionText.actionMatrix (ids : IdList) (a : ActionText) : ActionMatrix Ident Ident where
  action := a.name.name
  transition := a.transition.map (TransitionText.transition ids)
  events := a.matrix.events
  states := vectorNames a.matrix.states

/-- The matrices of a statement. That of a transition has the null action. -/
def StatementText.actionMatrices (ids : IdList) : StatementText → List (ActionMatrix Ident Ident)
  | .actions first rest => (first :: rest).map (ActionText.actionMatrix ids)
  | .transition _ matrix t =>
    [{ transition := some (t.transition ids), events := matrix.events
       states := vectorNames matrix.states }]

namespace OwnText

variable (o : OwnText)

/-- The matrices of a machine. -/
def actionMatrices (ids : IdList) : List (ActionMatrix Ident Ident) :=
  o.statements.flatMap (StatementText.actionMatrices ids)

/-- An event of this name is such. -/
def hasEvent (p : EventText → Bool) (x : Ident) : Bool := o.events.any fun e => e.name = x && p e

/-- What is known of events and states when a matrix is read. -/
def scope : MatrixScope Ident Ident where
  eventList := o.eventNames
  stateList := o.stateNames
  consumedByTranslator := o.hasEvent EventText.consumedByTranslator
  implementedBySubMachine x :=
    o.states.any fun s => s.name = x && s.data.implementingMachine.isSome
  actionInfoList := []
  sharedBySubMachines := o.hasEvent EventText.sharedBySubMachines

/-- The machine's matrix. -/
def matrix (ids : IdList) : MachineMatrix Ident Ident :=
  { o.scope.toMachineMatrix with
    actionInfoList := (o.actionMatrices ids).map (·.actionInfo o.scope) }

/-- The errors in an action. -/
def actionErrors (ids : IdList) (a : ActionText) : List String :=
  (a.actionMatrix ids).errors o.scope ++
    report (a.transition.isSome && o.qualifier.1.actionsReturnStates)
      "Cannot have actions with transitions when actions return states."

/-- The errors in a statement. -/
def statementErrors (ids : IdList) : StatementText → List String
  | .actions first rest => (first :: rest).flatMap (o.actionErrors ids)
  | .transition matrixFirst matrix t =>
    ((StatementText.transition matrixFirst matrix t).actionMatrices ids).flatMap
      (ActionMatrix.errors o.scope)

/-- What is captured. `noEvent` is marked if the flags say that events are returned. -/
def body (parentHasData : Option Bool) (ids : IdList) : MachineBody Ident Ident :=
  { o.matrix ids with
    noEventMarked := o.actionsReturn = .events
    hasParent := parentHasData.isSome
    hasData := o.data.isSome
    hasTranslator := o.hasEvent fun e => e.translator.isSome
    hasDataBlock := o.hasEvent EventText.hasDataBlock
    translatorsReturnEvents := o.qualifier.1.translatorsReturnEvents }

/-- The errors up to the sub-machines. -/
def openingErrors (parentHasData : Option Bool) : List String :=
  o.native.2 ++ o.qualifier.2 ++ o.decls.flatMap (DeclText.errors parentHasData)

end OwnText

/-- What `capture_machine` reports, if it comes to its end. -/
def MachineBody.captureErrors {ε σ : Type*} [DecidableEq ε] [DecidableEq σ] (M : MachineBody ε σ)
    (namesOnly : Bool) : List String :=
  report (M.hasParent && decide (M.eventList.countP M.hasDataBlock ≠ 0) && !namesOnly)
      "event user data not allowed in sub-machines" ++
    (report (decide (M.eventList.countP M.hasTranslator ≠ 0) && !M.hasData && !namesOnly &&
        !M.translatorsReturnEvents)
      "data translators returning void are not allowed for machines having no data" ++
    (report M.allocateActionArray "out of memory" ++
      report (populateActionArray M.toMachineMatrix).error "Action array population failed"))

/-! ## Cells -/

section Cells

variable {ε σ : Type*} [DecidableEq ε] [DecidableEq σ]

/-- A state of the walk over the cells in which exactly those in `done` are filled, each once.
Nothing is asked of what the entries name. -/
structure CellsFilled (M : MachineMatrix ε σ) (done : List ((ε × σ) × ℕ)) (A : ActionArray ε σ) :
    Prop where
  nodup : (done.map M.cellOrder).Nodup
  cell : ∀ i j, (A.cell i j).isSome = true ↔ (i, j) ∈ done.map M.cellOrder
  error : A.error = false

/-- Two of the cells are in one place of the table. -/
def FilledTwice (M : MachineMatrix ε σ) (l : List ((ε × σ) × ℕ)) : Prop :=
  ¬ (l.map M.cellOrder).Nodup

/-- A cell is filled, or reported if it has been filled before. -/
private lemma stepSpec_cellsFilled {M : MachineMatrix ε σ} (idx : ℕ) (pai : ActionInfo ε σ) (e : ε)
    (s : σ) (done : List ((ε × σ) × ℕ)) (A : ActionArray ε σ) (h : CellsFilled M done A) :
    StepSpec (CellsFilled M) (FilledTwice M) (fun A => A.error = true) done [((e, s), idx)]
      (addToActionArray M idx pai e A s) := by
  have horder := h.cell (M.eventOrder e) (M.stateOrder s)
  cases hcell : A.cell (M.eventOrder e) (M.stateOrder s) with
  | some idx' =>
    refine ⟨by simp [addToActionArray, hcell], by simp [addToActionArray, hcell], ?_⟩
    -- the cell is that of one before
    have hmem : M.cellOrder ((e, s), idx) ∈ done.map M.cellOrder := horder.mp (by rw [hcell]; rfl)
    intro _ more hnodup
    rw [List.append_assoc, List.map_append, List.nodup_append] at hnodup
    exact hnodup.2.2 _ hmem _ (by simp) rfl
  | none =>
    have hfalse : (addToActionArray M idx pai e A s).2 = false := by
      simp [addToActionArray, hcell, h.error]
    have hnew : M.cellOrder ((e, s), idx) ∉ done.map M.cellOrder := by
      intro hmem
      have hsome := horder.mpr hmem
      rw [hcell] at hsome
      cases hsome
    refine ⟨fun _ => ⟨?_, ?_, ?_⟩, by simp [hfalse], by simp [hfalse]⟩
    · rw [List.map_append, List.map_singleton, ← List.concat_eq_append, List.nodup_concat]
      exact ⟨hnew, h.nodup⟩
    · intro i j
      have hupdate : (addToActionArray M idx pai e A s).1.cell =
          Function.update A.cell (M.eventOrder e)
            (Function.update (A.cell (M.eventOrder e)) (M.stateOrder s) (some idx)) := by
        simp [addToActionArray, hcell]
      rw [hupdate, List.map_append, List.mem_append, ← h.cell]
      by_cases hi : i = M.eventOrder e
      · by_cases hj : j = M.stateOrder s
        · simp [hi, hj, MachineMatrix.cellOrder]
        · simp [hi, hj, MachineMatrix.cellOrder]
      · simp [hi, MachineMatrix.cellOrder]
    · simp [addToActionArray, hcell, h.error]

/-- The cells of an event are filled, or reported. -/
private lemma stepSpec_cellsFilled_event {M : MachineMatrix ε σ} (pai : ActionInfo ε σ × ℕ) (e : ε)
    (done : List ((ε × σ) × ℕ)) (A : ActionArray ε σ) (h : CellsFilled M done A) :
    StepSpec (CellsFilled M) (FilledTwice M) (fun A => A.error = true) done
      (namedByEvent M pai e) (iterateMatrixStates M pai.2 pai.1 A e) := by
  have hbegin : CellsFilled M done (beginEvent A pai.2 e) := ⟨h.nodup, h.cell, rfl⟩
  have hwalk := StepSpec.iterate (M.expandStates pai.1)
    (fun s _ done A hA => stepSpec_cellsFilled pai.2 pai.1 e s done A hA) done _ hbegin
  rw [← List.map_eq_flatMap] at hwalk
  exact StepSpec.report (fun _ _ hA => hA.error) hwalk
    (fun hr => ⟨hr.nodup, by rw [endEvent_cell]; exact hr.cell,
      by rw [endEvent_error]; exact hr.error⟩)
    (endEvent_error _ _ _)

/-- **When populating fails.** For whatever the entries name, there is no error if and only if they
name different cells. -/
theorem populateActionArray_error_iff (M : MachineMatrix ε σ) :
    (populateActionArray M).error = false ↔ ((namedCells M).map M.cellOrder).Nodup := by
  have hfresh : CellsFilled M [] (ActionArray.fresh : ActionArray ε σ) :=
    ⟨by simp, by simp [ActionArray.fresh], rfl⟩
  have hwalk := StepSpec.iterate M.actionInfoList.zipIdx (fun pai _ done A hA => by
    have hevents := StepSpec.iterate (M.expandEvents pai.1)
      (fun e _ done A hA => stepSpec_cellsFilled_event pai e done A hA) done A hA
    exact StepSpec.report (fun _ _ hA => hA.error) hevents id rfl) [] _ hfresh
  cases h : (iterate (processActionInfo M) ActionArray.fresh M.actionInfoList.zipIdx).2 with
  | false =>
    have hfilled : CellsFilled M (namedCells M) (populateActionArray M) := hwalk.good h
    exact iff_of_true hfilled.error hfilled.nodup
  | true =>
    have herror : (populateActionArray M).error = true := hwalk.failed h
    have htwice : FilledTwice M (namedCells M) := by
      have hbad := hwalk.bad h []
      rwa [List.nil_append, List.append_nil] at hbad
    exact iff_of_false (by simp [herror]) htwice

/-- When a machine is captured without an error. -/
private lemma exists_captureMachine_iff (M : MachineBody ε σ) (namesOnly : Bool) :
    (∃ C, captureMachine M namesOnly = .ok C) ∧ M.captureErrors namesOnly = [] ↔
      M.eventList ≠ [] ∧ M.stateList ≠ [] ∧ ¬ M.sanityError namesOnly ∧
        (∀ x ∈ namedCells M.toMachineMatrix, M.inTable x = true) ∧
        ((namedCells M.toMachineMatrix).map M.cellOrder).Nodup := by
  have herrors : M.captureErrors namesOnly = [] ↔ M.sanityError namesOnly = false ∧
      (M.eventList ≠ [] ∧ M.stateList ≠ []) ∧
        (populateActionArray M.toMachineMatrix).error = false := by
    simp only [MachineBody.captureErrors, List.append_eq_nil_iff, report_eq_nil,
      MachineBody.sanityError, Bool.or_eq_false_iff, MachineBody.allocateActionArray,
      decide_eq_false_iff_not, not_or, List.length_eq_zero_iff]
    tauto
  rw [herrors, populateActionArray_error_iff, Bool.not_eq_true]
  constructor
  · rintro ⟨⟨C, hC⟩, hsane, ⟨hevents, hstates⟩, hnodup⟩
    rw [captureMachine] at hC
    split_ifs at hC with htable
    have hnoted := handlingNoted_populateActionArray ((populateActionArray_error_iff _).mpr hnodup)
    exact ⟨hevents, hstates, hsane,
      fun x hx => hnoted.inTable ((staysInTable_iff M).mp htable) hx, hnodup⟩
  · rintro ⟨hevents, hstates, hsane, htable, hnodup⟩
    refine ⟨?_, hsane, ⟨hevents, hstates⟩, hnodup⟩
    have hstays : M.StaysInTable := fun l x r hlr _ => htable x (by simp [hlr])
    obtain ⟨C, hC, -⟩ := exists_computeEventAndStateDensityPct hevents hstates
      (populateActionArray M.toMachineMatrix) (M.sanityError namesOnly || M.allocateActionArray ||
        (populateActionArray M.toMachineMatrix).error)
    exact ⟨C, by rw [captureMachine, if_pos ((staysInTable_iff M).mpr hstays)]; exact hC⟩

end Cells

/-! ## Reading -/

mutual

/-- A machine is read: the names of the list that it is in afterwards, and what has been reported.
`none` is a syntax error, or the end of the program. -/
def MachineText.read (namesOnly : Bool) (parentHasData : Option Bool) (outer : IdList) :
    MachineText → Option (IdList × List String)
  | .mk own machines =>
    (readNames outer [(own.name, .machineName)]).bind fun outer' =>
      (readNames .empty own.openingOccurrences).bind fun opened =>
        (MachineText.readList namesOnly (some own.data.isSome) opened machines).bind fun inner =>
          (readNames inner.1 own.closingOccurrences).bind fun ids =>
            -- there are declarations, and a sub-machine or a statement
            if own.decls = [] ∨ machines = [] ∧ own.statements = [] then none
            else
              match captureMachine (own.body parentHasData ids) namesOnly with
              | .error _ => none
              | .ok _ =>
                some (outer', own.openingErrors parentHasData ++ (inner.2 ++
                  (own.statements.flatMap (own.statementErrors ids) ++
                    (own.body parentHasData ids).captureErrors namesOnly)))

/-- Machines in a row are read. -/
def MachineText.readList (namesOnly : Bool) (parentHasData : Option Bool) (outer : IdList) :
    List MachineText → Option (IdList × List String)
  | [] => some (outer, [])
  | m :: ms =>
    (m.read namesOnly parentHasData outer).bind fun first =>
      (MachineText.readList namesOnly parentHasData first.1 ms).map fun rest =>
        (rest.1, first.2 ++ rest.2)

end

/-- What is reported for a file, if it is read to its end. A file has a machine. -/
def readFile (namesOnly : Bool) (ms : List MachineText) : Option (List String) :=
  if ms = [] then none
  else (MachineText.readList namesOnly none .empty ms).map Prod.snd

/-! ## What is asked of a machine -/

/-- The identifiers of a machine when its brace is reached. -/
def MachineText.ids (m : MachineText) : IdList := (readNames .empty m.occurrences).getD .empty

/-- Actions that return states are not written with transitions. -/
def OwnText.ActionsAlone (o : OwnText) : Prop :=
  .actionsReturn .states ∈ o.qualifiers →
    ∀ first rest, .actions first rest ∈ o.statements → ∀ a ∈ first :: rest, a.transition = none

/-- Nothing is wrong with a matrix: the events that are looked at are neither consumed nor shared,
and a state that a machine implements has no actions of its own. -/
def OwnText.MatrixAllowed (o : OwnText) (v : ActionMatrix Ident Ident) : Prop :=
  ¬ v.events.CheckedAtFault o.scope ∧
    (v.action ≠ "" → ∀ s ∈ v.states, o.scope.implementedBySubMachine s = false)

/-- What is asked of a machine, its sub-machines apart. -/
structure MachineText.Proper (namesOnly : Bool) (parentHasData : Option Bool) (m : MachineText) :
    Prop where
  /-- Each name can be used as it is, in the order in which it is. -/
  names : ∀ x, (runOps Role.after .absent (opsAt x m.occurrences)).isSome
  natives : (m.own.natives.map NativeText.isEpilogue).Nodup
  qualifiers : m.own.QualifiersOnce
  states : ∀ s ∈ m.own.states, s.InhibitsOrImplemented
  /-- Where a parent has no data, there is nothing to translate into. -/
  translators : parentHasData = some false → ∀ e ∈ m.own.events, e.translator = none
  statement : m.machines ≠ [] ∨ m.own.statements ≠ []
  actions : m.own.ActionsAlone
  matrices : ∀ v ∈ m.own.actionMatrices m.ids, m.own.MatrixAllowed v
  hasEvents : m.own.events ≠ []
  hasStates : m.own.states ≠ []
  data : ¬ (m.own.body parentHasData m.ids).sanityError namesOnly
  /-- Each cell is in the table, and is named once. -/
  inTable : ∀ x ∈ namedCells (m.own.matrix m.ids),
    (m.own.body parentHasData m.ids).inTable x = true
  nodup : ((namedCells (m.own.matrix m.ids)).map (m.own.matrix m.ids).cellOrder).Nodup

/-- What is asked of a tree of machines. -/
inductive MachineText.Sound (namesOnly : Bool) : Option Bool → MachineText → Prop where
  | mk {parentHasData : Option Bool} {m : MachineText} (proper : m.Proper namesOnly parentHasData)
    (machines : ∀ c ∈ m.machines, Sound namesOnly (some m.own.data.isSome) c) :
    Sound namesOnly parentHasData m

/-! ## Reports -/

section Reports

variable {namesOnly : Bool} {parentHasData : Option Bool}

/-- An event is reported on if it has a translator and the parent has no data. -/
lemma EventText.errors_eq_nil_iff (e : EventText) :
    e.errors parentHasData = [] ↔ (parentHasData = some false → e.translator = none) := by
  rw [EventText.errors, report_eq_nil]
  cases e.translator <;> simp

/-- A declaration is reported on if one of its states or events is. -/
lemma DeclText.errors_eq_nil_iff (d : DeclText) :
    d.errors parentHasData = [] ↔ (∀ s ∈ d.stateTexts, s.InhibitsOrImplemented) ∧
      ∀ e ∈ d.eventTexts, parentHasData = some false → e.translator = none := by
  cases d with
  | states first rest =>
    simp only [DeclText.errors, List.flatMap_eq_nil_iff, StateText.errors_eq_nil_iff, stateTexts,
      eventTexts]
    simp
  | events first rest =>
    simp only [DeclText.errors, List.flatMap_eq_nil_iff, EventText.errors_eq_nil_iff, stateTexts,
      eventTexts]
    simp

/-- Nothing is reported up to the sub-machines. -/
private lemma OwnText.openingErrors_eq_nil_iff (o : OwnText) :
    o.openingErrors parentHasData = [] ↔ (o.natives.map NativeText.isEpilogue).Nodup ∧
      o.QualifiersOnce ∧ (∀ s ∈ o.states, s.InhibitsOrImplemented) ∧
        (parentHasData = some false → ∀ e ∈ o.events, e.translator = none) := by
  simp only [openingErrors, List.append_eq_nil_iff, readNatives_eq_nil_iff,
    readQualifiers_eq_nil_iff, List.flatMap_eq_nil_iff, DeclText.errors_eq_nil_iff, states, events,
    List.mem_flatMap]
  constructor
  · rintro ⟨⟨hnatives, hqualifiers⟩, hdecls⟩
    refine ⟨hnatives, hqualifiers, ?_, ?_⟩
    · intro s hs
      obtain ⟨d, hd, hs⟩ := hs
      exact (hdecls d hd).1 s hs
    · intro hdata e he
      obtain ⟨d, hd, he⟩ := he
      exact (hdecls d hd).2 e he hdata
  · rintro ⟨hnatives, hqualifiers, hstates, hevents⟩
    exact ⟨⟨hnatives, hqualifiers⟩, fun d hd => ⟨fun s hs => hstates s ⟨d, hd, hs⟩,
      fun e he hdata => hevents hdata e ⟨d, hd, he⟩⟩⟩

/-- A matrix is reported on unless it is allowed. -/
lemma OwnText.matrix_errors_eq_nil_iff (o : OwnText) (v : ActionMatrix Ident Ident) :
    v.errors o.scope = [] ↔ o.MatrixAllowed v := by
  rw [ActionMatrix.errors_eq_nil, MatrixAllowed]
  apply and_congr_right'
  simp [List.any_eq_true]

/-- The actions return states if a qualifier says so. -/
private lemma OwnText.actionsReturnStates_iff (o : OwnText) :
    o.qualifier.1.actionsReturnStates = true ↔ .actionsReturn .states ∈ o.qualifiers := by
  rw [← o.actionsReturn_eq_states_iff, OwnText.actionsReturn, MachineQualifier.actionsReturn]
  split_ifs <;> simp_all

/-- Nothing is reported in the statements. -/
private lemma OwnText.statementErrors_eq_nil_iff (o : OwnText) (ids : IdList) :
    o.statements.flatMap (o.statementErrors ids) = [] ↔
      (∀ v ∈ o.actionMatrices ids, o.MatrixAllowed v) ∧ o.ActionsAlone := by
  have haction : ∀ a : ActionText, o.actionErrors ids a = [] ↔
      o.MatrixAllowed (a.actionMatrix ids) ∧
        (.actionsReturn .states ∈ o.qualifiers → a.transition = none) := by
    intro a
    rw [actionErrors, List.append_eq_nil_iff, matrix_errors_eq_nil_iff, report_eq_nil,
      ← o.actionsReturnStates_iff]
    cases a.transition <;> simp
  rw [List.flatMap_eq_nil_iff]
  simp only [actionMatrices, List.mem_flatMap]
  constructor
  · intro h
    constructor
    · rintro v ⟨s, hs, hv⟩
      have herrors := h s hs
      cases s with
      | actions first rest =>
        obtain ⟨a, ha, rfl⟩ := List.mem_map.mp hv
        exact ((haction a).mp (List.flatMap_eq_nil_iff.mp herrors a ha)).1
      | transition matrixFirst matrix t =>
        exact (o.matrix_errors_eq_nil_iff v).mp (List.flatMap_eq_nil_iff.mp herrors v hv)
    · intro hstates first rest hs a ha
      exact ((haction a).mp (List.flatMap_eq_nil_iff.mp (h _ hs) a ha)).2 hstates
  · rintro ⟨hmatrices, halone⟩ s hs
    cases s with
    | actions first rest =>
      refine List.flatMap_eq_nil_iff.mpr fun a ha => (haction a).mpr ⟨?_, fun hstates => ?_⟩
      · exact hmatrices _ ⟨_, hs, List.mem_map_of_mem ha⟩
      · exact halone hstates first rest hs a ha
    | transition matrixFirst matrix t =>
      exact List.flatMap_eq_nil_iff.mpr fun v hv =>
        (o.matrix_errors_eq_nil_iff v).mpr (hmatrices v ⟨_, hs, hv⟩)

/-! ## Sound texts -/

/-- Names are read one after the other. -/
lemma readNames_append (ids : IdList) (l l' : List (Ident × Role)) :
    readNames ids (l ++ l') = (readNames ids l).bind (readNames · l') := runAt_append ids l l'

/-- Machines in a row, if it is known of each one when it is read. -/
lemma readList_eq_some_iff {ms : List MachineText}
    (h : ∀ c ∈ ms, ∀ outer outer', c.read namesOnly parentHasData outer = some (outer', []) ↔
      readNames outer [(c.own.name, .machineName)] = some outer' ∧
        c.Sound namesOnly parentHasData) (outer outer' : IdList) :
    MachineText.readList namesOnly parentHasData outer ms = some (outer', []) ↔
      readNames outer (ms.map fun c => (c.own.name, .machineName)) = some outer' ∧
        ∀ c ∈ ms, c.Sound namesOnly parentHasData := by
  induction ms generalizing outer with
  | nil => simp [MachineText.readList, readNames]
  | cons c ms ih =>
    have hc := h c (by simp) outer
    have hms := ih fun d hd => h d (List.mem_cons_of_mem c hd)
    rw [MachineText.readList, List.map_cons, List.forall_mem_cons, ← List.singleton_append,
      readNames_append, Option.bind_eq_some_iff, Option.bind_eq_some_iff]
    constructor
    · rintro ⟨⟨after, errors⟩, hfirst, hrest⟩
      obtain ⟨⟨last, errors'⟩, hlist, heq⟩ := Option.map_eq_some_iff.mp hrest
      obtain ⟨rfl, hnil⟩ := Prod.mk.inj heq
      obtain ⟨rfl, rfl⟩ := List.append_eq_nil_iff.mp hnil
      obtain ⟨hname, hsound⟩ := (hc after).mp hfirst
      obtain ⟨hnames, hall⟩ := (hms after).mp hlist
      exact ⟨⟨after, hname, hnames⟩, hsound, hall⟩
    · rintro ⟨⟨after, hname, hnames⟩, hsound, hall⟩
      refine ⟨(after, []), (hc after).mpr ⟨hname, hsound⟩, ?_⟩
      rw [(hms after).mpr ⟨hnames, hall⟩]
      rfl

/-- What has been read when the brace of a machine is reached. -/
lemma readNames_occurrences_eq_some_iff (m : MachineText) (ids : IdList) :
    readNames .empty m.occurrences = some ids ↔
      ∃ opened inner, readNames .empty m.own.openingOccurrences = some opened ∧
        readNames opened (m.machines.map fun c => (c.own.name, .machineName)) = some inner ∧
        readNames inner m.own.closingOccurrences = some ids := by
  rw [MachineText.occurrences, readNames_append, readNames_append]
  simp only [Option.bind_eq_some_iff]
  constructor
  · rintro ⟨inner, ⟨opened, hopened, hinner⟩, hids⟩
    exact ⟨opened, inner, hopened, hinner, hids⟩
  · rintro ⟨opened, inner, hopened, hinner, hids⟩
    exact ⟨inner, ⟨opened, hopened, hinner⟩, hids⟩

/-- The names of a machine are read if each name can be used as it is. -/
lemma exists_readNames_iff (m : MachineText) :
    (∃ ids, readNames .empty m.occurrences = some ids) ↔
      ∀ x, (runOps Role.after .absent (opsAt x m.occurrences)).isSome := by
  rw [← Option.isSome_iff_exists, isSome_readNames_iff]
  rfl

/-- Reading a machine without errors, step by step. -/
private lemma read_eq_some_nil_iff (m : MachineText) (outer outer' : IdList) :
    m.read namesOnly parentHasData outer = some (outer', []) ↔
      readNames outer [(m.own.name, .machineName)] = some outer' ∧
      ∃ opened inner ids, readNames .empty m.own.openingOccurrences = some opened ∧
        MachineText.readList namesOnly (some m.own.data.isSome) opened m.machines =
          some (inner, []) ∧
        readNames inner m.own.closingOccurrences = some ids ∧
        ¬ (m.own.decls = [] ∨ m.machines = [] ∧ m.own.statements = []) ∧
        ((∃ C, captureMachine (m.own.body parentHasData ids) namesOnly = .ok C) ∧
          (m.own.body parentHasData ids).captureErrors namesOnly = []) ∧
        m.own.openingErrors parentHasData = [] ∧
        m.own.statements.flatMap (m.own.statementErrors ids) = [] := by
  obtain ⟨own, machines⟩ := m
  rw [MachineText.read]
  simp only [Option.bind_eq_some_iff, MachineText.own, MachineText.machines]
  constructor
  · rintro ⟨after, hname, opened, hopened, ⟨inner, errors⟩, hlist, ids, hids, hcapture⟩
    split_ifs at hcapture with hsyntax
    cases hC : captureMachine (own.body parentHasData ids) namesOnly with
    | error fault =>
      rw [hC] at hcapture
      cases hcapture
    | ok C =>
      rw [hC] at hcapture
      obtain ⟨rfl, hnil⟩ := Prod.mk.inj (Option.some.inj hcapture)
      simp only [List.append_eq_nil_iff] at hnil
      obtain ⟨hopening, rfl, hstatements, herrors⟩ := hnil
      exact ⟨hname, opened, inner, ids, hopened, hlist, hids, hsyntax, ⟨⟨C, hC⟩, herrors⟩, hopening,
        hstatements⟩
  · rintro ⟨hname, opened, inner, ids, hopened, hlist, hids, hsyntax, ⟨⟨C, hC⟩, herrors⟩, hopening,
      hstatements⟩
    refine ⟨outer', hname, opened, hopened, (inner, []), hlist, ids, hids, ?_⟩
    rw [if_neg hsyntax, hC]
    simp [hopening, hstatements, herrors]

/-- What is asked of a machine alone, with what has been read at its brace. -/
lemma proper_iff {m : MachineText} {ids : IdList}
    (hids : readNames .empty m.occurrences = some ids) :
    m.Proper namesOnly parentHasData ↔
      ¬ (m.own.decls = [] ∨ m.machines = [] ∧ m.own.statements = []) ∧
        ((∃ C, captureMachine (m.own.body parentHasData ids) namesOnly = .ok C) ∧
          (m.own.body parentHasData ids).captureErrors namesOnly = []) ∧
        m.own.openingErrors parentHasData = [] ∧
        m.own.statements.flatMap (m.own.statementErrors ids) = [] := by
  have hm : m.ids = ids := by rw [MachineText.ids, hids, Option.getD_some]
  have heventList : (m.own.body parentHasData ids).eventList ≠ [] ↔ m.own.events ≠ [] :=
    not_congr List.map_eq_nil_iff
  have hstateList : (m.own.body parentHasData ids).stateList ≠ [] ↔ m.own.states ≠ [] :=
    not_congr List.map_eq_nil_iff
  rw [exists_captureMachine_iff, OwnText.openingErrors_eq_nil_iff,
    OwnText.statementErrors_eq_nil_iff, heventList, hstateList, not_or, not_and_or]
  constructor
  · intro h
    have hdecls : m.own.decls ≠ [] := fun hnil => h.hasStates (by simp [OwnText.states, hnil])
    subst hm
    exact ⟨⟨hdecls, h.statement⟩, ⟨h.hasEvents, h.hasStates, h.data, h.inTable, h.nodup⟩,
      ⟨h.natives, h.qualifiers, h.states, h.translators⟩, h.matrices, h.actions⟩
  · rintro ⟨⟨-, hstatement⟩, ⟨hevents, hstates, hdata, htable, hnodup⟩,
      ⟨hnatives, hqualifiers, hinhibits, htranslators⟩, hmatrices, hactions⟩
    subst hm
    exact ⟨(exists_readNames_iff m).mp ⟨_, hids⟩, hnatives, hqualifiers, hinhibits, htranslators,
      hstatement, hactions, hmatrices, hevents, hstates, hdata, htable, hnodup⟩

/-- A machine is sound if it is proper and its sub-machines are sound. -/
lemma sound_iff (m : MachineText) :
    m.Sound namesOnly parentHasData ↔ m.Proper namesOnly parentHasData ∧
      ∀ c ∈ m.machines, c.Sound namesOnly (some m.own.data.isSome) :=
  ⟨fun h => by cases h with | mk hproper hmachines => exact ⟨hproper, hmachines⟩,
    fun h => .mk h.1 h.2⟩

/-- **Sound machines are accepted.** A machine is read without errors if and only if its name is one
that a machine may get, and it and its sub-machines are sound. By induction on the tree. -/
theorem MachineText.read_eq_some_iff (m : MachineText) (outer outer' : IdList) :
    m.read namesOnly parentHasData outer = some (outer', []) ↔
      readNames outer [(m.own.name, .machineName)] = some outer' ∧
        m.Sound namesOnly parentHasData := by
  induction m using MachineText.induct generalizing parentHasData outer outer' with
  | mk own machines ih =>
    rw [read_eq_some_nil_iff, sound_iff]
    apply and_congr_right'
    have hlist : ∀ outer outer',
        MachineText.readList namesOnly (some own.data.isSome) outer machines = some (outer', []) ↔
          readNames outer (machines.map fun c => (c.own.name, .machineName)) = some outer' ∧
            ∀ c ∈ machines, c.Sound namesOnly (some own.data.isSome) :=
      readList_eq_some_iff fun c hc outer outer' => ih c hc outer outer'
    constructor
    · rintro ⟨opened, inner, ids, hopened, hread, hids, hrest⟩
      obtain ⟨hinner, hsound⟩ := (hlist opened inner).mp hread
      have hnames := (readNames_occurrences_eq_some_iff _ _).mpr
        ⟨opened, inner, hopened, hinner, hids⟩
      exact ⟨(proper_iff hnames).mpr hrest, hsound⟩
    · rintro ⟨hproper, hsound⟩
      obtain ⟨ids, hnames⟩ := (exists_readNames_iff _).mpr hproper.names
      obtain ⟨opened, inner, hopened, hinner, hids⟩ :=
        (readNames_occurrences_eq_some_iff _ _).mp hnames
      exact ⟨opened, inner, ids, hopened, (hlist opened inner).mpr ⟨hinner, hsound⟩, hids,
        (proper_iff hnames).mp hproper⟩

/-- A name that is not known can be that of one machine. -/
private lemma isSome_runOps_machineName (n : ℕ) :
    (runOps Role.after .absent (List.replicate n .machineName)).isSome ↔ n ≤ 1 := by
  rcases n with _ | _ | n
  · exact iff_of_true rfl (by omega)
  · exact iff_of_true rfl (by omega)
  · exact iff_of_false (by simp [List.replicate_succ, runOps_cons, Role.after, IdEntry.lexed])
      (by omega)

/-- Top-level machines can be read if their names are different. -/
private lemma isSome_readNames_machineName (l : List Ident) :
    (readNames .empty (l.map fun x => (x, .machineName))).isSome ↔ l.Nodup := by
  rw [isSome_readNames_iff, List.nodup_iff_count_le_one]
  refine forall_congr' fun x => ?_
  rw [opsAt_map]
  exact isSome_runOps_machineName _

/-- **Accepted files.** A file is read to its end, and nothing is reported, if and only if there is
a machine in it, its machines have different names, and each one is sound with all its sub-machines.
-/
theorem readFile_eq_some_nil_iff (ms : List MachineText) :
    readFile namesOnly ms = some [] ↔ ms ≠ [] ∧ (ms.map fun m => m.own.name).Nodup ∧
      ∀ m ∈ ms, m.Sound namesOnly none := by
  have hnames : (readNames .empty (ms.map fun m => (m.own.name, Role.machineName))).isSome ↔
      (ms.map fun m => m.own.name).Nodup := by
    have hiff := isSome_readNames_machineName (ms.map fun m => m.own.name)
    rwa [List.map_map] at hiff
  rw [readFile]
  split_ifs with hms
  · simp [hms]
  · rw [Option.map_eq_some_iff]
    constructor
    · rintro ⟨⟨outer, errors⟩, hread, rfl⟩
      obtain ⟨hrun, hsound⟩ :=
        (readList_eq_some_iff (fun c _ => c.read_eq_some_iff) _ _).mp hread
      exact ⟨hms, hnames.mp (Option.isSome_of_eq_some hrun), hsound⟩
    · rintro ⟨-, hnodup, hsound⟩
      obtain ⟨outer, hrun⟩ := Option.isSome_iff_exists.mp (hnames.mpr hnodup)
      exact ⟨(outer, []), (readList_eq_some_iff (fun c _ => c.read_eq_some_iff) _ _).mpr
        ⟨hrun, hsound⟩, rfl⟩

/-- The text is that of a file that is read to its end, and nothing is reported. -/
def TextAccepted (namesOnly : Bool) (text : List Token) : Prop :=
  ∃ ms, IsText ms text ∧ readFile namesOnly ms = some []

/-- **Accepted texts.** A text of machines is accepted if and only if it has a machine, its machines
have different names, and each one is sound with all its sub-machines. It does not matter that the
text might be that of other machines, for it is not. -/
theorem textAccepted_iff {text : List Token} {ms : List MachineText} (h : IsText ms text) :
    TextAccepted namesOnly text ↔ ms ≠ [] ∧ (ms.map fun m => m.own.name).Nodup ∧
      ∀ m ∈ ms, m.Sound namesOnly none := by
  rw [← readFile_eq_some_nil_iff]
  constructor
  · rintro ⟨ms', htext, hread⟩
    obtain rfl := h.unique htext
    exact hread
  · exact fun hread => ⟨ms, h, hread⟩

/-- A text that is accepted. -/
theorem textAccepted_twoStatesText : TextAccepted false twoStatesText.tokens :=
  (textAccepted_iff isText_twoStatesText).mpr ((readFile_eq_some_nil_iff _).mp (by decide))

end Reports

end FsmLang
