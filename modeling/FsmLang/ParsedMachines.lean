import Mathlib.Data.List.Basic
import Mathlib.Tactic
import FsmLang.AcceptedTexts
import FsmLang.StatesReturned

set_option relaxedAutoImplicit false
set_option autoImplicit false

/-!
# What is generated from accepted files

The generators are given what the reading leaves of a machine. What they rely on is that entries
name events and states of the machine, that no cell is named twice, and so on. A file that is
accepted has it all, except for two names. `noEvent` and `noTransition` are an event and a state to
the grammar, and stand for none: they may be named in matrices, and they may be declared.

## Main definitions

* `MachineText.Within` — the machines of a tree.
* `MachineText.generated` — a machine as the generators are given it.
* `MachineText.PlaceholdersDeclared` — where the two names are used, they are declared.

## Main results

* `accepted_generated_iff` — when what is generated from an accepted file is what the generators
  rely on.
* `returnsStates_generated_iff` — and for machines whose actions return states.
-/

namespace FsmLang

open CSemantics

/-! ## Machines of a tree -/

/-- The machine is in the tree of the other one. -/
inductive MachineText.Within : MachineText → MachineText → Prop where
  | self (m : MachineText) : Within m m
  | sub {m c d : MachineText} (hc : c ∈ m.machines) (hd : Within d c) : Within d m

/-- Each machine of a sound tree is as it should be, for the parent that it has. -/
lemma MachineText.Sound.exists_proper {namesOnly : Bool} {parentHasData : Option Bool}
    {m d : MachineText} (h : m.Sound namesOnly parentHasData) (hd : d.Within m) :
    ∃ parentHasData', d.Proper namesOnly parentHasData' := by
  induction hd generalizing parentHasData with
  | self m => exact ⟨parentHasData, ((sound_iff m).mp h).1⟩
  | sub hc _ ih => exact ih (((sound_iff _).mp h).2 _ hc)

/-- A machine of an accepted file. -/
lemma exists_proper_of_readFile {namesOnly : Bool} {ms : List MachineText}
    (h : readFile namesOnly ms = some []) {top m : MachineText} (htop : top ∈ ms)
    (hm : m.Within top) : ∃ parentHasData, m.Proper namesOnly parentHasData :=
  (((readFile_eq_some_nil_iff ms).mp h).2.2 top htop).exists_proper hm

/-! ## Generated machines -/

/-- What does not come from the text of a machine: the options of the command line, and what is
taken from the tree above it. -/
structure Surroundings where
  artifactsImplementing : Bool := false
  ancestors : ℕ := 0
  compactActionArray : Bool := false
  addProfilingMacros : Bool := false
  emptyCellFn : Option String := none
  ufMachineName : String := ""
  fqMachineName : String := ""
  isSubMachine : Bool := false

/-- The function on entry or exit: that of the state's declaration, or one with the state's
name. -/
def OwnText.hook (o : OwnText) (noFnStr : String) (has : StateData → Bool)
    (fn : StateData → Option Ident) (x : Ident) : Option String :=
  (o.states.find? fun s => s.name = x).bind fun s =>
    if has s.data then some ((fn s.data).elim (noFnStr ++ x.name) Ident.name) else none

/-- A machine as the generators are given it. References to events of the parent are not among the
texts. -/
def MachineText.generated (m : MachineText) (S : Surroundings) : RunningMachine Ident Ident where
  toMachineMatrix := m.own.matrix m.ids
  actionsReturn := m.own.actionsReturn
  artifactsImplementing := S.artifactsImplementing
  ancestors := S.ancestors
  machineTransition := m.own.qualifier.1.machineTransition.map Ident.name
  entryFn := m.own.hook "onEntryTo_" StateData.hasEntryFn StateData.entryFn
  exitFn := m.own.hook "onExitFrom_" StateData.hasExitFn StateData.exitFn
  compactActionArray := S.compactActionArray
  addProfilingMacros := S.addProfilingMacros
  emptyCellFn := S.emptyCellFn
  noTransition := .noTransition
  ufMachineName := S.ufMachineName
  fqMachineName := S.fqMachineName
  isSubMachine := S.isSubMachine
  hasSubMachines := !m.machines.isEmpty
  inhibitsSubMachines x := m.own.states.any fun s => s.name = x && s.data.inhibitsSubMachines

/-- Where a matrix names `noEvent` or `noTransition`, the machine declares an event or a state of
this name. -/
structure MachineText.PlaceholdersDeclared (m : MachineText) : Prop where
  noEvent : ∀ v ∈ m.own.actionMatrices m.ids, .noEvent ∈ vectorNames v.events →
    .noEvent ∈ m.own.eventNames
  noTransition : ∀ v ∈ m.own.actionMatrices m.ids, .noTransition ∈ v.states →
    .noTransition ∈ m.own.stateNames

/-! ## Names in matrices -/

/-- The names read from a vector are those it lists. -/
lemma read_fst_eq_vectorNames (K : MatrixScope Ident Ident) (v : EventVector Ident) :
    (v.read K).1 = vectorNames v := by
  cases v with
  | all => rfl
  | scalar e => rfl
  | vector first rest last =>
    rw [EventVector.read_vector]
    rfl

section Names

variable {m : MachineText} {ids : IdList} {v : ActionMatrix Ident Ident}

/-- What a matrix of a machine is from: an action, or a transition without an action. -/
lemma mem_actionMatrices (hv : v ∈ m.own.actionMatrices ids) :
    (∃ first rest, .actions first rest ∈ m.own.statements ∧
        ∃ a ∈ first :: rest, v = a.actionMatrix ids) ∨
      ∃ matrixFirst matrix t, .transition matrixFirst matrix t ∈ m.own.statements ∧
        v = { transition := some (t.transition ids), events := matrix.events
              states := vectorNames matrix.states } := by
  obtain ⟨s, hs, hv⟩ := List.mem_flatMap.mp hv
  cases s with
  | actions first rest =>
    obtain ⟨a, ha, rfl⟩ := List.mem_map.mp hv
    exact .inl ⟨first, rest, hs, a, ha, rfl⟩
  | transition matrixFirst matrix t =>
    exact .inr ⟨matrixFirst, matrix, t, hs, List.mem_singleton.mp hv⟩

/-- What occurs in a statement occurs in the machine. -/
lemma mem_occurrences_of_statement {s : StatementText} (hs : s ∈ m.own.statements)
    {o : Ident × Role} (ho : o ∈ s.occurrences) : o ∈ m.occurrences := by
  refine List.mem_append_right _ ?_
  exact List.mem_flatMap.mpr ⟨s, hs, ho⟩

/-- The matrix and the transition of an entry occur in its statement. -/
lemma exists_statement (hv : v ∈ m.own.actionMatrices ids) :
    ∃ s ∈ m.own.statements, (∀ x ∈ vectorNames v.events, (x, Role.uses .event) ∈ s.occurrences) ∧
      ∀ x ∈ v.states, (x, Role.uses .state) ∈ s.occurrences := by
  have hmatrix : ∀ matrix : MatrixText,
      (∀ x ∈ vectorNames matrix.events, (x, Role.uses .event) ∈ matrix.occurrences) ∧
        ∀ x ∈ vectorNames matrix.states, (x, Role.uses .state) ∈ matrix.occurrences := by
    intro matrix
    simp [MatrixText.occurrences]
  rcases mem_actionMatrices hv with ⟨first, rest, hs, a, ha, rfl⟩ | ⟨matrixFirst, matrix, t, hs, rfl⟩
  · obtain ⟨hevents, hstates⟩ := hmatrix a.matrix
    have hsub : ∀ o ∈ a.matrix.occurrences, o ∈ (StatementText.actions first rest).occurrences :=
      fun o ho => List.mem_flatMap.mpr ⟨a, ha, by simp [ActionText.occurrences, ho]⟩
    exact ⟨_, hs, fun x hx => hsub _ (hevents x hx), fun x hx => hsub _ (hstates x hx)⟩
  · obtain ⟨hevents, hstates⟩ := hmatrix matrix
    have hsub : ∀ o ∈ matrix.occurrences,
        o ∈ (StatementText.transition matrixFirst matrix t).occurrences :=
      fun o ho => List.mem_append_left _ ho
    exact ⟨_, hs, fun x hx => hsub _ (hevents x hx), fun x hx => hsub _ (hstates x hx)⟩

/-- The events of a matrix are declared, or `noEvent`. -/
private lemma eventNames_of_matrix (h : readNames .empty m.occurrences = some m.ids)
    (hv : v ∈ m.own.actionMatrices m.ids) {x : Ident} (hx : x ∈ vectorNames v.events) :
    x ∈ m.own.eventNames ∨ x = .noEvent := by
  obtain ⟨s, hs, hevents, -⟩ := exists_statement hv
  exact event_of_uses h (mem_occurrences_of_statement hs (hevents x hx))

/-- The states of a matrix are declared, or `noTransition`. -/
private lemma stateNames_of_matrix (h : readNames .empty m.occurrences = some m.ids)
    (hv : v ∈ m.own.actionMatrices m.ids) {x : Ident} (hx : x ∈ v.states) :
    x ∈ m.own.stateNames ∨ x = .noTransition := by
  obtain ⟨s, hs, -, hstates⟩ := exists_statement hv
  exact state_of_uses h (mem_occurrences_of_statement hs (hstates x hx))

/-- A transition to a state is to a declared one, or to `noTransition`. -/
private lemma stateNames_of_transition (h : readNames .empty m.occurrences = some m.ids)
    (hv : v ∈ m.own.actionMatrices m.ids) {x : Ident} (hx : v.transition = some (.state x)) :
    x ∈ m.own.stateNames ∨ x = .noTransition := by
  have hstate : ∀ t : TransitionText, t.transition m.ids = .state x → m.ids x = .known .state := by
    intro t ht
    rw [TransitionText.transition] at ht
    split_ifs at ht with hknown
    obtain rfl : t.name = x := by simpa using ht
    exact hknown
  refine state_of_known h ?_
  rcases mem_actionMatrices hv with ⟨_, _, _, a, _, rfl⟩ | ⟨_, _, t, _, rfl⟩
  · obtain ⟨t, -, ht⟩ := Option.map_eq_some_iff.mp hx
    exact hstate t ht
  · exact hstate t (Option.some.inj hx)

end Names

/-! ## What the generators rely on -/

section Generated

variable {namesOnly : Bool} {ms : List MachineText} {top m : MachineText} {S : Surroundings}

/-- The entries are those of the matrices of the text. -/
lemma mem_actionInfoList_generated {pai : ActionInfo Ident Ident} :
    pai ∈ (m.generated S).actionInfoList ↔
      ∃ v ∈ m.own.actionMatrices m.ids, v.actionInfo m.own.scope = pai :=
  List.mem_map

/-- The names have been read. -/
lemma readNames_ids {parentHasData : Option Bool} (h : m.Proper namesOnly parentHasData) :
    readNames .empty m.occurrences = some m.ids := by
  obtain ⟨ids, hids⟩ := (exists_readNames_iff m).mpr h.names
  rw [MachineText.ids, hids, Option.getD_some]

/-- What a matrix names is declared, if the two names are. -/
lemma declared_generated_iff {parentHasData : Option Bool} (h : m.Proper namesOnly parentHasData) :
    (m.generated S).Declared ↔ m.PlaceholdersDeclared := by
  have hread := readNames_ids h
  constructor
  · intro hdeclared
    constructor
    · intro v hv hx
      have hsub := (hdeclared _ (mem_actionInfoList_generated.mpr ⟨v, hv, rfl⟩)).1
      exact hsub (by rw [ActionMatrix.actionInfo, read_fst_eq_vectorNames]; exact hx)
    · intro v hv hx
      exact (hdeclared _ (mem_actionInfoList_generated.mpr ⟨v, hv, rfl⟩)).2 hx
  · intro hplaceholders pai hpai
    obtain ⟨v, hv, rfl⟩ := mem_actionInfoList_generated.mp hpai
    constructor
    · intro x hx
      rw [ActionMatrix.actionInfo, read_fst_eq_vectorNames] at hx
      rcases eventNames_of_matrix hread hv hx with hx' | rfl
      · exact hx'
      · exact hplaceholders.noEvent v hv hx
    · intro x hx
      rcases stateNames_of_matrix hread hv hx with hx' | rfl
      · exact hx'
      · exact hplaceholders.noTransition v hv hx

/-- An entry has an action or a transition. -/
lemma named_of_mem_actionMatrices {ids : IdList} {v : ActionMatrix Ident Ident}
    (hv : v ∈ m.own.actionMatrices ids) : v.action ≠ "" ∨ v.transition ≠ none := by
  rcases mem_actionMatrices hv with ⟨-, -, -, a, -, rfl⟩ | ⟨-, -, t, -, rfl⟩
  · exact .inl a.name.nonempty
  · exact .inr (by simp)

/-- All but the names has been checked. -/
lemma accepted_generated {parentHasData : Option Bool} (h : m.Proper namesOnly parentHasData)
    (hplaceholders : m.PlaceholdersDeclared) : (m.generated S).Accepted := by
  constructor
  case declared => exact (declared_generated_iff h).mpr hplaceholders
  case nodup => exact (nodup_of_readNames (readNames_ids h)).1
  case nonempty => exact fun hnil => h.hasStates (List.map_eq_nil_iff.mp hnil)
  case named =>
    intro pai hpai
    obtain ⟨v, hv, rfl⟩ := mem_actionInfoList_generated.mp hpai
    exact named_of_mem_actionMatrices hv
  case elsewhere =>
    intro pai hpai haction
    obtain ⟨v, hv, rfl⟩ := mem_actionInfoList_generated.mp hpai
    exact (h.matrices v hv).2 haction
  case oneResult =>
    intro hstates pai hpai
    obtain ⟨v, hv, rfl⟩ := mem_actionInfoList_generated.mp hpai
    rcases mem_actionMatrices hv with ⟨first, rest, hs, a, ha, rfl⟩ | ⟨-, -, t, -, rfl⟩
    · have hnone := h.actions ((m.own.actionsReturn_eq_states_iff).mp hstates) first rest hs a ha
      exact .inr (by simp [ActionMatrix.actionInfo, ActionText.actionMatrix, hnone])
    · exact .inl rfl
  case populated => exact (populateActionArray_error_iff _).mpr h.nodup

/-- **What is generated from accepted files.** For every machine of an accepted file, with its
sub-machines to any depth, and for all options: what the generators rely on holds if and only if
`noEvent` and `noTransition` are not named in its matrices, or are declared. -/
theorem accepted_generated_iff (hfile : readFile namesOnly ms = some []) (htop : top ∈ ms)
    (hm : m.Within top) : (m.generated S).Accepted ↔ m.PlaceholdersDeclared := by
  obtain ⟨parentHasData, h⟩ := exists_proper_of_readFile hfile htop hm
  exact ⟨fun haccepted => (declared_generated_iff h).mp haccepted.declared, accepted_generated h⟩

/-- A machine that is read and generated. -/
theorem accepted_generated_twoStatesText : (twoStatesText.generated {}).Accepted :=
  (@accepted_generated_iff false [twoStatesText] twoStatesText twoStatesText {} (by decide)
    (by simp) (.self _)).mpr ⟨by decide, by decide⟩

/-- What is asked for in addition where actions return states. -/
lemma returnsStates_generated {parentHasData : Option Bool}
    (h : m.Proper namesOnly parentHasData) (hstates : .actionsReturn .states ∈ m.own.qualifiers)
    (hnot : .noTransition ∉ m.own.stateNames)
    (hmatrices : ∀ v ∈ m.own.actionMatrices m.ids, .noTransition ∉ v.states ∧
      (.noEvent ∈ vectorNames v.events → .noEvent ∈ m.own.eventNames)) :
    (m.generated S).ReturnsStates := by
  have hplaceholders : m.PlaceholdersDeclared :=
    ⟨fun v hv => (hmatrices v hv).2, fun v hv hx => absurd hx (hmatrices v hv).1⟩
  refine ⟨accepted_generated h hplaceholders, (m.own.actionsReturn_eq_states_iff).mpr hstates, ?_,
    hnot⟩
  intro pai hpai x hx
  obtain ⟨v, hv, rfl⟩ := mem_actionInfoList_generated.mp hpai
  exact stateNames_of_transition (readNames_ids h) hv hx

/-- **Machines whose actions return states.** For every machine of an accepted file and for all
options: what the generators rely on for such machines holds if and only if the machine is one,
`noTransition` is neither declared nor named in a matrix as a state that is left, and `noEvent` is
not named in one unless it is declared. -/
theorem returnsStates_generated_iff (hfile : readFile namesOnly ms = some []) (htop : top ∈ ms)
    (hm : m.Within top) : (m.generated S).ReturnsStates ↔
      .actionsReturn .states ∈ m.own.qualifiers ∧ .noTransition ∉ m.own.stateNames ∧
        ∀ v ∈ m.own.actionMatrices m.ids, .noTransition ∉ v.states ∧
          (.noEvent ∈ vectorNames v.events → .noEvent ∈ m.own.eventNames) := by
  obtain ⟨parentHasData, h⟩ := exists_proper_of_readFile hfile htop hm
  constructor
  · intro hreturns
    have hplaceholders := (declared_generated_iff h).mp hreturns.declared
    exact ⟨(m.own.actionsReturn_eq_states_iff).mp hreturns.actionsReturnStates,
      hreturns.noTransition_notMem, fun v hv =>
        ⟨fun hx => hreturns.noTransition_notMem (hplaceholders.noTransition v hv hx),
          hplaceholders.noEvent v hv⟩⟩
  · rintro ⟨hstates, hnot, hmatrices⟩
    exact returnsStates_generated h hstates hnot hmatrices

/-- Two states and an event; the action returns the state to go to. -/
def statesText : MachineText :=
  .mk
    { natives := [], reentrant := false, name := .of 'm' []
      qualifiers := [.actionsReturn .states], data := none
      decls := [.states ⟨.of 'a' [], []⟩ [⟨.of 'b' [], []⟩], .events ⟨.of 'e' [], none, .none⟩ []]
      statements :=
        [.actions ⟨.of 'd' [], ⟨.scalar (.of 'e' []), .scalar (.of 'a' [])⟩, none⟩ []] }
    []

/-- The matrix of the machine with two states is one whose actions return states. -/
theorem returnsStates_generated_statesText : (statesText.generated {}).ReturnsStates :=
  (@returnsStates_generated_iff false [statesText] statesText statesText {} (by decide)
    (by simp) (.self _)).mpr ⟨by decide, by decide, by decide⟩

end Generated

end FsmLang
