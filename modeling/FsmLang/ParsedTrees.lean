import Mathlib.Data.List.Basic
import Mathlib.Tactic
import FsmLang.GeneratedCode
import FsmLang.ParsedMachines
import FsmLang.RenamedMatrices

set_option relaxedAutoImplicit false
set_option autoImplicit false

/-!
# Trees of accepted files

The trees of machines that code is generated from know events, states and sub-machines by their
places. A text knows them by their names. If a text is accepted, the tree is one that code can be
generated from; and if its matrices name nothing but what is declared, and the machines that are to
implement states are there, each machine's matrix by places is the one by names, cell by cell.

## Main definitions

* `MachineText.machine` — the tree of a text.
* `MachineText.actions` — the matrix by places.
* `MachineText.NamesDeclared` — nothing else is named than what is there.

## Main results

* `accepted_machine` — the tree of an accepted text is accepted.
* `tree_of_readFile` — when the matrices by places are those by names.
-/

namespace FsmLang

open CSemantics

/-! ## Trees -/

/-- The record of a machine. The type that its name has been given in the list around it tells
whether it implements something. -/
def OwnText.info (o : OwnText) (entry : IdEntry) : MachineInfo where
  name := o.name.name
  eventList := o.events.map fun e => ⟨e.name.name, e.externalDesignation.map Ident.name⟩
  stateList := o.states.map fun s => ⟨s.name.name, s.data.inhibitsSubMachines⟩
  actionsReturn := o.actionsReturn
  stateImplementing := entry = .known .siMachine
  translatorImplementing := entry = .known .tiMachine

mutual

/-- The tree of a text. -/
def MachineText.machine : MachineText → IdEntry → Machine
  | .mk own machines, entry =>
    .mk (own.info entry) (MachineText.machineList (MachineText.mk own machines).ids machines)

/-- The trees of sub-machines. -/
def MachineText.machineList (ids : IdList) : List MachineText → List Machine
  | [] => []
  | m :: ms => m.machine (ids m.own.name) :: MachineText.machineList ids ms

end

section Trees

variable (m : MachineText) (entry : IdEntry)

/-- The sub-machines are those of the text, one by one. -/
private lemma machineList_eq (ids : IdList) (ms : List MachineText) :
    MachineText.machineList ids ms = ms.map fun c => c.machine (ids c.own.name) := by
  induction ms with
  | nil => rfl
  | cons c ms ih => rw [MachineText.machineList, ih, List.map_cons]

/-- A machine has its own data and the machines of its text below it. -/
lemma machine_eq : m.machine entry =
    .mk (m.own.info entry) (m.machines.map fun c => c.machine (m.ids c.own.name)) := by
  obtain ⟨own, machines⟩ := m
  rw [MachineText.machine, machineList_eq]
  rfl

/-- The tree has as many events as the text. -/
lemma length_eventList : (m.machine entry).eventList.length = m.own.eventNames.length := by
  rw [machine_eq, Machine.eventList_mk, OwnText.info, OwnText.eventNames, List.length_map,
    List.length_map]

/-- The tree has as many states as the text. -/
lemma length_stateList : (m.machine entry).stateList.length = m.own.stateNames.length := by
  rw [machine_eq, Machine.stateList_mk, OwnText.info, OwnText.stateNames, List.length_map,
    List.length_map]

/-- The tree has as many sub-machines as the text. -/
lemma length_machineList : (m.machine entry).machineList.length =
    (m.machines.map fun c => c.own.name).length := by
  rw [machine_eq, Machine.machineList_mk, List.length_map, List.length_map]

end Trees

/-- **Trees of accepted texts.** Each machine of the tree declares an event and a state. -/
theorem accepted_machine {namesOnly : Bool} {parentHasData : Option Bool} {m : MachineText}
    (h : m.Sound namesOnly parentHasData) (entry : IdEntry) : (m.machine entry).Accepted := by
  induction h generalizing entry with
  | @mk parentHasData m hproper _ ih =>
    rw [Machine.accepted_iff, machine_eq, Machine.eventList_mk, Machine.stateList_mk,
      Machine.machineList_mk]
    refine ⟨?_, ?_, fun c hc => ?_⟩
    · exact fun hnil => hproper.hasEvents (List.map_eq_nil_iff.mp hnil)
    · exact fun hnil => hproper.hasStates (List.map_eq_nil_iff.mp hnil)
    · obtain ⟨d, hd, rfl⟩ := List.mem_map.mp hc
      exact ih d hd _

/-- The machines of a tree are those of the texts in it. -/
private lemma exists_text_of_sub? {m : MachineText} {entry : IdEntry} {path : List ℕ} {c : Machine}
    (h : (m.machine entry).sub? path = some c) :
    ∃ (d : MachineText) (entry' : IdEntry), d.Within m ∧ c = d.machine entry' := by
  induction path generalizing m entry with
  | nil => exact ⟨m, entry, .self m, (Option.some.inj h).symm⟩
  | cons k path ih =>
    rw [Machine.sub?_cons, Option.bind_eq_some_iff] at h
    obtain ⟨child, hchild, hrest⟩ := h
    rw [machine_eq, Machine.machineList_mk, List.getElem?_map] at hchild
    obtain ⟨d, hd, rfl⟩ := Option.map_eq_some_iff.mp hchild
    obtain ⟨e, entry', hwithin, rfl⟩ := ih hrest
    exact ⟨e, entry', .sub (List.mem_of_getElem? hd) hwithin, rfl⟩

/-! ## Matrices by places -/

namespace MachineText

variable (m : MachineText) (entry : IdEntry)

/-- The name of an event. -/
def eventIdent : (m.machine entry).EventIdx → Ident :=
  namesAt m.own.eventNames (length_eventList m entry)

/-- The name of a state. -/
def stateIdent : (m.machine entry).StateIdx → Ident :=
  namesAt m.own.stateNames (length_stateList m entry)

/-- What is said of a state. -/
def stateData (s : (m.machine entry).StateIdx) : StateData :=
  (namesAt m.own.states ((length_stateList m entry).trans (List.length_map _)) s).data

/-- The matrix by places, and the functions. -/
def actions (S : Surroundings) : MachineActions (m.machine entry) where
  actionInfoList := (m.own.matrix m.ids).actionInfoList.map
    (ActionInfo.places (placeOf m.own.eventNames (length_eventList m entry))
      (placeOf m.own.stateNames (length_stateList m entry)))
  consumedByTranslator i := m.own.scope.consumedByTranslator (m.eventIdent entry i)
  implementingMachine s := (m.stateData entry s).implementingMachine.bind
    (placeOf (m.machines.map fun c => c.own.name) (length_machineList m entry))
  machineTransition := m.own.qualifier.1.machineTransition.map Ident.name
  entryFn s := m.own.hook "onEntryTo_" StateData.hasEntryFn StateData.entryFn (m.stateIdent entry s)
  exitFn s := m.own.hook "onExitFrom_" StateData.hasExitFn StateData.exitFn (m.stateIdent entry s)
  emptyCellFn := S.emptyCellFn

/-- The matrices name events and states that are declared, and transitions go to such states; and
the machines that are to implement states are sub-machines. -/
structure NamesDeclared : Prop where
  events : ∀ v ∈ m.own.actionMatrices m.ids, ∀ x ∈ vectorNames v.events, x ∈ m.own.eventNames
  states : ∀ v ∈ m.own.actionMatrices m.ids, ∀ x ∈ v.states, x ∈ m.own.stateNames
  transitions : ∀ v ∈ m.own.actionMatrices m.ids, ∀ x, v.transition = some (.state x) →
    x ∈ m.own.stateNames
  machines : ∀ s ∈ m.own.states, ∀ x, s.data.implementingMachine = some x →
    x ∈ m.machines.map fun c => c.own.name

/-- The machine has a matrix by places that code can be generated from, and that has in each cell
the entry that the matrix by names has there. -/
def PlacesForNames (S : Surroundings) : Prop :=
  ∃ D : AcceptedActions (m.machine entry), D.toMachineActions = m.actions entry S ∧
    D.matrix.Renames (m.eventIdent entry) (m.stateIdent entry) (m.own.matrix m.ids) ∧
    ∀ i s, D.cellIdx i s = (m.generated S).cellIdx (m.eventIdent entry i) (m.stateIdent entry s)

end MachineText

section Places

variable {m : MachineText} {entry : IdEntry} {S : Surroundings}

/-- The name at a place of a mapped list. -/
private lemma namesAt_map {α β : Type*} {n : ℕ} (f : α → β) (l : List α) (h : n = (l.map f).length)
    (h' : n = l.length) (i : Fin n) : namesAt (l.map f) h i = f (namesAt l h' i) := by
  simp [namesAt]

/-- Every member of the list stands at a place. -/
private lemma exists_namesAt {α : Type*} {n : ℕ} {l : List α} (h : n = l.length) {a : α}
    (ha : a ∈ l) :
    ∃ i, namesAt l h i = a := by
  rw [← map_namesAt l h] at ha
  obtain ⟨i, -, hi⟩ := List.mem_map.mp ha
  exact ⟨i, hi⟩

/-- What is said of the state of this name is what is said of the state in its place. -/
lemma implementedBySubMachine_stateIdent (hnodup : m.own.stateNames.Nodup)
    (s : (m.machine entry).StateIdx) :
    m.own.scope.implementedBySubMachine (m.stateIdent entry s) =
      (m.stateData entry s).implementingMachine.isSome := by
  have hlength := (length_stateList m entry).trans (List.length_map _)
  have hname : m.stateIdent entry s = (namesAt m.own.states hlength s).name :=
    namesAt_map _ _ _ _ _
  have hmem : namesAt m.own.states hlength s ∈ m.own.states := List.get_mem _ _
  rw [hname, Bool.eq_iff_iff]
  simp only [OwnText.scope, List.any_eq_true, Bool.and_eq_true, decide_eq_true_eq]
  constructor
  · rintro ⟨t, ht, htname, hsome⟩
    rw [List.inj_on_of_nodup_map hnodup ht hmem htname] at hsome
    exact hsome
  · exact fun hsome => ⟨_, hmem, rfl, hsome⟩

/-- The machine that implements a state, by its place. -/
lemma implementingMachine_actions (s : (m.machine entry).StateIdx) :
    (m.actions entry S).implementingMachine s = (m.stateData entry s).implementingMachine.bind
      (placeOf (m.machines.map fun c => c.own.name) (length_machineList m entry)) := rfl

/-- The machines that implement states are in the list if each state that is to be implemented is
implemented by a machine in the list. -/
lemma implementingMachine_iff (hnodup : m.own.stateNames.Nodup) :
    (∀ s, m.own.scope.implementedBySubMachine (m.stateIdent entry s) =
        ((m.actions entry S).implementingMachine s).isSome) ↔
      ∀ s ∈ m.own.states, ∀ x, s.data.implementingMachine = some x →
        x ∈ m.machines.map fun c => c.own.name := by
  have hlength := (length_stateList m entry).trans (List.length_map _)
  constructor
  · intro h t ht x hx
    obtain ⟨s, rfl⟩ := exists_namesAt hlength ht
    have hs := h s
    rw [implementedBySubMachine_stateIdent hnodup, implementingMachine_actions,
      MachineText.stateData, hx, Option.bind_some] at hs
    exact isSome_placeOf.mp hs.symm
  · intro h s
    rw [implementedBySubMachine_stateIdent hnodup, implementingMachine_actions]
    cases hx : (m.stateData entry s).implementingMachine with
    | none => rfl
    | some x =>
      have hmem := h _ (List.get_mem _ _) x hx
      rw [Option.bind_some, Option.isSome_some, eq_comm]
      exact isSome_placeOf.mpr hmem

/-- Functions are not declared to return states here. -/
private lemma states_of_transition {ids : IdList} {v : ActionMatrix Ident Ident}
    (hv : v ∈ m.own.actionMatrices ids) {t : Transition Ident} (ht : v.transition = some t)
    {x : Ident} (hx : x ∈ t.states) : t = .state x := by
  have htext : ∀ text : TransitionText, text.transition ids = t → t = .state x := by
    rintro text rfl
    rw [TransitionText.transition] at hx ⊢
    split_ifs at hx ⊢ with hstate
    · rw [List.mem_singleton.mp hx]
    · cases hx
  rcases mem_actionMatrices hv with ⟨_, _, _, a, _, rfl⟩ | ⟨_, _, text, _, rfl⟩
  · obtain ⟨text, -, htransition⟩ := Option.map_eq_some_iff.mp ht
    exact htext text htransition
  · exact htext text (Option.some.inj ht)

/-- Entries are kept if everything that they name has a place. -/
lemma entries_iff :
    (m.own.matrix m.ids).actionInfoList = (m.actions entry S).actionInfoList.map
        (ActionInfo.map (m.eventIdent entry) (m.stateIdent entry)) ↔
      ∀ v ∈ m.own.actionMatrices m.ids, (∀ x ∈ vectorNames v.events, x ∈ m.own.eventNames) ∧
        (∀ x ∈ v.states, x ∈ m.own.stateNames) ∧
          ∀ x, v.transition = some (.state x) → x ∈ m.own.stateNames := by
  have hentry : ∀ v ∈ m.own.actionMatrices m.ids,
      ((v.actionInfo m.own.scope).places (placeOf m.own.eventNames (length_eventList m entry))
        (placeOf m.own.stateNames (length_stateList m entry))).map (m.eventIdent entry)
          (m.stateIdent entry) = v.actionInfo m.own.scope ↔
      (∀ x ∈ vectorNames v.events, x ∈ m.own.eventNames) ∧ (∀ x ∈ v.states, x ∈ m.own.stateNames) ∧
        ∀ x, v.transition = some (.state x) → x ∈ m.own.stateNames := by
    intro v hv
    rw [ActionInfo.map_places (fun _ _ => namesAt_of_placeOf) (fun _ _ => namesAt_of_placeOf)]
    simp only [isSome_placeOf, ActionMatrix.actionInfo, read_fst_eq_vectorNames]
    refine and_congr_right' (and_congr_right' ⟨fun h x hx => ?_, fun h t ht x hx => ?_⟩)
    · exact h _ hx x (by simp [Transition.states])
    · exact h x (ht.trans (congrArg some (states_of_transition hv ht hx)))
  have hlist : (m.own.matrix m.ids).actionInfoList =
      (m.own.actionMatrices m.ids).map (·.actionInfo m.own.scope) := rfl
  rw [MachineText.actions, hlist, List.map_map, List.map_map, List.map_inj_left]
  exact forall₂_congr fun v hv => eq_comm.trans (hentry v hv)

/-- The matrix by places is that by names if nothing else is named than what is there. -/
private lemma renames_iff (hstates : m.own.stateNames.Nodup) :
    (m.actions entry S).matrix.Renames (m.eventIdent entry) (m.stateIdent entry)
      (m.own.matrix m.ids) ↔ m.NamesDeclared := by
  constructor
  · intro h
    have hentries := (entries_iff (S := S)).mp h.entries
    exact ⟨fun v hv => (hentries v hv).1, fun v hv => (hentries v hv).2.1,
      fun v hv => (hentries v hv).2.2, (implementingMachine_iff hstates).mp h.implemented⟩
  · intro h
    refine ⟨(map_namesAt _ _).symm, (map_namesAt _ _).symm, (entries_iff (S := S)).mpr ?_,
      fun _ => rfl, (implementingMachine_iff hstates).mpr h.machines⟩
    exact fun v hv => ⟨h.events v hv, h.states v hv, h.transitions v hv⟩

/-- An entry by places has an action or a transition, as it has by names. -/
private lemma named_of_renames (h : (m.actions entry S).matrix.Renames (m.eventIdent entry)
    (m.stateIdent entry) (m.own.matrix m.ids)) :
    ∀ pai ∈ (m.actions entry S).actionInfoList, pai.action ≠ "" ∨ pai.transition ≠ none := by
  intro pai hpai
  have hmem : pai.map (m.eventIdent entry) (m.stateIdent entry) ∈
      (m.own.matrix m.ids).actionInfoList := by
    rw [h.entries]
    exact List.mem_map_of_mem hpai
  obtain ⟨v, hv, heq⟩ := List.mem_map.mp hmem
  have haction : v.action = pai.action := congrArg ActionInfo.action heq
  have htransition : v.transition = pai.transition.map (Transition.map (m.stateIdent entry)) :=
    congrArg ActionInfo.transition heq
  rcases named_of_mem_actionMatrices hv with hne | hne
  · exact .inl (haction ▸ hne)
  · refine .inr fun hnone => hne ?_
    rw [htransition, hnone, Option.map_none]

/-- **Places for names.** A machine that is as it should be has such a matrix if and only if its
matrices name nothing but declared events and states, and the machines that are to implement its
states are there. -/
theorem placesForNames_iff {namesOnly : Bool} {parentHasData : Option Bool}
    (h : m.Proper namesOnly parentHasData) : m.PlacesForNames entry S ↔ m.NamesDeclared := by
  obtain ⟨hstates, hevents⟩ := nodup_of_readNames (readNames_ids h)
  have hiff : (m.actions entry S).matrix.Renames (m.eventIdent entry) (m.stateIdent entry)
      (m.own.matrix m.ids) ↔ m.NamesDeclared := renames_iff hstates
  rw [← hiff]
  constructor
  · rintro ⟨D, hD, hrenames, -⟩
    rw [← hD]
    exact hrenames
  · intro hrenames
    have hf : Function.Injective (m.eventIdent entry) := namesAt_injective hevents _
    have hg : Function.Injective (m.stateIdent entry) := namesAt_injective hstates _
    have herror := (hrenames.error_iff hf hg).mp ((populateActionArray_error_iff _).mpr h.nodup)
    refine ⟨{ m.actions entry S with named := named_of_renames hrenames, populated := herror }, rfl,
      hrenames, fun i s => ?_⟩
    have hcell := hrenames.cell_eq hf hg (fun pai _ =>
      ⟨fun i _ => List.mem_finRange i, fun s _ => List.mem_finRange s⟩) herror
    have horder := hrenames.cellOrder_eq hf hg ((i, s), 0)
    have hi := congrArg Prod.fst horder
    have hs := congrArg Prod.snd horder
    show _ = (populateActionArray (m.own.matrix m.ids)).cell _ _
    rw [hcell]
    exact (congrArg₂ (populateActionArray (m.actions entry S).matrix).cell hi hs).symm

end Places

/-- **Trees of accepted files.** For every machine of an accepted file, the tree by places is one
that code is generated from, and the machine at each path of it is that of a text in the file; and
it has a matrix by places that agrees with the one by names in each cell, if and only if the
matrices of the text name nothing but declared events and states, and the machines that are to
implement its states are there. -/
theorem tree_of_readFile {namesOnly : Bool} {ms : List MachineText} {top : MachineText}
    (hfile : readFile namesOnly ms = some []) (htop : top ∈ ms) (entry : IdEntry)
    (S : Surroundings) :
    (top.machine entry).Accepted ∧ ∀ path c, (top.machine entry).sub? path = some c →
      ∃ (m : MachineText) (entry' : IdEntry), m.Within top ∧ c = m.machine entry' ∧
        (m.PlacesForNames entry' S ↔ m.NamesDeclared) := by
  have hsound := ((readFile_eq_some_nil_iff ms).mp hfile).2.2 top htop
  refine ⟨accepted_machine hsound entry, fun path c hc => ?_⟩
  obtain ⟨m, entry', hm, rfl⟩ := exists_text_of_sub? hc
  obtain ⟨parentHasData, h⟩ := hsound.exists_proper hm
  exact ⟨m, entry', hm, rfl, placesForNames_iff h⟩

/-- The machine with two states names its declared event and states only. -/
private lemma namesDeclared_twoStatesText : twoStatesText.NamesDeclared where
  events := by decide
  states := by decide
  transitions := by
    intro v hv x hx
    obtain rfl := List.mem_singleton.mp hv
    cases hx
    decide
  machines := by
    have hnone : ∀ s ∈ twoStatesText.own.states, s.data.implementingMachine = none := by decide
    intro s hs x hx
    rw [hnone s hs] at hx
    cases hx

/-- The tree of the machine with two states, and its matrix by places. -/
theorem tree_of_readFile_twoStatesText :
    (twoStatesText.machine (.known .machine)).Accepted ∧
      ∀ path c, (twoStatesText.machine (.known .machine)).sub? path = some c →
        ∃ entry', c = twoStatesText.machine entry' ∧ twoStatesText.PlacesForNames entry' {} := by
  obtain ⟨haccepted, h⟩ := @tree_of_readFile false [twoStatesText] twoStatesText (by decide)
    (by simp) (.known .machine) {}
  refine ⟨haccepted, fun path c hc => ?_⟩
  obtain ⟨m, entry', hm, rfl, hiff⟩ := h path c hc
  cases hm with
  | self => exact ⟨entry', rfl, hiff.mpr namesDeclared_twoStatesText⟩
  | sub hd => cases hd

end FsmLang
