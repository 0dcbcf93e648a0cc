import Mathlib.Data.List.Count
import Mathlib.Tactic
import FsmLang.ActionArray
import FsmLang.Machine

set_option relaxedAutoImplicit false
set_option autoImplicit false

/-!
# Transition routines of machines whose actions return states

In the -tc output of such a machine every cell of the table is a function that returns a state.
A cell with a plain transition to `S` and no action refers to a routine `transitionTo<S>` of the
generator's own. The references come from the walk over the table, the declarations from the list
of the machine's transitions, and the definitions from a second walk over the table. The last two
are skipped when the machine has no transition function, and the definitions also when no weak
functions are asked for.

Events and states are generic, as in the action array; `noTransition` is one of the states that a
transition can name.

## Main definitions

* `transitionList`, `transitionFnList` — the lists the parser keeps of a machine's transitions.
* `defineActionArray` — the table.
* `referencedRoutines`, `declaredRoutines`, `definedRoutines` — the routines in the emitted code.

## Main results

* `referencedRoutines_eq`, `definedRoutines_eq` — both walks meet the same cells.
* `routines_complete_iff` — when every routine referred to is declared and defined once.
-/

namespace FsmLang

/-- What the emission of the table reads besides the matrix: the machine's name as user functions
carry it (`ufMachineName`) and in full (`fqMachineName`), whether weak functions are generated, and
the function for empty cells. -/
structure TableOptions where
  ufMachineName : String
  fqMachineName : String
  generateWeakFns : Bool := true
  emptyCellFn : Option String := none
  deriving DecidableEq, Repr

section Lists

variable {ε σ : Type*} [DecidableEq σ]

/-- Add an entry's transition to the list of plain transitions. -/
def addTransition (l : List σ) (pai : ActionInfo ε σ) : List σ :=
  match pai.transition with
  | some (.state s) => addUniqueToList l s
  | _ => l

/-- The states that the machine's entries have plain transitions to, in the order of their first
occurrence. -/
def transitionList (M : MachineMatrix ε σ) : List σ := M.actionInfoList.foldl addTransition []

/-- Add an entry's transition to the list of transition functions. -/
def addTransitionFn (l : List String) (pai : ActionInfo ε σ) : List String :=
  match pai.transition with
  | some (.fn name _) => addUniqueToList l name
  | _ => l

/-- The machine's transition functions, in the order of their first occurrence. -/
def transitionFnList (M : MachineMatrix ε σ) : List String :=
  M.actionInfoList.foldl addTransitionFn []

omit [DecidableEq σ] in
/-- A walk that adds to a list adds what its entries give. -/
lemma mem_foldl_iff {α β : Type*} {add : List α → β → List α} {given : β → α → Prop}
    (hadd : ∀ l b a, a ∈ add l b ↔ a ∈ l ∨ given b a) (bs : List β) (l : List α) (a : α) :
    a ∈ bs.foldl add l ↔ a ∈ l ∨ ∃ b ∈ bs, given b a := by
  induction bs generalizing l with
  | nil => simp
  | cons b bs ih => simp [ih, hadd, or_assoc]

/-- The list of plain transitions holds every state that an entry has a plain transition to. -/
lemma mem_transitionList {M : MachineMatrix ε σ} {s : σ} :
    s ∈ transitionList M ↔ ∃ pai ∈ M.actionInfoList, pai.transition = some (.state s) := by
  have hadd : ∀ (l : List σ) (pai : ActionInfo ε σ) (t : σ),
      t ∈ addTransition l pai ↔ t ∈ l ∨ pai.transition = some (.state t) := by
    intro l pai t
    unfold addTransition
    split
    · rename_i u hu
      rw [mem_addUniqueToList, hu]
      simp [eq_comm]
    · rename_i hno
      constructor
      · exact .inl
      · intro h
        rcases h with h | h
        · exact h
        · exact absurd h (hno t)
  rw [transitionList, mem_foldl_iff hadd]
  simp

omit [DecidableEq σ] in
/-- The list of transition functions holds every function that an entry names. -/
lemma mem_transitionFnList {M : MachineMatrix ε σ} {name : String} :
    name ∈ transitionFnList M ↔
      ∃ pai ∈ M.actionInfoList, ∃ returnsDecl, pai.transition = some (.fn name returnsDecl) := by
  have hadd : ∀ (l : List String) (pai : ActionInfo ε σ) (a : String),
      a ∈ addTransitionFn l pai ↔
        a ∈ l ∨ ∃ returnsDecl, pai.transition = some (.fn a returnsDecl) := by
    intro l pai a
    unfold addTransitionFn
    split
    · rename_i name' returnsDecl hpai
      rw [mem_addUniqueToList, hpai]
      simp [eq_comm]
    · rename_i hno
      constructor
      · exact .inl
      · intro h
        rcases h with h | ⟨returnsDecl, h⟩
        · exact h
        · exact absurd h (hno a returnsDecl)
  rw [transitionFnList, mem_foldl_iff hadd]
  simp

end Lists

section Table

variable {ε σ : Type*} [DecidableEq ε] [DecidableEq σ] (M : MachineMatrix ε σ) (O : TableOptions)

/-- The entry in a cell, by the places of its event and its state. -/
def cellEntry (i j : ℕ) : Option (ActionInfo ε σ) :=
  ((populateActionArray M).cell i j).bind (M.actionInfoList[·]?)

/-- What is in a cell is an entry. -/
private lemma cellEntry_mem {M : MachineMatrix ε σ} {i j : ℕ} {pai : ActionInfo ε σ}
    (h : cellEntry M i j = some pai) : pai ∈ M.actionInfoList := by
  unfold cellEntry at h
  rw [Option.bind_eq_some_iff] at h
  obtain ⟨idx, -, hidx⟩ := h
  exact List.mem_of_getElem? hidx

/-! ## What is printed -/

/-- A function in a cell of the table; all of them carry `ufMachineName`. -/
inductive CellRoutine (σ : Type*) where
  | action (name : String)
  | transitionTo (s : σ)
  | transitionFn (name : String)
  deriving DecidableEq, Repr

/-- The function in the cell of an entry. The grammar gives every entry an action or a
transition. -/
def cellRoutine (emptyCellFn : Option String) : Option (ActionInfo ε σ) → Option (CellRoutine σ)
  | none => some (.action (emptyCellFn.getD "noAction"))
  | some pai =>
    if pai.action = "" then
      match pai.transition with
      | none => none
      | some (.state s) => some (.transitionTo s)
      | some (.fn name _) => some (.transitionFn name)
    else some (.action pai.action)

/-- The table, event by event. -/
def defineActionArray : List (List (Option (CellRoutine σ))) :=
  (List.range M.eventList.length).map fun i =>
    (List.range M.stateList.length).map fun j => cellRoutine O.emptyCellFn (cellEntry M i j)

/-- A routine `<machine>_transitionTo<S>`, by the machine's name and the state. -/
structure TransitionRoutine (σ : Type*) where
  machineName : String
  state : σ
  deriving DecidableEq, Repr

/-- The transition routine that a cell refers to. -/
def referencedRoutine : Option (CellRoutine σ) → Option (TransitionRoutine σ)
  | some (.transitionTo s) => some ⟨O.ufMachineName, s⟩
  | _ => none

/-- The transition routines that the table refers to, cell by cell. -/
def referencedRoutines : List (TransitionRoutine σ) :=
  (defineActionArray M O).flatten.filterMap (referencedRoutine O)

/-- The transition routines that `commonHeaderEnd` declares. -/
def declaredRoutines : List (TransitionRoutine σ) :=
  if transitionFnList M = [] then []
  else (transitionList M).map fun s => ⟨O.ufMachineName, s⟩

/-- The state of the routine defined for a cell
(`define_transition_function_from_action_array`). -/
def transitionFunctionFromActionArray : Option (ActionInfo ε σ) → Option σ
  | none => none
  | some pai =>
    if pai.action = "" then
      match pai.transition with
      | some (.state s) => some s
      | _ => none
    else none

/-- The states of the routines that `writeStateTransitions` defines: those of the cells of the
table where actions return states, and otherwise those of the list of transitions. -/
def writeStateTransitions (ret : ActionsReturn) : List σ :=
  match ret with
  | .states =>
    (List.range M.eventList.length).flatMap fun i =>
      (List.range M.stateList.length).filterMap fun j =>
        transitionFunctionFromActionArray (cellEntry M i j)
  | _ => transitionList M

/-- The transition routines that are defined (`writeCMachineInternal`). -/
def definedRoutines (ret : ActionsReturn) : List (TransitionRoutine σ) :=
  if O.generateWeakFns = true ∧ transitionFnList M ≠ [] then
    (writeStateTransitions M ret).map fun s => ⟨O.fqMachineName, s⟩
  else []

/-! ## Both walks meet the same cells -/

/-- The states of the cells with a plain transition and no action, cell by cell. -/
def plainTransitionCells : List σ := writeStateTransitions M .states

/-- The table refers to one routine for each cell with a plain transition and no action. -/
lemma referencedRoutines_eq :
    referencedRoutines M O = (plainTransitionCells M).map fun s => ⟨O.ufMachineName, s⟩ := by
  have hcell : ∀ c : Option (ActionInfo ε σ), referencedRoutine O (cellRoutine O.emptyCellFn c) =
      (transitionFunctionFromActionArray c).map fun s => ⟨O.ufMachineName, s⟩ := by
    intro c
    cases c with
    | none => rfl
    | some pai =>
      unfold cellRoutine transitionFunctionFromActionArray
      by_cases haction : pai.action = ""
      · simp only [if_pos haction]
        cases pai.transition with
        | none => rfl
        | some t => cases t <;> rfl
      · simp only [if_neg haction]
        rfl
  unfold referencedRoutines defineActionArray plainTransitionCells writeStateTransitions
  rw [← List.flatMap_def, List.filterMap_flatMap, List.map_flatMap]
  simp only [List.filterMap_map, List.map_filterMap, Function.comp_def, hcell]

/-- A routine is defined for each cell with a plain transition and no action, if the machine has a
transition function and weak functions are generated. -/
lemma definedRoutines_eq :
    definedRoutines M O .states =
      if O.generateWeakFns = true ∧ transitionFnList M ≠ [] then
        (plainTransitionCells M).map fun s => ⟨O.fqMachineName, s⟩
      else [] := rfl

/-- A cell with a plain transition puts its state on the list of transitions. -/
private lemma plainTransitionCells_subset : plainTransitionCells M ⊆ transitionList M := by
  intro s hs
  unfold plainTransitionCells writeStateTransitions at hs
  obtain ⟨i, -, hs⟩ := List.mem_flatMap.mp hs
  obtain ⟨j, -, hs⟩ := List.mem_filterMap.mp hs
  cases hcell : cellEntry M i j with
  | none => simp [hcell, transitionFunctionFromActionArray] at hs
  | some pai =>
    rw [hcell] at hs
    refine mem_transitionList.mpr ⟨pai, cellEntry_mem hcell, ?_⟩
    unfold transitionFunctionFromActionArray at hs
    simp only at hs
    split_ifs at hs with haction
    split at hs
    · rename_i t ht
      obtain rfl := Option.some.inj hs
      exact ht
    · simp at hs

/-! ## Complete routines -/

/-- Every routine that the table refers to is declared, and defined exactly once. -/
def RoutinesComplete : Prop :=
  ∀ r ∈ referencedRoutines M O, r ∈ declaredRoutines M O ∧ (definedRoutines M O .states).count r = 1

/-- **The transition routines.** For a machine whose actions return states, every transition
routine that the table refers to is declared and is defined exactly once if and only if the table
refers to none, or the machine has a transition function, weak functions are generated, user
functions carry the machine's full name, and no two cells have a plain transition to the same
state.

**Proof sketch.** References and definitions are both made cell by cell, so that a routine is
defined as often as it is referred to, provided it is defined under the name by which it is
referred to. -/
theorem routines_complete_iff :
    RoutinesComplete M O ↔
      plainTransitionCells M = [] ∨
        (transitionFnList M ≠ [] ∧ O.generateWeakFns = true ∧
          O.ufMachineName = O.fqMachineName ∧ (plainTransitionCells M).Nodup) := by
  have hinj : ∀ name : String, Function.Injective fun s : σ => TransitionRoutine.mk name s := by
    intro name s t hst
    exact (TransitionRoutine.mk.inj hst).2
  unfold RoutinesComplete
  rw [referencedRoutines_eq]
  constructor
  · intro h
    cases hcells : plainTransitionCells M with
    | nil => exact .inl rfl
    | cons s cells =>
      right
      -- the first cell's routine is declared and defined
      obtain ⟨hdeclared, hdefined⟩ := h ⟨O.ufMachineName, s⟩ (by simp [hcells])
      have hfn : transitionFnList M ≠ [] := by
        intro hnil
        simp [declaredRoutines, hnil] at hdeclared
      have hmem : (⟨O.ufMachineName, s⟩ : TransitionRoutine σ) ∈ definedRoutines M O .states := by
        apply List.count_pos_iff.mp
        omega
      rw [definedRoutines_eq] at hmem
      split_ifs at hmem with hweak
      · obtain ⟨t, -, ht⟩ := List.mem_map.mp hmem
        have hname : O.fqMachineName = O.ufMachineName := (TransitionRoutine.mk.inj ht).1
        refine ⟨hfn, hweak.1, hname.symm, ?_⟩
        rw [← hcells, List.nodup_iff_count_le_one]
        intro t
        by_cases ht : t ∈ plainTransitionCells M
        · have hcount := (h ⟨O.ufMachineName, t⟩ (List.mem_map_of_mem ht)).2
          rw [definedRoutines_eq, if_pos hweak, hname,
            List.count_map_of_injective _ _ (hinj O.ufMachineName)] at hcount
          omega
        · rw [List.count_eq_zero_of_not_mem ht]
          omega
      · simp at hmem
  · intro h r hr
    obtain ⟨s, hs, rfl⟩ := List.mem_map.mp hr
    rcases h with hnil | ⟨hfn, hweak, hname, hnodup⟩
    · simp [hnil] at hs
    · constructor
      · rw [declaredRoutines, if_neg hfn]
        exact List.mem_map_of_mem (plainTransitionCells_subset M hs)
      · rw [definedRoutines_eq, if_pos ⟨hweak, hfn⟩, hname,
          List.count_map_of_injective _ _ (hinj O.fqMachineName)]
        exact List.count_eq_one_of_mem hnodup hs

end Table

/-- One event and two states, with a plain transition to the second state from both, and a
transition function for another event. -/
def twoCellsMatrix : MachineMatrix ℕ ℕ :=
  { smallMatrix with
    actionInfoList := [⟨"", some (.state 1), [0], [0, 1]⟩, ⟨"", some (.fn "f" []), [1], [0]⟩] }

/-- The same without the transition function. -/
def plainTransitionMatrix : MachineMatrix ℕ ℕ :=
  { smallMatrix with actionInfoList := [⟨"", some (.state 1), [0], [0]⟩] }

/-- A routine that two cells refer to is defined twice; without a transition function it is
neither declared nor defined. -/
theorem not_routinesComplete_twoCellsMatrix :
    (definedRoutines twoCellsMatrix ⟨"m", "m", true, none⟩ .states).count ⟨"m", 1⟩ = 2 ∧
      ¬ RoutinesComplete twoCellsMatrix ⟨"m", "m", true, none⟩ ∧
      declaredRoutines plainTransitionMatrix ⟨"m", "m", true, none⟩ = [] ∧
      ¬ RoutinesComplete plainTransitionMatrix ⟨"m", "m", true, none⟩ := by
  have htwice :
      (definedRoutines twoCellsMatrix ⟨"m", "m", true, none⟩ .states).count ⟨"m", 1⟩ = 2 := by
    decide
  have hnone : declaredRoutines plainTransitionMatrix ⟨"m", "m", true, none⟩ = [] := by decide
  refine ⟨htwice, ?_, hnone, ?_⟩
  · intro h
    have := (h ⟨"m", 1⟩ (by decide)).2
    omega
  · intro h
    have := (h ⟨"m", 1⟩ (by decide)).1
    simp [hnone] at this

end FsmLang
