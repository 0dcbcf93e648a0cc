import Mathlib.Data.List.Basic
import Mathlib.Tactic

set_option relaxedAutoImplicit false
set_option autoImplicit false

/-!
# Trees of machines

What the parser leaves behind for the code generators: a machine with its events and states
in the order of their declaration, and the list of the machines declared inside it. The list
is empty for a machine without sub-machines, where the source has a null pointer: the grammar
has no machine list without a machine.

A machine of the tree is named by its *path* from the top-level machine, the positions of its
ancestors and itself in their parents' lists. The source names it by the names of the same
machines (`printAncestry`); sibling machines have different names, so that both name the
same machine.

## Main definitions

* `MachineInfo` — what one machine declares.
* `Machine` — a machine and, in order, its sub-machines.
* `Machine.sub?` — the machine at a path.
* `Machine.Accepted` — every machine of the tree declares an event and a state, without
  which `allocateActionArray` fails and the parser reports an error.

## Main results

* `Machine.Accepted.sub?` — acceptance passes to every machine of the tree.
* `Machine.sub?_append` — a path is followed piece by piece.
-/

namespace FsmLang

/-- What the actions of a machine return, from the flags `mfActionsReturnStates` and
`mfActionsReturnVoid`; with neither flag they return events. -/
inductive ActionsReturn where
  | events
  | states
  | void
  deriving DecidableEq, Repr

/-- An event of a machine. The external designation is a C identifier whose value the user's
native code gives. -/
structure Event where
  name : String
  externalDesignation : Option String := none
  deriving DecidableEq, Repr

/-- A state of a machine, with its flag `sfInibitSubMachines`. -/
structure State where
  name : String
  inhibitSubMachines : Bool := false
  deriving DecidableEq, Repr

/-- What one machine declares, without its sub-machines. The two last fields are the flags
`mfStateImplementing` and `mfTranslatorImplementing`. -/
structure MachineInfo where
  name : String
  eventList : List Event
  stateList : List State
  actionsReturn : ActionsReturn := .events
  stateImplementing : Bool := false
  translatorImplementing : Bool := false
  deriving DecidableEq, Repr

/-- A machine and its sub-machines in the order of their declaration. -/
inductive Machine where
  | mk (info : MachineInfo) (machineList : List Machine)

namespace Machine

/-- What the machine declares. -/
def info : Machine → MachineInfo
  | mk info _ => info

/-- The machine's sub-machines. -/
def machineList : Machine → List Machine
  | mk _ machineList => machineList

/-- The machine's events. -/
def eventList (m : Machine) : List Event := m.info.eventList

/-- The machine's states. -/
def stateList (m : Machine) : List State := m.info.stateList

/-- What the machine's actions return. -/
def actionsReturn (m : Machine) : ActionsReturn := m.info.actionsReturn

/-- The own data of a machine. -/
@[simp] lemma info_mk (i : MachineInfo) (ms : List Machine) : (mk i ms).info = i := rfl

/-- The sub-machines of a machine. -/
@[simp] lemma machineList_mk (i : MachineInfo) (ms : List Machine) :
    (mk i ms).machineList = ms := rfl

/-- The events of a machine. -/
@[simp] lemma eventList_mk (i : MachineInfo) (ms : List Machine) :
    (mk i ms).eventList = i.eventList := rfl

/-- The states of a machine. -/
@[simp] lemma stateList_mk (i : MachineInfo) (ms : List Machine) :
    (mk i ms).stateList = i.stateList := rfl

/-- What the actions of a machine return. -/
@[simp] lemma actionsReturn_mk (i : MachineInfo) (ms : List Machine) :
    (mk i ms).actionsReturn = i.actionsReturn := rfl

/-! ## Paths -/

/-- The machine at a path below this one. -/
def sub? (m : Machine) : List ℕ → Option Machine
  | [] => some m
  | k :: p => (m.machineList[k]?).bind (·.sub? p)

/-- The machine at the empty path is the machine itself. -/
@[simp] lemma sub?_nil (m : Machine) : m.sub? [] = some m := rfl

/-- The machine at a path, one level at a time. -/
lemma sub?_cons (m : Machine) (k : ℕ) (p : List ℕ) :
    m.sub? (k :: p) = (m.machineList[k]?).bind (·.sub? p) := rfl

/-- A path is followed piece by piece. -/
lemma sub?_append (m : Machine) (p q : List ℕ) :
    m.sub? (p ++ q) = (m.sub? p).bind (·.sub? q) := by
  induction p generalizing m with
  | nil => simp
  | cons k p ih =>
    rw [List.cons_append, sub?_cons, sub?_cons, Option.bind_assoc]
    congr 1
    funext c
    exact ih c

/-! ## Trees the parser accepts -/

mutual

/-- The machine and all machines below it declare at least one event and one state. -/
def Accepted : Machine → Prop
  | mk info ms => info.eventList ≠ [] ∧ info.stateList ≠ [] ∧ AcceptedList ms

/-- Every machine of a list is accepted. -/
def AcceptedList : List Machine → Prop
  | [] => True
  | m :: ms => m.Accepted ∧ AcceptedList ms

end

/-- A list of machines is accepted if each is. -/
lemma acceptedList_iff (ms : List Machine) : AcceptedList ms ↔ ∀ m ∈ ms, m.Accepted := by
  induction ms with
  | nil => simp [AcceptedList]
  | cons m ms ih => simp [AcceptedList, ih]

/-- Acceptance, one level at a time. -/
lemma accepted_iff (m : Machine) :
    m.Accepted ↔ m.eventList ≠ [] ∧ m.stateList ≠ [] ∧ ∀ c ∈ m.machineList, c.Accepted := by
  cases m with
  | mk info ms => simp [Accepted, acceptedList_iff]

/-- Acceptance passes to every machine of the tree. -/
lemma Accepted.sub? {m c : Machine} (h : m.Accepted) {p : List ℕ} (hp : m.sub? p = some c) :
    c.Accepted := by
  induction p generalizing m with
  | nil => simpa using (Option.some.inj hp) ▸ h
  | cons k p ih =>
    rw [sub?_cons, Option.bind_eq_some_iff] at hp
    obtain ⟨d, hd, hdp⟩ := hp
    exact ih ((m.accepted_iff.mp h).2.2 d (List.mem_of_getElem? hd)) hdp

end Machine

end FsmLang
