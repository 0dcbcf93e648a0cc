import Mathlib.Data.List.Basic
import Mathlib.Tactic
import FsmLang.CSemantics.Loops
import FsmLang.SubMachineFinder

set_option relaxedAutoImplicit false
set_option autoImplicit false

/-!
# The event loops

The function a machine is run by: for actions that return events a `while` loop around the
machine's own code, with a branch for the events of its sub-machines; for other actions the
same once. Each of the four generators has its own loop writers, one for the top-level machine
and one for sub-machines. What the loop calls is a hook in the source (`cfsmliw`) and a
parameter here (`OwnCode`).

Left out is what does not bear on the flow of events: data translation, `pfsm->event`, which
only reports the event to the actions, and the profiling and debugging macros.

## Main definitions

* `EventBounds`, `eventBounds` — the values a machine's functions are emitted with.
* `OwnCode` — what the loop calls: the machine's own code and its sub-machines.
* `topLoop`, `subLoop` — the functions of the top-level machine and of a sub-machine.

## Main results

* `exists_eventBounds` — the values exist in an accepted tree.
* `NumberedFrom` — the values of a sub-machine and of all below it.
-/

namespace FsmLang

open CSemantics

/-! ## Values -/

/-- The values of the enumerators that a machine's functions name. `noEvent` is `numEvents` for
a top-level machine whose actions do not return events; `lastEvent` is printed for a
sub-machine with sub-machines. -/
structure EventBounds where
  firstEvent : ℤ
  noEvent : ℤ
  lastEvent : Option ℤ
  parentNoEvent : Option ℤ
  eventValue : ℕ → Option ℤ
  ancestorRanges : List (ℤ × ℤ)
  subMachineArray : List SubFsmIf

/-- The label that ends a machine's own events in its functions. -/
def Machine.endLabel (m : Machine) (path : List ℕ) : Label :=
  if path = [] ∧ m.actionsReturn ≠ .events then .numEvents else .noEvent

/-- The label that ends the range `print_ancestor_event_conditional` tests for the ancestor at `p`
of the machine `m` at `path`: `numEvents` for the nearest ancestor, if the machine's actions return
events. -/
def ancestorEndLabel (path : List ℕ) (m : Machine) (p : List ℕ) : Label :=
  if p = path.dropLast ∧ m.actionsReturn = .events then .numEvents else .noEvent

/-- The ranges `print_ancestor_event_conditional` tests for the machine at `path`: its ancestors,
the top-level machine first. Code with a range whose end is not an enumerator does not compile;
such a range is left out. -/
def ancestorEventConditional (s : EnumScope Enumerator) (path : List ℕ) (m : Machine) :
    List (ℤ × ℤ) :=
  path.dropLast.inits.filterMap fun p =>
    (s.valueOf ⟨p, .firstEvent⟩).bind fun first =>
      (s.valueOf ⟨p, ancestorEndLabel path m p⟩).map fun last => (first, last)

/-- The values of the machine `m` at `path`. -/
def eventBounds (s : EnumScope Enumerator) (path : List ℕ) (m : Machine) : Option EventBounds :=
  (s.valueOf ⟨path, .firstEvent⟩).bind fun first =>
    (s.valueOf ⟨path, m.endLabel path⟩).bind fun noEvent =>
      (defineSubMachineArray s path 0 m.machineList).map fun array =>
        { firstEvent := first
          noEvent := noEvent
          lastEvent := s.valueOf ⟨path, .lastEvent⟩
          parentNoEvent := if path = [] then none else s.valueOf ⟨path.dropLast, .noEvent⟩
          eventValue := fun i => s.valueOf ⟨path, .event i⟩
          ancestorRanges := ancestorEventConditional s path m
          subMachineArray := array }

namespace EventBounds

/-- The test for the machine's own events. -/
def isOwn (B : EventBounds) (e : ℤ) : Bool := B.firstEvent ≤ e && e < B.noEvent

/-- The test for the events of sub-machines; it is emitted for a machine with sub-machines. -/
def isBelow (B : EventBounds) (e : ℤ) : Bool :=
  B.lastEvent.any fun last => B.noEvent < e && e < last

/-- The test for the events of ancestors. -/
def inAncestorRange (B : EventBounds) (e : ℤ) : Bool :=
  B.ancestorRanges.any fun r => r.1 ≤ e && e < r.2

/-- `return e == THIS(noEvent) ? PARENT(noEvent) : e`. -/
def returnEvent (B : EventBounds) (e : ℤ) : Option ℤ :=
  if e = B.noEvent then B.parentNoEvent else some e

end EventBounds

/-! ## What the loops call -/

/-- The machine implements a state or a data translator of its parent
(`ARTIFACTS_IMPLEMENTING_FLAGS`). -/
def Machine.artifactsImplementing (m : Machine) : Bool :=
  m.info.stateImplementing || m.info.translatorImplementing

/-- The code the function of the machine `m` calls, on some world in which the machine has a
state. `dispatch` is what the action array, the switch, the state function or the event handler
does with an event, `handleInAllStates` the handler of the -ts generator for events handled
identically in all states; its result is the event that is left for the state function. A
function that does not return has no result. -/
structure OwnCode (m : Machine) (B : EventBounds) (W : Type*) where
  state : W → Fin m.stateList.length
  dispatch : W → ℤ → Option (W × ℤ)
  handleInAllStates : W → ℤ → W × Option ℤ
  runSubMachine : ℕ → W → ℤ → Option (W × ℤ)
  /-- The handler's cases are events of the machine. -/
  handleInAllStates_foreign : ∀ w e, e ≠ B.noEvent → (∀ i, B.eventValue i ≠ some e) →
    handleInAllStates w e = (w, some e)
  /-- A sub-machine has a state of its own. -/
  state_runSubMachine : ∀ k w e r, runSubMachine k w e = some r → state r.1 = state w

/-- The local variables of a machine's function, and the events it has handed to
sub-machines. -/
structure Frame (W : Type*) where
  world : W
  e : ℤ
  delivered : List (ℕ × ℤ) := []
  deriving DecidableEq, Repr

/-- The four generators of C code: `-tc`, `-tss`, `-ts` and `-te`. -/
inductive Generator where
  | table
  | singleSwitch
  | switch
  | eventTable
  deriving DecidableEq, Repr

section Loops

variable {m : Machine} {B : EventBounds} {W : Type*}

namespace OwnCode

/-- `doNotInhibitSubMachines`. Without an inhibiting state it is not emitted and not tested. -/
def doNotInhibitSubMachines (C : OwnCode m B W) (w : W) : Bool :=
  !(m.stateList.get (C.state w)).inhibitSubMachines

/-- The machine's own code on the frame's event. -/
def callDispatch (C : OwnCode m B W) (f : Frame W) : Option (Frame W) :=
  (C.dispatch f.world f.e).map fun r => { f with world := r.1, e := r.2 }

/-- Run the `k`-th sub-machine with the event `v`. -/
def callSubMachine (C : OwnCode m B W) (v : ℤ) (f : Frame W) (k : ℕ) : Option (Frame W) :=
  (C.runSubMachine k f.world v).map fun r =>
    { world := r.1, e := r.2, delivered := f.delivered ++ [(k, v)] }

/-- `findAndRunSubMachine` with the event `v`. Without a sub-machine for it the result is
`noEvent`. -/
def findAndRun (C : OwnCode m B W) (v : ℤ) (f : Frame W) : Option (Frame W) :=
  (findAndRunSubMachine m B.subMachineArray v).foldlM (C.callSubMachine v)
    { f with e := B.noEvent }

/-- `findAndRunSubMachine` unless the state inhibits sub-machines; what is left of the frame in
that case differs from loop to loop. -/
def findAndRunUnlessInhibited (C : OwnCode m B W) (f inhibited : Frame W) : Option (Frame W) :=
  if C.doNotInhibitSubMachines f.world then C.findAndRun f.e f else some inhibited

/-- The -ts innards: the handler for all states first, then the state function for the event
that is left, if it passes the guard. -/
def switchInnards (C : OwnCode m B W) (guard : ℤ → Bool) (f : Frame W) : Option (Frame W) :=
  match C.handleInAllStates f.world f.e with
  | (w, none) => some { f with world := w, e := B.noEvent }
  | (w, some e) =>
    if guard e then C.callDispatch { f with world := w, e := e }
    else some { f with world := w, e := e }

/-- The innards of the top-level machine's loop. -/
def topInnards (C : OwnCode m B W) (g : Generator) (f : Frame W) : Option (Frame W) :=
  match g with
  | .switch => C.switchInnards (fun _ => true) f
  | _ => C.callDispatch f

/-- The innards of a sub-machine's loop (`writeSwitchSubFSMLoopInnards`,
`writeEventTableSubFSMLoopInnards`). -/
def subInnards (C : OwnCode m B W) (g : Generator) (f : Frame W) : Option (Frame W) :=
  match g with
  | .switch => C.switchInnards
      (fun e => B.isOwn e || (m.artifactsImplementing && B.inAncestorRange e)) f
  | .eventTable => if B.isOwn f.e then C.callDispatch f else some f
  | _ => C.callDispatch f

/-- A function without a loop. It does not change its event. -/
def once (body : Frame W → Option (Frame W)) : WhileLoop (Frame W) (Frame W) where
  cond := fun _ => false
  body := some
  finish := fun f => (body f).map fun h => { h with e := f.e }

/-- The function of the top-level machine (`writeOriginalFSMLoop`,
`writeOriginalSwitchFSMLoopAre` and their siblings). -/
def topLoop (C : OwnCode m B W) (g : Generator) : WhileLoop (Frame W) (Frame W) :=
  match m.actionsReturn with
  | .events =>
    { cond := fun f => f.e ≠ B.noEvent
      body := fun f =>
        if m.machineList.isEmpty || f.e < B.noEvent then C.topInnards g f
        else
          -- the -tc loop leaves `e` as it is when sub-machines are inhibited
          C.findAndRunUnlessInhibited f (if g = .table then f else { f with e := B.noEvent })
      finish := some }
  | .void => once fun f =>
      if m.machineList.isEmpty || f.e < B.noEvent then C.topInnards g f
      else C.findAndRunUnlessInhibited f f
  | .states => once fun f =>
      if m.machineList.isEmpty || f.e < B.noEvent then C.topInnards g f
      else if g = .table then C.findAndRun f.e f
      else C.findAndRunUnlessInhibited f f

/-- The loop of a sub-machine in a -tc machine (`writeOriginalSubFSMLoop`). -/
def tableSubLoop (C : OwnCode m B W) : WhileLoop (Frame W) (Frame W) where
  cond := fun f => f.e ≠ B.noEvent && B.firstEvent ≤ f.e
  body := fun f =>
    if m.machineList.isEmpty || f.e < B.noEvent then C.subInnards .table f
    else C.findAndRunUnlessInhibited f f
  finish := some

/-- The loop of a sub-machine in a -tss machine (`writeSingleSwitchSubFSMLoop`), called with
`event`: the call of the sub-machine stands after the loop, it is for the event the function
was called with, and its result is dropped. -/
def singleSwitchSubLoop (C : OwnCode m B W) (event : ℤ) : WhileLoop (Frame W) (Frame W) where
  cond := fun f => B.isOwn f.e
  body := C.subInnards .singleSwitch
  finish := fun f =>
    if B.isBelow event then
      (C.findAndRunUnlessInhibited { f with e := event } { f with e := event }).map
        fun h => { h with e := f.e }
    else some f

/-- The loop of a sub-machine in a -ts or -te machine (`writeOriginalSwitchSubFSMLoopAre`). -/
def switchSubLoop (C : OwnCode m B W) (g : Generator) : WhileLoop (Frame W) (Frame W) where
  cond := fun f => f.e ≠ B.noEvent && B.firstEvent ≤ f.e && B.lastEvent.all (f.e < ·)
  body := fun f => (C.subInnards g f).bind fun h =>
    if B.isBelow h.e then C.findAndRunUnlessInhibited h { h with e := B.noEvent } else some h
  finish := some

/-- The function of a sub-machine, called with `event`, up to its `return` statement. -/
def subLoop (C : OwnCode m B W) (g : Generator) (event : ℤ) : WhileLoop (Frame W) (Frame W) :=
  match m.actionsReturn, g with
  | .events, .table => C.tableSubLoop
  | .events, .singleSwitch => C.singleSwitchSubLoop event
  | .events, g => C.switchSubLoop g
  | _, .singleSwitch => once fun f =>
      if B.isOwn f.e then C.subInnards .singleSwitch f
      else if B.isBelow f.e then C.findAndRunUnlessInhibited f f
      else some f
  | .void, .table => once fun f =>
      if m.machineList.isEmpty || f.e < B.noEvent then C.subInnards .table f
      else C.findAndRunUnlessInhibited f f
  | .void, g => once fun f =>
      (C.subInnards g f).bind fun h =>
        if B.isBelow f.e then C.findAndRunUnlessInhibited { h with e := f.e } h else some h
  | .states, g => once fun f =>
      if m.machineList.isEmpty || f.e < B.noEvent then C.topInnards g f
      else if g = .table then C.findAndRun f.e f
      else C.findAndRunUnlessInhibited f f

/-- How a sub-machine's function starts: the -ts and -te loops of a machine that implements
artifacts are `do` loops, which run the body before they test the condition. -/
def subStart (C : OwnCode m B W) (g : Generator) (f : Frame W) : Outcome (Frame W) (Frame W) :=
  if m.actionsReturn = .events ∧ (g = .switch ∨ g = .eventTable) ∧ m.artifactsImplementing then
    ((C.switchSubLoop g).body f).elim .stuck .running
  else .running f

/-- The function of the machine at `path`, called with `event`. -/
def machineLoop (C : OwnCode m B W) (path : List ℕ) (g : Generator) (event : ℤ) :
    WhileLoop (Frame W) (Frame W) :=
  if path = [] then C.topLoop g else C.subLoop g event

/-- How the function of the machine at `path` starts. -/
def start (C : OwnCode m B W) (path : List ℕ) (g : Generator) (f : Frame W) :
    Outcome (Frame W) (Frame W) :=
  if path = [] then .running f else C.subStart g f

end OwnCode

/-- Code that does nothing, in a machine that stays in the state `s`: every function returns
`noEvent`. -/
def quietCode (m : Machine) (B : EventBounds) (s : Fin m.stateList.length) : OwnCode m B Unit where
  state := fun _ => s
  dispatch := fun _ _ => some ((), B.noEvent)
  handleInAllStates := fun _ e => ((), some e)
  runSubMachine := fun _ _ _ => some ((), B.noEvent)
  handleInAllStates_foreign := fun _ _ _ _ => rfl
  state_runSubMachine := fun _ _ _ _ _ => rfl

end Loops

/-! ## The values of a tree -/

/-- The enumerators of the machine `m` at `path` and of all below it are numbered from its
`firstEvent` `b` on. -/
def NumberedFrom (s : EnumScope Enumerator) (path : List ℕ) (m : Machine) (b : ℤ) : Prop :=
  ∀ q l, s.valueOf ⟨path ++ q, l⟩ = (m.locate b q).bind fun cb => cb.1.ownValue cb.2 l

/-- Every sub-machine of an accepted tree is numbered from some value on. -/
lemma exists_numberedFrom {compactActionArray : Bool} {designated : String → ℤ} {top : Machine}
    (htop : top.Accepted) {s : EnumScope Enumerator}
    (hs : eventEnum compactActionArray designated top = some s) {path : List ℕ}
    (hpath : path ≠ []) {m : Machine} (hm : top.sub? path = some m) :
    ∃ b, NumberedFrom s path m b := by
  obtain ⟨k, p, rfl⟩ := List.exists_cons_of_ne_nil hpath
  obtain ⟨s', b, hs', hvals⟩ := exists_valueOf_eventEnum compactActionArray designated htop
  obtain rfl := Option.some.inj (hs'.symm.trans hs)
  obtain ⟨c, hc, hcp⟩ := Option.bind_eq_some_iff.mp hm
  have hloc := locate_map_fst c (nextValueList (top.machineList.take k) b) p
  rw [hcp] at hloc
  obtain ⟨⟨m', b'⟩, hb', rfl⟩ := Option.map_eq_some_iff.mp hloc
  refine ⟨b', ?_⟩
  intro q l
  rw [List.cons_append, hvals, locateBelow, hc, Option.bind_some, locate_append, hb',
    Option.bind_some]

namespace NumberedFrom

variable {s : EnumScope Enumerator} {path : List ℕ} {m : Machine} {b : ℤ}

/-- The machine's own enumerators. -/
lemma valueOf (h : NumberedFrom s path m b) (l : Label) : s.valueOf ⟨path, l⟩ = m.ownValue b l := by
  simpa using h [] l

/-- What is below the machine. -/
private lemma valuesBelow (h : NumberedFrom s path m b) :
    ValuesBelow s path m.machineList (b + m.eventList.length + 1) := by
  intro k q l
  rw [h (k :: q) l, Machine.locate_cons]

/-- The values of a sub-machine's functions. -/
lemma exists_eventBounds (h : NumberedFrom s path m b) (hpath : path ≠ []) :
    ∃ B, eventBounds s path m = some B ∧ B.firstEvent = b ∧
      B.noEvent = b + m.eventList.length ∧
      B.lastEvent = (if m.machineList = [] then none else some (m.lastEventValue b)) ∧
      (∀ i, B.eventValue i = if i < m.eventList.length then some (b + i) else none) ∧
      B.subMachineArray = subFsmIfs (b + m.eventList.length + 1) m.machineList := by
  have hend : m.endLabel path = .noEvent := if_neg (fun h => hpath h.1)
  have hfirst : s.valueOf ⟨path, .firstEvent⟩ = some b := h.valueOf .firstEvent
  have hno : s.valueOf ⟨path, .noEvent⟩ = some (b + m.eventList.length) := h.valueOf .noEvent
  rw [eventBounds, hfirst, Option.bind_some, hend, hno, Option.bind_some,
    defineSubMachineArray_eq h.valuesBelow]
  exact ⟨_, rfl, rfl, rfl, h.valueOf .lastEvent, fun i => h.valueOf (.event i), rfl⟩

end NumberedFrom

/-- The values of the top-level machine's functions. -/
lemma exists_eventBounds_top {compactActionArray : Bool} {designated : String → ℤ} {top : Machine}
    (htop : top.Accepted) {s : EnumScope Enumerator}
    (hs : eventEnum compactActionArray designated top = some s) :
    ∃ B, eventBounds s [] top = some B := by
  obtain ⟨own, b, v, hown, hs'⟩ := exists_eventEnum compactActionArray designated htop
  obtain ⟨s'', b', hs'', hvals⟩ := exists_valueOf_eventEnum compactActionArray designated htop
  obtain rfl := Option.some.inj (hs''.symm.trans hs)
  have hbelow : ValuesBelow s'' [] top.machineList b' := fun k q l => hvals k q l
  have hname : ∀ x ∈ topNames top, ∃ w, s''.valueOf x = some w := by
    intro x hx
    rw [← hown] at hx
    obtain ⟨⟨_, w⟩, hw, rfl⟩ := List.mem_map.mp hx
    refine ⟨w, (EnumScope.valueOf_eq_some_iff (eventEnum_wellFormed hs)).mpr ?_⟩
    obtain rfl := Option.some.inj (hs''.symm.trans hs')
    exact List.mem_append_left _ (List.mem_append_left _ hw)
  obtain ⟨first, hfirst⟩ := hname ⟨[], .firstEvent⟩ (by simp [topNames])
  obtain ⟨last, hlast⟩ := hname ⟨[], top.endLabel []⟩ (by
    by_cases h : top.actionsReturn = .events <;>
      simp [topNames, closingNames, Machine.endLabel, h])
  rw [eventBounds, hfirst, Option.bind_some, hlast, Option.bind_some,
    defineSubMachineArray_eq hbelow]
  exact ⟨_, rfl⟩

/-- **The values exist.** Every machine of an accepted tree has the values its functions are
emitted with. -/
theorem exists_eventBounds {compactActionArray : Bool} {designated : String → ℤ} {top : Machine}
    (htop : top.Accepted) {s : EnumScope Enumerator}
    (hs : eventEnum compactActionArray designated top = some s) {path : List ℕ} {m : Machine}
    (hm : top.sub? path = some m) : ∃ B, eventBounds s path m = some B := by
  by_cases hpath : path = []
  · subst hpath
    obtain rfl := Option.some.inj hm
    exact exists_eventBounds_top htop hs
  · obtain ⟨b, hb⟩ := exists_numberedFrom htop hs hpath hm
    obtain ⟨B, hB, -⟩ := hb.exists_eventBounds hpath
    exact ⟨B, hB⟩

/-- A machine below another is numbered after it. -/
lemma locate_value_le {m c : Machine} {b b' : ℤ} {q : List ℕ} (h : m.locate b q = some (c, b')) :
    b ≤ b' ∧ (q ≠ [] → b + m.eventList.length < b') := by
  induction q generalizing m b with
  | nil =>
    obtain ⟨rfl, rfl⟩ := Prod.mk.inj (Option.some.inj h)
    simp
  | cons k q ih =>
    rw [Machine.locate] at h
    obtain ⟨d, -, hd⟩ := Option.bind_eq_some_iff.mp h
    have hle := (ih hd).1
    have hbase := le_nextValueList (m.machineList.take k) (b + m.eventList.length + 1)
    omega

/-- The events of the machines below a sub-machine come after its `noEvent`. -/
lemma NumberedFrom.lt_event {s : EnumScope Enumerator} {path : List ℕ} {m : Machine} {b : ℤ}
    (h : NumberedFrom s path m b) {q : List ℕ} (hq : q ≠ []) {i : ℕ} {v : ℤ}
    (hv : s.valueOf ⟨path ++ q, .event i⟩ = some v) : b + m.eventList.length < v := by
  rw [h q] at hv
  obtain ⟨⟨c, b'⟩, hc, hown⟩ := Option.bind_eq_some_iff.mp hv
  have hle := (locate_value_le hc).2 hq
  rw [Machine.ownValue] at hown
  split_ifs at hown
  obtain rfl := Option.some.inj hown
  omega

end FsmLang
