import Mathlib.Data.List.Nodup
import Mathlib.Tactic
import FsmLang.CSemantics.Enumeration
import FsmLang.Machine

set_option relaxedAutoImplicit false
set_option autoImplicit false

/-!
# The event enumeration

`commonHeaderStart` prints one C enumeration for the whole tree: the events of the top-level
machine, then those of every machine below it in the order of their declaration. This file
models what is printed, enumerator by enumerator, and computes the values C gives.

After the sub-machines of a machine its `lastEvent` is printed *with* an initializer, the
`noEvent` of the last sub-machine. The next enumerator without initializer counts on from
there, whatever was printed below that last sub-machine.

## Main definitions

* `Enumerator` — an enumerator of the event enumeration: a machine, by its path, and a label.
* `printSubMachineEvents`, `commonHeaderStart` — the enumerators printed.
* `Machine.nextValue` — the value of the first enumerator after a machine's own.
* `Machine.locate`, `Machine.ownValue` — the value of a machine's `firstEvent`, and from it
  the values of the machine's enumerators.

## Main results

* `declareAll_printSubMachineEvents` — the enumeration of an accepted tree compiles, and has
  the values of `subMachineValues`.
* `exists_eventEnum` — the same for the whole enumeration, with or without external
  designations.
* `mem_subMachineValues` — the value of one enumerator of the machine at a given path.
-/

namespace FsmLang

open CSemantics

/-- Which of a machine's enumerators: one of its events, by ordinal, or one of the names the
generator adds. `numEvents` and `numAllEvents` are printed for the top-level machine only. -/
inductive Label where
  | event (ordinal : ℕ)
  | firstEvent
  | noEvent
  | lastEvent
  | numEvents
  | numAllEvents
  deriving DecidableEq, Repr

/-- The labels that take a number of their own: the events and `noEvent`. -/
def Label.isSlot : Label → Bool
  | .event _ => true
  | .noEvent => true
  | _ => false

/-- An enumerator of the event enumeration: the machine whose ancestry the printed name
starts with, by its path below the top-level machine, and the label that ends the name. -/
structure Enumerator where
  path : List ℕ
  label : Label
  deriving DecidableEq, Repr

/-! ## What is printed -/

/-- The enumerators `print_sub_machine_event` prints for one event of a sub-machine. -/
def printSubMachineEvent (path : List ℕ) (ordinal : ℕ) : List (EnumItem Enumerator) :=
  if ordinal = 0 then
    [⟨⟨path, .firstEvent⟩, .implicit⟩, ⟨⟨path, .event 0⟩, .sameAs ⟨path, .firstEvent⟩⟩]
  else [⟨⟨path, .event ordinal⟩, .implicit⟩]

mutual

/-- The enumerators `print_sub_machine_events` prints for a sub-machine and all below it. -/
def printSubMachineEvents (path : List ℕ) : Machine → List (EnumItem Enumerator)
  | .mk info ms =>
    (List.range info.eventList.length).flatMap (printSubMachineEvent path) ++
      [⟨⟨path, .noEvent⟩, .implicit⟩] ++ printMachineListEvents path 0 ms ++
      (if ms = [] then []
        else [⟨⟨path, .lastEvent⟩, .sameAs ⟨path ++ [ms.length - 1], .noEvent⟩⟩])

/-- The iteration of `print_sub_machine_events` over the sub-machines, from the `i`-th on, of
the machine at `path`. -/
def printMachineListEvents (path : List ℕ) (i : ℕ) : List Machine → List (EnumItem Enumerator)
  | [] => []
  | m :: ms => printSubMachineEvents (path ++ [i]) m ++ printMachineListEvents path (i + 1) ms

end

/-- The number of events with an external designation. -/
def externalEventDesignationCount (m : Machine) : ℕ :=
  m.eventList.countP (·.externalDesignation.isSome)

/-- External designations are used only when every event has one and the action array is not
compact. -/
def assignExternalEventValues (compactActionArray : Bool) (m : Machine) : Bool :=
  !((m.eventList.length != externalEventDesignationCount m) || compactActionArray)

/-- The initializer `print_event_enum_member` prints for an event. `designated` gives the values
of the identifiers that external designations name. -/
def eventInit (assign : Bool) (designated : String → ℤ) (e : Event) : EnumInit Enumerator :=
  match assign, e.externalDesignation with
  | true, some d => .value (designated d)
  | _, _ => .implicit

/-- The enumerators `print_event_enum_member` prints for one event, given with its ordinal, of
the top-level machine. -/
def printEventEnumMember (assign : Bool) (designated : String → ℤ) (e : Event × ℕ) :
    List (EnumItem Enumerator) :=
  ⟨⟨[], .event e.2⟩, eventInit assign designated e.1⟩ ::
    if e.2 = 0 then [⟨⟨[], .firstEvent⟩, .sameAs ⟨[], .event 0⟩⟩] else []

/-- The enumerators of the top-level machine that precede those of its sub-machines. -/
def printTopEvents (compactActionArray : Bool) (designated : String → ℤ) (top : Machine) :
    List (EnumItem Enumerator) :=
  let assign := assignExternalEventValues compactActionArray top
  top.eventList.zipIdx.flatMap (printEventEnumMember assign designated) ++
    (if top.actionsReturn = .events then [⟨⟨[], .noEvent⟩, .implicit⟩] else []) ++
    [⟨⟨[], .numEvents⟩, if assign then .value top.eventList.length else .implicit⟩]

/-- The event enumeration, as `commonHeaderStart` prints it. -/
def commonHeaderStart (compactActionArray : Bool) (designated : String → ℤ) (top : Machine) :
    List (EnumItem Enumerator) :=
  printTopEvents compactActionArray designated top ++
    printMachineListEvents [] 0 top.machineList ++
    [⟨⟨[], .numAllEvents⟩,
      if top.machineList = [] then .sameAs ⟨[], .numEvents⟩ else .implicit⟩]

/-- The event enumeration as C evaluates it. -/
def eventEnum (compactActionArray : Bool) (designated : String → ℤ) (top : Machine) :
    Option (EnumScope Enumerator) :=
  EnumScope.empty.declareAll (commonHeaderStart compactActionArray designated top)

/-! ## The values -/

mutual

/-- The value of an enumerator without initializer that is printed right after a machine
whose `firstEvent` is `b`. -/
def Machine.nextValue : Machine → ℤ → ℤ
  | .mk info ms, b =>
    lastNoEvent (b + info.eventList.length) ms (b + info.eventList.length + 1) + 1

/-- The `noEvent` of the last machine of a list printed from the value `b` on; `v`, the
`noEvent` printed before, when the list is empty. -/
def lastNoEvent (v : ℤ) : List Machine → ℤ → ℤ
  | [], _ => v
  | m :: ms, b => lastNoEvent (b + m.eventList.length) ms (m.nextValue b)

end

/-- The value of an enumerator without initializer printed right after a list of machines. -/
def nextValueList : List Machine → ℤ → ℤ
  | [], b => b
  | m :: ms, b => nextValueList ms (m.nextValue b)

/-- The enumerators of a machine's `n` events. -/
def eventNames (path : List ℕ) (n : ℕ) : List Enumerator :=
  (List.range n).map fun i => ⟨path, .event i⟩

/-- The enumerators of a sub-machine with `n` events, without those of its sub-machines, when
its `firstEvent` is `b`. -/
def ownValues (path : List ℕ) (n : ℕ) (b : ℤ) : List (Enumerator × ℤ) :=
  (⟨path, .firstEvent⟩, b) ::
    (numberFrom b (eventNames path n) ++ [(⟨path, .noEvent⟩, b + n)])

mutual

/-- The enumerators of a sub-machine and of all below it, with their values, in the order in
which they are printed, when the sub-machine's `firstEvent` is `b`. -/
def subMachineValues (path : List ℕ) (b : ℤ) : Machine → List (Enumerator × ℤ)
  | .mk info ms =>
    ownValues path info.eventList.length b ++
      machineListValues path 0 (b + info.eventList.length + 1) ms ++
      (if ms = [] then [] else [(⟨path, .lastEvent⟩,
        lastNoEvent (b + info.eventList.length) ms (b + info.eventList.length + 1))])

/-- The same for the sub-machines, from the `i`-th on, of the machine at `path`. -/
def machineListValues (path : List ℕ) (i : ℕ) (b : ℤ) : List Machine → List (Enumerator × ℤ)
  | [] => []
  | m :: ms =>
    subMachineValues (path ++ [i]) b m ++ machineListValues path (i + 1) (m.nextValue b) ms

end

/-- The values of a machine's own enumerators. -/
lemma mem_ownValues {path : List ℕ} {n : ℕ} {b : ℤ} {x : Enumerator} {v : ℤ} :
    (x, v) ∈ ownValues path n b ↔
      (x = ⟨path, .firstEvent⟩ ∧ v = b) ∨ (∃ i < n, x = ⟨path, .event i⟩ ∧ v = b + i) ∨
        (x = ⟨path, .noEvent⟩ ∧ v = b + n) := by
  simp only [ownValues, List.mem_cons, List.mem_append, List.not_mem_nil, or_false,
    Prod.mk.injEq, mem_numberFrom, eventNames, List.getElem?_map, Option.map_eq_some_iff,
    List.getElem?_eq_some_iff, List.length_range, List.getElem_range]
  constructor
  · rintro (h | ⟨i, ⟨j, ⟨hi, rfl⟩, rfl⟩, hv⟩ | h)
    · exact .inl h
    · exact .inr (.inl ⟨i, hi, rfl, hv⟩)
    · exact .inr (.inr h)
  · rintro (h | ⟨i, hi, hx, hv⟩ | h)
    · exact .inl h
    · exact .inr (.inl ⟨i, ⟨i, ⟨hi, rfl⟩, hx.symm⟩, hv⟩)
    · exact .inr (.inr h)

/-- All own enumerators of a machine carry its path, and `lastEvent` is not among them. -/
lemma path_of_mem_ownValues {path : List ℕ} {n : ℕ} {b : ℤ} {x : Enumerator × ℤ}
    (hx : x ∈ ownValues path n b) : x.1.path = path ∧ x.1.label ≠ .lastEvent := by
  obtain ⟨x, v⟩ := x
  rcases mem_ownValues.mp hx with ⟨rfl, -⟩ | ⟨i, -, rfl, -⟩ | ⟨rfl, -⟩ <;> simp

mutual

/-- A sub-machine at `path` and all below it print only names that extend `path`. -/
lemma prefix_of_mem_subMachineValues (path : List ℕ) (b : ℤ) :
    ∀ (m : Machine) (x : Enumerator × ℤ), x ∈ subMachineValues path b m → path <+: x.1.path
  | .mk info ms, x, hx => by
    rw [subMachineValues, List.mem_append, List.mem_append] at hx
    rcases hx with (hx | hx) | hx
    · rw [(path_of_mem_ownValues hx).1]
    · obtain ⟨j, -, hj⟩ := prefix_of_mem_machineListValues path 0 _ ms x hx
      exact (List.prefix_append path [j]).trans hj
    · split_ifs at hx
      · simp at hx
      · rw [List.mem_singleton.mp hx]

/-- The sub-machines from the `i`-th on print only names below their own paths. -/
lemma prefix_of_mem_machineListValues (path : List ℕ) (i : ℕ) (b : ℤ) :
    ∀ (ms : List Machine) (x : Enumerator × ℤ), x ∈ machineListValues path i b ms →
      ∃ j, i ≤ j ∧ path ++ [j] <+: x.1.path
  | [], x, hx => by simp [machineListValues] at hx
  | m :: ms, x, hx => by
    rw [machineListValues, List.mem_append] at hx
    rcases hx with hx | hx
    · exact ⟨i, le_rfl, prefix_of_mem_subMachineValues _ b m x hx⟩
    · obtain ⟨j, hj, hjx⟩ := prefix_of_mem_machineListValues path (i + 1) _ ms x hx
      exact ⟨j, by omega, hjx⟩

end

/-- The value of the `noEvent` of the last machine of a non-empty list. -/
lemma lastNoEvent_mem (path : List ℕ) :
    ∀ (ms : List Machine) (i : ℕ) (v b : ℤ), ms ≠ [] →
      (⟨path ++ [i + (ms.length - 1)], .noEvent⟩, lastNoEvent v ms b) ∈
        machineListValues path i b ms
  | [], _, _, _, h => absurd rfl h
  | [.mk info cs], i, v, b, _ => by
    simp [machineListValues, subMachineValues, ownValues, lastNoEvent]
  | m :: m' :: ms, i, v, b, _ => by
    have ih := lastNoEvent_mem path (m' :: ms) (i + 1) (b + m.eventList.length) (m.nextValue b)
      (by simp)
    rw [machineListValues, List.mem_append, lastNoEvent]
    right
    convert ih using 5
    simp
    omega

/-! ## The enumeration compiles -/

/-- The enumerators of all events but the first. -/
def laterEventNames (path : List ℕ) (k : ℕ) : List Enumerator :=
  (List.range k).map fun i => ⟨path, .event (i + 1)⟩

/-- The first event and the later ones. -/
lemma eventNames_succ (path : List ℕ) (k : ℕ) :
    eventNames path (k + 1) = ⟨path, .event 0⟩ :: laterEventNames path k := by
  rw [eventNames, List.range_succ_eq_map, List.map_cons, List.map_map]
  rfl

/-- After `firstEvent` and the first event, the events of a sub-machine have no initializer. -/
lemma flatMap_printSubMachineEvent (path : List ℕ) (k : ℕ) :
    (List.range (k + 1)).flatMap (printSubMachineEvent path) =
      ⟨⟨path, .firstEvent⟩, .implicit⟩ ::
        ⟨⟨path, .event 0⟩, .sameAs ⟨path, .firstEvent⟩⟩ ::
          (laterEventNames path k).map fun x => ⟨x, .implicit⟩ := by
  rw [List.range_succ_eq_map, List.flatMap_cons, List.flatMap_map, laterEventNames, List.map_map,
    List.map_eq_flatMap]
  rfl

/-- The later events are different enumerators. -/
lemma laterEventNames_nodup (path : List ℕ) (k : ℕ) : (laterEventNames path k).Nodup :=
  List.Nodup.map (fun i j h => by simpa using h) List.nodup_range

/-- Printing a sub-machine's own enumerators: `firstEvent` and the first event share the value
the enumeration has reached, and the other events and `noEvent` follow. -/
private lemma declareAll_ownEvents {s : EnumScope Enumerator} {path : List ℕ} {n : ℕ}
    (hn : n ≠ 0) (hs : s.WellFormed) (hfresh : ∀ x ∈ s.bound, x.1.path ≠ path) :
    s.declareAll ((List.range n).flatMap (printSubMachineEvent path) ++
        [⟨⟨path, .noEvent⟩, .implicit⟩]) =
      some ⟨s.next + n + 1, s.bound ++ ownValues path n s.next⟩ := by
  obtain ⟨k, rfl⟩ := Nat.exists_eq_succ_of_ne_zero hn
  -- after the first event no name has an initializer
  have hlater : ((laterEventNames path k).map fun x => (⟨x, .implicit⟩ : EnumItem Enumerator)) ++
      [⟨⟨path, .noEvent⟩, .implicit⟩] =
        (laterEventNames path k ++ [(⟨path, .noEvent⟩ : Enumerator)]).map
          fun x => ⟨x, .implicit⟩ := by
    simp
  have hnd : (s.bound.map Prod.fst ++ ⟨path, .firstEvent⟩ :: ⟨path, .event 0⟩ ::
      (laterEventNames path k ++ [(⟨path, .noEvent⟩ : Enumerator)])).Nodup := by
    apply List.nodup_append.mpr
    refine ⟨hs, ?_, ?_⟩
    · have hl := laterEventNames_nodup path k
      simp only [laterEventNames] at hl
      simp [laterEventNames, List.nodup_append, hl]
    · intro x hx y hy hxy
      have hpath : y.path = path := by
        simp only [List.mem_append, List.mem_cons, List.not_mem_nil, or_false, laterEventNames,
          List.mem_map] at hy
        rcases hy with rfl | rfl | ⟨i, -, rfl⟩ | rfl <;> rfl
      obtain ⟨z, hz, rfl⟩ := List.mem_map.mp hx
      exact hfresh z hz (hxy ▸ hpath)
  rw [Nat.succ_eq_add_one, flatMap_printSubMachineEvent, ownValues, eventNames_succ,
    List.cons_append, List.cons_append, hlater, EnumScope.declareAll_pair hnd]
  simp only [numberFrom_append, numberFrom, laterEventNames, List.length_map, List.length_range,
    List.length_append, List.length_cons, List.length_nil, List.cons_append, Option.some.injEq,
    EnumScope.mk.injEq]
  push_cast
  refine ⟨by omega, ?_⟩
  rw [show s.next + 1 + (k : ℤ) = s.next + (k + 1) by omega]

/-- No path extends itself by one more position. -/
lemma not_append_singleton_prefix (path : List ℕ) (j : ℕ) : ¬ path ++ [j] <+: path := by
  intro h
  simpa using h.length_le

mutual

/-- The enumerators of an accepted sub-machine and of all below it compile, with the values
of `subMachineValues`, after any enumerators that belong elsewhere. -/
theorem declareAll_printSubMachineEvents (path : List ℕ) :
    ∀ (m : Machine) (s : EnumScope Enumerator), m.Accepted → s.WellFormed →
      (∀ x ∈ s.bound, ¬ path <+: x.1.path) →
      s.declareAll (printSubMachineEvents path m) =
        some ⟨m.nextValue s.next, s.bound ++ subMachineValues path s.next m⟩
  | .mk info ms, s, hm, hs, hfresh => by
    obtain ⟨hev, -, hsubs⟩ := hm
    have hown := declareAll_ownEvents (n := info.eventList.length) (by simpa using hev) hs
      fun x hx h => hfresh x hx (h ▸ List.prefix_rfl)
    have hwf := EnumScope.declareAll_wellFormed hs hown
    have hlist := declareAll_printMachineListEvents path ms 0 _ hsubs hwf (by
      intro x hx j _ hj
      rcases List.mem_append.mp hx with hx | hx
      · exact hfresh x hx ((List.prefix_append path [j]).trans hj)
      · exact not_append_singleton_prefix path j ((path_of_mem_ownValues hx).1 ▸ hj))
    have hwf' := EnumScope.declareAll_wellFormed hwf hlist
    have hall := EnumScope.declareAll_append_of_eq_some hown hlist
    rw [printSubMachineEvents, subMachineValues, Machine.nextValue]
    split_ifs with hms
    · subst hms
      simpa [nextValueList, machineListValues, lastNoEvent] using hall
    · -- `lastEvent` takes the value of the last sub-machine's `noEvent`
      have hval := lastNoEvent_mem path ms 0 (s.next + info.eventList.length)
        (s.next + info.eventList.length + 1) hms
      rw [Nat.zero_add] at hval
      have hnew : (⟨path, .lastEvent⟩ : Enumerator) ∉ ((s.bound ++
          ownValues path info.eventList.length s.next) ++ machineListValues path 0
            (s.next + info.eventList.length + 1) ms).map Prod.fst := by
        intro h
        obtain ⟨x, hx, hxe⟩ := List.mem_map.mp h
        have hpath : x.1.path = path := by rw [hxe]
        rcases List.mem_append.mp hx with hx | hx
        · rcases List.mem_append.mp hx with hx | hx
          · exact hfresh x hx (hpath ▸ List.prefix_rfl)
          · exact (path_of_mem_ownValues hx).2 (by rw [hxe])
        · obtain ⟨j, -, hj⟩ := prefix_of_mem_machineListValues path 0 _ ms x hx
          exact not_append_singleton_prefix path j (hpath ▸ hj)
      have hinit := (EnumScope.valueOf_eq_some_iff hwf').mpr (List.mem_append_right _ hval)
      refine EnumScope.declareAll_append_of_eq_some hall ?_
      rw [EnumScope.declareAll_cons, EnumScope.declare_sameAs hinit hnew, Option.bind_some,
        EnumScope.declareAll_nil]
      simp only [EnumScope.bind, List.append_assoc]

/-- The same for the sub-machines, from the `i`-th on, of the machine at `path`. -/
theorem declareAll_printMachineListEvents (path : List ℕ) :
    ∀ (ms : List Machine) (i : ℕ) (s : EnumScope Enumerator), Machine.AcceptedList ms →
      s.WellFormed → (∀ x ∈ s.bound, ∀ j, i ≤ j → ¬ path ++ [j] <+: x.1.path) →
      s.declareAll (printMachineListEvents path i ms) =
        some ⟨nextValueList ms s.next, s.bound ++ machineListValues path i s.next ms⟩
  | [], i, s, _, _, _ => by simp [printMachineListEvents, machineListValues, nextValueList]
  | m :: ms, i, s, hms, hs, hfresh => by
    have hm := declareAll_printSubMachineEvents (path ++ [i]) m s hms.1 hs
      fun x hx => hfresh x hx i le_rfl
    have hwf := EnumScope.declareAll_wellFormed hs hm
    have hrest := declareAll_printMachineListEvents path ms (i + 1) _ hms.2 hwf (by
      intro x hx j hj hjx
      rcases List.mem_append.mp hx with hx | hx
      · exact hfresh x hx j (by omega) hjx
      · have hix := prefix_of_mem_subMachineValues _ _ m x hx
        have hij : path ++ [i] = path ++ [j] :=
          (List.prefix_of_prefix_length_le hix hjx (by simp)).eq_of_length (by simp)
        have : i = j := by simpa using hij
        omega)
    rw [printMachineListEvents, EnumScope.declareAll_append_of_eq_some hm hrest]
    simp [machineListValues, nextValueList]

end

/-! ## The top-level machine -/

/-- The names of the top-level machine that follow its events. -/
def closingNames (top : Machine) : List Enumerator :=
  (if top.actionsReturn = .events then [⟨[], .noEvent⟩] else []) ++ [⟨[], .numEvents⟩]

/-- The value of the first enumerator after those of the top-level machine, when no external
designations are used. -/
def topBase (top : Machine) : ℤ :=
  top.eventList.length + (closingNames top).length

/-- The enumerators of the top-level machine with their values, when no external designations
are used. -/
def topValues (top : Machine) : List (Enumerator × ℤ) :=
  (⟨[], .event 0⟩, 0) :: (⟨[], .firstEvent⟩, 0) ::
    numberFrom 1 (laterEventNames [] (top.eventList.length - 1) ++ closingNames top)

/-- The events of the top-level machine after its first one. -/
private lemma flatMap_printEventEnumMember (assign : Bool) (designated : String → ℤ) (k : ℕ)
    (hk : 0 < k) (es : List Event) :
    (es.zipIdx k).flatMap (printEventEnumMember assign designated) =
      (es.zipIdx k).map fun e => ⟨⟨[], .event e.2⟩, eventInit assign designated e.1⟩ := by
  induction es generalizing k with
  | nil => rfl
  | cons e es ih =>
    rw [List.zipIdx_cons, List.flatMap_cons, List.map_cons, ih (k + 1) (by omega),
      printEventEnumMember, if_neg (by simpa using hk.ne')]
    rfl

/-- The names printed for the events of the top-level machine after its first one. -/
private lemma map_event_zipIdx (es : List Event) :
    (es.zipIdx 1).map (fun e => (⟨[], .event e.2⟩ : Enumerator)) =
      laterEventNames [] es.length := by
  apply List.ext_getElem
  · simp [laterEventNames]
  · intro i _ _
    simp [laterEventNames, Nat.add_comm]

/-- Every name but `firstEvent` is printed without naming another enumerator, and no two
names agree. -/
lemma printTopEvents_eq (compactActionArray : Bool) (designated : String → ℤ) {top : Machine}
    (htop : top.eventList ≠ []) :
    ∃ i rest, printTopEvents compactActionArray designated top =
        ⟨⟨[], .event 0⟩, i⟩ :: ⟨⟨[], .firstEvent⟩, .sameAs ⟨[], .event 0⟩⟩ :: rest ∧
      rest.map (·.name) =
        laterEventNames [] (top.eventList.length - 1) ++ closingNames top ∧
      (∀ y, i ≠ .sameAs y) ∧ (∀ item ∈ rest, ∀ y, item.init ≠ .sameAs y) ∧
      (assignExternalEventValues compactActionArray top = false →
        i = .implicit ∧ ∀ item ∈ rest, item.init = .implicit) := by
  obtain ⟨e, es, hes⟩ := List.exists_cons_of_ne_nil htop
  set assign := assignExternalEventValues compactActionArray top with hassign
  have hinit : ∀ (e : Event) (y : Enumerator), eventInit assign designated e ≠ .sameAs y := by
    intro e y
    unfold eventInit
    split <;> simp
  have himp : assign = false → ∀ e : Event, eventInit assign designated e = .implicit := by
    intro h e
    rw [h]
    rfl
  refine ⟨eventInit assign designated e,
    (es.zipIdx 1).map (fun e => ⟨⟨[], .event e.2⟩, eventInit assign designated e.1⟩) ++
      (if top.actionsReturn = .events then [⟨⟨[], .noEvent⟩, .implicit⟩] else []) ++
      [⟨⟨[], .numEvents⟩, if assign then .value top.eventList.length else .implicit⟩],
    ?_, ?_, hinit e, ?_, ?_⟩
  · rw [printTopEvents, hes, List.zipIdx_cons, List.flatMap_cons,
      flatMap_printEventEnumMember _ _ _ (by omega)]
    simp [printEventEnumMember, ← hassign]
  · have hlater := map_event_zipIdx es
    simp only [List.map_append, List.map_map, Function.comp_def, List.map_cons, List.map_nil,
      hlater, hes, List.length_cons, Nat.add_sub_cancel, closingNames, List.append_assoc]
    split_ifs <;> rfl
  · intro item hitem y
    simp only [List.mem_append, List.mem_map, List.mem_singleton] at hitem
    rcases hitem with (⟨e', -, rfl⟩ | hitem) | rfl
    · exact hinit e'.1 y
    · split_ifs at hitem
      · rw [List.mem_singleton.mp hitem]
        simp
      · simp at hitem
    · split_ifs <;> simp
  · intro h
    refine ⟨himp h e, ?_⟩
    intro item hitem
    simp only [List.mem_append, List.mem_map, List.mem_singleton] at hitem
    rcases hitem with (⟨e', -, rfl⟩ | hitem) | rfl
    · exact himp h e'.1
    · split_ifs at hitem
      · rw [List.mem_singleton.mp hitem]
      · simp at hitem
    · simp [h]

/-- The names printed for the top-level machine before those of its sub-machines. -/
def topNames (top : Machine) : List Enumerator :=
  ⟨[], .event 0⟩ :: ⟨[], .firstEvent⟩ ::
    (laterEventNames [] (top.eventList.length - 1) ++ closingNames top)

/-- The names of the top-level machine are different. -/
lemma topNames_nodup (top : Machine) : (topNames top).Nodup := by
  have hl := laterEventNames_nodup [] (top.eventList.length - 1)
  simp only [laterEventNames] at hl
  cases h : top.actionsReturn <;>
    simp [topNames, laterEventNames, closingNames, List.nodup_append, h, hl]

/-- The names of the top-level machine carry the empty path. -/
lemma path_of_mem_topNames {top : Machine} {x : Enumerator} (hx : x ∈ topNames top) :
    x.path = [] ∧ x.label ≠ .numAllEvents := by
  simp only [topNames, laterEventNames, closingNames, List.mem_cons, List.mem_append,
    List.mem_map, List.not_mem_nil, or_false] at hx
  rcases hx with rfl | rfl | ⟨i, -, rfl⟩ | hx | rfl
  · simp
  · simp
  · simp
  · split_ifs at hx
    · rw [List.mem_singleton.mp hx]
      simp
    · simp at hx
  · simp

/-- The enumerators of the top-level machine compile. -/
private lemma exists_declareAll_printTopEvents (compactActionArray : Bool) (designated : String → ℤ)
    {top : Machine} (htop : top.eventList ≠ []) :
    ∃ s, EnumScope.empty.declareAll (printTopEvents compactActionArray designated top) =
        some s ∧ s.bound.map Prod.fst = topNames top := by
  obtain ⟨i, rest, heq, hnames, hi, hrest, -⟩ :=
    printTopEvents_eq compactActionArray designated htop
  have hitems : (printTopEvents compactActionArray designated top).map (·.name) =
      topNames top := by
    rw [heq, List.map_cons, List.map_cons, hnames, topNames]
  have hnd : ((EnumScope.empty : EnumScope Enumerator).bound.map Prod.fst ++
      (printTopEvents compactActionArray designated top).map (·.name)).Nodup := by
    rw [hitems]
    exact topNames_nodup top
  obtain ⟨s, hs, hbound⟩ := EnumScope.exists_declareAll hnd (by
      intro l item r y h hy
      rw [heq] at h
      cases l with
      | nil =>
        obtain ⟨rfl, -⟩ := List.cons.inj h
        exact absurd hy (hi y)
      | cons a l =>
        obtain ⟨rfl, htail⟩ := List.cons.inj h
        cases l with
        | nil =>
          obtain ⟨rfl, -⟩ := List.cons.inj htail
          cases hy
          simp
        | cons c l =>
          obtain ⟨rfl, hrest'⟩ := List.cons.inj htail
          exact absurd hy (hrest item (by simp [hrest']) y))
  exact ⟨s, hs, by rw [hbound, hitems]; rfl⟩

/-- Without external designations the enumerators of the top-level machine are numbered from
zero, `firstEvent` sharing the number of the first event. -/
private lemma declareAll_printTopEvents {compactActionArray : Bool} (designated : String → ℤ)
    {top : Machine} (htop : top.eventList ≠ [])
    (hext : assignExternalEventValues compactActionArray top = false) :
    EnumScope.empty.declareAll (printTopEvents compactActionArray designated top) =
      some ⟨topBase top, topValues top⟩ := by
  obtain ⟨i, rest, heq, hnames, -, -, himp⟩ :=
    printTopEvents_eq compactActionArray designated htop
  obtain ⟨rfl, hrest⟩ := himp hext
  have hrest' : rest = (rest.map (·.name)).map fun x => ⟨x, .implicit⟩ := by
    rw [List.map_map]
    refine (List.map_id rest).symm.trans (List.map_congr_left ?_)
    intro item hitem
    rw [Function.comp_apply, ← hrest item hitem]
    rfl
  have hlen : 0 < top.eventList.length := List.length_pos_of_ne_nil htop
  rw [heq, hrest', hnames, EnumScope.declareAll_pair (by
    simpa [EnumScope.empty, topNames] using topNames_nodup top)]
  simp only [EnumScope.empty, topBase, topValues, laterEventNames, List.length_append,
    List.length_map, List.length_range, List.nil_append, Option.some.injEq, EnumScope.mk.injEq]
  push_cast
  constructor
  · omega
  · rfl

/-! ## The whole enumeration -/

/-- The event enumeration, given the values of the top-level machine's own enumerators. -/
lemma eventEnum_of_top {compactActionArray : Bool} {designated : String → ℤ} {top : Machine}
    (htop : top.Accepted) {s : EnumScope Enumerator}
    (hs : EnumScope.empty.declareAll (printTopEvents compactActionArray designated top) = some s)
    (hnames : s.bound.map Prod.fst = topNames top) :
    ∃ v, eventEnum compactActionArray designated top =
      some ⟨v + 1, s.bound ++ machineListValues [] 0 s.next top.machineList ++
        [(⟨[], .numAllEvents⟩, v)]⟩ := by
  have hpath : ∀ x ∈ s.bound, x.1.path = [] ∧ x.1.label ≠ .numAllEvents := fun x hx =>
    path_of_mem_topNames (hnames ▸ List.mem_map_of_mem hx)
  have hwf : s.WellFormed := by
    rw [EnumScope.WellFormed, hnames]
    exact topNames_nodup top
  have hlist := declareAll_printMachineListEvents [] top.machineList 0 s
    ((Machine.acceptedList_iff _).mpr (top.accepted_iff.mp htop).2.2) hwf (by
      intro x hx j _ hj
      rw [(hpath x hx).1] at hj
      simp at hj)
  have hwf' := EnumScope.declareAll_wellFormed hwf hlist
  have hall := EnumScope.declareAll_append_of_eq_some hs hlist
  have hnew : (⟨[], .numAllEvents⟩ : Enumerator) ∉
      (s.bound ++ machineListValues [] 0 s.next top.machineList).map Prod.fst := by
    intro h
    obtain ⟨x, hx, hxe⟩ := List.mem_map.mp h
    rcases List.mem_append.mp hx with hx | hx
    · exact (hpath x hx).2 (by rw [hxe])
    · obtain ⟨j, -, hj⟩ := prefix_of_mem_machineListValues [] 0 _ _ x hx
      rw [hxe] at hj
      simp at hj
  unfold eventEnum commonHeaderStart
  by_cases hms : top.machineList = []
  · have hnum : ⟨[], .numEvents⟩ ∈ s.bound.map Prod.fst := by
      rw [hnames]
      simp [topNames, closingNames]
    obtain ⟨⟨_, v⟩, hv, rfl⟩ := List.mem_map.mp hnum
    have hval := (EnumScope.valueOf_eq_some_iff hwf').mpr (List.mem_append_left _ hv)
    refine ⟨v, EnumScope.declareAll_append_of_eq_some hall ?_⟩
    rw [if_pos hms, EnumScope.declareAll_cons, EnumScope.declare_sameAs hval hnew]
    rfl
  · refine ⟨nextValueList top.machineList s.next, EnumScope.declareAll_append_of_eq_some hall ?_⟩
    rw [if_neg hms, EnumScope.declareAll_cons, EnumScope.declare_implicit hnew]
    rfl

/-- **The event enumeration compiles.** The top-level machine's own enumerators come first,
then those of its sub-machines, numbered from some value on. -/
theorem exists_eventEnum (compactActionArray : Bool) (designated : String → ℤ) {top : Machine}
    (htop : top.Accepted) :
    ∃ own b v, own.map Prod.fst = topNames top ∧
      eventEnum compactActionArray designated top =
        some ⟨v + 1, own ++ machineListValues [] 0 b top.machineList ++
          [(⟨[], .numAllEvents⟩, v)]⟩ := by
  obtain ⟨s, hs, hnames⟩ := exists_declareAll_printTopEvents compactActionArray designated
    (top.accepted_iff.mp htop).1
  obtain ⟨v, hv⟩ := eventEnum_of_top htop hs hnames
  exact ⟨s.bound, s.next, v, hnames, hv⟩

/-- **The event enumeration without external designations.** -/
theorem eventEnum_of_noExternal {compactActionArray : Bool} (designated : String → ℤ)
    {top : Machine} (htop : top.Accepted)
    (hext : assignExternalEventValues compactActionArray top = false) :
    ∃ v, eventEnum compactActionArray designated top =
      some ⟨v + 1, topValues top ++ machineListValues [] 0 (topBase top) top.machineList ++
        [(⟨[], .numAllEvents⟩, v)]⟩ := by
  have hs := declareAll_printTopEvents designated (top.accepted_iff.mp htop).1 hext
  exact eventEnum_of_top htop hs (by simp [topValues, topNames])

/-- An enumerator of the whole enumeration has one value. -/
lemma eventEnum_wellFormed {compactActionArray : Bool} {designated : String → ℤ}
    {top : Machine} {s : EnumScope Enumerator}
    (h : eventEnum compactActionArray designated top = some s) : s.WellFormed :=
  EnumScope.declareAll_wellFormed EnumScope.empty_wellFormed h

/-! ## The value of one enumerator -/

/-- The machine at a path below this one and the value of its `firstEvent`, when the
`firstEvent` of this one is `b`. -/
def Machine.locate (m : Machine) (b : ℤ) : List ℕ → Option (Machine × ℤ)
  | [] => some (m, b)
  | k :: p => (m.machineList[k]?).bind fun c =>
    c.locate (nextValueList (m.machineList.take k) (b + m.eventList.length + 1)) p

/-- The same for the path that starts with the `k`-th machine of a list printed from the value
`b` on. -/
def locateBelow (ms : List Machine) (b : ℤ) (k : ℕ) (p : List ℕ) : Option (Machine × ℤ) :=
  (ms[k]?).bind fun c => c.locate (nextValueList (ms.take k) b) p

/-- The values of a machine's own enumerators, when its `firstEvent` is `b`. -/
def Machine.ownValue (m : Machine) (b : ℤ) : Label → Option ℤ
  | .event i => if i < m.eventList.length then some (b + i) else none
  | .firstEvent => some b
  | .noEvent => some (b + m.eventList.length)
  | .lastEvent =>
    if m.machineList = [] then none
    else some (lastNoEvent (b + m.eventList.length) m.machineList (b + m.eventList.length + 1))
  | .numEvents => none
  | .numAllEvents => none

/-- The machine at the empty path is the machine itself, at the given base. -/
@[simp] lemma Machine.locate_nil (m : Machine) (b : ℤ) : m.locate b [] = some (m, b) := rfl

/-- The machine at a path lies behind the own events of the one above. -/
lemma Machine.locate_cons (m : Machine) (b : ℤ) (k : ℕ) (p : List ℕ) :
    m.locate b (k :: p) = locateBelow m.machineList (b + m.eventList.length + 1) k p := rfl

/-- The machine at a path below the first sub-machine. -/
lemma locateBelow_cons_zero (m : Machine) (ms : List Machine) (b : ℤ) (p : List ℕ) :
    locateBelow (m :: ms) b 0 p = m.locate b p := rfl

/-- The machine at a path below a later sub-machine lies behind the first one. -/
lemma locateBelow_cons_succ (m : Machine) (ms : List Machine) (b : ℤ) (k : ℕ) (p : List ℕ) :
    locateBelow (m :: ms) b (k + 1) p = locateBelow ms (m.nextValue b) k p := rfl

/-- `locate` finds the machine at a path. -/
lemma locate_map_fst (m : Machine) (b : ℤ) (q : List ℕ) :
    (m.locate b q).map Prod.fst = m.sub? q := by
  induction q generalizing m b with
  | nil => rfl
  | cons k q ih =>
    rw [Machine.locate, Machine.sub?_cons]
    cases m.machineList[k]? with
    | none => rfl
    | some c => exact ih c _

/-- `locate` follows a path piece by piece. -/
lemma locate_append (m : Machine) (b : ℤ) (p q : List ℕ) :
    m.locate b (p ++ q) = (m.locate b p).bind fun cb => cb.1.locate cb.2 q := by
  induction p generalizing m b with
  | nil => rfl
  | cons k p ih =>
    rw [List.cons_append, Machine.locate, Machine.locate, Option.bind_assoc]
    congr 1
    funext c
    exact ih c _

/-- The own enumerators of a machine, `lastEvent` included, in terms of `ownValue`. -/
private lemma mem_ownValues_or_lastEvent {path : List ℕ} {info : MachineInfo} {ms : List Machine}
    {b : ℤ} {x : Enumerator} {v : ℤ} :
    (x, v) ∈ ownValues path info.eventList.length b ∨
        (x, v) ∈ (if ms = [] then [] else [((⟨path, .lastEvent⟩ : Enumerator),
          lastNoEvent (b + info.eventList.length) ms (b + info.eventList.length + 1))]) ↔
      x.path = path ∧ (Machine.mk info ms).ownValue b x.label = some v := by
  rw [mem_ownValues]
  obtain ⟨p, l⟩ := x
  cases l with
  | event i =>
    by_cases hi : i < info.eventList.length <;> by_cases hms : ms = [] <;>
      simp [Machine.ownValue, hi, hms, eq_comm]
  | firstEvent => by_cases hms : ms = [] <;> simp [Machine.ownValue, hms, eq_comm]
  | noEvent => by_cases hms : ms = [] <;> simp [Machine.ownValue, hms, eq_comm]
  | lastEvent => by_cases hms : ms = [] <;> simp [Machine.ownValue, hms, eq_comm]
  | numEvents => by_cases hms : ms = [] <;> simp [Machine.ownValue, hms]
  | numAllEvents => by_cases hms : ms = [] <;> simp [Machine.ownValue, hms]

mutual

/-- The enumerators of a sub-machine and of all below it are the own enumerators of the
machines there, each numbered from its own `firstEvent`. -/
theorem mem_subMachineValues (path : List ℕ) (x : Enumerator) (v : ℤ) :
    ∀ (m : Machine) (b : ℤ), (x, v) ∈ subMachineValues path b m ↔
      ∃ q c b', m.locate b q = some (c, b') ∧ x.path = path ++ q ∧
        c.ownValue b' x.label = some v
  | .mk info ms, b => by
    rw [subMachineValues, List.mem_append, List.mem_append, or_right_comm,
      mem_ownValues_or_lastEvent, mem_machineListValues]
    constructor
    · intro h
      rcases h with ⟨hpath, hv⟩ | ⟨k, q, c, b', hc, hpath, hv⟩
      · exact ⟨[], _, _, rfl, by simpa using hpath, hv⟩
      · exact ⟨k :: q, c, b', hc, by simpa using hpath, hv⟩
    · intro h
      obtain ⟨q, c, b', hc, hpath, hv⟩ := h
      cases q with
      | nil =>
        left
        obtain ⟨rfl, rfl⟩ := Prod.mk.inj (Option.some.inj hc)
        exact ⟨by simpa using hpath, hv⟩
      | cons k q => exact .inr ⟨k, q, c, b', hc, by simpa using hpath, hv⟩

/-- The same for the sub-machines, from the `i`-th on, of the machine at `path`. -/
theorem mem_machineListValues (path : List ℕ) (x : Enumerator) (v : ℤ) :
    ∀ (ms : List Machine) (i : ℕ) (b : ℤ), (x, v) ∈ machineListValues path i b ms ↔
      ∃ k q c b', locateBelow ms b k q = some (c, b') ∧ x.path = path ++ (i + k) :: q ∧
        c.ownValue b' x.label = some v
  | [], i, b => by simp [machineListValues, locateBelow]
  | m :: ms, i, b => by
    rw [machineListValues, List.mem_append, mem_subMachineValues, mem_machineListValues]
    constructor
    · intro h
      rcases h with ⟨q, c, b', hc, hpath, hv⟩ | ⟨k, q, c, b', hc, hpath, hv⟩
      · exact ⟨0, q, c, b', hc, by simpa using hpath, hv⟩
      · exact ⟨k + 1, q, c, b', hc, by rw [hpath, Nat.add_right_comm, Nat.add_assoc], hv⟩
    · intro h
      obtain ⟨k, q, c, b', hc, hpath, hv⟩ := h
      cases k with
      | zero => exact .inl ⟨q, c, b', hc, by simpa using hpath, hv⟩
      | succ k =>
        exact .inr ⟨k, q, c, b', hc, by rw [hpath, Nat.add_right_comm, Nat.add_assoc], hv⟩

end

/-- **The value of an enumerator of a sub-machine.** In the event enumeration of an accepted
tree the machine at a path below the top has the values of `ownValue`, counted from the value
`locateBelow` computes for its `firstEvent`. -/
theorem exists_valueOf_eventEnum (compactActionArray : Bool) (designated : String → ℤ)
    {top : Machine} (htop : top.Accepted) :
    ∃ s b, eventEnum compactActionArray designated top = some s ∧
      ∀ k q l, s.valueOf ⟨k :: q, l⟩ =
        (locateBelow top.machineList b k q).bind fun cb => cb.1.ownValue cb.2 l := by
  obtain ⟨own, b, v, hown, hs⟩ := exists_eventEnum compactActionArray designated htop
  refine ⟨_, b, hs, ?_⟩
  intro k q l
  ext w
  rw [EnumScope.valueOf_eq_some_iff (eventEnum_wellFormed hs), List.mem_append,
    List.mem_append, mem_machineListValues]
  constructor
  · intro h
    rcases h with (h | ⟨k', q', c, b', hc, hpath, hv⟩) | h
    · have := (path_of_mem_topNames (hown ▸ List.mem_map_of_mem h)).1
      simp at this
    · simp only [List.nil_append, Nat.zero_add, List.cons.injEq] at hpath
      obtain ⟨rfl, rfl⟩ := hpath
      rw [hc]
      exact hv
    · simp at h
  · intro h
    obtain ⟨⟨c, b'⟩, hc, hv⟩ := Option.bind_eq_some_iff.mp h
    exact .inl (.inr ⟨k, q, c, b', hc, by simp, hv⟩)

end FsmLang
