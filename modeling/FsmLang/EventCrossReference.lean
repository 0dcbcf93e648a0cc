import Mathlib.Data.List.Basic
import Mathlib.Tactic
import FsmLang.EventNumbers

set_option relaxedAutoImplicit false
set_option autoImplicit false

/-!
# The event cross-references

Two generators list the events of a tree with their numbers: `addEventCrossReference` in a
comment above the event enumeration, and `writeCEventXRef` in a file of its own, in four
formats that differ in their punctuation only. Both walk over the tree with a counter that
every entry moves on by one; neither looks at the enumeration that is printed.

The enumeration has a `noEvent` for every sub-machine, and so has the file. The comment has it
for the sub-machines whose actions return events.

## Main definitions

* `addEventCrossReference`, `writeCEventXRef` — the entries of the comment and of the file.
* `CrossReferenceRight` — the number beside each event and `noEvent` is its value.
* `Machine.printOrder` — the machines in the order in which both walks reach them.

## Main results

* `crossReferenceRight_iff_prefix_slots` — the entries are right exactly when they list the events
  and `noEvent`s as the enumeration does, without gaps.
* `printSubMachineListXref_prefix_iff` — the comment does so exactly when all machines but the
  last return events.
* `exists_crossReferences_right_iff` — when both cross-references are right.
* `count_event_writeCEventXRef` — the file lists every event once.
-/

namespace FsmLang

open CSemantics

/-! ## The two walks -/

mutual

/-- The entries `print_sub_machine_event_cross_reference` prints for a sub-machine and all
below it. -/
def printSubMachineEventCrossReference (path : List ℕ) : Machine → List Enumerator
  | .mk info ms =>
    eventNames path info.eventList.length ++
      (if info.actionsReturn = .events then [⟨path, .noEvent⟩] else []) ++
      printSubMachineListXref path 0 ms

/-- The iteration over the sub-machines, from the `i`-th on, of the machine at `path`. -/
def printSubMachineListXref (path : List ℕ) (i : ℕ) : List Machine → List Enumerator
  | [] => []
  | m :: ms =>
    printSubMachineEventCrossReference (path ++ [i]) m ++ printSubMachineListXref path (i + 1) ms

end

mutual

/-- The entries `iterate_sub_machines` writes for a sub-machine and all below it. -/
def iterateSubMachines (path : List ℕ) : Machine → List Enumerator
  | .mk info ms =>
    eventNames path info.eventList.length ++ [⟨path, .noEvent⟩] ++
      iterateSubMachineList path 0 ms

/-- The iteration over the sub-machines, from the `i`-th on, of the machine at `path`. -/
def iterateSubMachineList (path : List ℕ) (i : ℕ) : List Machine → List Enumerator
  | [] => []
  | m :: ms => iterateSubMachines (path ++ [i]) m ++ iterateSubMachineList path (i + 1) ms

end

/-- The entries of a cross-reference: those of the top-level machine, those below it, and the
closing `numAllEvents` when there are sub-machines. Each is printed beside the number of
entries before it. -/
def crossReference (top : Machine) (below : List Enumerator) : List (Enumerator × ℕ) :=
  let closing : List Enumerator := if top.machineList = [] then [] else [⟨[], .numAllEvents⟩]
  (topSlotNames top ++ (⟨[], .numEvents⟩ :: (below ++ closing))).zipIdx

/-- The cross-reference in the comment above the enumeration. -/
def addEventCrossReference (top : Machine) : List (Enumerator × ℕ) :=
  crossReference top (printSubMachineListXref [] 0 top.machineList)

/-- The cross-reference file. -/
def writeCEventXRef (top : Machine) : List (Enumerator × ℕ) :=
  crossReference top (iterateSubMachineList [] 0 top.machineList)

/-- The number beside each event and `noEvent` is the value of the enumerator. -/
def CrossReferenceRight (s : EnumScope Enumerator) (entries : List (Enumerator × ℕ)) : Prop :=
  ∀ x k, (x, k) ∈ entries → x.label.isSlot → s.valueOf x = some (k : ℤ)

/-! ## Entries and the enumeration -/

mutual

/-- The file lists the events and `noEvent`s that the enumeration has. -/
private lemma iterateSubMachines_eq (path : List ℕ) :
    ∀ m : Machine, iterateSubMachines path m = m.slotNames path
  | .mk info ms => by
    rw [iterateSubMachines, Machine.slotNames, iterateSubMachineList_eq]

/-- The same for a list of sub-machines. -/
lemma iterateSubMachineList_eq (path : List ℕ) :
    ∀ (ms : List Machine) (i : ℕ),
      iterateSubMachineList path i ms = machineListSlotNames path i ms
  | [], _ => rfl
  | m :: ms, i => by
    rw [iterateSubMachineList, machineListSlotNames, iterateSubMachines_eq,
      iterateSubMachineList_eq]

end

mutual

/-- The events and `noEvent`s of the enumeration, whatever their values. -/
private lemma slots_subMachineValues_map_fst (path : List ℕ) :
    ∀ (m : Machine) (b : ℤ),
      (slots (subMachineValues path b m)).map Prod.fst = m.slotNames path
  | .mk info ms, b => by
    have hlastEvent : slots (if ms = [] then [] else [((⟨path, .lastEvent⟩ : Enumerator),
        lastNoEvent (b + info.eventList.length) ms (b + info.eventList.length + 1))]) = [] := by
      split_ifs <;> rfl
    rw [subMachineValues, slots_append, slots_append, slots_ownValues, hlastEvent,
      List.append_nil, List.map_append, numberFrom_map_fst, slots_machineListValues_map_fst,
      Machine.slotNames]

/-- The same for a list of sub-machines. -/
lemma slots_machineListValues_map_fst (path : List ℕ) :
    ∀ (ms : List Machine) (i : ℕ) (b : ℤ),
      (slots (machineListValues path i b ms)).map Prod.fst = machineListSlotNames path i ms
  | [], _, _ => rfl
  | m :: ms, i, b => by
    rw [machineListValues, slots_append, List.map_append, slots_subMachineValues_map_fst,
      slots_machineListValues_map_fst, machineListSlotNames]

end

/-- An entry of a cross-reference that is an event or a `noEvent`. -/
lemma mem_crossReference {top : Machine} {below : List Enumerator} {x : Enumerator} {k : ℕ}
    (hx : x.label.isSlot) :
    (x, k) ∈ crossReference top below ↔
      (topSlotNames top)[k]? = some x ∨
        (topSlotNames top).length + 1 ≤ k ∧
          below[k - ((topSlotNames top).length + 1)]? = some x := by
  have hclosing : ∀ y ∈ (if top.machineList = [] then ([] : List Enumerator)
      else [⟨[], .numAllEvents⟩]), y ≠ x := by
    intro y hy hyx
    split_ifs at hy
    · simp at hy
    · rw [← hyx, List.mem_singleton.mp hy] at hx
      simp [Label.isSlot] at hx
  have hnum : (⟨[], .numEvents⟩ : Enumerator) ≠ x := by
    intro h
    rw [← h] at hx
    simp [Label.isSlot] at hx
  rw [crossReference, List.mem_zipIdx_iff_getElem?]
  generalize (if top.machineList = [] then ([] : List Enumerator)
    else [⟨[], .numAllEvents⟩]) = closing at hclosing
  by_cases hk : k < (topSlotNames top).length
  · rw [List.getElem?_append_left hk]
    simp only [iff_self_or, and_imp]
    omega
  · rw [List.getElem?_append_right (by omega), List.getElem?_eq_none (by omega : _ ≤ k)]
    simp only [reduceCtorEq, false_or]
    cases hd : k - (topSlotNames top).length with
    | zero =>
      simp only [List.getElem?_cons_zero, Option.some.injEq, hnum, false_iff, not_and]
      omega
    | succ d =>
      have hd' : k - ((topSlotNames top).length + 1) = d := by omega
      rw [List.getElem?_cons_succ, hd']
      by_cases hlt : d < below.length
      · rw [List.getElem?_append_left hlt]
        simp only [iff_and_self]
        omega
      · rw [List.getElem?_append_right (by omega), List.getElem?_eq_none (by omega : _ ≤ d)]
        simp only [reduceCtorEq, and_false, iff_false]
        intro h
        exact hclosing x (List.mem_of_getElem? h) rfl

/-- The values of the events and `noEvent`s, when every machine with a later sibling
resumes. -/
lemma valueOf_slot_iff {top : Machine} (htop : top.Accepted) (hres : top.FollowedResume)
    {s : EnumScope Enumerator} (hs : s.WellFormed) {v : ℤ}
    (hbound : s.bound = topValues top ++
      machineListValues [] 0 (topBase top) top.machineList ++ [(⟨[], .numAllEvents⟩, v)])
    {x : Enumerator} (hx : x.label.isSlot) (w : ℤ) :
    s.valueOf x = some w ↔
      (∃ i : ℕ, (topSlotNames top)[i]? = some x ∧ w = i) ∨
        ∃ j : ℕ, (machineListSlotNames [] 0 top.machineList)[j]? = some x ∧
          w = (topSlotNames top).length + 1 + j := by
  have hslots := slots_eventEnum htop hres v
  have hmem : (x, w) ∈ s.bound ↔ (x, w) ∈ slots s.bound := by
    rw [slots, List.mem_filter]
    simp [hx]
  rw [EnumScope.valueOf_eq_some_iff hs, hmem, hbound, hslots, List.mem_append, mem_numberFrom,
    mem_numberFrom, topBase_eq]
  simp

/-- **Entries without gaps.** When every machine with a later sibling resumes, a
cross-reference is right exactly when below the top-level machine it begins to list the events
and `noEvent`s of the enumeration and leaves none out before it ends. -/
lemma crossReferenceRight_iff_prefix_slots {top : Machine} (htop : top.Accepted)
    (hres : top.FollowedResume) {s : EnumScope Enumerator} (hs : s.WellFormed) {v : ℤ}
    (hbound : s.bound = topValues top ++
      machineListValues [] 0 (topBase top) top.machineList ++ [(⟨[], .numAllEvents⟩, v)])
    {below : List Enumerator} (hbelow : ∀ y ∈ below, y.label.isSlot) :
    CrossReferenceRight s (crossReference top below) ↔
      below <+: machineListSlotNames [] 0 top.machineList := by
  rw [List.prefix_iff_getElem?]
  constructor
  · intro hright k hk
    set y := below[k] with hy
    have hslot : y.label.isSlot := hbelow y (List.getElem_mem hk)
    have hentry : (y, (topSlotNames top).length + 1 + k) ∈ crossReference top below := by
      rw [mem_crossReference hslot]
      right
      refine ⟨by omega, ?_⟩
      rw [Nat.add_sub_cancel_left, List.getElem?_eq_getElem hk]
    have hval := hright _ _ hentry hslot
    rw [valueOf_slot_iff htop hres hs hbound hslot] at hval
    rcases hval with h | h
    · obtain ⟨i, hi, hik⟩ := h
      have hlt : i < (topSlotNames top).length := (List.getElem?_eq_some_iff.mp hi).1
      omega
    · obtain ⟨j, hj, hjk⟩ := h
      obtain rfl : k = j := by omega
      exact hj
  · intro hpre x k hx hslot
    rw [valueOf_slot_iff htop hres hs hbound hslot]
    rw [mem_crossReference hslot] at hx
    rcases hx with h | h
    · exact .inl ⟨k, h, rfl⟩
    · obtain ⟨hk, hget⟩ := h
      obtain ⟨hlt, hy⟩ := List.getElem?_eq_some_iff.mp hget
      refine .inr ⟨k - ((topSlotNames top).length + 1), ?_, by omega⟩
      rw [hpre _ hlt, hy]

/-! ## The order of the machines -/

mutual

/-- A sub-machine and all below it, with their paths, in the order of both walks. -/
def Machine.printOrder (path : List ℕ) : Machine → List (List ℕ × Machine)
  | .mk info ms => (path, .mk info ms) :: printOrderList path 0 ms

/-- The same for the sub-machines, from the `i`-th on, of the machine at `path`. -/
def printOrderList (path : List ℕ) (i : ℕ) : List Machine → List (List ℕ × Machine)
  | [] => []
  | m :: ms => m.printOrder (path ++ [i]) ++ printOrderList path (i + 1) ms

end

/-- A machine comes before those below it. -/
lemma Machine.printOrder_eq (path : List ℕ) (m : Machine) :
    m.printOrder path = (path, m) :: printOrderList path 0 m.machineList := by
  cases m with
  | mk info ms => rfl

/-- The events and the `noEvent` of one machine. -/
def ownSlotNames (m : List ℕ × Machine) : List Enumerator :=
  eventNames m.1 m.2.eventList.length ++ [⟨m.1, .noEvent⟩]

/-- The entries of one machine in the comment. -/
def ownXrefNames (m : List ℕ × Machine) : List Enumerator :=
  eventNames m.1 m.2.eventList.length ++
    if m.2.actionsReturn = .events then [⟨m.1, .noEvent⟩] else []

mutual

/-- Both walks, machine by machine. -/
private lemma slotNames_eq_flatMap (path : List ℕ) :
    ∀ m : Machine, m.slotNames path = (m.printOrder path).flatMap ownSlotNames ∧
      printSubMachineEventCrossReference path m = (m.printOrder path).flatMap ownXrefNames
  | .mk info ms => by
    obtain ⟨hslots, hxref⟩ := machineListSlotNames_eq_flatMap path ms 0
    rw [Machine.slotNames, printSubMachineEventCrossReference, Machine.printOrder,
      List.flatMap_cons, List.flatMap_cons, hslots, hxref]
    exact ⟨rfl, rfl⟩

/-- The same for a list of sub-machines. -/
lemma machineListSlotNames_eq_flatMap (path : List ℕ) :
    ∀ (ms : List Machine) (i : ℕ),
      machineListSlotNames path i ms = (printOrderList path i ms).flatMap ownSlotNames ∧
        printSubMachineListXref path i ms = (printOrderList path i ms).flatMap ownXrefNames
  | [], _ => ⟨rfl, rfl⟩
  | m :: ms, i => by
    obtain ⟨hslots, hxref⟩ := slotNames_eq_flatMap (path ++ [i]) m
    obtain ⟨hslots', hxref'⟩ := machineListSlotNames_eq_flatMap path ms (i + 1)
    rw [machineListSlotNames, printSubMachineListXref, printOrderList, List.flatMap_append,
      List.flatMap_append, hslots, hxref, hslots', hxref']
    exact ⟨rfl, rfl⟩

end

/-- **Gaps in the comment.** For machines with at least one event each, the entries of the
comment begin the events and `noEvent`s exactly when all machines but the last return
events. -/
lemma flatMap_prefix_iff {l : List (List ℕ × Machine)} (hl : ∀ m ∈ l, m.2.eventList ≠ []) :
    l.flatMap ownXrefNames <+: l.flatMap ownSlotNames ↔
      ∀ m ∈ l.dropLast, m.2.actionsReturn = .events := by
  induction l with
  | nil => simp
  | cons m l ih =>
    have ih := ih fun m' hm' => hl m' (List.mem_cons_of_mem m hm')
    rw [List.flatMap_cons, List.flatMap_cons]
    by_cases hm : m.2.actionsReturn = .events
    · have hown : ownXrefNames m = ownSlotNames m := by
        rw [ownXrefNames, if_pos hm, ownSlotNames]
      rw [hown, List.prefix_append_right_inj, ih]
      cases l with
      | nil => simp
      | cons m' l => simp [List.dropLast_cons_cons, hm]
    · have hown : ownXrefNames m = eventNames m.1 m.2.eventList.length := by
        rw [ownXrefNames, if_neg hm, List.append_nil]
      rw [hown, ownSlotNames, List.append_assoc, List.prefix_append_right_inj]
      cases l with
      | nil => simp
      | cons m' l =>
        -- the next machine's first event stands where the `noEvent` is due
        obtain ⟨k, hk⟩ := Nat.exists_eq_succ_of_ne_zero
          (List.length_pos_of_ne_nil (hl m' (by simp))).ne'
        simp [ownXrefNames, hk, eventNames_succ, List.dropLast_cons_cons, hm]

mutual

/-- The walks reach accepted machines only. -/
private lemma accepted_of_mem_printOrder (path : List ℕ) :
    ∀ (m : Machine), m.Accepted → ∀ x ∈ m.printOrder path, x.2.Accepted
  | .mk info ms, hm, x, hx => by
    rw [Machine.printOrder, List.mem_cons] at hx
    rcases hx with h | h
    · exact h ▸ hm
    · exact accepted_of_mem_printOrderList path ms 0 hm.2.2 x h

/-- The same for a list of sub-machines. -/
lemma accepted_of_mem_printOrderList (path : List ℕ) :
    ∀ (ms : List Machine) (i : ℕ), Machine.AcceptedList ms →
      ∀ x ∈ printOrderList path i ms, x.2.Accepted
  | [], _, _, x, hx => by simp [printOrderList] at hx
  | m :: ms, i, hms, x, hx => by
    rw [printOrderList, List.mem_append] at hx
    rcases hx with h | h
    · exact accepted_of_mem_printOrder _ m hms.1 x h
    · exact accepted_of_mem_printOrderList path ms (i + 1) hms.2 x h

end

/-- Below the top-level machine the comment lists events and `noEvent`s only. -/
lemma isSlot_of_mem_printSubMachineListXref {path : List ℕ} {ms : List Machine} {i : ℕ}
    {x : Enumerator} (hx : x ∈ printSubMachineListXref path i ms) : x.label.isSlot := by
  rw [(machineListSlotNames_eq_flatMap path ms i).2, List.mem_flatMap] at hx
  obtain ⟨m, -, hxm⟩ := hx
  rw [ownXrefNames, List.mem_append] at hxm
  rcases hxm with h | h
  · obtain ⟨k, -, rfl⟩ := List.mem_map.mp h
    rfl
  · split_ifs at h
    · rw [List.mem_singleton.mp h]
      rfl
    · simp at h

/-- The same for the file. -/
private lemma isSlot_of_mem_machineListSlotNames {path : List ℕ} {ms : List Machine} {i : ℕ}
    {x : Enumerator} (hx : x ∈ machineListSlotNames path i ms) : x.label.isSlot := by
  rw [← slots_machineListValues_map_fst path ms i 0] at hx
  obtain ⟨y, hy, rfl⟩ := List.mem_map.mp hx
  exact (List.mem_filter.mp hy).2

/-- The comment leaves no gap exactly when all machines below the top, but the last one
reached, return events. -/
lemma printSubMachineListXref_prefix_iff {top : Machine} (htop : top.Accepted) :
    printSubMachineListXref [] 0 top.machineList <+: machineListSlotNames [] 0 top.machineList ↔
      ∀ m ∈ (printOrderList [] 0 top.machineList).dropLast, m.2.actionsReturn = .events := by
  obtain ⟨hslots, hxref⟩ := machineListSlotNames_eq_flatMap [] top.machineList 0
  rw [hslots, hxref]
  apply flatMap_prefix_iff
  intro m hm
  have hacc := accepted_of_mem_printOrderList [] top.machineList 0
    ((Machine.acceptedList_iff _).mpr (top.accepted_iff.mp htop).2.2) m hm
  exact (m.2.accepted_iff.mp hacc).1

/-- A file whose numbers are right gives different events different numbers. -/
private lemma slotsDistinct_of_writeCEventXRef {top : Machine} (htop : top.Accepted)
    {s : EnumScope Enumerator} (hs : s.WellFormed) {v : ℤ}
    (hbound : s.bound = topValues top ++
      machineListValues [] 0 (topBase top) top.machineList ++ [(⟨[], .numAllEvents⟩, v)])
    (hright : CrossReferenceRight s (writeCEventXRef top)) : SlotsDistinct s := by
  -- every event and `noEvent` of the enumeration has an entry
  have hentry : ∀ (x : Enumerator) (w : ℤ), x.label.isSlot → s.valueOf x = some w →
      ∃ k, (x, k) ∈ writeCEventXRef top := by
    intro x w hx hw
    have hmem : (x, w) ∈ slots s.bound :=
      List.mem_filter.mpr ⟨(EnumScope.valueOf_eq_some_iff hs).mp hw, hx⟩
    have hname := List.mem_map_of_mem (f := Prod.fst) hmem
    rw [hbound, slots_append, slots_append, slots_topValues (top.accepted_iff.mp htop).1,
      List.map_append, List.map_append, numberFrom_map_fst, slots_machineListValues_map_fst,
      List.append_assoc, List.mem_append, List.mem_append] at hname
    rcases hname with h | h | h
    · obtain ⟨k, hk⟩ := List.getElem?_of_mem h
      exact ⟨k, (mem_crossReference hx).mpr (.inl hk)⟩
    · obtain ⟨k, hk⟩ := List.getElem?_of_mem h
      refine ⟨(topSlotNames top).length + 1 + k, (mem_crossReference hx).mpr (.inr ?_)⟩
      refine ⟨by omega, ?_⟩
      rw [iterateSubMachineList_eq, Nat.add_sub_cancel_left]
      exact hk
    · simp [slots, Label.isSlot] at h
  intro x y w hx hy hxw hyw
  obtain ⟨k, hk⟩ := hentry x w hx hxw
  obtain ⟨k', hk'⟩ := hentry y w hy hyw
  have hkw := hright x k hk hx
  have hkw' := hright y k' hk' hy
  rw [hxw] at hkw
  rw [hyw] at hkw'
  obtain rfl : k = k' := by
    have := Option.some.inj (hkw.symm.trans hkw')
    omega
  have hx' := List.mem_zipIdx_iff_getElem?.mp hk
  have hy' := List.mem_zipIdx_iff_getElem?.mp hk'
  exact Option.some.inj (hx'.symm.trans hy')

/-! ### What the file lists -/

mutual

/-- The machines that the walks reach from a machine are those below it, and itself. -/
lemma mem_printOrder_iff (path : List ℕ) :
    ∀ (m : Machine) (p : List ℕ) (c : Machine),
      (p, c) ∈ m.printOrder path ↔ ∃ q, p = path ++ q ∧ m.sub? q = some c
  | .mk info ms, p, c => by
    rw [Machine.printOrder, List.mem_cons, mem_printOrderList_iff, Prod.mk.injEq]
    constructor
    · rintro (⟨rfl, rfl⟩ | ⟨k, q, rfl, hc⟩)
      · exact ⟨[], by simp, rfl⟩
      · exact ⟨k :: q, by simp, hc⟩
    · rintro ⟨_ | ⟨k, q⟩, rfl, hc⟩
      · exact .inl ⟨by simp, (Option.some.inj hc).symm⟩
      · exact .inr ⟨k, q, by simp, hc⟩

/-- The same for a list of sub-machines. -/
lemma mem_printOrderList_iff (path : List ℕ) :
    ∀ (ms : List Machine) (i : ℕ) (p : List ℕ) (c : Machine),
      (p, c) ∈ printOrderList path i ms ↔
        ∃ k q, p = path ++ (i + k) :: q ∧ (ms[k]?).bind (·.sub? q) = some c
  | [], i, p, c => by simp [printOrderList]
  | m :: ms, i, p, c => by
    rw [printOrderList, List.mem_append, mem_printOrder_iff, mem_printOrderList_iff]
    constructor
    · rintro (⟨q, rfl, hc⟩ | ⟨k, q, rfl, hc⟩)
      · exact ⟨0, q, by simp, hc⟩
      · exact ⟨k + 1, q, by rw [show i + (k + 1) = i + 1 + k by omega], hc⟩
    · rintro ⟨_ | k, q, rfl, hc⟩
      · exact .inl ⟨q, by simp, hc⟩
      · exact .inr ⟨k, q, by rw [show i + (k + 1) = i + 1 + k by omega], hc⟩

end

mutual

/-- The walks reach no machine twice. -/
lemma nodup_printOrder (path : List ℕ) :
    ∀ m : Machine, ((m.printOrder path).map Prod.fst).Nodup
  | .mk info ms => by
    rw [Machine.printOrder, List.map_cons, List.nodup_cons]
    refine ⟨fun hmem => ?_, nodup_printOrderList path ms 0⟩
    obtain ⟨⟨p, c⟩, hp, hpath⟩ := List.mem_map.mp hmem
    obtain ⟨k, q, rfl, -⟩ := (mem_printOrderList_iff path ms 0 p c).mp hp
    simp at hpath

/-- The same for a list of sub-machines. -/
lemma nodup_printOrderList (path : List ℕ) :
    ∀ (ms : List Machine) (i : ℕ), ((printOrderList path i ms).map Prod.fst).Nodup
  | [], _ => by simp [printOrderList]
  | m :: ms, i => by
    rw [printOrderList, List.map_append]
    refine List.nodup_append.mpr ⟨nodup_printOrder (path ++ [i]) m,
      nodup_printOrderList path ms (i + 1), fun p hp p' hp' hpp => ?_⟩
    obtain ⟨⟨p, c⟩, hmem, rfl⟩ := List.mem_map.mp hp
    obtain ⟨⟨p', c'⟩, hmem', rfl⟩ := List.mem_map.mp hp'
    obtain ⟨q, rfl, -⟩ := (mem_printOrder_iff _ _ _ _).mp hmem
    obtain ⟨k, q', rfl, -⟩ := (mem_printOrderList_iff _ _ _ _ _).mp hmem'
    -- the first is below the `i`-th sub-machine, the second below a later one
    have hi : i = i + 1 + k := by simpa using congrArg (fun l => l[path.length]?) hpp
    omega

end

/-- What the machines of a tree have, `n` of it each, is listed once. -/
lemma count_flatMap_printOrder (n : Machine → ℕ) {top m : Machine} {path : List ℕ}
    (hm : top.sub? path = some m) {i : ℕ} (hi : i < n m) :
    ((top.printOrder []).flatMap fun p => (List.range (n p.2)).map (p.1, ·)).count (path, i) = 1 := by
  refine List.count_eq_one_of_mem ?_ ?_
  · refine List.nodup_flatMap.mpr ⟨fun p _ => ?_, ?_⟩
    · exact List.nodup_range.map fun a b hab => (Prod.mk.inj hab).2
    · refine (List.pairwise_map.mp (nodup_printOrder [] top)).imp fun {p p'} hne => ?_
      rw [Function.onFun, List.disjoint_left]
      intro x hx hx'
      obtain ⟨a, -, rfl⟩ := List.mem_map.mp hx
      obtain ⟨b, -, hb⟩ := List.mem_map.mp hx'
      exact hne (Prod.mk.inj hb).1.symm
  · refine List.mem_flatMap.mpr
      ⟨(path, m), (mem_printOrder_iff [] top path m).mpr ⟨path, rfl, hm⟩, ?_⟩
    exact List.mem_map.mpr ⟨i, List.mem_range.mpr hi, rfl⟩

/-- The numbers are those of the places. -/
lemma zipIdx_writeCEventXRef (top : Machine) :
    ((writeCEventXRef top).map Prod.fst).zipIdx = writeCEventXRef top := by
  rw [writeCEventXRef, crossReference, List.zipIdx_map_fst]

/-- An event. -/
def isEvent (x : Enumerator) : Bool :=
  match x.label with
  | .event _ => true
  | _ => false

/-- The events of the cross-reference, machine by machine. -/
private lemma filter_isEvent_writeCEventXRef (top : Machine) :
    ((writeCEventXRef top).map Prod.fst).filter isEvent = ((top.printOrder []).flatMap fun p =>
      (List.range p.2.eventList.length).map (p.1, ·)).map fun x => ⟨x.1, .event x.2⟩ := by
  have hnames : ∀ (path : List ℕ) (n : ℕ), (eventNames path n).filter isEvent = eventNames path n :=
    fun path n => List.filter_eq_self.mpr fun x hx => by
      obtain ⟨k, -, rfl⟩ := List.mem_map.mp hx
      rfl
  have hmarker : ∀ (path : List ℕ) (l : Label) (xs : List Enumerator), isEvent ⟨path, l⟩ = false →
      (⟨path, l⟩ :: xs).filter isEvent = xs.filter isEvent :=
    fun path l xs h => List.filter_cons_of_neg (by simp [h])
  have htop : (topSlotNames top).filter isEvent = eventNames [] top.eventList.length := by
    rw [topSlotNames, List.filter_append, hnames]
    split_ifs
    · rw [hmarker _ _ _ rfl, List.filter_nil, List.append_nil]
    · rw [List.filter_nil, List.append_nil]
  have hbelow : ∀ ps : List (List ℕ × Machine), (ps.flatMap ownSlotNames).filter isEvent =
      ps.flatMap fun p => eventNames p.1 p.2.eventList.length := by
    intro ps
    rw [List.filter_flatMap]
    congr 1
    funext p
    rw [ownSlotNames, List.filter_append, hnames, hmarker _ _ _ rfl, List.filter_nil,
      List.append_nil]
  have hclosing : (if top.machineList = [] then ([] : List Enumerator)
      else [⟨[], .numAllEvents⟩]).filter isEvent = [] := by
    split_ifs <;> rfl
  rw [writeCEventXRef, crossReference, List.zipIdx_map_fst, List.filter_append, htop,
    hmarker _ _ _ rfl, List.filter_append, hclosing, List.append_nil, iterateSubMachineList_eq,
    (machineListSlotNames_eq_flatMap [] top.machineList 0).1, hbelow, Machine.printOrder_eq,
    List.map_flatMap]
  simp [eventNames, Function.comp_def]

/-- **Every event is listed once.** -/
theorem count_event_writeCEventXRef {top m : Machine} {path : List ℕ}
    (hm : top.sub? path = some m) {i : ℕ} (hi : i < m.eventList.length) :
    ((writeCEventXRef top).map Prod.fst).count ⟨path, .event i⟩ = 1 := by
  have hinj : Function.Injective fun x : List ℕ × ℕ => (⟨x.1, .event x.2⟩ : Enumerator) := by
    intro x y hxy
    exact Prod.ext (by simpa using congrArg Enumerator.path hxy)
      (by simpa using congrArg Enumerator.label hxy)
  have hcount := count_flatMap_printOrder (fun m => m.eventList.length) hm hi
  have hevent : isEvent ⟨path, .event i⟩ = true := rfl
  rw [← List.count_filter hevent, filter_isEvent_writeCEventXRef]
  exact (List.count_map_of_injective _ _ hinj (path, i)).trans hcount

/-! ### Both cross-references -/

/-- **The event cross-references.** Without external designations both cross-references give
every event and `noEvent` of an accepted tree its number exactly when the numbers are
different and, of the machines below the top, all but the last one printed return events.

**Proof sketch.** The file numbers the events and `noEvent`s one after the other, and so does
the enumeration if it gives no number twice. The comment does the same as long as it skips no
`noEvent` that is followed by other entries. -/
theorem exists_crossReferences_right_iff {compactActionArray : Bool} (designated : String → ℤ)
    {top : Machine} (htop : top.Accepted) (hext : externalEventDesignationCount top = 0) :
    (∃ s, eventEnum compactActionArray designated top = some s ∧
        CrossReferenceRight s (addEventCrossReference top) ∧
        CrossReferenceRight s (writeCEventXRef top)) ↔
      top.FollowedResume ∧
        ∀ m ∈ (printOrderList [] 0 top.machineList).dropLast, m.2.actionsReturn = .events := by
  obtain ⟨v, hv⟩ := eventEnum_of_noExternal designated htop
    (assignExternalEventValues_eq_false htop hext)
  have hwf := eventEnum_wellFormed hv
  constructor
  · rintro ⟨s, hs, hcomment, hfile⟩
    obtain rfl := Option.some.inj (hv.symm.trans hs)
    have hres := (slotsDistinct_iff_followedResume htop hwf rfl).mp
      (slotsDistinct_of_writeCEventXRef htop hwf rfl hfile)
    refine ⟨hres, (printSubMachineListXref_prefix_iff htop).mp ?_⟩
    exact (crossReferenceRight_iff_prefix_slots htop hres hwf rfl
      fun y hy => isSlot_of_mem_printSubMachineListXref hy).mp hcomment
  · rintro ⟨hres, hevents⟩
    refine ⟨_, hv, ?_, ?_⟩
    · exact (crossReferenceRight_iff_prefix_slots htop hres hwf rfl
        fun y hy => isSlot_of_mem_printSubMachineListXref hy).mpr
          ((printSubMachineListXref_prefix_iff htop).mpr hevents)
    · rw [writeCEventXRef, iterateSubMachineList_eq]
      exact (crossReferenceRight_iff_prefix_slots htop hres hwf rfl
        fun y hy => isSlot_of_mem_machineListSlotNames hy).mpr List.prefix_rfl

/-- Two sub-machines whose actions, like those of the top-level machine, return nothing. -/
def voidMachine : Machine :=
  let info (name event state : String) : MachineInfo :=
    { name, eventList := [{ name := event }], stateList := [{ name := state }],
      actionsReturn := .void }
  .mk (info "top" "e" "s") [.mk (info "A" "ea" "sa") [], .mk (info "B" "eb" "sb") []]

/-- The comment gives the event of `B` the number three; the enumeration gives it four. -/
theorem not_crossReferences_right_voidMachine :
    ¬ ∀ top : Machine, top.Accepted → externalEventDesignationCount top = 0 →
      ∃ s, eventEnum false (fun _ => 0) top = some s ∧
        CrossReferenceRight s (addEventCrossReference top) ∧
        CrossReferenceRight s (writeCEventXRef top) := by
  intro h
  obtain ⟨s, hs, hcomment, -⟩ := h voidMachine
    (by simp [voidMachine, Machine.Accepted, Machine.AcceptedList]) (by decide)
  have hvalue : (eventEnum false (fun _ => 0) voidMachine).bind
      (·.valueOf ⟨[1], .event 0⟩) = some 4 := by decide
  rw [hs] at hvalue
  have hentry := hcomment ⟨[1], .event 0⟩ 3 (by decide) rfl
  rw [Option.bind_some, hentry] at hvalue
  revert hvalue
  decide

/-- Two sub-machines, the last of which returns nothing and has a sub-machine. -/
def lastVoidMachine : Machine :=
  plainMachine "top" "e" "s"
    [plainMachine "A" "ea" "sa" [],
      .mk { name := "B", eventList := [{ name := "eb" }], stateList := [{ name := "sb" }] }
        [.mk { name := "C", eventList := [{ name := "ec" }, { name := "ed" }],
               stateList := [{ name := "sc" }], actionsReturn := .void } []]]

/-- The first sub-machine has no sub-machines. -/
private lemma followedResume_lastVoidMachine : lastVoidMachine.FollowedResume := by
  simp only [lastVoidMachine, plainMachine, Machine.followedResume_iff, Machine.machineList,
    followedResumeList_cons, Machine.Resumes]
  simp [FollowedResumeList]

/-- The comment and the file are right, though the machine that is printed last returns nothing. -/
theorem exists_crossReferences_right_lastVoidMachine :
    ∃ s, eventEnum false (fun _ => 0) lastVoidMachine = some s ∧
      CrossReferenceRight s (addEventCrossReference lastVoidMachine) ∧
      CrossReferenceRight s (writeCEventXRef lastVoidMachine) :=
  (exists_crossReferences_right_iff (fun _ => 0)
    (by simp [lastVoidMachine, plainMachine, Machine.Accepted, Machine.AcceptedList])
    (by decide)).mpr ⟨followedResume_lastVoidMachine, by decide⟩

end FsmLang
