import Mathlib.Data.List.Basic
import Mathlib.Tactic
import FsmLang.EventCrossReference
import FsmLang.QualifiedNames

set_option relaxedAutoImplicit false
set_option autoImplicit false

/-!
# The debug names of events

With debugging enabled the top-level machine's file has an array `EVENT_NAMES`, which the emitted
code indexes by the number of an event. The array has an entry for each event and each `noEvent`,
in the order in which the enumeration prints them, and one for `numEvents`.

An entry's place is the number of entries before it, while an enumerator's number is what C counts
to. The two agree until, after a machine with sub-machines, the enumeration takes up a number it
has given before (see `EventNumbers`); from there on the numbers *lag* behind the places.

## Main definitions

* `writeDebugInfo` — the array, with short or with long names.
* `Machine.retaken` — how many numbers given below a machine are given again after it.
* `debugLags` — the enumerators of the array's entries with their lags.

## Main results

* `slots_bound_eq` — an enumerator's number is its place less its lag.
* `debugNames_aligned_iff` — when every number leads to its enumerator's name.
* `debugNames_aligned_iff_followedResume` — the same where all names are different.
-/

namespace FsmLang

open CSemantics

/-! ## The array -/

/-- The text of one entry: the name itself, or with the machine's ancestry before it. -/
def printSubMachineComponentName (shortDbgNames : Bool) (top : Machine) (path : List ℕ)
    (name : String) : String :=
  if shortDbgNames then name else printNameWithAncestry name top path

mutual

/-- The entries of a sub-machine and of all below it. -/
def printSubMachineEventNames (shortDbgNames : Bool) (top : Machine) (path : List ℕ) :
    Machine → List String
  | .mk info ms =>
    info.eventList.map (fun e => printSubMachineComponentName shortDbgNames top path e.name) ++
      [printSubMachineComponentName shortDbgNames top path "noEvent"] ++
      printMachineListEventNames shortDbgNames top path 0 ms

/-- The iteration of `print_sub_machine_event_names` over the sub-machines, from the `i`-th on, of
the machine at `path`. -/
def printMachineListEventNames (shortDbgNames : Bool) (top : Machine) (path : List ℕ) (i : ℕ) :
    List Machine → List String
  | [] => []
  | m :: ms =>
    printSubMachineEventNames shortDbgNames top (path ++ [i]) m ++
      printMachineListEventNames shortDbgNames top path (i + 1) ms

end

/-- The array `EVENT_NAMES`, with short or with long names (`writeDebugInfoShort`,
`writeDebugInfoLong`). -/
def writeDebugInfo (shortDbgNames : Bool) (top : Machine) : List String :=
  top.eventList.map (fun e => printSubMachineComponentName shortDbgNames top [] e.name) ++
    (if top.actionsReturn = .events then
      [printSubMachineComponentName shortDbgNames top [] "noEvent"] else []) ++
    [printSubMachineComponentName shortDbgNames top [] "numEvents"] ++
    printMachineListEventNames shortDbgNames top [] 0 top.machineList

/-- The name of an enumerator, as the array should have it. -/
def debugName (shortDbgNames : Bool) (top : Machine) (x : Enumerator) : String :=
  printSubMachineComponentName shortDbgNames top x.path
    (((top.sub? x.path).map (·.labelText x.label)).getD "")

/-- Every number of an event or a `noEvent` leads to an entry of the array, and this is the name of
the enumerator. -/
def DebugNamesAligned (shortDbgNames : Bool) (s : EnumScope Enumerator) (top : Machine) : Prop :=
  ∀ x v, x.label.isSlot → s.valueOf x = some v →
    0 ≤ v ∧ (writeDebugInfo shortDbgNames top)[v.toNat]? = some (debugName shortDbgNames top x)

/-! ## Entries and lags -/

mutual

/-- How many of the numbers given below a machine the enumeration gives again after it: those of
the machines below the last sub-machine, and what the other sub-machines leave. -/
def Machine.retaken : Machine → ℕ
  | .mk _ ms => retakenAfter ms

/-- The same after the machines of a list. -/
def retakenAfter : List Machine → ℕ
  | [] => 0
  | [m] => (machineListSlotNames [] 0 m.machineList).length
  | m :: m' :: ms => m.retaken + retakenAfter (m' :: ms)

end

/-- The events and the `noEvent` of a sub-machine with `n` events. -/
def ownSlots (path : List ℕ) (n : ℕ) : List Enumerator :=
  eventNames path n ++ [⟨path, .noEvent⟩]

mutual

/-- The events and the `noEvent` of a sub-machine and of all below it, with their lags, when the
sub-machine's own is `lag`. -/
def Machine.laggedSlots (path : List ℕ) (lag : ℕ) : Machine → List (Enumerator × ℕ)
  | .mk info ms =>
    (ownSlots path info.eventList.length).map (fun x => (x, lag)) ++
      machineListLaggedSlots path 0 lag ms

/-- The same for the sub-machines, from the `i`-th on, of the machine at `path`. -/
def machineListLaggedSlots (path : List ℕ) (i : ℕ) (lag : ℕ) : List Machine → List (Enumerator × ℕ)
  | [] => []
  | m :: ms =>
    m.laggedSlots (path ++ [i]) lag ++ machineListLaggedSlots path (i + 1) (lag + m.retaken) ms

end

/-- The enumerators of the array's entries, with their lags. -/
def debugLags (top : Machine) : List (Enumerator × ℕ) :=
  (topSlotNames top).map (fun x => (x, 0)) ++ [(⟨[], .numEvents⟩, 0)] ++
    machineListLaggedSlots [] 0 0 top.machineList

/-- Entries with their numbers, from the place `p` on: an entry's number is its place less its
lag. -/
def numberLagged {ι : Type*} (p : ℤ) : List (ι × ℕ) → List (ι × ℤ)
  | [] => []
  | (x, lag) :: xs => (x, p - lag) :: numberLagged (p + 1) xs

/-- Numbers with lags behind others. -/
lemma numberLagged_append {ι : Type*} (p : ℤ) (xs ys : List (ι × ℕ)) :
    numberLagged p (xs ++ ys) = numberLagged p xs ++ numberLagged (p + xs.length) ys := by
  induction xs generalizing p with
  | nil => simp [numberLagged]
  | cons x xs ih =>
    rw [List.cons_append, numberLagged, numberLagged, ih, List.cons_append, List.length_cons,
      show p + 1 + (xs.length : ℤ) = p + ((xs.length + 1 : ℕ) : ℤ) by push_cast; omega]

/-- With one lag the numbers follow one another. -/
lemma numberLagged_map {ι : Type*} (p : ℤ) (lag : ℕ) (xs : List ι) :
    numberLagged p (xs.map fun x => (x, lag)) = numberFrom (p - lag) xs := by
  induction xs generalizing p with
  | nil => rfl
  | cons x xs ih =>
    rw [List.map_cons, numberLagged, numberFrom, ih, show p + 1 - (lag : ℤ) = p - lag + 1 by omega]

/-- An enumerator's number is its place less its lag. -/
private lemma mem_numberLagged {ι : Type*} {p : ℤ} {xs : List (ι × ℕ)} {x : ι} {v : ℤ} :
    (x, v) ∈ numberLagged p xs ↔ ∃ i lag : ℕ, xs[i]? = some (x, lag) ∧ v = p + i - lag := by
  induction xs generalizing p with
  | nil => simp [numberLagged]
  | cons y xs ih =>
    obtain ⟨y, lag⟩ := y
    rw [numberLagged, List.mem_cons, ih, Prod.mk.injEq]
    constructor
    · intro h
      rcases h with ⟨rfl, rfl⟩ | ⟨i, lag', hi, rfl⟩
      · exact ⟨0, lag, by simp, by simp⟩
      · exact ⟨i + 1, lag', by simpa using hi, by push_cast; omega⟩
    · rintro ⟨i, lag', hi, rfl⟩
      cases i with
      | zero =>
        obtain ⟨rfl, rfl⟩ : y = x ∧ lag = lag' := by simpa using hi
        exact .inl ⟨rfl, by simp⟩
      | succ i =>
        refine .inr ⟨i, lag', by simpa using hi, ?_⟩
        push_cast
        omega

/-! ## Numbers lag behind places -/

mutual

/-- The number of enumerators does not depend on the path. -/
private lemma length_slotNames (path path' : List ℕ) :
    ∀ m : Machine, (m.slotNames path).length = (m.slotNames path').length
  | .mk info ms => by
    simp [Machine.slotNames, eventNames, length_machineListSlotNames path path' 0 0 ms]

/-- The number of entries does not depend on the path. -/
lemma length_machineListSlotNames (path path' : List ℕ) (i i' : ℕ) :
    ∀ ms : List Machine, (machineListSlotNames path i ms).length =
      (machineListSlotNames path' i' ms).length
  | [] => rfl
  | m :: ms => by
    rw [machineListSlotNames, machineListSlotNames, List.length_append, List.length_append,
      length_slotNames (path ++ [i]) (path' ++ [i']) m,
      length_machineListSlotNames path path' (i + 1) (i' + 1) ms]

end

mutual

/-- The number after a machine is short of the next place by what is taken up again. -/
lemma nextValue_eq_retaken (path : List ℕ) :
    ∀ (m : Machine) (b : ℤ), m.nextValue b = b + (m.slotNames path).length - m.retaken
  | .mk info ms, b => by
    have hlist := lastNoEvent_eq_retaken path 0 ms (b + info.eventList.length)
      (b + info.eventList.length + 1) (by omega)
    rw [Machine.nextValue, hlist, Machine.retaken, Machine.slotNames]
    simp [eventNames]
    omega

/-- The same after the machines of a list; `v` is the last number before an empty list. -/
lemma lastNoEvent_eq_retaken (path : List ℕ) (i : ℕ) :
    ∀ (ms : List Machine) (v b : ℤ), (ms = [] → v + 1 = b) →
      lastNoEvent v ms b + 1 = b + (machineListSlotNames path i ms).length - retakenAfter ms
  | [], v, b, hv => by
    have := hv rfl
    simp only [lastNoEvent, machineListSlotNames, retakenAfter, List.length_nil]
    omega
  | [.mk info cs], v, b, _ => by
    have hlen := length_machineListSlotNames (path ++ [i]) [] 0 0 cs
    simp [lastNoEvent, machineListSlotNames, retakenAfter, Machine.slotNames, eventNames, hlen]
    omega
  | m :: m' :: ms, v, b, _ => by
    have hm := nextValue_eq_retaken (path ++ [i]) m b
    have hrest := lastNoEvent_eq_retaken path (i + 1) (m' :: ms) (b + m.eventList.length)
      (m.nextValue b) (by simp)
    have hsplit : machineListSlotNames path i (m :: m' :: ms) =
        m.slotNames (path ++ [i]) ++ machineListSlotNames path (i + 1) (m' :: ms) := rfl
    rw [lastNoEvent, hrest, hm, hsplit, List.length_append, retakenAfter]
    push_cast
    omega

end

mutual

/-- The entries with lags are the entries. -/
lemma laggedSlots_map_fst (path : List ℕ) (lag : ℕ) :
    ∀ m : Machine, (m.laggedSlots path lag).map Prod.fst = m.slotNames path
  | .mk info ms => by
    rw [Machine.laggedSlots, List.map_append, machineListLaggedSlots_map_fst path 0 lag ms,
      Machine.slotNames, ownSlots]
    simp [Function.comp_def]

/-- The enumerators with lags are the enumerators. -/
lemma machineListLaggedSlots_map_fst (path : List ℕ) (i lag : ℕ) :
    ∀ ms : List Machine,
      (machineListLaggedSlots path i lag ms).map Prod.fst = machineListSlotNames path i ms
  | [] => rfl
  | m :: ms => by
    rw [machineListLaggedSlots, List.map_append, laggedSlots_map_fst (path ++ [i]) lag m,
      machineListLaggedSlots_map_fst path (i + 1) _ ms, machineListSlotNames]

end

mutual

/-- The numbers of a sub-machine's events and `noEvent`, and of those below it, are their places
less their lags, when this is so for its first number. -/
private lemma slots_subMachineValues_eq (path : List ℕ) :
    ∀ (m : Machine) (b : ℤ) (lag : ℕ),
      slots (subMachineValues path b m) = numberLagged (b + lag) (m.laggedSlots path lag)
  | .mk info ms, b, lag => by
    have hlist := slots_machineListValues_eq path 0 ms (b + info.eventList.length + 1) lag
    have hlastEvent : slots (if ms = [] then [] else [((⟨path, .lastEvent⟩ : Enumerator),
        lastNoEvent (b + info.eventList.length) ms (b + info.eventList.length + 1))]) = [] := by
      split_ifs <;> rfl
    have hplace : b + (lag : ℤ) + ((ownSlots path info.eventList.length).map
        fun x => (x, lag)).length = b + info.eventList.length + 1 + lag := by
      simp [ownSlots, eventNames]
      omega
    rw [subMachineValues, slots_append, slots_append, hlist, slots_ownValues, hlastEvent,
      List.append_nil, Machine.laggedSlots, numberLagged_append, numberLagged_map, hplace,
      add_sub_cancel_right, ownSlots]

/-- The same for a list of sub-machines. -/
lemma slots_machineListValues_eq (path : List ℕ) (i : ℕ) :
    ∀ (ms : List Machine) (b : ℤ) (lag : ℕ),
      slots (machineListValues path i b ms) =
        numberLagged (b + lag) (machineListLaggedSlots path i lag ms)
  | [], _, _ => rfl
  | m :: ms, b, lag => by
    have hlen : (m.laggedSlots (path ++ [i]) lag).length = (m.slotNames (path ++ [i])).length := by
      rw [← laggedSlots_map_fst (path ++ [i]) lag m, List.length_map]
    rw [machineListValues, slots_append, machineListLaggedSlots, numberLagged_append,
      slots_subMachineValues_eq (path ++ [i]) m b lag,
      slots_machineListValues_eq path (i + 1) ms (m.nextValue b) (lag + m.retaken), hlen,
      nextValue_eq_retaken (path ++ [i]) m b]
    congr 2
    push_cast
    omega

end

/-- **Numbers and places.** Without external designations the number of each event and `noEvent`
of the tree is its place in the array less its lag. -/
theorem slots_bound_eq {top : Machine} (htop : top.Accepted) (v : ℤ) :
    slots (topValues top ++ machineListValues [] 0 (topBase top) top.machineList ++
        [(⟨[], .numAllEvents⟩, v)]) = slots (numberLagged 0 (debugLags top)) := by
  have hall : ∀ {l : List (Enumerator × ℤ)} {l' : List (Enumerator × ℤ)}, l = slots l' →
      slots l = l := by
    intro l l' h
    rw [h, slots, slots, List.filter_filter]
    simp
  have htopValues := slots_topValues (top.accepted_iff.mp htop).1
  have hsub := slots_machineListValues_eq [] 0 top.machineList (topBase top) 0
  rw [Nat.cast_zero, add_zero, topBase_eq] at hsub
  rw [debugLags, numberLagged_append, numberLagged_append, numberLagged_map, slots_append,
    slots_append, slots_append, slots_append, htopValues, topBase_eq, hsub]
  simp only [Nat.cast_zero, sub_zero, zero_add, List.length_append, List.length_map,
    List.length_singleton, Nat.cast_add, Nat.cast_one]
  rw [hall htopValues.symm, hall hsub.symm]
  simp [slots, numberLagged, Label.isSlot]

/-- The text of an entry of a sub-machine. -/
lemma debugName_mk {top m : Machine} {path : List ℕ} (hm : top.sub? path = some m)
    (shortDbgNames : Bool) (l : Label) :
    debugName shortDbgNames top ⟨path, l⟩ =
      printSubMachineComponentName shortDbgNames top path (m.labelText l) := by
  simp [debugName, hm]

/-- The debug names of a machine's events. -/
lemma map_debugName_eventNames {top m : Machine} {path : List ℕ} (hm : top.sub? path = some m)
    (shortDbgNames : Bool) :
    (eventNames path m.eventList.length).map (debugName shortDbgNames top) =
      m.eventList.map fun e => printSubMachineComponentName shortDbgNames top path e.name := by
  have h := congrArg (List.map (printSubMachineComponentName shortDbgNames top path))
    (map_labelText_eventNames m path)
  rw [List.map_map, List.map_map] at h
  rw [← Function.comp_def, ← h]
  apply List.map_congr_left
  intro x hx
  obtain ⟨i, -, rfl⟩ := List.mem_map.mp hx
  exact debugName_mk hm shortDbgNames _

mutual

/-- What is printed for a sub-machine and all below it are the names of the entries. -/
private lemma printSubMachineEventNames_eq {top : Machine} (shortDbgNames : Bool) (path : List ℕ) :
    ∀ m : Machine, top.sub? path = some m →
      printSubMachineEventNames shortDbgNames top path m =
        (m.slotNames path).map (debugName shortDbgNames top)
  | .mk info ms, hm => by
    have hevents := map_debugName_eventNames hm shortDbgNames
    rw [Machine.eventList_mk] at hevents
    rw [printSubMachineEventNames, Machine.slotNames, List.map_append, List.map_append, hevents,
      printMachineListEventNames_eq shortDbgNames path 0 ms hm rfl, List.map_singleton,
      debugName_mk hm]
    rfl

/-- The same for the sub-machines, from the `i`-th on, of the machine at `path`. -/
lemma printMachineListEventNames_eq {top P : Machine} (shortDbgNames : Bool) (path : List ℕ)
    (i : ℕ) :
    ∀ ms : List Machine, top.sub? path = some P → P.machineList.drop i = ms →
      printMachineListEventNames shortDbgNames top path i ms =
        (machineListSlotNames path i ms).map (debugName shortDbgNames top)
  | [], _, _ => rfl
  | m :: ms, hP, hdrop => by
    have hmi : P.machineList[i]? = some m := by
      rw [← List.head?_drop, hdrop]
      rfl
    have hm : top.sub? (path ++ [i]) = some m := by
      simp [Machine.sub?_append, hP, Machine.sub?_cons, hmi]
    rw [printMachineListEventNames, machineListSlotNames, List.map_append,
      printSubMachineEventNames_eq shortDbgNames (path ++ [i]) m hm,
      printMachineListEventNames_eq shortDbgNames path (i + 1) ms hP
        (by rw [← List.tail_drop, hdrop]; rfl)]

end

/-- **The array** holds the names of its entries. -/
theorem writeDebugInfo_eq (shortDbgNames : Bool) (top : Machine) :
    writeDebugInfo shortDbgNames top =
      (debugLags top).map fun x => debugName shortDbgNames top x.1 := by
  have htop : top.sub? [] = some top := rfl
  have hprint := printMachineListEventNames_eq shortDbgNames [] 0 top.machineList htop rfl
  have hsub := congrArg (List.map (debugName shortDbgNames top))
    (machineListLaggedSlots_map_fst [] 0 0 top.machineList)
  rw [List.map_map, ← hprint, Function.comp_def] at hsub
  rw [writeDebugInfo, debugLags, List.map_append, List.map_append, hsub,
    ← map_debugName_eventNames htop shortDbgNames, topSlotNames, List.map_map, List.map_append]
  split_ifs
  · simp [debugName_mk htop, Machine.labelText]
  · simp [debugName_mk htop, Machine.labelText]

/-! ## Alignment -/

mutual

/-- No more numbers are taken up again than are given. -/
lemma retaken_le (path : List ℕ) :
    ∀ m : Machine, m.retaken ≤ (m.slotNames path).length
  | .mk info ms => by
    have hlist := retakenAfter_le path 0 ms
    rw [Machine.retaken, Machine.slotNames, List.length_append]
    omega

/-- The same for a list of machines. -/
lemma retakenAfter_le (path : List ℕ) (i : ℕ) :
    ∀ ms : List Machine, retakenAfter ms ≤ (machineListSlotNames path i ms).length
  | [] => by simp [retakenAfter]
  | [.mk info cs] => by
    have hlen := length_machineListSlotNames (path ++ [i]) [] 0 0 cs
    simp only [retakenAfter, machineListSlotNames, Machine.slotNames, List.length_append,
      Machine.machineList_mk]
    omega
  | m :: m' :: ms => by
    have hm := retaken_le (path ++ [i]) m
    have hrest := retakenAfter_le path (i + 1) (m' :: ms)
    have hsplit : machineListSlotNames path i (m :: m' :: ms) =
        m.slotNames (path ++ [i]) ++ machineListSlotNames path (i + 1) (m' :: ms) := rfl
    rw [retakenAfter, hsplit, List.length_append]
    omega

end

mutual

/-- Within a sub-machine the lag grows by at most one an entry. -/
private lemma lag_le_of_mem_laggedSlots (path : List ℕ) (lag : ℕ) :
    ∀ (m : Machine) (k : ℕ) (x : Enumerator) (ℓ : ℕ),
      (m.laggedSlots path lag)[k]? = some (x, ℓ) → ℓ ≤ lag + k
  | .mk info ms, k, x, ℓ, h => by
    rw [Machine.laggedSlots, List.getElem?_append] at h
    split_ifs at h
    · obtain ⟨y, -, hy⟩ := List.mem_map.mp (List.mem_of_getElem? h)
      have := (Prod.mk.inj hy).2
      omega
    · have := lag_le_of_mem_machineListLaggedSlots path 0 lag ms _ x ℓ h
      omega

/-- The same for a list of sub-machines. -/
lemma lag_le_of_mem_machineListLaggedSlots (path : List ℕ) (i lag : ℕ) :
    ∀ (ms : List Machine) (k : ℕ) (x : Enumerator) (ℓ : ℕ),
      (machineListLaggedSlots path i lag ms)[k]? = some (x, ℓ) → ℓ ≤ lag + k
  | [], k, x, ℓ, h => by simp [machineListLaggedSlots] at h
  | m :: ms, k, x, ℓ, h => by
    have hret := retaken_le (path ++ [i]) m
    have hlen : (m.laggedSlots (path ++ [i]) lag).length = (m.slotNames (path ++ [i])).length := by
      rw [← laggedSlots_map_fst (path ++ [i]) lag m, List.length_map]
    rw [machineListLaggedSlots, List.getElem?_append] at h
    split_ifs at h
    · exact lag_le_of_mem_laggedSlots (path ++ [i]) lag m k x ℓ h
    · have := lag_le_of_mem_machineListLaggedSlots path (i + 1) (lag + m.retaken) ms _ x ℓ h
      omega

end

/-- No entry lags behind by more than its place. -/
lemma lag_le_place {top : Machine} {k ℓ : ℕ} {x : Enumerator}
    (h : (debugLags top)[k]? = some (x, ℓ)) : ℓ ≤ k := by
  rw [debugLags, List.getElem?_append] at h
  split_ifs at h
  · rcases List.mem_append.mp (List.mem_of_getElem? h) with hmem | hmem
    · obtain ⟨y, -, hy⟩ := List.mem_map.mp hmem
      have := (Prod.mk.inj hy).2
      omega
    · have := (Prod.mk.inj (List.mem_singleton.mp hmem)).2
      omega
  · have := lag_le_of_mem_machineListLaggedSlots [] 0 0 top.machineList _ x ℓ h
    omega

/-- Where the numbers lag, the names repeat: the entry that is `ℓ` places before one with the lag
`ℓ` has the same name. -/
def LagsRepeat (shortDbgNames : Bool) (top : Machine) : Prop :=
  ∀ k x ℓ, (debugLags top)[k]? = some (x, ℓ) → x.label.isSlot → ℓ ≠ 0 →
    ∃ y, (debugLags top)[k - ℓ]? = some y ∧
      debugName shortDbgNames top y.1 = debugName shortDbgNames top x

/-- The number of an event or a `noEvent` is its place less its lag. -/
lemma exists_valueOf_slot {compactActionArray : Bool} (designated : String → ℤ) {top : Machine}
    (htop : top.Accepted) (hext : externalEventDesignationCount top = 0) :
    ∃ s, eventEnum compactActionArray designated top = some s ∧
      ∀ (x : Enumerator) (w : ℤ), x.label.isSlot →
        (s.valueOf x = some w ↔ ∃ k ℓ : ℕ, (debugLags top)[k]? = some (x, ℓ) ∧ w = k - ℓ) := by
  have hassign : assignExternalEventValues compactActionArray top = false :=
    assignExternalEventValues_eq_false htop hext
  obtain ⟨v, hv⟩ := eventEnum_of_noExternal designated htop hassign
  refine ⟨_, hv, ?_⟩
  intro x w hx
  have hmem : ∀ l : List (Enumerator × ℤ), (x, w) ∈ l ↔ (x, w) ∈ slots l := by
    intro l
    simp [slots, hx]
  rw [EnumScope.valueOf_eq_some_iff (eventEnum_wellFormed hv), hmem, slots_bound_eq htop v, ← hmem,
    mem_numberLagged]
  simp

/-- The entry of the array at a place. -/
lemma getElem?_writeDebugInfo (shortDbgNames : Bool) (top : Machine) (k : ℕ) :
    (writeDebugInfo shortDbgNames top)[k]? =
      ((debugLags top)[k]?).map fun x => debugName shortDbgNames top x.1 := by
  rw [writeDebugInfo_eq, List.getElem?_map]

/-- **Debug names.** Without external designations, every number of an event or a `noEvent` of an
accepted tree leads to the enumerator's name in the debug array if and only if the names repeat
where the numbers lag.

**Proof sketch.** The array holds the names in the order of the places, and an enumerator's number
is its place less its lag. -/
theorem debugNames_aligned_iff {compactActionArray : Bool} (designated : String → ℤ)
    (shortDbgNames : Bool) {top : Machine} (htop : top.Accepted)
    (hext : externalEventDesignationCount top = 0) :
    (∃ s, eventEnum compactActionArray designated top = some s ∧
        DebugNamesAligned shortDbgNames s top) ↔ LagsRepeat shortDbgNames top := by
  obtain ⟨s', hs', hvalue⟩ := exists_valueOf_slot designated htop hext
  constructor
  · rintro ⟨s, hs, haligned⟩ k x ℓ hk hx -
    obtain rfl := Option.some.inj (hs'.symm.trans hs)
    obtain ⟨-, hentry⟩ := haligned x (k - ℓ) hx ((hvalue x _ hx).mpr ⟨k, ℓ, hk, rfl⟩)
    have hle := lag_le_place hk
    rw [show ((k : ℤ) - ℓ).toNat = k - ℓ by omega, getElem?_writeDebugInfo] at hentry
    exact Option.map_eq_some_iff.mp hentry
  · intro hrepeat
    refine ⟨s', hs', ?_⟩
    intro x w hx hw
    obtain ⟨k, ℓ, hk, rfl⟩ := (hvalue x w hx).mp hw
    have hle := lag_le_place hk
    refine ⟨by omega, ?_⟩
    rw [show ((k : ℤ) - ℓ).toNat = k - ℓ by omega, getElem?_writeDebugInfo]
    by_cases hlag : ℓ = 0
    · rw [hlag, Nat.sub_zero, hk]
      rfl
    · exact Option.map_eq_some_iff.mpr (hrepeat k x ℓ hk hx hlag)

/-- A machine `G` within `C` within `M`, before `N`: the number of `N`'s event leads to the name
of the event of `G`, with short and with long names. -/
theorem not_debugNamesAligned_overlapMachine :
    (¬ ∃ s, eventEnum false (fun _ => 0) overlapMachine = some s ∧
        DebugNamesAligned true s overlapMachine) ∧
      ¬ ∃ s, eventEnum false (fun _ => 0) overlapMachine = some s ∧
        DebugNamesAligned false s overlapMachine := by
  have hvalue : (eventEnum false (fun _ => 0) overlapMachine).map
      (·.valueOf ⟨[1], .event 0⟩) = some (some 7) := by decide
  have hshort : (writeDebugInfo true overlapMachine)[7]? = some "eg" := by decide
  have hlong : (writeDebugInfo false overlapMachine)[7]? = some "top_M_C_G_eg" := by decide
  constructor
  · rintro ⟨s, hs, haligned⟩
    rw [hs] at hvalue
    have := (haligned ⟨[1], .event 0⟩ 7 rfl (Option.some.inj hvalue)).2
    rw [show (7 : ℤ).toNat = 7 from rfl, hshort] at this
    exact absurd this (by decide)
  · rintro ⟨s, hs, haligned⟩
    rw [hs] at hvalue
    have := (haligned ⟨[1], .event 0⟩ 7 rfl (Option.some.inj hvalue)).2
    rw [show (7 : ℤ).toNat = 7 from rfl, hlong] at this
    exact absurd this (by decide)

/-- A machine `M` with a sub-machine `C`, before a machine `N`. -/
def alignedMachine : Machine :=
  plainMachine "top" "e" "s"
    [plainMachine "M" "em" "sm" [plainMachine "C" "ec" "sc" []], plainMachine "N" "en" "sn" []]

/-- Here every number leads to its name. -/
theorem debugNamesAligned_alignedMachine :
    ∃ s, eventEnum false (fun _ => 0) alignedMachine = some s ∧
      DebugNamesAligned false s alignedMachine := by
  have hacc : alignedMachine.Accepted := by
    simp [alignedMachine, plainMachine, Machine.Accepted, Machine.AcceptedList]
  have hlags : ∀ e ∈ debugLags alignedMachine, e.2 = 0 := by decide
  apply (debugNames_aligned_iff (fun _ => 0) false hacc (by decide)).mpr
  intro k x ℓ hk _ hlag
  exact absurd (hlags _ (List.mem_of_getElem? hk)) hlag

/-! ## Different names -/

mutual

/-- Where every machine with a later sibling resumes, all lags are one. -/
private lemma lag_eq_of_followedResume (path : List ℕ) (lag : ℕ) :
    ∀ m : Machine, m.FollowedResume → ∀ e ∈ m.laggedSlots path lag, e.2 = lag
  | .mk info ms, hm => by
    intro e he
    rw [Machine.laggedSlots] at he
    rcases List.mem_append.mp he with h | h
    · obtain ⟨y, -, rfl⟩ := List.mem_map.mp h
      rfl
    · exact lag_eq_of_followedResumeList path 0 lag ms ((Machine.followedResume_iff _).mp hm) e h

/-- The same for a list of sub-machines. -/
lemma lag_eq_of_followedResumeList (path : List ℕ) (i lag : ℕ) :
    ∀ ms : List Machine, FollowedResumeList ms →
      ∀ e ∈ machineListLaggedSlots path i lag ms, e.2 = lag
  | [], _ => by simp [machineListLaggedSlots]
  | m :: ms, hms => by
    obtain ⟨hres, hm, hrest⟩ := (followedResumeList_cons m ms).mp hms
    intro e he
    rw [machineListLaggedSlots] at he
    rcases List.mem_append.mp he with h | h
    · exact lag_eq_of_followedResume (path ++ [i]) lag m hm e h
    · by_cases hnil : ms = []
      · subst hnil
        simp [machineListLaggedSlots] at h
      · -- a machine that resumes leaves no number to be taken up again
        have hnext := nextValue_of_resumes [] m 0 hm (hres hnil)
        have hretaken := nextValue_eq_retaken [] m 0
        have hlag := lag_eq_of_followedResumeList path (i + 1) (lag + m.retaken) ms hrest e h
        omega

end

/-- **Debug names that are all different.** Where no two entries of the array have one name, every
number leads to its name if and only if no machine with a later sibling has a last sub-machine that
has sub-machines. -/
theorem debugNames_aligned_iff_followedResume {compactActionArray : Bool}
    (designated : String → ℤ) (shortDbgNames : Bool) {top : Machine} (htop : top.Accepted)
    (hext : externalEventDesignationCount top = 0)
    (hnames : (writeDebugInfo shortDbgNames top).Nodup) :
    (∃ s, eventEnum compactActionArray designated top = some s ∧
        DebugNamesAligned shortDbgNames s top) ↔ top.FollowedResume := by
  constructor
  · rintro ⟨s, hs, haligned⟩
    apply (eventEnum_slotsDistinct_iff designated htop hext).mp
    refine ⟨s, hs, ?_⟩
    intro x y v hx hy hxv hyv
    -- the two names stand at one place of the array
    have hname : debugName shortDbgNames top x = debugName shortDbgNames top y :=
      Option.some.inj ((haligned x v hx hxv).2.symm.trans (haligned y v hy hyv).2)
    obtain ⟨s', hs', hvalue⟩ := exists_valueOf_slot designated htop hext
    obtain rfl := Option.some.inj (hs'.symm.trans hs)
    obtain ⟨k, ℓ, hk, -⟩ := (hvalue x v hx).mp hxv
    obtain ⟨k', ℓ', hk', -⟩ := (hvalue y v hy).mp hyv
    have hkx := getElem?_writeDebugInfo shortDbgNames top k
    have hky := getElem?_writeDebugInfo shortDbgNames top k'
    rw [hk, Option.map_some] at hkx
    rw [hk', Option.map_some, ← hname] at hky
    obtain ⟨hlt, hkx'⟩ := List.getElem?_eq_some_iff.mp hkx
    obtain rfl := (List.getElem?_inj hlt hnames).mp (hkx.trans hky.symm)
    exact (Prod.mk.inj (Option.some.inj (hk.symm.trans hk'))).1
  · intro hres
    apply (debugNames_aligned_iff designated shortDbgNames htop hext).mpr
    intro k x ℓ hk hx hlag
    refine absurd ?_ hlag
    rcases List.mem_append.mp (List.mem_of_getElem? hk) with h | h
    · rcases List.mem_append.mp h with h | h
      · obtain ⟨y, -, hy⟩ := List.mem_map.mp h
        exact (Prod.mk.inj hy).2.symm
      · exact (Prod.mk.inj (List.mem_singleton.mp h)).2
    · exact lag_eq_of_followedResumeList [] 0 0 top.machineList
        ((Machine.followedResume_iff top).mp hres) _ h

end FsmLang
