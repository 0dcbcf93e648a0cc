import Mathlib.Data.List.Nodup
import Mathlib.Tactic
import FsmLang.EventEnum

set_option relaxedAutoImplicit false
set_option autoImplicit false

/-!
# Which enumerators share a number

Every event of the tree, and the `noEvent` of every machine that has one, is meant to have a
number of its own in the event enumeration. After the sub-machines of a machine `M` the
enumeration counts on from the `noEvent` of the *last* of them. When that last sub-machine has
sub-machines itself, their events come after that `noEvent`, and whatever is printed after `M`
takes their numbers again.

## Main definitions

* `SlotsDistinct` — the events and `noEvent`s of an enumeration have different values.
* `Machine.Resumes` — the last sub-machine, if any, has no sub-machines, so that the
  enumeration goes on with a fresh number after the machine.
* `Machine.FollowedResume` — every machine with a later sibling resumes.

## Main results

* `slots_subMachineValues` — under `FollowedResume` the events and `noEvent`s are numbered
  one after the other.
* `not_nodup_slots_subMachineValues` — and otherwise two of them share a number.
* `slotsDistinct_iff_followedResume` — both for the whole enumeration.
-/

namespace FsmLang

open CSemantics

/-- The events and the `noEvent`s of an enumeration have pairwise different values, so that
two enumerators with one value are never both among them: one of the two is a `firstEvent`, a
`lastEvent` or one of the counts `numEvents` and `numAllEvents`. -/
def SlotsDistinct (s : EnumScope Enumerator) : Prop :=
  ∀ x y v, x.label.isSlot → y.label.isSlot → s.valueOf x = some v → s.valueOf y = some v → x = y

/-- The last sub-machine, if there is one, has no sub-machines. -/
def Machine.Resumes (m : Machine) : Prop :=
  ∀ l ∈ m.machineList.getLast?, l.machineList = []

/-- Every machine of the tree that has a later sibling resumes. -/
def Machine.FollowedResume (m : Machine) : Prop :=
  ∀ p P, m.sub? p = some P → ∀ c ∈ P.machineList.dropLast, c.Resumes

/-- The same for the machines of a list and all below them. -/
def FollowedResumeList (ms : List Machine) : Prop :=
  (∀ c ∈ ms.dropLast, c.Resumes) ∧ ∀ c ∈ ms, c.FollowedResume

/-- `FollowedResume`, one level at a time. -/
lemma Machine.followedResume_iff (m : Machine) :
    m.FollowedResume ↔ FollowedResumeList m.machineList := by
  constructor
  · intro h
    refine ⟨h [] m rfl, ?_⟩
    intro c hc p P hp
    obtain ⟨k, hk⟩ := List.getElem?_of_mem hc
    exact h (k :: p) P (by rw [Machine.sub?_cons, hk, Option.bind_some, hp])
  · rintro ⟨hlast, hsubs⟩ p P hp
    cases p with
    | nil =>
      obtain rfl := Option.some.inj hp
      exact hlast
    | cons k p =>
      obtain ⟨c, hc, hcp⟩ := Option.bind_eq_some_iff.mp hp
      exact hsubs c (List.mem_of_getElem? hc) p P hcp

/-- `FollowedResumeList`, one machine at a time. -/
lemma followedResumeList_cons (m : Machine) (ms : List Machine) :
    FollowedResumeList (m :: ms) ↔
      (ms ≠ [] → m.Resumes) ∧ m.FollowedResume ∧ FollowedResumeList ms := by
  cases ms with
  | nil => simp [FollowedResumeList]
  | cons m' ms =>
    simp only [FollowedResumeList, List.dropLast_cons_cons, List.mem_cons, forall_eq_or_imp]
    simp only [ne_eq, reduceCtorEq, not_false_eq_true, true_implies]
    tauto

/-- The last of several machines resumes when the last of the rest does. -/
lemma getLast?_cons_of_ne_nil {m : Machine} {ms : List Machine} (h : ms ≠ []) :
    (m :: ms).getLast? = ms.getLast? := by
  obtain ⟨c, cs, rfl⟩ := List.exists_cons_of_ne_nil h
  rfl

/-! ## The enumerators with a number of their own -/

/-- The events and `noEvent`s among enumerators with their values. -/
def slots (l : List (Enumerator × ℤ)) : List (Enumerator × ℤ) := l.filter (·.1.label.isSlot)

/-- No enumerators have no slots. -/
@[simp] lemma slots_nil : slots [] = [] := rfl

/-- The slots of enumerators behind others. -/
@[simp] lemma slots_append (l l' : List (Enumerator × ℤ)) :
    slots (l ++ l') = slots l ++ slots l' := List.filter_append _ _

mutual

/-- The events and the `noEvent` of a sub-machine and of all below it, in the order in which
they are printed. -/
def Machine.slotNames (path : List ℕ) : Machine → List Enumerator
  | .mk info ms =>
    eventNames path info.eventList.length ++ [⟨path, .noEvent⟩] ++ machineListSlotNames path 0 ms

/-- The same for the sub-machines, from the `i`-th on, of the machine at `path`. -/
def machineListSlotNames (path : List ℕ) (i : ℕ) : List Machine → List Enumerator
  | [] => []
  | m :: ms => m.slotNames (path ++ [i]) ++ machineListSlotNames path (i + 1) ms

end

/-- A machine's own events and `noEvent` are numbered one after the other. -/
lemma slots_ownValues (path : List ℕ) (n : ℕ) (b : ℤ) :
    slots (ownValues path n b) = numberFrom b (eventNames path n ++ [⟨path, .noEvent⟩]) := by
  have hlen : (eventNames path n).length = n := by simp [eventNames]
  have hall : slots (numberFrom b (eventNames path n)) = numberFrom b (eventNames path n) := by
    apply List.filter_eq_self.mpr
    intro x hx
    have hmem := List.mem_map_of_mem (f := Prod.fst) hx
    rw [numberFrom_map_fst] at hmem
    obtain ⟨i, -, hi⟩ := List.mem_map.mp hmem
    rw [← hi]
    rfl
  rw [numberFrom_append, hlen, ownValues, slots, List.filter_cons_of_neg (by simp [Label.isSlot]),
    List.filter_append]
  change slots _ ++ _ = _
  rw [hall]
  rfl

/-! ## Consecutive numbers -/

mutual

/-- The number after a machine that resumes is the first one no event below it has. -/
lemma nextValue_of_resumes (path : List ℕ) :
    ∀ (m : Machine) (b : ℤ), m.FollowedResume → m.Resumes →
      m.nextValue b = b + (m.slotNames path).length
  | .mk info ms, b, hm, hres => by
    have hlist := lastNoEvent_of_followedResumeList path ms 0
      (b + info.eventList.length) (b + info.eventList.length + 1)
      ((Machine.followedResume_iff _).mp hm) hres
    simp only [Machine.nextValue, Machine.slotNames, List.length_append, eventNames,
      List.length_map, List.length_range, List.length_singleton]
    push_cast
    by_cases hms : ms = []
    · subst hms
      simp [lastNoEvent, machineListSlotNames]
      omega
    · rw [hlist hms]
      omega

/-- The `noEvent` of the last of several machines is the last number given to them, when that
machine has no sub-machines. -/
lemma lastNoEvent_of_followedResumeList (path : List ℕ) :
    ∀ (ms : List Machine) (i : ℕ) (v b : ℤ), FollowedResumeList ms →
      (∀ l ∈ ms.getLast?, l.machineList = []) → ms ≠ [] →
      lastNoEvent v ms b = b + (machineListSlotNames path i ms).length - 1
  | [], _, _, _, _, _, h => absurd rfl h
  | m :: ms, i, v, b, hms, hlast, _ => by
    obtain ⟨hres, hm, hrest⟩ := (followedResumeList_cons m ms).mp hms
    rw [lastNoEvent, machineListSlotNames, List.length_append]
    by_cases hnil : ms = []
    · subst hnil
      have hleaf : m.machineList = [] := hlast m (by simp)
      cases m with
      | mk info cs =>
        obtain rfl : cs = [] := hleaf
        simp [lastNoEvent, machineListSlotNames, Machine.slotNames, eventNames]
        omega
    · rw [getLast?_cons_of_ne_nil hnil] at hlast
      rw [lastNoEvent_of_followedResumeList path ms (i + 1) _ _ hrest hlast hnil,
        nextValue_of_resumes (path ++ [i]) m b hm (hres hnil)]
      push_cast
      omega

end

mutual

/-- **Consecutive numbers below a machine.** When every machine with a later sibling resumes,
the events and `noEvent`s of a sub-machine and of all below it are numbered one after the
other, in the order in which they are printed. -/
theorem slots_subMachineValues (path : List ℕ) :
    ∀ (m : Machine) (b : ℤ), m.FollowedResume →
      slots (subMachineValues path b m) = numberFrom b (m.slotNames path)
  | .mk info ms, b, hm => by
    have hlist := slots_machineListValues path ms 0 (b + info.eventList.length + 1)
      ((Machine.followedResume_iff _).mp hm)
    have hlen : ((eventNames path info.eventList.length ++
        [(⟨path, .noEvent⟩ : Enumerator)]).length : ℤ) = info.eventList.length + 1 := by
      simp [eventNames]
    have hlastEvent : slots (if ms = [] then [] else [((⟨path, .lastEvent⟩ : Enumerator),
        lastNoEvent (b + info.eventList.length) ms (b + info.eventList.length + 1))]) = [] := by
      split_ifs <;> rfl
    rw [subMachineValues, slots_append, slots_append, hlist, slots_ownValues, hlastEvent,
      List.append_nil, Machine.slotNames, numberFrom_append _ (_ ++ _), hlen, add_assoc]

/-- The same for a list of sub-machines. -/
theorem slots_machineListValues (path : List ℕ) :
    ∀ (ms : List Machine) (i : ℕ) (b : ℤ), FollowedResumeList ms →
      slots (machineListValues path i b ms) = numberFrom b (machineListSlotNames path i ms)
  | [], _, _, _ => rfl
  | m :: ms, i, b, hms => by
    obtain ⟨hres, hm, hrest⟩ := (followedResumeList_cons m ms).mp hms
    rw [machineListValues, slots_append, machineListSlotNames, numberFrom_append,
      slots_subMachineValues (path ++ [i]) m b hm]
    by_cases hnil : ms = []
    · subst hnil
      rfl
    · rw [slots_machineListValues path ms (i + 1) _ hrest,
        nextValue_of_resumes (path ++ [i]) m b hm (hres hnil)]

end

/-! ## Numbers given twice -/

/-- The first number given to a machine belongs to one of its events or to its `noEvent`. -/
lemma mem_slots_subMachineValues (path : List ℕ) (m : Machine) (b : ℤ) :
    b ∈ (slots (subMachineValues path b m)).map Prod.snd := by
  cases m with
  | mk info ms =>
    rw [subMachineValues, slots_append, slots_append, slots_ownValues, List.map_append,
      List.map_append]
    apply List.mem_append_left
    apply List.mem_append_left
    cases h : info.eventList.length with
    | zero => simp [eventNames, numberFrom]
    | succ k =>
      rw [eventNames_succ, List.cons_append, numberFrom]
      simp

/-- When the last of several machines has sub-machines, the number after its `noEvent` is
given to one of their events. -/
lemma lastNoEvent_succ_mem (path : List ℕ) :
    ∀ (ms : List Machine) (i : ℕ) (v b : ℤ) (l : Machine), ms.getLast? = some l →
      l.machineList ≠ [] →
      lastNoEvent v ms b + 1 ∈ (slots (machineListValues path i b ms)).map Prod.snd
  | [], _, _, _, _, h, _ => by simp at h
  | [.mk info cs], i, v, b, l, h, hl => by
    obtain rfl : Machine.mk info cs = l := by simpa using h
    obtain ⟨c, cs, rfl⟩ := List.exists_cons_of_ne_nil hl
    have hc := mem_slots_subMachineValues (path ++ [i] ++ [0]) c (b + info.eventList.length + 1)
    simp only [machineListValues, subMachineValues, lastNoEvent, slots_append, List.map_append,
      Machine.eventList_mk, List.mem_append]
    tauto
  | m :: m' :: ms, i, v, b, l, h, hl => by
    rw [lastNoEvent, machineListValues, slots_append, List.map_append]
    apply List.mem_append_right
    exact lastNoEvent_succ_mem path (m' :: ms) (i + 1) _ _ l h hl

/-- The number after a machine that does not resume is already taken below it. -/
private lemma nextValue_mem (path : List ℕ) {m : Machine} (hm : ¬ m.Resumes) (b : ℤ) :
    m.nextValue b ∈ (slots (subMachineValues path b m)).map Prod.snd := by
  cases m with
  | mk info ms =>
    simp only [Machine.Resumes, Machine.machineList_mk, Option.mem_def, not_forall] at hm
    obtain ⟨l, hl, hsubs⟩ := hm
    rw [Machine.nextValue, subMachineValues, slots_append, slots_append, List.map_append,
      List.map_append]
    apply List.mem_append_left
    apply List.mem_append_right
    exact lastNoEvent_succ_mem path ms 0 _ _ l hl hsubs

mutual

/-- **Numbers given twice.** If some machine with a later sibling does not resume, two of the
events and `noEvent`s share a number. -/
theorem not_nodup_slots_subMachineValues (path : List ℕ) :
    ∀ (m : Machine) (b : ℤ), ¬ m.FollowedResume →
      ¬ ((slots (subMachineValues path b m)).map Prod.snd).Nodup
  | .mk info ms, b, hm => by
    rw [Machine.followedResume_iff] at hm
    have hlist := not_nodup_slots_machineListValues path ms 0 (b + info.eventList.length + 1) hm
    rw [subMachineValues, slots_append, slots_append, List.map_append, List.map_append]
    intro h
    exact hlist (List.nodup_append.mp (List.nodup_append.mp h).1).2.1

/-- The same for a list of sub-machines. -/
theorem not_nodup_slots_machineListValues (path : List ℕ) :
    ∀ (ms : List Machine) (i : ℕ) (b : ℤ), ¬ FollowedResumeList ms →
      ¬ ((slots (machineListValues path i b ms)).map Prod.snd).Nodup
  | [], _, _, hms => absurd ⟨by simp, by simp⟩ hms
  | m :: ms, i, b, hms => by
    rw [machineListValues, slots_append, List.map_append]
    intro h
    obtain ⟨hfirst, hrest, hdisj⟩ := List.nodup_append.mp h
    have hm : m.FollowedResume := by
      by_contra hm
      exact not_nodup_slots_subMachineValues (path ++ [i]) m b hm hfirst
    have hms' : FollowedResumeList ms := by
      by_contra hms'
      exact not_nodup_slots_machineListValues path ms (i + 1) _ hms' hrest
    -- the machine is followed by another and does not resume
    obtain ⟨hnil, hres⟩ : ms ≠ [] ∧ ¬ m.Resumes := by
      by_contra hcon
      refine hms ((followedResumeList_cons m ms).mpr ⟨?_, hm, hms'⟩)
      intro hnil
      by_contra hres
      exact hcon ⟨hnil, hres⟩
    obtain ⟨c, cs, rfl⟩ := List.exists_cons_of_ne_nil hnil
    refine hdisj _ (nextValue_mem (path ++ [i]) hres b) (m.nextValue b) ?_ rfl
    rw [machineListValues, slots_append, List.map_append]
    exact List.mem_append_left _ (mem_slots_subMachineValues _ c _)

end

/-! ## The whole enumeration -/

/-- The events of the top-level machine and its `noEvent`, if it has one. -/
def topSlotNames (top : Machine) : List Enumerator :=
  eventNames [] top.eventList.length ++
    if top.actionsReturn = .events then [⟨[], .noEvent⟩] else []

/-- The numbers below the top-level machine start after its events, its `noEvent` and
`numEvents`. -/
lemma topBase_eq (top : Machine) : topBase top = (topSlotNames top).length + 1 := by
  unfold topBase topSlotNames closingNames eventNames
  split_ifs <;> simp
  omega

/-- The top-level machine's events and its `noEvent` are numbered from zero. -/
lemma slots_topValues {top : Machine} (htop : top.eventList ≠ []) :
    slots (topValues top) = numberFrom 0 (topSlotNames top) := by
  obtain ⟨k, hk⟩ := Nat.exists_eq_succ_of_ne_zero (List.length_pos_of_ne_nil htop).ne'
  have hall : slots (numberFrom 1 (laterEventNames [] k)) =
      numberFrom 1 (laterEventNames [] k) := by
    apply List.filter_eq_self.mpr
    intro x hx
    have hmem := List.mem_map_of_mem (f := Prod.fst) hx
    rw [numberFrom_map_fst] at hmem
    obtain ⟨i, -, hi⟩ := List.mem_map.mp hmem
    rw [← hi]
    rfl
  rw [topValues, topSlotNames, hk, Nat.succ_eq_add_one, eventNames_succ, Nat.add_sub_cancel,
    numberFrom_append, List.cons_append, numberFrom, numberFrom_append, slots,
    List.filter_cons_of_pos (by simp [Label.isSlot]),
    List.filter_cons_of_neg (by simp [Label.isSlot]), List.filter_append]
  change _ :: (slots _ ++ _) = _
  rw [hall]
  unfold closingNames
  split_ifs <;> rfl

/-- Different values for the events and `noEvent`s, in terms of the list of enumerators. -/
private lemma slotsDistinct_iff_nodup {s : EnumScope Enumerator} (hs : s.WellFormed) :
    SlotsDistinct s ↔ ((slots s.bound).map Prod.snd).Nodup := by
  have hnodup : (slots s.bound).Nodup :=
    (List.Nodup.of_map _ hs).filter _
  rw [List.nodup_map_iff_inj_on hnodup]
  constructor
  · rintro h ⟨x, v⟩ hx ⟨y, w⟩ hy hvw
    obtain ⟨hx, hxs⟩ := List.mem_filter.mp hx
    obtain ⟨hy, hys⟩ := List.mem_filter.mp hy
    obtain rfl : v = w := hvw
    have hxy := h x y v hxs hys ((EnumScope.valueOf_eq_some_iff hs).mpr hx)
      ((EnumScope.valueOf_eq_some_iff hs).mpr hy)
    rw [hxy]
  · intro h x y v hxs hys hx hy
    have hx' : (x, v) ∈ slots s.bound :=
      List.mem_filter.mpr ⟨(EnumScope.valueOf_eq_some_iff hs).mp hx, hxs⟩
    have hy' : (y, v) ∈ slots s.bound :=
      List.mem_filter.mpr ⟨(EnumScope.valueOf_eq_some_iff hs).mp hy, hys⟩
    exact congrArg Prod.fst (h (x, v) hx' (y, v) hy' rfl)

/-- The values of a numbered list are different. -/
lemma nodup_map_snd_numberFrom {ι : Type*} (b : ℤ) (xs : List ι) :
    ((numberFrom b xs).map Prod.snd).Nodup := by
  induction xs generalizing b with
  | nil => simp [numberFrom]
  | cons x xs ih =>
    rw [numberFrom, List.map_cons, List.nodup_cons]
    refine ⟨?_, ih (b + 1)⟩
    intro h
    obtain ⟨⟨y, w⟩, hy, hw⟩ := List.mem_map.mp h
    obtain ⟨i, -, hi⟩ := (mem_numberFrom _ _ _ _).mp hy
    simp only at hw
    omega

/-- The events and `noEvent`s of the whole enumeration, when every machine with a later
sibling resumes. -/
lemma slots_eventEnum {top : Machine} (htop : top.Accepted) (hres : top.FollowedResume) (v : ℤ) :
    slots (topValues top ++ machineListValues [] 0 (topBase top) top.machineList ++
        [(⟨[], .numAllEvents⟩, v)]) =
      numberFrom 0 (topSlotNames top) ++
        numberFrom (topBase top) (machineListSlotNames [] 0 top.machineList) := by
  rw [slots_append, slots_append, slots_topValues (top.accepted_iff.mp htop).1,
    slots_machineListValues [] _ 0 _ ((Machine.followedResume_iff top).mp hres)]
  simp [slots, Label.isSlot]

/-- No external designation at all leaves the values to C. -/
lemma assignExternalEventValues_eq_false {compactActionArray : Bool} {top : Machine}
    (htop : top.Accepted) (hext : externalEventDesignationCount top = 0) :
    assignExternalEventValues compactActionArray top = false := by
  have hlen : top.eventList.length ≠ 0 := by simpa using (top.accepted_iff.mp htop).1
  simp [assignExternalEventValues, hext, hlen]

/-- The numbers are different exactly when every machine with a later sibling resumes. -/
lemma slotsDistinct_iff_followedResume {top : Machine} (htop : top.Accepted) {v : ℤ}
    {s : EnumScope Enumerator} (hs : s.WellFormed)
    (hbound : s.bound = topValues top ++
      machineListValues [] 0 (topBase top) top.machineList ++ [(⟨[], .numAllEvents⟩, v)]) :
    SlotsDistinct s ↔ top.FollowedResume := by
  rw [slotsDistinct_iff_nodup hs, hbound]
  constructor
  · intro hdistinct
    by_contra hres
    rw [Machine.followedResume_iff] at hres
    refine not_nodup_slots_machineListValues [] _ 0 (topBase top) hres ?_
    simp only [slots_append, List.map_append] at hdistinct
    exact (List.nodup_append.mp (List.nodup_append.mp hdistinct).1).2.1
  · intro hres
    rw [slots_eventEnum htop hres, List.map_append]
    apply List.nodup_append.mpr
    refine ⟨nodup_map_snd_numberFrom _ _, nodup_map_snd_numberFrom _ _, ?_⟩
    intro a ha b hb hab
    obtain ⟨⟨x, a⟩, hx, rfl⟩ := List.mem_map.mp ha
    obtain ⟨⟨y, b⟩, hy, rfl⟩ := List.mem_map.mp hb
    obtain ⟨i, hi, rfl⟩ := (mem_numberFrom _ _ _ _).mp hx
    obtain ⟨j, -, rfl⟩ := (mem_numberFrom _ _ _ _).mp hy
    -- the numbers of the top-level machine end before those of its sub-machines
    have hlt : i < (topSlotNames top).length := (List.getElem?_eq_some_iff.mp hi).1
    rw [topBase_eq] at hab
    simp only at hab
    omega

/-- **The numbers of the event enumeration.** Without external designations the events and
`noEvent`s of an accepted tree have pairwise different values exactly when no machine with a
later sibling has a last sub-machine that has sub-machines.

**Proof sketch.** Under the condition the numbers below the top are consecutive, and all
beyond those of the top-level machine. Otherwise the number after some machine is one already
given below it, and the sibling that follows starts with that number. -/
theorem eventEnum_slotsDistinct_iff {compactActionArray : Bool} (designated : String → ℤ)
    {top : Machine} (htop : top.Accepted) (hext : externalEventDesignationCount top = 0) :
    (∃ s, eventEnum compactActionArray designated top = some s ∧ SlotsDistinct s) ↔
      top.FollowedResume := by
  obtain ⟨v, hv⟩ := eventEnum_of_noExternal designated htop
    (assignExternalEventValues_eq_false htop hext)
  have hiff := slotsDistinct_iff_followedResume htop (eventEnum_wellFormed hv) rfl
  constructor
  · rintro ⟨s, hs, hdistinct⟩
    obtain rfl := Option.some.inj (hv.symm.trans hs)
    exact hiff.mp hdistinct
  · intro hres
    exact ⟨_, hv, hiff.mpr hres⟩

/-- A machine with one event and one state. -/
def plainMachine (name event state : String) (machineList : List Machine) : Machine :=
  .mk { name, eventList := [{ name := event }], stateList := [{ name := state }] } machineList

/-- A machine `M`, whose only sub-machine `C` has a sub-machine `G`, before a machine `N`. -/
def overlapMachine : Machine :=
  plainMachine "top" "e" "s"
    [plainMachine "M" "em" "sm" [plainMachine "C" "ec" "sc" [plainMachine "G" "eg" "sg" []]],
      plainMachine "N" "en" "sn" []]

/-- The event of `N` has the number of the event of `G`, seven. -/
theorem not_slotsDistinct_overlapMachine :
    ¬ ∀ top : Machine, top.Accepted → externalEventDesignationCount top = 0 →
      ∃ s, eventEnum false (fun _ => 0) top = some s ∧ SlotsDistinct s := by
  intro h
  obtain ⟨s, hs, hdistinct⟩ := h overlapMachine
    (by simp [overlapMachine, plainMachine, Machine.Accepted, Machine.AcceptedList]) (by decide)
  have hG : (eventEnum false (fun _ => 0) overlapMachine).map
      (·.valueOf ⟨[0, 0, 0], .event 0⟩) = some (some 7) := by decide
  have hN : (eventEnum false (fun _ => 0) overlapMachine).map
      (·.valueOf ⟨[1], .event 0⟩) = some (some 7) := by decide
  rw [hs] at hG hN
  have := hdistinct ⟨[0, 0, 0], .event 0⟩ ⟨[1], .event 0⟩ 7 rfl rfl (Option.some.inj hG)
    (Option.some.inj hN)
  simp at this

/-- The tree without the machine `G`. -/
def twoLevelsMachine : Machine :=
  plainMachine "top" "e" "s"
    [plainMachine "M" "em" "sm" [plainMachine "C" "ec" "sc" []], plainMachine "N" "en" "sn" []]

/-- The last sub-machine of `M` has no sub-machines. -/
private lemma followedResume_twoLevelsMachine : twoLevelsMachine.FollowedResume := by
  simp only [twoLevelsMachine, plainMachine, Machine.followedResume_iff, Machine.machineList,
    followedResumeList_cons, Machine.Resumes]
  simp [FollowedResumeList]

/-- Without the machine `G` the numbers are different. -/
theorem eventEnum_slotsDistinct_twoLevels :
    ∃ s, eventEnum false (fun _ => 0) twoLevelsMachine = some s ∧ SlotsDistinct s :=
  (eventEnum_slotsDistinct_iff (fun _ => 0)
    (by simp [twoLevelsMachine, plainMachine, Machine.Accepted, Machine.AcceptedList])
    (by decide)).mpr followedResume_twoLevelsMachine

end FsmLang
