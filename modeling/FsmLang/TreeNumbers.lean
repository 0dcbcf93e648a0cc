import Mathlib.Data.List.Basic
import Mathlib.Tactic
import FsmLang.MachineTrees
import FsmLang.SubLoopProgress

set_option relaxedAutoImplicit false
set_option autoImplicit false

/-!
# Events and their machines

How the loops of a tree see the event enumeration: for each event the machine that declares it, and
what the tests of a machine's loop say about it. The tests are right in a tree without external
designations in which every machine below the top resumes.

## Main definitions

* `eventOwner` — the machine that declares the event with a given value.
* `TreeNumbers` — what the tests and the finders of all machines say about the events of the tree.

## Main results

* `eventOwner_eq_some_iff` — events with one value belong to one machine.
* `treeNumbers` — the tests are right.
-/

namespace FsmLang

open CSemantics

/-- An event of a machine. -/
def Label.isEvent : Label → Bool
  | .event _ => true
  | _ => false

/-- The machine that declares the event with the value `v`, by its path. -/
def eventOwner (s : EnumScope Enumerator) (v : ℤ) : Option (List ℕ) :=
  (s.bound.find? fun x => x.1.label.isEvent && x.2 = v).map (·.1.path)

/-- What the loops of a tree are told by the numbers of its events: `own` and `below` for the two
branches of a machine's loop, `before` for what a sub-machine hands back. -/
structure TreeNumbers (s : EnumScope Enumerator) {top : Machine} (B : top.Node → EventBounds) :
    Prop where
  own : ∀ (n : top.Node) v, eventOwner s v = some n.path → (B n).isOwn v = true
  lt_below : ∀ (n : top.Node) k q v, eventOwner s v = some (n.path ++ k :: q) → (B n).noEvent < v
  isBelow : ∀ (n : top.Node) k q v, n.path ≠ [] → eventOwner s v = some (n.path ++ k :: q) →
    (B n).isBelow v = true
  finds : ∀ (n : top.Node) k q v, eventOwner s v = some (n.path ++ k :: q) →
    findAndRunSubMachine n.machine (B n).subMachineArray v = [k]
  exists_child : ∀ (n : top.Node) k q v,
    eventOwner s v = some (n.path ++ k :: q) → ∃ c, n.child? k = some c
  firstEvent_le : ∀ n : top.Node, (B n).firstEvent ≤ (B n).noEvent
  lt_lastEvent : ∀ (n : top.Node) v, n.path ≠ [] → (B n).isOwn v = true →
    (B n).lastEvent.all (v < ·) = true
  noEvent : ∀ n : top.Node, eventOwner s (B n).noEvent = none
  before : ∀ (n : top.Node) k c q v, n.child? k = some c → eventOwner s v = some q →
    v < (B c).firstEvent → n.path <+: q ∨ v < (B n).firstEvent
  parentNoEvent : ∀ (n : top.Node) k c, n.child? k = some c →
    (B c).parentNoEvent = some (B n).noEvent

/-! ## Owners -/

/-- An owner declares an event with the value. -/
lemma exists_valueOf_of_eventOwner {s : EnumScope Enumerator} (hs : s.WellFormed) {v : ℤ}
    {p : List ℕ} (h : eventOwner s v = some p) : ∃ i, s.valueOf ⟨p, .event i⟩ = some v := by
  obtain ⟨⟨x, w⟩, hx, rfl⟩ := Option.map_eq_some_iff.mp h
  have hmem := List.mem_of_find?_eq_some hx
  have hprop := List.find?_some hx
  rw [Bool.and_eq_true, decide_eq_true_eq] at hprop
  obtain ⟨hlabel, rfl⟩ := hprop
  obtain ⟨path, label⟩ := x
  cases label <;> simp only [Label.isEvent, Bool.false_eq_true] at hlabel
  case event i => exact ⟨i, (EnumScope.valueOf_eq_some_iff hs).mpr hmem⟩

/-- **Owners.** Where events have different numbers, the owner of an event's value is the machine
that declares the event. -/
lemma eventOwner_eq_some_iff {s : EnumScope Enumerator} (hs : s.WellFormed)
    (hdistinct : SlotsDistinct s) {v : ℤ} {p : List ℕ} :
    eventOwner s v = some p ↔ ∃ i, s.valueOf ⟨p, .event i⟩ = some v := by
  constructor
  · exact exists_valueOf_of_eventOwner hs
  · rintro ⟨i, hi⟩
    cases ho : eventOwner s v with
    | none =>
      have hmem := (EnumScope.valueOf_eq_some_iff hs).mp hi
      have hnone := List.find?_eq_none.mp (Option.map_eq_none_iff.mp ho) _ hmem
      simp [Label.isEvent] at hnone
    | some q =>
      obtain ⟨j, hj⟩ := exists_valueOf_of_eventOwner hs ho
      have heq := hdistinct ⟨q, .event j⟩ ⟨p, .event i⟩ v rfl rfl hj hi
      exact congrArg some (congrArg Enumerator.path heq)

/-! ## The values of a tree without external designations -/

section Values

variable {compactActionArray : Bool} {designated : String → ℤ} {top : Machine}
  {s : EnumScope Enumerator}

/-- The events and the `noEvent` of the top-level machine, by their place in its list. -/
lemma exists_place_of_valueOf_top (htop : top.Accepted)
    (hext : assignExternalEventValues compactActionArray top = false)
    (hs : eventEnum compactActionArray designated top = some s) {l : Label}
    (hl : l.isSlot = true) {v : ℤ} (hv : s.valueOf ⟨[], l⟩ = some v) :
    ∃ i : ℕ, (topSlotNames top)[i]? = some ⟨[], l⟩ ∧ v = i := by
  obtain ⟨w, hw⟩ := eventEnum_of_noExternal designated htop hext
  have hwf := eventEnum_wellFormed hs
  obtain rfl := Option.some.inj (hw.symm.trans hs)
  rw [EnumScope.valueOf_eq_some_iff hwf, List.mem_append, List.mem_append] at hv
  rcases hv with (hv | hv) | hv
  · have hslot : ((⟨[], l⟩ : Enumerator), v) ∈ slots (topValues top) :=
      List.mem_filter.mpr ⟨hv, hl⟩
    rw [slots_topValues (top.accepted_iff.mp htop).1] at hslot
    obtain ⟨i, hi, rfl⟩ := (mem_numberFrom _ _ _ _).mp hslot
    exact ⟨i, hi, by simp⟩
  · obtain ⟨j, -, hj⟩ := prefix_of_mem_machineListValues [] 0 _ _ _ hv
    simp at hj
  · rw [List.mem_singleton] at hv
    obtain rfl : l = .numAllEvents := congrArg Enumerator.label (Prod.mk.inj hv).1
    cases hl

/-- Its events have their places as values. -/
lemma valueOf_top_event_lt (htop : top.Accepted)
    (hext : assignExternalEventValues compactActionArray top = false)
    (hs : eventEnum compactActionArray designated top = some s) {i : ℕ} {v : ℤ}
    (hv : s.valueOf ⟨[], .event i⟩ = some v) : v = i ∧ i < top.eventList.length := by
  obtain ⟨j, hj, rfl⟩ := exists_place_of_valueOf_top htop hext hs rfl hv
  have hlen : (eventNames [] top.eventList.length).length = top.eventList.length := by
    simp [eventNames]
  rcases Nat.lt_or_ge j top.eventList.length with hlt | hge
  · rw [topSlotNames, List.getElem?_append_left (by omega)] at hj
    obtain rfl : j = i := by simpa [eventNames, hlt] using hj
    exact ⟨rfl, hlt⟩
  · rw [topSlotNames, List.getElem?_append_right (by omega)] at hj
    have hmem := List.mem_of_getElem? hj
    split_ifs at hmem <;> simp at hmem

/-- Its `noEvent` comes right after them. -/
lemma valueOf_top_noEvent (htop : top.Accepted)
    (hext : assignExternalEventValues compactActionArray top = false)
    (hs : eventEnum compactActionArray designated top = some s) {v : ℤ}
    (hv : s.valueOf ⟨[], .noEvent⟩ = some v) : v = top.eventList.length := by
  obtain ⟨j, hj, rfl⟩ := exists_place_of_valueOf_top htop hext hs rfl hv
  have hlen : (eventNames [] top.eventList.length).length = top.eventList.length := by
    simp [eventNames]
  rcases Nat.lt_or_ge j top.eventList.length with hlt | hge
  · rw [topSlotNames, List.getElem?_append_left (by omega)] at hj
    have hmem := List.mem_of_getElem? hj
    simp [eventNames] at hmem
  · rw [topSlotNames, List.getElem?_append_right (by omega), hlen] at hj
    split_ifs at hj
    · have := (List.getElem?_eq_some_iff.mp hj).1
      simp only [List.length_singleton] at this
      omega
    · simp at hj

/-- They count from zero. -/
lemma valueOf_top_firstEvent (htop : top.Accepted)
    (hext : assignExternalEventValues compactActionArray top = false)
    (hs : eventEnum compactActionArray designated top = some s) :
    s.valueOf ⟨[], .firstEvent⟩ = some 0 := by
  obtain ⟨w, hw⟩ := eventEnum_of_noExternal designated htop hext
  have hwf := eventEnum_wellFormed hs
  obtain rfl := Option.some.inj (hw.symm.trans hs)
  rw [EnumScope.valueOf_eq_some_iff hwf]
  simp [topValues]

/-- The values of a machine's functions, by the enumerators. -/
lemma eventBounds_spec {path : List ℕ} {m : Machine} {B : EventBounds}
    (hB : eventBounds s path m = some B) :
    s.valueOf ⟨path, .firstEvent⟩ = some B.firstEvent ∧
      s.valueOf ⟨path, m.endLabel path⟩ = some B.noEvent ∧
      B.lastEvent = s.valueOf ⟨path, .lastEvent⟩ ∧
      defineSubMachineArray s path 0 m.machineList = some B.subMachineArray := by
  obtain ⟨first, hfirst, hrest⟩ := Option.bind_eq_some_iff.mp hB
  obtain ⟨noEvent, hno, hrest⟩ := Option.bind_eq_some_iff.mp hrest
  obtain ⟨array, harray, rfl⟩ := Option.map_eq_some_iff.mp hrest
  exact ⟨hfirst, hno, rfl, harray⟩

/-- With actions that return events the functions' `noEvent` is the enumerator `noEvent`. -/
lemma eventBounds_noEvent {path : List ℕ} {m : Machine} {B : EventBounds}
    (hB : eventBounds s path m = some B) (hret : m.actionsReturn = .events) :
    s.valueOf ⟨path, .noEvent⟩ = some B.noEvent := by
  have hno := (eventBounds_spec hB).2.1
  rwa [Machine.endLabel, if_neg (by simp [hret])] at hno

/-- A machine's events are those of its list. -/
lemma lt_length_of_valueOf (htop : top.Accepted)
    (hext : assignExternalEventValues compactActionArray top = false)
    (hs : eventEnum compactActionArray designated top = some s) {n : top.Node} {i : ℕ} {v : ℤ}
    (hv : s.valueOf ⟨n.path, .event i⟩ = some v) : i < n.machine.eventList.length := by
  by_cases hpath : n.path = []
  · have hsub := n.sub?_path
    rw [hpath] at hv hsub
    rw [← Option.some.inj hsub]
    exact (valueOf_top_event_lt htop hext hs hv).2
  · obtain ⟨b, hb⟩ := exists_numberedFrom htop hs hpath n.sub?_path
    rw [hb.valueOf, Machine.ownValue] at hv
    split_ifs at hv with hi
    exact hi

/-- The place of an enumerator below a machine of the tree. -/
private lemma exists_locate (htop : top.Accepted)
    (hs : eventEnum compactActionArray designated top = some s)
    {n : top.Node} {k : ℕ} {q : List ℕ} {l : Label} {v : ℤ}
    (hv : s.valueOf ⟨n.path ++ k :: q, l⟩ = some v) :
    ∃ b c d b', ValuesBelow s n.path n.machine.machineList b ∧
      n.machine.machineList[k]? = some d ∧
      d.locate (nextValueList (n.machine.machineList.take k) b) q = some (c, b') ∧
      c.ownValue b' l = some v := by
  obtain ⟨s', b, hs', hvals⟩ := exists_valueOf_eventEnum compactActionArray designated htop
  obtain rfl := Option.some.inj (hs'.symm.trans hs)
  have hbelow : ValuesBelow s' [] top.machineList b := fun k q l => hvals k q l
  obtain ⟨b', hb'⟩ := hbelow.sub? n.sub?_path
  rw [hb' k q l] at hv
  obtain ⟨⟨c, b''⟩, hc, hown⟩ := Option.bind_eq_some_iff.mp hv
  obtain ⟨d, hd, hdc⟩ := Option.bind_eq_some_iff.mp hc
  exact ⟨b', c, d, b'', hb', hd, hdc, hown⟩

end Values

/-! ## The tests are right -/

section Tests

variable {compactActionArray : Bool} {designated : String → ℤ} {top : Machine}
  {s : EnumScope Enumerator} (htop : top.Accepted) (hext : externalEventDesignationCount top = 0)
  (hs : eventEnum compactActionArray designated top = some s)
  (hres : ∀ n : top.Node, n.path ≠ [] → n.machine.Resumes) {B : top.Node → EventBounds}
  (hB : ∀ n : top.Node, eventBounds s n.path n.machine = some (B n))

include hext htop hs hres

/-- The events and `noEvent`s of the tree have different numbers. -/
lemma slotsDistinct_of_resumes : SlotsDistinct s := by
  have hassign : assignExternalEventValues compactActionArray top = false :=
    assignExternalEventValues_eq_false htop hext
  obtain ⟨v, hv⟩ := eventEnum_of_noExternal designated htop hassign
  obtain rfl := Option.some.inj (hv.symm.trans hs)
  refine (slotsDistinct_iff_followedResume htop (eventEnum_wellFormed hv) rfl).mpr ?_
  intro p P hP c hc
  obtain ⟨k, hk⟩ := List.getElem?_of_mem (List.dropLast_subset _ hc)
  have hsub : top.sub? (p ++ [k]) = some c := by
    rw [Machine.sub?_append, hP, Option.bind_some, Machine.sub?_cons, hk, Option.bind_some,
      Machine.sub?_nil]
  have hc' := hres ⟨p ++ [k], by rw [hsub]; rfl⟩ (by simp)
  rwa [Machine.Node.machine, Option.get_of_eq_some _ hsub] at hc'

/-- The owner of an event's value. -/
lemma eventOwner_iff {v : ℤ} {p : List ℕ} :
    eventOwner s v = some p ↔ ∃ i, s.valueOf ⟨p, .event i⟩ = some v :=
  eventOwner_eq_some_iff (eventEnum_wellFormed hs) (slotsDistinct_of_resumes htop hext hs hres)

omit hext htop hs in
/-- All machines below a machine of the tree resume. -/
lemma resumes_sub? {n : top.Node} {q : List ℕ} {c : Machine} (hc : n.machine.sub? q = some c)
    (hne : n.path ++ q ≠ []) : c.Resumes := by
  have hsub : top.sub? (n.path ++ q) = some c := by
    rw [Machine.sub?_append, n.sub?_path, Option.bind_some, hc]
  have hc' := hres ⟨n.path ++ q, by rw [hsub]; rfl⟩ hne
  rwa [Machine.Node.machine, Option.get_of_eq_some _ hsub] at hc'

omit hext in
/-- **The finder** runs the sub-machine whose subtree declares the event. -/
lemma findAndRunSubMachine_eq_singleton {n : top.Node} {array : List SubFsmIf}
    (harray : defineSubMachineArray s n.path 0 n.machine.machineList = some array) {k i : ℕ}
    {q : List ℕ} {v : ℤ} (hv : s.valueOf ⟨n.path ++ k :: q, .event i⟩ = some v) :
    findAndRunSubMachine n.machine array v = [k] ∧ ∃ c, n.child? k = some c := by
  obtain ⟨b, c, d, b', hbelow, hd, hc, hown⟩ := exists_locate htop hs hv
  have hi : i < c.eventList.length := by
    by_contra hi
    rw [Machine.ownValue, if_neg hi] at hown
    cases hown
  rw [Machine.ownValue, if_pos hi] at hown
  obtain rfl := Option.some.inj hown
  have hrange := event_lt_lastEventValue q d _ (by
    intro r e he
    refine resumes_sub? hres (n := n) (q := k :: r) ?_ (by simp)
    rw [Machine.sub?_cons, hd, Option.bind_some, he]) hc hi
  rw [defineSubMachineArray_eq hbelow] at harray
  obtain rfl := Option.some.inj harray
  have hone := findLoop_eq_singleton
    (n.machine.heterogeneousChildren || n.machine.actionsReturn = .events) n.machine.machineList
    k 0 b hd hrange.1 hrange.2
  refine ⟨by simpa [findAndRunSubMachine] using hone, Machine.Node.exists_child? (q := q) ?_⟩
  have hmap := locate_map_fst d (nextValueList (n.machine.machineList.take k) b) q
  rw [hc, Option.map_some] at hmap
  rw [Machine.sub?_append, n.sub?_path, Option.bind_some, Machine.sub?_cons, hd, Option.bind_some,
    ← hmap]
  rfl

include hB

omit hres in
/-- `noEvent` does not come before the first event. -/
private lemma firstEvent_le_noEvent {n : top.Node} (hret : n.machine.actionsReturn = .events) :
    (B n).firstEvent ≤ (B n).noEvent := by
  obtain ⟨hfirst, -, -, -⟩ := eventBounds_spec (hB n)
  have hno := eventBounds_noEvent (hB n) hret
  by_cases hpath : n.path = []
  · rw [hpath] at hfirst hno
    have hassign : assignExternalEventValues compactActionArray top = false :=
      assignExternalEventValues_eq_false htop hext
    have hlen := valueOf_top_noEvent htop hassign hs hno
    have hzero := Option.some.inj (hfirst.symm.trans (valueOf_top_firstEvent htop hassign hs))
    omega
  · obtain ⟨b, hb⟩ := exists_numberedFrom htop hs hpath n.sub?_path
    rw [hb.valueOf] at hfirst hno
    obtain rfl : b = (B n).firstEvent := Option.some.inj hfirst
    have hno : (B n).firstEvent + n.machine.eventList.length = (B n).noEvent := Option.some.inj hno
    omega

omit hext hres in
/-- A machine's own events come before its `lastEvent`. -/
private lemma lt_lastEvent_of_isOwn {n : top.Node} (hpath : n.path ≠ [])
    (hret : n.machine.actionsReturn = .events) {v : ℤ} (hv : (B n).isOwn v = true) :
    (B n).lastEvent.all (v < ·) = true := by
  obtain ⟨b, hb⟩ := exists_numberedFrom htop hs hpath n.sub?_path
  have hno := eventBounds_noEvent (hB n) hret
  rw [hb.valueOf] at hno
  have hno : b + n.machine.eventList.length = (B n).noEvent := Option.some.inj hno
  have hle := le_lastEventValue n.machine b
  rw [Machine.lastEventValue] at hle
  simp only [EventBounds.isOwn, Bool.and_eq_true, decide_eq_true_eq] at hv
  rw [(eventBounds_spec (hB n)).2.2.1, hb.valueOf, Machine.ownValue]
  split_ifs
  · rfl
  · simp only [Option.all_some, decide_eq_true_eq]
    omega

omit hres in
/-- **Own events** pass the test for them. -/
lemma isOwn_of_valueOf (hret : ∀ n : top.Node, n.machine.actionsReturn = .events) {n : top.Node}
    {i : ℕ} {v : ℤ} (hv : s.valueOf ⟨n.path, .event i⟩ = some v) : (B n).isOwn v = true := by
  obtain ⟨hfirst, -, -, -⟩ := eventBounds_spec (hB n)
  have hno := eventBounds_noEvent (hB n) (hret n)
  simp only [EventBounds.isOwn, Bool.and_eq_true, decide_eq_true_eq]
  by_cases hpath : n.path = []
  · rw [hpath] at hv hfirst hno
    have hassign : assignExternalEventValues compactActionArray top = false :=
      assignExternalEventValues_eq_false htop hext
    have hlt := valueOf_top_event_lt htop hassign hs hv
    have hlen := valueOf_top_noEvent htop hassign hs hno
    have hzero := Option.some.inj (hfirst.symm.trans (valueOf_top_firstEvent htop hassign hs))
    omega
  · obtain ⟨b, hb⟩ := exists_numberedFrom htop hs hpath n.sub?_path
    rw [hb.valueOf] at hv hfirst hno
    obtain rfl : b = (B n).firstEvent := Option.some.inj hfirst
    have hno : (B n).firstEvent + n.machine.eventList.length = (B n).noEvent := Option.some.inj hno
    rw [Machine.ownValue] at hv
    split_ifs at hv
    obtain rfl := Option.some.inj hv
    omega

omit hres in
/-- **Events below** a machine come after its `noEvent`. -/
lemma noEvent_lt_of_valueOf (hret : ∀ n : top.Node, n.machine.actionsReturn = .events)
    {n : top.Node} {k i : ℕ} {q : List ℕ} {v : ℤ}
    (hv : s.valueOf ⟨n.path ++ k :: q, .event i⟩ = some v) : (B n).noEvent < v := by
  have hno := eventBounds_noEvent (hB n) (hret n)
  by_cases hpath : n.path = []
  · rw [hpath] at hv hno
    have hassign : assignExternalEventValues compactActionArray top = false :=
      assignExternalEventValues_eq_false htop hext
    obtain ⟨hlt, hle⟩ := value_compare_topBase htop hassign hs
    exact (hlt _ _ (by simp) hno).trans_le (hle k q _ v hv)
  · obtain ⟨b, hb⟩ := exists_numberedFrom htop hs hpath n.sub?_path
    have hlt := hb.lt_event (by simp) hv
    rw [hb.valueOf] at hno
    have hno : b + n.machine.eventList.length = (B n).noEvent := Option.some.inj hno
    exact hno ▸ hlt

omit hext in
/-- They pass the test for the events of sub-machines. -/
private lemma isBelow_of_valueOf {n : top.Node} (hpath : n.path ≠ [])
    (hret : n.machine.actionsReturn = .events) {k i : ℕ} {q : List ℕ} {v : ℤ}
    (hv : s.valueOf ⟨n.path ++ k :: q, .event i⟩ = some v) : (B n).isBelow v = true := by
  obtain ⟨b, hb⟩ := exists_numberedFrom htop hs hpath n.sub?_path
  have hlt := hb.lt_event (by simp) hv
  have hno := eventBounds_noEvent (hB n) hret
  rw [hb.valueOf] at hno
  have hno : b + n.machine.eventList.length = (B n).noEvent := Option.some.inj hno
  rw [hb] at hv
  obtain ⟨⟨c, b'⟩, hc, hown⟩ := Option.bind_eq_some_iff.mp hv
  have hi : i < c.eventList.length := by
    by_contra hi
    rw [Machine.ownValue, if_neg hi] at hown
    cases hown
  rw [Machine.ownValue, if_pos hi] at hown
  obtain rfl := Option.some.inj hown
  have hrange := event_lt_lastEventValue (k :: q) n.machine b
    (fun p c hp => resumes_sub? hres hp (by simp [hpath])) hc hi
  have hsubs : n.machine.machineList ≠ [] := by
    intro hnil
    simp [Machine.locate, hnil] at hc
  have hlast : (B n).lastEvent = some (n.machine.lastEventValue b) := by
    rw [(eventBounds_spec (hB n)).2.2.1, hb.valueOf, Machine.ownValue, if_neg hsubs]
    rfl
  simp only [EventBounds.isBelow, hlast, Option.any_some, Bool.and_eq_true, decide_eq_true_eq]
  omega

/-- **What a sub-machine hands back** belongs to the machine or to one below it, or it comes
before the machine's own events. -/
lemma prefix_or_lt_of_lt_firstEvent {n c : top.Node} {k : ℕ} (hc : n.child? k = some c)
    {q : List ℕ} {i : ℕ} {v : ℤ} (hv : s.valueOf ⟨q, .event i⟩ = some v)
    (hlt : v < (B c).firstEvent) : n.path <+: q ∨ v < (B n).firstEvent := by
  by_cases hpath : n.path = []
  · left
    rw [hpath]
    exact List.nil_prefix
  · by_contra hcon
    rw [not_or, not_lt] at hcon
    obtain ⟨b, hb⟩ := exists_numberedFrom htop hs hpath n.sub?_path
    obtain ⟨hfirst, -, -, -⟩ := eventBounds_spec (hB n)
    rw [hb.valueOf] at hfirst
    obtain rfl : b = (B n).firstEvent := Option.some.inj hfirst
    -- the sub-machine's first event is in the range of the machine
    have hfirst : s.valueOf ⟨n.path ++ [k], .firstEvent⟩ = some (B c).firstEvent := by
      rw [← Machine.Node.path_of_child? hc]
      exact (eventBounds_spec (hB c)).1
    rw [hb] at hfirst
    obtain ⟨⟨d, b'⟩, hd, hown⟩ := Option.bind_eq_some_iff.mp hfirst
    obtain rfl : b' = (B c).firstEvent := Option.some.inj hown
    have hdc := locate_map_fst n.machine (B n).firstEvent [k]
    rw [hd, Option.map_some, Machine.sub?_cons, Machine.Node.machineList_of_child? hc,
      Option.bind_some, Machine.sub?_nil] at hdc
    obtain rfl := Option.some.inj hdc
    have hevents : 0 < c.machine.eventList.length :=
      List.length_pos_of_ne_nil (Machine.accepted_iff _ |>.mp (htop.sub? c.sub?_path)).1
    have hrange := event_lt_lastEventValue [k] n.machine _
      (fun p c hp => resumes_sub? hres hp (by simp [hpath])) hd hevents
    obtain ⟨r, l, hl, hval⟩ := hb.belongsTo hcon.2 (by omega)
    have heq := slotsDistinct_of_resumes htop hext hs hres ⟨q, .event i⟩ ⟨n.path ++ r, l⟩ v rfl hl
      hv hval
    refine hcon.1 ?_
    rw [show q = n.path ++ r from congrArg Enumerator.path heq]
    exact List.prefix_append n.path r

/-- **The tests are right.** In an accepted tree without external designations, whose actions
return events and in which every machine below the top resumes, the tests and the finders tell the
events of the tree apart. -/
theorem treeNumbers (hret : ∀ n : top.Node, n.machine.actionsReturn = .events) :
    TreeNumbers s B where
  own := by
    intro n v ho
    obtain ⟨i, hi⟩ := (eventOwner_iff htop hext hs hres).mp ho
    exact isOwn_of_valueOf htop hext hs hB hret hi
  lt_below := by
    intro n k q v ho
    obtain ⟨i, hi⟩ := (eventOwner_iff htop hext hs hres).mp ho
    exact noEvent_lt_of_valueOf htop hext hs hB hret hi
  isBelow := by
    intro n k q v hpath ho
    obtain ⟨i, hi⟩ := (eventOwner_iff htop hext hs hres).mp ho
    exact isBelow_of_valueOf htop hs hres hB hpath (hret n) hi
  finds := by
    intro n k q v ho
    obtain ⟨i, hi⟩ := (eventOwner_iff htop hext hs hres).mp ho
    exact (findAndRunSubMachine_eq_singleton htop hs hres (eventBounds_spec (hB n)).2.2.2 hi).1
  exists_child := by
    intro n k q v ho
    obtain ⟨i, hi⟩ := (eventOwner_iff htop hext hs hres).mp ho
    exact (findAndRunSubMachine_eq_singleton htop hs hres (eventBounds_spec (hB n)).2.2.2 hi).2
  firstEvent_le := fun n => firstEvent_le_noEvent htop hext hs hB (hret n)
  lt_lastEvent := fun n _ hpath hv => lt_lastEvent_of_isOwn htop hs hB hpath (hret n) hv
  noEvent := by
    intro n
    cases ho : eventOwner s (B n).noEvent with
    | none => rfl
    | some p =>
      obtain ⟨i, hi⟩ := (eventOwner_iff htop hext hs hres).mp ho
      have heq := slotsDistinct_of_resumes htop hext hs hres ⟨p, .event i⟩ ⟨n.path, .noEvent⟩ _
        rfl rfl hi (eventBounds_noEvent (hB n) (hret n))
      exact absurd (congrArg Enumerator.label heq) (by simp)
  before := by
    intro n k c q v hc ho hlt
    obtain ⟨i, hi⟩ := (eventOwner_iff htop hext hs hres).mp ho
    exact prefix_or_lt_of_lt_firstEvent htop hext hs hres hB hc hi hlt
  parentNoEvent := by
    intro n k c hc
    have hpath := Machine.Node.path_of_child? hc
    rw [eventBounds_parentNoEvent (hB c) (by simp [hpath]), hpath, List.dropLast_concat,
      eventBounds_noEvent (hB n) (hret n)]

end Tests

end FsmLang
