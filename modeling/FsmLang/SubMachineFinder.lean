import Mathlib.Data.List.Basic
import Mathlib.Tactic
import FsmLang.EventNumbers

set_option relaxedAutoImplicit false
set_option autoImplicit false

/-!
# Finding the sub-machine of an event

A machine with sub-machines hands the events that are not its own to `findAndRunSubMachine`.
It walks over the table of the sub-machine interfaces and runs the machine whose range
`first_event <= e < last_event` holds the event. `first_event` is the machine's `firstEvent`;
`last_event` is its `noEvent` or, for a machine with sub-machines, its `lastEvent`, which the
event enumeration makes the `noEvent` of the last of them.

## Main definitions

* `defineSubMachineIF` — the interface of one sub-machine, with the values of the emitted
  enumerators.
* `findAndRunSubMachine` — the sub-machines the generated function runs for an event.

## Main results

* `findLoop_eq_singleton` — an event in the range of one sub-machine runs that one only.
* `event_lt_lastEventValue` — the range covers the events of the whole subtree when every
  machine of the subtree resumes.
* `exists_findersRunOwner_iff` — the finder is right on all events of all machines exactly when
  every machine below the top resumes.
-/

namespace FsmLang

open CSemantics

/-! ## The generated finder -/

/-- The bounds of a sub-machine interface. -/
structure SubFsmIf where
  firstEvent : ℤ
  lastEvent : ℤ
  deriving DecidableEq, Repr

/-- The interface `defineSubMachineIF` emits for the machine `m` at `path`. -/
def defineSubMachineIF (s : EnumScope Enumerator) (path : List ℕ) (m : Machine) :
    Option SubFsmIf :=
  (s.valueOf ⟨path, .firstEvent⟩).bind fun first =>
    (s.valueOf ⟨path, if m.machineList = [] then .noEvent else .lastEvent⟩).map fun last =>
      ⟨first, last⟩

/-- The interfaces of the sub-machines, from the `i`-th on, of the machine at `path`. -/
def defineSubMachineArray (s : EnumScope Enumerator) (path : List ℕ) (i : ℕ) :
    List Machine → Option (List SubFsmIf)
  | [] => some []
  | m :: ms => (defineSubMachineIF s (path ++ [i]) m).bind fun f =>
    (defineSubMachineArray s path (i + 1) ms).map fun fs => f :: fs

/-- Some sub-machine's actions return something else than the machine's own. -/
def Machine.heterogeneousChildren (m : Machine) : Bool :=
  m.machineList.any fun c => c.actionsReturn ≠ m.actionsReturn

/-- The loop over the sub-machine array, from the `i`-th entry on: the sub-machines it runs.
It ends at the first one when `stops` holds. -/
def findLoop (stops : Bool) (e : ℤ) (i : ℕ) : List SubFsmIf → List ℕ
  | [] => []
  | f :: fs =>
    if f.firstEvent ≤ e ∧ f.lastEvent > e then
      i :: if stops then [] else findLoop stops e (i + 1) fs
    else findLoop stops e (i + 1) fs

/-- The sub-machines that `findAndRunSubMachine`, as `defineSubMachineFinder` emits it for the
machine `m`, runs for the event `e`. The call of the sub-machine is followed by `break` when
the children are heterogeneous, and is a `return` when the machine's actions return events;
otherwise the loop goes on. -/
def findAndRunSubMachine (m : Machine) (array : List SubFsmIf) (e : ℤ) : List ℕ :=
  findLoop (m.heterogeneousChildren || m.actionsReturn = .events) e 0 array

/-! ## Ranges -/

/-- The `last_event` of a machine whose `firstEvent` is `b`. -/
def Machine.lastEventValue (m : Machine) (b : ℤ) : ℤ :=
  lastNoEvent (b + m.eventList.length) m.machineList (b + m.eventList.length + 1)

/-- The bounds of the interfaces of a list of machines printed from the value `b` on. -/
def subFsmIfs (b : ℤ) : List Machine → List SubFsmIf
  | [] => []
  | m :: ms => ⟨b, m.lastEventValue b⟩ :: subFsmIfs (m.nextValue b) ms

/-- The enumeration goes on right after `last_event`. -/
lemma nextValue_eq (m : Machine) (b : ℤ) : m.nextValue b = m.lastEventValue b + 1 := by
  cases m
  rfl

mutual

/-- A machine's own numbers come before what follows it. -/
lemma le_lastEventValue :
    ∀ (m : Machine) (b : ℤ), b + m.eventList.length ≤ m.lastEventValue b
  | .mk info ms, b => le_lastNoEvent ms _ _ (by simp)

/-- The `noEvent` of the last of several machines is not before the value they start from. -/
lemma le_lastNoEvent :
    ∀ (ms : List Machine) (v b : ℤ), v ≤ b → v ≤ lastNoEvent v ms b
  | [], _, _, _ => le_rfl
  | m :: ms, v, b, h => by
    have hm := le_lastEventValue m b
    have hms := le_lastNoEvent ms (b + m.eventList.length) (m.nextValue b)
      (by rw [nextValue_eq]; omega)
    rw [lastNoEvent]
    omega

end

/-- A machine takes at least one number. -/
lemma lt_nextValue (m : Machine) (b : ℤ) : b < m.nextValue b := by
  have := le_lastEventValue m b
  rw [nextValue_eq]
  omega

/-- A list of machines moves the numbers on. -/
lemma le_nextValueList (ms : List Machine) (b : ℤ) : b ≤ nextValueList ms b := by
  induction ms generalizing b with
  | nil => exact le_rfl
  | cons m ms ih => exact (lt_nextValue m b).le.trans (ih _)

/-- No machine of a list runs for an event before its numbers. -/
private lemma findLoop_of_lt (stops : Bool) {e b : ℤ} (h : e < b) (i : ℕ) (ms : List Machine) :
    findLoop stops e i (subFsmIfs b ms) = [] := by
  induction ms generalizing b i with
  | nil => rfl
  | cons m ms ih =>
    rw [subFsmIfs, findLoop, if_neg (by simp; omega)]
    exact ih (h.trans (lt_nextValue m b)) (i + 1)

/-- **One sub-machine runs.** An event in the range of the `k`-th of several machines runs
that one and no other. -/
lemma findLoop_eq_singleton (stops : Bool) {e : ℤ} (ms : List Machine) (k i : ℕ) (b : ℤ)
    {c : Machine} (hc : ms[k]? = some c) (hfirst : nextValueList (ms.take k) b ≤ e)
    (hlast : e < c.lastEventValue (nextValueList (ms.take k) b)) :
    findLoop stops e i (subFsmIfs b ms) = [i + k] := by
  induction ms generalizing k i b with
  | nil => simp at hc
  | cons m ms ih =>
    cases k with
    | zero =>
      obtain rfl : m = c := by simpa using hc
      simp only [List.take_zero, nextValueList] at hfirst hlast
      have hrest := findLoop_of_lt stops (e := e) (b := m.nextValue b)
        (by rw [nextValue_eq]; omega) (i + 1) ms
      rw [subFsmIfs, findLoop, if_pos ⟨hfirst, hlast⟩, hrest]
      simp
    | succ k =>
      simp only [List.take_succ_cons, nextValueList] at hfirst hlast
      have hle := (le_nextValueList (ms.take k) (m.nextValue b)).trans hfirst
      rw [nextValue_eq] at hle
      rw [subFsmIfs, findLoop, if_neg (by simp only [not_and, not_lt]; omega),
        ih k (i + 1) (m.nextValue b) (by simpa using hc) hfirst hlast]
      congr 1
      omega

/-- The bounds of the `k`-th of several machines. -/
private lemma subFsmIfs_getElem? (b : ℤ) (ms : List Machine) (k : ℕ) :
    (subFsmIfs b ms)[k]? = (ms[k]?).map fun c =>
      ⟨nextValueList (ms.take k) b, c.lastEventValue (nextValueList (ms.take k) b)⟩ := by
  induction ms generalizing k b with
  | nil => simp [subFsmIfs]
  | cons m ms ih =>
    cases k with
    | zero => rfl
    | succ k => simpa [subFsmIfs, nextValueList] using ih (m.nextValue b) k

/-- A sub-machine that runs has the event in the range of its interface. -/
private lemma mem_findLoop {stops : Bool} {e : ℤ} {i j : ℕ} {fs : List SubFsmIf}
    (h : j ∈ findLoop stops e i fs) :
    ∃ k f, fs[k]? = some f ∧ j = i + k ∧ f.firstEvent ≤ e ∧ e < f.lastEvent := by
  induction fs generalizing i with
  | nil => simp [findLoop] at h
  | cons f fs ih =>
    rw [findLoop] at h
    split_ifs at h with hf hstops
    · obtain rfl := List.mem_singleton.mp h
      exact ⟨0, f, by simp, by simp, hf⟩
    · rcases List.mem_cons.mp h with h | h
      · exact ⟨0, f, by simp, by simpa using h, hf⟩
      · obtain ⟨k, g, hg, hj, hrange⟩ := ih h
        exact ⟨k + 1, g, by simpa using hg, by omega, hrange⟩
    · obtain ⟨k, g, hg, hj, hrange⟩ := ih h
      exact ⟨k + 1, g, by simpa using hg, by omega, hrange⟩

/-! ## The range of a machine and its subtree -/

/-- When the last of several machines has no sub-machines, the ranges of all of them end
before the number after the last `noEvent`. -/
private lemma lastEventValue_le_lastNoEvent (ms : List Machine) (k : ℕ) (v b : ℤ) {c : Machine}
    (hc : ms[k]? = some c) (hlast : ∀ l ∈ ms.getLast?, l.machineList = []) :
    c.lastEventValue (nextValueList (ms.take k) b) ≤ lastNoEvent v ms b := by
  induction ms generalizing k v b with
  | nil => simp at hc
  | cons m ms ih =>
    by_cases hnil : ms = []
    · subst hnil
      cases k with
      | zero =>
        obtain rfl : m = c := by simpa using hc
        have hleaf : m.machineList = [] := hlast m (by simp)
        simp [Machine.lastEventValue, hleaf, lastNoEvent, nextValueList]
      | succ k => simp at hc
    · rw [getLast?_cons_of_ne_nil hnil] at hlast
      cases k with
      | zero =>
        obtain rfl : m = c := by simpa using hc
        obtain ⟨m', ms', rfl⟩ := List.exists_cons_of_ne_nil hnil
        -- the numbers of the following machines come after the range of this one
        have hnext := le_lastNoEvent ms' (m.nextValue b + m'.eventList.length)
          (m'.nextValue (m.nextValue b)) (by
            have := le_lastEventValue m' (m.nextValue b)
            rw [nextValue_eq m']
            omega)
        have hm := nextValue_eq m b
        simp only [List.take_zero, nextValueList, lastNoEvent]
        omega
      | succ k => exact ih k _ _ (by simpa using hc) hlast

/-- **The range covers the subtree.** If a machine and all below it resume, the events of all
of them lie in the range of the machine's interface. -/
lemma event_lt_lastEventValue (q : List ℕ) (m : Machine) (b : ℤ)
    (hres : ∀ p c, m.sub? p = some c → c.Resumes) {c : Machine} {b' : ℤ}
    (hq : m.locate b q = some (c, b')) {i : ℕ} (hi : i < c.eventList.length) :
    b ≤ b' + i ∧ b' + i < m.lastEventValue b := by
  induction q generalizing m b with
  | nil =>
    obtain ⟨rfl, rfl⟩ := Prod.mk.inj (Option.some.inj hq)
    have := le_lastEventValue m b
    omega
  | cons k q ih =>
    rw [Machine.locate] at hq
    obtain ⟨d, hd, hdq⟩ := Option.bind_eq_some_iff.mp hq
    have hd' : ∀ p c, d.sub? p = some c → c.Resumes := fun p c hp =>
      hres (k :: p) c (by rw [Machine.sub?_cons, hd, Option.bind_some, hp])
    obtain ⟨hlow, hhigh⟩ := ih d _ hd' hdq
    have hlast := lastEventValue_le_lastNoEvent m.machineList k (b + m.eventList.length)
      (b + m.eventList.length + 1) hd (hres [] m rfl)
    have hbase := le_nextValueList (m.machineList.take k) (b + m.eventList.length + 1)
    have hm : m.lastEventValue b = lastNoEvent (b + m.eventList.length) m.machineList
      (b + m.eventList.length + 1) := rfl
    omega

/-! ## The table of interfaces -/

/-- The values of the enumerators below the machine at `path`. -/
def ValuesBelow (s : EnumScope Enumerator) (path : List ℕ) (ms : List Machine) (b : ℤ) : Prop :=
  ∀ k q l, s.valueOf ⟨path ++ k :: q, l⟩ =
    (locateBelow ms b k q).bind fun cb => cb.1.ownValue cb.2 l

/-- If the values below the top-level machine are counted from `b`, then those below any
machine of the tree are counted from some value. -/
lemma ValuesBelow.sub? {s : EnumScope Enumerator} {top : Machine} {b : ℤ}
    (h : ValuesBelow s [] top.machineList b) {p : List ℕ} {P : Machine}
    (hp : top.sub? p = some P) : ∃ b', ValuesBelow s p P.machineList b' := by
  cases p with
  | nil =>
    obtain rfl := Option.some.inj hp
    exact ⟨b, h⟩
  | cons k₀ p =>
    obtain ⟨m, hm, hmp⟩ := Option.bind_eq_some_iff.mp hp
    set b₀ := nextValueList (top.machineList.take k₀) b with hb₀
    have hloc := locate_map_fst m b₀ p
    rw [hmp] at hloc
    obtain ⟨⟨P', b'⟩, hb', rfl⟩ := Option.map_eq_some_iff.mp hloc
    refine ⟨b' + P'.eventList.length + 1, ?_⟩
    intro k q l
    have := h k₀ (p ++ k :: q) l
    rw [List.nil_append] at this
    rw [List.cons_append, this, locateBelow, hm, Option.bind_some, locate_append, hb',
      Option.bind_some, Machine.locate_cons]

/-- The interface of a sub-machine has the bounds of its range. -/
lemma defineSubMachineArray_eq {s : EnumScope Enumerator} {path : List ℕ} {ms : List Machine}
    {b : ℤ} (h : ValuesBelow s path ms b) :
    defineSubMachineArray s path 0 ms = some (subFsmIfs b ms) := by
  have hgen : ∀ (ms' : List Machine) (i : ℕ) (b' : ℤ),
      (∀ k l, s.valueOf ⟨path ++ [i + k], l⟩ =
        (locateBelow ms' b' k []).bind fun cb => cb.1.ownValue cb.2 l) →
      defineSubMachineArray s path i ms' = some (subFsmIfs b' ms') := by
    intro ms'
    induction ms' with
    | nil =>
      intros
      rfl
    | cons m ms' ih =>
      intro i b' hvals
      have hrest := ih (i + 1) (m.nextValue b') (by
        intro k l
        rw [Nat.add_right_comm, Nat.add_assoc, hvals (k + 1) l, locateBelow_cons_succ])
      have hfirst : s.valueOf ⟨path ++ [i], .firstEvent⟩ = some b' := by
        have := hvals 0 .firstEvent
        simpa [locateBelow_cons_zero, Machine.ownValue] using this
      have hlast : s.valueOf ⟨path ++ [i], if m.machineList = [] then .noEvent else .lastEvent⟩ =
          some (m.lastEventValue b') := by
        have := hvals 0 (if m.machineList = [] then .noEvent else .lastEvent)
        rw [Nat.add_zero] at this
        rw [this, locateBelow_cons_zero]
        by_cases hm : m.machineList = []
        · simp [hm, Machine.ownValue, Machine.lastEventValue, lastNoEvent]
        · simp [hm, Machine.ownValue, Machine.lastEventValue]
      rw [defineSubMachineArray, defineSubMachineIF, hfirst, hlast, hrest]
      rfl
  refine hgen ms 0 b ?_
  intro k l
  rw [Nat.zero_add]
  exact h k [] l

/-! ## Events outside the range -/

/-- The `noEvent` of the last of several machines, from the value of its `firstEvent`. -/
private lemma lastNoEvent_eq (ms : List Machine) (v b : ℤ) {l : Machine}
    (hl : ms.getLast? = some l) :
    lastNoEvent v ms b =
      nextValueList (ms.take (ms.length - 1)) b + l.eventList.length := by
  induction ms generalizing v b with
  | nil => simp at hl
  | cons m ms ih =>
    by_cases hnil : ms = []
    · subst hnil
      obtain rfl : m = l := by simpa using hl
      simp [lastNoEvent, nextValueList]
    · rw [getLast?_cons_of_ne_nil hnil] at hl
      have hlen : (m :: ms).length - 1 = (ms.length - 1) + 1 := by
        have := List.length_pos_of_ne_nil hnil
        simp only [List.length_cons]
        omega
      rw [lastNoEvent, ih _ _ hl, hlen, List.take_succ_cons, nextValueList]

/-- The events of the first machine below the last sub-machine come after the range. -/
private lemma locate_last_first {c l d : Machine} {ds : List Machine}
    (hl : c.machineList.getLast? = some l) (hd : l.machineList = d :: ds) (b : ℤ) :
    c.locate b [c.machineList.length - 1, 0] = some (d, c.lastEventValue b + 1) := by
  have hget : c.machineList[c.machineList.length - 1]? = some l := by
    rw [← List.getLast?_eq_getElem?, hl]
  rw [Machine.locate, hget, Option.bind_some, Machine.locate, hd]
  simp only [List.getElem?_cons_zero, Option.bind_some, List.take_zero, nextValueList,
    Machine.locate_nil, Machine.lastEventValue]
  rw [lastNoEvent_eq _ _ _ hl]

/-! ## All finders of a tree -/

/-- For every machine of the tree and every event of a machine below it, `findAndRunSubMachine`
runs exactly one sub-machine, the one whose subtree declares the event. -/
def FindersRunOwner (s : EnumScope Enumerator) (top : Machine) : Prop :=
  ∀ p P k q c i v, top.sub? p = some P → P.sub? (k :: q) = some c → i < c.eventList.length →
    s.valueOf ⟨p ++ k :: q, .event i⟩ = some v →
      ∃ array, defineSubMachineArray s p 0 P.machineList = some array ∧
        findAndRunSubMachine P array v = [k]

/-- **The sub-machine finder.** In an accepted tree every event of every machine is handed to
the sub-machine whose subtree declares it, and to no other, exactly when below the top-level
machine no last sub-machine has sub-machines of its own.

**Proof sketch.** The range of a sub-machine reaches from its `firstEvent` to the `noEvent` of
its last sub-machine. It covers the subtree when that last sub-machine is a leaf; otherwise
the events below the last sub-machine have numbers beyond it. -/
theorem exists_findersRunOwner_iff (compactActionArray : Bool) (designated : String → ℤ)
    {top : Machine} (htop : top.Accepted) :
    (∃ s, eventEnum compactActionArray designated top = some s ∧ FindersRunOwner s top) ↔
      ∀ p c, p ≠ [] → top.sub? p = some c → c.Resumes := by
  obtain ⟨s, b, hs, hvals⟩ := exists_valueOf_eventEnum compactActionArray designated htop
  have hbelow : ValuesBelow s [] top.machineList b := fun k q l => hvals k q l
  constructor
  · rintro ⟨s', hs', hfind⟩ p c hp hc l hl
    obtain rfl : s = s' := Option.some.inj (hs.symm.trans hs')
    by_contra hsubs
    obtain ⟨d, ds, hd⟩ := List.exists_cons_of_ne_nil hsubs
    -- the parent of the machine and its place among the sub-machines
    obtain ⟨p, k, rfl⟩ := (List.eq_nil_or_concat' p).resolve_left hp
    rw [Machine.sub?_append] at hc
    obtain ⟨P, hP, hPk⟩ := Option.bind_eq_some_iff.mp hc
    have hk : P.machineList[k]? = some c := by
      rw [Machine.sub?_cons] at hPk
      obtain ⟨c', hc', hcc'⟩ := Option.bind_eq_some_iff.mp hPk
      rw [hc', ← hcc', Machine.sub?_nil]
    obtain ⟨b', hb'⟩ := hbelow.sub? hP
    set bk := nextValueList (P.machineList.take k) b' with hbk
    have hloc := locate_last_first hl hd bk
    have hsub : P.sub? [k, c.machineList.length - 1, 0] = some d := by
      have := locate_map_fst c bk [c.machineList.length - 1, 0]
      rw [hloc] at this
      rw [Machine.sub?_cons, hk, Option.bind_some, ← this]
      rfl
    have hevents : 0 < d.eventList.length := by
      have hd' := (htop.sub? hP).sub? hsub
      exact List.length_pos_of_ne_nil (d.accepted_iff.mp hd').1
    -- its first event has the number after `last_event`
    have hvalue : s.valueOf ⟨p ++ k :: [c.machineList.length - 1, 0], .event 0⟩ =
        some (c.lastEventValue bk + 1) := by
      rw [hb' k, locateBelow, hk, Option.bind_some, hloc, Option.bind_some, Machine.ownValue,
        if_pos hevents]
      simp
    obtain ⟨array, harray, hrun⟩ := hfind p P k _ d 0 _ hP hsub hevents hvalue
    rw [defineSubMachineArray_eq hb'] at harray
    obtain rfl := Option.some.inj harray
    have hmem : 0 + k ∈ findLoop (P.heterogeneousChildren || P.actionsReturn = .events)
        (c.lastEventValue bk + 1) 0 (subFsmIfs b' P.machineList) := by
      rw [findAndRunSubMachine] at hrun
      rw [hrun, Nat.zero_add]
      exact List.mem_singleton_self k
    obtain ⟨k', f, hf, hkk', -, hlt⟩ := mem_findLoop hmem
    obtain rfl : k = k' := by omega
    rw [subFsmIfs_getElem?, hk] at hf
    obtain rfl := Option.some.inj hf
    simp only [← hbk] at hlt
    omega
  · intro hres
    refine ⟨s, hs, ?_⟩
    intro p P k q c i v hP hc hi hv
    obtain ⟨b', hb'⟩ := hbelow.sub? hP
    refine ⟨_, defineSubMachineArray_eq hb', ?_⟩
    obtain ⟨d, hd, hdq⟩ := Option.bind_eq_some_iff.mp hc
    have hloc := locate_map_fst d (nextValueList (P.machineList.take k) b') q
    rw [hdq] at hloc
    obtain ⟨⟨c', b''⟩, hb'', rfl⟩ := Option.map_eq_some_iff.mp hloc
    have hvalue : v = b'' + i := by
      rw [hb' k q, locateBelow, hd, Option.bind_some, hb'', Option.bind_some,
        Machine.ownValue, if_pos hi] at hv
      exact (Option.some.inj hv).symm
    obtain ⟨hlow, hhigh⟩ := event_lt_lastEventValue q d _ (by
      intro r e he
      refine hres (p ++ k :: r) e (by simp) ?_
      rw [Machine.sub?_append, hP, Option.bind_some, Machine.sub?_cons, hd, Option.bind_some, he])
      hb'' hi
    have := findLoop_eq_singleton (P.heterogeneousChildren || P.actionsReturn = .events)
      P.machineList k 0 b' hd (hvalue ▸ hlow) (hvalue ▸ hhigh)
    simpa [findAndRunSubMachine] using this

/-- Three levels of machines below the top-level machine. -/
def deepMachine : Machine :=
  plainMachine "top" "e" "s"
    [plainMachine "A" "ea" "sa" [plainMachine "B" "eb" "sb" [plainMachine "C" "ec" "sc" []]]]

/-- The event of `C` has the number seven, and the range of `A` ends before six. -/
theorem not_findersRunOwner_deepMachine :
    ¬ ∀ top : Machine, top.Accepted →
      ∃ s, eventEnum false (fun _ => 0) top = some s ∧ FindersRunOwner s top := by
  intro h
  obtain ⟨s, hs, hfind⟩ := h deepMachine
    (by simp [deepMachine, plainMachine, Machine.Accepted, Machine.AcceptedList])
  have hvalue : (eventEnum false (fun _ => 0) deepMachine).bind
      (·.valueOf ⟨[0, 0, 0], .event 0⟩) = some 7 := by decide
  have htable : (eventEnum false (fun _ => 0) deepMachine).bind
      (defineSubMachineArray · [] 0 deepMachine.machineList) = some [⟨3, 6⟩] := by decide
  rw [hs] at hvalue htable
  obtain ⟨array, harray, hrun⟩ := hfind [] deepMachine 0 [0, 0]
    (plainMachine "C" "ec" "sc" []) 0 7 rfl rfl (by decide) hvalue
  obtain rfl := Option.some.inj (htable.symm.trans harray)
  revert hrun
  decide

/-- Two levels of machines below the top-level machine. -/
def twoChildrenMachine : Machine :=
  plainMachine "top" "e" "s"
    [plainMachine "A" "ea" "sa" [plainMachine "B" "eb" "sb" []], plainMachine "D" "ed" "sd" []]

/-- The last sub-machine of `A` has no sub-machines, and the other machines are leaves. -/
private lemma resumes_twoChildrenMachine (p : List ℕ) (c : Machine) (hp : p ≠ [])
    (hc : twoChildrenMachine.sub? p = some c) : c.Resumes := by
  rcases p with _ | ⟨_ | _ | k, _ | ⟨_ | k, _ | ⟨k, p⟩⟩⟩ <;>
    simp [twoChildrenMachine, plainMachine, Machine.sub?] at hp hc <;> subst hc <;>
      simp [Machine.Resumes]

/-- With two levels below the top-level machine the finders are right. -/
theorem exists_findersRunOwner_twoLevels :
    ∃ s, eventEnum false (fun _ => 0) twoChildrenMachine = some s ∧
      FindersRunOwner s twoChildrenMachine :=
  (exists_findersRunOwner_iff false (fun _ => 0)
    (by simp [twoChildrenMachine, plainMachine, Machine.Accepted, Machine.AcceptedList])).mpr
      resumes_twoChildrenMachine

end FsmLang
