import Mathlib.Data.List.Basic
import Mathlib.Tactic
import FsmLang.CSemantics.Iteration
import FsmLang.GeneratedCode

set_option relaxedAutoImplicit false
set_option autoImplicit false

/-!
# Shared events

A machine passes an event on to the sub-machines that have declared it as `parent::event`. For
this its file has an array of the sharers' data blocks, and each sharer's file defines its block.
The array and the blocks are printed by different iterations. A machine that implements a state
has no block in either; a machine that implements the event's data translator gets none in its own
file, but its block is in the array if another sharer makes the array necessary.

Both iterations ask of a machine that implements a translator whether it is the event's, and
follow the pointer to the machine that implements the event's translator. It is null for a
translator that is a plain function.

## Main definitions

* `EventSharing` — which events of a machine are shared, and what translates their data.
* `defineSharedEventLists` — the array of an event.
* `defineNeededSharedEventStructures` — the events a sub-machine has blocks for.
* `SharedEventsLinked` — every block in an array is defined once, and every block that is defined
  is in the array of its event.
* `SharersApart` — no sharer is in the way of this.

## Main results

* `defineNeededSharedEventStructures_eq`, `defineSharedEventLists_eq` — what is printed where no
  null pointer is followed.
* `sharedEvents_linked_iff` — when arrays and blocks fit together.
-/

namespace FsmLang

open CSemantics

/-! ## What is printed -/

/-- What a machine's records of events have on sharing: which events of the list are written
`parent::event`; and by the event's name, as there is one record for a name, the data translator,
with the place of the sub-machine that implements it if one does. -/
structure EventSharing (m : Machine) where
  parentReference : m.EventIdx → Bool
  translator : String → Option (Option ℕ)

/-- The flag `shared_with_parent` of an event's record. -/
def EventSharing.sharedWithParent {m : Machine} (E : EventSharing m) (i : m.EventIdx) : Bool :=
  (List.finRange m.eventList.length).any fun j =>
    E.parentReference j && m.eventName j = m.eventName i

/-- The sharing of all machines of a tree. -/
abbrev Sharing := List ℕ → ∀ m : Machine, EventSharing m

/-- The list `psharing_sub_machines` of an event of the machine `P` at `path`: the sub-machines
that refer to it, with their places, once for each reference. -/
def psharingSubMachines (D : Sharing) (path : List ℕ) (P : Machine) (name : String) :
    List (ℕ × Machine) :=
  P.machineList.zipIdx.flatMap fun c =>
    ((List.finRange c.1.eventList.length).filter fun j =>
      (D (path ++ [c.2]) c.1).parentReference j && c.1.eventName j = name).map fun _ => (c.2, c.1)

/-- Whether a sharer implements the event's translator. For a machine that implements some
translator the machine that implements the event's is looked up, which fails if there is none. -/
def implementsTranslator (translator : Option (Option ℕ)) (sharer : ℕ × Machine) : Option Bool :=
  if sharer.2.info.translatorImplementing then
    match translator with
    | none => some false
    | some none => none
    | some (some k) => some (k = sharer.1)
  else some false

/-- Whether a sharer makes an array necessary. -/
def findLegitimateSharer (translator : Option (Option ℕ)) (sharer : ℕ × Machine) : Option Bool :=
  if sharer.2.info.stateImplementing then some false
  else (implementsTranslator translator sharer).map (!·)

/-- The name of a sharer's block (`print_shared_event_data_block_signature`). -/
def sharedEventDataBlock (P S : Machine) (name : String) : String :=
  S.info.name ++ "_share_" ++ P.info.name ++ "_" ++ name ++ "_str"

/-- The blocks in the array of an event. -/
def referenceSharedEventDataBlocks (P : Machine) (name : String) (sharers : List (ℕ × Machine)) :
    List String :=
  (sharers.filter fun s => !s.2.info.stateImplementing).map fun s => sharedEventDataBlock P s.2 name

/-- The array of an event of the machine `P` at `path`, if there is to be one. -/
def defineSharedEventLists (D : Sharing) (path : List ℕ) (P : Machine) (i : P.EventIdx) :
    Option (Option (List String)) :=
  let sharers := psharingSubMachines D path P (P.eventName i)
  (iterateTest (findLegitimateSharer ((D path P).translator (P.eventName i))) sharers).map
    fun found =>
      if found then some (referenceSharedEventDataBlocks P (P.eventName i) sharers) else none

/-- The events for which the file of `S`, the `k`-th sub-machine of the machine `P` at `path`,
defines blocks (`possiblyDefineSubMachineSharedEventStructures`). -/
def defineNeededSharedEventStructures (D : Sharing) (path : List ℕ) (P : Machine) (k : ℕ)
    (S : Machine) : Option (List S.EventIdx) :=
  if S.info.stateImplementing then some []
  else iterateFilter (fun i =>
      if (D (path ++ [k]) S).sharedWithParent i then
        (implementsTranslator ((D path P).translator (S.eventName i)) (k, S)).map (!·)
      else some false)
    (List.finRange S.eventList.length)

/-! ## Arrays and blocks -/

/-- A place in the event list of a sub-machine: the machine's parent by its path, the machine's
place in the parent's list, and the event's in its own. -/
structure SharedEvent where
  path : List ℕ
  sharer : ℕ
  ordinal : ℕ
  deriving DecidableEq, Repr

/-- The `i`-th event of the sub-machine `S` of `P` stands at a place of the tree. -/
structure SharedEvent.At (top : Machine) (o : SharedEvent) (P S : Machine) (i : S.EventIdx) :
    Prop where
  parent : top.sub? o.path = some P
  sharer : P.machineList[o.sharer]? = some S
  ordinal : (i : ℕ) = o.ordinal

/-- A block is defined for the event at a place. Every machine has one file, and each event of its
list one place in it. -/
def Defines (top : Machine) (D : Sharing) (o : SharedEvent) (block : String) : Prop :=
  ∃ (P S : Machine) (i : S.EventIdx) (l : List S.EventIdx), o.At top P S i ∧
    defineNeededSharedEventStructures D o.path P o.sharer S = some l ∧ i ∈ l ∧
    sharedEventDataBlock P S (S.eventName i) = block

/-- The files are written, every block in an array is defined exactly once, and every block that
is defined is in the array of its event. -/
structure SharedEventsLinked (top : Machine) (D : Sharing) : Prop where
  arrays : ∀ path P, top.sub? path = some P → ∀ i, (defineSharedEventLists D path P i).isSome = true
  blocks : ∀ path P, top.sub? path = some P → ∀ k S, P.machineList[k]? = some S →
    (defineNeededSharedEventStructures D path P k S).isSome = true
  referenced : ∀ path P, top.sub? path = some P → ∀ i blocks,
    defineSharedEventLists D path P i = some (some blocks) →
      ∀ block ∈ blocks, ∃! o, Defines top D o block
  named : ∀ o P S i, SharedEvent.At top o P S i → ∀ l,
    defineNeededSharedEventStructures D o.path P o.sharer S = some l → i ∈ l →
      ∃ j blocks, P.eventName j = S.eventName i ∧
        defineSharedEventLists D o.path P j = some (some blocks) ∧
          sharedEventDataBlock P S (S.eventName i) ∈ blocks

/-! ## Sharers -/

/-- The event at a place is shared with the parent, by a machine that does not implement a state. -/
structure Sharer (top : Machine) (D : Sharing) (o : SharedEvent) (P S : Machine)
    (i : S.EventIdx) : Prop extends o.At top P S i where
  notState : S.info.stateImplementing = false
  shared : (D (o.path ++ [o.sharer]) S).sharedWithParent i = true

/-- The machine implements the translator of the parent's event. -/
def ImplementsTranslator (D : Sharing) (o : SharedEvent) (P S : Machine) (i : S.EventIdx) : Prop :=
  S.info.translatorImplementing = true ∧
    (D o.path P).translator (S.eventName i) = some (some o.sharer)

/-- A sharer that does not implement the event's translator. -/
def PlainSharer (top : Machine) (D : Sharing) (o : SharedEvent) (P S : Machine)
    (i : S.EventIdx) : Prop :=
  Sharer top D o P S i ∧ ¬ ImplementsTranslator D o P S i

/-- No null pointer is followed: machines that implement translators do not share events whose
translators are plain functions. -/
def LooksUp (top : Machine) (D : Sharing) : Prop :=
  ∀ o P S i, Sharer top D o P S i → S.info.translatorImplementing = true →
    (D o.path P).translator (S.eventName i) ≠ some none

/-- No null pointer is followed; shared events are events of the parent; the blocks of the plain
sharers have different names; and a machine that implements the translator of an event shares it
alone, or the block it would have has the name of another one. -/
structure SharersApart (top : Machine) (D : Sharing) : Prop where
  looksUp : LooksUp top D
  listed : ∀ o P S i, PlainSharer top D o P S i → ∃ j, P.eventName j = S.eventName i
  distinct : ∀ o P S i, PlainSharer top D o P S i → ∀ o' P' S' i', PlainSharer top D o' P' S' i' →
    sharedEventDataBlock P' S' (S'.eventName i') = sharedEventDataBlock P S (S.eventName i) → o' = o
  alone : ∀ o P S i, Sharer top D o P S i → ImplementsTranslator D o P S i →
    ∀ o' S' i', o'.path = o.path → PlainSharer top D o' P S' i' →
      S'.eventName i' = S.eventName i →
        ∃ o'' P'' S'' i'', PlainSharer top D o'' P'' S'' i'' ∧
          sharedEventDataBlock P'' S'' (S''.eventName i'') =
            sharedEventDataBlock P S (S.eventName i)

variable {top P S : Machine} {D : Sharing} {o : SharedEvent} {i : S.EventIdx}

/-- The sharers of an event. -/
lemma mem_psharingSubMachines {path : List ℕ} {name : String} {k : ℕ} :
    (k, S) ∈ psharingSubMachines D path P name ↔ P.machineList[k]? = some S ∧
      ∃ i, (D (path ++ [k]) S).sharedWithParent i = true ∧ S.eventName i = name := by
  have hshared : (∃ i, (D (path ++ [k]) S).sharedWithParent i = true ∧ S.eventName i = name) ↔
      ∃ j, (D (path ++ [k]) S).parentReference j = true ∧ S.eventName j = name := by
    simp only [EventSharing.sharedWithParent, List.any_eq_true, List.mem_finRange, true_and,
      Bool.and_eq_true, decide_eq_true_eq]
    constructor
    · rintro ⟨i, ⟨j, hj, hji⟩, hi⟩
      exact ⟨j, hj, hji.trans hi⟩
    · rintro ⟨j, hj, hname⟩
      exact ⟨j, ⟨j, hj, rfl⟩, hname⟩
  rw [hshared, psharingSubMachines, List.mem_flatMap]
  constructor
  · rintro ⟨⟨c, k'⟩, hc, hmem⟩
    obtain ⟨j, hj, heq⟩ := List.mem_map.mp hmem
    obtain ⟨rfl, rfl⟩ := Prod.mk.inj heq
    exact ⟨List.mem_zipIdx_iff_getElem?.mp hc, j, by simpa using hj⟩
  · rintro ⟨hS, j, hj⟩
    refine ⟨(S, k), List.mem_zipIdx_iff_getElem?.mpr hS, List.mem_map.mpr ⟨j, ?_, rfl⟩⟩
    simpa using hj

/-- The look-up in a sharer that does not follow a null pointer. -/
lemma implementsTranslator_eq {t : Option (Option ℕ)} {k : ℕ}
    (h : S.info.translatorImplementing = true → t ≠ some none) :
    implementsTranslator t (k, S) =
      some (decide (S.info.translatorImplementing = true ∧ t = some (some k))) := by
  unfold implementsTranslator
  by_cases hflag : S.info.translatorImplementing = true
  · match t, h hflag with
    | none, _ => simp [hflag]
    | some (some j), _ => simp [hflag]
  · simp [hflag]

/-- Where the look-up returns, no null pointer has been followed. -/
private lemma ne_of_isSome_implementsTranslator {t : Option (Option ℕ)} {k : ℕ}
    (h : (implementsTranslator t (k, S)).isSome = true)
    (hflag : S.info.translatorImplementing = true) : t ≠ some none := by
  rintro rfl
  simp [implementsTranslator, hflag] at h

/-- Whether one of an event's sharers is plain. -/
def isPlainSharer (translator : Option (Option ℕ)) (sharer : ℕ × Machine) : Bool :=
  !sharer.2.info.stateImplementing &&
    !decide (sharer.2.info.translatorImplementing = true ∧ translator = some (some sharer.1))

/-- A sharer is plain if it stands for no state and translates no event with the same translator. -/
lemma isPlainSharer_iff {t : Option (Option ℕ)} {k : ℕ} :
    isPlainSharer t (k, S) = true ↔ S.info.stateImplementing = false ∧
      ¬ (S.info.translatorImplementing = true ∧ t = some (some k)) := by
  rw [isPlainSharer, Bool.and_eq_true, Bool.not_eq_true', Bool.not_eq_true',
    decide_eq_false_iff_not]

/-- The events that a sub-machine has blocks for. -/
lemma defineNeededSharedEventStructures_eq (hD : LooksUp top D) {path : List ℕ} {k : ℕ}
    (hP : top.sub? path = some P) (hS : P.machineList[k]? = some S) :
    defineNeededSharedEventStructures D path P k S =
      some ((List.finRange S.eventList.length).filter fun i =>
        (D (path ++ [k]) S).sharedWithParent i &&
          isPlainSharer ((D path P).translator (S.eventName i)) (k, S)) := by
  rw [defineNeededSharedEventStructures]
  cases hstate : S.info.stateImplementing with
  | true => simp [isPlainSharer, hstate]
  | false =>
    rw [if_neg (by simp)]
    apply iterateFilter_eq
    intro i _
    cases hshared : (D (path ++ [k]) S).sharedWithParent i with
    | false => simp
    | true =>
      have hlook := hD ⟨path, k, i⟩ P S i ⟨⟨hP, hS, rfl⟩, hstate, hshared⟩
      rw [if_pos rfl, implementsTranslator_eq hlook]
      simp [isPlainSharer, hstate]

/-- **The blocks.** A sub-machine has blocks for the events that it shares plainly. -/
lemma mem_defineNeededSharedEventStructures (hD : LooksUp top D) (ho : o.At top P S i)
    {l : List S.EventIdx} (hl : defineNeededSharedEventStructures D o.path P o.sharer S = some l) :
    i ∈ l ↔ PlainSharer top D o P S i := by
  rw [defineNeededSharedEventStructures_eq hD ho.parent ho.sharer, Option.some.injEq] at hl
  rw [← hl, List.mem_filter, Bool.and_eq_true, isPlainSharer_iff]
  constructor
  · rintro ⟨-, hshared, hstate, hplain⟩
    exact ⟨⟨ho, hstate, hshared⟩, hplain⟩
  · rintro ⟨hsharer, hplain⟩
    exact ⟨List.mem_finRange i, hsharer.shared, hsharer.notState, hplain⟩

/-- A block is defined exactly for the events of plain sharers. -/
lemma defines_iff (hD : LooksUp top D) {block : String} :
    Defines top D o block ↔ ∃ P S i, PlainSharer top D o P S i ∧
      sharedEventDataBlock P S (S.eventName i) = block := by
  constructor
  · rintro ⟨P, S, i, l, ho, hl, hi, hblock⟩
    exact ⟨P, S, i, (mem_defineNeededSharedEventStructures hD ho hl).mp hi, hblock⟩
  · rintro ⟨P, S, i, hplain, hblock⟩
    have ho := hplain.1.toAt
    have hl := defineNeededSharedEventStructures_eq hD ho.parent ho.sharer
    exact ⟨P, S, i, _, ho, hl, (mem_defineNeededSharedEventStructures hD ho hl).mpr hplain, hblock⟩

/-- Some plain sharer refers to the event of this name of the machine `P` at `path`. -/
def PlainlyShared (top : Machine) (D : Sharing) (path : List ℕ) (P : Machine) (name : String) :
    Prop :=
  ∃ o S i, SharedEvent.path o = path ∧ PlainSharer top D o P S i ∧ S.eventName i = name

/-- An event has a plain sharer exactly if it is plainly shared. -/
lemma any_isPlainSharer_iff {path : List ℕ} (hP : top.sub? path = some P) (name : String) :
    (psharingSubMachines D path P name).any (isPlainSharer ((D path P).translator name)) = true ↔
      PlainlyShared top D path P name := by
  rw [List.any_eq_true]
  constructor
  · rintro ⟨⟨k, S⟩, hs, hplain⟩
    obtain ⟨hS, i, hshared, hname⟩ := mem_psharingSubMachines.mp hs
    obtain ⟨hstate, hplain⟩ := isPlainSharer_iff.mp hplain
    refine ⟨⟨path, k, i⟩, S, i, rfl, ⟨⟨⟨hP, hS, rfl⟩, hstate, hshared⟩, ?_⟩, hname⟩
    rw [ImplementsTranslator, hname]
    exact hplain
  · rintro ⟨o, S, i, rfl, ⟨hsharer, hplain⟩, hname⟩
    refine ⟨(o.sharer, S),
      mem_psharingSubMachines.mpr ⟨hsharer.sharer, i, hsharer.shared, hname⟩, ?_⟩
    rw [isPlainSharer_iff, ← hname]
    exact ⟨hsharer.notState, hplain⟩

/-- **The arrays.** An event has an array if it has a plain sharer, with the blocks of all sharers
that do not implement a state. -/
lemma defineSharedEventLists_eq (hD : LooksUp top D) {path : List ℕ} (hP : top.sub? path = some P)
    (j : P.EventIdx) :
    defineSharedEventLists D path P j =
      some (if (psharingSubMachines D path P (P.eventName j)).any
          (isPlainSharer ((D path P).translator (P.eventName j))) then
        some (referenceSharedEventDataBlocks P (P.eventName j)
          (psharingSubMachines D path P (P.eventName j)))
        else none) := by
  have htest : ∀ s ∈ psharingSubMachines D path P (P.eventName j),
      findLegitimateSharer ((D path P).translator (P.eventName j)) s =
        some (isPlainSharer ((D path P).translator (P.eventName j)) s) := by
    rintro ⟨k, S⟩ hs
    obtain ⟨hS, i, hshared, hname⟩ := mem_psharingSubMachines.mp hs
    cases hstate : S.info.stateImplementing with
    | true => simp [findLegitimateSharer, isPlainSharer, hstate]
    | false =>
      rw [findLegitimateSharer, implementsTranslator_eq]
      · simp [isPlainSharer, hstate]
      · rw [← hname]
        exact hD ⟨path, k, i⟩ P S i ⟨⟨hP, hS, rfl⟩, hstate, hshared⟩
  rw [defineSharedEventLists, iterateTest_eq htest]
  rfl

/-- The blocks in an array. -/
lemma mem_referenceSharedEventDataBlocks {path : List ℕ} (hP : top.sub? path = some P)
    {name block : String} :
    block ∈ referenceSharedEventDataBlocks P name (psharingSubMachines D path P name) ↔
      ∃ o S i, SharedEvent.path o = path ∧ Sharer top D o P S i ∧ S.eventName i = name ∧
        sharedEventDataBlock P S (S.eventName i) = block := by
  rw [referenceSharedEventDataBlocks, List.mem_map]
  constructor
  · rintro ⟨⟨k, S⟩, hs, hblock⟩
    obtain ⟨hs, hstate⟩ := List.mem_filter.mp hs
    obtain ⟨hS, i, hshared, hname⟩ := mem_psharingSubMachines.mp hs
    exact ⟨⟨path, k, i⟩, S, i, rfl, ⟨⟨hP, hS, rfl⟩, by simpa using hstate, hshared⟩, hname,
      by rw [hname]; exact hblock⟩
  · rintro ⟨o, S, i, rfl, hsharer, hname, hblock⟩
    refine ⟨(o.sharer, S), List.mem_filter.mpr ⟨?_, by simp [hsharer.notState]⟩, ?_⟩
    · exact mem_psharingSubMachines.mpr ⟨hsharer.sharer, i, hsharer.shared, hname⟩
    · rw [← hblock, hname]

/-- An array names the blocks of the event's sharers, one of which is plain. -/
private lemma exists_sharer_of_array (hD : LooksUp top D) {path : List ℕ}
    (hP : top.sub? path = some P)
    {j : P.EventIdx} {blocks : List String}
    (harray : defineSharedEventLists D path P j = some (some blocks)) :
    PlainlyShared top D path P (P.eventName j) ∧ ∀ block ∈ blocks,
      ∃ o S i, SharedEvent.path o = path ∧ Sharer top D o P S i ∧ S.eventName i = P.eventName j ∧
        sharedEventDataBlock P S (S.eventName i) = block := by
  rw [defineSharedEventLists_eq hD hP, Option.some.injEq] at harray
  split_ifs at harray with hany
  obtain rfl := Option.some.inj harray
  exact ⟨(any_isPlainSharer_iff hP _).mp hany,
    fun block hblock => (mem_referenceSharedEventDataBlocks hP).mp hblock⟩

/-- An event of the parent with a plain sharer has an array, and in it the blocks of its
sharers. -/
lemma exists_array (hD : LooksUp top D) {j : P.EventIdx} (hsharer : Sharer top D o P S i)
    (hname : P.eventName j = S.eventName i)
    (hplain : PlainlyShared top D o.path P (S.eventName i)) :
    ∃ blocks, defineSharedEventLists D o.path P j = some (some blocks) ∧
      sharedEventDataBlock P S (S.eventName i) ∈ blocks := by
  rw [defineSharedEventLists_eq hD hsharer.parent, hname,
    if_pos ((any_isPlainSharer_iff hsharer.parent _).mpr hplain)]
  refine ⟨_, rfl, ?_⟩
  exact (mem_referenceSharedEventDataBlocks hsharer.parent).mpr ⟨o, S, i, rfl, hsharer, rfl, rfl⟩

/-! ## When arrays and blocks fit together -/

/-- The blocks are written only if no null pointer is followed. -/
lemma looksUp_of_isSome (h : ∀ path P, top.sub? path = some P → ∀ k S,
    P.machineList[k]? = some S → (defineNeededSharedEventStructures D path P k S).isSome = true) :
    LooksUp top D := by
  intro o P S i hsharer hflag
  have hsome := h o.path P hsharer.parent o.sharer S hsharer.sharer
  rw [defineNeededSharedEventStructures, hsharer.notState, if_neg (by simp)] at hsome
  have hlook := isSome_of_iterateFilter hsome (List.mem_finRange i)
  rw [if_pos hsharer.shared, Option.isSome_map] at hlook
  exact ne_of_isSome_implementsTranslator hlook hflag

/-- **Shared events.** Every block in an array is defined exactly once and every block that is
defined is in the array of its event if and only if the sharers are apart.

**Proof sketch.** Blocks are defined for the plain sharers. An array is printed for an event with
a plain sharer, and has the blocks of the machines that implement the event's translator besides.
So a block in an array that is not defined is one of theirs. -/
theorem sharedEvents_linked_iff (top : Machine) (D : Sharing) :
    SharedEventsLinked top D ↔ SharersApart top D := by
  constructor
  · intro h
    have hD := looksUp_of_isSome h.blocks
    have hlisted : ∀ o P S i, PlainSharer top D o P S i → ∃ j blocks,
        P.eventName j = S.eventName i ∧ defineSharedEventLists D o.path P j = some (some blocks) ∧
          sharedEventDataBlock P S (S.eventName i) ∈ blocks := by
      intro o P S i hplain
      have ho := hplain.1.toAt
      have hl := defineNeededSharedEventStructures_eq hD ho.parent ho.sharer
      exact h.named o P S i ho _ hl ((mem_defineNeededSharedEventStructures hD ho hl).mpr hplain)
    refine ⟨hD, ?_, ?_, ?_⟩
    · intro o P S i hplain
      obtain ⟨j, blocks, hname, -⟩ := hlisted o P S i hplain
      exact ⟨j, hname⟩
    · intro o P S i hplain o' P' S' i' hplain' hblock
      obtain ⟨j, blocks, -, harray, hmem⟩ := hlisted o P S i hplain
      refine (h.referenced o.path P hplain.1.parent j blocks harray _ hmem).unique ?_ ?_
      · exact (defines_iff hD).mpr ⟨P', S', i', hplain', hblock⟩
      · exact (defines_iff hD).mpr ⟨P, S, i, hplain, rfl⟩
    · intro o P S i hsharer himpl o' S' i' hpath hplain' hname
      obtain ⟨j, -, hj, -⟩ := hlisted o' P S' i' hplain'
      obtain ⟨blocks, harray, hmem⟩ := exists_array hD hsharer (hj.trans hname)
        ⟨o', S', i', hpath, hplain', hname⟩
      obtain ⟨o'', hdef, -⟩ := h.referenced o.path P hsharer.parent j blocks harray _ hmem
      obtain ⟨P'', S'', i'', hplain'', hblock⟩ := (defines_iff hD).mp hdef
      exact ⟨o'', P'', S'', i'', hplain'', hblock⟩
  · intro h
    have hD := h.looksUp
    refine ⟨?_, ?_, ?_, ?_⟩
    · intro path P hP j
      rw [defineSharedEventLists_eq hD hP]
      rfl
    · intro path P hP k S hS
      rw [defineNeededSharedEventStructures_eq hD hP hS]
      rfl
    · intro path P hP j blocks harray block hblock
      obtain ⟨hshared, hsharers⟩ := exists_sharer_of_array hD hP harray
      obtain ⟨o, S, i, rfl, hsharer, hname, hblock⟩ := hsharers block hblock
      -- a sharer that implements the translator has the block of a plain one
      obtain ⟨o', P', S', i', hplain, hblock'⟩ : ∃ o' P' S' i', PlainSharer top D o' P' S' i' ∧
          sharedEventDataBlock P' S' (S'.eventName i') = block := by
        by_cases himpl : ImplementsTranslator D o P S i
        · obtain ⟨o', S', i', hpath, hplain, hname'⟩ := hshared
          obtain ⟨o'', P'', S'', i'', hplain'', hblock''⟩ := h.alone o P S i hsharer himpl o' S' i'
            hpath hplain (hname'.trans hname.symm)
          exact ⟨o'', P'', S'', i'', hplain'', hblock''.trans hblock⟩
        · exact ⟨o, P, S, i, ⟨hsharer, himpl⟩, hblock⟩
      refine ⟨o', (defines_iff hD).mpr ⟨P', S', i', hplain, hblock'⟩, ?_⟩
      intro o'' hdef
      obtain ⟨P'', S'', i'', hplain'', hblock''⟩ := (defines_iff hD).mp hdef
      exact h.distinct o' P' S' i' hplain o'' P'' S'' i'' hplain'' (hblock''.trans hblock'.symm)
    · intro o P S i ho l hl hi
      have hplain := (mem_defineNeededSharedEventStructures hD ho hl).mp hi
      obtain ⟨j, hname⟩ := h.listed o P S i hplain
      obtain ⟨blocks, harray, hmem⟩ := exists_array hD hplain.1 hname
        ⟨o, S, i, rfl, hplain, rfl⟩
      exact ⟨j, blocks, hname, harray, hmem⟩

/-! ## A machine that implements a translator beside a plain sharer -/

/-- A machine `top` whose event's translator is implemented by its sub-machine `X`; the event is
shared by `X` and by another sub-machine `Y`. -/
def translatedMachine : Machine :=
  .mk { name := "top", eventList := [{ name := "e" }], stateList := [{ name := "s" }] }
    [.mk { name := "X", eventList := [{ name := "e" }], stateList := [{ name := "x" }],
           actionsReturn := .void, translatorImplementing := true } [],
      plainMachine "Y" "e" "y" []]

/-- The sharing of this machine. -/
def translatedSharing : Sharing := fun path _ =>
  { parentReference := fun _ => path ≠ []
    translator := fun name => if path = [] ∧ name = "e" then some (some 0) else none }

/-- Only the top-level machine has sub-machines. -/
private lemma translatedMachine_at {o : SharedEvent} (ho : o.At translatedMachine P S i) :
    o.path = [] ∧ P = translatedMachine := by
  obtain ⟨hP, hS, -⟩ := ho
  rcases hpath : o.path with _ | ⟨k, p⟩
  · rw [hpath] at hP
    exact ⟨rfl, (Option.some.inj hP).symm⟩
  · exfalso
    rw [hpath] at hP
    obtain ⟨c, hc, hcP⟩ := Option.bind_eq_some_iff.mp hP
    have hleaf : c.machineList = [] := by
      have hmem := List.mem_of_getElem? hc
      simp only [translatedMachine, Machine.machineList_mk, List.mem_cons, List.not_mem_nil,
        or_false] at hmem
      rcases hmem with rfl | rfl <;> rfl
    cases p with
    | nil =>
      obtain rfl := Option.some.inj hcP
      simp [hleaf] at hS
    | cons j p => simp [Machine.sub?_cons, hleaf] at hcP

/-- The array has a block for `X`, which is not defined. -/
theorem not_sharedEventsLinked_translatedMachine :
    ¬ ∀ (top : Machine) (D : Sharing), top.Accepted → SharedEventsLinked top D := by
  intro h
  have hlinked := h translatedMachine translatedSharing
    (by simp [translatedMachine, plainMachine, Machine.Accepted, Machine.AcceptedList])
  have harray : defineSharedEventLists translatedSharing [] translatedMachine ⟨0, by decide⟩ =
      some (some ["X_share_top_e_str", "Y_share_top_e_str"]) := by decide
  obtain ⟨o, hdef, -⟩ := hlinked.referenced [] translatedMachine rfl _ _ harray
    "X_share_top_e_str" (by simp)
  obtain ⟨P, S, i, hplain, hblock⟩ := (defines_iff (looksUp_of_isSome hlinked.blocks)).mp hdef
  obtain ⟨hpath, rfl⟩ := translatedMachine_at hplain.1.toAt
  have hS := hplain.1.sharer
  rcases hsharer : o.sharer with _ | _ | k
  · -- `X` implements the translator
    rw [hsharer] at hS
    obtain rfl := Option.some.inj hS
    apply hplain.2
    obtain rfl : i = ⟨0, by decide⟩ := @Subsingleton.elim (Fin 1) _ i ⟨0, by decide⟩
    rw [ImplementsTranslator, hpath, hsharer]
    decide
  · rw [hsharer] at hS
    obtain rfl := Option.some.inj hS
    obtain rfl : i = ⟨0, by decide⟩ := @Subsingleton.elim (Fin 1) _ i ⟨0, by decide⟩
    revert hblock
    decide
  · rw [hsharer] at hS
    simp [translatedMachine] at hS

end FsmLang
