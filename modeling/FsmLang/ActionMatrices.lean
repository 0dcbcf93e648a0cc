import Mathlib.Data.List.Basic
import Mathlib.Tactic
import FsmLang.ActionArray
import FsmLang.SharedEvents

set_option relaxedAutoImplicit false
set_option autoImplicit false

/-!
# The matrices of an action

A matrix names events, one or several or ALL, and states. The grammar looks at the events as it
reads them. It refuses events that their data translators consume, and vectors with events that are
shared with sub-machines; but a member followed by a comma is only looked at for the second reason,
and the last one only for the first. ALL is filled in later, with the events that are not consumed.

An action may have many matrices. The stub that is generated for it hands an event on to the
sub-machines that share it. Which one is decided by one event of one matrix, the first of the
matrix declared last.

## Main definitions

* `MatrixScope` — what the grammar knows of events and states when it reads a matrix.
* `EventVector.read`, `ActionMatrix.errors` — the rules for event vectors and matrices.
* `defineWeakActionFunction` — the stub of an action.

## Main results

* `ActionMatrix.admitted_iff` — when the two checks do what they are for.
* `MatrixMachine.weakStubs_right_iff` — when the stubs do what the cells ask for.
-/

namespace FsmLang

open CSemantics

/-! ## Reading a matrix -/

/-- What is known of a machine when its matrices are read. -/
structure MatrixScope (ε σ : Type*) extends MachineMatrix ε σ where
  sharedBySubMachines : ε → Bool

/-- An event vector as it is written. A vector in parentheses has two members at least. -/
inductive EventVector (ε : Type*) where
  | all
  | scalar (e : ε)
  | vector (first : ε) (rest : List ε) (last : ε)
  deriving DecidableEq, Repr

/-- A matrix with its action or, where the action's name is empty, a transition only. No states
stand for ALL. -/
structure ActionMatrix (ε σ : Type*) where
  action : String := ""
  transition : Option (Transition σ) := none
  events : EventVector ε
  states : List σ := []
  deriving DecidableEq, Repr

section Grammar

variable {ε σ : Type*} (K : MatrixScope ε σ)

/-- The check of a member that is followed by a comma. -/
def checkShared (e : ε) : List String :=
  if K.sharedBySubMachines e then
    ["events which are shared by sub-machines may not be part of a vector"] else []

/-- The check of the last or only member. -/
def checkConsumed (e : ε) : List String :=
  if K.consumedByTranslator e then
    ["event which is consumed by its translator cannot be part of a matrix"] else []

/-- The start of a list: an event with a comma. -/
def startEventCommaList (e : ε) : List ε × List String := ([e], checkShared K e)

/-- The continuation of a list. -/
def continueEventCommaList (x : List ε × List String) (e : ε) : List ε × List String :=
  (x.1 ++ [e], x.2 ++ checkShared K e)

/-- The list of an event vector, and the errors. -/
def EventVector.read : EventVector ε → List ε × List String
  | .all => ([], [])
  | .scalar e => ([e], checkConsumed K e)
  | .vector first rest last =>
    let x := rest.foldl (continueEventCommaList K) (startEventCommaList K first)
    (x.1 ++ [last], x.2 ++ checkConsumed K last)

/-- The members of a vector in parentheses. -/
def EventVector.vectorMembers : EventVector ε → List ε
  | .all => []
  | .scalar _ => []
  | .vector first rest last => first :: rest ++ [last]

/-- The matrix entry. -/
def ActionMatrix.actionInfo (m : ActionMatrix ε σ) : ActionInfo ε σ where
  action := m.action
  transition := m.transition
  eventList := (m.events.read K).1
  stateList := m.states

/-- The errors found in reading a matrix. -/
def ActionMatrix.errors (m : ActionMatrix ε σ) : List String :=
  (m.events.read K).2 ++
    if m.action ≠ "" ∧ m.states.any K.implementedBySubMachine then
      ["States implemented by machines cannot appear in an action matrix."] else []

/-- No event of the matrix is consumed, and no member of a vector is shared. -/
structure ActionMatrix.Admissible (m : ActionMatrix ε σ) : Prop where
  notConsumed : ∀ e ∈ K.expandEvents (m.actionInfo K), K.consumedByTranslator e = false
  notShared : ∀ e ∈ m.events.vectorMembers, K.sharedBySubMachines e = false

/-- The members that are not looked at do not need to be: those before the last are not consumed,
and the last is not shared. -/
def EventVector.UncheckedInOrder : EventVector ε → Prop
  | .all => True
  | .scalar _ => True
  | .vector first rest last =>
    (∀ e ∈ first :: rest, K.consumedByTranslator e = false) ∧ K.sharedBySubMachines last = false

/-- One of the members that are looked at is refused. -/
def EventVector.CheckedAtFault : EventVector ε → Prop
  | .all => False
  | .scalar e => K.consumedByTranslator e = true
  | .vector first rest last =>
    (∃ e ∈ first :: rest, K.sharedBySubMachines e = true) ∨ K.consumedByTranslator last = true

variable {K}

/-- An event is reported if a sub-machine shares it. -/
@[simp] lemma checkShared_eq_nil (e : ε) :
    checkShared K e = [] ↔ K.sharedBySubMachines e = false := by
  cases h : K.sharedBySubMachines e <;> simp [checkShared, h]

/-- An event is reported if its translator consumes it. -/
@[simp] lemma checkConsumed_eq_nil (e : ε) :
    checkConsumed K e = [] ↔ K.consumedByTranslator e = false := by
  cases h : K.consumedByTranslator e <;> simp [checkConsumed, h]

/-- A list of members with commas. -/
private lemma foldl_continueEventCommaList (x : List ε × List String) (rest : List ε) :
    rest.foldl (continueEventCommaList K) x =
      (x.1 ++ rest, x.2 ++ rest.flatMap (checkShared K)) := by
  induction rest generalizing x with
  | nil => simp
  | cons e rest ih =>
    rw [List.foldl_cons, ih]
    simp [continueEventCommaList]

/-- A vector in parentheses. -/
lemma EventVector.read_vector (first : ε) (rest : List ε) (last : ε) :
    (EventVector.vector first rest last).read K =
      (first :: rest ++ [last],
        (first :: rest).flatMap (checkShared K) ++ checkConsumed K last) := by
  rw [EventVector.read, foldl_continueEventCommaList]
  simp [startEventCommaList]

/-- A vector is read without errors if no member that is looked at is refused. -/
private lemma EventVector.read_snd_eq_nil (v : EventVector ε) :
    (v.read K).2 = [] ↔ ¬ v.CheckedAtFault K := by
  cases v with
  | all => simp [EventVector.read, EventVector.CheckedAtFault]
  | scalar e => simp [EventVector.read, EventVector.CheckedAtFault]
  | vector first rest last =>
    rw [EventVector.read_vector, EventVector.CheckedAtFault, not_or, List.append_eq_nil_iff,
      List.flatMap_eq_nil_iff, checkConsumed_eq_nil, Bool.not_eq_true]
    simp only [checkShared_eq_nil, not_exists, not_and, Bool.not_eq_true]

/-- A matrix is read without errors. -/
lemma ActionMatrix.errors_eq_nil (m : ActionMatrix ε σ) :
    m.errors K = [] ↔ ¬ m.events.CheckedAtFault K ∧
      ¬ (m.action ≠ "" ∧ m.states.any K.implementedBySubMachine) := by
  rw [ActionMatrix.errors, List.append_eq_nil_iff, EventVector.read_snd_eq_nil]
  apply and_congr_right'
  by_cases h : m.action ≠ "" ∧ m.states.any K.implementedBySubMachine
  · rw [if_pos h]
    exact ⟨fun hcons => absurd hcons (by simp), fun hnot => absurd h hnot⟩
  · rw [if_neg h]
    exact ⟨fun _ => h, fun _ => rfl⟩

/-- Where no member that is looked at is refused, the others decide. -/
private lemma ActionMatrix.admissible_iff {m : ActionMatrix ε σ} (h : ¬ m.events.CheckedAtFault K) :
    m.Admissible K ↔ m.events.UncheckedInOrder K := by
  have hadmissible : m.Admissible K ↔
      (∀ e ∈ K.expandEvents (m.actionInfo K), K.consumedByTranslator e = false) ∧
        ∀ e ∈ m.events.vectorMembers, K.sharedBySubMachines e = false :=
    ⟨fun h => ⟨h.1, h.2⟩, fun h => ⟨h.1, h.2⟩⟩
  rw [hadmissible]
  unfold MachineMatrix.expandEvents ActionMatrix.actionInfo
  cases hv : m.events with
  | all =>
    -- ALL is filled in with what is not consumed
    simp [EventVector.read, EventVector.vectorMembers, EventVector.UncheckedInOrder]
  | scalar e =>
    rw [hv, EventVector.CheckedAtFault, Bool.not_eq_true] at h
    simp [EventVector.read, EventVector.vectorMembers, EventVector.UncheckedInOrder, h]
  | vector first rest last =>
    rw [hv, EventVector.CheckedAtFault, not_or, Bool.not_eq_true] at h
    obtain ⟨hshared, hlast⟩ := h
    rw [EventVector.read_vector, if_neg (by simp), EventVector.vectorMembers,
      EventVector.UncheckedInOrder]
    constructor
    · rintro ⟨hconsumed, hnot⟩
      exact ⟨fun e he => hconsumed e (List.mem_append_left _ he), hnot last (by simp)⟩
    · rintro ⟨hconsumed, hnot⟩
      constructor
      · intro e he
        rcases List.mem_append.mp he with he | he
        · exact hconsumed e he
        · exact (List.mem_singleton.mp he) ▸ hlast
      · intro e he
        rcases List.mem_append.mp he with he | he
        · by_contra hne
          exact hshared ⟨e, he, by simpa using hne⟩
        · exact (List.mem_singleton.mp he) ▸ hnot

/-- **The two checks.** A matrix that is read without errors has no consumed event and no shared
member of a vector, if and only if the members that are not looked at are in order, or else the
matrix is refused for another one or for its states. -/
theorem ActionMatrix.admitted_iff (K : MatrixScope ε σ) (m : ActionMatrix ε σ) :
    (m.errors K = [] → m.Admissible K) ↔
      m.events.UncheckedInOrder K ∨ m.events.CheckedAtFault K ∨
        (m.action ≠ "" ∧ m.states.any K.implementedBySubMachine = true) := by
  rw [ActionMatrix.errors_eq_nil]
  by_cases hfault : m.events.CheckedAtFault K
  · simp [hfault]
  · by_cases hstates : m.action ≠ "" ∧ m.states.any K.implementedBySubMachine = true
    · exact ⟨fun _ => .inr (.inr hstates), fun _ hread => absurd hstates hread.2⟩
    · rw [imp_iff_right ⟨hfault, hstates⟩, ActionMatrix.admissible_iff hfault,
        or_iff_left (not_or_intro hfault hstates)]

/-- The events `0`, which is consumed, and `1`, which is shared; the vector has the one before and
the other after its comma. -/
theorem not_admitted_vector :
    ¬ ∀ (K : MatrixScope ℕ ℕ) (m : ActionMatrix ℕ ℕ), m.errors K = [] → m.Admissible K := by
  intro h
  have hadmissible := h
    { eventList := [0, 1]
      stateList := [0]
      consumedByTranslator := fun e => decide (e = 0)
      implementedBySubMachine := fun _ => false
      actionInfoList := []
      sharedBySubMachines := fun e => decide (e = 1) }
    { action := "act", events := .vector 0 [] 1, states := [0] } (by decide)
  exact absurd (hadmissible.notShared 1 (by decide)) (by decide)

end Grammar

/-! ## Stubs -/

/-- A machine of a tree with its matrices in the order of their declaration. Events and states go
by their names. -/
structure MatrixMachine (top : Machine) (D : Sharing) where
  path : List ℕ
  machine : Machine
  at_path : top.sub? path = some machine
  consumedByTranslator : String → Bool := fun _ => false
  implementedBySubMachine : String → Bool := fun _ => false
  matrices : List (ActionMatrix String String)

/-- A statement of a stub. -/
inductive WeakStatement where
  | debugPrintf
  | unusedParameter
  | passSharedEvent (returned : Bool) (sharers : String)
  | returnNoTransition
  | returnNoEvent
  deriving DecidableEq, Repr

/-- The sharing lists that statements pass. -/
def passedLists (body : List WeakStatement) : List String :=
  body.filterMap fun
    | .passSharedEvent _ sharers => some sharers
    | _ => none

/-- The entries of an action, the one that was read last first. -/
def actionInfoChain {ε σ : Type*} (l : List (ActionInfo ε σ)) (action : String) :
    List (ActionInfo ε σ) :=
  l.foldl (fun chain pai => if pai.action = action then pai :: chain else chain) []

/-- The last entry of an action is the first of its chain. -/
lemma actionInfoChain_eq_head {ε σ : Type*} (l r : List (ActionInfo ε σ)) {pai : ActionInfo ε σ}
    {action : String} (hpai : pai.action = action) (hr : ∀ q ∈ r, q.action ≠ action) :
    (actionInfoChain (l ++ pai :: r) action).head? = some pai := by
  have hrest : ∀ chain : List (ActionInfo ε σ),
      r.foldl (fun chain pai => if pai.action = action then pai :: chain else chain) chain =
        chain := by
    intro chain
    induction r with
    | nil => rfl
    | cons q r ih =>
      rw [List.foldl_cons, if_neg (hr q (by simp))]
      exact ih fun q hq => hr q (List.mem_cons_of_mem _ hq)
  rw [actionInfoChain, List.foldl_append, List.foldl_cons, if_pos hpai, hrest, List.head?_cons]

/-- An action that has entries has a last one. -/
private lemma exists_last_entry {ε σ : Type*} {l : List (ActionInfo ε σ)} {action : String}
    (h : ∃ pai ∈ l, pai.action = action) :
    ∃ l₁ pai l₂, l = l₁ ++ pai :: l₂ ∧ pai.action = action ∧ ∀ q ∈ l₂, q.action ≠ action := by
  induction l with
  | nil => simp at h
  | cons p l ih =>
    by_cases hl : ∃ pai ∈ l, pai.action = action
    · obtain ⟨l₁, pai, l₂, rfl, hpai, hl₂⟩ := ih hl
      exact ⟨p :: l₁, pai, l₂, rfl, hpai, hl₂⟩
    · obtain ⟨pai, hmem, hpai⟩ := h
      rcases List.mem_cons.mp hmem with rfl | hmem
      · exact ⟨[], pai, l, rfl, hpai, fun q hq hqa => hl ⟨q, hq, hqa⟩⟩
      · exact absurd ⟨pai, hmem, hpai⟩ hl

namespace MatrixMachine

variable {top : Machine} {D : Sharing} (X : MatrixMachine top D)

/-- What is known when the matrices are read. The machine's sub-machines have been read before. -/
def scope : MatrixScope String String where
  eventList := X.machine.eventList.map (·.name)
  stateList := X.machine.stateList.map (·.name)
  consumedByTranslator := X.consumedByTranslator
  implementedBySubMachine := X.implementedBySubMachine
  actionInfoList := []
  sharedBySubMachines name := !(psharingSubMachines D X.path X.machine name).isEmpty

/-- The machine's matrix. -/
def matrix : MachineMatrix String String :=
  { X.scope.toMachineMatrix with actionInfoList := X.matrices.map (·.actionInfo X.scope) }

/-- The data translator of an event. -/
def translator (name : String) : Option (Option ℕ) := (D X.path X.machine).translator name

/-- The sub-machines an event is shared with. -/
def sharers (name : String) : List (ℕ × Machine) := psharingSubMachines D X.path X.machine name

/-- The name of the list of an event's sharers. -/
def sharingList (name : String) : String := "sharing_" ++ X.machine.info.name ++ "_" ++ name

/-- The stub of an action. It follows the pointers to the action's entry, and to the first event of
this one; the walk over the event's sharers may follow one too. -/
def defineWeakActionFunction (action : String) : Option (List WeakStatement) :=
  (actionInfoChain X.matrix.actionInfoList action).head?.bind fun pai =>
    (X.matrix.expandEvents pai).head?.bind fun pevent =>
      (iterateTest (findLegitimateSharer (X.translator pevent)) (X.sharers pevent)).map fun found =>
        [.debugPrintf, .unusedParameter] ++
          if found then
            .passSharedEvent (X.machine.actionsReturn = .events) (X.sharingList pevent) ::
              if X.machine.actionsReturn = .states then [.returnNoTransition] else []
          else
            match X.machine.actionsReturn with
            | .void => []
            | .states => [.returnNoTransition]
            | .events => [.returnNoEvent]

/-- An event has a sharer that implements neither a state nor the event's translator. -/
def HasLegitimateSharer (name : String) : Prop := PlainlyShared top D X.path X.machine name

/-- The stub of the action does what is to be done for the event. -/
def StubServes (action event : String) : Prop :=
  ∃ body, X.defineWeakActionFunction action = some body ∧
    (X.HasLegitimateSharer event → passedLists body = [X.sharingList event]) ∧
    (¬ X.HasLegitimateSharer event → passedLists body = [])

/-- The stubs do what is to be done in every cell with an action. -/
def WeakStubsRight : Prop :=
  ∀ e ∈ X.matrix.eventList, ∀ s ∈ X.matrix.stateList, ∀ idx pai,
    (populateActionArray X.matrix).cell (X.matrix.eventOrder e) (X.matrix.stateOrder s) =
      some idx → X.matrix.actionInfoList[idx]? = some pai → pai.action ≠ "" →
        X.StubServes pai.action e

/-- No null pointer is followed before a legitimate sharer is found: a sharer that implements
another translator, while the event's own is a plain function, has a legitimate one before it. -/
def SharersLookUp (name : String) : Prop :=
  ∀ before k S after, X.sharers name = before ++ (k, S) :: after →
    S.info.stateImplementing = false → S.info.translatorImplementing = true →
      X.translator name = some none → before.any (isPlainSharer (X.translator name)) = true

/-- The first event of the action's last matrix will do for the event: it is the event, or neither
of them is to be handed on. -/
def LastEntryFits (action event : String) : Prop :=
  ∃ before pai after first, X.matrix.actionInfoList = before ++ pai :: after ∧
    pai.action = action ∧ (∀ q ∈ after, q.action ≠ action) ∧
    (X.matrix.expandEvents pai).head? = some first ∧ X.SharersLookUp first ∧
    (first = event ∨ ¬ X.HasLegitimateSharer first ∧ ¬ X.HasLegitimateSharer event)

variable {X}

/-- A sharer that cannot be looked up. -/
lemma findLegitimateSharer_eq_none {t : Option (Option ℕ)} {k : ℕ} {S : Machine} :
    findLegitimateSharer t (k, S) = none ↔ S.info.stateImplementing = false ∧
      S.info.translatorImplementing = true ∧ t = some none := by
  unfold findLegitimateSharer implementsTranslator
  cases S.info.stateImplementing
  · cases S.info.translatorImplementing
    · simp
    · rcases t with _ | _ | j <;> simp
  · simp

/-- A sharer that can be looked up. -/
lemma eq_isPlainSharer {t : Option (Option ℕ)} {k : ℕ} {S : Machine} {b : Bool}
    (h : findLegitimateSharer t (k, S) = some b) : b = isPlainSharer t (k, S) := by
  unfold findLegitimateSharer at h
  unfold isPlainSharer
  cases hstate : S.info.stateImplementing with
  | true => simpa [hstate] using h.symm
  | false =>
    have hlook : S.info.translatorImplementing = true → t ≠ some none := by
      rintro htranslator rfl
      simp [hstate, implementsTranslator, htranslator] at h
    rw [hstate, if_neg (by simp), implementsTranslator_eq hlook, Option.map_some] at h
    simpa using (Option.some.inj h).symm

/-- When the walk over the sharers returns. -/
lemma sharersLookUp_iff (name : String) : X.SharersLookUp name ↔
    iterateTest (findLegitimateSharer (X.translator name)) (X.sharers name) ≠ none := by
  rw [Ne, iterateTest_eq_none_iff]
  constructor
  · rintro h ⟨before, ⟨k, S⟩, after, heq, hnone, hbefore⟩
    obtain ⟨hstate, hflag, htranslator⟩ := findLegitimateSharer_eq_none.mp hnone
    obtain ⟨⟨j, T⟩, hmem, hplain⟩ :=
      List.any_eq_true.mp (h before k S after heq hstate hflag htranslator)
    have hfalse := eq_isPlainSharer (hbefore (j, T) hmem)
    simp [hplain] at hfalse
  · intro h before k S after heq hstate hflag htranslator
    by_contra hany
    refine h ⟨before, (k, S), after, heq,
      findLegitimateSharer_eq_none.mpr ⟨hstate, hflag, htranslator⟩, ?_⟩
    rintro ⟨j, T⟩ hmem
    have hplain : isPlainSharer (X.translator name) (j, T) = false := by
      by_contra hplain
      exact hany (List.any_eq_true.mpr ⟨_, hmem, by simpa using hplain⟩)
    cases hfind : findLegitimateSharer (X.translator name) (j, T) with
    | some b => rw [eq_isPlainSharer hfind, hplain]
    | none =>
      -- one that cannot be looked up is not the one that implements the translator
      obtain ⟨hstate, -, htranslator⟩ := findLegitimateSharer_eq_none.mp hfind
      simp [isPlainSharer, hstate, htranslator] at hplain

/-- The lists that the stub passes, where the walk returns. -/
lemma passedLists_defineWeakActionFunction {action : String} {pai : ActionInfo String String}
    {first : String} (hpai : (actionInfoChain X.matrix.actionInfoList action).head? = some pai)
    (hfirst : (X.matrix.expandEvents pai).head? = some first) (hlook : X.SharersLookUp first) :
    ∃ body, X.defineWeakActionFunction action = some body ∧
      (X.HasLegitimateSharer first → passedLists body = [X.sharingList first]) ∧
      (¬ X.HasLegitimateSharer first → passedLists body = []) := by
  obtain ⟨found, hfound⟩ := Option.ne_none_iff_exists'.mp ((sharersLookUp_iff first).mp hlook)
  have hany := eq_any_of_iterateTest
    (g := isPlainSharer (X.translator first)) (fun s _ b hb => eq_isPlainSharer hb) hfound
  have hplain : found = true ↔ X.HasLegitimateSharer first := by
    rw [hany]
    exact any_isPlainSharer_iff X.at_path first
  refine ⟨_, by rw [defineWeakActionFunction, hpai, Option.bind_some, hfirst, Option.bind_some,
    hfound, Option.map_some], ?_, ?_⟩
  · intro h
    rw [if_pos (hplain.mpr h)]
    cases X.machine.actionsReturn <;> simp [passedLists]
  · intro h
    rw [if_neg (mt hplain.mp h)]
    cases X.machine.actionsReturn <;> simp [passedLists]

/-- A stub is printed only if its pointers can be followed. -/
private lemma exists_first_of_isSome {action : String} {pai : ActionInfo String String}
    (hpai : (actionInfoChain X.matrix.actionInfoList action).head? = some pai)
    (h : (X.defineWeakActionFunction action).isSome = true) :
    ∃ first, (X.matrix.expandEvents pai).head? = some first ∧ X.SharersLookUp first := by
  rw [defineWeakActionFunction, hpai, Option.bind_some, Option.isSome_bind] at h
  cases hfirst : (X.matrix.expandEvents pai).head? with
  | none => simp [hfirst] at h
  | some first =>
    rw [hfirst, Option.any_some, Option.isSome_map] at h
    refine ⟨first, rfl, (sharersLookUp_iff first).mpr ?_⟩
    exact Option.ne_none_iff_isSome.mpr h

/-- Different events have different sharing lists. -/
private lemma sharingList_inj {a b : String} (h : X.sharingList a = X.sharingList b) : a = b :=
  (String.append_right_inj _).mp h

/-- The stub of an action that has an entry. -/
lemma stubServes_iff {action : String} (hentry : ∃ pai ∈ X.matrix.actionInfoList,
    pai.action = action) (event : String) :
    X.StubServes action event ↔ X.LastEntryFits action event := by
  constructor
  · rintro ⟨body, hbody, hshared, hnot⟩
    obtain ⟨before, pai, after, hlist, hpai, hafter⟩ := exists_last_entry hentry
    have hhead := actionInfoChain_eq_head before after hpai hafter
    rw [← hlist] at hhead
    obtain ⟨first, hfirst, hlook⟩ := exists_first_of_isSome hhead (by simp [hbody])
    refine ⟨before, pai, after, first, hlist, hpai, hafter, hfirst, hlook, ?_⟩
    obtain ⟨body', hbody', hshared', hnot'⟩ :=
      passedLists_defineWeakActionFunction hhead hfirst hlook
    obtain rfl : body' = body := Option.some.inj (hbody'.symm.trans hbody)
    by_cases hfirstShared : X.HasLegitimateSharer first
    · have hpassed := hshared' hfirstShared
      by_cases heventShared : X.HasLegitimateSharer event
      · have hlists := hpassed.symm.trans (hshared heventShared)
        exact .inl (sharingList_inj (List.cons.inj hlists).1)
      · simp [hnot heventShared] at hpassed
    · have hpassed := hnot' hfirstShared
      refine .inr ⟨hfirstShared, fun heventShared => ?_⟩
      simp [hshared heventShared] at hpassed
  · rintro ⟨before, pai, after, first, hlist, hpai, hafter, hfirst, hlook, hfits⟩
    have hhead := actionInfoChain_eq_head before after hpai hafter
    rw [← hlist] at hhead
    obtain ⟨body, hbody, hshared, hnot⟩ :=
      passedLists_defineWeakActionFunction hhead hfirst hlook
    refine ⟨body, hbody, ?_⟩
    rcases hfits with rfl | ⟨hfirstNot, heventNot⟩
    · exact ⟨hshared, hnot⟩
    · exact ⟨fun h => absurd h heventNot, fun _ => hnot hfirstNot⟩

/-- **The stubs.** They do what is to be done in every cell if and only if for every cell with an
action the first event of the action's last matrix will do.

**Proof sketch.** The stub follows the chain of the action's entries to its head, the entry that
was read last, and passes the list of that entry's first event, if there is one. As the lists of
different events have different names, this is right for the event of another cell only if neither
event has a list. -/
theorem weakStubs_right_iff {top : Machine} {D : Sharing} (X : MatrixMachine top D) :
    X.WeakStubsRight ↔
      ∀ e ∈ X.matrix.eventList, ∀ s ∈ X.matrix.stateList, ∀ idx pai,
        (populateActionArray X.matrix).cell (X.matrix.eventOrder e) (X.matrix.stateOrder s) =
          some idx → X.matrix.actionInfoList[idx]? = some pai → pai.action ≠ "" →
            X.LastEntryFits pai.action e := by
  constructor
  · intro h e he s hs idx pai hcell hpai haction
    exact (stubServes_iff ⟨pai, List.mem_of_getElem? hpai, rfl⟩ e).mp
      (h e he s hs idx pai hcell hpai haction)
  · intro h e he s hs idx pai hcell hpai haction
    exact (stubServes_iff ⟨pai, List.mem_of_getElem? hpai, rfl⟩ e).mpr
      (h e he s hs idx pai hcell hpai haction)

/-- What the parser has seen to: the machines have events and states, the matrices are read without
errors, they name the machine's events and states, and no cell is named twice. -/
structure Accepted (X : MatrixMachine top D) : Prop where
  tree : top.Accepted
  read : ∀ m ∈ X.matrices, m.errors X.scope = []
  declared : X.matrix.Declared
  populated : (populateActionArray X.matrix).error = false

/-! ### An action for a shared event and for another one -/

/-- A machine with an event `e`, which its sub-machine shares, and another one, `f`. -/
def sharingMachine : Machine :=
  .mk { name := "top", eventList := [{ name := "e" }, { name := "f" }]
        stateList := [{ name := "s" }] }
    [plainMachine "Y" "e" "y" []]

/-- The sharing of this machine. -/
def sharingOfE : Sharing := fun path _ =>
  { parentReference := fun _ => path ≠ []
    translator := fun _ => none }

/-- The machine with an action for both events, for the shared one first. -/
def twoMatrixMachine : MatrixMachine sharingMachine sharingOfE where
  path := []
  machine := sharingMachine
  at_path := rfl
  matrices := [{ action := "act", events := .scalar "e", states := ["s"] },
    { action := "act", events := .scalar "f", states := ["s"] }]

/-- The stub of the action does not pass the event on. -/
theorem not_weakStubsRight_twoMatrixMachine :
    ¬ ∀ (top : Machine) (D : Sharing) (X : MatrixMachine top D), X.Accepted → X.WeakStubsRight := by
  intro h
  have hright := h _ _ twoMatrixMachine
    ⟨by simp [sharingMachine, plainMachine, Machine.Accepted, Machine.AcceptedList],
      by decide, by unfold MachineMatrix.Declared; decide, by decide⟩
  obtain ⟨body, hbody, hshared, -⟩ := hright "e" (by decide) "s" (by decide) 0
    ⟨"act", none, ["e"], ["s"]⟩ (by decide) (by decide) (by decide)
  have hlegitimate : twoMatrixMachine.HasLegitimateSharer "e" :=
    (any_isPlainSharer_iff twoMatrixMachine.at_path "e").mp (by decide)
  have hpassed := hshared hlegitimate
  obtain rfl : [.debugPrintf, .unusedParameter, .returnNoEvent] = body :=
    Option.some.inj ((by decide : twoMatrixMachine.defineWeakActionFunction "act" = _).symm.trans
      hbody)
  exact absurd hpassed (by decide)

end MatrixMachine

end FsmLang
