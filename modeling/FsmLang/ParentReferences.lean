import Mathlib.Data.List.Nodup
import Mathlib.Tactic
import FsmLang.Machine

set_option relaxedAutoImplicit false
set_option autoImplicit false

/-!
# References to a parent's events

A sub-machine refers to an event of its parent as `parent::event`, in a statement of its own or
after a comma in a list. A reference gets an identifier of the sub-machine, is added to its event
list, and lets the parent's event know of the sub-machine.

`add_unique_id` is to say whether the identifier is new. It keeps the code that the look-up returns
in a `bool`, so that it says true for every name, and a second reference is taken for a first one.

Two rules of the grammar have the same effects written out. The one for references after a comma
has no counters of the sub-machines that implement states or translators, and does not tell the
translator its event.

## Main definitions

* `lookupId`, `addUniqueId` — the identifiers of a machine.
* `Declarations` — what references change.
* `parentEvent`, `commaParentEvent` — the two rules; `eventDecl` — a statement.
* `FreshNames` — no name is known when it is referred to.

## Main results

* `addUniqueId_fst` — what `add_unique_id` says.
* `referencesRight_iff` — when this is right.
* `inOneStatement_eq_onePerStatement_iff` — when one statement does what many do.
-/

namespace FsmLang

/-! ## Identifiers -/

/-- An identifier with the number of its token. -/
structure IdInfo where
  name : String
  type : ℕ
  deriving DecidableEq, Repr

/-- The number of no token: a name that is not found. -/
def LOOKUP : ℕ := 0

/-- The identifiers' names. -/
def idNames (idList : List IdInfo) : List String := idList.map (·.name)

/-- The type of the first identifier of the name, and its place. -/
def lookupId (idList : List IdInfo) (name : String) : ℕ × Option ℕ :=
  match idList.findIdx? (·.name = name) with
  | some pid => (((idList[pid]?).map (·.type)).getD LOOKUP, some pid)
  | none => (LOOKUP, none)

/-- Add an identifier unless there is one of its name; the place of the identifier. -/
def addId (idList : List IdInfo) (type : ℕ) (name : String) : List IdInfo × ℕ :=
  match lookupId idList name with
  | (code, pid) =>
    if code = LOOKUP then (idList ++ [⟨name, type⟩], idList.length) else (idList, pid.getD 0)

/-- Add an identifier, and say whether it is new. What the look-up returns is assigned to a `bool`
before it is compared. -/
def addUniqueId (idList : List IdInfo) (type : ℕ) (name : String) : Bool × List IdInfo × ℕ :=
  match lookupId idList name with
  | (code, pid) =>
    let retVal := decide (code ≠ 0)
    if retVal.toNat = LOOKUP then (true, idList ++ [⟨name, type⟩], idList.length)
    else (retVal, idList, pid.getD 0)

/-- **What `add_unique_id` says.** -/
lemma addUniqueId_fst (idList : List IdInfo) (type : ℕ) (name : String) :
    (addUniqueId idList type name).1 = true := by
  by_cases hcode : (lookupId idList name).1 = 0 <;> simp [addUniqueId, LOOKUP, hcode]

/-- A name that is not there is added. -/
lemma addUniqueId_of_notMem {idList : List IdInfo} {name : String} (h : name ∉ idNames idList)
    (type : ℕ) : addUniqueId idList type name =
      (true, idList ++ [⟨name, type⟩], idList.length) := by
  have hfind : idList.findIdx? (·.name = name) = none := by
    rw [List.findIdx?_eq_none_iff]
    intro x hx
    have hne : x.name ≠ name := by
      rintro rfl
      exact h (List.mem_map_of_mem hx)
    simpa using hne
  simp [addUniqueId, lookupId, hfind, LOOKUP]

/-! ## References -/

/-- A reference to an event of the parent with its document comment and its user event data: the
translator, whether it consumes the event, and the data fields. Reading these adds identifiers. -/
structure ParentReference where
  name : String
  docCmnt : Option String := none
  translator : Option String := none
  consuming : Bool := false
  dataFields : List String := []
  identifiers : List IdInfo := []
  deriving DecidableEq, Repr

/-- What the sub-machine and its parent are. -/
structure SubMachineKind where
  name : String
  stateImplementing : Bool := false
  translatorImplementing : Bool := false
  actionsReturn : ActionsReturn := .events
  translatorsReturnEvents : Bool := false
  parentTranslatorsReturnEvents : Bool := false
  parentHasData : Bool := true
  deriving DecidableEq, Repr

/-- The record of an event. -/
structure EventRecord where
  docCmnt : Option String := none
  translator : Option String := none
  dataFields : List String := []
  sharedWithParent : Bool := false
  parentEvent : Option String := none
  consumedByTranslator : Bool := false
  deriving DecidableEq, Repr

/-- What references change: the sub-machine's identifiers, records and event list; for each event of
the parent the sub-machines it is shared with, and the two counters; the number of sub-machines
that want the parent's data; the event of each translator; and the errors. -/
structure Declarations where
  idList : List IdInfo
  record : ℕ → EventRecord
  eventDecls : List ℕ
  psharingSubMachines : String → List String
  stateImplementingSharerCount : String → ℕ
  translatorImplementingSharerCount : String → ℕ
  submachinesWantingParentDataCount : ℕ
  pevent : String → Option ℕ
  errors : List String

namespace Declarations

/-- One more at one place. -/
def increment (f : String → ℕ) (k : String) : String → ℕ := Function.update f k (f k + 1)

/-- A count after an increment. -/
lemma increment_apply (f : String → ℕ) (k e : String) :
    increment f k e = f e + if k == e then 1 else 0 := by
  by_cases h : k = e
  · subst h
    simp [increment]
  · simp [increment, h, Ne.symm h]

variable (K : SubMachineKind) (event : ℕ)

/-- The identifiers after reading the user event data of a reference. -/
def readIdentifiers (idList : List IdInfo) (r : ParentReference) : List IdInfo :=
  r.identifiers.foldl (fun l x => (addId l x.type x.name).1) idList

/-- Read the user event data (`data_translator_common`). -/
def userEventData (S : Declarations) (r : ParentReference) : Declarations :=
  { S with
    idList := readIdentifiers S.idList r
    submachinesWantingParentDataCount :=
      S.submachinesWantingParentDataCount + if r.translator.isSome then 1 else 0
    errors := S.errors ++
      if r.translator.isSome && !K.parentHasData then
        ["data translator declared for sub-machine having parent with no data"] else [] }

/-- What both rules do: the sub-machine's record, with its place. -/
def addReference (S : Declarations) (r : ParentReference) : Declarations × ℕ :=
  let x := addUniqueId S.idList event r.name
  ({ S with
      idList := x.2.1
      record := Function.update S.record x.2.2
        { docCmnt := r.docCmnt
          translator := r.translator
          dataFields := r.dataFields
          sharedWithParent := true
          parentEvent := some r.name
          consumedByTranslator :=
            if r.translator.isSome then r.consuming else (S.record x.2.2).consumedByTranslator }
      psharingSubMachines := Function.update S.psharingSubMachines r.name
        (S.psharingSubMachines r.name ++ [K.name])
      errors := S.errors ++ if x.1 then [] else ["Cannot reference parent event twice"] }, x.2.2)

/-- Tell the translator its event. -/
def linkTranslator (S : Declarations) (r : ParentReference) (pid : ℕ) : Declarations :=
  { S with
    pevent :=
      match r.translator with
      | none => S.pevent
      | some t => Function.update S.pevent t (some pid) }

/-- Count a sharer that implements a state. -/
def countStateImplementing (S : Declarations) (r : ParentReference) : Declarations :=
  { S with
    stateImplementingSharerCount :=
      if K.stateImplementing then increment S.stateImplementingSharerCount r.name
      else S.stateImplementingSharerCount }

/-- Why the machine may not implement a translator. -/
def translatorImplementingError : Option String :=
  if K.actionsReturn = .states ∧ K.translatorsReturnEvents then
    some ("Translator implementing sub-machine may not have " ++
      "actions which return states when translators return events.")
  else if K.actionsReturn = .void ∧ K.parentTranslatorsReturnEvents then
    some ("It does not make sense to implement data translators " ++
      "which return events with sub-machines which do not.")
  else if ¬ K.parentTranslatorsReturnEvents ∧ K.actionsReturn = .events then
    some ("It does not make sense to implement data translators " ++
      "which return void with sub-machines which return events.")
  else none

/-- Count a sharer that implements a translator, or report why it may not. -/
def countTranslatorImplementing (S : Declarations) (r : ParentReference) : Declarations :=
  { S with
    translatorImplementingSharerCount :=
      if K.translatorImplementing && (translatorImplementingError K).isNone then
        increment S.translatorImplementingSharerCount r.name
      else S.translatorImplementingSharerCount
    errors := S.errors ++
      if K.translatorImplementing then (translatorImplementingError K).toList else [] }

/-- The rule for a reference that begins a list, with the list. -/
def parentEvent (S : Declarations) (r : ParentReference) : Declarations × List ℕ :=
  let x := (S.userEventData K r).addReference K event r
  (((x.1.linkTranslator r x.2).countStateImplementing K r).countTranslatorImplementing K r, [x.2])

/-- The rule for a reference after a comma. -/
def commaParentEvent (x : Declarations × List ℕ) (r : ParentReference) : Declarations × List ℕ :=
  let y := (x.1.userEventData K r).addReference K event r
  (y.1, x.2 ++ [y.2])

/-- A statement with a list of references, which is moved to the machine's event list. -/
def eventDecl (S : Declarations) (r : ParentReference) (rs : List ParentReference) : Declarations :=
  let x := rs.foldl (commaParentEvent K event) (S.parentEvent K event r)
  { x.1 with eventDecls := x.1.eventDecls ++ x.2 }

/-- The references in one statement. -/
def inOneStatement (S : Declarations) : List ParentReference → Declarations
  | [] => S
  | r :: rs => S.eventDecl K event r rs

/-- The references with one statement for each. -/
def onePerStatement (S : Declarations) (refs : List ParentReference) : Declarations :=
  refs.foldl (fun S r => S.eventDecl K event r []) S

/-- Statements with lists of references. -/
def statements (S : Declarations) (lists : List (List ParentReference)) : Declarations :=
  lists.foldl (inOneStatement K event) S

/-! ## One statement or many -/

section Statements

/-- The errors found in reading the user event data. -/
def userEventDataErrors (K : SubMachineKind) (r : ParentReference) : ℕ :=
  if r.translator.isSome && !K.parentHasData then 1 else 0

/-- Counters, translators' events and errors of `T`, compared with those of `S`. -/
structure Advances (S T : Declarations) (states translators : String → ℕ)
    (pevent : String → Option ℕ) (errors : ℕ) : Prop where
  states : T.stateImplementingSharerCount = states
  translators : T.translatorImplementingSharerCount = translators
  pevent : T.pevent = pevent
  errors : T.errors.length = S.errors.length + errors

/-- What both rules do leaves the counters and the translators' events alone. -/
lemma advances_addReference (S : Declarations) (r : ParentReference) :
    Advances S ((S.userEventData K r).addReference K event r).1 S.stateImplementingSharerCount
      S.translatorImplementingSharerCount S.pevent (userEventDataErrors K r) := by
  refine ⟨rfl, rfl, rfl, ?_⟩
  simp only [addReference, addUniqueId_fst, userEventData, userEventDataErrors]
  split_ifs <;> simp

/-- So does the rule for references after a comma. -/
private lemma advances_foldl_commaParentEvent (x : Declarations × List ℕ)
    (rs : List ParentReference) :
    Advances x.1 (rs.foldl (commaParentEvent K event) x).1 x.1.stateImplementingSharerCount
      x.1.translatorImplementingSharerCount x.1.pevent (rs.map (userEventDataErrors K)).sum := by
  induction rs generalizing x with
  | nil => exact ⟨rfl, rfl, rfl, rfl⟩
  | cons r rs ih =>
    have hstep := advances_addReference K event x.1 r
    have hrest := ih (commaParentEvent K event x r)
    refine ⟨hrest.states.trans hstep.states, hrest.translators.trans hstep.translators,
      hrest.pevent.trans hstep.pevent, ?_⟩
    rw [List.foldl_cons, hrest.errors, List.map_cons, List.sum_cons, ← add_assoc, ← hstep.errors]
    rfl

/-- The rule for the first reference of a list counts the machine, and tells the translator. -/
private lemma advances_parentEvent (S : Declarations) (r : ParentReference) :
    ∃ pid, Advances S (S.parentEvent K event r).1
      (if K.stateImplementing then increment S.stateImplementingSharerCount r.name
        else S.stateImplementingSharerCount)
      (if K.translatorImplementing && (translatorImplementingError K).isNone then
          increment S.translatorImplementingSharerCount r.name
        else S.translatorImplementingSharerCount)
      (match r.translator with
        | none => S.pevent
        | some t => Function.update S.pevent t (some pid))
      (userEventDataErrors K r +
        if K.translatorImplementing && (translatorImplementingError K).isSome then 1 else 0) := by
  have hadd := advances_addReference K event S r
  obtain ⟨hstates, htranslators, hpevent, herrors⟩ := hadd
  refine ⟨((S.userEventData K r).addReference K event r).2, ?_, ?_, ?_, ?_⟩ <;>
    unfold parentEvent
  · simp only [countTranslatorImplementing, countStateImplementing, linkTranslator, hstates]
  · simp only [countTranslatorImplementing, countStateImplementing, linkTranslator, htranslators]
  · simp only [countTranslatorImplementing, countStateImplementing, linkTranslator, hpevent]
  · simp only [countTranslatorImplementing, countStateImplementing, linkTranslator,
      List.length_append, herrors, add_assoc]
    cases K.translatorImplementing <;> cases translatorImplementingError K <;> rfl

/-- A statement counts its first reference, and links the translator of this one. -/
lemma advances_eventDecl (S : Declarations) (r : ParentReference) (rs : List ParentReference) :
    ∃ pid, Advances S (S.eventDecl K event r rs)
      (if K.stateImplementing then increment S.stateImplementingSharerCount r.name
        else S.stateImplementingSharerCount)
      (if K.translatorImplementing && (translatorImplementingError K).isNone then
          increment S.translatorImplementingSharerCount r.name
        else S.translatorImplementingSharerCount)
      (match r.translator with
        | none => S.pevent
        | some t => Function.update S.pevent t (some pid))
      (((r :: rs).map (userEventDataErrors K)).sum +
        if K.translatorImplementing && (translatorImplementingError K).isSome then 1 else 0) := by
  obtain ⟨pid, hfirst⟩ := advances_parentEvent K event S r
  have hrest := advances_foldl_commaParentEvent K event
    (S.parentEvent K event r) rs
  refine ⟨pid, hrest.states.trans hfirst.states, hrest.translators.trans hfirst.translators,
    hrest.pevent.trans hfirst.pevent, hrest.errors.trans ?_⟩
  rw [hfirst.errors, List.map_cons, List.sum_cons]
  omega

/-- Statements with one reference each count all of them, and tell all translators. -/
private lemma onePerStatement_spec (S : Declarations) (refs : List ParentReference) :
    (∀ e, (S.onePerStatement K event refs).stateImplementingSharerCount e =
      S.stateImplementingSharerCount e +
        if K.stateImplementing then (refs.map (·.name)).count e else 0) ∧
    (∀ e, (S.onePerStatement K event refs).translatorImplementingSharerCount e =
      S.translatorImplementingSharerCount e +
        if K.translatorImplementing && (translatorImplementingError K).isNone then
          (refs.map (·.name)).count e else 0) ∧
    (∀ t, (S.pevent t).isSome ∨ (∃ r ∈ refs, r.translator = some t) →
      ((S.onePerStatement K event refs).pevent t).isSome) ∧
    (S.onePerStatement K event refs).errors.length = S.errors.length +
      (refs.map (userEventDataErrors K)).sum +
        if K.translatorImplementing && (translatorImplementingError K).isSome then refs.length
        else 0 := by
  induction refs generalizing S with
  | nil => simp [onePerStatement]
  | cons r refs ih =>
    obtain ⟨pid, hstates, htranslators, hpevent, herrors⟩ :=
      advances_eventDecl K event S r []
    obtain ⟨ihstates, ihtranslators, ihpevent, iherrors⟩ := ih (S.eventDecl K event r [])
    refine ⟨?_, ?_, ?_, ?_⟩
    · intro e
      refine (ihstates e).trans ?_
      rw [hstates]
      cases K.stateImplementing
      · rfl
      · simp only [if_true, List.map_cons, List.count_cons, increment_apply]
        omega
    · intro e
      refine (ihtranslators e).trans ?_
      rw [htranslators]
      cases K.translatorImplementing && (translatorImplementingError K).isNone
      · rfl
      · simp only [if_true, List.map_cons, List.count_cons, increment_apply]
        omega
    · intro t ht
      refine ihpevent t ?_
      rw [hpevent]
      cases htr : r.translator with
      | none => simpa [htr] using ht
      | some u =>
        by_cases htu : t = u
        · simp [htu]
        · simpa [htr, htu, Ne.symm htu] using ht
    · refine iherrors.trans ?_
      rw [herrors]
      simp only [List.map_cons, List.map_nil, List.sum_cons, List.sum_nil, List.length_cons]
      split_ifs <;> omega

/-- Where nothing is to be counted or linked, the two rules do the same. -/
private lemma parentEvent_eq (hstate : K.stateImplementing = false)
    (htranslator : K.translatorImplementing = false) (S : Declarations) {r : ParentReference}
    (hr : r.translator = none) :
    S.parentEvent K event r = commaParentEvent K event (S, []) r := by
  simp [parentEvent, commaParentEvent, linkTranslator, countStateImplementing,
    countTranslatorImplementing, hstate, htranslator, hr]

/-- The rule after a comma does not look at the machine's event list. -/
private lemma commaParentEvent_move (S : Declarations) (l : List ℕ) (r : ParentReference) :
    let x := commaParentEvent K event (S, l) r
    let T := { S with eventDecls := S.eventDecls ++ l }
    let y := commaParentEvent K event (T, []) r
    ({ y.1 with eventDecls := y.1.eventDecls ++ y.2 } : Declarations) =
      { x.1 with eventDecls := x.1.eventDecls ++ x.2 } := by
  simp [commaParentEvent, addReference, userEventData]

/-- The references after a comma, one by one. -/
lemma foldl_commaParentEvent (hstate : K.stateImplementing = false)
    (htranslator : K.translatorImplementing = false) (x : Declarations × List ℕ)
    {rs : List ParentReference} (hrs : ∀ r ∈ rs, r.translator = none) :
    let y := rs.foldl (commaParentEvent K event) x
    ({ y.1 with eventDecls := y.1.eventDecls ++ y.2 } : Declarations) =
      onePerStatement K event { x.1 with eventDecls := x.1.eventDecls ++ x.2 } rs := by
  induction rs generalizing x with
  | nil => rfl
  | cons r rs ih =>
    have hstep := commaParentEvent_move K event x.1 x.2 r
    have hrest := ih (commaParentEvent K event x r) fun d hd => hrs d (List.mem_cons_of_mem r hd)
    refine hrest.trans ?_
    rw [← hstep, ← parentEvent_eq K event hstate htranslator _ (hrs r List.mem_cons_self)]
    rfl

end Statements

/-- **One statement or many.** A list of references in one statement does the same as the
references with one statement each, exactly if there is one reference at most, or the sub-machine
implements neither a state nor a translator and no reference after a comma has a translator. The
names of translators are new.

**Proof sketch.** Only the rule for the first reference counts the sub-machine, reports errors of
translator-implementing machines, and tells the translator. What both rules do leaves these alone,
so that each further reference makes a difference in a counter, in the number of errors, or in the
event of its translator. -/
theorem inOneStatement_eq_onePerStatement_iff (S : Declarations) (refs : List ParentReference)
    (hnodup : (refs.filterMap (·.translator)).Nodup)
    (hnew : ∀ r ∈ refs, ∀ t ∈ r.translator, S.pevent t = none) :
    S.inOneStatement K event refs = S.onePerStatement K event refs ↔
      refs.tail = [] ∨ (K.stateImplementing = false ∧ K.translatorImplementing = false ∧
        ∀ r ∈ refs.tail, r.translator = none) := by
  cases refs with
  | nil => simp [inOneStatement, onePerStatement]
  | cons r rs =>
    rw [List.tail_cons]
    constructor
    · intro heq
      obtain ⟨pid, hstates, htranslators, hpevent, herrors⟩ :=
        advances_eventDecl K event S r rs
      obtain ⟨mstates, mtranslators, mpevent, merrors⟩ :=
        onePerStatement_spec K event S (r :: rs)
      rw [← heq] at mstates mtranslators mpevent merrors
      change ∀ e, (S.eventDecl K event r rs).stateImplementingSharerCount e = _ at mstates
      change ∀ e, (S.eventDecl K event r rs).translatorImplementingSharerCount e = _ at mtranslators
      change ∀ t, _ → ((S.eventDecl K event r rs).pevent t).isSome = true at mpevent
      change (S.eventDecl K event r rs).errors.length = _ at merrors
      rw [hstates] at mstates
      rw [htranslators] at mtranslators
      rw [hpevent] at mpevent
      rw [herrors] at merrors
      rw [or_iff_not_imp_left]
      intro hne
      obtain ⟨d, ds, rfl⟩ := List.exists_cons_of_ne_nil hne
      -- the second reference is not counted
      have hsecond : (if r.name == d.name then 1 else 0) ≠
          ((r :: d :: ds).map (·.name)).count d.name := by
        simp only [List.map_cons, List.count_cons, beq_self_eq_true, if_true]
        omega
      refine ⟨?_, ?_, ?_⟩
      · by_contra hstate
        rw [Bool.not_eq_false] at hstate
        have hcount := mstates d.name
        rw [if_pos hstate, if_pos hstate, increment_apply] at hcount
        exact hsecond (Nat.add_left_cancel hcount)
      · by_contra htranslator
        rw [Bool.not_eq_false] at htranslator
        cases herror : translatorImplementingError K with
        | none =>
          have hcount := mtranslators d.name
          simp only [htranslator, herror, Option.isNone_none, Bool.and_self, if_true,
            increment_apply] at hcount
          exact hsecond (Nat.add_left_cancel hcount)
        | some message =>
          simp only [htranslator, herror, Option.isSome_some, Bool.and_self, if_true,
            List.length_cons] at merrors
          omega
      · intro b hb
        cases htb : b.translator with
        | none => rfl
        | some t =>
          -- its translator has not been told, as the first reference has another one
          exfalso
          have hsome := mpevent t (.inr ⟨b, List.mem_cons_of_mem r hb, htb⟩)
          have hnone := hnew b (List.mem_cons_of_mem r hb) t htb
          cases htr : r.translator with
          | none => simp [htr, hnone] at hsome
          | some u =>
            have hne : t ≠ u := by
              rintro rfl
              rw [List.filterMap_cons_some htr] at hnodup
              exact (List.nodup_cons.mp hnodup).1 (List.mem_filterMap.mpr ⟨b, hb, htb⟩)
            simp [htr, hne, hnone] at hsome
    · rintro (rfl | ⟨hstate, htranslator, hrs⟩)
      · rfl
      · exact foldl_commaParentEvent K event hstate htranslator (S.parentEvent K event r) hrs

/-- A sub-machine before its first declaration. -/
def start : Declarations where
  idList := []
  record := fun _ => {}
  eventDecls := []
  psharingSubMachines := fun _ => []
  stateImplementingSharerCount := fun _ => 0
  translatorImplementingSharerCount := fun _ => 0
  submachinesWantingParentDataCount := 0
  pevent := fun _ => none
  errors := []

/-- Two references of a plain machine. -/
theorem inOneStatement_eq_onePerStatement_plain :
    inOneStatement { name := "sub" } 258 start [{ name := "e" }, { name := "f" }] =
      onePerStatement { name := "sub" } 258 start [{ name := "e" }, { name := "f" }] :=
  (inOneStatement_eq_onePerStatement_iff { name := "sub" } 258 start
    [{ name := "e" }, { name := "f" }] (by decide) (by decide)).mpr (.inr ⟨rfl, rfl, by decide⟩)

/-- Two references of a machine that implements a state: the second one is not counted. -/
theorem not_inOneStatement_eq_onePerStatement :
    ¬ ∀ (K : SubMachineKind) (event : ℕ) (S : Declarations) (refs : List ParentReference),
      (refs.map (·.name)).Nodup → (refs.filterMap (·.translator)).Nodup →
        (∀ r ∈ refs, ∀ t ∈ r.translator, S.pevent t = none) →
          S.inOneStatement K event refs = S.onePerStatement K event refs := by
  intro h
  have heq := h { name := "sub", stateImplementing := true } 258 start
    [{ name := "e" }, { name := "f" }] (by decide) (by decide) (by decide)
  have hcount := congrArg (fun S => S.stateImplementingSharerCount "f") heq
  revert hcount
  decide

/-! ## Names that are referred to again -/

section Names

variable (K : SubMachineKind) (event : ℕ)

/-- The identifiers after a reference. -/
def nextIdList (idList : List IdInfo) (r : ParentReference) : List IdInfo :=
  (addUniqueId (readIdentifiers idList r) event r.name).2.1

/-- The calls of `add_unique_id` for references: the identifiers before, and the reference. -/
def calls (idList : List IdInfo) : List ParentReference → List (List IdInfo × ParentReference)
  | [] => []
  | r :: rs => (readIdentifiers idList r, r) :: calls (nextIdList event idList r) rs

/-- `add_unique_id` says that a name is new, and adds it, or that it is not, and adds nothing. -/
def Reports (idList : List IdInfo) (name : String) : Prop :=
  (name ∉ idNames idList →
    addUniqueId idList event name = (true, idList ++ [⟨name, event⟩], idList.length)) ∧
  (name ∈ idNames idList →
    (addUniqueId idList event name).1 = false ∧ (addUniqueId idList event name).2.1 = idList)

/-- The names of the events in the machine's list. -/
def eventNames (S : Declarations) : List (Option String) :=
  S.eventDecls.map fun pid => (S.idList[pid]?).map (·.name)

/-- References are told apart: `add_unique_id` says which names are new, an event that is referred
to twice is rejected, and an accepted machine has no two events of one name and is no sharer of an
event twice. -/
structure ReferencesRight (S : Declarations) (lists : List (List ParentReference)) : Prop where
  reports : ∀ x ∈ calls event S.idList lists.flatten, Reports event x.1 x.2.name
  rejects : ¬ (lists.flatten.map (·.name)).Nodup → (S.statements K event lists).errors ≠ []
  names : (S.statements K event lists).errors = [] → (S.statements K event lists).eventNames.Nodup
  sharers : (S.statements K event lists).errors = [] →
    ∀ e, ((S.statements K event lists).psharingSubMachines e).Nodup

/-- No reference has a name that is known: one of the machine, of an earlier reference, or one that
has been read with user event data. -/
def FreshNames (known : List String) : List ParentReference → Prop
  | [] => True
  | r :: rs => r.name ∉ known ++ idNames r.identifiers ∧
      FreshNames (known ++ idNames r.identifiers ++ [r.name]) rs

/-- What is so before a machine's references: its events have different names, and it is a sharer
of events whose names it has. -/
structure Listed (S : Declarations) (l : List ℕ) : Prop where
  places : ∀ pid ∈ S.eventDecls ++ l, pid < S.idList.length
  names : ((S.eventDecls ++ l).map fun pid => (S.idList[pid]?).map (·.name)).Nodup
  shared : ∀ e, K.name ∈ S.psharingSubMachines e → e ∈ idNames S.idList
  sharers : ∀ e, (S.psharingSubMachines e).Nodup

variable {K event}

/-- The names of identifiers behind others. -/
lemma idNames_append (l l' : List IdInfo) : idNames (l ++ l') = idNames l ++ idNames l' :=
  List.map_append

/-- A code other than that of no token is one of an identifier. -/
private lemma mem_idNames_of_lookupId {idList : List IdInfo} {name : String}
    (h : (lookupId idList name).1 ≠ LOOKUP) : name ∈ idNames idList := by
  unfold lookupId at h
  cases hfind : idList.findIdx? (·.name = name) with
  | none => simp [hfind] at h
  | some pid =>
    obtain ⟨hlt, hname, -⟩ := List.findIdx?_eq_some_iff_getElem.mp hfind
    exact List.mem_map.mpr ⟨idList[pid], List.getElem_mem hlt, by simpa using hname⟩

/-- Identifiers are added at the end. -/
private lemma exists_addId_eq (idList : List IdInfo) (type : ℕ) (name : String) :
    ∃ more, (addId idList type name).1 = idList ++ more ∧
      ∀ n, n ∈ idNames (addId idList type name).1 ↔ n ∈ idNames idList ∨ n = name := by
  unfold addId
  by_cases hcode : (lookupId idList name).1 = LOOKUP
  · refine ⟨[⟨name, type⟩], by simp [hcode], ?_⟩
    intro n
    simp [hcode, idNames]
  · refine ⟨[], by simp [hcode], ?_⟩
    intro n
    have hmem := mem_idNames_of_lookupId hcode
    simp only [hcode, if_false]
    constructor
    · exact .inl
    · rintro (hn | rfl)
      · exact hn
      · exact hmem

/-- So are those that are read with the user event data. -/
lemma exists_readIdentifiers_eq (idList : List IdInfo) (r : ParentReference) :
    ∃ more, readIdentifiers idList r = idList ++ more ∧
      ∀ n, n ∈ idNames (readIdentifiers idList r) ↔
        n ∈ idNames idList ∨ n ∈ idNames r.identifiers := by
  unfold readIdentifiers
  induction r.identifiers generalizing idList with
  | nil => exact ⟨[], by simp, by simp [idNames]⟩
  | cons x xs ih =>
    obtain ⟨more, hmore, hnames⟩ := exists_addId_eq idList x.type x.name
    obtain ⟨more', hmore', hnames'⟩ := ih (addId idList x.type x.name).1
    refine ⟨more ++ more', ?_, ?_⟩
    · rw [List.foldl_cons, hmore', hmore, List.append_assoc]
    · intro n
      rw [List.foldl_cons, hnames', hnames]
      simp [idNames, or_assoc]

/-- `add_unique_id` is right about new names only. -/
lemma reports_iff (idList : List IdInfo) (name : String) :
    Reports event idList name ↔ name ∉ idNames idList := by
  constructor
  · intro h hmem
    have := (h.2 hmem).1
    rw [addUniqueId_fst] at this
    cases this
  · intro hnew
    exact ⟨fun _ => addUniqueId_of_notMem hnew event, fun hmem => absurd hmem hnew⟩

/-- The names of the calls are new if they are not known. -/
private lemma forall_calls_iff {idList : List IdInfo} {known : List String}
    (hknown : ∀ n, n ∈ known ↔ n ∈ idNames idList) (refs : List ParentReference) :
    (∀ x ∈ calls event idList refs, x.2.name ∉ idNames x.1) ↔ FreshNames known refs := by
  induction refs generalizing idList known with
  | nil => simp [calls, FreshNames]
  | cons r rs ih =>
    obtain ⟨more, -, hnames⟩ := exists_readIdentifiers_eq idList r
    have hhead : r.name ∉ idNames (readIdentifiers idList r) ↔
        r.name ∉ known ++ idNames r.identifiers := by
      rw [hnames, List.mem_append, hknown]
    rw [calls, List.forall_mem_cons, FreshNames, hhead]
    refine and_congr_right fun hnew => ih ?_
    intro n
    rw [nextIdList, addUniqueId_of_notMem (hhead.mpr hnew), idNames_append]
    simp only [List.mem_append, hnames, hknown]
    rfl

/-- Names that are not known are different. -/
lemma FreshNames.nodup {known : List String} {refs : List ParentReference}
    (h : FreshNames known refs) :
    (refs.map (·.name)).Nodup ∧ ∀ r ∈ refs, r.name ∉ known := by
  induction refs generalizing known with
  | nil => simp
  | cons r rs ih =>
    obtain ⟨hnew, hrest⟩ := h
    obtain ⟨hnodup, hknown⟩ := ih hrest
    refine ⟨List.nodup_cons.mpr ⟨?_, hnodup⟩, ?_⟩
    · intro hmem
      obtain ⟨d, hd, heq⟩ := List.mem_map.mp hmem
      exact hknown d hd (by simp [heq])
    · intro d hd
      rcases List.mem_cons.mp hd with rfl | hd
      · exact fun hmem => hnew (List.mem_append_left _ hmem)
      · exact fun hmem => hknown d hd (by simp [hmem])

/-- A reference with a new name. -/
lemma Listed.addReference {S : Declarations} {l : List ℕ} (h : Listed K S l) {r : ParentReference}
    (hnew : r.name ∉ idNames (readIdentifiers S.idList r)) :
    Listed K ((S.userEventData K r).addReference K event r).1
      (l ++ [((S.userEventData K r).addReference K event r).2]) := by
  obtain ⟨more, hmore, hnames⟩ := exists_readIdentifiers_eq S.idList r
  have hold : ∀ n, n ∈ idNames S.idList → n ∈ idNames (readIdentifiers S.idList r) :=
    fun n hn => (hnames n).mpr (.inl hn)
  have hadd : addUniqueId (S.userEventData K r).idList event r.name =
      (true, readIdentifiers S.idList r ++ [⟨r.name, event⟩],
        (readIdentifiers S.idList r).length) := addUniqueId_of_notMem hnew event
  have hplace : ∀ pid ∈ S.eventDecls ++ l, pid < (readIdentifiers S.idList r).length := by
    intro pid hpid
    rw [hmore, List.length_append]
    exact Nat.lt_add_right _ (h.places pid hpid)
  -- the places of the events before have the names that they had
  have hkept : ∀ pid ∈ S.eventDecls ++ l,
      (readIdentifiers S.idList r ++ [IdInfo.mk r.name event])[pid]? = S.idList[pid]? := by
    intro pid hpid
    rw [List.getElem?_append_left (hplace pid hpid), hmore,
      List.getElem?_append_left (h.places pid hpid)]
  unfold Declarations.addReference
  rw [hadd]
  constructor
  · intro pid hpid
    show pid < (readIdentifiers S.idList r ++ [IdInfo.mk r.name event]).length
    rw [List.length_append, List.length_singleton]
    rw [← List.append_assoc] at hpid
    rcases List.mem_append.mp hpid with hpid | hpid
    · exact Nat.lt_succ_of_lt (hplace pid hpid)
    · rw [List.mem_singleton.mp hpid]
      exact Nat.lt_succ_self _
  · show ((S.eventDecls ++ (l ++ [(readIdentifiers S.idList r).length])).map fun pid =>
      ((readIdentifiers S.idList r ++ [IdInfo.mk r.name event])[pid]?).map (·.name)).Nodup
    rw [← List.append_assoc, List.map_append, List.map_congr_left fun pid hpid =>
      congrArg (Option.map (·.name)) (hkept pid hpid), List.nodup_append]
    refine ⟨h.names, List.nodup_singleton _, ?_⟩
    intro a ha b hb heq
    obtain ⟨pid, hpid, rfl⟩ := List.mem_map.mp ha
    rw [List.map_singleton, List.getElem?_concat_length, Option.map_some] at hb
    rw [List.mem_singleton.mp hb] at heq
    obtain ⟨x, hx, hname⟩ := Option.map_eq_some_iff.mp heq
    have hname : x.name = r.name := hname
    exact hnew (hold _ (hname ▸ List.mem_map_of_mem (List.mem_of_getElem? hx)))
  · intro e he
    show e ∈ idNames (readIdentifiers S.idList r ++ [IdInfo.mk r.name event])
    rw [idNames_append, List.mem_append]
    by_cases her : e = r.name
    · exact .inr (by simp [idNames, her])
    · refine .inl (hold e (h.shared e ?_))
      simpa [userEventData, Function.update_of_ne her] using he
  · intro e
    by_cases her : e = r.name
    · subst her
      have hnot : K.name ∉ S.psharingSubMachines r.name := fun hmem =>
        hnew (hold _ (h.shared _ hmem))
      simpa [userEventData, List.nodup_append, h.sharers r.name] using
        fun a ha => ne_of_mem_of_not_mem ha hnot
    · simpa [userEventData, Function.update_of_ne her] using h.sharers e

/-- What the rules look at besides. -/
lemma Listed.congr {S T : Declarations} {l : List ℕ} (h : Listed K S l) (hid : T.idList = S.idList)
    (hdecls : T.eventDecls = S.eventDecls)
    (hshared : T.psharingSubMachines = S.psharingSubMachines) : Listed K T l := by
  obtain ⟨hplaces, hnames, hsh, hsharers⟩ := h
  exact ⟨by rwa [hdecls, hid], by rwa [hdecls, hid], by rwa [hshared, hid], by rwa [hshared]⟩

/-- References after a comma, with new names. -/
lemma Listed.foldl_commaParentEvent {x : Declarations × List ℕ} (h : Listed K x.1 x.2)
    {rs : List ParentReference}
    (hnew : ∀ c ∈ calls event x.1.idList rs, c.2.name ∉ idNames c.1) :
    let y := rs.foldl (commaParentEvent K event) x
    Listed K y.1 y.2 := by
  induction rs generalizing x with
  | nil => exact h
  | cons r rs ih =>
    obtain ⟨hr, hrs⟩ := List.forall_mem_cons.mp hnew
    exact ih (h.addReference hr) hrs

/-- The identifiers after references. -/
private lemma idList_foldl_commaParentEvent (x : Declarations × List ℕ)
    (rs : List ParentReference) :
    (rs.foldl (commaParentEvent K event) x).1.idList = rs.foldl (nextIdList event) x.1.idList := by
  induction rs generalizing x with
  | nil => rfl
  | cons r rs ih => exact ih _

/-- The calls for references behind others. -/
private lemma calls_append (idList : List IdInfo) (as bs : List ParentReference) :
    calls event idList (as ++ bs) =
      calls event idList as ++ calls event (as.foldl (nextIdList event) idList) bs := by
  induction as generalizing idList with
  | nil => rfl
  | cons a as ih => rw [List.cons_append, calls, calls, ih, List.cons_append, List.foldl_cons]

/-- A statement with new names. -/
lemma Listed.inOneStatement {S : Declarations} (h : Listed K S []) {refs : List ParentReference}
    (hnew : ∀ c ∈ calls event S.idList refs, c.2.name ∉ idNames c.1) :
    Listed K (S.inOneStatement K event refs) [] ∧
      (S.inOneStatement K event refs).idList = refs.foldl (nextIdList event) S.idList := by
  cases refs with
  | nil => exact ⟨h, rfl⟩
  | cons r rs =>
    obtain ⟨hr, hrs⟩ := List.forall_mem_cons.mp hnew
    have hfirst : Listed K (S.parentEvent K event r).1 (S.parentEvent K event r).2 :=
      (h.addReference hr).congr rfl rfl rfl
    have hlist : Listed K (rs.foldl (commaParentEvent K event) (S.parentEvent K event r)).1
        (rs.foldl (commaParentEvent K event) (S.parentEvent K event r)).2 :=
      hfirst.foldl_commaParentEvent hrs
    refine ⟨?_, idList_foldl_commaParentEvent _ rs⟩
    obtain ⟨hplaces, hnames, hshared, hsharers⟩ := hlist
    exact ⟨by simpa [Declarations.inOneStatement, eventDecl] using hplaces,
      by simpa [Declarations.inOneStatement, eventDecl] using hnames, hshared, hsharers⟩

/-- Statements with new names. -/
lemma Listed.statements {S : Declarations} (h : Listed K S [])
    {lists : List (List ParentReference)}
    (hnew : ∀ c ∈ calls event S.idList lists.flatten, c.2.name ∉ idNames c.1) :
    Listed K (S.statements K event lists) [] := by
  induction lists generalizing S with
  | nil => exact h
  | cons refs lists ih =>
    rw [List.flatten_cons, calls_append, List.forall_mem_append] at hnew
    obtain ⟨hlisted, hid⟩ := h.inOneStatement hnew.1
    exact ih hlisted (by rw [hid]; exact hnew.2)

/-- **References are told apart** exactly if no name is known when it is referred to.

**Proof sketch.** `add_unique_id` says of every name that it is new, so that it is right about new
names only. These get identifiers of their own, and each parent's event that is referred to is one
whose name the machine has got for it. -/
theorem referencesRight_iff {S : Declarations} (hS : Listed K S [])
    (lists : List (List ParentReference)) :
    ReferencesRight K event S lists ↔ FreshNames (idNames S.idList) lists.flatten := by
  have hfresh : (∀ x ∈ calls event S.idList lists.flatten, x.2.name ∉ idNames x.1) ↔
      FreshNames (idNames S.idList) lists.flatten := forall_calls_iff (fun n => Iff.rfl) _
  rw [← hfresh]
  constructor
  · intro h x hx
    exact (reports_iff _ _).mp (h.reports x hx)
  · intro hnew
    have hlisted := hS.statements hnew
    refine ⟨fun x hx => (reports_iff _ _).mpr (hnew x hx), ?_, ?_, fun _ => hlisted.sharers⟩
    · intro htwice
      exact absurd (hfresh.mp hnew).nodup.1 htwice
    · intro _
      simpa [eventNames] using hlisted.names

/-- Two references to different events. -/
theorem referencesRight_start :
    ReferencesRight { name := "sub" } 258 start [[{ name := "e" }], [{ name := "f" }]] :=
  (referencesRight_iff ⟨by decide, by decide, by simp [start], by simp [start]⟩
    [[{ name := "e" }], [{ name := "f" }]]).mpr ⟨by decide, by decide, trivial⟩

/-- Two references to one event in one list are not rejected. -/
theorem not_referencesRight_twice :
    ¬ ∀ (K : SubMachineKind) (event : ℕ) (S : Declarations) (lists : List (List ParentReference)),
      Listed K S [] → ReferencesRight K event S lists := by
  intro h
  have hright := h { name := "sub" } 258 start [[{ name := "e" }, { name := "e" }]]
    ⟨by decide, by decide, by simp [start], by simp [start]⟩
  exact hright.rejects (by decide) (by decide)

end Names

end Declarations

end FsmLang
