import Mathlib.Data.List.Infix
import Mathlib.Tactic
import FsmLang.GeneratedCode
import FsmLang.QualifiedNames

set_option relaxedAutoImplicit false
set_option autoImplicit false

/-!
# The enumerators that the code mentions

The functions of a machine name enumerators of the event enumeration: their own by the macro
`THIS`, and those of the ancestors by `PARENT`, `PARENT_PARENT` and so on. A macro is a text, and
the code compiles only if every text is one of the enumeration.

What is mentioned follows the machine that mentions it, what is printed the machine whose name
it is. The two differ in three places: the finder's and the parent's `noEvent`, where the
top-level machine has none; the tests for the ranges of the ancestors' events; and the `case`
labels for the ancestors' events of one name.

## Main definitions

* `Reference` — a name, as the code mentions it.
* `defineSubMachineFinder`, `subMachineLoop`, `printAncestorEventConditional`,
  `ancestorCaseEvents`, `printAncestorCaseStatements` — what is mentioned.
* `Machine.Spells` — a name of the machine at a path is one of the tree.
* `Machine.ReferencesSpelled` — the names that the enumeration may lack are there.

## Main results

* `text_mem_enumeratorNames_iff` — a name is printed if and only if the tree spells it.
* `spells_noEvent_iff` — when the top-level machine has a `noEvent`.
* `enumeratorReferences_defined_iff` — when all names that are mentioned are printed.
-/

namespace FsmLang

open CSemantics

/-! ## What is mentioned -/

/-- A name with the ancestry of the machine at a path, as a function mentions it. -/
structure Reference where
  path : List ℕ
  name : String
  deriving DecidableEq, Repr

/-- What C reads, after the macros. -/
def Reference.text (top : Machine) (r : Reference) : String :=
  printNameWithAncestry r.name top r.path

/-- `THIS` of some names, in the file of the machine at a path. -/
def thisNames (path : List ℕ) (names : List String) : List Reference :=
  names.map fun name => ⟨path, name⟩

/-- `PARENT` of some names, in the file of the sub-machine at a path. -/
def parentNames (path : List ℕ) (names : List String) : List Reference :=
  names.map fun name => ⟨path.dropLast, name⟩

/-- What `findAndRunSubMachine` mentions. It is emitted for a machine with sub-machines. -/
def defineSubMachineFinder (path : List ℕ) (m : Machine) : List Reference :=
  if m.machineList.isEmpty then []
  else if m.heterogeneousChildren || m.actionsReturn = .events then thisNames path ["noEvent"]
  else []

/-- What a sub-machine's debug block mentions (`printFSMSubMachineDebugBlock`). -/
def printFSMSubMachineDebugBlock (path : List ℕ) (m : Machine) : List Reference :=
  thisNames path ["firstEvent", "noEvent"] ++
    if m.artifactsImplementing then
      parentNames path ["firstEvent", if path.dropLast = [] then "numEvents" else "noEvent"]
    else []

/-- What the test for the ranges of the ancestors' events mentions, in a sub-machine. -/
def printAncestorEventConditional (path : List ℕ) (m : Machine) : List Reference :=
  path.dropLast.inits.flatMap fun p =>
    [⟨p, "firstEvent"⟩, ⟨p, m.labelText (ancestorEndLabel path m p)⟩]

/-- The labels for the ancestors' events of one name, in a sub-machine. -/
def printAncestorCaseStatements (path : List ℕ) (name : String) : List Reference :=
  path.dropLast.inits.map fun p => ⟨p, name⟩

/-- The own names in a sub-machine's loop, besides those of its debug block. What is printed for
single cells of the matrix is left out. -/
def subLoopNames (g : Generator) (m : Machine) : List String :=
  let below (names : List String) := if m.machineList.isEmpty then [] else names
  match m.actionsReturn, g with
  | .events, .table => ["noEvent", m.labelText (.event 0)] ++ below ["noEvent"]
  | .void, .table => [m.labelText (.event 0)] ++ below ["noEvent"]
  | .states, .table => ["firstEvent"] ++ below ["noEvent"]
  | _, .singleSwitch => ["firstEvent", "noEvent"] ++ below ["noEvent", "lastEvent"]
  | .states, .switch => below ["noEvent"]
  | .states, .eventTable => ["firstEvent"] ++ below ["noEvent"]
  | _, _ => ["noEvent", "firstEvent"] ++ below ["noEvent", "lastEvent"]

/-- What a sub-machine's loop mentions. The test for the ancestors' events is part of the innards
of -ts (`writeSwitchSubFSMLoopInnards`), which actions that return states do without; and where
actions return events the loop ends with `return e == THIS(noEvent) ? PARENT(noEvent) : e`. -/
def subMachineLoop (g : Generator) (path : List ℕ) (m : Machine) : List Reference :=
  printFSMSubMachineDebugBlock path m ++ thisNames path (subLoopNames g m) ++
    (if g = .switch ∧ m.artifactsImplementing ∧ m.actionsReturn ≠ .states then
      printAncestorEventConditional path m else []) ++
    if m.actionsReturn = .events then thisNames path ["noEvent"] ++ parentNames path ["noEvent"]
    else []

/-- A machine with its matrix and the flags of its events with user data (`puser_event_data`). -/
structure PrintedMachine (m : Machine) extends AcceptedActions m where
  userEventData : m.EventIdx → Bool

/-- The events that have a case in a state function of -ts. -/
def stateFnEvents {m : Machine} (D : AcceptedActions m) (s : m.StateIdx) : List m.EventIdx :=
  (D.actionArray.peventsHandled s).filter fun i =>
    if (D.implementingMachine s).isSome ∧ m.actionsReturn ≠ .states then
      !D.actionArray.singlePaiForAllStates i && (D.cell i s).any (·.transition.isSome)
    else
      (!D.actionArray.singlePaiForAllStates i || m.artifactsImplementing) && (D.cellIdx i s).isSome

/-- The events that have a case in the functions of -ts in which labels are printed for ancestors:
the state functions, and for actions that return states the handler for all states. -/
def switchCaseEvents {m : Machine} (D : AcceptedActions m) : List m.EventIdx :=
  (List.finRange m.stateList.length).flatMap (stateFnEvents D) ++
    if m.actionsReturn = .states then
      (List.finRange m.eventList.length).filter D.actionArray.singlePaiForAllStates
    else []

/-- The events of a sub-machine for which the labels of ancestors are printed: in -ts, if the
machine implements artifacts, those that are shared with the parent; and in the event data manager
of every generator those with user data, shared or not. -/
def ancestorCaseEvents (g : Generator) {m : Machine} (D : PrintedMachine m) : List m.EventIdx :=
  (if g = .switch ∧ m.artifactsImplementing then
    (switchCaseEvents D.toAcceptedActions).filter D.sharedWithParent else []) ++
    (List.finRange m.eventList.length).filter D.userEventData

/-- What the functions of the machine at a path mention. -/
def enumeratorReferences (g : Generator) (path : List ℕ) (m : Machine) (D : PrintedMachine m) :
    List Reference :=
  defineSubMachineFinder path m ++
    if path = [] then []
    else subMachineLoop g path m ++
      (ancestorCaseEvents g D).flatMap fun i => printAncestorCaseStatements path (m.eventName i)

/-! ## What is printed -/

/-- A name of the machine at a path, without the name of the machine the path starts from. -/
def Machine.innerName (m : Machine) : List ℕ → String → String
  | [], name => name
  | k :: p, name =>
    ((m.machineList[k]?).map fun c => joined c.info.name (c.innerName p name)).getD (joined "" name)

/-- The tree has a name that reads like this name of the machine at a path. -/
def Machine.Spells (top : Machine) (path : List ℕ) (name : String) : Prop :=
  top.innerName path name ∈ top.innerNames true

/-- A text is the name of the top-level machine and an inner name. -/
private lemma printNameWithAncestry_eq (top : Machine) (path : List ℕ) (name : String) :
    printNameWithAncestry name top path = joined top.info.name (top.innerName path name) := by
  induction path generalizing top with
  | nil => rfl
  | cons k path ih =>
    unfold printNameWithAncestry at ih ⊢
    cases hc : top.machineList[k]? with
    | none =>
      simp only [printAncestry, Machine.innerName, hc, Option.map_none, Option.getD_none]
      simp only [joined, String.append_assoc]
    | some c =>
      simp only [printAncestry, Machine.innerName, hc, Option.map_some, Option.getD_some, ← ih]
      simp [joined, String.append_assoc]

/-- **The texts of the enumeration.** A text is printed if and only if the tree spells it. -/
theorem text_mem_enumeratorNames_iff {compactActionArray : Bool} {designated : String → ℤ}
    {top : Machine} (htop : top.Accepted) (path : List ℕ) (name : String) :
    Reference.text top ⟨path, name⟩ ∈ enumeratorNames compactActionArray designated top ↔
      top.Spells path name := by
  rw [(map_enumeratorName_perm compactActionArray designated htop).mem_iff, Reference.text,
    printNameWithAncestry_eq, List.mem_map_of_injective (joined_injective _), Machine.Spells]

/-- The inner names of a machine are among those of the machines above. -/
private lemma innerName_mem_innerNames {top m : Machine} {path : List ℕ} {name : String}
    {atTop : Bool}
    (hm : top.sub? path = some m) (hname : name ∈ m.innerNames (atTop && path.isEmpty)) :
    top.innerName path name ∈ top.innerNames atTop := by
  induction path generalizing top atTop with
  | nil =>
    obtain rfl := Option.some.inj hm
    simpa [Machine.innerName] using hname
  | cons k path ih =>
    obtain ⟨c, hc, hcm⟩ := Option.bind_eq_some_iff.mp hm
    have hmem : c.innerName path name ∈ c.innerNames false := by
      apply ih hcm
      simpa using hname
    rw [Machine.innerNames_eq, innerNamesList_eq, Machine.innerName, hc]
    apply List.mem_append_right
    exact List.mem_flatMap.mpr ⟨c, List.mem_of_getElem? hc, List.mem_map_of_mem hmem⟩

/-- The tree spells a machine's own names. -/
lemma spells_of_mem_localNames {top m : Machine} {path : List ℕ} {name : String}
    (hm : top.sub? path = some m) (hname : name ∈ m.localNames path.isEmpty) :
    top.Spells path name := by
  apply innerName_mem_innerNames hm
  rw [Bool.true_and, Machine.innerNames_eq]
  exact List.mem_append_left _ hname

/-- Every machine has a `firstEvent`. -/
lemma firstEvent_mem_localNames (atTop : Bool) (m : Machine) :
    "firstEvent" ∈ m.localNames atTop := by
  simp [Machine.localNames, Machine.markerNames]

/-- Every machine has a `noEvent`, but for a top-level machine that does not return events. -/
lemma noEvent_mem_localNames {atTop : Bool} {m : Machine}
    (h : atTop = true → m.actionsReturn = .events) : "noEvent" ∈ m.localNames atTop := by
  cases atTop with
  | false => simp [Machine.localNames, Machine.markerNames]
  | true => simp [Machine.localNames, Machine.markerNames, h rfl]

/-- A name that is joined from two words has an underscore. -/
private lemma underscore_mem_joined (u v : String) : '_' ∈ (joined u v).toList := by
  rw [toList_joined]
  simp

/-- **The top-level machine's `noEvent`.** The tree spells it if the machine's actions return
events, or if it has an event of this name. -/
theorem spells_noEvent_iff (top : Machine) :
    top.Spells [] "noEvent" ↔
      top.actionsReturn = .events ∨ ∃ e ∈ top.eventList, e.name = "noEvent" := by
  have hbelow : "noEvent" ∉ innerNamesList top.machineList := by
    intro h
    rw [innerNamesList_eq] at h
    obtain ⟨c, -, hc⟩ := List.mem_flatMap.mp h
    obtain ⟨v, -, hv⟩ := List.mem_map.mp hc
    have hmem := underscore_mem_joined c.info.name v
    rw [hv] at hmem
    exact absurd hmem (by decide)
  have hmarkers : "noEvent" ∈ top.markerNames true ↔ top.actionsReturn = .events := by
    cases hret : top.actionsReturn <;> simp [Machine.markerNames, hret]
  rw [Machine.Spells, Machine.innerName, Machine.innerNames_eq, List.mem_append,
    or_iff_left hbelow, Machine.localNames, List.mem_append, hmarkers, List.mem_map, or_comm]

/-! ## When everything is printed -/

/-- A name that is mentioned is one that the tree spells. -/
def Reference.Spelled (top : Machine) (r : Reference) : Prop := top.Spells r.path r.name

/-- The names that the enumeration may lack are there: the `noEvent` of the top-level machine, if
some sub-machine returns something else than it; in -ts, for every sub-machine that implements
artifacts and does not return states, the ends of the ranges that it tests; and for every event
with labels for the ancestors, the event of the same name of every ancestor. -/
structure Machine.ReferencesSpelled (g : Generator) (top : Machine)
    (printed : List ℕ → ∀ m : Machine, PrintedMachine m) : Prop where
  noEvent : top.heterogeneousChildren = true → top.Spells [] "noEvent"
  ranges : g = .switch → ∀ path m, path ≠ [] → top.sub? path = some m →
    m.artifactsImplementing = true → m.actionsReturn ≠ .states →
      (m.actionsReturn = .void ∨ path.dropLast ≠ [] → top.Spells [] "noEvent") ∧
        (m.actionsReturn = .events → path.dropLast ≠ [] → top.Spells path.dropLast "numEvents")
  cases : ∀ path m, path ≠ [] → top.sub? path = some m →
    ∀ i ∈ ancestorCaseEvents g (printed path m), ∀ p, p <+: path.dropLast →
      top.Spells p (m.eventName i)

variable {g : Generator} {top m : Machine} {path : List ℕ}

/-- There is a machine at every part of a path. -/
lemma exists_sub?_of_prefix (hm : top.sub? path = some m) {p : List ℕ} (hp : p <+: path) :
    ∃ a, top.sub? p = some a := by
  obtain ⟨q, rfl⟩ := hp
  rw [Machine.sub?_append, Option.bind_eq_some_iff] at hm
  obtain ⟨a, ha, -⟩ := hm
  exact ⟨a, ha⟩

/-- Every machine has a `firstEvent`. -/
lemma spells_firstEvent (hm : top.sub? path = some m) : top.Spells path "firstEvent" :=
  spells_of_mem_localNames hm (firstEvent_mem_localNames _ m)

/-- Every sub-machine has a `noEvent`, and the top-level machine if its actions return events. -/
lemma spells_noEvent (hm : top.sub? path = some m)
    (h : path = [] → top.actionsReturn = .events) : top.Spells path "noEvent" := by
  apply spells_of_mem_localNames hm
  apply noEvent_mem_localNames
  intro hpath
  obtain rfl : path = [] := by simpa using hpath
  obtain rfl := Option.some.inj hm
  exact h rfl

/-- The top-level machine has a `numEvents`. -/
lemma spells_numEvents (top : Machine) : top.Spells [] "numEvents" := by
  apply spells_of_mem_localNames (m := top) rfl
  simp [Machine.localNames, Machine.markerNames]

/-- What the finders mention. -/
lemma defineSubMachineFinder_spelled_iff (hm : top.sub? path = some m) :
    (∀ r ∈ defineSubMachineFinder path m, r.Spelled top) ↔
      (path = [] → top.heterogeneousChildren = true → top.Spells [] "noEvent") := by
  constructor
  · intro h hpath hhet
    subst hpath
    obtain rfl := Option.some.inj hm
    have hne : top.machineList.isEmpty = false := by
      by_contra hempty
      simp [Machine.heterogeneousChildren, List.isEmpty_iff.mp (by simpa using hempty)] at hhet
    apply h ⟨[], "noEvent"⟩
    simp [defineSubMachineFinder, hne, hhet, thisNames]
  · intro h r hr
    obtain ⟨rfl, hret⟩ : r = ⟨path, "noEvent"⟩ ∧
        (m.heterogeneousChildren = true ∨ m.actionsReturn = .events) := by
      unfold defineSubMachineFinder at hr
      split_ifs at hr with hempty hret
      · simp at hr
      · exact ⟨by simpa [thisNames] using hr, by simpa using hret⟩
      · simp at hr
    by_cases hpath : path = []
    · subst hpath
      obtain rfl := Option.some.inj hm
      rcases hret with hhet | hret
      · exact h rfl hhet
      · exact spells_noEvent hm fun _ => hret
    · exact spells_noEvent hm fun hnil => absurd hnil hpath

/-- The names in a sub-machine's own loop are its own. -/
private lemma subLoopNames_subset (hev : m.eventList ≠ []) {name : String}
    (hname : name ∈ subLoopNames g m) : name ∈ m.localNames false := by
  have hfirst : m.labelText (.event 0) ∈ m.localNames false := by
    obtain ⟨e, es, hes⟩ := List.exists_cons_of_ne_nil hev
    simp [Machine.localNames, Machine.labelText, hes]
  have hlast : m.machineList.isEmpty = false → "lastEvent" ∈ m.localNames false := by
    intro h
    simp [Machine.localNames, Machine.markerNames, List.isEmpty_eq_false_iff.mp h]
  have hmarkers : "firstEvent" ∈ m.localNames false ∧ "noEvent" ∈ m.localNames false :=
    ⟨firstEvent_mem_localNames false m, noEvent_mem_localNames (by simp)⟩
  cases hbelow : m.machineList.isEmpty <;> cases hret : m.actionsReturn <;> cases g <;>
    simp only [subLoopNames, hbelow, hret] at hname <;> simp at hname <;> grind

/-- What the test for the ancestors' ranges mentions: besides what is always there, the `noEvent` of
the top-level machine and the `numEvents` of the parent. -/
lemma printAncestorEventConditional_spelled_iff (hm : top.sub? path = some m) :
    (∀ r ∈ printAncestorEventConditional path m, r.Spelled top) ↔
      (m.actionsReturn ≠ .events ∨ path.dropLast ≠ [] → top.Spells [] "noEvent") ∧
        (m.actionsReturn = .events → path.dropLast ≠ [] →
          top.Spells path.dropLast "numEvents") := by
  have hends : (∀ r ∈ printAncestorEventConditional path m, r.Spelled top) ↔
      ∀ p, p <+: path.dropLast → top.Spells p (m.labelText (ancestorEndLabel path m p)) := by
    constructor
    · intro h p hp
      apply h ⟨p, _⟩
      rw [printAncestorEventConditional, List.mem_flatMap]
      exact ⟨p, (List.mem_inits _ _).mpr hp, List.mem_cons_of_mem _ (List.mem_singleton_self _)⟩
    · intro h r hr
      obtain ⟨p, hp, hrp⟩ := List.mem_flatMap.mp hr
      have hp := (List.mem_inits _ _).mp hp
      obtain ⟨a, ha⟩ := exists_sub?_of_prefix hm (hp.trans (List.dropLast_prefix path))
      simp only [List.mem_cons, List.not_mem_nil, or_false] at hrp
      rcases hrp with rfl | rfl
      · exact spells_firstEvent ha
      · exact h p hp
  have hlabel : ∀ p, m.labelText (ancestorEndLabel path m p) =
      if p = path.dropLast ∧ m.actionsReturn = .events then "numEvents" else "noEvent" := by
    intro p
    unfold ancestorEndLabel
    split_ifs <;> rfl
  rw [hends]
  constructor
  · intro h
    constructor
    · intro hcase
      have hnil := h [] List.nil_prefix
      rwa [hlabel, if_neg] at hnil
      rintro ⟨hdrop, hret⟩
      rcases hcase with hne | hne
      · exact hne hret
      · exact hne hdrop.symm
    · intro hret hdrop
      have hparent := h path.dropLast (List.prefix_refl _)
      rwa [hlabel, if_pos ⟨rfl, hret⟩] at hparent
  · rintro ⟨hnoEvent, hnumEvents⟩ p hp
    obtain ⟨a, ha⟩ := exists_sub?_of_prefix hm (hp.trans (List.dropLast_prefix path))
    rw [hlabel]
    split_ifs with hcase
    · obtain ⟨rfl, hret⟩ := hcase
      by_cases hdrop : path.dropLast = []
      · rw [hdrop]
        exact spells_numEvents top
      · exact hnumEvents hret hdrop
    · by_cases hnil : p = []
      · subst hnil
        apply hnoEvent
        by_contra hcon
        rw [not_or, not_not, not_not] at hcon
        exact hcase ⟨hcon.2.symm, hcon.1⟩
      · exact spells_noEvent ha fun h => absurd h hnil

/-- A sub-machine's own names. -/
lemma thisNames_spelled (hm : top.sub? path = some m) (hpath : path ≠ []) {names : List String}
    (hnames : ∀ name ∈ names, name ∈ m.localNames false) :
    ∀ r ∈ thisNames path names, r.Spelled top := by
  intro r hr
  obtain ⟨name, hname, rfl⟩ := List.mem_map.mp hr
  apply spells_of_mem_localNames hm
  rw [List.isEmpty_eq_false_iff.mpr hpath]
  exact hnames name hname

/-- The debug block tells the top-level machine from other parents, and mentions nothing that may
be lacking. -/
private lemma printFSMSubMachineDebugBlock_spelled (hm : top.sub? path = some m)
    (hpath : path ≠ []) :
    ∀ r ∈ printFSMSubMachineDebugBlock path m, r.Spelled top := by
  obtain ⟨a, ha⟩ := exists_sub?_of_prefix hm (List.dropLast_prefix path)
  have hend : top.Spells path.dropLast
      (if path.dropLast = [] then "numEvents" else "noEvent") := by
    split_ifs with hdrop
    · rw [hdrop]
      exact spells_numEvents top
    · exact spells_noEvent ha fun h => absurd h hdrop
  intro r hr
  rcases List.mem_append.mp hr with hr | hr
  · refine thisNames_spelled hm hpath ?_ r hr
    simp [firstEvent_mem_localNames, noEvent_mem_localNames]
  · cases hart : m.artifactsImplementing with
    | false => simp [hart] at hr
    | true =>
      simp only [hart, if_true, parentNames, List.map_cons, List.map_nil, List.mem_cons,
        List.not_mem_nil, or_false] at hr
      rcases hr with rfl | rfl
      · exact spells_firstEvent ha
      · exact hend

/-- What a sub-machine's loop mentions: besides what is always there, the parent's `noEvent` and
what the test for the ancestors' ranges does. -/
lemma subMachineLoop_spelled_iff (htop : top.Accepted) (hm : top.sub? path = some m)
    (hpath : path ≠ []) :
    (∀ r ∈ subMachineLoop g path m, r.Spelled top) ↔
      (m.actionsReturn = .events → path.dropLast = [] → top.Spells [] "noEvent") ∧
        (g = .switch ∧ m.artifactsImplementing = true ∧ m.actionsReturn ≠ .states →
          ∀ r ∈ printAncestorEventConditional path m, r.Spelled top) := by
  obtain ⟨a, ha⟩ := exists_sub?_of_prefix hm (List.dropLast_prefix path)
  have hev := (m.accepted_iff.mp (htop.sub? hm)).1
  have hdebug := printFSMSubMachineDebugBlock_spelled hm hpath
  have hown := thisNames_spelled hm hpath fun _ => subLoopNames_subset (g := g) hev
  unfold subMachineLoop
  constructor
  · intro h
    constructor
    · intro hret hdrop
      rw [← hdrop]
      apply h ⟨path.dropLast, "noEvent"⟩
      apply List.mem_append_right
      rw [if_pos hret]
      simp [parentNames]
    · intro hts r hr
      apply h r
      apply List.mem_append_left
      apply List.mem_append_right
      rwa [if_pos hts]
  · rintro ⟨hparent, hranges⟩ r hr
    simp only [List.mem_append] at hr
    rcases hr with ((hr | hr) | hr) | hr
    · exact hdebug r hr
    · exact hown r hr
    · split_ifs at hr with hts
      · exact hranges hts r hr
      · simp at hr
    · split_ifs at hr with hret
      · rcases List.mem_append.mp hr with hr | hr
        · refine thisNames_spelled hm hpath ?_ r hr
          simp [noEvent_mem_localNames]
        · obtain rfl : r = ⟨path.dropLast, "noEvent"⟩ := by simpa [parentNames] using hr
          by_cases hdrop : path.dropLast = []
          · show top.Spells path.dropLast "noEvent"
            rw [hdrop]
            exact hparent hret hdrop
          · exact spells_noEvent ha fun h => absurd h hdrop
      · simp at hr

/-- A sub-machine that stands directly below the top-level machine. -/
private lemma mem_machineList_of_dropLast (hm : top.sub? path = some m) (hpath : path ≠ [])
    (hdrop : path.dropLast = []) : m ∈ top.machineList := by
  obtain ⟨k, rfl⟩ : ∃ k, path = [k] := by
    obtain ⟨k, q, rfl⟩ := List.exists_cons_of_ne_nil hpath
    cases q with
    | nil => exact ⟨k, rfl⟩
    | cons j q => simp at hdrop
  obtain ⟨c, hc, hcm⟩ := Option.bind_eq_some_iff.mp hm
  obtain rfl := Option.some.inj hcm
  exact List.mem_of_getElem? hc

/-- All names that are mentioned are spelled exactly if those that may be lacking are. -/
private lemma enumeratorReferences_spelled_iff (g : Generator) (htop : top.Accepted)
    (printed : List ℕ → ∀ m : Machine, PrintedMachine m) :
    (∀ path m, top.sub? path = some m →
        ∀ r ∈ enumeratorReferences g path m (printed path m), r.Spelled top) ↔
      top.ReferencesSpelled g printed := by
  constructor
  · intro h
    have hloop : ∀ path m, path ≠ [] → top.sub? path = some m →
        ∀ r ∈ subMachineLoop g path m, r.Spelled top := by
      intro path m hpath hm r hr
      apply h path m hm r
      rw [enumeratorReferences, if_neg hpath]
      exact List.mem_append_right _ (List.mem_append_left _ hr)
    refine ⟨?_, ?_, ?_⟩
    · have htop' : top.sub? [] = some top := rfl
      refine (defineSubMachineFinder_spelled_iff htop').mp ?_ rfl
      intro r hr
      exact h [] top rfl r (List.mem_append_left _ hr)
    · intro hg path m hpath hm hart hret
      have hranges := (printAncestorEventConditional_spelled_iff hm).mp
        (((subMachineLoop_spelled_iff htop hm hpath).mp (hloop path m hpath hm)).2
          ⟨hg, hart, hret⟩)
      refine ⟨?_, hranges.2⟩
      rintro (hvoid | hdrop)
      · exact hranges.1 (.inl (by simp [hvoid]))
      · exact hranges.1 (.inr hdrop)
    · intro path m hpath hm i hi p hp
      apply h path m hm ⟨p, m.eventName i⟩
      rw [enumeratorReferences, if_neg hpath]
      apply List.mem_append_right
      apply List.mem_append_right
      exact List.mem_flatMap.mpr ⟨i, hi, List.mem_map.mpr ⟨p, (List.mem_inits _ _).mpr hp, rfl⟩⟩
  · intro h path m hm r hr
    rcases List.mem_append.mp hr with hr | hr
    · exact (defineSubMachineFinder_spelled_iff hm).mpr (fun _ => h.noEvent) r hr
    · split_ifs at hr with hpath
      · simp at hr
      · rcases List.mem_append.mp hr with hr | hr
        · refine (subMachineLoop_spelled_iff htop hm hpath).mpr ⟨?_, ?_⟩ r hr
          · intro hret hdrop
            -- where the top-level machine returns something else its children are heterogeneous
            rw [spells_noEvent_iff]
            by_cases htopret : top.actionsReturn = .events
            · exact .inl htopret
            · rw [← spells_noEvent_iff]
              apply h.noEvent
              rw [Machine.heterogeneousChildren, List.any_eq_true]
              refine ⟨m, mem_machineList_of_dropLast hm hpath hdrop, ?_⟩
              simpa [hret] using fun h => htopret h.symm
          · rintro ⟨hg, hart, hret⟩
            have hranges := h.ranges hg path m hpath hm hart hret
            refine (printAncestorEventConditional_spelled_iff hm).mpr ⟨?_, hranges.2⟩
            rintro (hne | hdrop)
            · apply hranges.1
              cases hcase : m.actionsReturn with
              | events => exact absurd hcase hne
              | states => exact absurd hcase hret
              | void => exact .inl rfl
            · exact hranges.1 (.inr hdrop)
        · obtain ⟨i, hi, hr⟩ := List.mem_flatMap.mp hr
          obtain ⟨p, hp, rfl⟩ := List.mem_map.mp hr
          exact h.cases path m hpath hm i hi p ((List.mem_inits _ _).mp hp)

/-- **References.** Every name that the functions of an accepted tree mention is printed in the
event enumeration exactly if the names that may be lacking are spelled.

**Proof sketch.** A sub-machine has all its own names, and the top-level machine all but
`noEvent`. What a finder, a loop and a range test mention besides are the top-level machine's
`noEvent` and a parent's `numEvents`; the labels for ancestors are kept as they are. -/
theorem enumeratorReferences_defined_iff (compactActionArray : Bool) (designated : String → ℤ)
    (g : Generator) (htop : top.Accepted) (printed : List ℕ → ∀ m : Machine, PrintedMachine m) :
    (∀ path m, top.sub? path = some m → ∀ r ∈ enumeratorReferences g path m (printed path m),
        r.text top ∈ enumeratorNames compactActionArray designated top) ↔
      top.ReferencesSpelled g printed := by
  rw [← enumeratorReferences_spelled_iff g htop printed]
  refine forall₅_congr ?_
  intro path m hm r hr
  exact text_mem_enumeratorNames_iff htop r.path r.name

/-! ## A machine that returns nothing above one that returns events -/

/-- A matrix with one action for all events in all states. -/
def everyCell (m : Machine) : PrintedMachine m where
  actionInfoList := [⟨"a", none, [], []⟩]
  named := by simp
  populated := by
    rw [← Bool.not_eq_true, (populateActionArray_correct ?_).1, not_not]
    · have hcells : ((List.finRange m.eventList.length).flatMap fun i =>
          (List.finRange m.stateList.length).map fun s => (i, s)).Nodup :=
        (List.nodup_finRange _).product (List.nodup_finRange _)
      simpa [namedCells, namedByEntry, namedByEvent, MachineActions.matrix, List.map_flatMap,
        MachineMatrix.expandEvents, MachineMatrix.expandStates, Function.comp_def] using hcells
    · intro pai hpai
      obtain rfl : pai = ⟨"a", none, [], []⟩ := by simpa [MachineActions.matrix] using hpai
      simp
  userEventData := fun _ => false

/-- A top-level machine whose actions return nothing, with a sub-machine whose actions return
events. -/
def mixedMachine : Machine :=
  .mk { name := "top", eventList := [{ name := "e" }], stateList := [{ name := "s" }],
        actionsReturn := .void }
    [plainMachine "sub" "f" "t" []]

/-- The machine is accepted. -/
lemma mixedMachine_accepted : mixedMachine.Accepted := by
  simp [mixedMachine, plainMachine, Machine.Accepted, Machine.AcceptedList]

/-- Its finder starts with `top_noEvent`, which is not printed. -/
theorem not_enumeratorReferences_defined_mixedMachine :
    ¬ ∀ (g : Generator) (top : Machine) (printed : List ℕ → ∀ m : Machine, PrintedMachine m),
      top.Accepted → ∀ path m, top.sub? path = some m →
        ∀ r ∈ enumeratorReferences g path m (printed path m),
          r.text top ∈ enumeratorNames false (fun _ => 0) top := by
  intro h
  have hmem := h .table mixedMachine (fun _ m => everyCell m) mixedMachine_accepted [] mixedMachine
    rfl ⟨[], "noEvent"⟩ (List.mem_append_left _ (by decide))
  rw [text_mem_enumeratorNames_iff mixedMachine_accepted, spells_noEvent_iff] at hmem
  revert hmem
  simp [mixedMachine]

/-- No event of the tree is shared or takes user data. -/
lemma ancestorCaseEvents_overlapMachine (path : List ℕ) (m : Machine)
    (hm : overlapMachine.sub? path = some m) :
    m.artifactsImplementing = false ∧ ancestorCaseEvents .switch (everyCell m) = [] := by
  have hart : m.artifactsImplementing = false := by
    rcases path with _ | ⟨_ | _ | k, _ | ⟨_ | k, _ | ⟨_ | k, _ | ⟨k, p⟩⟩⟩⟩ <;>
      simp [overlapMachine, plainMachine, Machine.sub?] at hm <;> subst hm <;> rfl
  exact ⟨hart, by simp [ancestorCaseEvents, everyCell, hart]⟩

/-- The machines of the tree all return events. -/
lemma referencesSpelled_overlapMachine :
    overlapMachine.ReferencesSpelled .switch fun _ m => everyCell m where
  noEvent := fun _ => (spells_noEvent_iff _).mpr (.inl rfl)
  ranges := by
    intro _ path m _ hm hart
    rw [(ancestorCaseEvents_overlapMachine path m hm).1] at hart
    cases hart
  cases := by
    intro path m _ hm i hi
    rw [(ancestorCaseEvents_overlapMachine path m hm).2] at hi
    cases hi

/-- In a tree whose machines all return events, without shared events, no name is lacking and
everything is printed. -/
theorem enumeratorReferences_defined_overlapMachine :
    (overlapMachine.ReferencesSpelled .switch fun _ m => everyCell m) ∧
      ∀ path m, overlapMachine.sub? path = some m →
        ∀ r ∈ enumeratorReferences .switch path m (everyCell m),
          r.text overlapMachine ∈ enumeratorNames false (fun _ => 0) overlapMachine :=
  ⟨referencesSpelled_overlapMachine, (enumeratorReferences_defined_iff false (fun _ => 0) .switch
    (by simp [overlapMachine, plainMachine, Machine.Accepted, Machine.AcceptedList])
    fun _ m => everyCell m).mpr referencesSpelled_overlapMachine⟩

end FsmLang
