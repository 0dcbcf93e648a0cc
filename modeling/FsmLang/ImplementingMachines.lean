import Mathlib.Data.List.Basic
import Mathlib.Logic.Function.Basic
import Mathlib.Tactic
import FsmLang.Machine
import FsmLang.SharedEvents

set_option relaxedAutoImplicit false
set_option autoImplicit false

/-!
# Machines that implement states and translators

A state or a data translator may be declared as implemented by a machine. The machine is named
there first; its definition, among the sub-machines, completes the record of the name with the
machine itself. Nothing checks that there is a definition.

The generators take the machine from the record: for the function of a state that is implemented by
one, and for the translator of a shared event, where a sharer implements some translator. A
translator that is a plain function has no record to take it from.

## Main definitions

* `MachineNames` — what the parser keeps of the names of a machine's sub-machines.
* `declare` — a declaration, and `ParsedTree`, a tree that is parsed without error.
* `ParsedTree.MachinesExist` — every machine that the generators take exists.

## Main results

* `namesRight_of_foldlM` — what has been recorded after a sequence of declarations.
* `ParsedTree.machinesExist_iff` — when every machine that is taken exists.
-/

namespace FsmLang

/-! ## Names of machines -/

/-- What the name of a machine stands for. The token of a name that is not known yet is `ID`. -/
inductive MachineIdType where
  | id
  | undefinedSI
  | undefinedTI
  | siMachine
  | tiMachine
  | machine
  deriving DecidableEq, Repr

/-- What the parser keeps, while it reads a machine, of the states and translators that are
implemented by machines (`implementingMachine`) and of the names of machines. `pmi` is the place of
the machine that has been defined under a name, of which some artifact is to be implemented; the
flags in the list of machines are `mfStateImplementing` and `mfTranslatorImplementing`. -/
structure MachineNames where
  idType : String → MachineIdType
  pmi : String → Option ℕ
  stateMachine : String → Option String
  translatorMachine : String → Option String
  inhibitSubMachines : String → Bool
  machineList : List (String × Bool × Bool)
  good : Bool

namespace MachineNames

/-- Before the first declaration. -/
def start : MachineNames where
  idType := fun _ => .id
  pmi := fun _ => none
  stateMachine := fun _ => none
  translatorMachine := fun _ => none
  inhibitSubMachines := fun _ => false
  machineList := []
  good := true

/-- What is written. -/
inductive Declaration where
  | stateInhibits (state : String)
  | stateImplementedBy (state machine : String)
  | translatorImplementedBy (translator machine : String)
  | machine (name : String)
  deriving DecidableEq, Repr

/-- `state_implemented_by`. -/
def stateImplementedBy (N : MachineNames) (state machine : String) : MachineNames :=
  { N with
    good := N.good && !N.inhibitSubMachines state
    stateMachine := Function.update N.stateMachine state (some machine)
    idType := Function.update N.idType machine .undefinedSI }

/-- `translator_implemented_by`. -/
def translatorImplementedBy (N : MachineNames) (translator machine : String) : MachineNames :=
  { N with
    translatorMachine := Function.update N.translatorMachine translator (some machine)
    idType := Function.update N.idType machine .undefinedTI }

/-- `machine_declared_by_id`. -/
def machineDeclaredById (N : MachineNames) (name : String) : MachineNames :=
  { N with
    idType := Function.update N.idType name .machine
    machineList := N.machineList ++ [(name, false, false)] }

/-- `machine_declared_by_machine_pid`. -/
def machineDeclaredByMachinePid (N : MachineNames) (name : String) (implementsState : Bool) :
    MachineNames :=
  { N with
    idType := Function.update N.idType name (if implementsState then .siMachine else .tiMachine)
    pmi := Function.update N.pmi name (some N.machineList.length)
    machineList := N.machineList ++ [(name, implementsState, !implementsState)] }

/-- A declaration; `none` is a syntax error. -/
def declare (N : MachineNames) : Declaration → Option MachineNames
  | .stateInhibits state =>
    some { N with
      good := N.good && (N.stateMachine state).isNone
      inhibitSubMachines := Function.update N.inhibitSubMachines state true }
  | .stateImplementedBy state machine =>
    if N.idType machine = .id then some (N.stateImplementedBy state machine) else none
  | .translatorImplementedBy translator machine =>
    if N.idType machine = .id then some (N.translatorImplementedBy translator machine) else none
  | .machine name =>
    match N.idType name with
    | .id => some (N.machineDeclaredById name)
    | .undefinedSI => some (N.machineDeclaredByMachinePid name true)
    | .undefinedTI => some (N.machineDeclaredByMachinePid name false)
    | _ => none

/-- The machine that is taken for an artifact, from the record of the machine's name. There is none
if none has been named (the name is a null pointer) or none been defined (the record has a null
pointer). -/
def take (N : MachineNames) (implementingMachine : Option String) : Option ℕ :=
  implementingMachine.bind N.pmi

/-! ## What is recorded -/

/-- The records after the declarations `ds`. -/
structure Right (ds : List Declaration) (N : MachineNames) : Prop where
  fresh : ∀ X, N.idType X = .id ∨ N.idType X = .undefinedSI ∨ N.idType X = .undefinedTI →
    .machine X ∉ ds
  pmi_iff : ∀ X, N.idType X ≠ .machine → ((N.pmi X).isSome = true ↔ .machine X ∈ ds)
  named : ∀ X k, N.pmi X = some k → (N.machineList[k]?).map Prod.fst = some X
  stateMachine : ∀ s X, N.stateMachine s = some X → N.idType X ≠ .id ∧ N.idType X ≠ .machine
  translatorMachine : ∀ t X, N.translatorMachine t = some X →
    N.idType X ≠ .id ∧ N.idType X ≠ .machine

/-- Before the first declaration nothing is known. -/
private lemma right_start : Right [] start where
  fresh := by simp
  pmi_iff := by simp [start]
  named := by simp [start]
  stateMachine := by simp [start]
  translatorMachine := by simp [start]

variable {ds : List Declaration} {N N' : MachineNames}

/-- A name gets the type of a machine that is to be defined. -/
lemma Right.implementedBy (h : Right ds N) {X : String} (hX : N.idType X = .id)
    {ty : MachineIdType} (hty : ty = .undefinedSI ∨ ty = .undefinedTI) {d : Declaration}
    (hd : ∀ Y, d ≠ .machine Y) (hidType : N'.idType = Function.update N.idType X ty)
    (hpmi : N'.pmi = N.pmi) (hlist : N'.machineList = N.machineList)
    (hstate : ∀ s Y, N'.stateMachine s = some Y → N.stateMachine s = some Y ∨ Y = X)
    (htranslator : ∀ t Y, N'.translatorMachine t = some Y →
      N.translatorMachine t = some Y ∨ Y = X) :
    Right (ds ++ [d]) N' := by
  have hmem : ∀ Y, Declaration.machine Y ∈ ds ++ [d] ↔ Declaration.machine Y ∈ ds := by
    intro Y
    simp [(hd Y).symm]
  have hne : ty ≠ .id ∧ ty ≠ .machine := by
    rcases hty with rfl | rfl <;> simp
  have htype : ∀ Y, (N.idType Y ≠ .id ∧ N.idType Y ≠ .machine) ∨ Y = X →
      N'.idType Y ≠ .id ∧ N'.idType Y ≠ .machine := by
    intro Y hY
    rw [hidType]
    by_cases hYX : Y = X
    · rw [hYX, Function.update_self]
      exact hne
    · rw [Function.update_of_ne hYX]
      exact hY.resolve_right hYX
  refine ⟨fun Y hY => ?_, fun Y hY => ?_, ?_, fun s Y hs => ?_, fun t Y ht => ?_⟩
  · rw [hmem]
    by_cases hYX : Y = X
    · exact h.fresh Y (.inl (by rw [hYX]; exact hX))
    · rw [hidType, Function.update_of_ne hYX] at hY
      exact h.fresh Y hY
  · rw [hmem, hpmi]
    by_cases hYX : Y = X
    · exact h.pmi_iff Y (by rw [hYX, hX]; simp)
    · rw [hidType, Function.update_of_ne hYX] at hY
      exact h.pmi_iff Y hY
  · rw [hpmi, hlist]
    exact h.named
  · refine htype Y ?_
    rcases hstate s Y hs with hs | hYX
    · exact .inl (h.stateMachine s Y hs)
    · exact .inr hYX
  · refine htype Y ?_
    rcases htranslator t Y ht with ht | hYX
    · exact .inl (h.translatorMachine t Y ht)
    · exact .inr hYX

/-- A name is taken for a machine that does not implement anything. -/
lemma Right.machineDeclaredById (h : Right ds N) {X : String} (hX : N.idType X = .id) :
    Right (ds ++ [.machine X]) (N.machineDeclaredById X) := by
  have hne : ∀ Y, N.idType Y ≠ .id → Y ≠ X := by
    rintro Y hY rfl
    exact hY hX
  refine ⟨fun Y hY => ?_, fun Y hY => ?_, fun Y k hk => ?_, fun s Y hs => ?_, fun t Y ht => ?_⟩
  · by_cases hYX : Y = X
    · rw [hYX] at hY
      simp [MachineNames.machineDeclaredById] at hY
    · simp only [MachineNames.machineDeclaredById, Function.update_of_ne hYX] at hY
      simp [h.fresh Y hY, hYX]
  · by_cases hYX : Y = X
    · rw [hYX] at hY
      simp [MachineNames.machineDeclaredById] at hY
    · simp only [MachineNames.machineDeclaredById, Function.update_of_ne hYX] at hY
      simpa [MachineNames.machineDeclaredById, hYX] using h.pmi_iff Y hY
  · have hold := h.named Y k hk
    obtain ⟨r, hr, -⟩ := Option.map_eq_some_iff.mp hold
    obtain ⟨hlt, -⟩ := List.getElem?_eq_some_iff.mp hr
    rw [← hold]
    simp only [MachineNames.machineDeclaredById]
    rw [List.getElem?_append_left hlt]
  · have hold := h.stateMachine s Y hs
    simpa [MachineNames.machineDeclaredById, Function.update_of_ne (hne Y hold.1)] using hold
  · have hold := h.translatorMachine t Y ht
    simpa [MachineNames.machineDeclaredById, Function.update_of_ne (hne Y hold.1)] using hold

/-- A machine is defined that implements a state or a translator. -/
lemma Right.machineDeclaredByMachinePid (h : Right ds N) {X : String} (implementsState : Bool) :
    Right (ds ++ [.machine X]) (N.machineDeclaredByMachinePid X implementsState) := by
  have htype : (N.machineDeclaredByMachinePid X implementsState).idType X = .siMachine ∨
      (N.machineDeclaredByMachinePid X implementsState).idType X = .tiMachine := by
    cases implementsState <;> simp [MachineNames.machineDeclaredByMachinePid]
  have hother : ∀ Y, Y ≠ X →
      (N.machineDeclaredByMachinePid X implementsState).idType Y = N.idType Y := by
    intro Y hYX
    simp [MachineNames.machineDeclaredByMachinePid, hYX]
  have hartifact : ∀ Y, N.idType Y ≠ .id ∧ N.idType Y ≠ .machine →
      (N.machineDeclaredByMachinePid X implementsState).idType Y ≠ .id ∧
        (N.machineDeclaredByMachinePid X implementsState).idType Y ≠ .machine := by
    intro Y hY
    by_cases hYX : Y = X
    · rw [hYX]
      rcases htype with htype | htype <;> simp [htype]
    · rw [hother Y hYX]
      exact hY
  refine ⟨fun Y hY => ?_, fun Y hY => ?_, fun Y k hk => ?_,
    fun s Y hs => hartifact Y (h.stateMachine s Y hs),
    fun t Y ht => hartifact Y (h.translatorMachine t Y ht)⟩
  · by_cases hYX : Y = X
    · rw [hYX] at hY
      rcases htype with htype | htype <;> simp [htype] at hY
    · rw [hother Y hYX] at hY
      simp [h.fresh Y hY, hYX]
  · by_cases hYX : Y = X
    · rw [hYX]
      simp [MachineNames.machineDeclaredByMachinePid]
    · rw [hother Y hYX] at hY
      simpa [MachineNames.machineDeclaredByMachinePid, hYX] using h.pmi_iff Y hY
  · by_cases hYX : Y = X
    · rw [hYX] at hk ⊢
      obtain rfl : N.machineList.length = k := by
        simpa [MachineNames.machineDeclaredByMachinePid] using hk
      simp [MachineNames.machineDeclaredByMachinePid]
    · have hold := h.named Y k (by simpa [MachineNames.machineDeclaredByMachinePid, hYX] using hk)
      obtain ⟨r, hr, -⟩ := Option.map_eq_some_iff.mp hold
      obtain ⟨hlt, -⟩ := List.getElem?_eq_some_iff.mp hr
      rw [← hold]
      simp only [MachineNames.machineDeclaredByMachinePid]
      rw [List.getElem?_append_left hlt]

/-- **A declaration** keeps the records right. -/
lemma Right.declare (h : Right ds N) {d : Declaration} (hN' : N.declare d = some N') :
    Right (ds ++ [d]) N' := by
  cases d with
  | stateInhibits state =>
    obtain rfl := Option.some.inj hN'
    have hmem : ∀ Y, Declaration.machine Y ∈ ds ++ [Declaration.stateInhibits state] ↔
        Declaration.machine Y ∈ ds := by simp
    exact ⟨fun Y hY => by rw [hmem]; exact h.fresh Y hY,
      fun Y hY => by rw [hmem]; exact h.pmi_iff Y hY, h.named, h.stateMachine, h.translatorMachine⟩
  | stateImplementedBy state machine =>
    simp only [MachineNames.declare] at hN'
    split_ifs at hN' with hid
    obtain rfl := Option.some.inj hN'
    refine h.implementedBy hid (.inl rfl) (by simp) rfl rfl rfl (fun s Y hs => ?_)
      (fun t Y ht => .inl ht)
    by_cases hss : s = state
    · subst hss
      exact .inr (by simpa [MachineNames.stateImplementedBy] using hs.symm)
    · exact .inl (by simpa [MachineNames.stateImplementedBy, hss] using hs)
  | translatorImplementedBy translator machine =>
    simp only [MachineNames.declare] at hN'
    split_ifs at hN' with hid
    obtain rfl := Option.some.inj hN'
    refine h.implementedBy hid (.inr rfl) (by simp) rfl rfl rfl (fun s Y hs => .inl hs)
      (fun t Y ht => ?_)
    by_cases htt : t = translator
    · subst htt
      exact .inr (by simpa [MachineNames.translatorImplementedBy] using ht.symm)
    · exact .inl (by simpa [MachineNames.translatorImplementedBy, htt] using ht)
  | machine name =>
    simp only [MachineNames.declare] at hN'
    match hid : N.idType name with
    | .id =>
      obtain rfl : N.machineDeclaredById name = N' := by simpa [hid] using hN'
      exact h.machineDeclaredById hid
    | .undefinedSI =>
      obtain rfl : N.machineDeclaredByMachinePid name true = N' := by simpa [hid] using hN'
      exact h.machineDeclaredByMachinePid true
    | .undefinedTI =>
      obtain rfl : N.machineDeclaredByMachinePid name false = N' := by simpa [hid] using hN'
      exact h.machineDeclaredByMachinePid false
    | .siMachine => simp [hid] at hN'
    | .tiMachine => simp [hid] at hN'
    | .machine => simp [hid] at hN'

/-- **What has been recorded** after a sequence of declarations without a syntax error. -/
theorem right_of_foldlM (h : ds.foldlM declare start = some N) : Right ds N := by
  induction ds using List.reverseRecOn generalizing N with
  | nil =>
    obtain rfl := Option.some.inj h
    exact right_start
  | append_singleton ds d ih =>
    rw [List.foldlM_append] at h
    obtain ⟨N₀, h₀, hd⟩ := Option.bind_eq_some_iff.mp h
    have hd : N₀.declare d = some N := by simpa using hd
    exact (ih h₀).declare hd

/-- The machine of a state or a translator exists if one has been named, and been defined under the
name. -/
lemma Right.take_isSome_iff (h : Right ds N) {implementingMachine : Option String}
    (himpl : ∀ X, implementingMachine = some X → N.idType X ≠ .machine) :
    (N.take implementingMachine).isSome = true ↔
      ∃ X, implementingMachine = some X ∧ .machine X ∈ ds := by
  cases implementingMachine with
  | none => simp [take]
  | some X =>
    have hiff := h.pmi_iff X (himpl X rfl)
    simpa [take] using hiff

end MachineNames

/-! ## Trees of machines -/

open MachineNames

/-- A tree of machines that is parsed without error: which events refer to the parent's, the data
translators of the events by their names, and for each machine the declarations in it that have to
do with machines, with the names recorded at the end. -/
structure ParsedTree where
  top : Machine
  parentReference : List ℕ → ∀ m : Machine, m.EventIdx → Bool
  translatorFn : List ℕ → String → Option String
  declarations : List ℕ → List Declaration
  names : List ℕ → MachineNames
  parsed : ∀ path P, top.sub? path = some P →
    (declarations path).foldlM MachineNames.declare MachineNames.start = some (names path) ∧
      (names path).good = true
  machines : ∀ path P, top.sub? path = some P → (names path).machineList =
    P.machineList.map fun c =>
      (c.info.name, c.info.stateImplementing, c.info.translatorImplementing)

namespace ParsedTree

variable (T : ParsedTree)

/-- The sharing of events, with the machines that are taken for the translators. -/
def sharing : Sharing := fun path m =>
  { parentReference := T.parentReference path m
    translator := fun name => (T.translatorFn path name).map fun t =>
      (T.names path).take ((T.names path).translatorMachine t) }

/-- The machine that the function of a state runs, by the place of the machine; `none` if the state
is not implemented by one. -/
def stateFnMachine (path : List ℕ) (s : State) : Option (Option ℕ) :=
  ((T.names path).stateMachine s.name).map fun X => (T.names path).take (some X)

/-- Every machine that is taken exists: for the functions of states the sub-machine of the name;
and for translators of shared events some machine, in the lists of sharers and in the sharers' own
files. -/
structure MachinesExist : Prop where
  stateFns : ∀ path P, T.top.sub? path = some P → ∀ s ∈ P.stateList, ∀ X,
    (T.names path).stateMachine s.name = some X →
      ∃ k S, T.stateFnMachine path s = some (some k) ∧ P.machineList[k]? = some S ∧ S.info.name = X
  sharingLists : ∀ path P, T.top.sub? path = some P → ∀ i,
    (defineSharedEventLists T.sharing path P i).isSome = true
  structures : ∀ path P, T.top.sub? path = some P → ∀ k S, P.machineList[k]? = some S →
    (defineNeededSharedEventStructures T.sharing path P k S).isSome = true

/-- The machine that a state is implemented by is defined; and a machine that implements a
translator shares no event whose translator is not implemented by a machine that is defined. -/
structure MachinesDefined : Prop where
  states : ∀ path P, T.top.sub? path = some P → ∀ s ∈ P.stateList, ∀ X,
    (T.names path).stateMachine s.name = some X → .machine X ∈ T.declarations path
  translators : ∀ o P S i, Sharer T.top T.sharing o P S i →
    S.info.translatorImplementing = true → ∀ t, T.translatorFn o.path (S.eventName i) = some t →
      ∃ X, (T.names o.path).translatorMachine t = some X ∧ .machine X ∈ T.declarations o.path

variable {T} {path : List ℕ} {P : Machine}

/-- The declarations of a machine leave what they say. -/
lemma right (hP : T.top.sub? path = some P) : Right (T.declarations path) (T.names path) :=
  right_of_foldlM (T.parsed path P hP).1

/-- What is taken for a name is the sub-machine of this name. -/
private lemma exists_of_take (hP : T.top.sub? path = some P) {X : String} {k : ℕ}
    (h : (T.names path).take (some X) = some k) :
    ∃ S, P.machineList[k]? = some S ∧ S.info.name = X := by
  have hnamed := (right hP).named X k h
  rw [T.machines path P hP, List.getElem?_map, Option.map_map] at hnamed
  obtain ⟨S, hS, hname⟩ := Option.map_eq_some_iff.mp hnamed
  exact ⟨S, hS, hname⟩

/-- A machine is found for a state if it is defined. -/
lemma take_stateMachine_iff (hP : T.top.sub? path = some P) {s X : String}
    (hX : (T.names path).stateMachine s = some X) :
    ((T.names path).take (some X)).isSome = true ↔ .machine X ∈ T.declarations path := by
  have htake := (right hP).take_isSome_iff
    fun Y (hY : (T.names path).stateMachine s = some Y) => ((right hP).stateMachine s Y hY).2
  rw [hX] at htake
  simpa using htake

/-- A look-up for a shared event does not follow a null pointer if the translator's machine is
defined. -/
lemma translator_ne_iff (hP : T.top.sub? path = some P) (name : String) :
    (T.sharing path P).translator name ≠ some none ↔ ∀ t, T.translatorFn path name = some t →
      ∃ X, (T.names path).translatorMachine t = some X ∧ .machine X ∈ T.declarations path := by
  simp only [sharing]
  cases T.translatorFn path name with
  | none => simp
  | some t =>
    have htake := (right hP).take_isSome_iff
      fun X (hX : (T.names path).translatorMachine t = some X) =>
        ((right hP).translatorMachine t X hX).2
    have hne : some ((T.names path).take ((T.names path).translatorMachine t)) ≠ some none ↔
        ((T.names path).take ((T.names path).translatorMachine t)).isSome = true := by
      rw [Option.isSome_iff_ne_none, ne_eq, Option.some.injEq]
    rw [Option.map_some, hne, htake]
    simp

/-- **Machines that implement something.** In every tree of machines that is parsed without error,
every machine that the generators take for a state or a translator exists if and only if every
machine that a state is declared as implemented by is defined, and no machine that implements a
translator shares an event whose translator is a plain function, or is implemented by a machine that
is not defined.

**Proof sketch.** A name that is declared as that of an implementing machine gets its record
completed by a definition, and by nothing else. The generators ask for a state's machine whenever it
is declared; for a translator's, in the file of a sharer, whenever the sharer implements some
translator, and in the lists of sharers not more often. -/
theorem machinesExist_iff (T : ParsedTree) : T.MachinesExist ↔ T.MachinesDefined := by
  constructor
  · intro h
    refine ⟨fun path P hP s hs X hX => ?_, fun o P S i hsharer hflag => ?_⟩
    · obtain ⟨k, S, htake, -⟩ := h.stateFns path P hP s hs X hX
      rw [stateFnMachine, hX, Option.map_some, Option.some.injEq] at htake
      have hsome : ((T.names path).take (some X)).isSome = true := by rw [htake]; rfl
      exact (take_stateMachine_iff hP hX).mp hsome
    · have hlook := looksUp_of_isSome h.structures o P S i hsharer hflag
      exact (translator_ne_iff hsharer.parent _).mp hlook
  · intro h
    have hlook : LooksUp T.top T.sharing := fun o P S i hsharer hflag =>
      (translator_ne_iff hsharer.parent _).mpr (h.translators o P S i hsharer hflag)
    refine ⟨fun path P hP s hs X hX => ?_, fun path P hP i => ?_, fun path P hP k S hS => ?_⟩
    · obtain ⟨k, hk⟩ := Option.isSome_iff_exists.mp
        ((take_stateMachine_iff hP hX).mpr (h.states path P hP s hs X hX))
      obtain ⟨S, hS, hname⟩ := exists_of_take hP hk
      exact ⟨k, S, by rw [stateFnMachine, hX, Option.map_some, hk], hS, hname⟩
    · rw [defineSharedEventLists_eq hlook hP]
      rfl
    · rw [defineNeededSharedEventStructures_eq hlook hP hS]
      rfl

end ParsedTree

/-- `machine top { state s implemented by machine X; event e; ... }`, without a machine `X`. -/
def undefinedMachine : ParsedTree where
  top := .mk { name := "top", eventList := [{ name := "e" }], stateList := [{ name := "s" }] } []
  parentReference := fun _ _ _ => false
  translatorFn := fun _ _ => none
  declarations := fun _ => [.stateImplementedBy "s" "X"]
  names := fun _ => start.stateImplementedBy "s" "X"
  parsed := by simp [MachineNames.declare, start, MachineNames.stateImplementedBy]
  machines := by
    intro path P hP
    cases path with
    | nil =>
      obtain rfl := Option.some.inj hP
      rfl
    | cons k path => simp [Machine.sub?_cons] at hP

/-- The function of the state is to run a machine that does not exist. -/
theorem not_machinesExist_undefinedMachine :
    ¬ undefinedMachine.MachinesExist ∧
      undefinedMachine.stateFnMachine [] { name := "s" } = some none := by
  have hnone : undefinedMachine.stateFnMachine [] { name := "s" } = some none := by decide
  refine ⟨fun h => ?_, hnone⟩
  obtain ⟨k, S, htake, -⟩ := h.stateFns [] _ rfl { name := "s" } (by decide) "X" (by decide)
  rw [hnone] at htake
  cases htake

end FsmLang
