import Mathlib.Data.List.Basic
import Mathlib.Data.List.Nodup
import Mathlib.Tactic
import FsmLang.CSemantics.Reports
import FsmLang.Grammar

set_option relaxedAutoImplicit false
set_option autoImplicit false

/-!
# What is said before a machine's brace

Native code, and qualifiers. There is place for one prologue and one epilogue, for one function that
is called on transitions, for one specification of what actions return and one of what data
translators return. Blocks of native code for the implementation that stand next to each other make
one qualifier, which may come once.

What is said a second time is reported. It is taken in all the same, and of what actions return the
flags of both specifications are set.

## Main definitions

* `NativeInfo`, `addNative`, `addNativeImpl` — native code.
* `QualifierItem`, `qualifierItems` — qualifiers with the blocks that make one.
* `MachineQualifier`, `addQualifier` — what the qualifiers say together.

## Main results

* `readNatives_eq_nil_iff`, `readQualifiers_eq_nil_iff` — when nothing is reported.
* `OwnText.actionsReturn_eq_states_iff` — the flags are those of what is said.
-/

namespace FsmLang

open CSemantics

/-! ## Native code -/

/-- Blocks of native code (`NATIVE_INFO`). -/
structure NativeInfo where
  prologue : Option (List Char) := none
  epilogue : Option (List Char) := none
  deriving DecidableEq, Repr

/-- A message, under a condition. -/
def report (c : Bool) (message : String) : List String := if c then [message] else []

/-- A message is reported if its condition holds. -/
@[simp] lemma report_eq_nil {c : Bool} {message : String} : report c message = [] ↔ c = false := by
  cases c <;> simp [report]

/-- A block is added to others, with the messages for a second one. -/
def addNativeBlock (twoPrologues twoEpilogues : String) (x : NativeInfo) :
    NativeText → NativeInfo × List String
  | .prologue _ block => ({ x with prologue := some block }, report x.prologue.isSome twoPrologues)
  | .epilogue block => ({ x with epilogue := some block }, report x.epilogue.isSome twoEpilogues)

/-- `native`, before a machine. -/
def addNative : NativeInfo → NativeText → NativeInfo × List String :=
  addNativeBlock "cannot declare two native prologues" "cannot declare two native epilogues"

/-- `native_impl`, among the qualifiers. -/
def addNativeImpl : NativeInfo → NativeText → NativeInfo × List String :=
  addNativeBlock "only one native implementation prologue is allowed"
    "only one native implementation epilogue is allowed"

/-- Prologue or epilogue. -/
def NativeText.isEpilogue : NativeText → Bool
  | .prologue _ _ => false
  | .epilogue _ => true

/-- There is a block of this kind. -/
def NativeInfo.Has (x : NativeInfo) (isEpilogue : Bool) : Prop :=
  if isEpilogue then x.epilogue.isSome = true else x.prologue.isSome = true

section Native

variable {twoPrologues twoEpilogues : String}

/-- The blocks after one more has been read. -/
lemma has_addNativeBlock (x : NativeInfo) (n : NativeText) (i : Bool) :
    ((addNativeBlock twoPrologues twoEpilogues x n).1.Has i) ↔ x.Has i ∨ n.isEpilogue = i := by
  cases n <;> cases i <;> simp [addNativeBlock, NativeInfo.Has, NativeText.isEpilogue]

/-- At most one prologue and one epilogue. -/
lemma reportRun_addNativeBlock (l : List NativeText) :
    (reportRun (addNativeBlock twoPrologues twoEpilogues) {} l).2 = [] ↔
      (l.map NativeText.isEpilogue).Nodup := by
  have hreport : ∀ (x : NativeInfo) (n : NativeText),
      (addNativeBlock twoPrologues twoEpilogues x n).2 = [] ↔ True ∧ ¬ x.Has n.isEpilogue := by
    rintro x (_ | _) <;> simp [addNativeBlock, NativeInfo.Has, NativeText.isEpilogue]
  have hnone : ∀ i, ¬ ({} : NativeInfo).Has i := by
    rintro (_ | _) <;> simp [NativeInfo.Has]
  rw [reportRun_eq_nil_iff hreport has_addNativeBlock]
  simp [hnone]

/-- Blocks stay. -/
private lemma has_reportRun (x : NativeInfo) (l : List NativeText) (i : Bool) :
    (reportRun (addNativeBlock twoPrologues twoEpilogues) x l).1.Has i ↔
      x.Has i ∨ i ∈ l.map NativeText.isEpilogue := by
  induction l generalizing x with
  | nil => simp
  | cons n l ih =>
    rw [reportRun_cons_fst, ih, has_addNativeBlock, List.map_cons, List.mem_cons, or_assoc,
      eq_comm (a := i)]

end Native

/-- The native code before a machine. -/
def OwnText.native (o : OwnText) : NativeInfo × List String := reportRun addNative {} o.natives

/-- No block is reported exactly if there is at most one of each kind. -/
lemma readNatives_eq_nil_iff (o : OwnText) :
    o.native.2 = [] ↔ (o.natives.map NativeText.isEpilogue).Nodup :=
  reportRun_addNativeBlock o.natives

/-! ## Qualifiers -/

/-- A qualifier, where native blocks that stand next to each other are one. -/
inductive QualifierItem where
  | onTransition (fn : Ident)
  | actionsReturn (what : ActionsReturn)
  | translatorsReturn (events : Bool)
  | nativeImpl (first : NativeText) (rest : List NativeText)
  deriving DecidableEq

/-- A qualifier is put before others: a native block joins the ones it stands next to. -/
def joinQualifier : QualifierText → List QualifierItem → List QualifierItem
  | .onTransition fn, items => .onTransition fn :: items
  | .actionsReturn what, items => .actionsReturn what :: items
  | .translatorsReturn events, items => .translatorsReturn events :: items
  | .nativeImpl n, .nativeImpl first rest :: items => .nativeImpl n (first :: rest) :: items
  | .nativeImpl n, items => .nativeImpl n [] :: items

/-- The qualifiers as the grammar has them. -/
def qualifierItems (l : List QualifierText) : List QualifierItem := l.foldr joinQualifier []

/-- What is said of a machine (`MACHINE_QUALIFIER`), with its flags one by one. -/
structure MachineQualifier where
  machineTransition : Option Ident := none
  actionsReturnDeclared : Bool := false
  actionsReturnStates : Bool := false
  actionsReturnVoid : Bool := false
  translatorsReturnDeclared : Bool := false
  translatorsReturnEvents : Bool := false
  nativeImpl : NativeInfo := {}
  deriving DecidableEq

/-- `machine_qualifier`. -/
def addQualifier (q : MachineQualifier) : QualifierItem → MachineQualifier × List String
  | .onTransition fn =>
    ({ q with machineTransition := some fn },
      report q.machineTransition.isSome
        "only one machine transition declaration allowed per machine")
  | .actionsReturn what =>
    ({ q with
        actionsReturnDeclared := true
        actionsReturnStates := q.actionsReturnStates || what = .states
        actionsReturnVoid := q.actionsReturnVoid || what = .void },
      report q.actionsReturnDeclared "only one action return spec allowed per machine")
  | .translatorsReturn events =>
    ({ q with
        translatorsReturnDeclared := true
        translatorsReturnEvents := q.translatorsReturnEvents || events },
      report q.translatorsReturnDeclared "only one translator return spec allowed per machine")
  | .nativeImpl first rest =>
    let read := reportRun addNativeImpl {} (first :: rest)
    ({ q with nativeImpl := read.1 },
      read.2 ++ (report q.nativeImpl.prologue.isSome
          "only one native_prologue implementation allowed per machine" ++
        report q.nativeImpl.epilogue.isSome
          "only one native_epilogue implementation allowed per machine"))

/-- What the qualifiers of a machine say. -/
def OwnText.qualifier (o : OwnText) : MachineQualifier × List String :=
  reportRun addQualifier {} (qualifierItems o.qualifiers)

/-- What the actions return, by the flags. -/
def MachineQualifier.actionsReturn (q : MachineQualifier) : ActionsReturn :=
  if q.actionsReturnStates then .states else if q.actionsReturnVoid then .void else .events

/-- What the actions of a machine return. -/
def OwnText.actionsReturn (o : OwnText) : ActionsReturn := o.qualifier.1.actionsReturn

/-- The kinds of qualifiers. -/
inductive QualifierKind where
  | onTransition
  | actionsReturn
  | translatorsReturn
  | nativeImpl
  deriving DecidableEq, Repr

/-- The kind of a qualifier. -/
def QualifierItem.kind : QualifierItem → QualifierKind
  | .onTransition _ => .onTransition
  | .actionsReturn _ => .actionsReturn
  | .translatorsReturn _ => .translatorsReturn
  | .nativeImpl _ _ => .nativeImpl

/-- At most one prologue and one epilogue are in a qualifier. -/
def QualifierItem.BlocksOnce : QualifierItem → Prop
  | .nativeImpl first rest => ((first :: rest).map NativeText.isEpilogue).Nodup
  | _ => True

/-- The qualifiers of a machine are of different kinds. -/
structure OwnText.QualifiersOnce (o : OwnText) : Prop where
  kinds : ((qualifierItems o.qualifiers).map QualifierItem.kind).Nodup
  blocks : ∀ item ∈ qualifierItems o.qualifiers, item.BlocksOnce

/-- A qualifier of this kind has been read. -/
def MachineQualifier.Has (q : MachineQualifier) : QualifierKind → Prop
  | .onTransition => q.machineTransition.isSome = true
  | .actionsReturn => q.actionsReturnDeclared = true
  | .translatorsReturn => q.translatorsReturnDeclared = true
  | .nativeImpl => ∃ i, q.nativeImpl.Has i

/-- There is a block exactly if one is stored. -/
private lemma nativeInfo_has_iff (x : NativeInfo) :
    (∃ i, x.Has i) ↔ x.prologue.isSome = true ∨ x.epilogue.isSome = true := by
  simp [NativeInfo.Has]

/-- The kinds of qualifiers after one more has been read. -/
private lemma has_addQualifier (q : MachineQualifier) (item : QualifierItem) (i : QualifierKind) :
    (addQualifier q item).1.Has i ↔ q.Has i ∨ item.kind = i := by
  cases item with
  | onTransition fn => cases i <;> simp [addQualifier, MachineQualifier.Has, QualifierItem.kind]
  | actionsReturn what => cases i <;> simp [addQualifier, MachineQualifier.Has, QualifierItem.kind]
  | translatorsReturn events =>
    cases i <;> simp [addQualifier, MachineQualifier.Has, QualifierItem.kind]
  | nativeImpl first rest =>
    -- there is a block in the qualifier
    have hblock : ∃ i, (reportRun addNativeImpl {} (first :: rest)).1.Has i :=
      ⟨first.isEpilogue, (has_reportRun _ _ _).mpr (.inr (by simp))⟩
    cases i <;> simp [addQualifier, MachineQualifier.Has, QualifierItem.kind, hblock]

/-- A qualifier is not reported if its blocks are not and its kind is new. -/
private lemma addQualifier_eq_nil_iff (q : MachineQualifier) (item : QualifierItem) :
    (addQualifier q item).2 = [] ↔ item.BlocksOnce ∧ ¬ q.Has item.kind := by
  cases item with
  | nativeImpl first rest =>
    have hblocks : (reportRun addNativeImpl {} (first :: rest)).2 = [] ↔
        ((first :: rest).map NativeText.isEpilogue).Nodup := reportRun_addNativeBlock _
    simp only [addQualifier, List.append_eq_nil_iff, hblocks, report_eq_nil,
      QualifierItem.BlocksOnce, QualifierItem.kind, MachineQualifier.Has, nativeInfo_has_iff,
      not_or, Bool.not_eq_true]
  | _ => simp [addQualifier, QualifierItem.BlocksOnce, QualifierItem.kind, MachineQualifier.Has]

/-- **Qualifiers once.** Nothing is reported if and only if each kind of qualifier comes once. -/
lemma readQualifiers_eq_nil_iff (o : OwnText) : o.qualifier.2 = [] ↔ o.QualifiersOnce := by
  have hnone : ∀ i, ¬ ({} : MachineQualifier).Has i := by
    rintro (_ | _ | _ | _) <;> simp [MachineQualifier.Has, NativeInfo.Has]
  rw [OwnText.qualifier, reportRun_eq_nil_iff addQualifier_eq_nil_iff has_addQualifier]
  constructor
  · rintro ⟨hblocks, hkinds, -⟩
    exact ⟨hkinds, hblocks⟩
  · rintro ⟨hkinds, hblocks⟩
    exact ⟨hblocks, hkinds, fun item _ => hnone item.kind⟩

/-! ## What actions return -/

/-- A flag is set by one of the qualifiers. -/
private lemma reportRun_addQualifier_states (q : MachineQualifier) (l : List QualifierItem) :
    (reportRun addQualifier q l).1.actionsReturnStates = true ↔
      q.actionsReturnStates = true ∨ .actionsReturn .states ∈ l := by
  induction l generalizing q with
  | nil => simp
  | cons item l ih =>
    rw [reportRun_cons_fst, ih, List.mem_cons, ← or_assoc, eq_comm (b := item)]
    apply or_congr_left
    cases item <;> simp [addQualifier]

/-- What the actions return is kept when qualifiers are joined. -/
private lemma mem_joinQualifier_actionsReturn (q : QualifierText) (items : List QualifierItem)
    (what : ActionsReturn) :
    .actionsReturn what ∈ joinQualifier q items ↔
      q = .actionsReturn what ∨ .actionsReturn what ∈ items := by
  cases q with
  | nativeImpl n =>
    rcases items with _ | ⟨_ | _ | _ | _, items⟩ <;> simp [joinQualifier]
  | _ => simp [joinQualifier, eq_comm]

/-- What the actions return is said by a qualifier of the text. -/
private lemma mem_qualifierItems_actionsReturn (l : List QualifierText) (what : ActionsReturn) :
    .actionsReturn what ∈ qualifierItems l ↔ .actionsReturn what ∈ l := by
  induction l with
  | nil => simp [qualifierItems]
  | cons q l ih =>
    rw [qualifierItems, List.foldr_cons, mem_joinQualifier_actionsReturn, List.mem_cons,
      eq_comm (a := q)]
    exact or_congr_right ih

/-- Actions return states if it is said so. -/
lemma OwnText.actionsReturn_eq_states_iff (o : OwnText) :
    o.actionsReturn = .states ↔ .actionsReturn .states ∈ o.qualifiers := by
  rw [← mem_qualifierItems_actionsReturn, OwnText.actionsReturn, MachineQualifier.actionsReturn]
  have hflag := reportRun_addQualifier_states {} (qualifierItems o.qualifiers)
  rw [show (({} : MachineQualifier).actionsReturnStates = true) = False from by simp,
    false_or] at hflag
  rw [← hflag, OwnText.qualifier]
  split_ifs <;> simp_all

end FsmLang
