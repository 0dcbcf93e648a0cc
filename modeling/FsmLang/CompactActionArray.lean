import Mathlib.Data.List.Basic
import Mathlib.Tactic
import FsmLang.GeneratedCode
import FsmLang.StateTransitionRoutines

set_option relaxedAutoImplicit false
set_option autoImplicit false

/-!
# Compact action arrays

The -tc table of a machine whose actions do not return states has a pair in each cell: the action,
and the state to go to or, if the machine has transition functions, the transition function. With
compact action arrays a cell holds enumerators instead of pointers to functions, and the functions
are found in arrays that are printed beside the enumerations.

An enumeration and its array are the same list, printed twice. What differs are the names: the
enumerators start with the machine's full name (`THIS`), the functions with the name that user
functions carry (`UFMN`); and the two forms of the table number the events differently where all
events of the top-level machine have external designations, which the compact form ignores.

## Main definitions

* `tableCell` — a cell as it is printed, in both forms.
* `compactArrays` — the enumerations and arrays, as C reads them.
* `compactSelect`, `plainSelect` — the functions that an event selects in a state.
* `CompactRight` — the compact form compiles, and selects and does the same as the plain form.

## Main results

* `select_tableCell` — the arrays give the functions of the plain table.
* `compactRight_iff` — when the compact form is right.
-/

namespace FsmLang

open CSemantics

/-! ## Lists between braces -/

/-- What stands between the braces of an enumeration or of an array's initializer. -/
inductive ListToken where
  | comma
  | item (text : String)
  deriving DecidableEq, Repr

/-- Members that share the helper's flag `first`: only the first one has no comma before it. -/
def printMembers : List String → List ListToken
  | [] => []
  | x :: xs => .item x :: xs.flatMap fun y => [.comma, .item y]

/-- A member that is always printed with a comma before it. -/
def printFurther (x : String) : List ListToken := [.comma, .item x]

/-- The rest of a list, after a member. -/
def parseFurther : List ListToken → Option (List String)
  | [] => some []
  | [.comma] => some []
  | .comma :: .item x :: ts => (parseFurther ts).map (x :: ·)
  | _ => none

/-- A list as C reads it: it starts with a member. -/
def parseMembers : List ListToken → Option (List String)
  | .item x :: ts => (parseFurther ts).map (x :: ·)
  | _ => none

/-- Members that are printed one after the other can be parsed. -/
private lemma parseFurther_flatMap (xs : List String) :
    parseFurther (xs.flatMap printFurther) = some xs := by
  induction xs with
  | nil => rfl
  | cons x xs ih => simp [printFurther, parseFurther, ih]

/-- A list whose first members may be missing, but not its last ones, is read only if they are
not. -/
lemma parseMembers_eq (xs ys : List String) (hys : ys ≠ []) :
    parseMembers (printMembers xs ++ ys.flatMap printFurther) =
      if xs = [] then none else some (xs ++ ys) := by
  cases xs with
  | nil =>
    obtain ⟨y, ys, rfl⟩ := List.exists_cons_of_ne_nil hys
    rfl
  | cons x xs =>
    have hrest : (xs.flatMap fun y => [ListToken.comma, .item y]) ++ ys.flatMap printFurther =
        (xs ++ ys).flatMap printFurther := by
      rw [List.flatMap_append]
      rfl
    rw [printMembers, List.cons_append, hrest, parseMembers, parseFurther_flatMap, if_neg (by simp)]
    rfl

/-! ## What is printed -/

namespace AcceptedActions

variable {m : Machine} (D : AcceptedActions m) (ufMachineName fqMachineName : String)

/-- The machine's actions, in the order of their first occurrence. -/
def actionList : List String :=
  D.actionInfoList.foldl (fun l pai => addUniqueToList l pai.action) []

/-- The actions that have a name. -/
def namedActions : List String := D.actionList.filter (· ≠ "")

/-- The machine's transition functions. -/
def transitionFns : List String := transitionFnList D.matrix

/-- The transition functions, and the routines for plain transitions (`transition_fn_list`,
`transition_list`). -/
def transitionNames : List String :=
  D.transitionFns ++ (transitionList D.matrix).map fun s : m.StateIdx =>
    "transitionTo" ++ (m.stateList.get s).name

/-- An enumerator of the compact form, `THIS(x_e)`. -/
def thisEnumerator (x : String) : String := fqMachineName ++ "_" ++ x ++ "_e"

/-- A function, `UFMN(x)`. -/
def ufmn (x : String) : String := ufMachineName ++ "_" ++ x

/-- The members after the named actions. -/
def closingActions : List String := D.emptyCellFn.toList ++ ["noAction"]

/-- The enumeration of the actions (`declareCMachineActionFnEnum`). -/
def declareActionFnEnum : List ListToken :=
  printMembers (D.namedActions.map (thisEnumerator fqMachineName)) ++
    (D.closingActions.map (thisEnumerator fqMachineName)).flatMap printFurther

/-- The array of the actions (`defineCMachineActionFnArray`). -/
def defineActionFnArray : List ListToken :=
  printMembers (D.namedActions.map (ufmn ufMachineName)) ++
    (D.closingActions.map (ufmn ufMachineName)).flatMap printFurther

/-- The enumeration of the transition functions (`declareCMachineTransitionFnEnum`). -/
def declareTransitionFnEnum : List ListToken :=
  printMembers (D.transitionNames.map (thisEnumerator fqMachineName)) ++
    [thisEnumerator fqMachineName "noTransition"].flatMap printFurther

/-- The array of the transition functions (`defineCMachineTransitionFnArray`). -/
def defineTransitionFnArray : List ListToken :=
  printMembers (D.transitionNames.map (ufmn ufMachineName)) ++
    [ufmn ufMachineName "noTransitionFn"].flatMap printFurther

/-- A cell of the table: an action, and a state or a transition function. Both functions are
identifiers of the printed text. -/
structure TableCell (σ : Type*) where
  action : String
  transition : Transition σ
  deriving DecidableEq, Repr

/-- The action of a cell, without what precedes it. -/
def cellAction (c : Option (ActionInfo m.EventIdx m.StateIdx)) : String :=
  match c with
  | none => D.emptyCellFn.getD "noAction"
  | some pai => if pai.action = "" then "noAction" else pai.action

/-- The transition function of a cell, without what precedes and follows it; `noTransition` is
the name for cells without transition. -/
def cellTransitionFn (noTransition : String) (c : Option (ActionInfo m.EventIdx m.StateIdx)) :
    String :=
  match c.bind (·.transition) with
  | none => noTransition
  | some (.state s) => "transitionTo" ++ (m.stateList.get s).name
  | some (.fn name _) => name

/-- The state of a cell in the column of the state `j`, in a machine without transition
functions. -/
def cellState (j : m.StateIdx) (c : Option (ActionInfo m.EventIdx m.StateIdx)) : m.StateIdx :=
  match c.bind (·.transition) with
  | some (.state s) => s
  | _ => j

/-- The cell of the event `i` and the state `j`, in the compact or the plain form
(`defineActionArray`). -/
def tableCell (compactActionArray : Bool) (i : m.EventIdx) (j : m.StateIdx) :
    TableCell m.StateIdx :=
  let c := D.cell i j
  let fnName := if compactActionArray then thisEnumerator fqMachineName else ufmn ufMachineName
  { action := fnName (D.cellAction c)
    transition :=
      if D.transitionFns = [] then .state (cellState j c)
      else
        .fn (fnName (cellTransitionFn
          (if compactActionArray then "noTransition" else "noTransitionFn") c)) [] }

/-! ## The compact arrays as C reads them -/

/-- The enumerators in scope, and the two arrays; the second one is missing in a machine without
transition functions. -/
structure CompactArrays where
  scope : EnumScope String
  actionFns : List String
  transitionFns : List String
  deriving DecidableEq, Repr

/-- One of the enumerations, after the identifiers in `scope`. -/
def declareEnum (scope : EnumScope String) (tokens : List ListToken) : Option (EnumScope String) :=
  (parseMembers tokens).bind fun names =>
    scope.restart.declareAll (names.map fun x => ⟨x, .implicit⟩)

/-- The enumerations and arrays of the compact form, after the identifiers in `outer`. The array of
transition functions is defined as `UFMN(transition_fns)` and referred to as
`THIS(transition_fns)`. -/
def compactArrays (outer : EnumScope String) : Option CompactArrays :=
  (declareEnum outer (D.declareActionFnEnum fqMachineName)).bind fun scope =>
    (parseMembers (D.defineActionFnArray ufMachineName)).bind fun actionFns =>
      if D.transitionFns = [] then some ⟨scope, actionFns, []⟩
      else
        (declareEnum scope (D.declareTransitionFnEnum fqMachineName)).bind fun scope' =>
          (parseMembers (D.defineTransitionFnArray ufMachineName)).bind fun fns =>
            if ufmn ufMachineName "transition_fns" = ufmn fqMachineName "transition_fns" then
              some ⟨scope', actionFns, fns⟩
            else none

/-- The function at the number of an enumerator. -/
def CompactArrays.fnAt (A : CompactArrays) (fns : List String) (enumerator : String) :
    Option String :=
  (A.scope.valueOf enumerator).bind fun v => if 0 ≤ v then fns[v.toNat]? else none

/-- The functions that a cell of the compact form selects. -/
def CompactArrays.select (A : CompactArrays) (c : TableCell m.StateIdx) :
    Option (TableCell m.StateIdx) :=
  (A.fnAt A.actionFns c.action).bind fun action =>
    match c.transition with
    | .state s => some ⟨action, .state s⟩
    | .fn enumerator _ => (A.fnAt A.transitionFns enumerator).map fun fn => ⟨action, .fn fn []⟩

/-! ## Selecting and running -/

/-- The row that the number of an event selects: the top-level machine indexes the table by the
number, the others by its distance from `firstEvent`. -/
def eventRow (compactActionArray : Bool) (designated : String → ℤ) (top : Machine) (path : List ℕ)
    (m : Machine) (i : m.EventIdx) : Option m.EventIdx :=
  (eventEnum compactActionArray designated top).bind fun s =>
    (if path = [] then some 0 else s.valueOf ⟨path, .firstEvent⟩).bind fun base =>
      (s.valueOf ⟨path, .event i⟩).bind fun v => eventAt? m base v

/-- The functions that an event selects in a state of the plain form. -/
def plainSelect (designated : String → ℤ) (top : Machine) (path : List ℕ) (i : m.EventIdx)
    (j : m.StateIdx) : Option (TableCell m.StateIdx) :=
  (eventRow false designated top path m i).map fun r : m.EventIdx =>
    D.tableCell ufMachineName fqMachineName false r j

/-- The functions that an event selects in a state of the compact form. -/
def compactSelect (A : CompactArrays) (designated : String → ℤ) (top : Machine) (path : List ℕ)
    (i : m.EventIdx) (j : m.StateIdx) : Option (TableCell m.StateIdx) :=
  (eventRow true designated top path m i).bind fun r : m.EventIdx =>
    A.select (D.tableCell ufMachineName fqMachineName true r j)

/-- Call the action and the transition function of a cell for an event, and change the state. -/
def runCell (U : UserCode m.StateIdx) (c : TableCell m.StateIdx) (i : m.EventIdx)
    (w : World m.StateIdx) : World m.StateIdx :=
  D.changeState (U.takeTransition (some c.transition) (i : ℕ) (U.callAction c.action w).1)

/-- One event, by the functions that `select` finds. -/
def runEvent (select : m.EventIdx → m.StateIdx → Option (TableCell m.StateIdx))
    (U : UserCode m.StateIdx) (w : World m.StateIdx) (i : m.EventIdx) :
    Option (World m.StateIdx) :=
  (select i w.state).map fun c => D.runCell U c i w

/-- A run of events, those of the caller and those that actions have returned. -/
def runEvents (select : m.EventIdx → m.StateIdx → Option (TableCell m.StateIdx))
    (U : UserCode m.StateIdx) (w : World m.StateIdx) (events : List m.EventIdx) :
    Option (World m.StateIdx) :=
  events.foldlM (D.runEvent select U) w

/-- The compact form compiles, every event selects the same functions in every state as in the
plain form, and every run of events makes the same calls and state changes. -/
def CompactRight (outer : EnumScope String) (designated : String → ℤ) (top : Machine)
    (path : List ℕ) : Prop :=
  ∃ A, D.compactArrays ufMachineName fqMachineName outer = some A ∧
    (∀ i j, ∃ c, D.plainSelect ufMachineName fqMachineName designated top path i j = some c ∧
      D.compactSelect ufMachineName fqMachineName A designated top path i j = some c) ∧
    ∀ U w events,
      D.runEvents (D.compactSelect ufMachineName fqMachineName A designated top path) U w events =
        D.runEvents (D.plainSelect ufMachineName fqMachineName designated top path) U w events

/-! ## The arrays give the functions -/

/-- The enumerators of the compact form. -/
def enumerators : List String :=
  ((D.namedActions ++ D.closingActions) ++
    if D.transitionFns = [] then [] else D.transitionNames ++ ["noTransition"]).map
      (thisEnumerator fqMachineName)

/-- Where there are transition functions there are names for them. -/
lemma transitionNames_ne_nil {D : AcceptedActions m} (h : D.transitionFns ≠ []) :
    D.transitionNames ≠ [] := by
  simp [transitionNames, h]

/-- The enumeration of the actions, as C parses it. -/
lemma parse_declareActionFnEnum : parseMembers (D.declareActionFnEnum fqMachineName) =
    if D.namedActions = [] then none
    else some ((D.namedActions ++ D.closingActions).map (thisEnumerator fqMachineName)) := by
  rw [declareActionFnEnum, parseMembers_eq _ _ (by simp [closingActions]), List.map_append]
  simp

/-- The array of the actions, as C parses it. -/
private lemma parse_defineActionFnArray : parseMembers (D.defineActionFnArray ufMachineName) =
    if D.namedActions = [] then none
    else some ((D.namedActions ++ D.closingActions).map (ufmn ufMachineName)) := by
  rw [defineActionFnArray, parseMembers_eq _ _ (by simp [closingActions]), List.map_append]
  simp

/-- The enumeration of the transition functions, as C parses it. -/
lemma parse_declareTransitionFnEnum {D : AcceptedActions m} (h : D.transitionFns ≠ []) :
    parseMembers (D.declareTransitionFnEnum fqMachineName) =
      some ((D.transitionNames ++ ["noTransition"]).map (thisEnumerator fqMachineName)) := by
  rw [declareTransitionFnEnum, parseMembers_eq _ _ (by simp),
    if_neg (by simp [transitionNames_ne_nil h]), List.map_append]
  rfl

/-- The array of the transition functions, as C parses it. -/
private lemma parse_defineTransitionFnArray {D : AcceptedActions m} (h : D.transitionFns ≠ []) :
    parseMembers (D.defineTransitionFnArray ufMachineName) =
      some (D.transitionNames.map (ufmn ufMachineName) ++
        [ufmn ufMachineName "noTransitionFn"]) := by
  rw [defineTransitionFnArray, parseMembers_eq _ _ (by simp),
    if_neg (by simp [transitionNames_ne_nil h])]

/-- An enumeration compiles if and only if its names are new and different. -/
lemma declareEnum_eq {scope : EnumScope String} (hs : scope.WellFormed) {tokens : List ListToken}
    {names : List String} (hnames : parseMembers tokens = some names) :
    declareEnum scope tokens =
      if (scope.bound.map Prod.fst ++ names).Nodup then
        some ⟨names.length, scope.bound ++ numberFrom 0 names⟩
      else none := by
  rw [declareEnum, hnames, Option.bind_some]
  split_ifs with hnd
  · have hnd' : (scope.restart.bound.map Prod.fst ++ names).Nodup := hnd
    rw [EnumScope.declareAll_implicit hnd']
    simp [EnumScope.restart]
  · rw [Option.eq_none_iff_forall_not_mem]
    intro scope' h
    apply hnd
    obtain ⟨added, hadded, haddedNames⟩ := EnumScope.declareAll_eq_some h
    have hwf : scope'.WellFormed := EnumScope.declareAll_wellFormed (s := scope.restart) hs h
    rw [EnumScope.WellFormed, hadded, List.map_append, haddedNames] at hwf
    simpa [Function.comp_def, EnumScope.restart] using hwf

/-- What the compact form needs in order to compile: a named action, enumerators that are new and
different, and, if the machine has transition functions, user functions that carry the machine's
full name. -/
structure CompactCompiles (outer : EnumScope String) : Prop where
  named : D.namedActions ≠ []
  nodup : (outer.bound.map Prod.fst ++ D.enumerators fqMachineName).Nodup
  fullName : D.transitionFns ≠ [] → ufMachineName = fqMachineName

/-- The arrays of the compact form, with the values that the enumerators get. -/
def compactArraysOf (outer : EnumScope String) : CompactArrays :=
  let actions := (D.namedActions ++ D.closingActions).map (thisEnumerator fqMachineName)
  let transitions := (D.transitionNames ++ ["noTransition"]).map (thisEnumerator fqMachineName)
  let actionFns := (D.namedActions ++ D.closingActions).map (ufmn ufMachineName)
  if D.transitionFns = [] then
    ⟨⟨actions.length, outer.bound ++ numberFrom 0 actions⟩, actionFns, []⟩
  else
    ⟨⟨transitions.length, outer.bound ++ numberFrom 0 actions ++ numberFrom 0 transitions⟩,
      actionFns,
      D.transitionNames.map (ufmn ufMachineName) ++ [ufmn ufMachineName "noTransitionFn"]⟩

/-- Names are told apart by what follows the machine's name. -/
lemma ufmn_eq_ufmn_iff (u v x : String) : ufmn u x = ufmn v x ↔ u = v := by
  unfold ufmn
  rw [← String.toList_inj]
  simp only [String.toList_append, List.append_cancel_right_eq, String.toList_inj]

/-- An enumeration of new names leaves the scope well formed. -/
lemma wellFormed_enum {outer : EnumScope String} {names : List String}
    (hnd : (outer.bound.map Prod.fst ++ names).Nodup) (next : ℤ) :
    (⟨next, outer.bound ++ numberFrom 0 names⟩ : EnumScope String).WellFormed := by
  simpa [EnumScope.WellFormed] using hnd

/-- The enumerators of both enumerations. -/
lemma enumerators_eq {D : AcceptedActions m} (htrans : D.transitionFns ≠ []) :
    D.enumerators fqMachineName =
      (D.namedActions ++ D.closingActions).map (thisEnumerator fqMachineName) ++
        (D.transitionNames ++ ["noTransition"]).map (thisEnumerator fqMachineName) := by
  rw [enumerators, if_neg htrans, List.map_append]

variable {D ufMachineName fqMachineName}

/-- The compact form compiles if it has what it needs. -/
lemma compactArrays_eq {outer : EnumScope String} (houter : outer.WellFormed)
    (h : D.CompactCompiles ufMachineName fqMachineName outer) :
    D.compactArrays ufMachineName fqMachineName outer =
      some (D.compactArraysOf ufMachineName fqMachineName outer) := by
  have hactions := D.parse_declareActionFnEnum fqMachineName
  have hfns := D.parse_defineActionFnArray ufMachineName
  rw [if_neg h.named] at hactions hfns
  have hnd := h.nodup
  unfold compactArrays compactArraysOf
  by_cases htrans : D.transitionFns = []
  · rw [enumerators, if_pos htrans, List.append_nil] at hnd
    simp only [declareEnum_eq houter hactions, if_pos hnd, Option.bind_some, hfns, if_pos htrans]
  · rw [enumerators_eq fqMachineName htrans, ← List.append_assoc] at hnd
    have hnd₁ := (List.nodup_append.mp hnd).1
    have hscope := wellFormed_enum hnd₁
      ((D.namedActions ++ D.closingActions).map (thisEnumerator fqMachineName)).length
    have hnd₂ : ((outer.bound ++ numberFrom 0 ((D.namedActions ++ D.closingActions).map
        (thisEnumerator fqMachineName))).map Prod.fst ++
          (D.transitionNames ++ ["noTransition"]).map (thisEnumerator fqMachineName)).Nodup := by
      simpa using hnd
    have hname := (ufmn_eq_ufmn_iff ufMachineName fqMachineName "transition_fns").mpr
      (h.fullName htrans)
    simp only [declareEnum_eq houter hactions, if_pos hnd₁, Option.bind_some, hfns, if_neg htrans,
      declareEnum_eq hscope (parse_declareTransitionFnEnum fqMachineName htrans), if_pos hnd₂,
      parse_defineTransitionFnArray ufMachineName htrans, if_pos hname]

/-- It compiles only if it has what it needs. -/
lemma compactCompiles_of_some {outer : EnumScope String} (houter : outer.WellFormed)
    {A : CompactArrays} (h : D.compactArrays ufMachineName fqMachineName outer = some A) :
    D.CompactCompiles ufMachineName fqMachineName outer := by
  have hactions := D.parse_declareActionFnEnum fqMachineName
  obtain ⟨scope, hscope, h⟩ := Option.bind_eq_some_iff.mp h
  obtain ⟨fns, -, h⟩ := Option.bind_eq_some_iff.mp h
  have hnamed : D.namedActions ≠ [] := by
    intro hnil
    rw [declareEnum, hactions, if_pos hnil] at hscope
    cases hscope
  rw [if_neg hnamed] at hactions
  rw [declareEnum_eq houter hactions] at hscope
  split_ifs at hscope with hnd
  obtain rfl := Option.some.inj hscope
  by_cases htrans : D.transitionFns = []
  · refine ⟨hnamed, ?_, fun hne => absurd htrans hne⟩
    rw [enumerators, if_pos htrans, List.append_nil]
    exact hnd
  · rw [if_neg htrans] at h
    obtain ⟨scope', hscope', h⟩ := Option.bind_eq_some_iff.mp h
    obtain ⟨fns', -, h⟩ := Option.bind_eq_some_iff.mp h
    have hwf := wellFormed_enum hnd
      ((D.namedActions ++ D.closingActions).map (thisEnumerator fqMachineName)).length
    rw [declareEnum_eq hwf (parse_declareTransitionFnEnum fqMachineName htrans)] at hscope'
    split_ifs at hscope' with hnd'
    split_ifs at h with hname
    refine ⟨hnamed, ?_, fun _ => (ufmn_eq_ufmn_iff _ _ _).mp hname⟩
    rw [enumerators_eq fqMachineName htrans, ← List.append_assoc]
    simpa using hnd'

/-- The function at an enumerator's number stands where the enumerator stands in its
enumeration. -/
lemma fnAt_eq {A : CompactArrays} (hwf : A.scope.WellFormed) {names fns : List String} {k : ℕ}
    {x : String} (hsub : numberFrom 0 names ⊆ A.scope.bound) (hk : names[k]? = some x) :
    A.fnAt fns x = fns[k]? := by
  have hmem : (x, (0 : ℤ) + k) ∈ A.scope.bound :=
    hsub ((mem_numberFrom 0 names x _).mpr ⟨k, hk, rfl⟩)
  rw [CompactArrays.fnAt, (EnumScope.valueOf_eq_some_iff hwf).mpr hmem, Option.bind_some, zero_add,
    if_pos (by omega), Int.toNat_natCast]

/-- Every action of an entry is in the machine's list. -/
private lemma mem_actionList {name : String} : name ∈ D.actionList ↔
    ∃ pai ∈ D.actionInfoList, pai.action = name := by
  have hadd : ∀ (l : List String) (pai : ActionInfo m.EventIdx m.StateIdx) (a : String),
      a ∈ addUniqueToList l pai.action ↔ a ∈ l ∨ pai.action = a := by
    intro l pai a
    rw [mem_addUniqueToList, eq_comm (a := a)]
  rw [actionList, mem_foldl_iff hadd]
  simp

/-- The action of every cell is in the enumeration. -/
private lemma cellAction_mem (i : m.EventIdx) (j : m.StateIdx) :
    D.cellAction (D.cell i j) ∈ D.namedActions ++ D.closingActions := by
  unfold cellAction
  cases hcell : D.cell i j with
  | none =>
    apply List.mem_append_right
    cases hempty : D.emptyCellFn with
    | none => simp [closingActions, hempty]
    | some name => simp [closingActions, hempty]
  | some pai =>
    by_cases haction : pai.action = ""
    · simp [haction, closingActions]
    · apply List.mem_append_left
      simp only [if_neg haction]
      exact List.mem_filter.mpr
        ⟨mem_actionList.mpr ⟨pai, D.mem_of_cell hcell, rfl⟩, by simpa using haction⟩

/-- A cell with a transition has one of the machine's transition functions or routines, under one
name in both forms. -/
private lemma cellTransitionFn_cases (i : m.EventIdx) (j : m.StateIdx) :
    (∀ name, cellTransitionFn name (D.cell i j) = name) ∨
      ∃ x ∈ D.transitionNames, ∀ name, cellTransitionFn name (D.cell i j) = x := by
  unfold cellTransitionFn
  cases hcell : D.cell i j with
  | none => exact .inl fun _ => rfl
  | some pai =>
    have hmem := D.mem_of_cell hcell
    cases htrans : pai.transition with
    | none =>
      left
      intro name
      simp [htrans]
    | some t =>
      right
      cases t with
      | state s =>
        refine ⟨"transitionTo" ++ (m.stateList.get s).name, ?_, fun name => by simp [htrans]⟩
        apply List.mem_append_right
        exact List.mem_map_of_mem (mem_transitionList.mpr ⟨pai, hmem, htrans⟩)
      | fn fnName returnsDecl =>
        refine ⟨fnName, ?_, fun name => by simp [htrans]⟩
        apply List.mem_append_left
        exact mem_transitionFnList.mpr ⟨pai, hmem, returnsDecl, htrans⟩

/-- The enumerators after the arrays have been declared. -/
lemma compactArraysOf_bound (outer : EnumScope String) :
    (D.compactArraysOf ufMachineName fqMachineName outer).scope.bound =
      outer.bound ++
        numberFrom 0 ((D.namedActions ++ D.closingActions).map (thisEnumerator fqMachineName)) ++
        if D.transitionFns = [] then [] else
          numberFrom 0 ((D.transitionNames ++ ["noTransition"]).map
            (thisEnumerator fqMachineName)) := by
  unfold compactArraysOf
  split_ifs
  · simp
  · rfl

/-- The members of the array of actions. -/
private lemma compactArraysOf_actionFns (outer : EnumScope String) :
    (D.compactArraysOf ufMachineName fqMachineName outer).actionFns =
      (D.namedActions ++ D.closingActions).map (ufmn ufMachineName) := by
  unfold compactArraysOf
  split_ifs
  · rfl
  · rfl

/-- The scope is well formed after the arrays have been declared. -/
private lemma compactArraysOf_wellFormed {outer : EnumScope String}
    (h : D.CompactCompiles ufMachineName fqMachineName outer) :
    (D.compactArraysOf ufMachineName fqMachineName outer).scope.WellFormed := by
  have hnd := h.nodup
  rw [EnumScope.WellFormed, compactArraysOf_bound]
  unfold enumerators at hnd
  split_ifs at hnd ⊢
  · simpa using hnd
  · simpa using hnd

/-- **The arrays give the functions.** The enumerators in a cell of the compact form stand where
the functions in the same cell of the plain form stand in the arrays. -/
theorem select_tableCell {outer : EnumScope String}
    (h : D.CompactCompiles ufMachineName fqMachineName outer) (i : m.EventIdx) (j : m.StateIdx) :
    (D.compactArraysOf ufMachineName fqMachineName outer).select
        (D.tableCell ufMachineName fqMachineName true i j) =
      some (D.tableCell ufMachineName fqMachineName false i j) := by
  have hwf := compactArraysOf_wellFormed h
  have hbound := @compactArraysOf_bound m D ufMachineName fqMachineName outer
  obtain ⟨k, hk⟩ := List.getElem?_of_mem (cellAction_mem (D := D) i j)
  have haction : (D.compactArraysOf ufMachineName fqMachineName outer).fnAt
      (D.compactArraysOf ufMachineName fqMachineName outer).actionFns
      (thisEnumerator fqMachineName (D.cellAction (D.cell i j))) =
        some (ufmn ufMachineName (D.cellAction (D.cell i j))) := by
    have hsub : numberFrom 0 ((D.namedActions ++ D.closingActions).map
        (thisEnumerator fqMachineName)) ⊆
          (D.compactArraysOf ufMachineName fqMachineName outer).scope.bound := by
      intro x hx
      rw [hbound]
      exact List.mem_append_left _ (List.mem_append_right _ hx)
    rw [fnAt_eq hwf hsub (by rw [List.getElem?_map, hk]; rfl), compactArraysOf_actionFns,
      List.getElem?_map, hk]
    rfl
  unfold CompactArrays.select tableCell
  simp only [if_true, Bool.false_eq_true, if_false, haction, Option.bind_some]
  by_cases htrans : D.transitionFns = []
  · simp only [if_pos htrans]
  · simp only [if_neg htrans]
    have hsub : numberFrom 0 ((D.transitionNames ++ ["noTransition"]).map
        (thisEnumerator fqMachineName)) ⊆
          (D.compactArraysOf ufMachineName fqMachineName outer).scope.bound := by
      intro x hx
      rw [hbound, if_neg htrans]
      exact List.mem_append_right _ hx
    have hfns : (D.compactArraysOf ufMachineName fqMachineName outer).transitionFns =
        D.transitionNames.map (ufmn ufMachineName) ++ [ufmn ufMachineName "noTransitionFn"] := by
      rw [compactArraysOf, if_neg htrans]
    rcases cellTransitionFn_cases (D := D) i j with hno | ⟨x, hx, hname⟩
    · -- a cell without transition: both lists end with what stands for none
      have hlast : ((D.transitionNames ++ ["noTransition"]).map (thisEnumerator fqMachineName))[
          D.transitionNames.length]? = some (thisEnumerator fqMachineName "noTransition") := by
        simp
      rw [hno, hno, fnAt_eq hwf hsub hlast, hfns]
      simp
    · obtain ⟨k', hk'⟩ := List.getElem?_of_mem hx
      have hlt := (List.getElem?_eq_some_iff.mp hk').1
      have hplace : ((D.transitionNames ++ ["noTransition"]).map (thisEnumerator fqMachineName))[
          k']? = some (thisEnumerator fqMachineName x) := by
        rw [List.getElem?_map, List.getElem?_append_left hlt, hk']
        rfl
      rw [hname, hname, fnAt_eq hwf hsub hplace, hfns,
        List.getElem?_append_left (by simpa using hlt), List.getElem?_map, hk']
      rfl

/-! ## Rows -/

/-- The value that the user's native code gives the external designation of an event. -/
def designatedValue (designated : String → ℤ) (m : Machine) (i : m.EventIdx) : ℤ :=
  designated ((m.eventList.get i).externalDesignation.getD "")

/-- With external designations for all events these are the values of the top-level machine's
events. -/
private lemma valueOf_designated {compactActionArray : Bool} {designated : String → ℤ}
    {top : Machine}
    (hassign : assignExternalEventValues compactActionArray top = true)
    {s : EnumScope Enumerator} (hs : eventEnum compactActionArray designated top = some s)
    (i : top.EventIdx) : s.valueOf ⟨[], .event i⟩ = some (designatedValue designated top i) := by
  have hall : ∀ e ∈ top.eventList, e.externalDesignation.isSome := by
    apply List.countP_eq_length.mp
    unfold assignExternalEventValues externalEventDesignationCount at hassign
    simp at hassign
    exact hassign.1.symm
  refine EnumScope.valueOf_of_mem EnumScope.empty_wellFormed hs ?_
  have he : top.eventList.get i ∈ top.eventList := List.get_mem _ _
  obtain ⟨d, hd⟩ := Option.isSome_iff_exists.mp (hall _ he)
  rw [commonHeaderStart, printTopEvents]
  apply List.mem_append_left
  apply List.mem_append_left
  apply List.mem_append_left
  apply List.mem_append_left
  apply List.mem_flatMap.mpr
  refine ⟨(top.eventList.get i, i), ?_, ?_⟩
  · rw [List.mk_mem_zipIdx_iff_getElem?]
    simp
  · have hinit : eventInit true designated (top.eventList.get i) =
        .value (designatedValue designated top i) := by
      simp only [eventInit, designatedValue, hd, Option.getD_some]
    rw [printEventEnumMember, hassign, hinit]
    exact List.mem_cons_self

/-- **Rows.** An event selects its own row, unless all events of the top-level machine have
external designations and these are used. -/
lemma eventRow_eq (compactActionArray : Bool) (designated : String → ℤ) {top : Machine}
    (htop : top.Accepted) {path : List ℕ} {m : Machine} (hm : top.sub? path = some m)
    (i : m.EventIdx) :
    eventRow compactActionArray designated top path m i =
      if path = [] ∧ assignExternalEventValues compactActionArray top = true then
        eventAt? m 0 (designatedValue designated m i)
      else some i := by
  obtain ⟨s, -, hs, -⟩ := exists_valueOf_eventEnum compactActionArray designated htop
  rw [eventRow, hs, Option.bind_some]
  cases path with
  | nil =>
    obtain rfl := Option.some.inj hm
    cases hassign : assignExternalEventValues compactActionArray top with
    | true =>
      rw [if_pos rfl, Option.bind_some, valueOf_designated hassign hs i, Option.bind_some,
        if_pos ⟨rfl, rfl⟩]
    | false =>
      rw [if_pos rfl, Option.bind_some,
        valueOf_top_event_of_not_assigned designated htop hassign hs i.isLt, Option.bind_some,
        eventAt?_natCast, if_neg (by simp)]
  | cons k path =>
    obtain ⟨b, hb⟩ := exists_numberedFrom htop hs (List.cons_ne_nil k path) hm
    have hfirst : s.valueOf ⟨k :: path, .firstEvent⟩ = some b := by
      rw [hb.valueOf]
      rfl
    have hevent : s.valueOf ⟨k :: path, .event i⟩ = some (b + (i : ℕ)) := by
      rw [hb.valueOf, Machine.ownValue, if_pos i.isLt]
    rw [if_neg (List.cons_ne_nil k path), hfirst, Option.bind_some, hevent, Option.bind_some,
      eventAt?_add, if_neg (by simp)]

/-! ## When the compact form is right -/

/-- What the plain form needs in order to select the same functions as the compact form: external
designations that are used lead to rows with the functions of the events' own rows. -/
def DesignatedRows (D : AcceptedActions m) (ufMachineName fqMachineName : String)
    (designated : String → ℤ) (top : Machine) (path : List ℕ) : Prop :=
  path = [] → assignExternalEventValues false top = true → ∀ i : m.EventIdx,
    ∃ r, eventAt? m 0 (designatedValue designated m i) = some r ∧
      ∀ j, D.tableCell ufMachineName fqMachineName false r j =
        D.tableCell ufMachineName fqMachineName false i j

/-- **The compact form.** For every machine of an accepted tree and every scope in which its code
is compiled, the compact form compiles, selects the same functions for every event in every state
and makes the same calls and state changes in every run as the plain form if and only if the
machine has a named action, the enumerators that the compact form adds are new and different, user
functions carry the machine's full name if it has transition functions, and external designations,
where they are used, lead to rows with the functions of the events' own rows.

**Proof sketch.** Enumerations and arrays list the same members, so that an enumerator's number
leads to the function of the same name. Runs agree since single events do. -/
theorem compactRight_iff (D : AcceptedActions m) (ufMachineName fqMachineName : String)
    {outer : EnumScope String} (houter : outer.WellFormed) (designated : String → ℤ)
    {top : Machine} (htop : top.Accepted) {path : List ℕ} (hm : top.sub? path = some m) :
    D.CompactRight ufMachineName fqMachineName outer designated top path ↔
      D.CompactCompiles ufMachineName fqMachineName outer ∧
        D.DesignatedRows ufMachineName fqMachineName designated top path := by
  have hrow : ∀ i : m.EventIdx, eventRow true designated top path m i = some i := by
    intro i
    rw [eventRow_eq true designated htop hm, if_neg]
    simp [assignExternalEventValues]
  have hselect : ∀ {A}, D.compactArrays ufMachineName fqMachineName outer = some A →
      ∀ i j, D.compactSelect ufMachineName fqMachineName A designated top path i j =
        some (D.tableCell ufMachineName fqMachineName false i j) := by
    intro A hA i j
    have hcomp := compactCompiles_of_some houter hA
    obtain rfl := Option.some.inj ((compactArrays_eq houter hcomp).symm.trans hA)
    rw [compactSelect, hrow, Option.bind_some, select_tableCell hcomp]
  constructor
  · rintro ⟨A, hA, hcells, -⟩
    refine ⟨compactCompiles_of_some houter hA, ?_⟩
    intro hpath hassign i
    have hplain : ∀ j, ∃ r, eventAt? m 0 (designatedValue designated m i) = some r ∧
        D.tableCell ufMachineName fqMachineName false r j =
          D.tableCell ufMachineName fqMachineName false i j := by
      intro j
      obtain ⟨c, hc, hc'⟩ := hcells i j
      obtain rfl := Option.some.inj ((hselect hA i j).symm.trans hc')
      rw [plainSelect, eventRow_eq false designated htop hm, if_pos ⟨hpath, hassign⟩] at hc
      exact Option.map_eq_some_iff.mp hc
    have hstates : m.stateList ≠ [] := (m.accepted_iff.mp (htop.sub? hm)).2.1
    obtain ⟨r, hr, -⟩ := hplain ⟨0, List.length_pos_of_ne_nil hstates⟩
    refine ⟨r, hr, ?_⟩
    intro j
    obtain ⟨r', hr', hcell⟩ := hplain j
    obtain rfl := Option.some.inj (hr.symm.trans hr')
    exact hcell
  · rintro ⟨hcomp, hdesignated⟩
    have hA := compactArrays_eq houter hcomp
    have hplain : ∀ i j, D.plainSelect ufMachineName fqMachineName designated top path i j =
        some (D.tableCell ufMachineName fqMachineName false i j) := by
      intro i j
      rw [plainSelect, eventRow_eq false designated htop hm]
      split_ifs with h
      · obtain ⟨r, hr, hcell⟩ := hdesignated h.1 h.2 i
        rw [hr, Option.map_some, hcell]
      · rfl
    refine ⟨_, hA, fun i j => ⟨_, hplain i j, hselect hA i j⟩, ?_⟩
    intro U w events
    have hsame : D.compactSelect ufMachineName fqMachineName
        (D.compactArraysOf ufMachineName fqMachineName outer) designated top path =
          D.plainSelect ufMachineName fqMachineName designated top path := by
      funext i j
      rw [hselect hA, hplain]
    rw [hsame]

end AcceptedActions

/-- One entry for the cell of the one-cell machine, with a transition and no action. -/
def transitionOnlyActions : AcceptedActions oneCellMachine where
  actionInfoList := [⟨"", some (.state ⟨0, Nat.one_pos⟩), [⟨0, Nat.one_pos⟩], [⟨0, Nat.one_pos⟩]⟩]
  named := by simp
  populated := by decide

/-- Without a named action both lists start with a comma. -/
theorem not_compactRight_transitionOnlyActions :
    oneCellMachine.Accepted ∧
      transitionOnlyActions.declareActionFnEnum "m" = [.comma, .item "m_noAction_e"] ∧
      ¬ transitionOnlyActions.CompactRight "m" "m" EnumScope.empty (fun _ => 0)
        oneCellMachine [] := by
  refine ⟨?_, by decide, ?_⟩
  · simp [oneCellMachine, plainMachine, Machine.Accepted, Machine.AcceptedList]
  · rintro ⟨A, hA, -⟩
    have hnone : transitionOnlyActions.compactArrays "m" "m" EnumScope.empty = none := by decide
    rw [hnone] at hA
    cases hA

/-- With a named action the compact form of the one-cell machine is right. -/
theorem compactRight_oneCellActions :
    (oneCellActions none).CompactRight "m" "m" EnumScope.empty (fun _ => 0) oneCellMachine [] := by
  have hacc : oneCellMachine.Accepted := by
    simp [oneCellMachine, plainMachine, Machine.Accepted, Machine.AcceptedList]
  apply ((oneCellActions none).compactRight_iff "m" "m" EnumScope.empty_wellFormed (fun _ => 0) hacc
    rfl).mpr
  refine ⟨⟨by decide, by decide, fun _ => rfl⟩, ?_⟩
  intro _ hassign
  exact absurd hassign (by decide)

end FsmLang
