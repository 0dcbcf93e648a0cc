import Mathlib.Data.List.Basic
import Mathlib.Tactic
import FsmLang.PyGenerator

set_option relaxedAutoImplicit false
set_option autoImplicit false

/-!
# The PyTransitions model

The library that the printed class is for tries the transitions of an event and a state in the
order of the list and takes the first one whose conditions hold. Before that it calls
`_fsm_prepare_event`, which calls the action of the cell.

The model does what the matrix says in all cells but two kinds. A choice of `noTransition` is
printed with that destination, which is not a state of the printed model. Nothing is printed for an
empty cell, and the library rejects an event that has no transition in the current state.

## Main definitions

* `PyClass.trigger` — what the library does for an event.
* `TriggersCell` — the model does what the cell says.

## Main results

* `find?_candidates` — the transition that is taken.
* `triggersCell_iff` — when the model does what the cell says.
* `exists_run` — whole runs.
-/

namespace FsmLang

open CSemantics

/-! ## What the library does -/

/-- A call of one of the model's methods. -/
inductive PyCall where
  | translator (name : String)
  | action (name : String)
  | onExit (name : String)
  | onEnter (name : String)
  | afterStateChange (name : String)
  deriving DecidableEq, Repr

/-- A call of an action. -/
def PyCall.isAction : PyCall → Bool
  | action _ => true
  | _ => false

/-- The model's state, and the calls so far. -/
structure PyWorld (σ : Type*) where
  state : σ
  calls : List PyCall
  deriving DecidableEq, Repr

/-- More calls. -/
def PyWorld.call {σ : Type*} (w : PyWorld σ) (l : List PyCall) : PyWorld σ :=
  { w with calls := w.calls ++ l }

/-- Look a key up in a dictionary whose display has these items: the last one counts. -/
def dictGet {κ α : Type*} [DecidableEq κ] (items : List (κ × α)) (k : κ) : Option α :=
  (items.reverse.find? fun item => item.1 = k).map Prod.snd

/-- A key that no item has is not found. -/
private lemma dictGet_eq_none {κ α : Type*} [DecidableEq κ] {items : List (κ × α)} {k : κ}
    (h : ∀ item ∈ items, item.1 ≠ k) : dictGet items k = none := by
  rw [dictGet, Option.map_eq_none_iff, List.find?_eq_none]
  intro item hitem
  simpa using h item (List.mem_reverse.mp hitem)

/-- A key is found if its items agree. -/
private lemma dictGet_eq_some {κ α : Type*} [DecidableEq κ] {items : List (κ × α)} {k : κ} {a : α}
    (h : ∀ item ∈ items, item.1 = k → item.2 = a) (hex : ∃ item ∈ items, item.1 = k) :
    dictGet items k = some a := by
  obtain ⟨item, hitem, hk⟩ := hex
  obtain ⟨found, hfound⟩ : ∃ found, items.reverse.find? (fun item => item.1 = k) = some found := by
    rw [← Option.isSome_iff_exists, List.find?_isSome]
    exact ⟨item, List.mem_reverse.mpr hitem, by simpa using hk⟩
  have hkey : found.1 = k := by simpa using List.find?_some hfound
  have hmem := List.mem_reverse.mp (List.mem_of_find?_eq_some hfound)
  rw [dictGet, hfound, Option.map_some, h found hmem hkey]

namespace PyClass

variable {ε σ : Type*} [DecidableEq ε] [DecidableEq σ] (C : PyClass ε σ)

/-- `_fsm_prepare_event`: the event's translator, then the action for the state and the event. -/
def fsmPrepareEvent (e : ε) (w : PyWorld σ) : PyWorld σ :=
  w.call (((C.fsmTranslators.bind fun d => dictGet d e).map .translator).toList ++
    ((C.fsmActions.bind fun d => dictGet d (w.state, e)).map .action).toList)

omit [DecidableEq ε] in
/-- A registered state; the library raises an error for any other. -/
def getState (s : σ) : Option (PyState σ) := C.states.find? fun t => t.name = s

omit [DecidableEq ε] in
/-- Execute a transition whose conditions hold. Without destination there is no state change. -/
def execute (t : PyTransition ε σ) (w : PyWorld σ) : Option (PyWorld σ) :=
  let w₁ := w.call (t.before.map .action).toList
  let after := (C.afterStateChange.map .afterStateChange).toList
  match t.dest with
  | none => some (w₁.call after)
  | some s =>
    (C.getState w₁.state).bind fun source =>
      (C.getState s).map fun dest =>
        { state := s
          calls := w₁.calls ++ (source.onExit.map PyCall.onExit).toList ++
            (dest.onEnter.map PyCall.onEnter).toList ++ after }

/-- A condition holds. -/
def Holds (truth : String → Bool) (t : PyTransition ε σ) : Bool := t.condition.all truth

/-- Trigger an event. An event without transition in the current state is an error; `prepare_event`
is called once, before the conditions are evaluated. -/
def trigger (truth : String → Bool) (e : ε) (w : PyWorld σ) : Option (PyWorld σ) :=
  let candidates := C.transitions.filter fun t => t.trigger = e ∧ t.source = w.state
  if candidates = [] then none
  else
    let w₁ := C.fsmPrepareEvent e w
    match candidates.find? (Holds truth) with
    | some t => C.execute t w₁
    | none => some w₁

end PyClass

/-! ## What the model is to do -/

/-- The return that a conditional declaration selects: that of the first choice whose condition is
true, and otherwise the one with `otherwise`. -/
def selectedReturn {σ : Type*} (truth : String → Bool) (choices : List (ReturnChoiceData σ)) :
    Option σ :=
  match choices.find? fun c => c.conditionFn.any truth with
  | some c => some c.state
  | none => (choices.find? ReturnChoiceData.isOtherwise).map ReturnChoiceData.state

namespace ConditionalMachine

variable {ε σ : Type*} [DecidableEq ε] [DecidableEq σ] (D : ConditionalMachine ε σ)

/-- The action of a cell, if it has one. -/
def cellAction (e : ε) (s : σ) : Option String :=
  (D.cell e s).bind fun pai => if pai.action = "" then none else some pai.action

/-- Where an entry leads: to its transition state, or to the selected return. -/
def target (truth : String → Bool) (pai : ActionInfo ε σ) : Option σ :=
  match pai.transition with
  | none => none
  | some (.state t) => some t
  | some (.fn name _) => selectedReturn truth (D.returnsCondDecl name)

/-- The state after an event. -/
def stateAfter (truth : String → Bool) (e : ε) (s : σ) : σ :=
  match (D.cell e s).bind (D.target truth) with
  | some t => if t = D.noTransition then s else t
  | none => s

/-- The synthesized methods of the `otherwise` choices are true. -/
def OtherwiseTrue (truth : String → Bool) : Prop :=
  ∀ pai ∈ D.matrix.actionInfoList, ∀ name returnsDecl,
    pai.transition = some (.fn name returnsDecl) → ∀ c ∈ D.returnsCondDecl name,
      c.isOtherwise = true → truth (D.chooseState c.state) = true

/-- The printed class can be read, and an event in a state leads without error to the state after
it, with the calls so far followed by calls among which the cell's action, if it has one, is the
only action. -/
def TriggersCell (truth : String → Bool) (e : ε) (s : σ) : Prop :=
  ∃ C, D.generated = some C ∧ ∀ calls, ∃ more,
    C.trigger truth e ⟨s, calls⟩ = some ⟨D.stateAfter truth e s, calls ++ more⟩ ∧
      more.filter PyCall.isAction = ((D.cellAction e s).map .action).toList

/-! ## The transition that is taken -/

/-- The transitions that are tried for an event and a state. -/
def candidates (e : ε) (s : σ) : List (PyTransition ε σ) :=
  D.transitions.filter fun t => t.trigger = e ∧ t.source = s

/-- The first transition for a matrix and an event that is one of an event `e` and a state `s` and
whose condition is as `q` asks. -/
private lemma find?_transitionsOf (pai p : ActionInfo ε σ) (e e' : ε) (s : σ)
    (q : Option String → Bool) :
    (D.transitionsOf pai p e').find?
        (fun t => decide (t.trigger = e ∧ t.source = s) && q t.condition) =
      if e' = e ∧ s ∈ D.matrix.expandStates p then
        ((D.choices pai.transition).find? fun ch => q ch.2).map fun ch => ⟨e, s, ch.1, none, ch.2⟩
      else none := by
  have hinner : ∀ ch : Option σ × Option String,
      ((D.matrix.expandStates p).map fun s => (⟨e', s, ch.1, none, ch.2⟩ : PyTransition ε σ)).find?
          (fun t => decide (t.trigger = e ∧ t.source = s) && q t.condition) =
        if (e' = e ∧ s ∈ D.matrix.expandStates p) ∧ q ch.2 = true then
          some ⟨e, s, ch.1, none, ch.2⟩ else none := by
    intro ch
    split_ifs with h
    · obtain ⟨⟨rfl, hs⟩, hq⟩ := h
      rw [List.find?_map, Option.map_eq_some_iff]
      refine ⟨s, ?_, rfl⟩
      show (D.matrix.expandStates p).find? (fun s' => decide (e' = e' ∧ s' = s) && q ch.2) = some s
      cases hfind : (D.matrix.expandStates p).find?
          (fun s' => decide (e' = e' ∧ s' = s) && q ch.2) with
      | none =>
        have := List.find?_eq_none.mp hfind s hs
        simp [hq] at this
      | some t =>
        have htrue := List.find?_some hfind
        simp only [true_and, Bool.and_eq_true, decide_eq_true_eq] at htrue
        rw [htrue.1]
    · rw [List.find?_eq_none]
      intro t ht htrue
      obtain ⟨s', hs', rfl⟩ := List.mem_map.mp ht
      simp only [Bool.and_eq_true, decide_eq_true_eq] at htrue
      obtain ⟨⟨rfl, rfl⟩, hq⟩ := htrue
      exact h ⟨⟨rfl, hs'⟩, hq⟩
  rw [transitionsOf, List.find?_flatMap]
  simp only [hinner]
  induction D.choices pai.transition with
  | nil => simp
  | cons ch l ih =>
    rw [List.findSome?_cons, List.find?_cons, ih]
    by_cases hplace : e' = e ∧ s ∈ D.matrix.expandStates p
    · cases hq : q ch.2 with
      | true => simp [hplace]
      | false => simp [hplace]
    · simp [hplace]

/-- **The transition that is taken.** The first transition of an event and a state whose condition
is as `q` asks comes from the first such choice of the entry in their cell. -/
lemma find?_candidates {e : ε} {s : σ} {pai : ActionInfo ε σ} (he : e ∈ D.matrix.eventList)
    (hs : s ∈ D.matrix.stateList) (hcell : D.cell e s = some pai) (q : Option String → Bool) :
    (D.candidates e s).find? (fun t => q t.condition) =
      ((D.choices pai.transition).find? fun ch => q ch.2).map
        fun ch => ⟨e, s, ch.1, none, ch.2⟩ := by
  obtain ⟨hsound, hcomplete⟩ := D.matrix.consolidateActionInfoList_spec
  obtain ⟨hpai, heE, hsS⟩ := (D.cell_eq_some_iff he hs).mp hcell
  -- any matrix with the event and the state is that of the entry in the cell
  have hsame : ∀ c ∈ D.consolidated, ∀ p ∈ c.members, ∀ e' ∈ D.matrix.expandEvents p,
      e' = e ∧ s ∈ D.matrix.expandStates p → c.leader.transition = pai.transition := by
    intro c hc p hp e' he' h
    obtain ⟨hmem, -, htransition⟩ := hsound c hc p hp
    have hcell' := (D.cell_eq_some_iff he hs).mpr ⟨hmem, h.1 ▸ he', h.2⟩
    rw [htransition, Option.some.inj (hcell'.symm.trans hcell)]
  have hfilter : (D.candidates e s).find? (fun t => q t.condition) = D.transitions.find?
      fun t => decide (t.trigger = e ∧ t.source = s) && q t.condition := by
    rw [candidates, List.find?_filter]
    congr 1
    funext t
    simp
  rw [hfilter, transitions]
  simp only [List.find?_flatMap, D.find?_transitionsOf]
  have hall : ∀ c ∈ D.consolidated, ∀ p ∈ c.members, ∀ e' ∈ D.matrix.expandEvents p,
      (if e' = e ∧ s ∈ D.matrix.expandStates p then
        ((D.choices c.leader.transition).find? fun ch => q ch.2).map
          fun ch => (⟨e, s, ch.1, none, ch.2⟩ : PyTransition ε σ) else none) = none ∨
      (if e' = e ∧ s ∈ D.matrix.expandStates p then
        ((D.choices c.leader.transition).find? fun ch => q ch.2).map
          fun ch => (⟨e, s, ch.1, none, ch.2⟩ : PyTransition ε σ) else none) =
        ((D.choices pai.transition).find? fun ch => q ch.2).map
          fun ch => ⟨e, s, ch.1, none, ch.2⟩ := by
    intro c hc p hp e' he'
    split_ifs with h
    · rw [hsame c hc p hp e' he' h]
      exact .inr rfl
    · exact .inl rfl
  obtain ⟨c, hc, hp⟩ := hcomplete pai hpai
  refine findSome?_eq (fun c hc => findSome?_eq_or fun p hp => findSome?_eq_or (hall c hc p hp))
    ⟨c, hc, findSome?_eq (fun p hp => findSome?_eq_or (hall c hc p hp)) ⟨pai, hp,
      findSome?_eq (hall c hc pai hp) ⟨e, heE, ?_⟩⟩⟩
  rw [if_pos ⟨rfl, hsS⟩, hsame c hc pai hp e heE ⟨rfl, hsS⟩]

/-- Nothing is printed for an empty cell. -/
private lemma candidates_eq_nil {e : ε} {s : σ} (he : e ∈ D.matrix.eventList)
    (hs : s ∈ D.matrix.stateList) (hcell : D.cell e s = none) : D.candidates e s = [] := by
  rw [candidates, List.filter_eq_nil_iff]
  intro t ht hplace
  simp only [decide_eq_true_eq] at hplace
  obtain ⟨rfl, rfl⟩ := hplace
  simp only [transitions, transitionsOf, List.mem_flatMap, List.mem_map] at ht
  obtain ⟨c, hc, p, hp, e', he', ch, -, s', hs', rfl⟩ := ht
  have hmem := (D.matrix.consolidateActionInfoList_spec.1 c hc p hp).1
  rw [(D.cell_eq_some_iff he hs).mpr ⟨hmem, he', hs'⟩] at hcell
  cases hcell

/-- A conditional declaration selects the first of its choices whose printed condition holds. -/
private lemma find?_returns (R : ConditionalReturns σ) (truth : String → Bool)
    (htruth : truth (D.chooseState R.otherwise) = true) :
    ((R.choices.map Choice.data).find? fun c => (D.choiceCondition c).all truth).map
      ReturnChoiceData.state = selectedReturn truth (R.choices.map Choice.data) := by
  set ws : List (ReturnChoiceData σ) := R.whens.map fun w => ⟨w.1, some w.2, false⟩
  have hform : R.choices.map Choice.data = ws ++ [⟨R.otherwise, none, true⟩] := by
    simp [ConditionalReturns.choices, ws]
  have hwhens : (ws.find? fun c => (D.choiceCondition c).all truth) =
      ws.find? fun c => c.conditionFn.any truth := by
    rw [List.find?_map, List.find?_map]
    rfl
  have hnone : ws.find? ReturnChoiceData.isOtherwise = none := by
    rw [List.find?_eq_none]
    intro c hc
    obtain ⟨w, -, rfl⟩ := List.mem_map.mp hc
    simp
  have hlast : (D.choiceCondition (⟨R.otherwise, none, true⟩ : ReturnChoiceData σ)).all truth =
      true := htruth
  rw [hform, selectedReturn, List.find?_append, List.find?_append, List.find?_append, hwhens, hnone]
  cases hfind : ws.find? fun c => c.conditionFn.any truth with
  | some c => rfl
  | none => simp [hlast]

/-- The choice that is taken leads to the entry's target. -/
private lemma exists_find?_choices {truth : String → Bool} (htruth : D.OtherwiseTrue truth)
    {pai : ActionInfo ε σ} (hpai : pai ∈ D.matrix.actionInfoList) :
    ∃ condition, (D.choices pai.transition).find? (fun ch => ch.2.all truth) =
      some (D.target truth pai, condition) := by
  cases htransition : pai.transition with
  | none => exact ⟨none, by simp [choices, target, htransition, PyMachine.plainDest]⟩
  | some t =>
    cases t with
    | state t => exact ⟨none, by simp [choices, target, htransition, PyMachine.plainDest]⟩
    | fn name returnsDecl =>
      obtain ⟨R, hR⟩ := D.returns pai hpai name returnsDecl htransition
      have hne : D.returnsCondDecl name ≠ [] := by simp [hR, ConditionalReturns.choices]
      have hmem : (⟨R.otherwise, none, true⟩ : ReturnChoiceData σ) ∈ D.returnsCondDecl name := by
        simp [hR, ConditionalReturns.choices]
      have hselected := D.find?_returns R truth
        (htruth pai hpai name returnsDecl htransition _ hmem rfl)
      rw [← hR] at hselected
      -- the last choice is taken if no other is
      obtain ⟨c, hc⟩ : ∃ c, ((D.returnsCondDecl name).find?
          fun c => (D.choiceCondition c).all truth) = some c := by
        rw [← Option.isSome_iff_exists, List.find?_isSome]
        exact ⟨_, hmem, htruth pai hpai name returnsDecl htransition _ hmem rfl⟩
      refine ⟨D.choiceCondition c, ?_⟩
      have htarget : D.target truth pai = some c.state := by
        rw [target, htransition]
        show selectedReturn truth (D.returnsCondDecl name) = some c.state
        rw [← hselected, hc, Option.map_some]
      rw [choices_fn, if_pos hne, List.find?_map, htarget, Option.map_eq_some_iff]
      exact ⟨c, hc, rfl⟩

/-! ## The actions -/

/-- The items of the dictionary: the named actions of all cells. -/
private lemma mem_printActionsDict {e : ε} {s : σ} {name : String} :
    ((s, e), name) ∈ D.printActionsDict ↔ ∃ p ∈ D.matrix.actionInfoList, p.action ≠ "" ∧
      name = p.action ∧ e ∈ D.matrix.expandEvents p ∧ s ∈ D.matrix.expandStates p := by
  obtain ⟨hsound, hcomplete⟩ := D.matrix.consolidateActionInfoList_spec
  simp only [PyMachine.printActionsDict, List.mem_flatMap]
  constructor
  · intro h
    obtain ⟨c, hc, hitem⟩ := h
    split_ifs at hitem with hnamed
    · cases hitem
    · simp only [List.mem_flatMap, List.mem_map, Prod.mk.injEq] at hitem
      obtain ⟨p, hp, e', he', s', hs', ⟨rfl, rfl⟩, rfl⟩ := hitem
      obtain ⟨hmem, haction, -⟩ := hsound c hc p hp
      exact ⟨p, hmem, haction ▸ hnamed, haction, he', hs'⟩
  · intro h
    obtain ⟨p, hmem, hnamed, rfl, he, hs⟩ := h
    obtain ⟨c, hc, hp⟩ := hcomplete p hmem
    have haction := (hsound c hc p hp).2.1
    refine ⟨c, hc, ?_⟩
    rw [if_neg (haction ▸ hnamed), haction]
    simp only [List.mem_flatMap, List.mem_map]
    exact ⟨p, hp, e, he, s, hs, rfl⟩

/-- The dictionary, if there is one, has the cell's action. -/
private lemma fsmActions_eq {e : ε} {s : σ} (he : e ∈ D.matrix.eventList)
    (hs : s ∈ D.matrix.stateList) :
    ((if D.usesPrepareEvent then some D.printActionsDict else none).bind
      fun d => dictGet d (s, e)) = D.cellAction e s := by
  have hitem : ∀ name, ((s, e), name) ∈ D.printActionsDict ↔ D.cellAction e s = some name := by
    intro name
    rw [mem_printActionsDict, cellAction, Option.bind_eq_some_iff]
    constructor
    · intro h
      obtain ⟨p, hmem, hnamed, rfl, hee, hss⟩ := h
      exact ⟨p, (D.cell_eq_some_iff he hs).mpr ⟨hmem, hee, hss⟩, if_neg hnamed⟩
    · intro h
      obtain ⟨p, hcell, hname⟩ := h
      obtain ⟨hmem, hee, hss⟩ := (D.cell_eq_some_iff he hs).mp hcell
      split_ifs at hname with hnamed
      exact ⟨p, hmem, hnamed, (Option.some.inj hname).symm, hee, hss⟩
  cases haction : D.cellAction e s with
  | none =>
    have hno : dictGet D.printActionsDict (s, e) = none := by
      apply dictGet_eq_none
      intro item hmem hkey
      have := (hitem item.2).mp (hkey ▸ hmem)
      rw [haction] at this
      cases this
    split_ifs
    · exact hno
    · rfl
  | some name =>
    have hmem := (hitem name).mpr haction
    have huses : D.usesPrepareEvent = true := by
      simp only [PyMachine.printActionsDict, List.mem_flatMap] at hmem
      obtain ⟨c, hc, hmem⟩ := hmem
      split_ifs at hmem with hnamed
      · cases hmem
      · have : D.usesActions = true := List.any_eq_true.mpr ⟨c, hc, by simpa using hnamed⟩
        simp [PyMachine.usesPrepareEvent, this]
    rw [if_pos huses, Option.bind_some]
    refine dictGet_eq_some (fun item hitem' hkey => ?_) ⟨_, hmem, rfl⟩
    have := (hitem item.2).mp (hkey ▸ hitem')
    rw [haction] at this
    exact (Option.some.inj this).symm

/-! ## An event -/

/-- `_fsm_prepare_event` calls the cell's action and no other. -/
private lemma exists_fsmPrepareEvent {e : ε} {s : σ} (he : e ∈ D.matrix.eventList)
    (hs : s ∈ D.matrix.stateList) (calls : List PyCall) : ∃ more,
      D.pyClass.fsmPrepareEvent e ⟨s, calls⟩ = ⟨s, calls ++ more⟩ ∧
        more.filter PyCall.isAction = ((D.cellAction e s).map .action).toList := by
  refine ⟨_, rfl, ?_⟩
  show List.filter PyCall.isAction (_ ++ (((if D.usesPrepareEvent then some D.printActionsDict
    else none).bind fun d => dictGet d (s, e)).map PyCall.action).toList) = _
  rw [D.fsmActions_eq he hs, List.filter_append]
  have htranslator : ∀ o : Option String,
      (o.map PyCall.translator).toList.filter PyCall.isAction = [] := by
    intro o
    cases o <;> rfl
  have haction : ∀ o : Option String, (o.map PyCall.action).toList.filter PyCall.isAction =
      (o.map PyCall.action).toList := by
    intro o
    cases o <;> rfl
  rw [htranslator, haction, List.nil_append]

/-- The states of the machine are registered, and no others. -/
lemma getState_eq (t : σ) : D.pyClass.getState t =
    if t ∈ D.matrix.stateList then some ⟨t, D.entryFn t, D.exitFn t⟩ else none := by
  rw [PyClass.getState, pyClass, List.find?_map]
  split_ifs with ht
  · obtain ⟨found, hfound⟩ : ∃ found,
        D.matrix.stateList.find? ((fun r : PyState σ => decide (r.name = t)) ∘
          fun s => ⟨s, D.entryFn s, D.exitFn s⟩) = some found := by
      rw [← Option.isSome_iff_exists, List.find?_isSome]
      exact ⟨t, ht, by simp⟩
    obtain rfl : found = t := by simpa using List.find?_some hfound
    rw [hfound, Option.map_some]
  · rw [Option.map_eq_none_iff, List.find?_eq_none]
    intro s hs hst
    obtain rfl : s = t := by simpa using hst
    exact ht hs

/-- A transition to a state of the machine, or to none, is executed without error and calls no
action. -/
private lemma exists_execute {e : ε} {s : σ} (hs : s ∈ D.matrix.stateList) {dest : Option σ}
    (hdest : ∀ t, dest = some t → t ∈ D.matrix.stateList) (condition : Option String)
    (calls : List PyCall) : ∃ more,
      D.pyClass.execute ⟨e, s, dest, none, condition⟩ ⟨s, calls⟩ =
        some ⟨dest.getD s, calls ++ more⟩ ∧ more.filter PyCall.isAction = [] := by
  have hafter : ∀ f : String → PyCall, (∀ name, (f name).isAction = false) → ∀ o : Option String,
      (o.map f).toList.filter PyCall.isAction = [] := by
    intro f hf o
    cases o with
    | none => rfl
    | some name => simp [hf]
  cases dest with
  | none =>
    refine ⟨(D.machineTransition.map .afterStateChange).toList, ?_, hafter _ (fun _ => rfl) _⟩
    simp [PyClass.execute, PyWorld.call, pyClass]
  | some t =>
    refine ⟨((D.exitFn s).map PyCall.onExit).toList ++ ((D.entryFn t).map PyCall.onEnter).toList ++
      (D.machineTransition.map PyCall.afterStateChange).toList, ?_, ?_⟩
    · have ht := hdest t rfl
      simp [PyClass.execute, PyWorld.call, getState_eq, hs, ht, List.append_assoc]
      rfl
    · rw [List.filter_append, List.filter_append, hafter _ (fun _ => rfl),
        hafter _ (fun _ => rfl), hafter _ (fun _ => rfl)]
      rfl

/-- `noTransition` is not a state of the printed model. -/
private lemma execute_noTransition (e : ε) (s : σ) (condition : Option String) (w : PyWorld σ) :
    D.pyClass.execute ⟨e, s, some D.noTransition, none, condition⟩ w = none := by
  simp [PyClass.execute, getState_eq, D.notListed]

/-- A target is a state of the machine or `noTransition`. -/
private lemma target_mem {truth : String → Bool} {pai : ActionInfo ε σ}
    (hpai : pai ∈ D.matrix.actionInfoList) {t : σ} (ht : D.target truth pai = some t) :
    t ∈ D.matrix.stateList ∨ t = D.noTransition := by
  unfold target at ht
  split at ht
  · cases ht
  · rename_i t' htransition
    exact D.plainTargets pai hpai t (htransition.trans (by rw [Option.some.inj ht]))
  · rename_i name returnsDecl htransition
    have hchoice := D.choiceTargets pai hpai name returnsDecl htransition
    unfold selectedReturn at ht
    split at ht
    · rename_i c hc
      rw [← Option.some.inj ht]
      exact hchoice c (List.mem_of_find?_eq_some hc)
    · obtain ⟨c, hc, rfl⟩ := Option.map_eq_some_iff.mp ht
      exact hchoice c (List.mem_of_find?_eq_some hc)

/-- **An event.** In a cell with an entry the transition to the entry's target is executed, after
`prepare_event`; in an empty cell there is an error. -/
lemma trigger_eq {truth : String → Bool} (htruth : D.OtherwiseTrue truth) {e : ε} {s : σ}
    (he : e ∈ D.matrix.eventList) (hs : s ∈ D.matrix.stateList) : ∃ condition, ∀ calls,
      D.pyClass.trigger truth e ⟨s, calls⟩ = (D.cell e s).bind fun pai =>
        D.pyClass.execute ⟨e, s, D.target truth pai, none, condition⟩
          (D.pyClass.fsmPrepareEvent e ⟨s, calls⟩) := by
  have hcandidates : ∀ calls, (D.pyClass.transitions.filter fun t =>
      decide (t.trigger = e ∧ t.source = (⟨s, calls⟩ : PyWorld σ).state)) = D.candidates e s :=
    fun _ => rfl
  cases hcell : D.cell e s with
  | none =>
    refine ⟨none, fun calls => ?_⟩
    rw [PyClass.trigger, hcandidates, D.candidates_eq_nil he hs hcell]
    rfl
  | some pai =>
    obtain ⟨hpai, -, -⟩ := (D.cell_eq_some_iff he hs).mp hcell
    obtain ⟨condition, hchoice⟩ := D.exists_find?_choices htruth hpai
    refine ⟨condition, fun calls => ?_⟩
    have hfind := D.find?_candidates he hs hcell fun c => c.all truth
    rw [hchoice, Option.map_some] at hfind
    have hne : D.candidates e s ≠ [] := by
      intro hnil
      rw [hnil] at hfind
      cases hfind
    have hholds : (D.candidates e s).find? (PyClass.Holds truth) = _ := hfind
    simp only [PyClass.trigger, hcandidates, if_neg hne, hholds, Option.bind_some]

/-- **A step.** An event whose cell has an entry that does not lead to `noTransition`. -/
lemma exists_trigger {truth : String → Bool} (htruth : D.OtherwiseTrue truth) {e : ε} {s : σ}
    (he : e ∈ D.matrix.eventList) (hs : s ∈ D.matrix.stateList) {pai : ActionInfo ε σ}
    (hcell : D.cell e s = some pai) (htarget : D.target truth pai ≠ some D.noTransition)
    (calls : List PyCall) : D.stateAfter truth e s ∈ D.matrix.stateList ∧ ∃ more,
      D.pyClass.trigger truth e ⟨s, calls⟩ = some ⟨D.stateAfter truth e s, calls ++ more⟩ ∧
        more.filter PyCall.isAction = ((D.cellAction e s).map .action).toList := by
  obtain ⟨condition, htrigger⟩ := D.trigger_eq htruth he hs
  obtain ⟨hpai, -, -⟩ := (D.cell_eq_some_iff he hs).mp hcell
  have hdest : ∀ t, D.target truth pai = some t → t ∈ D.matrix.stateList := by
    intro t ht
    refine (D.target_mem hpai ht).resolve_right fun hno => htarget ?_
    rw [ht, hno]
  have hafter : D.stateAfter truth e s = (D.target truth pai).getD s := by
    rw [stateAfter, hcell, Option.bind_some]
    cases ht : D.target truth pai with
    | none => rfl
    | some t =>
      have hne : t ≠ D.noTransition := fun hno => htarget (by rw [ht, hno])
      exact if_neg hne
  constructor
  · rw [hafter]
    cases ht : D.target truth pai with
    | none => exact hs
    | some t => exact hdest t ht
  · obtain ⟨prepared, hprepare, haction⟩ := D.exists_fsmPrepareEvent he hs calls
    obtain ⟨executed, hexecute, hnone⟩ :=
      D.exists_execute (e := e) hs hdest condition (calls ++ prepared)
    refine ⟨prepared ++ executed, ?_, ?_⟩
    · rw [htrigger, hcell, Option.bind_some, hprepare, hexecute, hafter, List.append_assoc]
    · rw [List.filter_append, haction, hnone, List.append_nil]

/-- **The PyTransitions model.** For every flat accepted machine all of whose transition functions
in use have conditional returns, every event and state, and all values of the conditions with those
of the `otherwise` choices true, the model does what the cell says if and only if the cell is not
empty and does not lead to `noTransition`.

**Proof sketch.** The transitions of the event and the state come from the one entry in the cell,
one for each choice, so the first whose condition holds leads to the target; the action is in the
dictionary that `_fsm_prepare_event` reads. A transition to `noTransition` leads to a state that is
not registered, and for an empty cell there is none. -/
theorem triggersCell_iff (D : ConditionalMachine ε σ) {truth : String → Bool}
    (htruth : D.OtherwiseTrue truth) {e : ε} {s : σ} (he : e ∈ D.matrix.eventList)
    (hs : s ∈ D.matrix.stateList) :
    D.TriggersCell truth e s ↔
      ∃ pai, D.cell e s = some pai ∧ D.target truth pai ≠ some D.noTransition := by
  have hgenerated : D.generated = some D.pyClass := D.generated_eq hs
  constructor
  · intro h
    obtain ⟨C, hC, hruns⟩ := h
    obtain rfl := Option.some.inj (hgenerated.symm.trans hC)
    obtain ⟨condition, htrigger⟩ := D.trigger_eq htruth he hs
    obtain ⟨more, hmore, -⟩ := hruns []
    rw [htrigger, Option.bind_eq_some_iff] at hmore
    obtain ⟨pai, hcell, hexecute⟩ := hmore
    refine ⟨pai, hcell, fun htarget => ?_⟩
    rw [htarget, execute_noTransition] at hexecute
    cases hexecute
  · intro h
    obtain ⟨pai, hcell, htarget⟩ := h
    exact ⟨D.pyClass, hgenerated, fun calls =>
      (D.exists_trigger htruth he hs hcell htarget calls).2⟩

/-! ## Runs -/

/-- A run: the events, each with the values of the conditions at the time. -/
def run (steps : List ((String → Bool) × ε)) (w : PyWorld σ) : Option (PyWorld σ) :=
  steps.foldlM (fun w step => D.pyClass.trigger step.1 step.2 w) w

/-- The state after a run. -/
def stateAfterAll (steps : List ((String → Bool) × ε)) (s : σ) : σ :=
  steps.foldl (fun s step => D.stateAfter step.1 step.2 s) s

/-- The actions of the cells that a run goes through. -/
def actionsOf : List ((String → Bool) × ε) → σ → List PyCall
  | [], _ => []
  | step :: steps, s => ((D.cellAction step.2 s).map .action).toList ++
    actionsOf steps (D.stateAfter step.1 step.2 s)

/-- All cells that a run goes through have entries, none of which leads to `noTransition`. -/
def Handled : List ((String → Bool) × ε) → σ → Prop
  | [], _ => True
  | step :: steps, s => (D.OtherwiseTrue step.1 ∧ step.2 ∈ D.matrix.eventList ∧
      ∃ pai, D.cell step.2 s = some pai ∧ D.target step.1 pai ≠ some D.noTransition) ∧
    Handled steps (D.stateAfter step.1 step.2 s)

/-- **Runs.** A run through such cells ends without error in the state that the matrix leads to,
and calls the actions of these cells in their order and no others. -/
theorem exists_run (steps : List ((String → Bool) × ε)) {s : σ} (hs : s ∈ D.matrix.stateList)
    (h : D.Handled steps s) (calls : List PyCall) : ∃ more,
      D.run steps ⟨s, calls⟩ = some ⟨D.stateAfterAll steps s, calls ++ more⟩ ∧
        more.filter PyCall.isAction = D.actionsOf steps s := by
  induction steps generalizing s calls with
  | nil => exact ⟨[], by simp [run, stateAfterAll, actionsOf]⟩
  | cons step steps ih =>
    obtain ⟨⟨htruth, he, pai, hcell, htarget⟩, hrest⟩ := h
    obtain ⟨hmem, more, htrigger, haction⟩ := D.exists_trigger htruth he hs hcell htarget calls
    obtain ⟨more', hrun, hactions⟩ := ih hmem hrest (calls ++ more)
    refine ⟨more ++ more', ?_, ?_⟩
    · rw [run] at hrun ⊢
      rw [List.foldlM_cons, htrigger, Option.bind_eq_bind, Option.bind_some, hrun,
        List.append_assoc]
      rfl
    · rw [List.filter_append, haction, hactions, actionsOf]

end ConditionalMachine

/-! ## A guard that may stay -/

/-- Two states, and one event with an action and a guard in the first of them:
`guard returns 1 when ready, noTransition otherwise;`. -/
def guardMachine : ConditionalMachine ℕ ℕ where
  matrix := {
    eventList := [0]
    stateList := [0, 1]
    consumedByTranslator := fun _ => false
    implementedBySubMachine := fun _ => false
    actionInfoList := [⟨"work", some (.fn "guard" []), [0], [0]⟩] }
  noTransition := 2
  eventName := fun _ => "e"
  stateName := fun s => if s = 0 then "idle" else if s = 1 then "busy" else "noTransition"
  returnsCondDecl := fun _ => [⟨1, some "ready", false⟩, ⟨2, none, true⟩]
  declared := by simp [MachineMatrix.Declared]
  populated := by decide
  flatStates := fun _ => rfl
  notListed := by decide
  plainTargets := by simp
  returns := fun _ _ _ _ _ => ⟨⟨[(1, "ready")], 2⟩, rfl⟩
  choiceTargets := by simp

/-- While its condition is false, an event raises an error. -/
theorem not_triggersCell_guardMachine :
    guardMachine.OtherwiseTrue (fun c => c = "choose_noTransition") ∧
      0 ∈ guardMachine.matrix.eventList ∧ 0 ∈ guardMachine.matrix.stateList ∧
      ¬ guardMachine.TriggersCell (fun c => c = "choose_noTransition") 0 0 := by
  refine ⟨?_, by decide, by decide, ?_⟩
  · intro _ _ _ _ _ c hc hotherwise
    have hchoice : c = ⟨1, some "ready", false⟩ ∨ c = ⟨2, none, true⟩ := by
      simpa [guardMachine] using hc
    rcases hchoice with rfl | rfl
    · cases hotherwise
    · rfl
  · intro h
    obtain ⟨C, hC, hruns⟩ := h
    have hgenerated : guardMachine.generated = some guardMachine.pyClass := rfl
    obtain rfl := Option.some.inj (hgenerated.symm.trans hC)
    obtain ⟨more, hmore, -⟩ := hruns []
    have herror : guardMachine.pyClass.trigger (fun c => c = "choose_noTransition") 0 ⟨0, []⟩ =
        none := by decide
    rw [herror] at hmore
    cases hmore

/-- While its condition is true, the event leads to the other state. -/
theorem triggersCell_guardMachine : guardMachine.TriggersCell (fun _ => true) 0 0 :=
  (ConditionalMachine.triggersCell_iff guardMachine (fun _ _ _ _ _ _ _ _ => rfl)
    (by decide) (by decide)).mpr ⟨⟨"work", some (.fn "guard" []), [0], [0]⟩, by decide, by decide⟩

example : guardMachine.generated.map PyClass.transitions =
    some [⟨0, 0, some 1, none, some "ready"⟩,
      ⟨0, 0, some 2, none, some "choose_noTransition"⟩] := by
  decide

end FsmLang
