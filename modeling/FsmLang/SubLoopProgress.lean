import Mathlib.Data.List.Basic
import Mathlib.Tactic
import FsmLang.GeneratedCode
import FsmLang.SubMachineInhibitor

set_option relaxedAutoImplicit false
set_option autoImplicit false

/-!
# Progress in the -ts and -te loops of a sub-machine

The loop of a sub-machine goes on as long as its event is not `noEvent`, is numbered from
`firstEvent` on and, in a machine with sub-machines, before `lastEvent`. A machine without
sub-machines has no upper bound in its condition. Its body handles the events before `noEvent`
only, so that every event of the tree that is numbered after the machine's own stays in the loop.

A machine that implements artifacts runs the body once before the condition is tested for the
first time, for the event it is called with. The events its actions return are all tested.

## Main definitions

* `World.calls` — how often something has been called.
* `BelongsTo` — the values of a machine and of all below it.
* `Live` — what a loop should do with the event it has: make progress, or end.

## Main results

* `exists_slot` — a machine and those below it take every number up to its `lastEvent`.
* `exists_body` — the body of the loop makes progress on every event the machine takes.
* `exists_live_iff` — the loop is live exactly on the events up to `noEvent` when the machine has
  no sub-machines, and on all events when it has.
* `exists_calls_le`, `exists_diverges` — the runs in the one case and in the other.
-/

namespace FsmLang

open CSemantics

/-! ## Calls -/

section Calls

variable {σ : Type*}

/-- A call of a user's function or of a sub-machine. -/
def Obs.isCall : Obs σ → Bool
  | .enters _ => false
  | _ => true

/-- How many calls have been made. -/
def World.calls (w : World σ) : ℕ := w.trace.countP Obs.isCall

/-- A call is counted. -/
lemma World.calls_observe (w : World σ) {o : Obs σ} (ho : o.isCall = true) :
    (w.observe o).calls = w.calls + 1 := by
  simp [World.calls, List.countP_append, ho]

/-- Code that has called something, or has come to `noEvent` without a call. -/
structure Advances (noEvent : ℤ) (w : World σ) (r : World σ × ℤ) : Prop where
  le : w.calls ≤ r.1.calls
  lt_or : w.calls < r.1.calls ∨ r.2 = noEvent

/-- Where a call has been made there is progress. -/
lemma Advances.of_lt {noEvent : ℤ} {w : World σ} {r : World σ × ℤ} (h : w.calls < r.1.calls) :
    Advances noEvent w r := ⟨h.le, .inl h⟩

/-- Calling an action is a call. -/
lemma UserCode.calls_callAction (U : UserCode σ) (name : String) (w : World σ) :
    (U.callAction name w).1.calls = w.calls + 1 := w.calls_observe rfl

/-- A transition undoes no call. -/
private lemma UserCode.le_calls_takeTransition (U : UserCode σ) (t : Option (Transition σ)) (e : ℤ)
    (w : World σ) : w.calls ≤ (U.takeTransition t e w).1.calls := by
  cases t with
  | none => exact le_rfl
  | some t =>
    cases t with
    | state s => exact le_rfl
    | fn name returnsDecl =>
      have h : (U.takeTransition (some (.fn name returnsDecl)) e w).1.calls = w.calls + 1 :=
        w.calls_observe rfl
      omega

end Calls

/-- `noEvent` is not an event of a sub-machine. -/
private lemma EventBounds.isBelow_noEvent (B : EventBounds) : B.isBelow B.noEvent = false := by
  cases hlast : B.lastEvent <;> simp [EventBounds.isBelow, hlast]

namespace AcceptedActions

variable {m : Machine} {D : AcceptedActions m} {U : UserCode m.StateIdx} {B : EventBounds}

/-- A change of state undoes no call. -/
private lemma le_calls_changeState (r : World m.StateIdx × m.StateIdx) :
    r.1.calls ≤ (D.changeState r).calls := by
  obtain ⟨t, ht⟩ := D.exists_changeState_trace r
  simp [World.calls, ht, List.countP_append]

/-- A transition calls what it calls, and nothing is undone. -/
lemma le_calls_transition (t : Option (Transition m.StateIdx)) (e : ℤ) (w : World m.StateIdx) :
    w.calls ≤ (D.changeState (U.takeTransition t e w)).calls :=
  (U.le_calls_takeTransition t e w).trans (le_calls_changeState _)

/-- The function for empty cells undoes no call. -/
lemma le_calls_handleEmptyCell (w : World m.StateIdx) :
    w.calls ≤ (D.handleEmptyCell U w).calls := by
  unfold handleEmptyCell
  split
  · rw [U.calls_callAction]
    omega
  · exact le_rfl

/-- An entry's action is called, or there is none. -/
private lemma advances_runAction (noEvent : ℤ) (emptyCell : Bool)
    (pai : ActionInfo m.EventIdx m.StateIdx) (w : World m.StateIdx) :
    Advances noEvent w (D.runAction U noEvent emptyCell pai w) := by
  unfold runAction
  split_ifs
  · exact ⟨le_calls_handleEmptyCell w, .inr rfl⟩
  · exact ⟨le_rfl, .inr rfl⟩
  · have h := U.calls_callAction pai.action w
    exact ⟨by omega, .inl (by omega)⟩

/-- An entry makes progress: a call, or the next event is `noEvent`. -/
lemma advances_runEntry (noEvent : ℤ) (emptyCell : Bool)
    (pai : ActionInfo m.EventIdx m.StateIdx) (e : ℤ) (w : World m.StateIdx) :
    Advances noEvent w (D.runEntry U noEvent emptyCell pai e w) := by
  obtain ⟨hle, hor⟩ := advances_runAction (D := D) (U := U) noEvent emptyCell pai w
  have htransition := le_calls_transition (D := D) (U := U) pai.transition e
    (D.runAction U noEvent emptyCell pai w).1
  refine ⟨hle.trans htransition, ?_⟩
  rcases hor with hlt | hno
  · exact .inl (hlt.trans_le htransition)
  · exact .inr hno

/-- A state function of -ts makes progress. -/
private lemma advances_stateFn (ancestors : m.EventIdx → List ℤ) (w : World m.StateIdx) (e : ℤ) :
    Advances B.noEvent w (D.stateFn U B ancestors w e) := by
  unfold stateFn
  cases himpl : D.implementingMachine w.state with
  | some k =>
    -- the sub-machine that implements the state is called first
    have hlt : w.calls < (w.observe (.subMachine k e)).calls := by
      rw [w.calls_observe rfl]
      omega
    cases switchBody (D.transitionsOnlyCases B ancestors w.state) e with
    | some pai => exact .of_lt (hlt.trans_le (le_calls_transition pai.transition e _))
    | none => exact .of_lt hlt
  | none =>
    cases switchBody (D.stateFnCases B ancestors w.state) e with
    | some pai => exact advances_runEntry _ _ _ _ _
    | none => exact ⟨le_calls_handleEmptyCell w, .inr rfl⟩

/-- An event handler of -te makes progress. -/
private lemma advances_eventHandler (i : m.EventIdx) (w : World m.StateIdx) :
    Advances B.noEvent w (D.eventHandler U B i w) := by
  have hempty : Advances B.noEvent w (D.handleEmptyCell U w, B.noEvent) :=
    ⟨le_calls_handleEmptyCell w, .inr rfl⟩
  unfold eventHandler
  split_ifs
  · split
    · exact advances_runEntry _ _ _ _ _
    · exact ⟨le_rfl, .inr rfl⟩
  · exact hempty
  · split
    · exact advances_runEntry _ _ _ _ _
    · exact advances_runEntry _ _ _ _ _
    · exact ⟨le_rfl, .inr rfl⟩
    · exact hempty

/-- The handler for all states leaves no event, leaves everything as it was, or has called
something. -/
private lemma allStatesHandler_cases (w : World m.StateIdx) {e : ℤ} (he : e ≠ B.noEvent) :
    (w.calls ≤ (D.allStatesHandler U B w e).1.calls ∧ (D.allStatesHandler U B w e).2 = none) ∨
      D.allStatesHandler U B w e = (w, some e) ∨
      w.calls < (D.allStatesHandler U B w e).1.calls := by
  unfold allStatesHandler
  by_cases hhas : D.actionArray.hasSinglePaiEvents = true
  · rw [if_pos hhas]
    dsimp only
    generalize switchBody _ e = body
    cases body with
    | none => cases m.actionsReturn <;> simp [he]
    | some pai =>
      -- an action is called, or nothing is left
      have hrun : ∀ emptyCell, w.calls ≤ (D.runEntry U B.noEvent emptyCell pai e w).1.calls :=
        fun emptyCell => (advances_runEntry B.noEvent emptyCell pai e w).le
      rcases (advances_runEntry (D := D) (U := U) B.noEvent pai.transition.isNone pai e w).lt_or
        with hlt | hno
      · cases m.actionsReturn with
        | void => exact .inl ⟨hrun _, rfl⟩
        | events => exact .inr (.inr hlt)
        | states => exact .inr (.inr hlt)
      · cases m.actionsReturn with
        | void => exact .inl ⟨hrun _, rfl⟩
        | events => exact .inl ⟨hrun _, if_pos hno⟩
        | states => exact .inl ⟨hrun _, if_pos hno⟩
  · rw [if_neg hhas]
    exact .inr (.inl rfl)

/-! ## The loop's body -/

variable {path : List ℕ} {g : Generator} {ancestors : m.EventIdx → List ℤ}
  {f : Frame (World m.StateIdx)}

variable (D U path g ancestors) in
/-- Running sub-machines calls them. -/
private lemma exists_foldlM_callSubMachine (v : ℤ) (ks : List ℕ) (f : Frame (World m.StateIdx)) :
    ∃ h, ks.foldlM ((D.ownCode U B path g ancestors).callSubMachine v) f = some h ∧
      f.world.calls + ks.length ≤ h.world.calls ∧ (ks = [] → h = f) := by
  induction ks generalizing f with
  | nil => exact ⟨f, rfl, le_rfl, fun _ => rfl⟩
  | cons k ks ih =>
    obtain ⟨h, hh, hle, -⟩ := ih ⟨f.world.observe (.subMachine k v),
      U.subMachine (f.world.observe (.subMachine k v)).trace, f.delivered ++ [(k, v)]⟩
    refine ⟨h, hh, ?_, by simp⟩
    have hcall := f.world.calls_observe (o := .subMachine k v) rfl
    simp only at hle
    rw [List.length_cons]
    omega

variable (D U path g ancestors) in
/-- The branch for the events of sub-machines makes progress. -/
private lemma exists_findAndRunUnlessInhibited (f : Frame (World m.StateIdx)) :
    ∃ h, (D.ownCode U B path g ancestors).findAndRunUnlessInhibited f { f with e := B.noEvent } =
      some h ∧ Advances B.noEvent f.world (h.world, h.e) := by
  unfold OwnCode.findAndRunUnlessInhibited
  split_ifs
  · obtain ⟨h, hh, hle, hnil⟩ := exists_foldlM_callSubMachine D U path g ancestors f.e
      (findAndRunSubMachine m B.subMachineArray f.e) { f with e := B.noEvent }
    refine ⟨h, hh, ?_⟩
    by_cases hks : findAndRunSubMachine m B.subMachineArray f.e = []
    · rw [hnil hks]
      exact ⟨le_rfl, .inr rfl⟩
    · have hpos := List.length_pos_of_ne_nil hks
      simp only at hle
      exact .of_lt (by show f.world.calls < h.world.calls; omega)
  · exact ⟨_, rfl, le_rfl, .inr rfl⟩

variable (D U ancestors) in
/-- The innards make progress, or leave an event alone that is not the machine's own. -/
private lemma exists_subInnards (hg : g = .switch ∨ g = .eventTable) (hpath : path ≠ [])
    (hlen : B.noEvent = B.firstEvent + m.eventList.length) (hf : f.e ≠ B.noEvent) :
    ∃ h, (D.ownCode U B path g ancestors).subInnards g f = some h ∧
      (Advances B.noEvent f.world (h.world, h.e) ∨ (h = f ∧ B.isOwn f.e = false)) := by
  rcases hg with hg | hg
  · subst hg
    simp only [OwnCode.subInnards, OwnCode.switchInnards, ownCode]
    have hcases := allStatesHandler_cases (D := D) (U := U) f.world hf
    cases hall : D.allStatesHandler U B f.world f.e with
    | mk w left =>
      simp only [hall, Prod.mk.injEq] at hcases
      cases left with
      | none =>
        have hle : f.world.calls ≤ w.calls := by
          rcases hcases with ⟨hle, -⟩ | ⟨-, h⟩ | hlt
          · exact hle
          · cases h
          · exact hlt.le
        exact ⟨_, rfl, .inl ⟨hle, .inr rfl⟩⟩
      | some e =>
        have hstate := advances_stateFn (D := D) (U := U) (B := B) ancestors w e
        dsimp only
        rcases hcases with ⟨-, h⟩ | ⟨rfl, h⟩ | hlt
        · cases h
        · obtain rfl := Option.some.inj h
          split_ifs with hguard
          · exact ⟨_, rfl, .inl hstate⟩
          · rw [Bool.or_eq_true, not_or] at hguard
            exact ⟨_, rfl, .inr ⟨rfl, by simpa using hguard.1⟩⟩
        · split_ifs
          · exact ⟨_, rfl, .inl (.of_lt (hlt.trans_le hstate.le))⟩
          · exact ⟨_, rfl, .inl (.of_lt hlt)⟩
  · subst hg
    simp only [OwnCode.subInnards]
    by_cases hown : B.isOwn f.e = true
    · -- the table has a handler for each of the machine's own events
      obtain ⟨hfirst, hlast⟩ : B.firstEvent ≤ f.e ∧ f.e < B.noEvent := by
        simpa [EventBounds.isOwn] using hown
      have hplace : 0 ≤ f.e - tableBase B path ∧
          (f.e - tableBase B path).toNat < m.eventList.length := by
        rw [tableBase, if_neg hpath]
        omega
      rw [if_pos hown]
      simp only [OwnCode.callDispatch, ownCode, eventAt?, dif_pos hplace, Option.map_some]
      exact ⟨_, rfl, .inl (advances_eventHandler _ f.world)⟩
    · rw [if_neg hown]
      exact ⟨f, rfl, .inr ⟨rfl, by simpa using hown⟩⟩

/-- **The body** of the loop makes progress on every event that the machine takes for its own or
for one of its sub-machines. -/
lemma exists_body (hg : g = .switch ∨ g = .eventTable) (hpath : path ≠ [])
    (hlen : B.noEvent = B.firstEvent + m.eventList.length) (hf : f.e ≠ B.noEvent)
    (htaken : B.isOwn f.e = true ∨ B.isBelow f.e = true) :
    ∃ h, ((D.ownCode U B path g ancestors).switchSubLoop g).body f = some h ∧
      Advances B.noEvent f.world (h.world, h.e) := by
  obtain ⟨h, hh, hor⟩ := exists_subInnards D U ancestors hg hpath hlen hf
  simp only [OwnCode.switchSubLoop, hh, Option.bind_some]
  obtain ⟨h', hh', hadvances'⟩ := exists_findAndRunUnlessInhibited D U path g ancestors
    (B := B) h
  rcases hor with hadvances | hsame
  · split_ifs with hbelow
    · -- an event of a sub-machine is left, and that is not `noEvent`
      have hlt : f.world.calls < h.world.calls := by
        refine hadvances.lt_or.resolve_right ?_
        intro hno
        rw [show h.e = B.noEvent from hno, B.isBelow_noEvent] at hbelow
        cases hbelow
      exact ⟨h', hh', .of_lt (hlt.trans_le hadvances'.le)⟩
    · exact ⟨h, rfl, hadvances⟩
  · obtain ⟨rfl, hown⟩ := hsame
    rw [if_pos (htaken.resolve_left (by simp [hown]))]
    exact ⟨h', hh', hadvances'⟩

end AcceptedActions

/-! ## The numbers of a machine and of all below it -/

/-- The value is one of an event or a `noEvent` of the machine at the path or of a machine below
it. -/
def BelongsTo (s : EnumScope Enumerator) (path : List ℕ) (v : ℤ) : Prop :=
  ∃ q l, l.isSlot = true ∧ s.valueOf ⟨path ++ q, l⟩ = some v

/-- A machine's own numbers. -/
private lemma Machine.exists_ownValue (m : Machine) {b v : ℤ} (hb : b ≤ v)
    (hv : v ≤ b + m.eventList.length) : ∃ l, l.isSlot = true ∧ m.ownValue b l = some v := by
  by_cases hno : v = b + m.eventList.length
  · exact ⟨.noEvent, rfl, by rw [hno, Machine.ownValue]⟩
  · refine ⟨.event (v - b).toNat, rfl, ?_⟩
    rw [Machine.ownValue, if_pos (by omega)]
    congr 1
    omega

mutual

/-- **No number is left out.** From a machine's `firstEvent` up to its `lastEvent`, every number
is that of an event or a `noEvent` of the machine or of one below it. -/
theorem exists_slot : ∀ (m : Machine) (b v : ℤ), b ≤ v → v ≤ m.lastEventValue b →
    ∃ q c b' l, m.locate b q = some (c, b') ∧ l.isSlot = true ∧ c.ownValue b' l = some v
  | .mk info ms, b, v, hb, hv => by
    by_cases hown : v ≤ b + info.eventList.length
    · obtain ⟨l, hl, hlv⟩ := (Machine.mk info ms).exists_ownValue hb hown
      exact ⟨[], _, _, l, rfl, hl, hlv⟩
    · obtain ⟨k, q, c, b', l, hc, hl, hlv⟩ := exists_slot_below ms (b + info.eventList.length)
        (b + info.eventList.length + 1) v (by omega) (by omega) hv
      exact ⟨k :: q, c, b', l, hc, hl, hlv⟩

/-- The same for a list of machines, up to the `noEvent` of the last one. -/
theorem exists_slot_below : ∀ (ms : List Machine) (x b v : ℤ), x < b → b ≤ v →
    v ≤ lastNoEvent x ms b → ∃ k q c b' l, locateBelow ms b k q = some (c, b') ∧
      l.isSlot = true ∧ c.ownValue b' l = some v
  | [], x, b, v, hx, hb, hv => by
    rw [lastNoEvent] at hv
    omega
  | m :: ms, x, b, v, hx, hb, hv => by
    by_cases hm : v ≤ m.lastEventValue b
    · obtain ⟨q, c, b', l, hc, hl, hlv⟩ := exists_slot m b v hb hm
      exact ⟨0, q, c, b', l, hc, hl, hlv⟩
    · have hnext := nextValue_eq m b
      have hle := le_lastEventValue m b
      obtain ⟨k, q, c, b', l, hc, hl, hlv⟩ := exists_slot_below ms (b + m.eventList.length)
        (m.nextValue b) v (by omega) (by omega) hv
      exact ⟨k + 1, q, c, b', l, hc, hl, hlv⟩

end

namespace NumberedFrom

variable {s : EnumScope Enumerator} {path : List ℕ} {m : Machine} {b : ℤ}

/-- The numbers up to `lastEvent` belong to the machine. -/
lemma belongsTo (h : NumberedFrom s path m b) {v : ℤ} (hb : b ≤ v) (hv : v ≤ m.lastEventValue b) :
    BelongsTo s path v := by
  obtain ⟨q, c, b', l, hc, hl, hlv⟩ := exists_slot m b v hb hv
  exact ⟨q, l, hl, by rw [h q l, hc, Option.bind_some, hlv]⟩

/-- A machine without sub-machines has no numbers after its `noEvent`. -/
private lemma le_of_belongsTo (h : NumberedFrom s path m b) (hleaf : m.machineList = []) {v : ℤ}
    (hv : BelongsTo s path v) : v ≤ b + m.eventList.length := by
  obtain ⟨q, l, hl, hval⟩ := hv
  rw [h q l] at hval
  cases q with
  | nil =>
    cases l <;> simp only [Label.isSlot, Bool.false_eq_true] at hl
    case event i =>
      simp only [Machine.locate_nil, Option.bind_some, Machine.ownValue] at hval
      split_ifs at hval
      obtain rfl := Option.some.inj hval
      omega
    case noEvent => exact (Option.some.inj hval).ge
  | cons k q => simp [Machine.locate, hleaf] at hval

end NumberedFrom

/-! ## Live loops -/

/-- What the loop of the machine at the path should do with the event it has. If it goes on, it
calls something or the event changes. An event that belongs neither to the machine nor to one
below it ends the loop and goes to the caller as it is, and so does `noEvent`, as the caller's
own. -/
structure Live {σ : Type*} (s : EnumScope Enumerator) (path : List ℕ) (B : EventBounds)
    (L : WhileLoop (Frame (World σ)) (Frame (World σ))) (f : Frame (World σ)) : Prop where
  progress : L.cond f = true →
    ∃ h, L.body f = some h ∧ (f.world.calls < h.world.calls ∨ h.e ≠ f.e)
  ends : f.e = B.noEvent ∨ ¬ BelongsTo s path f.e → L.pass f = .returned f ∧
    B.returnEvent f.e =
      if f.e = B.noEvent then s.valueOf ⟨path.dropLast, .noEvent⟩ else some f.e

/-- The function that the -ts and -te generators emit for a sub-machine whose actions return
events. -/
lemma machineLoop_eq_switchSubLoop {m : Machine} {B : EventBounds} {W : Type*}
    (C : OwnCode m B W) {path : List ℕ} (hpath : path ≠ []) (hret : m.actionsReturn = .events)
    {g : Generator} (hg : g = .switch ∨ g = .eventTable) (event : ℤ) :
    C.machineLoop path g event = C.switchSubLoop g := by
  rw [OwnCode.machineLoop, if_neg hpath]
  rcases hg with hg | hg
  · simp [OwnCode.subLoop, hret, hg]
  · simp [OwnCode.subLoop, hret, hg]

/-- The parent's `noEvent`, as a sub-machine's function names it. -/
lemma eventBounds_parentNoEvent {s : EnumScope Enumerator} {path : List ℕ} {m : Machine}
    {B : EventBounds} (hB : eventBounds s path m = some B) (hpath : path ≠ []) :
    B.parentNoEvent = s.valueOf ⟨path.dropLast, .noEvent⟩ := by
  simp only [eventBounds, Option.bind_eq_some_iff, Option.map_eq_some_iff] at hB
  obtain ⟨-, -, -, -, -, -, rfl⟩ := hB
  exact if_neg hpath

section Condition

variable {m : Machine} {B : EventBounds} {W : Type*} {C : OwnCode m B W} {g : Generator}
  {f : Frame W}

/-- The condition of the loop. -/
lemma switchSubLoop_cond_iff : (C.switchSubLoop g).cond f = true ↔
    f.e ≠ B.noEvent ∧ B.firstEvent ≤ f.e ∧ ∀ last ∈ B.lastEvent, f.e < last := by
  cases hlast : B.lastEvent <;> simp [OwnCode.switchSubLoop, hlast, and_assoc]

/-- The loop takes what passes the condition for its own or for a sub-machine's, except in a
machine without sub-machines the numbers after `noEvent`. -/
private lemma isOwn_or_isBelow_of_cond (hcond : (C.switchSubLoop g).cond f = true)
    (hf : B.lastEvent.isSome = true ∨ f.e ≤ B.noEvent) :
    B.isOwn f.e = true ∨ B.isBelow f.e = true := by
  obtain ⟨hne, hfirst, hbound⟩ := switchSubLoop_cond_iff.mp hcond
  by_cases hlt : f.e < B.noEvent
  · left
    simp [EventBounds.isOwn, hfirst, hlt]
  · right
    have hgt : B.noEvent < f.e := by omega
    obtain ⟨last, hlast⟩ := Option.isSome_iff_exists.mp (hf.resolve_right (by omega))
    simp [EventBounds.isBelow, hlast, hgt, hbound last hlast]

/-- Without sub-machines the loop stays with an event after `noEvent` that no innards take. -/
private lemma diverges_of_lastEvent_eq_none (hg : g = .switch ∨ g = .eventTable)
    (hlast : B.lastEvent = none) (hle : B.firstEvent ≤ B.noEvent) (hf : B.noEvent < f.e)
    (hforeign : ∀ i, B.eventValue i ≠ some f.e)
    (hown : ¬ (g = .switch ∧ m.artifactsImplementing = true ∧ B.inAncestorRange f.e = true)) :
    (C.switchSubLoop g).Diverges (.running f) := by
  have hnotOwn : B.isOwn f.e = false := by
    simp only [EventBounds.isOwn, Bool.and_eq_false_imp, decide_eq_true_eq,
      decide_eq_false_iff_not]
    omega
  apply WhileLoop.diverges_of_fixed
  · refine switchSubLoop_cond_iff.mpr ⟨hf.ne', by omega, ?_⟩
    simp [hlast]
  · have hbelow : B.isBelow f.e = false := by simp [EventBounds.isBelow, hlast]
    simp [OwnCode.switchSubLoop, subInnards_eq (C := C) hf.ne' hnotOwn hforeign hg hown, hbelow]

end Condition

namespace AcceptedActions

variable {m : Machine} {D : AcceptedActions m} {U : UserCode m.StateIdx} {B : EventBounds}
  {path : List ℕ} {g : Generator} {ancestors : m.EventIdx → List ℤ}

/-- A pass of the loop makes progress. -/
lemma exists_body_of_cond (hg : g = .switch ∨ g = .eventTable) (hpath : path ≠ [])
    (hlen : B.noEvent = B.firstEvent + m.eventList.length) {f : Frame (World m.StateIdx)}
    (hf : B.lastEvent.isSome = true ∨ f.e ≤ B.noEvent)
    (hcond : ((D.ownCode U B path g ancestors).switchSubLoop g).cond f = true) :
    ∃ h, ((D.ownCode U B path g ancestors).switchSubLoop g).body f = some h ∧
      Advances B.noEvent f.world (h.world, h.e) :=
  exists_body hg hpath hlen (switchSubLoop_cond_iff.mp hcond).1 (isOwn_or_isBelow_of_cond hcond hf)

/-- **Calls in a run.** Every pass of a run calls something, except one that ends it. -/
lemma calls_of_after (hg : g = .switch ∨ g = .eventTable) (hpath : path ≠ [])
    (hlen : B.noEvent = B.firstEvent + m.eventList.length) {f : Frame (World m.StateIdx)}
    (hf : ∀ k h, ((D.ownCode U B path g ancestors).switchSubLoop g).after k (.running f) =
      .running h → B.lastEvent.isSome = true ∨ h.e ≤ B.noEvent) (k : ℕ)
    {h : Frame (World m.StateIdx)}
    (hk : ((D.ownCode U B path g ancestors).switchSubLoop g).after k (.running f) = .running h) :
    f.world.calls + k ≤ h.world.calls + if h.e = B.noEvent then 1 else 0 := by
  set L := (D.ownCode U B path g ancestors).switchSubLoop g with hL
  induction k generalizing h with
  | zero =>
    obtain rfl := Outcome.running.inj hk
    omega
  | succ k ih =>
    rw [WhileLoop.after_succ'] at hk
    cases hj : L.after k (.running f) with
    | returned r => simp [hj, WhileLoop.advance] at hk
    | stuck => simp [hj, WhileLoop.advance] at hk
    | running t =>
      have hle := ih hj
      rw [hj, WhileLoop.advance_running] at hk
      have hcond : L.cond t = true := by
        by_contra hcond
        rw [WhileLoop.pass_of_not_cond (by simpa using hcond)] at hk
        cases hk
      obtain ⟨h', hh', hadvances⟩ := exists_body_of_cond hg hpath hlen (hf k t hj) hcond
      rw [WhileLoop.pass_of_cond hcond, hh'] at hk
      obtain rfl := Outcome.running.inj hk
      -- the run was still in the loop, so that its event was not `noEvent`
      rw [if_neg (switchSubLoop_cond_iff.mp hcond).1] at hle
      have hmono : t.world.calls ≤ h'.world.calls := hadvances.le
      by_cases hno : h'.e = B.noEvent
      · rw [if_pos hno]
        omega
      · have hlt : t.world.calls < h'.world.calls := hadvances.lt_or.resolve_right hno
        omega

end AcceptedActions

section Live

variable {s : EnumScope Enumerator} {path : List ℕ} {m : Machine} {b : ℤ} {B : EventBounds}
  {g : Generator} {f : Frame (World m.StateIdx)} (hb : NumberedFrom s path m b)
  (hfirst : B.firstEvent = b) (hno : B.noEvent = b + m.eventList.length)
  (hlast : B.lastEvent = if m.machineList = [] then none else some (m.lastEventValue b))
include hb hfirst hno hlast

/-- What passes the condition belongs to the machine or to one below it. -/
private lemma NumberedFrom.belongsTo_of_cond {C : OwnCode m B (World m.StateIdx)}
    (hf : m.machineList ≠ [] ∨ f.e ≤ B.noEvent) (hcond : (C.switchSubLoop g).cond f = true) :
    BelongsTo s path f.e := by
  obtain ⟨-, hge, hbound⟩ := switchSubLoop_cond_iff.mp hcond
  refine hb.belongsTo (by omega) ?_
  rcases hf with hsubs | hle
  · exact (hbound _ (by rw [hlast, if_neg hsubs]; rfl)).le
  · exact hle.trans (hno.le.trans (le_lastEventValue m b))

/-- In a machine without sub-machines an event after `noEvent` belongs to others and passes the
condition. -/
private lemma NumberedFrom.not_live_of_lt (C : OwnCode m B (World m.StateIdx))
    (hleaf : m.machineList = []) (hf : B.noEvent < f.e) :
    ¬ Live s path B (C.switchSubLoop g) f := by
  intro hlive
  have hcond : (C.switchSubLoop g).cond f = true := by
    refine switchSubLoop_cond_iff.mpr ⟨hf.ne', by omega, ?_⟩
    simp [hlast, hleaf]
  have hforeign : ¬ BelongsTo s path f.e := by
    intro h
    have := hb.le_of_belongsTo hleaf h
    omega
  have hpass := (hlive.ends (.inr hforeign)).1
  rw [WhileLoop.pass_of_cond hcond] at hpass
  cases hbody : (C.switchSubLoop g).body f <;> simp [hbody] at hpass

/-- Everywhere else the loop is live. -/
lemma NumberedFrom.live (D : AcceptedActions m) (U : UserCode m.StateIdx)
    (ancestors : m.EventIdx → List ℤ) (hB : eventBounds s path m = some B) (hpath : path ≠ [])
    (hg : g = .switch ∨ g = .eventTable) (hf : m.machineList ≠ [] ∨ f.e ≤ B.noEvent) :
    Live s path B ((D.ownCode U B path g ancestors).switchSubLoop g) f := by
  constructor
  · intro hcond
    obtain ⟨h, hh, hadvances⟩ := AcceptedActions.exists_body_of_cond hg hpath (by omega)
      (hf.imp_left fun hsubs => by rw [hlast, if_neg hsubs]; rfl) hcond
    refine ⟨h, hh, hadvances.lt_or.imp_right ?_⟩
    intro he heq
    exact (switchSubLoop_cond_iff.mp hcond).1 (heq.symm.trans he)
  · intro hend
    have hcond : ((D.ownCode U B path g ancestors).switchSubLoop g).cond f = false := by
      rw [← Bool.not_eq_true]
      intro hcond
      rcases hend with h | h
      · exact (switchSubLoop_cond_iff.mp hcond).1 h
      · exact h (hb.belongsTo_of_cond hfirst hno hlast hf hcond)
    constructor
    · rw [WhileLoop.pass_of_not_cond hcond]
      rfl
    · rw [EventBounds.returnEvent, eventBounds_parentNoEvent hB hpath]

end Live

/-- **Progress in the -ts and -te loops.** Take any sub-machine of an accepted tree whose actions
return events, generated by -ts or -te. Whatever the user's functions return, its loop is live on
all events if the machine has sub-machines, and otherwise exactly on the events that are not
numbered after its `noEvent`.

**Proof sketch.** The numbers that pass the condition are those from `firstEvent` on, up to
`lastEvent` if there is one, and they all belong to the machine or to one below it. The innards
take the ones before `noEvent`, and the call of the sub-machines the other ones. Without
sub-machines the numbers after `noEvent` belong to others, and they pass the condition too. -/
theorem exists_live_iff (compactActionArray : Bool) (designated : String → ℤ) {top : Machine}
    (htop : top.Accepted) {path : List ℕ} (hpath : path ≠ []) {m : Machine}
    (hm : top.sub? path = some m) (hret : m.actionsReturn = .events) {g : Generator}
    (hg : g = .switch ∨ g = .eventTable) :
    ∃ s B, eventEnum compactActionArray designated top = some s ∧ eventBounds s path m = some B ∧
      ∀ (D : AcceptedActions m) (U : UserCode m.StateIdx) (ancestors : m.EventIdx → List ℤ)
        (event : ℤ) (f : Frame (World m.StateIdx)),
        Live s path B ((D.ownCode U B path g ancestors).machineLoop path g event) f ↔
          m.machineList ≠ [] ∨ f.e ≤ B.noEvent := by
  obtain ⟨s, last, hs, -⟩ := exists_valueOf_eventEnum compactActionArray designated htop
  obtain ⟨b, hb⟩ := exists_numberedFrom htop hs hpath hm
  obtain ⟨B, hB, hfirst, hno, hlast, -⟩ := hb.exists_eventBounds hpath
  refine ⟨s, B, hs, hB, ?_⟩
  intro D U ancestors event f
  rw [machineLoop_eq_switchSubLoop _ hpath hret hg]
  constructor
  · intro hlive
    by_contra hnot
    rw [not_or, not_not, not_le] at hnot
    exact hb.not_live_of_lt hfirst hno hlast _ hnot.1 hnot.2 hlive
  · intro hf
    exact hb.live hfirst hno hlast D U ancestors hB hpath hg hf

/-- **No idle passes.** In a run whose events are never numbered after `noEvent`, and in every run
of a machine with sub-machines, `k` passes make `k` calls, or one less if the last of them ends
with `noEvent`. -/
theorem exists_calls_le (compactActionArray : Bool) (designated : String → ℤ) {top : Machine}
    (htop : top.Accepted) {path : List ℕ} (hpath : path ≠ []) {m : Machine}
    (hm : top.sub? path = some m) (hret : m.actionsReturn = .events) {g : Generator}
    (hg : g = .switch ∨ g = .eventTable) :
    ∃ s B, eventEnum compactActionArray designated top = some s ∧ eventBounds s path m = some B ∧
      ∀ (D : AcceptedActions m) (U : UserCode m.StateIdx) (ancestors : m.EventIdx → List ℤ)
        (event : ℤ) (f : Frame (World m.StateIdx)),
        (∀ k h, ((D.ownCode U B path g ancestors).machineLoop path g event).after k (.running f) =
          .running h → m.machineList ≠ [] ∨ h.e ≤ B.noEvent) →
        ∀ k h, ((D.ownCode U B path g ancestors).machineLoop path g event).after k (.running f) =
          .running h → f.world.calls + k ≤ h.world.calls + if h.e = B.noEvent then 1 else 0 := by
  obtain ⟨s, last, hs, -⟩ := exists_valueOf_eventEnum compactActionArray designated htop
  obtain ⟨b, hb⟩ := exists_numberedFrom htop hs hpath hm
  obtain ⟨B, hB, hfirst, hno, hlast, -⟩ := hb.exists_eventBounds hpath
  refine ⟨s, B, hs, hB, ?_⟩
  intro D U ancestors event f hf k h hk
  rw [machineLoop_eq_switchSubLoop _ hpath hret hg] at hf hk
  refine AcceptedActions.calls_of_after hg hpath (by omega) ?_ k hk
  intro j t ht
  exact (hf j t ht).imp_left fun hsubs => by rw [hlast, if_neg hsubs]; rfl

/-- **Endless loops.** In a machine without sub-machines whose actions return events, an event
that is numbered after its `noEvent` keeps the -ts or -te loop going for ever, and nothing is
called, unless the -ts machine implements artifacts and finds the event in an ancestor's range. -/
theorem exists_diverges (compactActionArray : Bool) (designated : String → ℤ) {top : Machine}
    (htop : top.Accepted) {path : List ℕ} (hpath : path ≠ []) {m : Machine}
    (hm : top.sub? path = some m) (hret : m.actionsReturn = .events) (hleaf : m.machineList = [])
    {g : Generator} (hg : g = .switch ∨ g = .eventTable) :
    ∃ s B, eventEnum compactActionArray designated top = some s ∧ eventBounds s path m = some B ∧
      ∀ (W : Type) (C : OwnCode m B W) (event : ℤ) (f : Frame W), B.noEvent < f.e →
        ¬ (g = .switch ∧ m.artifactsImplementing = true ∧ B.inAncestorRange f.e = true) →
        (C.machineLoop path g event).Diverges (.running f) := by
  obtain ⟨s, last, hs, -⟩ := exists_valueOf_eventEnum compactActionArray designated htop
  obtain ⟨b, hb⟩ := exists_numberedFrom htop hs hpath hm
  obtain ⟨B, hB, hfirst, hno, hlast, hvalue, -⟩ := hb.exists_eventBounds hpath
  refine ⟨s, B, hs, hB, ?_⟩
  intro W C event f hf hown
  rw [machineLoop_eq_switchSubLoop C hpath hret hg]
  rw [if_pos hleaf] at hlast
  refine diverges_of_lastEvent_eq_none hg hlast (by omega) hf ?_ hown
  intro i hi
  rw [hvalue] at hi
  split_ifs at hi
  have := Option.some.inj hi
  omega

/-- The one-cell machine and another one below a top-level machine. -/
def twoLeavesMachine : Machine :=
  plainMachine "top" "et" "st" [oneCellMachine, plainMachine "n" "en" "sn" []]

/-- The machine with two leaves is accepted. -/
lemma twoLeavesMachine_accepted : twoLeavesMachine.Accepted := by
  simp [twoLeavesMachine, oneCellMachine, plainMachine, Machine.Accepted, Machine.AcceptedList]

/-- Actions of the one-cell machine that return the other machine's event. -/
def strangerCode : UserCode oneCellMachine.StateIdx := { oneCellCode with action := fun _ => 5 }

/-- The -te loop of the one-cell machine does nothing with the other machine's event, and goes
on. -/
theorem not_live_twoLeavesMachine :
    ¬ ∀ top : Machine, top.Accepted → ∀ path m, path ≠ [] → top.sub? path = some m →
      m.actionsReturn = .events → ∀ g : Generator, g = .switch ∨ g = .eventTable →
        ∃ s B, eventEnum false (fun _ => 0) top = some s ∧ eventBounds s path m = some B ∧
          ∀ (D : AcceptedActions m) (U : UserCode m.StateIdx) (ancestors : m.EventIdx → List ℤ)
            (event : ℤ) (f : Frame (World m.StateIdx)),
            (∃ x, x.label.isSlot = true ∧ s.valueOf x = some f.e) → (∃ t, U.action t = f.e) →
              Live s path B ((D.ownCode U B path g ancestors).machineLoop path g event) f := by
  intro h
  obtain ⟨s, B, hs, hB, hlive⟩ := h twoLeavesMachine twoLeavesMachine_accepted [0] oneCellMachine
    (by simp) rfl rfl .eventTable (.inr rfl)
  have hvalue : (eventEnum false (fun _ => 0) twoLeavesMachine).bind
      (·.valueOf ⟨[1], .event 0⟩) = some 5 := by decide
  have hbounds : (eventEnum false (fun _ => 0) twoLeavesMachine).bind
      (fun s => (eventBounds s [0] oneCellMachine).map
        fun B => (B.firstEvent, B.noEvent, B.lastEvent)) = some (3, 4, none) := by decide
  rw [hs, Option.bind_some] at hvalue hbounds
  rw [hB, Option.map_some] at hbounds
  simp only [Option.some.injEq, Prod.mk.injEq] at hbounds
  obtain ⟨hfirst, hno, hlast⟩ := hbounds
  have hprogress := (hlive (oneCellActions none) strangerCode (fun _ => []) 3
    ⟨⟨⟨0, by decide⟩, []⟩, 5, []⟩ ⟨⟨[1], .event 0⟩, rfl, hvalue⟩ ⟨[], rfl⟩).progress
  rw [machineLoop_eq_switchSubLoop _ (by simp) rfl (.inr rfl)] at hprogress
  obtain ⟨f, hf, hor⟩ := hprogress (switchSubLoop_cond_iff.mpr (by simp [hfirst, hno, hlast]))
  simp only [OwnCode.switchSubLoop, OwnCode.subInnards, EventBounds.isOwn, EventBounds.isBelow,
    hfirst, hno, hlast] at hf
  obtain rfl : _ = f := Option.some.inj hf
  simp at hor

/-- The -ts loop of the one-cell machine is live on its own event and not on the other
machine's. -/
theorem exists_live_twoLeavesMachine :
    ∃ s B, eventEnum false (fun _ => 0) twoLeavesMachine = some s ∧
      eventBounds s [0] oneCellMachine = some B ∧
      Live s [0] B (((oneCellActions none).ownCode strangerCode B [0] .switch
        fun _ => []).machineLoop [0] .switch 3) ⟨⟨⟨0, by decide⟩, []⟩, 3, []⟩ ∧
      ¬ Live s [0] B (((oneCellActions none).ownCode strangerCode B [0] .switch
        fun _ => []).machineLoop [0] .switch 3) ⟨⟨⟨0, by decide⟩, []⟩, 5, []⟩ := by
  obtain ⟨s, B, hs, hB, h⟩ := exists_live_iff false (fun _ => 0) twoLeavesMachine_accepted
    (show [0] ≠ [] by simp) (show twoLeavesMachine.sub? [0] = some oneCellMachine from rfl) rfl
    (g := .switch) (.inl rfl)
  have hno : (eventEnum false (fun _ => 0) twoLeavesMachine).bind
      (fun s => (eventBounds s [0] oneCellMachine).map (·.noEvent)) = some 4 := by decide
  rw [hs, Option.bind_some, hB, Option.map_some] at hno
  refine ⟨s, B, hs, hB, ?_, ?_⟩
  · refine (h _ _ _ _ _).mpr (.inr ?_)
    rw [Option.some.inj hno]
    decide
  · rw [h, Option.some.inj hno]
    simp [oneCellMachine, plainMachine]

end FsmLang
