import Mathlib.Data.List.Basic
import Mathlib.Tactic
import FsmLang.EventLoops

set_option relaxedAutoImplicit false
set_option autoImplicit false

/-!
# Inhibiting sub-machines

A state may inhibit sub-machines: their events are to be discarded while the machine is in it.
`doNotInhibitSubMachines` guards the call of `findAndRunSubMachine` in every loop but those of
-tc machines whose actions return states; what becomes of the event when the guard fails is
left to each loop.

## Main definitions

* `Arrival` — an event comes with the call of a machine's function, or from one of its actions.
* `Discards` — the function returns with nothing changed but the event.
* `DiscardsWhen` — the loops in which that happens.

## Main results

* `exists_discards_iff` — in an inhibiting state a sub-machine's event is discarded exactly
  when `DiscardsWhen`.
-/

namespace FsmLang

open CSemantics

/-- How an event comes to a machine's function: it is called with it, or, called with `event`,
one of its actions has returned it. -/
inductive Arrival where
  | arrives
  | returned (event : ℤ)

section Discard

variable {m : Machine} {B : EventBounds} {W : Type*}

/-- What is left of a frame whose event is discarded: `noEvent` in a loop. -/
def discarded (m : Machine) (B : EventBounds) (f : Frame W) : Frame W :=
  if m.actionsReturn = .events then { f with e := B.noEvent } else f

/-- The frame's event is discarded: the function returns, no sub-machine has been run, and the
world is as before. -/
def Discards (C : OwnCode m B W) (path : List ℕ) (g : Generator) (f : Frame W) : Arrival → Prop
  | .arrives => (C.machineLoop path g f.e).Returns (C.start path g f) (discarded m B f)
  | .returned event => (C.machineLoop path g event).Returns (.running f) (discarded m B f)

/-- The loop takes the event for one of the machine's own or of an ancestor; for a sub-machine's
event that takes external designations, which may put its value among theirs. -/
def TakenForOwn (m : Machine) (B : EventBounds) (path : List ℕ) (g : Generator) (e : ℤ) : Prop :=
  (path = [] ∧ e < B.noEvent) ∨
    (path ≠ [] ∧ g = .switch ∧ m.artifactsImplementing = true ∧ B.inAncestorRange e = true)

/-- The loops that discard the event `e` in an inhibiting state. -/
def DiscardsWhen (m : Machine) (B : EventBounds) (path : List ℕ) (g : Generator) (e : ℤ) : Prop :=
  match m.actionsReturn with
  | .events =>
    if path = [] then g ≠ .table ∨ e = B.noEvent
    else (g = .switch ∨ g = .eventTable) ∧ B.isBelow e = true
  | .void => True
  | .states => g ≠ .table ∨ findAndRunSubMachine m B.subMachineArray e = []

variable {C : OwnCode m B W} {g : Generator} {f : Frame W}

/-! ## What inhibits -/

/-- In an inhibiting state no sub-machine is run. -/
lemma findAndRunUnlessInhibited_eq (hinh : C.doNotInhibitSubMachines f.world = false)
    (h : Frame W) : C.findAndRunUnlessInhibited f h = some h := by
  rw [OwnCode.findAndRunUnlessInhibited, hinh]
  rfl

/-- The finder calls no sub-machine when there is none for the event. -/
private lemma findAndRun_of_nil {v : ℤ} (h : findAndRunSubMachine m B.subMachineArray v = []) :
    C.findAndRun v f = some { f with e := B.noEvent } := by
  rw [OwnCode.findAndRun, h]
  rfl

/-- Running sub-machines adds to the events handed on. -/
private lemma delivered_of_foldlM {v : ℤ} {ks : List ℕ} {h : Frame W}
    (hrun : ks.foldlM (C.callSubMachine v) f = some h) :
    h.delivered = f.delivered ++ ks.map fun k => (k, v) := by
  induction ks generalizing f with
  | nil =>
    obtain rfl : f = h := by simpa using hrun
    simp
  | cons k ks ih =>
    rw [List.foldlM_cons] at hrun
    obtain ⟨f', hf', hrest⟩ := Option.bind_eq_some_iff.mp hrun
    obtain ⟨r, -, rfl⟩ := Option.map_eq_some_iff.mp hf'
    rw [ih hrest]
    simp

/-- What the finder hands on. -/
private lemma delivered_of_findAndRun {v : ℤ} {h : Frame W} (hrun : C.findAndRun v f = some h) :
    h.delivered =
      f.delivered ++ (findAndRunSubMachine m B.subMachineArray v).map fun k => (k, v) :=
  delivered_of_foldlM (f := { f with e := B.noEvent }) hrun

/-- A function without a loop returns what its body leaves, with the event it came with. -/
lemma once_returns_iff (body : Frame W → Option (Frame W)) (h : Frame W) :
    (OwnCode.once body).Returns (.running f) h ↔
      ∃ f', body f = some f' ∧ { f' with e := f.e } = h := by
  have hpass : (OwnCode.once body).pass f =
      ((body f).map fun f' => { f' with e := f.e }).elim .stuck .returned := rfl
  constructor
  · intro hret
    obtain ⟨k, hk⟩ := hret
    cases k with
    | zero => cases hk
    | succ k =>
      rw [WhileLoop.after_succ, WhileLoop.advance_running, hpass] at hk
      cases hb : body f with
      | none => simp [hb] at hk
      | some f' =>
        rw [hb] at hk
        refine ⟨f', rfl, ?_⟩
        simpa using hk
  · intro hbody
    obtain ⟨f', hf', rfl⟩ := hbody
    refine ⟨1, ?_⟩
    rw [WhileLoop.after_succ, WhileLoop.advance_running, hpass, hf']
    rfl

/-- The values of an event that belongs to a machine below a sub-machine. -/
structure BelowEvent (B : EventBounds) (e : ℤ) : Prop where
  first_le : B.firstEvent ≤ B.noEvent
  lt : B.noEvent < e
  ne_own : ∀ i, B.eventValue i ≠ some e
  lastEvent : B.lastEvent.isSome = true

namespace BelowEvent

/-- An event of a machine below is none of the machine's own. -/
lemma isOwn_eq {e : ℤ} (h : BelowEvent B e) : B.isOwn e = false := by
  have := h.lt
  simp only [EventBounds.isOwn, Bool.and_eq_false_imp, decide_eq_true_eq, decide_eq_false_iff_not]
  omega

/-- For such an event the test of the -ts and -te loops is the test of their bodies. -/
lemma cond_eq {e : ℤ} (h : BelowEvent B e) :
    (decide (e ≠ B.noEvent) && decide (B.firstEvent ≤ e) && B.lastEvent.all (e < ·)) =
      B.isBelow e := by
  obtain ⟨last, hlast⟩ := Option.isSome_iff_exists.mp h.lastEvent
  have hne : e ≠ B.noEvent := h.lt.ne'
  have hfirst : B.firstEvent ≤ e := h.first_le.trans h.lt.le
  have hlt := h.lt
  simp [EventBounds.isBelow, hlast, hne, hfirst, hlt]

end BelowEvent

/-! ## The top-level machine -/

/-- The loop of the top-level machine discards the event unless it is the -tc loop. -/
private lemma topLoop_returns_iff (hret : m.actionsReturn = .events) (hsubs : m.machineList ≠ [])
    (hinh : C.doNotInhibitSubMachines f.world = false) (he : B.noEvent ≤ f.e) :
    (C.topLoop g).Returns (.running f) { f with e := B.noEvent } ↔
      g ≠ .table ∨ f.e = B.noEvent := by
  have hempty : m.machineList.isEmpty = false := by simpa using hsubs
  have hlt : decide (f.e < B.noEvent) = false := by simpa using he
  by_cases hno : f.e = B.noEvent
  · have hcond : (C.topLoop g).cond f = false := by simp [OwnCode.topLoop, hret, hno]
    have hfinish : (C.topLoop g).finish f = some f := by simp [OwnCode.topLoop, hret]
    have hf : { f with e := B.noEvent } = f := by rw [← hno]
    rw [hf]
    exact iff_of_true (WhileLoop.returns_of_not_cond hcond hfinish) (.inr hno)
  · have hcond : (C.topLoop g).cond f = true := by simp [OwnCode.topLoop, hret, hno]
    have hbody : (C.topLoop g).body f =
        some (if g = .table then f else { f with e := B.noEvent }) := by
      simp only [OwnCode.topLoop, hret, hempty, hlt, Bool.or_false, Bool.false_eq_true, if_false]
      exact findAndRunUnlessInhibited_eq hinh _
    by_cases hg : g = .table
    · -- the event stays what it is, and so does the loop
      rw [if_pos hg] at hbody
      have hnot := (WhileLoop.diverges_of_fixed hcond hbody).not_returns { f with e := B.noEvent }
      exact iff_of_false hnot (by simp [hg, hno])
    · rw [if_neg hg] at hbody
      have hcond' : (C.topLoop g).cond { f with e := B.noEvent } = false := by
        simp [OwnCode.topLoop, hret]
      have hfinish : (C.topLoop g).finish { f with e := B.noEvent } =
          some { f with e := B.noEvent } := by simp [OwnCode.topLoop, hret]
      have hreturns :=
        WhileLoop.returns_of_body hcond hbody (WhileLoop.returns_of_not_cond hcond' hfinish)
      exact iff_of_true hreturns (.inl hg)

/-! ## Sub-machines -/

/-- The -tc loop of a sub-machine does not return. -/
private lemma tableSubLoop_diverges (hsubs : m.machineList ≠ [])
    (hinh : C.doNotInhibitSubMachines f.world = false) (he : BelowEvent B f.e) :
    C.tableSubLoop.Diverges (.running f) := by
  have hempty : m.machineList.isEmpty = false := by simpa using hsubs
  have hne : f.e ≠ B.noEvent := he.lt.ne'
  have hfirst : B.firstEvent ≤ f.e := he.first_le.trans he.lt.le
  have hge : B.noEvent ≤ f.e := he.lt.le
  apply WhileLoop.diverges_of_fixed
  · simp [OwnCode.tableSubLoop, hne, hfirst]
  · simp [OwnCode.tableSubLoop, hempty, hge, findAndRunUnlessInhibited_eq hinh]

/-- The -tss loop of a sub-machine returns the event. -/
private lemma singleSwitchSubLoop_returns (hinh : C.doNotInhibitSubMachines f.world = false)
    (he : BelowEvent B f.e) (event : ℤ) : (C.singleSwitchSubLoop event).Returns (.running f) f := by
  apply WhileLoop.returns_of_not_cond he.isOwn_eq
  have hguard : C.findAndRunUnlessInhibited { f with e := event } { f with e := event } =
      some { f with e := event } :=
    findAndRunUnlessInhibited_eq (f := { f with e := event }) hinh _
  simp [OwnCode.singleSwitchSubLoop, hguard]

/-- The innards of the -ts and -te loops leave an event alone that is not the machine's own. -/
lemma subInnards_eq (hne : f.e ≠ B.noEvent) (hnotOwn : B.isOwn f.e = false)
    (hforeign : ∀ i, B.eventValue i ≠ some f.e) (hg : g = .switch ∨ g = .eventTable)
    (hown : ¬ (g = .switch ∧ m.artifactsImplementing = true ∧ B.inAncestorRange f.e = true)) :
    C.subInnards g f = some f := by
  rcases hg with hg | hg
  · subst hg
    have hguard : (B.isOwn f.e || (m.artifactsImplementing && B.inAncestorRange f.e)) = false := by
      rw [hnotOwn, Bool.false_or]
      simpa using hown
    simp only [OwnCode.subInnards, OwnCode.switchInnards,
      C.handleInAllStates_foreign f.world f.e hne hforeign, hguard]
    rfl
  · subst hg
    simp [OwnCode.subInnards, hnotOwn]

/-- The -ts and -te loops of a sub-machine discard the event when it is numbered before
`lastEvent`; otherwise they leave it to the caller. -/
private lemma switchSubLoop_returns (hinh : C.doNotInhibitSubMachines f.world = false)
    (he : BelowEvent B f.e) (hg : g = .switch ∨ g = .eventTable)
    (hown : ¬ (g = .switch ∧ m.artifactsImplementing = true ∧ B.inAncestorRange f.e = true)) :
    (C.switchSubLoop g).body f =
        some (if B.isBelow f.e then { f with e := B.noEvent } else f) ∧
      (C.switchSubLoop g).Returns (.running f)
        (if B.isBelow f.e then { f with e := B.noEvent } else f) ∧
      (C.switchSubLoop g).Returns (.running { f with e := B.noEvent })
        { f with e := B.noEvent } := by
  have hbody : (C.switchSubLoop g).body f =
      some (if B.isBelow f.e then { f with e := B.noEvent } else f) := by
    simp only [OwnCode.switchSubLoop, subInnards_eq he.lt.ne' he.isOwn_eq he.ne_own hg hown,
      Option.bind_some, findAndRunUnlessInhibited_eq hinh]
    split_ifs <;> rfl
  have hcond : (C.switchSubLoop g).cond f = B.isBelow f.e := he.cond_eq
  have hend : (C.switchSubLoop g).Returns (.running { f with e := B.noEvent })
      { f with e := B.noEvent } :=
    WhileLoop.returns_of_not_cond (by simp [OwnCode.switchSubLoop]) rfl
  refine ⟨hbody, ?_, hend⟩
  by_cases hbelow : B.isBelow f.e = true
  · rw [if_pos hbelow] at hbody ⊢
    exact WhileLoop.returns_of_body (hcond.trans hbelow) hbody hend
  · rw [if_neg hbelow]
    exact WhileLoop.returns_of_not_cond (by simpa [hcond] using hbelow) rfl

/-! ## Functions without a loop -/

/-- The finder leaves a frame as it is when it runs no sub-machine. -/
lemma findAndRun_returns_iff {v : ℤ} :
    (∃ h, C.findAndRun v f = some h ∧ { h with e := f.e } = f) ↔
      findAndRunSubMachine m B.subMachineArray v = [] := by
  constructor
  · intro hrun
    obtain ⟨h, hh, hf⟩ := hrun
    have hdelivered := delivered_of_findAndRun hh
    have heq := congrArg Frame.delivered hf
    simp only at heq
    simpa [heq] using hdelivered
  · intro hnil
    exact ⟨_, findAndRun_of_nil hnil, rfl⟩

/-- A function without a loop whose body leaves the frame as it is. -/
lemma once_returns_self {body : Frame W → Option (Frame W)} (h : body f = some f) :
    (OwnCode.once body).Returns (.running f) f := (once_returns_iff body f).mpr ⟨f, h, rfl⟩

/-- A top-level machine whose actions return no events. -/
private lemma topLoop_once_returns_iff (hret : m.actionsReturn ≠ .events)
    (hsubs : m.machineList ≠ [])
    (hinh : C.doNotInhibitSubMachines f.world = false) (he : B.noEvent ≤ f.e) :
    (C.topLoop g).Returns (.running f) f ↔
      (m.actionsReturn = .states →
        g ≠ .table ∨ findAndRunSubMachine m B.subMachineArray f.e = []) := by
  have hempty : m.machineList.isEmpty = false := by simpa using hsubs
  have hlt : decide (f.e < B.noEvent) = false := by simpa using he
  have hguard := findAndRunUnlessInhibited_eq hinh f
  cases hr : m.actionsReturn with
  | events => exact absurd hr hret
  | void =>
    have hloop : (C.topLoop g).Returns (.running f) f := by
      simp only [OwnCode.topLoop, hr]
      exact once_returns_self (by simp [hempty, hlt, hguard])
    simp [hloop]
  | states =>
    by_cases hg : g = .table
    · simp only [OwnCode.topLoop, hr, hempty, hlt, hg, once_returns_iff, Bool.or_false,
        Bool.false_eq_true, if_false, if_true]
      simp [findAndRun_returns_iff]
    · have hloop : (C.topLoop g).Returns (.running f) f := by
        simp only [OwnCode.topLoop, hr]
        exact once_returns_self (by simp [hempty, hlt, hguard, hg])
      simp [hloop, hg]

/-- A sub-machine whose actions return no events. -/
private lemma subLoop_once_returns_iff (hret : m.actionsReturn ≠ .events)
    (hsubs : m.machineList ≠ [])
    (hinh : C.doNotInhibitSubMachines f.world = false) (he : BelowEvent B f.e)
    (hown : ¬ (g = .switch ∧ m.artifactsImplementing = true ∧ B.inAncestorRange f.e = true))
    (event : ℤ) :
    (C.subLoop g event).Returns (.running f) f ↔
      (m.actionsReturn = .states →
        g ≠ .table ∨ findAndRunSubMachine m B.subMachineArray f.e = []) := by
  have hempty : m.machineList.isEmpty = false := by simpa using hsubs
  have hlt : decide (f.e < B.noEvent) = false := by simpa using he.lt.le
  have hguard := findAndRunUnlessInhibited_eq hinh f
  -- all loops but one leave the frame as it is
  by_cases hbug : m.actionsReturn = .states ∧ g = .table
  · obtain ⟨hr, rfl⟩ := hbug
    simp only [OwnCode.subLoop, hr, hempty, hlt, once_returns_iff, Bool.or_false,
      Bool.false_eq_true, if_false, if_true]
    simp [findAndRun_returns_iff]
  · have hloop : (C.subLoop g event).Returns (.running f) f := by
      cases hr : m.actionsReturn with
      | events => exact absurd hr hret
      | void =>
        cases g with
        | table =>
          simp only [OwnCode.subLoop, hr]
          exact once_returns_self (by simp [hempty, hlt, hguard])
        | singleSwitch =>
          simp only [OwnCode.subLoop, hr]
          exact once_returns_self (by simp [he.isOwn_eq, hguard])
        | switch =>
          simp only [OwnCode.subLoop, hr]
          have hinnards := subInnards_eq (C := C) he.lt.ne' he.isOwn_eq he.ne_own (.inl rfl) hown
          exact once_returns_self (by simp [hinnards, hguard])
        | eventTable =>
          simp only [OwnCode.subLoop, hr]
          have hinnards := subInnards_eq (C := C) he.lt.ne' he.isOwn_eq he.ne_own (.inr rfl) hown
          exact once_returns_self (by simp [hinnards, hguard])
      | states =>
        cases g with
        | table => exact absurd ⟨hr, rfl⟩ hbug
        | singleSwitch =>
          simp only [OwnCode.subLoop, hr]
          exact once_returns_self (by simp [he.isOwn_eq, hguard])
        | switch =>
          simp only [OwnCode.subLoop, hr]
          exact once_returns_self (by simp [hempty, hlt, hguard])
        | eventTable =>
          simp only [OwnCode.subLoop, hr]
          exact once_returns_self (by simp [hempty, hlt, hguard])
    refine iff_of_true hloop ?_
    intro hr
    exact .inl fun hg => hbug ⟨hr, hg⟩

/-! ## All loops -/

/-- The top-level machine. -/
private lemma discards_top_iff (hsubs : m.machineList ≠ [])
    (hinh : C.doNotInhibitSubMachines f.world = false) (he : B.noEvent ≤ f.e) (a : Arrival) :
    Discards C [] g f a ↔ DiscardsWhen m B [] g f.e := by
  have hrun : Discards C [] g f a ↔
      (C.topLoop g).Returns (.running f) (discarded m B f) := by
    cases a <;> rfl
  rw [hrun]
  by_cases hret : m.actionsReturn = .events
  · simpa [discarded, DiscardsWhen, hret] using topLoop_returns_iff hret hsubs hinh he
  · have honce := topLoop_once_returns_iff (g := g) hret hsubs hinh he
    cases hr : m.actionsReturn with
    | events => exact absurd hr hret
    | void => simpa [discarded, DiscardsWhen, hr] using honce
    | states => simpa [discarded, DiscardsWhen, hr] using honce

/-- A -ts or -te sub-machine whose actions return events. -/
private lemma discards_switchSub_iff {path : List ℕ} (hpath : path ≠ [])
    (hret : m.actionsReturn = .events)
    (hinh : C.doNotInhibitSubMachines f.world = false) (he : BelowEvent B f.e)
    (hg : g = .switch ∨ g = .eventTable)
    (hown : ¬ (g = .switch ∧ m.artifactsImplementing = true ∧ B.inAncestorRange f.e = true))
    (a : Arrival) : Discards C path g f a ↔ B.isBelow f.e = true := by
  obtain ⟨hbody, hrun, hend⟩ := switchSubLoop_returns hinh he hg hown
  have hloop : ∀ event, C.machineLoop path g event = C.switchSubLoop g := by
    intro event
    rcases hg with rfl | rfl <;> simp [OwnCode.machineLoop, OwnCode.subLoop, hpath, hret]
  have hdiscarded : discarded m B f = { f with e := B.noEvent } := by simp [discarded, hret]
  -- a `do` loop has run its body once before the test
  have hstart : C.start path g f = .running f ∨ C.start path g f =
      .running (if B.isBelow f.e then { f with e := B.noEvent } else f) := by
    by_cases himp : m.artifactsImplementing = true
    · right
      simp [OwnCode.start, OwnCode.subStart, hpath, hret, hg, himp, hbody]
    · left
      simp [OwnCode.start, OwnCode.subStart, hpath, himp]
  by_cases hbelow : B.isBelow f.e = true
  · rw [if_pos hbelow] at hrun hstart
    refine iff_of_true ?_ hbelow
    cases a with
    | arrives =>
      rw [Discards, hloop, hdiscarded]
      rcases hstart with h | h
      · rwa [h]
      · rwa [h]
    | returned event =>
      rw [Discards, hloop, hdiscarded]
      exact hrun
  · rw [if_neg hbelow] at hrun hstart
    have hne : f ≠ { f with e := B.noEvent } := by
      intro h
      exact he.lt.ne' (congrArg Frame.e h)
    refine iff_of_false ?_ hbelow
    cases a with
    | arrives =>
      rw [Discards, hloop, hdiscarded, or_self_iff.mp hstart]
      intro h
      exact hne (hrun.unique h)
    | returned event =>
      rw [Discards, hloop, hdiscarded]
      intro h
      exact hne (hrun.unique h)

/-- A sub-machine. -/
private lemma discards_sub_iff {path : List ℕ} (hpath : path ≠ []) (hsubs : m.machineList ≠ [])
    (hinh : C.doNotInhibitSubMachines f.world = false) (he : BelowEvent B f.e)
    (hown : ¬ (g = .switch ∧ m.artifactsImplementing = true ∧ B.inAncestorRange f.e = true))
    (a : Arrival) : Discards C path g f a ↔ DiscardsWhen m B path g f.e := by
  by_cases hret : m.actionsReturn = .events
  · by_cases hg : g = .switch ∨ g = .eventTable
    · rw [discards_switchSub_iff hpath hret hinh he hg hown a]
      simp [DiscardsWhen, hret, hpath, hg]
    · have hwhen : ¬ DiscardsWhen m B path g f.e := by simp [DiscardsWhen, hret, hpath, hg]
      refine iff_of_false ?_ hwhen
      have hne : f ≠ { f with e := B.noEvent } := by
        intro h
        exact he.lt.ne' (congrArg Frame.e h)
      cases g with
      | table =>
        have hnot := (tableSubLoop_diverges hsubs hinh he).not_returns { f with e := B.noEvent }
        cases a <;>
          simpa [Discards, discarded, OwnCode.machineLoop, OwnCode.start, OwnCode.subStart,
            OwnCode.subLoop, hpath, hret] using hnot
      | singleSwitch =>
        have hnot : ∀ event, ¬ (C.singleSwitchSubLoop event).Returns (.running f)
            { f with e := B.noEvent } := fun event h =>
          hne ((singleSwitchSubLoop_returns hinh he event).unique h)
        cases a <;>
          simpa [Discards, discarded, OwnCode.machineLoop, OwnCode.start, OwnCode.subStart,
            OwnCode.subLoop, hpath, hret] using hnot _
      | switch => exact absurd (.inl rfl) hg
      | eventTable => exact absurd (.inr rfl) hg
  · have honce := subLoop_once_returns_iff (g := g) hret hsubs hinh he hown
    have hwhen : (m.actionsReturn = .states →
        g ≠ .table ∨ findAndRunSubMachine m B.subMachineArray f.e = []) ↔
          DiscardsWhen m B path g f.e := by
      cases hr : m.actionsReturn <;> simp_all [DiscardsWhen]
    rw [← hwhen]
    cases a with
    | arrives =>
      rw [← honce f.e]
      simp [Discards, discarded, OwnCode.machineLoop, OwnCode.start, OwnCode.subStart, hpath, hret]
    | returned event =>
      rw [← honce event]
      simp [Discards, discarded, OwnCode.machineLoop, hpath, hret]

end Discard

/-! ## Every machine of a tree -/

/-- The event of a machine below a sub-machine. -/
lemma NumberedFrom.belowEvent {s : EnumScope Enumerator} {path : List ℕ} {m : Machine} {b : ℤ}
    (h : NumberedFrom s path m b) (hpath : path ≠ []) {B : EventBounds}
    (hB : eventBounds s path m = some B) (hsubs : m.machineList ≠ []) {q : List ℕ} (hq : q ≠ [])
    {i : ℕ} {v : ℤ} (hv : s.valueOf ⟨path ++ q, .event i⟩ = some v) : BelowEvent B v := by
  obtain ⟨B', hB', hfirst, hno, hlast, hevent, -⟩ := h.exists_eventBounds hpath
  obtain rfl := Option.some.inj (hB'.symm.trans hB)
  have hlt := h.lt_event hq hv
  refine ⟨by omega, by omega, ?_, by simp [hlast, hsubs]⟩
  intro j hj
  rw [hevent] at hj
  split_ifs at hj with hjlt
  have := Option.some.inj hj
  omega

/-- A machine above another has sub-machines. -/
lemma Machine.machineList_ne_nil_of_sub? {m c : Machine} {q : List ℕ} (hq : q ≠ [])
    (h : m.sub? q = some c) : m.machineList ≠ [] := by
  obtain ⟨k, p, rfl⟩ := List.exists_cons_of_ne_nil hq
  intro hnil
  simp [Machine.sub?_cons, hnil] at h

/-! ### Without external designations -/

/-- An enumerator's value is at least that of its machine's `firstEvent`. -/
private lemma Machine.le_ownValue {m : Machine} {b v : ℤ} {l : Label}
    (h : m.ownValue b l = some v) :
    b ≤ v := by
  have hlast := le_lastEventValue m b
  rw [Machine.lastEventValue] at hlast
  cases l <;> simp only [Machine.ownValue] at h
  case event i =>
    split_ifs at h
    obtain rfl := Option.some.inj h
    omega
  case firstEvent => exact (Option.some.inj h).le
  case noEvent =>
    obtain rfl := Option.some.inj h
    omega
  case lastEvent =>
    split_ifs at h
    obtain rfl := Option.some.inj h
    omega
  case numEvents => cases h
  case numAllEvents => cases h

/-- The numbers of the top-level machine end where those below it begin. -/
lemma value_compare_topBase {compactActionArray : Bool} {designated : String → ℤ} {top : Machine}
    (htop : top.Accepted) (hext : assignExternalEventValues compactActionArray top = false)
    {s : EnumScope Enumerator} (hs : eventEnum compactActionArray designated top = some s) :
    (∀ l v, l ≠ .numAllEvents → s.valueOf ⟨[], l⟩ = some v → v < topBase top) ∧
      ∀ k q l v, s.valueOf ⟨k :: q, l⟩ = some v → topBase top ≤ v := by
  obtain ⟨w, hw⟩ := eventEnum_of_noExternal designated htop hext
  have hwf := eventEnum_wellFormed hs
  obtain rfl := Option.some.inj (hw.symm.trans hs)
  have hlen : 0 < top.eventList.length :=
    List.length_pos_of_ne_nil (top.accepted_iff.mp htop).1
  constructor
  · intro l v hl hv
    rw [EnumScope.valueOf_eq_some_iff hwf, List.mem_append, List.mem_append] at hv
    rcases hv with (hv | hv) | hv
    · simp only [topValues, List.mem_cons, Prod.mk.injEq, mem_numberFrom] at hv
      have hbase : (topBase top : ℤ) = top.eventList.length + (closingNames top).length := rfl
      rcases hv with ⟨-, rfl⟩ | ⟨-, rfl⟩ | ⟨i, hi, rfl⟩
      · omega
      · omega
      · have hilt := (List.getElem?_eq_some_iff.mp hi).1
        simp only [laterEventNames, List.length_append, List.length_map, List.length_range] at hilt
        omega
    · obtain ⟨j, -, hj⟩ := prefix_of_mem_machineListValues [] 0 _ _ _ hv
      simp at hj
    · exact absurd (congrArg Enumerator.label (Prod.mk.inj (List.mem_singleton.mp hv)).1) hl
  · intro k q l v hv
    rw [EnumScope.valueOf_eq_some_iff hwf, List.mem_append, List.mem_append] at hv
    rcases hv with (hv | hv) | hv
    · have hmem : (⟨k :: q, l⟩ : Enumerator) ∈ topNames top := by
        have := List.mem_map_of_mem (f := Prod.fst) hv
        simpa [topValues, topNames] using this
      simpa using (path_of_mem_topNames hmem).1
    · obtain ⟨k', q', c, b', hc, -, hown⟩ := (mem_machineListValues [] _ v _ 0 _).mp hv
      obtain ⟨d, -, hd⟩ := Option.bind_eq_some_iff.mp hc
      have hbase := le_nextValueList (top.machineList.take k') (topBase top)
      exact hbase.trans ((locate_value_le hd).1.trans (Machine.le_ownValue hown))
    · simp at hv

/-- **No loop takes a sub-machine's event for another's** unless there are external
designations. -/
theorem not_takenForOwn {compactActionArray : Bool} {designated : String → ℤ} {top : Machine}
    (htop : top.Accepted) (hext : assignExternalEventValues compactActionArray top = false)
    {s : EnumScope Enumerator} (hs : eventEnum compactActionArray designated top = some s)
    {path : List ℕ} {m : Machine} (hm : top.sub? path = some m) {B : EventBounds}
    (hB : eventBounds s path m = some B) (g : Generator) {q : List ℕ} (hq : q ≠ []) {i : ℕ} {v : ℤ}
    (hv : s.valueOf ⟨path ++ q, .event i⟩ = some v) : ¬ TakenForOwn m B path g v := by
  obtain ⟨htopLt, hbelowLe⟩ := value_compare_topBase htop hext hs
  have hbase : topBase top ≤ v := by
    obtain ⟨k, r, hk⟩ := List.exists_cons_of_ne_nil (show path ++ q ≠ [] by simp [hq])
    exact hbelowLe k r (.event i) v (hk ▸ hv)
  intro htaken
  obtain ⟨first, hfirst, hrest⟩ := Option.bind_eq_some_iff.mp hB
  obtain ⟨noEvent, hno, hrest⟩ := Option.bind_eq_some_iff.mp hrest
  obtain ⟨array, harray, rfl⟩ := Option.map_eq_some_iff.mp hrest
  rcases htaken with h | h
  · obtain ⟨rfl, hlt⟩ := h
    have hend : m.endLabel [] ≠ .numAllEvents := by
      unfold Machine.endLabel
      split_ifs <;> simp
    have := htopLt _ _ hend hno
    simp only at hlt
    omega
  · obtain ⟨hpath, -, -, hrange⟩ := h
    simp only [EventBounds.inAncestorRange, List.any_eq_true, ancestorEventConditional,
      List.mem_filterMap, List.mem_inits, Option.bind_eq_some_iff,
      Option.map_eq_some_iff, Bool.and_eq_true, decide_eq_true_eq] at hrange
    obtain ⟨-, ⟨p, hp, first', -, last, hlast, rfl⟩, -, hvlt⟩ := hrange
    by_cases hp₀ : p = []
    · subst hp₀
      have := htopLt _ _ (by unfold ancestorEndLabel; split_ifs <;> simp) hlast
      simp only at hvlt
      omega
    · -- an ancestor below the top is numbered before the machine
      obtain ⟨r, hr⟩ := hp
      have hsplit : path = p ++ (r ++ [path.getLast hpath]) := by
        rw [← List.append_assoc, hr, List.dropLast_append_getLast]
      rw [hsplit, Machine.sub?_append] at hm
      obtain ⟨P, hP, -⟩ := Option.bind_eq_some_iff.mp hm
      obtain ⟨b, hb⟩ := exists_numberedFrom htop hs hp₀ hP
      rw [hsplit, List.append_assoc] at hv
      have hlt := hb.lt_event (by simp) hv
      rw [hb.valueOf, ancestorEndLabel] at hlast
      split_ifs at hlast
      · -- `numEvents` is printed for the top-level machine only
        cases hlast
      · have : b + P.eventList.length = last := Option.some.inj hlast
        simp only at hvlt
        omega

/-- **Inhibited sub-machines.** Take any machine of an accepted tree, any code of its own, any
point of any run at which its state inhibits sub-machines, and an event of a machine below it
that is now to be processed. If the loop is one of those of `DiscardsWhen` and does not take the
event for another's, the event is discarded; and no other event is discarded, unless the loop
takes it for another's.

**Proof sketch.** The guard fails. The -tc loops leave the event as it is and test the same
condition again; the -tss loop of a sub-machine returns the event; the -ts and -te loops, and
the -tss loop of the top-level machine, go on with `noEvent`. -/
theorem exists_discards_iff (compactActionArray : Bool) (designated : String → ℤ) {top : Machine}
    (htop : top.Accepted) {path : List ℕ} {m : Machine} (hm : top.sub? path = some m) :
    ∃ s B, eventEnum compactActionArray designated top = some s ∧ eventBounds s path m = some B ∧
      ∀ (W : Type) (C : OwnCode m B W) (g : Generator) (f : Frame W) (a : Arrival) (q : List ℕ)
        (c : Machine) (i : ℕ), (m.stateList.get (C.state f.world)).inhibitSubMachines = true →
        q ≠ [] → m.sub? q = some c → s.valueOf ⟨path ++ q, .event i⟩ = some f.e →
        (DiscardsWhen m B path g f.e ∧ ¬ TakenForOwn m B path g f.e → Discards C path g f a) ∧
          (Discards C path g f a → DiscardsWhen m B path g f.e ∨
            (TakenForOwn m B path g f.e ∧
              assignExternalEventValues compactActionArray top = true)) := by
  obtain ⟨own, b, v, -, hs⟩ := exists_eventEnum compactActionArray designated htop
  obtain ⟨B, hB⟩ := exists_eventBounds htop hs hm
  refine ⟨_, B, hs, hB, ?_⟩
  intro W C g f a q c i hstate hq hc hv
  have hinh : C.doNotInhibitSubMachines f.world = false := by
    rw [OwnCode.doNotInhibitSubMachines, hstate]
    rfl
  have hsubs := Machine.machineList_ne_nil_of_sub? hq hc
  -- outside the events taken for another's the two agree
  have hiff : ¬ TakenForOwn m B path g f.e →
      (Discards C path g f a ↔ DiscardsWhen m B path g f.e) := by
    intro htaken
    rw [TakenForOwn, not_or] at htaken
    by_cases hpath : path = []
    · subst hpath
      exact discards_top_iff hsubs hinh (by simpa using htaken.1) a
    · obtain ⟨b', hb'⟩ := exists_numberedFrom htop hs hpath hm
      exact discards_sub_iff hpath hsubs hinh (hb'.belowEvent hpath hB hsubs hq hv)
        (fun h => htaken.2 ⟨hpath, h⟩) a
  constructor
  · intro hwhen
    exact (hiff hwhen.2).mpr hwhen.1
  · intro hdis
    by_cases htaken : TakenForOwn m B path g f.e
    · right
      refine ⟨htaken, ?_⟩
      by_contra hext
      exact not_takenForOwn htop (by simpa using hext) hs hm hB g hq hv htaken
    · exact .inl ((hiff htaken).mp hdis)

/-- A top-level machine whose only state inhibits sub-machines, and a sub-machine. -/
def inhibitingMachine : Machine :=
  .mk { name := "top", eventList := [{ name := "e" }],
        stateList := [{ name := "s", inhibitSubMachines := true }] }
    [plainMachine "M" "em" "sm" []]

/-- The -tc loop of the machine does not discard the sub-machine's event. -/
theorem not_discards_inhibitingMachine :
    ¬ ∀ (top : Machine), top.Accepted → ∀ path m, top.sub? path = some m →
      ∃ s B, eventEnum false (fun _ => 0) top = some s ∧ eventBounds s path m = some B ∧
        ∀ (W : Type) (C : OwnCode m B W) (g : Generator) (f : Frame W) (a : Arrival) (q : List ℕ)
          (c : Machine) (i : ℕ), (m.stateList.get (C.state f.world)).inhibitSubMachines = true →
          q ≠ [] → m.sub? q = some c → s.valueOf ⟨path ++ q, .event i⟩ = some f.e →
          Discards C path g f a := by
  intro h
  obtain ⟨s, B, hs, hB, hdis⟩ := h inhibitingMachine
    (by simp [inhibitingMachine, plainMachine, Machine.Accepted, Machine.AcceptedList]) []
    inhibitingMachine rfl
  have hvalue : (eventEnum false (fun _ => 0) inhibitingMachine).bind
      (·.valueOf ⟨[0], .event 0⟩) = some 3 := by decide
  have hno : (eventEnum false (fun _ => 0) inhibitingMachine).bind
      (fun s => (eventBounds s [] inhibitingMachine).map (·.noEvent)) = some 1 := by decide
  rw [hs] at hvalue hno
  simp only [Option.bind_some, hB, Option.map_some, Option.some.injEq] at hvalue hno
  have hstate : (inhibitingMachine.stateList.get
      ((quietCode inhibitingMachine B ⟨0, by decide⟩).state ())).inhibitSubMachines = true := rfl
  have hdiscards := hdis Unit (quietCode inhibitingMachine B ⟨0, by decide⟩) .table
    ⟨(), 3, []⟩ .arrives [0] _ 0 hstate (by simp) rfl hvalue
  have hdiverges : (quietCode inhibitingMachine B ⟨0, by decide⟩).topLoop .table |>.Diverges
      (.running ⟨(), 3, []⟩) :=
    WhileLoop.diverges_of_fixed (by simp [OwnCode.topLoop, inhibitingMachine, hno])
      (by simp [OwnCode.topLoop, inhibitingMachine, hno, OwnCode.findAndRunUnlessInhibited,
        OwnCode.doNotInhibitSubMachines, quietCode])
  exact hdiverges.not_returns _ hdiscards

/-- The -ts loop of the machine discards the sub-machine's event. -/
theorem exists_discards_inhibitingMachine :
    ∃ s B, eventEnum false (fun _ => 0) inhibitingMachine = some s ∧
      eventBounds s [] inhibitingMachine = some B ∧
      Discards (quietCode inhibitingMachine B ⟨0, by decide⟩) [] .switch ⟨(), 3, []⟩
        .arrives := by
  have htop : inhibitingMachine.Accepted := by
    simp [inhibitingMachine, plainMachine, Machine.Accepted, Machine.AcceptedList]
  obtain ⟨s, B, hs, hB, h⟩ := exists_discards_iff false (fun _ => 0) htop
    (show inhibitingMachine.sub? [] = some inhibitingMachine from rfl)
  have hvalue : (eventEnum false (fun _ => 0) inhibitingMachine).bind
      (·.valueOf ⟨[0], .event 0⟩) = some 3 := by decide
  have hno : (eventEnum false (fun _ => 0) inhibitingMachine).bind
      (fun s => (eventBounds s [] inhibitingMachine).map (·.noEvent)) = some 1 := by decide
  rw [hs] at hvalue hno
  simp only [Option.bind_some, hB, Option.map_some, Option.some.injEq] at hvalue hno
  refine ⟨s, B, hs, hB, ?_⟩
  refine (h Unit (quietCode inhibitingMachine B ⟨0, by decide⟩) .switch ⟨(), 3, []⟩ .arrives
    [0] (plainMachine "M" "em" "sm" []) 0 rfl (by simp) rfl hvalue).1 ⟨?_, ?_⟩
  · simp [DiscardsWhen, inhibitingMachine, Machine.actionsReturn]
  · simp [TakenForOwn, hno]

end FsmLang
