import Mathlib.Data.List.Basic
import Mathlib.Tactic
import FsmLang.CSemantics.NestedLoops
import FsmLang.TreeNumbers

set_option relaxedAutoImplicit false
set_option autoImplicit false

/-!
# A tree of machines is one machine

The loops of a tree of -tc or -te machines, each calling the loops below it, do what one loop over
all machines does: every event goes to the own code of the machine that declares it, however deep
in the tree it is and wherever it comes from. The -te loops discard an event if a machine on the way
to its owner is in a state that inhibits sub-machines.

The actions of a machine may return its `noEvent`, its own events, those of the machines below it,
and those of any machine numbered before it. An event numbered after the machine would stay in its
loop.

## Main definitions

* `Expected` — the events that a machine's loop can go on with, or end with.
* `TreeCode.Fits` — the own code returns such events only.
* `TreeCode.loopTree` — the tree as owners of events, with one loop over all of them.
* `OwnCode.plainLoop` — what the -tc and -te loops of a machine have in common.

## Main results

* `machineLoop_returns_iff` — a machine's loop does what its plain loop does.
* `exists_callMachine_iff_returns` — the call of the top-level machine's function returns exactly
  what the one loop does.
-/

namespace FsmLang

open CSemantics

variable {top : Machine} {s : EnumScope Enumerator} {B : top.Node → EventBounds} {W : Type*}

/-! ## Events -/

/-- An event that some machine declares; the others are one. -/
def knownEvent (s : EnumScope Enumerator) (v : ℤ) : Option ℤ := (eventOwner s v).map fun _ => v

/-- The machine's `noEvent`, an event of the machine or of one below it, or one that comes before
its own. -/
def Expected (s : EnumScope Enumerator) (B : top.Node → EventBounds) (n : top.Node) (v : ℤ) :
    Prop :=
  v = (B n).noEvent ∨ ∃ q, eventOwner s v = some q ∧ (n.path <+: q ∨ v < (B n).firstEvent)

/-- The events with which a machine's loop ends. -/
def Ended (s : EnumScope Enumerator) (B : top.Node → EventBounds) (n : top.Node) (v : ℤ) : Prop :=
  v = (B n).noEvent ∨
    ∃ q, eventOwner s v = some q ∧ ¬ n.path <+: q ∧ v < (B n).firstEvent

namespace TreeCode

/-- The own code returns events that the machine's loop expects. -/
def Fits (T : TreeCode top B W) (s : EnumScope Enumerator) : Prop :=
  ∀ n w v r, T.dispatch n w v = some r → Expected s B n r.2

/-- The machine is in a state that inhibits sub-machines. -/
def inhibits (T : TreeCode top B W) (n : top.Node) (w : W) : Bool :=
  (n.machine.stateList.get (T.state n w)).inhibitSubMachines

/-- The generator is -te; or it is -tc, and no machine is ever in a state that inhibits
sub-machines. -/
def Suited (T : TreeCode top B W) (g : Generator) : Prop :=
  g = .eventTable ∨ (g = .table ∧ ∀ n w, T.inhibits n w = false)

/-- The machines of the tree as the owners of events. -/
def loopTree (T : TreeCode top B W) (s : EnumScope Enumerator) : LoopTree W (Option ℤ) where
  owner e := e.bind (eventOwner s)
  handle p w e := (Machine.Node.at? top p).bind fun n => e.bind fun v =>
    (T.dispatch n w v).map fun r => (r.1, knownEvent s r.2)
  closed p w := (Machine.Node.at? top p).any (T.inhibits · w)
  quiet := none
  owner_quiet := rfl
  closed_handle := by
    intro p w e r q hr hq
    obtain ⟨n, hn, hr⟩ := Option.bind_eq_some_iff.mp hr
    obtain ⟨v, -, hr⟩ := Option.bind_eq_some_iff.mp hr
    obtain ⟨r', hr', rfl⟩ := Option.map_eq_some_iff.mp hr
    cases hq' : Machine.Node.at? top q with
    | none => rfl
    | some n' =>
      have hne : n' ≠ n := by
        rintro rfl
        exact hq ((Machine.Node.at?_eq_some_iff.mp hq').symm.trans
          (Machine.Node.at?_eq_some_iff.mp hn))
      simp only [Option.any_some, inhibits, T.state_dispatch n n' w v r' hr' hne]

end TreeCode

/-- An event that a machine owns is known. -/
lemma knownEvent_of_owner {v : ℤ} {p : List ℕ} (h : eventOwner s v = some p) :
    knownEvent s v = some v := by rw [knownEvent, h, Option.map_some]

/-- An event that no machine owns is not known. -/
lemma knownEvent_of_owner_eq_none {v : ℤ} (h : eventOwner s v = none) : knownEvent s v = none := by
  rw [knownEvent, h, Option.map_none]

/-- The owner of a known event is that of its value. -/
@[simp] lemma owner_knownEvent (T : TreeCode top B W) (v : ℤ) :
    (T.loopTree s).owner (knownEvent s v) = eventOwner s v := by
  cases h : eventOwner s v with
  | none => rw [knownEvent_of_owner_eq_none h]; rfl
  | some p => rw [knownEvent_of_owner h]; exact h

/-- What the tree does with an event is the dispatch of its owner. -/
lemma handle_knownEvent (T : TreeCode top B W) {n : top.Node} {w : W} {v : ℤ}
    (h : eventOwner s v = some n.path) : (T.loopTree s).handle n.path w (knownEvent s v) =
      (T.dispatch n w v).map fun r => (r.1, knownEvent s r.2) := by
  simp [TreeCode.loopTree, knownEvent_of_owner h]

/-- A machine is closed where its state inhibits its sub-machines. -/
lemma closed_path (T : TreeCode top B W) (n : top.Node) (w : W) :
    (T.loopTree s).closed n.path w = T.inhibits n w := by
  simp [TreeCode.loopTree]

/-! ## One machine's loop -/

section PlainLoop

variable {m : Machine} {b : EventBounds}

/-- The loop of a machine without the differences between -tc and -te: one own event, or one call
of a sub-machine, in each pass. -/
def OwnCode.plainLoop (C : OwnCode m b W) : WhileLoop (Frame W) (Frame W) where
  cond := fun f => f.e ≠ b.noEvent && b.firstEvent ≤ f.e
  body := fun f =>
    if b.isOwn f.e then C.callDispatch f
    else C.findAndRunUnlessInhibited f { f with e := b.noEvent }
  finish := some

/-- A plain loop extends that with fewer calls that return. -/
lemma OwnCode.Extends.plainLoop {C' C : OwnCode m b W} (hC : C'.Extends C) :
    C'.plainLoop.Extends C.plainLoop where
  cond := fun _ => rfl
  body := by
    intro f h hh
    simp only [OwnCode.plainLoop, hC.callDispatch] at hh ⊢
    split_ifs at hh ⊢
    · exact hh
    · exact hC.findAndRunUnlessInhibited hh
  finish := fun _ _ h => h

end PlainLoop

variable {n : top.Node} {v : ℤ}

/-- The cases of an expected event. -/
lemma Expected.cases (h : Expected s B n v) :
    Ended s B n v ∨ eventOwner s v = some n.path ∨
      ∃ k q, eventOwner s v = some (n.path ++ k :: q) := by
  rcases h with h | ⟨q, ho, h⟩
  · exact .inl (.inl h)
  · by_cases hpre : n.path <+: q
    · obtain ⟨r, rfl⟩ := hpre
      cases r with
      | nil => exact .inr (.inl (by simpa using ho))
      | cons k r => exact .inr (.inr ⟨k, r, ho⟩)
    · exact .inl (.inr ⟨q, ho, hpre, h.resolve_left hpre⟩)

/-- A machine expects the events of the machines below it. -/
lemma expected_of_owner {q : List ℕ} (h : eventOwner s v = some (n.path ++ q)) :
    Expected s B n v := .inr ⟨_, h, .inl (List.prefix_append n.path q)⟩

/-- A machine expects its `noEvent`. -/
lemma expected_noEvent : Expected s B n (B n).noEvent := .inl rfl

/-- A plain loop stops at an event that ends it. -/
lemma plain_cond_of_ended (C : OwnCode n.machine (B n) W) {f : Frame W} (h : Ended s B n f.e) :
    C.plainLoop.cond f = false := by
  rcases h with h | ⟨-, -, -, h⟩
  · simp [OwnCode.plainLoop, h]
  · simp only [OwnCode.plainLoop, Bool.and_eq_false_imp, decide_eq_false_iff_not]
    intro _
    omega

namespace TreeNumbers

variable (N : TreeNumbers s B)

include N

/-- An event of the machine lies in the range of its own events. -/
lemma isOwn_iff_of_own (h : eventOwner s v = some n.path) :
    (B n).firstEvent ≤ v ∧ v < (B n).noEvent := by
  simpa [EventBounds.isOwn] using N.own n v h

/-- An event of a machine below does not. -/
lemma isOwn_of_below {k : ℕ} {q : List ℕ} (h : eventOwner s v = some (n.path ++ k :: q)) :
    (B n).isOwn v = false := by
  have hlt := N.lt_below n k q v h
  simp only [EventBounds.isOwn, Bool.and_eq_false_imp, decide_eq_true_eq, decide_eq_false_iff_not]
  omega

/-- A plain loop goes on with an event of the machine. -/
lemma plain_cond_of_own (C : OwnCode n.machine (B n) W) {f : Frame W}
    (h : eventOwner s f.e = some n.path) : C.plainLoop.cond f = true := by
  have hown := N.isOwn_iff_of_own h
  simp only [OwnCode.plainLoop, Bool.and_eq_true, decide_eq_true_eq]
  omega

/-- A plain loop goes on with an event of a machine below. -/
lemma plain_cond_of_below (C : OwnCode n.machine (B n) W) {f : Frame W} {k : ℕ} {q : List ℕ}
    (h : eventOwner s f.e = some (n.path ++ k :: q)) : C.plainLoop.cond f = true := by
  have hlt := N.lt_below n k q f.e h
  have hle := N.firstEvent_le n
  simp only [OwnCode.plainLoop, Bool.and_eq_true, decide_eq_true_eq]
  omega

/-- An expected event that passes the test for the events of sub-machines is one of them. -/
private lemma exists_below_of_isBelow (h : Expected s B n v) (hbelow : (B n).isBelow v = true) :
    ∃ k q, eventOwner s v = some (n.path ++ k :: q) := by
  have hlt : (B n).noEvent < v := by
    unfold EventBounds.isBelow at hbelow
    cases hlast : (B n).lastEvent with
    | none => simp [hlast] at hbelow
    | some last =>
      simp only [hlast, Option.any_some, Bool.and_eq_true, decide_eq_true_eq] at hbelow
      exact hbelow.1
  have hle := N.firstEvent_le n
  rcases h.cases with (h | ⟨-, -, -, h⟩) | h | h
  · omega
  · omega
  · have hown := N.isOwn_iff_of_own h
    omega
  · exact h

/-! ### Passes of the plain loop -/

/-- One own event. -/
lemma plain_pass_of_own (C : OwnCode n.machine (B n) W) {f : Frame W}
    (h : eventOwner s f.e = some n.path) :
    C.plainLoop.pass f = (C.callDispatch f).elim .stuck .running := by
  rw [WhileLoop.pass_of_cond (N.plain_cond_of_own C h)]
  simp only [OwnCode.plainLoop]
  rw [if_pos (N.own n f.e h)]

/-- One event of a machine below. -/
lemma plain_pass_of_below (C : OwnCode n.machine (B n) W) {f : Frame W} {k : ℕ} {q : List ℕ}
    (h : eventOwner s f.e = some (n.path ++ k :: q)) :
    C.plainLoop.pass f =
      (C.findAndRunUnlessInhibited f { f with e := (B n).noEvent }).elim .stuck .running := by
  rw [WhileLoop.pass_of_cond (N.plain_cond_of_below C h)]
  simp only [OwnCode.plainLoop]
  rw [N.isOwn_of_below h]
  rfl

/-- The call of the sub-machine that the event is for. -/
private lemma findAndRun_of_below (C : OwnCode n.machine (B n) W) {f : Frame W} {k : ℕ} {q : List ℕ}
    (h : eventOwner s f.e = some (n.path ++ k :: q)) :
    C.findAndRun f.e f = (C.runSubMachine k f.world f.e).map fun r =>
      { world := r.1, e := r.2, delivered := f.delivered ++ [(k, f.e)] } := by
  rw [OwnCode.findAndRun, N.finds n k q f.e h, List.foldlM_cons]
  simp only [OwnCode.callSubMachine, List.foldlM_nil]
  cases C.runSubMachine k f.world f.e <;> rfl

/-! ### The loops of -tc and -te -/

/-- A machine above another has sub-machines. -/
lemma isEmpty_of_below {k : ℕ} {q : List ℕ} (h : eventOwner s v = some (n.path ++ k :: q)) :
    n.machine.machineList.isEmpty = false := by
  obtain ⟨c, hc⟩ := N.exists_child n k q v h
  have hlist := Machine.Node.machineList_of_child? hc
  cases hms : n.machine.machineList with
  | nil => simp [hms] at hlist
  | cons m ms => rfl

/-- An expected event with which the loop does not end is not before the machine's own events. -/
private lemma firstEvent_le_of_owner {q : List ℕ} (h : eventOwner s v = some (n.path ++ q)) :
    (B n).firstEvent ≤ v ∧ v ≠ (B n).noEvent := by
  cases q with
  | nil =>
    have hown := N.isOwn_iff_of_own (n := n) (by simpa using h)
    omega
  | cons k q =>
    have hlt := N.lt_below n k q v h
    have hle := N.firstEvent_le n
    omega

variable {C : OwnCode n.machine (B n) W} {f : Frame W}

omit N in
/-- The top-level machine's loop ends with `noEvent` only. -/
lemma eq_noEvent_of_ended (hpath : n.path = []) (h : Ended s B n v) : v = (B n).noEvent := by
  rcases h with h | ⟨q, -, hpre, -⟩
  · exact h
  · rw [hpath] at hpre
    exact absurd List.nil_prefix hpre

/-- The loop of the top-level machine. -/
private lemma topLoop_pass (hret : n.machine.actionsReturn = .events) (hpath : n.path = [])
    {g : Generator}
    (hg : g = .eventTable ∨ (g = .table ∧ ∀ w, C.doNotInhibitSubMachines w = true))
    (hf : Expected s B n f.e) : (C.topLoop g).pass f = C.plainLoop.pass f := by
  have hinnards : C.topInnards g f = C.callDispatch f := by
    rcases hg with rfl | ⟨rfl, -⟩ <;> rfl
  have hfind : C.findAndRunUnlessInhibited f (if g = .table then f
      else { f with e := (B n).noEvent }) =
        C.findAndRunUnlessInhibited f { f with e := (B n).noEvent } := by
    rcases hg with rfl | ⟨rfl, hopen⟩
    · rfl
    · simp only [OwnCode.findAndRunUnlessInhibited, hopen, if_true]
  rcases hf.cases with h | h | ⟨k, q, h⟩
  · have hno := eq_noEvent_of_ended hpath h
    rw [WhileLoop.pass_of_not_cond (plain_cond_of_ended C h),
      WhileLoop.pass_of_not_cond (by simp [OwnCode.topLoop, hret, hno])]
    simp [OwnCode.topLoop, hret, OwnCode.plainLoop]
  · have hown := N.isOwn_iff_of_own h
    rw [N.plain_pass_of_own C h,
      WhileLoop.pass_of_cond (by simp only [OwnCode.topLoop, hret, decide_eq_true_eq]; omega)]
    simp only [OwnCode.topLoop, hret, hinnards]
    rw [if_pos (by simp [hown.2])]
  · have hlt := N.lt_below n k q f.e h
    rw [N.plain_pass_of_below C h,
      WhileLoop.pass_of_cond (by simp only [OwnCode.topLoop, hret, decide_eq_true_eq]; omega)]
    simp only [OwnCode.topLoop, hret]
    rw [if_neg (by simp [N.isEmpty_of_below h, hlt.le]), hfind]

/-- The -tc loop of a sub-machine. -/
private lemma tableSubLoop_pass (hopen : ∀ w, C.doNotInhibitSubMachines w = true)
    (hf : Expected s B n f.e) : C.tableSubLoop.pass f = C.plainLoop.pass f := by
  have hcond : C.tableSubLoop.cond f = C.plainLoop.cond f := rfl
  rcases hf.cases with h | h | ⟨k, q, h⟩
  · have hplain := plain_cond_of_ended C h
    rw [WhileLoop.pass_of_not_cond hplain, WhileLoop.pass_of_not_cond (hcond.trans hplain)]
    rfl
  · have hown := N.isOwn_iff_of_own h
    rw [N.plain_pass_of_own C h,
      WhileLoop.pass_of_cond (hcond.trans (N.plain_cond_of_own C h))]
    simp only [OwnCode.tableSubLoop]
    rw [if_pos (by simp [hown.2])]
    rfl
  · have hlt := N.lt_below n k q f.e h
    rw [N.plain_pass_of_below C h,
      WhileLoop.pass_of_cond (hcond.trans (N.plain_cond_of_below C h))]
    simp only [OwnCode.tableSubLoop]
    rw [if_neg (by simp [N.isEmpty_of_below h, hlt.le])]
    simp only [OwnCode.findAndRunUnlessInhibited, hopen, if_true]

/-- The condition of the -te loop of a sub-machine. -/
lemma switchSubLoop_cond (hpath : n.path ≠ []) {g : Generator} (hf : Expected s B n f.e) :
    (C.switchSubLoop g).cond f = C.plainLoop.cond f := by
  rcases hf.cases with h | h | ⟨k, q, h⟩
  · have hplain := plain_cond_of_ended C h
    rw [hplain]
    simp only [OwnCode.plainLoop] at hplain
    simp only [OwnCode.switchSubLoop, hplain, Bool.false_and]
  · have hplain := N.plain_cond_of_own C h
    rw [hplain]
    simp only [OwnCode.plainLoop] at hplain
    simp only [OwnCode.switchSubLoop, hplain, Bool.true_and]
    exact N.lt_lastEvent n f.e hpath (N.own n f.e h)
  · have hplain := N.plain_cond_of_below C h
    have hbelow := N.isBelow n k q f.e hpath h
    rw [hplain]
    simp only [OwnCode.plainLoop] at hplain
    simp only [OwnCode.switchSubLoop, hplain, Bool.true_and]
    unfold EventBounds.isBelow at hbelow
    cases hlast : (B n).lastEvent with
    | none => rfl
    | some last =>
      simp only [hlast, Option.any_some, Bool.and_eq_true, decide_eq_true_eq] at hbelow
      simp [hbelow.2]

/-- The -te loop of a sub-machine: when the own code has returned an event of a machine below, that
machine is called in the same pass. -/
private lemma exists_after_eq_switchSubLoop_pass (hpath : n.path ≠ [])
    (hfits : ∀ w v r, C.dispatch w v = some r → Expected s B n r.2) (hf : Expected s B n f.e) :
    ∃ j, C.plainLoop.after (j + 1) (.running f) = (C.switchSubLoop .eventTable).pass f := by
  have hcond := N.switchSubLoop_cond (C := C) (g := .eventTable) hpath hf
  rcases hf.cases with h | h | ⟨k, q, h⟩
  · have hplain := plain_cond_of_ended C h
    refine ⟨0, ?_⟩
    rw [WhileLoop.after_succ, WhileLoop.after_zero, WhileLoop.advance_running,
      WhileLoop.pass_of_not_cond hplain, WhileLoop.pass_of_not_cond (hcond.trans hplain)]
    rfl
  · rw [WhileLoop.pass_of_cond (hcond.trans (N.plain_cond_of_own C h))]
    have hpass := N.plain_pass_of_own C h
    simp only [OwnCode.switchSubLoop, OwnCode.subInnards]
    rw [if_pos (N.own n f.e h)]
    cases hd : C.callDispatch f with
    | none =>
      refine ⟨0, ?_⟩
      rw [WhileLoop.after_succ, WhileLoop.after_zero, WhileLoop.advance_running, hpass, hd]
      rfl
    | some f' =>
      rw [hd, Option.elim_some] at hpass
      rw [Option.bind_some]
      obtain ⟨r, hr, rfl⟩ := Option.map_eq_some_iff.mp hd
      by_cases hbelow : (B n).isBelow r.2 = true
      · obtain ⟨k, q, hq⟩ := N.exists_below_of_isBelow (hfits _ _ r hr) hbelow
        refine ⟨1, ?_⟩
        rw [if_pos hbelow, WhileLoop.after_succ, WhileLoop.advance_running, hpass,
          WhileLoop.after_succ, WhileLoop.after_zero, WhileLoop.advance_running]
        exact N.plain_pass_of_below C hq
      · refine ⟨0, ?_⟩
        rw [if_neg hbelow, WhileLoop.after_succ, WhileLoop.after_zero, WhileLoop.advance_running,
          hpass]
        rfl
  · refine ⟨0, ?_⟩
    rw [WhileLoop.after_succ, WhileLoop.after_zero, WhileLoop.advance_running,
      N.plain_pass_of_below C h, WhileLoop.pass_of_cond (hcond.trans (N.plain_cond_of_below C h))]
    simp only [OwnCode.switchSubLoop, OwnCode.subInnards]
    rw [N.isOwn_of_below h, if_neg (by simp), Option.bind_some, if_pos (N.isBelow n k q f.e hpath h)]

/-- One pass of a machine's loop is one pass of its plain loop, or two. -/
private lemma exists_after_eq_machineLoop_pass (hret : n.machine.actionsReturn = .events)
    {g : Generator}
    (hg : g = .eventTable ∨ (g = .table ∧ ∀ w, C.doNotInhibitSubMachines w = true))
    (hfits : ∀ w v r, C.dispatch w v = some r → Expected s B n r.2) (event : ℤ)
    (hf : Expected s B n f.e) :
    ∃ j, C.plainLoop.after (j + 1) (.running f) = (C.machineLoop n.path g event).pass f := by
  by_cases hpath : n.path = []
  · refine ⟨0, ?_⟩
    rw [OwnCode.machineLoop, if_pos hpath, N.topLoop_pass hret hpath hg hf]
    rfl
  · rcases hg with rfl | ⟨rfl, hopen⟩
    · rw [machineLoop_eq_switchSubLoop C hpath hret (.inr rfl)]
      exact N.exists_after_eq_switchSubLoop_pass hpath hfits hf
    · refine ⟨0, ?_⟩
      have hloop : C.machineLoop n.path .table event = C.tableSubLoop := by
        rw [OwnCode.machineLoop, if_neg hpath]
        simp only [OwnCode.subLoop, hret]
      rw [hloop, N.tableSubLoop_pass hopen hf]
      rfl

/-- A machine's function is called with an event of the machine or of one below it, so that its
loop starts with a pass of the body, whichever way it is written. -/
private lemma start_returns_iff (hret : n.machine.actionsReturn = .events) {g : Generator}
    (hg : g = .eventTable ∨ (g = .table ∧ ∀ w, C.doNotInhibitSubMachines w = true)) (event : ℤ)
    (hf : n.path = [] ∨ ∃ q, eventOwner s f.e = some (n.path ++ q)) (h : Frame W) :
    (C.machineLoop n.path g event).Returns (C.start n.path g f) h ↔
      (C.machineLoop n.path g event).Returns (.running f) h := by
  unfold OwnCode.start
  split_ifs with hpath
  · rfl
  · unfold OwnCode.subStart
    split_ifs with hart
    · obtain rfl : g = .eventTable := by
        rcases hg with hg | ⟨rfl, -⟩
        · exact hg
        · simp at hart
      obtain ⟨q, hq⟩ := hf.resolve_left hpath
      have hcond : (C.switchSubLoop .eventTable).cond f = true := by
        have hle := N.firstEvent_le_of_owner hq
        rw [N.switchSubLoop_cond hpath (expected_of_owner hq)]
        simp only [OwnCode.plainLoop, Bool.and_eq_true, decide_eq_true_eq]
        exact ⟨hle.2, hle.1⟩
      rw [machineLoop_eq_switchSubLoop C hpath hret (.inr rfl), WhileLoop.returns_iff_pass _ f,
        WhileLoop.pass_of_cond hcond]
    · rfl

end TreeNumbers

/-! ## Calls -/

namespace TreeCode

variable {T : TreeCode top B W}

/-- Sub-machines that are called with their events return events that the caller expects. -/
def RunFits (T : TreeCode top B W) (s : EnumScope Enumerator)
    (run : (c : top.Node) → {f // T.KeepsOthers c f}) : Prop :=
  ∀ (n : top.Node) k c q w v r, n.child? k = some c → eventOwner s v = some (c.path ++ q) →
    (run c).1 w v = some r → Expected s B n r.2

/-- Sub-machines are run unless the state inhibits them. -/
@[simp] lemma doNotInhibitSubMachines_ownCode {n : top.Node}
    {run : (c : top.Node) → {f // T.KeepsOthers c f}} {w : W} :
    (T.ownCode n run).doNotInhibitSubMachines w = !T.inhibits n w := rfl

/-- The code of a machine of a suited tree is suited. -/
lemma Suited.ownCode {g : Generator} (hg : T.Suited g) (n : top.Node)
    (run : (c : top.Node) → {f // T.KeepsOthers c f}) : g = .eventTable ∨
      (g = .table ∧ ∀ w, (T.ownCode n run).doNotInhibitSubMachines w = true) := by
  rcases hg with hg | ⟨hg, hopen⟩
  · exact .inl hg
  · exact .inr ⟨hg, fun w => by simp [hopen n w]⟩

variable (N : TreeNumbers s B) (hT : T.Fits s) {run : (c : top.Node) → {f // T.KeepsOthers c f}}
  {n : top.Node}

include N

/-- The sub-machine that an event is for. -/
lemma exists_child_owner {k : ℕ} {q : List ℕ} {v : ℤ}
    (h : eventOwner s v = some (n.path ++ k :: q)) :
    ∃ c, n.child? k = some c ∧ c.path = n.path ++ [k] ∧ eventOwner s v = some (c.path ++ q) := by
  obtain ⟨c, hc⟩ := N.exists_child n k q v h
  have hpath := Machine.Node.path_of_child? hc
  refine ⟨c, hc, hpath, ?_⟩
  rw [h, hpath, List.append_assoc, List.singleton_append]

/-- What a call of a sub-machine leaves behind in the caller's loop. -/
lemma findAndRun_ownCode {f : Frame W} {k : ℕ} {q : List ℕ} {c : top.Node}
    (h : eventOwner s f.e = some (n.path ++ k :: q)) (hc : n.child? k = some c) :
    (T.ownCode n run).findAndRun f.e f = ((run c).1 f.world f.e).map fun r =>
      { world := r.1, e := r.2, delivered := f.delivered ++ [(k, f.e)] } := by
  rw [N.findAndRun_of_below _ h]
  simp only [ownCode, hc, Option.bind_some]

include hT

/-- The plain loop goes on with events that it expects. -/
private lemma expected_of_plain_body (hrun : T.RunFits s run) {f h : Frame W}
    (hf : Expected s B n f.e)
    (hcond : (T.ownCode n run).plainLoop.cond f = true)
    (hh : (T.ownCode n run).plainLoop.body f = some h) : Expected s B n h.e := by
  simp only [OwnCode.plainLoop] at hh
  rcases hf.cases with hend | hown | ⟨k, q, hbelow⟩
  · rw [plain_cond_of_ended _ hend] at hcond
    cases hcond
  · rw [if_pos (N.own n f.e hown)] at hh
    obtain ⟨r, hr, rfl⟩ := Option.map_eq_some_iff.mp hh
    exact hT n f.world f.e r hr
  · rw [N.isOwn_of_below hbelow, if_neg (by simp), OwnCode.findAndRunUnlessInhibited] at hh
    split_ifs at hh
    · obtain ⟨c, hc, -, hq⟩ := exists_child_owner N hbelow
      rw [findAndRun_ownCode N hbelow hc] at hh
      obtain ⟨r, hr, rfl⟩ := Option.map_eq_some_iff.mp hh
      exact hrun n k c q f.world f.e r hc hq hr
    · obtain rfl := Option.some.inj hh
      exact expected_noEvent

/-- **A machine's loop** does what its plain loop does. -/
lemma machineLoop_returns_iff (hrun : T.RunFits s run) (hret : n.machine.actionsReturn = .events)
    {g : Generator} (hg : g = .eventTable ∨
      (g = .table ∧ ∀ w, (T.ownCode n run).doNotInhibitSubMachines w = true)) (event : ℤ)
    {f : Frame W} (hf : Expected s B n f.e)
    (hstart : n.path = [] ∨ ∃ q, eventOwner s f.e = some (n.path ++ q)) (h : Frame W) :
    ((T.ownCode n run).machineLoop n.path g event).Returns ((T.ownCode n run).start n.path g f) h ↔
      (T.ownCode n run).plainLoop.Returns (.running f) h := by
  rw [N.start_returns_iff hret hg event hstart]
  exact WhileLoop.returns_iff_of_invariant (I := fun f => Expected s B n f.e)
    (fun f h hf hcond hh => expected_of_plain_body N hT hrun hf hcond hh)
    (fun f hf => N.exists_after_eq_machineLoop_pass hret hg (hT n) event hf) hf h

omit N hT in
/-- A plain loop that ends at once. -/
lemma eq_of_plain_after_of_ended {C : OwnCode n.machine (B n) W} {f h : Frame W}
    (hf : Ended s B n f.e) {j : ℕ} (hj : C.plainLoop.after j (.running f) = .returned h) :
    h = f := by
  cases j with
  | zero => cases hj
  | succ j =>
    rw [WhileLoop.after_succ, WhileLoop.advance_running,
      WhileLoop.pass_of_not_cond (plain_cond_of_ended C hf)] at hj
    simp only [OwnCode.plainLoop, Option.elim_some, WhileLoop.after_returned] at hj
    exact (Outcome.returned.inj hj).symm

omit hT in
/-- The loop of the tree ends with the same events. -/
private lemma owner_ne_of_ended {v : ℤ} (h : Ended s B n v) (q : List ℕ) :
    (T.loopTree s).owner (knownEvent s v) ≠ some (n.path ++ q) := by
  rw [owner_knownEvent]
  intro ho
  rcases h with rfl | ⟨p, hp, hpre, -⟩
  · rw [N.noEvent n] at ho
    cases ho
  · obtain rfl := Option.some.inj (hp.symm.trans ho)
    exact hpre (List.prefix_append n.path q)

/-- **From the loops to the tree.** What a machine's plain loop returns is a run in the tree, if the
calls of its sub-machines are. -/
lemma runs_of_plain_after (hfits : T.RunFits s run)
    (hruns : ∀ (n : top.Node) k c q w v r, n.child? k = some c →
      eventOwner s v = some (c.path ++ q) → (run c).1 w v = some r →
      (T.loopTree s).Runs c.path w (knownEvent s v) r.1 (knownEvent s r.2))
    {j : ℕ} {f h : Frame W} (hf : Expected s B n f.e)
    (hj : (T.ownCode n run).plainLoop.after j (.running f) = .returned h) :
    (T.loopTree s).Runs n.path f.world (knownEvent s f.e) h.world (knownEvent s h.e) ∧
      Ended s B n h.e := by
  induction j generalizing f with
  | zero => cases hj
  | succ j ih =>
    rcases hf.cases with hend | hown | ⟨k, q, hbelow⟩
    · obtain rfl := eq_of_plain_after_of_ended hend hj
      exact ⟨.leave (owner_ne_of_ended N hend), hend⟩
    · rw [WhileLoop.after_succ, WhileLoop.advance_running, N.plain_pass_of_own _ hown] at hj
      cases hd : (T.ownCode n run).callDispatch f with
      | none => simp [hd] at hj
      | some f' =>
        rw [hd, Option.elim_some] at hj
        obtain ⟨r, hr, rfl⟩ := Option.map_eq_some_iff.mp hd
        obtain ⟨hrun, hend⟩ := ih (hT n f.world f.e r hr) hj
        refine ⟨.handle ((owner_knownEvent T f.e).trans hown) ?_ hrun, hend⟩
        rw [handle_knownEvent T hown, show T.dispatch n f.world f.e = some r from hr,
          Option.map_some]
    · rw [WhileLoop.after_succ, WhileLoop.advance_running, N.plain_pass_of_below _ hbelow,
        OwnCode.findAndRunUnlessInhibited] at hj
      have howner := (owner_knownEvent T f.e).trans hbelow
      by_cases hopen : (T.ownCode n run).doNotInhibitSubMachines f.world = true
      · obtain ⟨c, hc, hpath, hq⟩ := exists_child_owner N hbelow
        rw [if_pos hopen, findAndRun_ownCode N hbelow hc] at hj
        cases hcall : (run c).1 f.world f.e with
        | none => simp [hcall] at hj
        | some r =>
          rw [hcall, Option.map_some, Option.elim_some] at hj
          obtain ⟨hrun, hend⟩ := ih (hfits n k c q f.world f.e r hc hq hcall) hj
          have hin := hruns n k c q f.world f.e r hc hq hcall
          rw [hpath] at hin
          refine ⟨.pass howner ?_ hin hrun, hend⟩
          rw [closed_path]
          simpa using hopen
      · rw [if_neg hopen, Option.elim_some] at hj
        have hend : Ended s B n (B n).noEvent := .inl rfl
        obtain rfl := eq_of_plain_after_of_ended (f := { f with e := (B n).noEvent }) hend hj
        refine ⟨?_, hend⟩
        rw [knownEvent_of_owner_eq_none (N.noEvent n)]
        refine .discard howner ?_
        rw [closed_path]
        simpa using hopen

omit hT in
/-- What the function of a sub-machine returns to its caller. -/
lemma expected_of_result {k : ℕ} {c : top.Node} (hc : n.child? k = some c) {f : Frame W}
    (hf : Ended s B c f.e) : ∃ v, result B c (.returned f) = some (f.world, v) ∧
      Expected s B n v ∧ knownEvent s v = knownEvent s f.e := by
  have hpath : c.path ≠ [] := by simp [Machine.Node.path_of_child? hc]
  have hparent := N.parentNoEvent n k c hc
  simp only [result, if_neg hpath, EventBounds.returnEvent]
  split_ifs with he
  · refine ⟨(B n).noEvent, by rw [hparent, Option.map_some], expected_noEvent, ?_⟩
    rw [he, knownEvent_of_owner_eq_none (N.noEvent n), knownEvent_of_owner_eq_none (N.noEvent c)]
  · obtain ⟨q, ho, -, hlt⟩ := hf.resolve_left he
    exact ⟨f.e, rfl, .inr ⟨q, ho, N.before n k c q f.e hc ho hlt⟩, rfl⟩

/-- A call is a run in the tree. -/
lemma runs_of_callMachine {g : Generator} (hg : T.Suited g)
    (hret : ∀ n : top.Node, n.machine.actionsReturn = .events) (k : ℕ) :
    (∀ (n : top.Node) w v r, Expected s B n v →
      (n.path = [] ∨ ∃ q, eventOwner s v = some (n.path ++ q)) →
      (T.callMachine g k n).1 w v = some r → ∃ f, Ended s B n f.e ∧
        result B n (.returned f) = some r ∧
        (T.loopTree s).Runs n.path w (knownEvent s v) f.world (knownEvent s f.e)) := by
  induction k with
  | zero => exact fun n w v r _ _ hr => nomatch (show none = some r from hr)
  | succ k ih =>
    intro n w v r hv hstart hr
    have hchild : ∀ (n : top.Node) k' c q w v r, n.child? k' = some c →
        eventOwner s v = some (c.path ++ q) → (T.callMachine g k c).1 w v = some r →
        Expected s B n r.2 ∧
          (T.loopTree s).Runs c.path w (knownEvent s v) r.1 (knownEvent s r.2) := by
      intro n k' c q w v r hc hq hr
      obtain ⟨f, hend, hres, hrun⟩ := ih c w v r (expected_of_owner hq) (.inr ⟨q, hq⟩) hr
      obtain ⟨v', hv', hexp, hknown⟩ := expected_of_result N hc hend
      obtain rfl := Option.some.inj (hv'.symm.trans hres)
      exact ⟨hexp, hknown ▸ hrun⟩
    have hfits : T.RunFits s (T.callMachine g k) :=
      fun n k' c q w v r hc hq hr => (hchild n k' c q w v r hc hq hr).1
    obtain ⟨f, hf, hres⟩ := runMachine_eq_some_iff.mp hr
    obtain ⟨j, hj⟩ := (machineLoop_returns_iff N hT hfits (hret n) (hg.ownCode n _) v
      (f := ⟨w, v, []⟩) hv hstart f).mp ⟨k + 1, hf⟩
    obtain ⟨hrun, hend⟩ := runs_of_plain_after N hT hfits
      (fun n k' c q w v r hc hq hr => (hchild n k' c q w v r hc hq hr).2) (f := ⟨w, v, []⟩) hv hj
    exact ⟨f, hend, hres, hrun⟩

/-- The sub-machines return events that their callers expect. -/
lemma runFits_callMachine {g : Generator} (hg : T.Suited g)
    (hret : ∀ n : top.Node, n.machine.actionsReturn = .events) (k : ℕ) :
    T.RunFits s (T.callMachine g k) := by
  intro n k' c q w v r hc hq hr
  obtain ⟨f, hend, hres, -⟩ :=
    runs_of_callMachine N hT hg hret k c w v r (expected_of_owner hq) (.inr ⟨q, hq⟩) hr
  obtain ⟨v', hv', hexp, -⟩ := expected_of_result N hc hend
  obtain rfl := Option.some.inj (hv'.symm.trans hres)
  exact hexp

/-- **From the tree to the loops.** A run in the tree is returned by the plain loop of its machine,
with large enough bounds on the calls of sub-machines. -/
lemma exists_returns_of_runs {g : Generator} (hg : T.Suited g)
    (hret : ∀ n : top.Node, n.machine.actionsReturn = .events) {p : List ℕ} {w w' : W}
    {e e' : Option ℤ} (hrun : (T.loopTree s).Runs p w e w' e') :
    ∀ (n : top.Node) (v : ℤ) (d : List (ℕ × ℤ)), n.path = p → Expected s B n v →
      knownEvent s v = e → ∃ k f,
        (T.ownCode n (T.callMachine g k)).plainLoop.Returns (.running ⟨w, v, d⟩) f ∧
          f.world = w' ∧ knownEvent s f.e = e' ∧ Ended s B n f.e := by
  induction hrun with
  | @leave p w e ho =>
    rintro n v d rfl hv rfl
    simp only [owner_knownEvent] at ho
    have hend : Ended s B n v := by
      rcases hv.cases with h | h | ⟨k, q, h⟩
      · exact h
      · exact absurd h (by simpa using ho [])
      · exact absurd h (ho (k :: q))
    exact ⟨0, ⟨w, v, d⟩, WhileLoop.returns_of_not_cond
      (plain_cond_of_ended (f := ⟨w, v, d⟩) _ hend) rfl, rfl, rfl, hend⟩
  | @handle p w w₁ w' e e₁ e' ho hh _ ih =>
    rintro n v d rfl hv rfl
    rw [owner_knownEvent] at ho
    rw [handle_knownEvent T ho] at hh
    obtain ⟨r, hr, hre⟩ := Option.map_eq_some_iff.mp hh
    obtain ⟨rfl, hknown⟩ := Prod.mk.inj hre
    obtain ⟨k, f, hf, hrest⟩ := ih n r.2 d rfl (hT n w v r hr) hknown
    refine ⟨k, f, WhileLoop.returns_of_pass ?_ hf, hrest⟩
    rw [N.plain_pass_of_own (f := ⟨w, v, d⟩) _ ho]
    simp only [OwnCode.callDispatch, ownCode, hr, Option.map_some, Option.elim_some]
  | @discard p q k w e ho hc =>
    rintro n v d rfl hv rfl
    rw [owner_knownEvent] at ho
    rw [closed_path] at hc
    have hend : Ended s B n (B n).noEvent := .inl rfl
    refine ⟨0, ⟨w, (B n).noEvent, d⟩, WhileLoop.returns_of_pass ?_
      (WhileLoop.returns_of_not_cond (plain_cond_of_ended (f := ⟨w, (B n).noEvent, d⟩) _ hend) rfl),
      rfl, knownEvent_of_owner_eq_none (N.noEvent n), hend⟩
    rw [N.plain_pass_of_below (f := ⟨w, v, d⟩) _ ho, OwnCode.findAndRunUnlessInhibited,
      if_neg (by simp [hc]), Option.elim_some]
  | @pass p q k w w₁ w' e e₁ e' ho hc _ _ ih₁ ih₂ =>
    rintro n v d rfl hv rfl
    rw [owner_knownEvent] at ho
    rw [closed_path] at hc
    obtain ⟨c, hchild, hpath, hq⟩ := exists_child_owner N ho
    -- the sub-machine's function returns
    obtain ⟨k₁, f₁, hf₁, rfl, rfl, hend₁⟩ := ih₁ c v [] hpath (expected_of_owner hq) rfl
    obtain ⟨v₁, hres, hexp, hknown⟩ := expected_of_result N hchild hend₁
    obtain ⟨k₂, hk₂⟩ := exists_callMachine_of_returns ((machineLoop_returns_iff N hT
      (runFits_callMachine N hT hg hret k₁) (hret c) (hg.ownCode c _) v (expected_of_owner hq)
      (.inr ⟨q, hq⟩) f₁).mpr hf₁) hres
    -- and the machine's loop goes on
    obtain ⟨k₃, f, hf, hrest⟩ := ih₂ n v₁ (d ++ [(k, v)]) rfl hexp hknown
    have hext := (T.ownCode_extends_of_le g (Nat.le_max_right k₂ k₃) n).plainLoop
    refine ⟨max k₂ k₃, f, WhileLoop.returns_of_pass ?_ (hext.returns hf), hrest⟩
    rw [N.plain_pass_of_below (f := ⟨w, v, d⟩) _ ho, OwnCode.findAndRunUnlessInhibited,
      if_pos (by simp [hc]), findAndRun_ownCode N (f := ⟨w, v, d⟩) ho hchild,
      callMachine_mono (Nat.le_max_left k₂ k₃) c hk₂, Option.map_some, Option.elim_some]

/-- The call of the top-level machine's function, as a run in the tree. -/
lemma exists_callMachine_iff {g : Generator} (hg : T.Suited g)
    (hret : ∀ n : top.Node, n.machine.actionsReturn = .events) {w w' : W} {v : ℤ}
    (hv : Expected s B (.root top) v) :
    (∃ k, (T.callMachine g k (.root top)).1 w v = some (w', (B (.root top)).noEvent)) ↔
      ∃ e', (T.loopTree s).Runs [] w (knownEvent s v) w' e' := by
  constructor
  · rintro ⟨k, hk⟩
    obtain ⟨f, -, hres, hrun⟩ :=
      runs_of_callMachine N hT hg hret k (.root top) w v _ hv (.inl rfl) hk
    simp only [result, Machine.Node.path_root, if_true, Option.map_some, Option.some.injEq,
      Prod.mk.injEq] at hres
    obtain ⟨rfl, -⟩ := hres
    exact ⟨_, hrun⟩
  · rintro ⟨e', hrun⟩
    obtain ⟨k, f, hf, rfl, -, hend⟩ :=
      exists_returns_of_runs N hT hg hret hrun (.root top) v [] rfl hv rfl
    have hloop := (machineLoop_returns_iff N hT (runFits_callMachine N hT hg hret k)
      (hret (.root top)) (hg.ownCode (.root top) _) v hv (.inl rfl) f).mpr hf
    refine exists_callMachine_of_returns hloop ?_
    simp only [result, Machine.Node.path_root, if_true, Option.map_some]
    rw [TreeNumbers.eq_noEvent_of_ended (n := .root top) rfl hend]

end TreeCode

/-- **A tree of machines is one machine.** Take an accepted tree without external designations
whose actions return events and in which every machine below the top resumes, any own code that
fits the numbers of the events, and an event of any machine of the tree. A -te machine, or a -tc
machine none of whose states inhibits sub-machines, returns from the call of the top-level machine's
function in the world in which the one loop over all machines ends, and only if that loop ends.

**Proof sketch.** In each machine the -tc and -te loops do, on the events they can have, what the
plain loop does; a pass of that loop is one own event or one call of a sub-machine. Calls of
sub-machines are nested runs in the tree, by induction on the bound of the calls, and nested runs
are calls, by induction on the run. Nested loops are one loop. -/
theorem exists_callMachine_iff_returns (compactActionArray : Bool) (designated : String → ℤ)
    {top : Machine} (htop : top.Accepted) (hext : externalEventDesignationCount top = 0)
    (hret : ∀ n : top.Node, n.machine.actionsReturn = .events)
    (hres : ∀ n : top.Node, n.path ≠ [] → n.machine.Resumes) :
    ∃ s, ∃ B : top.Node → EventBounds, eventEnum compactActionArray designated top = some s ∧
      (∀ n : top.Node, eventBounds s n.path n.machine = some (B n)) ∧
      ∀ (W : Type) (T : TreeCode top B W) (g : Generator), T.Suited g → T.Fits s →
        ∀ (v : ℤ), (eventOwner s v).isSome → ∀ w w',
          (∃ k, (T.callMachine g k (.root top)).1 w v = some (w', (B (.root top)).noEvent)) ↔
            (T.loopTree s).flat.Returns (.running (w, some v)) w' := by
  obtain ⟨own, b, last, -, hs⟩ := exists_eventEnum compactActionArray designated htop
  choose B hB using fun n : top.Node => exists_eventBounds htop hs n.sub?_path
  refine ⟨_, B, hs, hB, ?_⟩
  intro W T g hg hT v hv w w'
  have N := treeNumbers htop hext hs hres hB hret
  obtain ⟨q, hq⟩ := Option.isSome_iff_exists.mp hv
  have hexp : Expected _ B (.root top) v := .inr ⟨q, hq, .inl List.nil_prefix⟩
  rw [TreeCode.exists_callMachine_iff N hT hg hret hexp, knownEvent_of_owner hq]
  exact LoopTree.exists_runs_iff_returns w (some v) w'

/-- A machine with one sub-machine. -/
def callingMachine : Machine := plainMachine "top" "e" "s" [plainMachine "M" "em" "sm" []]

/-- Its machines. -/
lemma callingMachine_node (n : callingMachine.Node) :
    (n.path = [] ∧ n.machine = callingMachine) ∨
      (n.path = [0] ∧ n.machine = plainMachine "M" "em" "sm" []) := by
  have hsub := n.sub?_path
  generalize n.machine = m at hsub ⊢
  match hp : n.path, hsub with
  | [], hsub => exact .inl ⟨rfl, (Option.some.inj hsub).symm⟩
  | [0], hsub => exact .inr ⟨rfl, (Option.some.inj hsub).symm⟩
  | 0 :: _ :: _, hsub => cases hsub
  | (_ + 1) :: _, hsub => cases hsub

/-- The machine's own code returns the sub-machine's event, which has the value three; the world is
the list of the events that have been handled. -/
def callingCode (B : callingMachine.Node → EventBounds) :
    TreeCode callingMachine B (List (List ℕ × ℤ)) where
  state := fun n _ => ⟨0, by
    rcases callingMachine_node n with h | h <;> rw [h.2] <;> decide⟩
  dispatch := fun n w v => some (w ++ [(n.path, v)], if n.path = [] then 3 else (B n).noEvent)
  handleInAllStates := fun _ w v => (w, some v)
  handleInAllStates_foreign := fun _ _ _ _ _ => rfl
  state_dispatch := fun _ _ _ _ _ _ _ => rfl
  state_handleInAllStates := fun _ _ _ _ _ => rfl

/-- The sub-machine. -/
def callingSub : callingMachine.Node := ⟨[0], rfl⟩

/-- The one loop hands the event that the top-level machine's own code returns to the sub-machine,
and ends with the event that the sub-machine's own code returns, which no machine owns. -/
lemma returns_callingMachine {s : EnumScope Enumerator} {B : callingMachine.Node → EventBounds}
    {T : TreeCode callingMachine B W} {w w₁ w₂ : W} {v : ℤ} (hzero : eventOwner s 0 = some [])
    (hthree : eventOwner s 3 = some [0]) (hv : eventOwner s v = none)
    (htop : T.dispatch (.root callingMachine) w 0 = some (w₁, 3))
    (hopen : T.inhibits (.root callingMachine) w₁ = false)
    (hsub : T.dispatch callingSub w₁ 3 = some (w₂, v)) :
    (T.loopTree s).flat.Returns (.running (w, some 0)) w₂ := by
  have hhandle₁ : (T.loopTree s).handle [] w (knownEvent s 0) = some (w₁, knownEvent s 3) :=
    (handle_knownEvent T (n := .root callingMachine) hzero).trans (by rw [htop, Option.map_some])
  have hhandle₂ : (T.loopTree s).handle [0] w₁ (knownEvent s 3) = some (w₂, knownEvent s v) :=
    (handle_knownEvent T (n := callingSub) hthree).trans (by rw [hsub, Option.map_some])
  have hclosed : (T.loopTree s).closed [] w₁ = false :=
    (closed_path T (.root callingMachine) w₁).trans hopen
  have hend : ∀ q, (T.loopTree s).owner (knownEvent s v) ≠ some q := by
    simp [owner_knownEvent, hv]
  rw [← knownEvent_of_owner hzero, ← LoopTree.exists_runs_iff_returns]
  exact ⟨_, .handle ((owner_knownEvent T 0).trans hzero) hhandle₁
    (.pass (p := []) (q := []) ((owner_knownEvent T 3).trans hthree) hclosed
      (.handle ((owner_knownEvent T 3).trans hthree) hhandle₂ (.leave fun _ => hend _))
      (.leave fun _ => hend _))⟩

/-- One call runs both machines, as the one loop does. -/
theorem exists_callMachine_callingMachine :
    ∃ s, ∃ B : callingMachine.Node → EventBounds,
      eventEnum false (fun _ => 0) callingMachine = some s ∧
      (∀ n : callingMachine.Node, eventBounds s n.path n.machine = some (B n)) ∧
      ∃ k, ((callingCode B).callMachine .eventTable k (.root callingMachine)).1 [] 0 =
        some ([([], 0), ([0], 3)], (B (.root callingMachine)).noEvent) := by
  have hcases := callingMachine_node
  obtain ⟨s, B, hs, hB, h⟩ := exists_callMachine_iff_returns false (fun _ => 0)
    (by simp [callingMachine, plainMachine, Machine.Accepted, Machine.AcceptedList] :
      callingMachine.Accepted) (by decide)
    (by
      intro n
      rcases hcases n with h | h <;> rw [h.2] <;> rfl)
    (by
      intro n hn
      rcases hcases n with h | h
      · exact absurd h.1 hn
      · rw [h.2]
        simp [Machine.Resumes, plainMachine])
  have hzero : (eventEnum false (fun _ => 0) callingMachine).map (eventOwner · 0) =
      some (some []) := by decide
  have hthree : (eventEnum false (fun _ => 0) callingMachine).map (eventOwner · 3) =
      some (some [0]) := by decide
  have hfour : (eventEnum false (fun _ => 0) callingMachine).map (eventOwner · 4) =
      some none := by decide
  have hvalue : (eventEnum false (fun _ => 0) callingMachine).map (·.valueOf ⟨[0], .noEvent⟩) =
      some (some 4) := by decide
  rw [hs] at hzero hthree hfour hvalue
  have hno : (B callingSub).noEvent = 4 := Option.some.inj
    ((eventBounds_noEvent (hB callingSub) rfl).symm.trans (Option.some.inj hvalue))
  refine ⟨s, B, hs, hB, (h _ (callingCode B) .eventTable (.inl rfl) ?_ 0 ?_ [] _).mpr
    (returns_callingMachine (Option.some.inj hzero) (Option.some.inj hthree)
      (hno ▸ Option.some.inj hfour) rfl rfl rfl)⟩
  · intro n w v r hr
    obtain rfl := Option.some.inj hr
    rcases hcases n with h | h
    · refine .inr ⟨[0], ?_, .inl (h.1 ▸ List.nil_prefix)⟩
      simpa [h.1] using Option.some.inj hthree
    · exact .inl (by simp [h.1])
  · rw [show eventOwner s 0 = some [] from Option.some.inj hzero]
    rfl

end FsmLang
