import Mathlib.Data.List.Basic
import Mathlib.Tactic
import FsmLang.SubMachineInhibitor

set_option relaxedAutoImplicit false
set_option autoImplicit false

/-!
# The single-switch loop of a sub-machine

In a -tss machine the loop of a sub-machine stops at an event that is not its own. If it was
called with an event of one of its own sub-machines, it runs that sub-machine after the loop,
and drops the event that comes back: what it returns is the event it was called with. The loop
of the top-level machine takes that for an event still to be processed.

## Main definitions

* `RunsSingleSwitch` — a machine whose `k`-th sub-machine is run by such a loop.

## Main results

* `singleSwitchSubLoop_returns_iff` — what the loop returns for an event that is not its own.
* `topLoop_after_singleSwitch` — the loop above it hands the event down again and again.
* `exists_singleSwitchSub_handsBack` — both, for every machine of a tree.
* `switchSubLoop_not_handsBack` — the -ts and -te loops do not return such an event.
-/

namespace FsmLang

open CSemantics

section Loop

variable {m P : Machine} {B BP : EventBounds} {W : Type}

/-- **What comes back.** An event that is not the machine's own is returned, whether the function
was called with it or with another `event`, and whatever the sub-machine returns that is run
for `event`. -/
lemma singleSwitchSubLoop_returns_iff (C : OwnCode m B W) {f : Frame W}
    (hown : B.isOwn f.e = false) (event : ℤ) (r : Frame W) :
    (C.singleSwitchSubLoop event).Returns (.running f) r ↔
      ∃ h, (if B.isBelow event then
          C.findAndRunUnlessInhibited { f with e := event } { f with e := event }
        else some f) = some h ∧ r = { h with e := f.e } := by
  rw [WhileLoop.returns_iff_of_not_cond hown]
  by_cases hbelow : B.isBelow event = true
  · simp only [OwnCode.singleSwitchSubLoop, if_pos hbelow, Option.map_eq_some_iff]
    constructor
    · intro h
      obtain ⟨h, hh, rfl⟩ := h
      exact ⟨h, hh, rfl⟩
    · intro h
      obtain ⟨h, hh, rfl⟩ := h
      exact ⟨h, hh, rfl⟩
  · simp only [OwnCode.singleSwitchSubLoop, if_neg hbelow, Option.some.injEq]
    constructor
    · intro h
      exact ⟨f, rfl, h.symm⟩
    · intro h
      obtain ⟨h, rfl, rfl⟩ := h
      rfl

/-- The `k`-th sub-machine of the machine with the code `CP` is run by the -tss loop of the
code `C`. -/
def RunsSingleSwitch (CP : OwnCode P BP W) (k : ℕ) (C : OwnCode m B W) : Prop :=
  ∀ w e r, CP.runSubMachine k w e = some r ↔
    ∃ h, (C.subLoop .singleSwitch e).Returns (.running ⟨w, e, []⟩) h ∧ r.1 = h.world ∧
      B.returnEvent h.e = some r.2

/-- **The loop above.** The top-level loop hands the event to the sub-machine, gets it back, and
hands it down again: after `n` passes it has delivered the event `n` times. -/
lemma topLoop_after_singleSwitch {CP : OwnCode P BP W} {k : ℕ} {v : ℤ}
    (hret : P.actionsReturn = .events) (hsubs : P.machineList ≠ []) (hv : BP.noEvent < v)
    (hfind : findAndRunSubMachine P BP.subMachineArray v = [k])
    (hback : ∀ w, ∃ w', CP.runSubMachine k w v = some (w', v)) {w : W}
    (hw : CP.doNotInhibitSubMachines w = true) (d : List (ℕ × ℤ)) (n : ℕ) :
    ∃ w', (CP.topLoop .singleSwitch).after n (.running ⟨w, v, d⟩) =
      .running ⟨w', v, d ++ List.replicate n (k, v)⟩ := by
  have hempty : P.machineList.isEmpty = false := by simpa using hsubs
  have hlt : decide (v < BP.noEvent) = false := by simpa using hv.le
  obtain ⟨g, hg, hinv, -⟩ := WhileLoop.after_of_invariant (L := CP.topLoop .singleSwitch)
    (s := ⟨w, v, d⟩)
    (I := fun n g => g = ⟨g.world, v, d ++ List.replicate n (k, v)⟩ ∧
      CP.doNotInhibitSubMachines g.world = true)
    (by
      intro n g hg
      obtain ⟨hg, hrun⟩ := hg
      obtain ⟨w', hw'⟩ := hback g.world
      have he : g.e = v := by rw [hg]
      -- the sub-machine has left the state of this machine alone
      have hstate : CP.doNotInhibitSubMachines w' = true := by
        rw [OwnCode.doNotInhibitSubMachines, CP.state_runSubMachine k g.world v _ hw']
        exact hrun
      refine ⟨by simp [OwnCode.topLoop, hret, he, hv.ne'],
        ⟨w', v, d ++ List.replicate (n + 1) (k, v)⟩, ?_, rfl, hstate⟩
      have hd : g.delivered = d ++ List.replicate n (k, v) := by rw [hg]
      simp only [OwnCode.topLoop, hret, hempty, he, hlt, Bool.or_false, Bool.false_eq_true,
        if_false, OwnCode.findAndRunUnlessInhibited, hrun, if_true, OwnCode.findAndRun, hfind,
        List.foldlM_cons, List.foldlM_nil, OwnCode.callSubMachine, hw', Option.map_some, hd]
      simp [List.replicate_succ'])
    ⟨by simp, hw⟩ n
  exact ⟨g.world, hg.trans (congrArg Outcome.running hinv)⟩

/-- The -ts and -te loops do not return an event that they take for one of a sub-machine. -/
theorem switchSubLoop_not_handsBack (C : OwnCode m B W) (g : Generator) {v : ℤ}
    (hv : BelowEvent B v) (hin : B.isBelow v = true) {f r : Frame W}
    (h : (C.switchSubLoop g).Returns (.running f) r) : r.e ≠ v := by
  obtain ⟨r', hcond, hr⟩ := h.exists_finish (by simp)
  obtain rfl : r' = r := Option.some.inj hr
  intro he
  subst he
  rw [show (C.switchSubLoop g).cond r' = B.isBelow r'.e from hv.cond_eq, hin] at hcond
  cases hcond

end Loop

/-! ## Every machine of a tree -/

/-- The loop of a -tss machine's sub-machine for the events of the machines below it. -/
structure HandsBack {m P : Machine} {B BP : EventBounds} {W : Type} (C : OwnCode m B W)
    (CP : OwnCode P BP W) (k : ℕ) (v : ℤ) : Prop where
  /-- Whether the function was called with the event or one of its actions has returned it, it
  is the event the function returns. -/
  returns : ∀ event w d r, (C.subLoop .singleSwitch event).Returns (.running ⟨w, v, d⟩) r →
    B.returnEvent r.e = some v
  /-- The function returns when the sub-machine it runs does. -/
  comesBack : ∀ w d h, C.findAndRunUnlessInhibited ⟨w, v, d⟩ ⟨w, v, d⟩ = some h →
    ∃ r, (C.subLoop .singleSwitch v).Returns (.running ⟨w, v, d⟩) r
  /-- The loop of a top-level machine above it goes on delivering the event, unless that
  machine inhibits sub-machines. -/
  delivers : P.actionsReturn = .events → BP.noEvent < v →
    findAndRunSubMachine P BP.subMachineArray v = [k] → RunsSingleSwitch CP k C →
    (∀ w, ∃ h, C.findAndRunUnlessInhibited ⟨w, v, []⟩ ⟨w, v, []⟩ = some h) →
    ∀ w d, CP.doNotInhibitSubMachines w = true → ∀ n, ∃ w',
      (CP.topLoop .singleSwitch).after n (.running ⟨w, v, d⟩) =
        .running ⟨w', v, d ++ List.replicate n (k, v)⟩

/-- **The single-switch loop hands events back.** In an accepted tree take a -tss sub-machine
with sub-machines of its own, whose actions return events, and an event of a machine below it.
Whatever the user's functions return, the sub-machine's function returns that event to its
caller, and not the event its own sub-machine returned; and the loop of the machine above, when
it is the top-level machine, never ends.

**Proof sketch.** The loop's condition fails for the event, the call of the sub-machine after
the loop leaves `e` alone, and `e` is what is returned. -/
theorem exists_singleSwitchSub_handsBack (compactActionArray : Bool) (designated : String → ℤ)
    {top : Machine} (htop : top.Accepted) {path : List ℕ} {P : Machine}
    (hP : top.sub? path = some P) {k : ℕ} {m : Machine} (hk : P.machineList[k]? = some m)
    (hret : m.actionsReturn = .events) :
    ∃ s B BP, eventEnum compactActionArray designated top = some s ∧
      eventBounds s (path ++ [k]) m = some B ∧ eventBounds s path P = some BP ∧
      ∀ (W : Type) (C : OwnCode m B W) (CP : OwnCode P BP W) (q : List ℕ) (c : Machine) (i : ℕ)
        (v : ℤ), q ≠ [] → m.sub? q = some c → s.valueOf ⟨path ++ [k] ++ q, .event i⟩ = some v →
        HandsBack C CP k v := by
  obtain ⟨own, b, last, -, hs⟩ := exists_eventEnum compactActionArray designated htop
  obtain ⟨BP, hBP⟩ := exists_eventBounds htop hs hP
  have hm : top.sub? (path ++ [k]) = some m := by
    rw [Machine.sub?_append, hP, Option.bind_some, Machine.sub?_cons, hk, Option.bind_some,
      Machine.sub?_nil]
  obtain ⟨b', hb'⟩ := exists_numberedFrom htop hs (by simp) hm
  obtain ⟨B, hB, -⟩ := hb'.exists_eventBounds (by simp)
  refine ⟨_, B, BP, hs, hB, hBP, ?_⟩
  intro W C CP q c i v hq hc hv
  have hsubs := Machine.machineList_ne_nil_of_sub? hq hc
  have hbelow := hb'.belowEvent (by simp) hB hsubs hq hv
  have hloop : ∀ event, C.subLoop .singleSwitch event = C.singleSwitchSubLoop event := by
    intro event
    simp [OwnCode.subLoop, hret]
  have hreturnEvent : B.returnEvent v = some v := if_neg hbelow.lt.ne'
  have hreturns : ∀ event w d r,
      (C.subLoop .singleSwitch event).Returns (.running ⟨w, v, d⟩) r →
        B.returnEvent r.e = some v := by
    intro event w d r hr
    rw [hloop, singleSwitchSubLoop_returns_iff C hbelow.isOwn_eq] at hr
    obtain ⟨h, -, rfl⟩ := hr
    exact hreturnEvent
  have hcomesBack : ∀ w d h, C.findAndRunUnlessInhibited ⟨w, v, d⟩ ⟨w, v, d⟩ = some h →
      ∃ r, (C.subLoop .singleSwitch v).Returns (.running ⟨w, v, d⟩) r := by
    intro w d h hrun
    rw [hloop]
    by_cases hin : B.isBelow v = true
    · exact ⟨_, (singleSwitchSubLoop_returns_iff C (f := ⟨w, v, d⟩) hbelow.isOwn_eq v _).mpr
        ⟨h, by rw [if_pos hin, hrun], rfl⟩⟩
    · exact ⟨_, (singleSwitchSubLoop_returns_iff C (f := ⟨w, v, d⟩) hbelow.isOwn_eq v _).mpr
        ⟨_, by rw [if_neg hin], rfl⟩⟩
  refine ⟨hreturns, hcomesBack, ?_⟩
  intro hretP hlt hfind hruns hsub w d hw n
  have hsubsP : P.machineList ≠ [] := by
    intro hnil
    simp [hnil] at hk
  refine topLoop_after_singleSwitch hretP hsubsP hlt hfind ?_ hw d n
  intro w
  obtain ⟨h, hh⟩ := hsub w
  obtain ⟨r, hr⟩ := hcomesBack w [] h hh
  exact ⟨r.world, (hruns w v (r.world, v)).mpr ⟨r, hr, rfl, hreturns v w [] r hr⟩⟩

/-- A machine with a sub-machine. -/
def middleMachine : Machine := plainMachine "M" "em" "sm" [plainMachine "C" "ec" "sc" []]

/-- A top-level machine above it. -/
def nestedMachine : Machine := plainMachine "top" "e" "s" [middleMachine]

/-- With functions that all return `noEvent`, the loop of `M` returns the event of `C`. -/
theorem not_handsOn_nestedMachine :
    ¬ ∀ (top : Machine), top.Accepted → ∀ path P k m, top.sub? path = some P →
      P.machineList[k]? = some m → m.actionsReturn = .events →
      ∃ s B, eventEnum false (fun _ => 0) top = some s ∧
        eventBounds s (path ++ [k]) m = some B ∧
        ∀ (W : Type) (C : OwnCode m B W) (q : List ℕ) (c : Machine) (i : ℕ) (v : ℤ), q ≠ [] →
          m.sub? q = some c → s.valueOf ⟨path ++ [k] ++ q, .event i⟩ = some v →
          ∀ w d h r, C.findAndRun v ⟨w, v, d⟩ = some h →
            (C.subLoop .singleSwitch v).Returns (.running ⟨w, v, d⟩) r →
            B.returnEvent r.e = B.returnEvent h.e := by
  intro h
  obtain ⟨s, B, hs, hB, hon⟩ := h nestedMachine
    (by simp [nestedMachine, middleMachine, plainMachine, Machine.Accepted,
      Machine.AcceptedList]) [] nestedMachine 0 middleMachine rfl rfl rfl
  have hvalue : (eventEnum false (fun _ => 0) nestedMachine).bind
      (·.valueOf ⟨[0, 0], .event 0⟩) = some 5 := by decide
  have hbounds : (eventEnum false (fun _ => 0) nestedMachine).bind
      (fun s => (eventBounds s [0] middleMachine).map
        fun B => (B.noEvent, B.parentNoEvent, B.lastEvent, B.subMachineArray)) =
      some (4, some 1, some 6, [⟨5, 6⟩]) := by decide
  rw [hs] at hvalue hbounds
  rw [Option.bind_some, show eventBounds s [0] middleMachine = some B from hB,
    Option.map_some] at hbounds
  simp only [Option.some.injEq, Prod.mk.injEq] at hbounds
  obtain ⟨hno, hparent, hlast, harray⟩ := hbounds
  set C := quietCode middleMachine B ⟨0, by decide⟩ with hC
  have hown : B.isOwn (5 : ℤ) = false := by simp [EventBounds.isOwn, hno]
  have hin : B.isBelow (5 : ℤ) = true := by simp [EventBounds.isBelow, hno, hlast]
  have hrun : C.findAndRun 5 ⟨(), 5, []⟩ = some ⟨(), B.noEvent, [(0, 5)]⟩ := by
    rw [OwnCode.findAndRun, harray]
    rfl
  have hguard : C.findAndRunUnlessInhibited ⟨(), 5, []⟩ ⟨(), 5, []⟩ =
      some ⟨(), B.noEvent, [(0, 5)]⟩ := hrun
  have hreturns : (C.subLoop .singleSwitch 5).Returns (.running ⟨(), 5, []⟩)
      ⟨(), 5, [(0, 5)]⟩ :=
    (singleSwitchSubLoop_returns_iff C (f := ⟨(), 5, []⟩) hown 5 _).mpr
      ⟨_, by rw [if_pos hin, hguard], rfl⟩
  have heq := hon Unit C [0] _ 0 5 (by simp) rfl hvalue () [] _ _ hrun hreturns
  simp [EventBounds.returnEvent, hno, hparent] at heq

/-- Quiet sub-machines come back. -/
lemma exists_quietCode_findAndRun {m : Machine} {B : EventBounds} {s : Fin m.stateList.length}
    (v : ℤ) (f : Frame Unit) : ∃ h, (quietCode m B s).findAndRun v f = some h := by
  rw [OwnCode.findAndRun]
  generalize findAndRunSubMachine m B.subMachineArray v = ks
  generalize ({ f with e := B.noEvent } : Frame Unit) = f'
  induction ks generalizing f' with
  | nil => exact ⟨f', rfl⟩
  | cons k ks ih =>
    rw [List.foldlM_cons]
    exact ih ⟨(), B.noEvent, f'.delivered ++ [(k, v)]⟩

/-- What the function of a sub-machine with quiet code returns: for an event of its own
`noEvent`, any other event as it is. -/
private lemma quietCode_returns_iff {m : Machine} {B : EventBounds} {s : Fin m.stateList.length}
    (hret : m.actionsReturn = .events) (e : ℤ) (x : Unit × ℤ) :
    (∃ h, ((quietCode m B s).subLoop .singleSwitch e).Returns (.running ⟨(), e, []⟩) h ∧
        x.1 = h.world ∧ B.returnEvent h.e = some x.2) ↔
      B.returnEvent (if B.isOwn e then B.noEvent else e) = some x.2 := by
  set C := quietCode m B s with hC
  have hloop : C.subLoop .singleSwitch e = C.singleSwitchSubLoop e := by
    simp [OwnCode.subLoop, hret]
  -- the frame the function returns
  have hreturns : ∃ d, ∀ h, (C.subLoop .singleSwitch e).Returns (.running ⟨(), e, []⟩) h ↔
      h = ⟨(), if B.isOwn e then B.noEvent else e, d⟩ := by
    rw [hloop]
    by_cases hown : B.isOwn e = true
    · have hbelow : B.isBelow e = false := by
        simp only [EventBounds.isOwn, Bool.and_eq_true, decide_eq_true_eq] at hown
        cases hlast : B.lastEvent with
        | none => simp [EventBounds.isBelow, hlast]
        | some last => simp [EventBounds.isBelow, hlast, hown.2.le]
      have hno : (C.singleSwitchSubLoop e).cond ⟨(), B.noEvent, []⟩ = false := by
        simp [OwnCode.singleSwitchSubLoop, EventBounds.isOwn]
      have hbody : (C.singleSwitchSubLoop e).body ⟨(), e, []⟩ = some ⟨(), B.noEvent, []⟩ := rfl
      refine ⟨[], ?_⟩
      intro h
      rw [WhileLoop.returns_iff_of_body hown hbody, WhileLoop.returns_iff_of_not_cond hno]
      simp [OwnCode.singleSwitchSubLoop, hbelow, hown, eq_comm]
    · have hown : B.isOwn e = false := by simpa using hown
      have hrun : ∃ h, (if B.isBelow e then
          C.findAndRunUnlessInhibited ⟨(), e, []⟩ ⟨(), e, []⟩ else some ⟨(), e, []⟩) = some h := by
        unfold OwnCode.findAndRunUnlessInhibited
        split_ifs
        · exact exists_quietCode_findAndRun e _
        · exact ⟨_, rfl⟩
        · exact ⟨_, rfl⟩
      obtain ⟨h₀, hh₀⟩ := hrun
      refine ⟨h₀.delivered, ?_⟩
      intro h
      have hiff := singleSwitchSubLoop_returns_iff C (f := ⟨(), e, []⟩) hown e h
      rw [hiff, hh₀]
      simp [hown]
  obtain ⟨d, hd⟩ := hreturns
  simp [hd]

/-- The top-level machine of `nestedMachine` with a sub-machine that behaves as `M` does. -/
def nestedTopCode (BP : EventBounds) : OwnCode nestedMachine BP Unit :=
  { quietCode nestedMachine BP ⟨0, by decide⟩ with
    runSubMachine := fun _ _ e => some ((), if e = 3 ∨ e = 4 then 1 else e)
    state_runSubMachine := fun _ _ _ _ _ => rfl }

/-- The loop of `M` hands the event of `C` back, and the top-level loop delivers it again and
again. -/
theorem exists_singleSwitchSub_handsBack_nestedMachine :
    ∃ s B BP, eventEnum false (fun _ => 0) nestedMachine = some s ∧
      eventBounds s [0] middleMachine = some B ∧ eventBounds s [] nestedMachine = some BP ∧
      (∃ r, ((quietCode middleMachine B ⟨0, by decide⟩).subLoop .singleSwitch 5).Returns
        (.running ⟨(), 5, []⟩) r ∧ B.returnEvent r.e = some 5) ∧
      ∀ n, ∃ w', ((nestedTopCode BP).topLoop .singleSwitch).after n (.running ⟨(), 5, []⟩) =
        .running ⟨w', 5, List.replicate n (0, 5)⟩ := by
  have htop : nestedMachine.Accepted := by
    simp [nestedMachine, middleMachine, plainMachine, Machine.Accepted, Machine.AcceptedList]
  obtain ⟨s, B, BP, hs, hB, hBP, h⟩ := exists_singleSwitchSub_handsBack false (fun _ => 0) htop
    (show nestedMachine.sub? [] = some nestedMachine from rfl)
    (show nestedMachine.machineList[0]? = some middleMachine from rfl) rfl
  have hvalue : (eventEnum false (fun _ => 0) nestedMachine).bind
      (·.valueOf ⟨[0, 0], .event 0⟩) = some 5 := by decide
  rw [hs] at hvalue
  have hhands := h Unit (quietCode middleMachine B ⟨0, by decide⟩) (nestedTopCode BP) [0]
    (plainMachine "C" "ec" "sc" []) 0 5 (by simp) rfl hvalue
  refine ⟨s, B, BP, hs, hB, hBP, ?_⟩
  -- the values of the two machines
  have hbounds : (eventEnum false (fun _ => 0) nestedMachine).bind
      (fun s => (eventBounds s [0] middleMachine).map
        fun B => (B.firstEvent, B.noEvent, B.parentNoEvent)) = some (3, 4, some 1) := by decide
  have hbounds' : (eventEnum false (fun _ => 0) nestedMachine).bind
      (fun s => (eventBounds s [] nestedMachine).map
        fun B => (B.noEvent, B.subMachineArray)) = some (1, [⟨3, 6⟩]) := by decide
  rw [hs, Option.bind_some] at hbounds hbounds'
  rw [show eventBounds s [0] middleMachine = some B from hB] at hbounds
  rw [hBP] at hbounds'
  simp only [Option.map_some, Option.some.injEq, Prod.mk.injEq] at hbounds hbounds'
  obtain ⟨hfirst, hno, hparent⟩ := hbounds
  obtain ⟨hnoP, harray⟩ := hbounds'
  have hruns : RunsSingleSwitch (nestedTopCode BP) 0
      (quietCode middleMachine B ⟨0, by decide⟩) := by
    intro w e x
    rw [quietCode_returns_iff rfl]
    have hown : B.isOwn e = true ↔ e = 3 := by
      simp only [EventBounds.isOwn, Bool.and_eq_true, decide_eq_true_eq]
      omega
    by_cases h₃ : e = 3
    · rw [if_pos (hown.mpr h₃)]
      simp [h₃, EventBounds.returnEvent, hparent, hno, nestedTopCode, Prod.ext_iff]
    · rw [if_neg (by simpa [hown] using h₃)]
      by_cases h₄ : e = 4
      · simp [h₄, EventBounds.returnEvent, hparent, hno, nestedTopCode, Prod.ext_iff]
      · simp [h₃, h₄, EventBounds.returnEvent, hno, nestedTopCode, Prod.ext_iff]
  constructor
  · obtain ⟨f, hf⟩ := exists_quietCode_findAndRun (B := B) (s := ⟨0, by decide⟩)
      (m := middleMachine) 5 ⟨(), 5, []⟩
    obtain ⟨r, hr⟩ := hhands.comesBack () [] f hf
    exact ⟨r, hr, hhands.returns 5 () [] r hr⟩
  · intro n
    exact hhands.delivers rfl (by omega) (by rw [harray]; rfl) hruns
      (fun _ => exists_quietCode_findAndRun 5 _) () [] rfl n

end FsmLang
