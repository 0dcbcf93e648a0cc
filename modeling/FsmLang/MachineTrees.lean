import Mathlib.Data.List.Basic
import Mathlib.Tactic
import FsmLang.CSemantics.NestedLoops
import FsmLang.EventLoops

set_option relaxedAutoImplicit false
set_option autoImplicit false

/-!
# Running a tree of machines

A machine's loop runs a sub-machine by calling its function, which runs its own sub-machines in
the same way. Here the functions of all machines of a tree are put together; the machines' own
code stays a parameter. It may read and change everything except the states of other machines.

The model is for machines whose actions return events: the function of a sub-machine returns an
event, with its own `noEvent` turned into the `noEvent` of its parent.

## Main definitions

* `Machine.Node` — the machines of a tree.
* `TreeCode` — the own code of all machines of a tree.
* `TreeCode.callMachine` — a call of a machine's function, with a bound on the passes of its loop
  and of the loops below it.
* `OwnCode.Keeps`, `OwnCode.Extends` — what a machine's loop inherits from what it calls.

## Main results

* `OwnCode.Keeps.machineLoop` — what the own code and the sub-machines keep, a machine's function
  keeps.
* `OwnCode.Extends.machineLoop` — sub-machines that return more often make no difference otherwise.
* `TreeCode.callMachine_mono` — nor does a larger bound.
-/

namespace FsmLang

open CSemantics

/-! ## The machines of a tree -/

/-- A machine of the tree, by its path. -/
structure Machine.Node (top : Machine) where
  path : List ℕ
  isSome : (top.sub? path).isSome
  deriving DecidableEq

namespace Machine.Node

variable {top : Machine}

/-- The machine itself. -/
def machine (n : top.Node) : Machine := (top.sub? n.path).get n.isSome

/-- The top-level machine. -/
def root (top : Machine) : top.Node := ⟨[], rfl⟩

/-- The machine at a path. -/
def at? (top : Machine) (p : List ℕ) : Option top.Node :=
  if h : (top.sub? p).isSome then some ⟨p, h⟩ else none

/-- A sub-machine. -/
def child? (n : top.Node) (k : ℕ) : Option top.Node := at? top (n.path ++ [k])

/-- The top-level machine stands at the empty path. -/
@[simp] lemma path_root : (root top).path = [] := rfl

/-- The machine of a node is the one at its path. -/
lemma sub?_path (n : top.Node) : top.sub? n.path = some n.machine :=
  (Option.some_get n.isSome).symm

/-- The node at a path is the one with this path. -/
lemma at?_eq_some_iff {p : List ℕ} {n : top.Node} : at? top p = some n ↔ n.path = p := by
  unfold at?
  constructor
  · intro h
    split_ifs at h
    rw [← Option.some.inj h]
  · rintro rfl
    rw [dif_pos n.isSome]

/-- A node is found at its path. -/
@[simp] lemma at?_path (n : top.Node) : at? top n.path = some n := at?_eq_some_iff.mpr rfl

/-- The path of a child is longer by the child's number. -/
lemma path_of_child? {n c : top.Node} {k : ℕ} (h : n.child? k = some c) :
    c.path = n.path ++ [k] := at?_eq_some_iff.mp h

/-- A machine's sub-machines are those of its list. -/
lemma machineList_of_child? {n c : top.Node} {k : ℕ} (h : n.child? k = some c) :
    n.machine.machineList[k]? = some c.machine := by
  have hc := c.sub?_path
  rw [path_of_child? h, Machine.sub?_append, n.sub?_path, Option.bind_some, Machine.sub?_cons] at hc
  obtain ⟨d, hd, hdc⟩ := Option.bind_eq_some_iff.mp hc
  rw [hd, ← hdc, Machine.sub?_nil]

/-- A path within the tree goes on to one of a machine's sub-machines. -/
lemma exists_child? {n : top.Node} {k : ℕ} {q : List ℕ}
    (h : (top.sub? (n.path ++ k :: q)).isSome) : ∃ c, n.child? k = some c := by
  rw [← List.singleton_append, ← List.append_assoc, Machine.sub?_append] at h
  obtain ⟨m, hm⟩ := Option.isSome_iff_exists.mp h
  obtain ⟨d, hd, -⟩ := Option.bind_eq_some_iff.mp hm
  exact ⟨⟨n.path ++ [k], by rw [hd]; rfl⟩, at?_eq_some_iff.mpr rfl⟩

end Machine.Node

/-! ## What a machine's loop inherits -/

section Loops

variable {m : Machine} {B : EventBounds} {W : Type*}

namespace OwnCode

/-- Everything a machine's loop calls keeps a property of the world. -/
structure Keeps (C : OwnCode m B W) (I : W → Prop) : Prop where
  dispatch : ∀ w e r, I w → C.dispatch w e = some r → I r.1
  handleInAllStates : ∀ w e, I w → I (C.handleInAllStates w e).1
  runSubMachine : ∀ k w e r, I w → C.runSubMachine k w e = some r → I r.1

namespace Keeps

variable {C : OwnCode m B W} {I : W → Prop} (hC : C.Keeps I) {f h : Frame W}

include hC

/-- The dispatch keeps what the machine's own matrix code keeps. -/
lemma callDispatch (hf : I f.world) (hh : C.callDispatch f = some h) : I h.world := by
  obtain ⟨r, hr, rfl⟩ := Option.map_eq_some_iff.mp hh
  exact hC.dispatch _ _ r hf hr

/-- The finder keeps what the calls of the sub-machines keep. -/
lemma findAndRun {v : ℤ} (hf : I f.world) (hh : C.findAndRun v f = some h) : I h.world := by
  unfold OwnCode.findAndRun at hh
  have hrun : ∀ (ks : List ℕ) (f : Frame W), I f.world →
      ks.foldlM (C.callSubMachine v) f = some h → I h.world := by
    intro ks
    induction ks with
    | nil =>
      intro f hf hh
      obtain rfl := Option.some.inj hh
      exact hf
    | cons k ks ih =>
      intro f hf hh
      rw [List.foldlM_cons] at hh
      obtain ⟨g, hg, hh⟩ := Option.bind_eq_some_iff.mp hh
      obtain ⟨r, hr, rfl⟩ := Option.map_eq_some_iff.mp hg
      exact ih _ (hC.runSubMachine _ _ _ r hf hr) hh
  exact hrun _ { f with e := B.noEvent } hf hh

/-- So does the finder where a state may inhibit it. -/
lemma findAndRunUnlessInhibited {i : Frame W} (hf : I f.world)
    (hh : C.findAndRunUnlessInhibited f i = some h) (hi : I i.world) : I h.world := by
  unfold OwnCode.findAndRunUnlessInhibited at hh
  split_ifs at hh
  · exact hC.findAndRun hf hh
  · obtain rfl := Option.some.inj hh
    exact hi

/-- The innards of a loop with a guard keep it. -/
lemma switchInnards {guard : ℤ → Bool} (hf : I f.world)
    (hh : C.switchInnards guard f = some h) : I h.world := by
  have hall := hC.handleInAllStates f.world f.e hf
  unfold OwnCode.switchInnards at hh
  split at hh
  · rename_i w heq
    rw [heq] at hall
    obtain rfl := Option.some.inj hh
    exact hall
  · rename_i w e heq
    rw [heq] at hall
    split_ifs at hh
    · exact hC.callDispatch (f := { f with world := w, e := e }) hall hh
    · obtain rfl := Option.some.inj hh
      exact hall

/-- The innards of a top-level loop keep it. -/
lemma topInnards {g : Generator} (hf : I f.world) (hh : C.topInnards g f = some h) :
    I h.world := by
  cases g with
  | switch => exact hC.switchInnards hf hh
  | table | singleSwitch | eventTable => exact hC.callDispatch hf hh

/-- The innards of a sub-machine's loop keep it. -/
lemma subInnards {g : Generator} (hf : I f.world) (hh : C.subInnards g f = some h) :
    I h.world := by
  cases g with
  | switch => exact hC.switchInnards hf hh
  | table | singleSwitch => exact hC.callDispatch hf hh
  | eventTable =>
    simp only [OwnCode.subInnards] at hh
    split_ifs at hh
    · exact hC.callDispatch hf hh
    · obtain rfl := Option.some.inj hh
      exact hf

end Keeps

/-- The body and the end of a function keep a property of the world. -/
structure KeptBy (I : W → Prop) (L : WhileLoop (Frame W) (Frame W)) : Prop where
  body : ∀ f h, I f.world → L.body f = some h → I h.world
  finish : ∀ f h, I f.world → L.finish f = some h → I h.world

/-- A function without a loop. -/
lemma KeptBy.once {I : W → Prop} {body : Frame W → Option (Frame W)}
    (h : ∀ f g, I f.world → body f = some g → I g.world) : KeptBy I (OwnCode.once body) where
  body := by
    intro f g hf hg
    obtain rfl := Option.some.inj hg
    exact hf
  finish := by
    intro f g hf hg
    obtain ⟨g', hg', rfl⟩ := Option.map_eq_some_iff.mp hg
    exact h f g' hf hg'

namespace Keeps

variable {C : OwnCode m B W} {I : W → Prop} (hC : C.Keeps I) {f h : Frame W}

include hC

/-- The loop of a top-level machine keeps it. -/
lemma topLoop (g : Generator) : KeptBy I (C.topLoop g) := by
  unfold OwnCode.topLoop
  cases m.actionsReturn with
  | events =>
    refine ⟨?_, ?_⟩
    · intro f h hf hh
      simp only at hh
      split_ifs at hh
      · exact hC.topInnards hf hh
      · exact hC.findAndRunUnlessInhibited hf hh hf
      · exact hC.findAndRunUnlessInhibited hf hh hf
    · intro f h hf hh
      obtain rfl := Option.some.inj hh
      exact hf
  | void =>
    apply KeptBy.once
    intro f h hf hh
    split_ifs at hh
    · exact hC.topInnards hf hh
    · exact hC.findAndRunUnlessInhibited hf hh hf
  | states =>
    apply KeptBy.once
    intro f h hf hh
    split_ifs at hh
    · exact hC.topInnards hf hh
    · exact hC.findAndRun hf hh
    · exact hC.findAndRunUnlessInhibited hf hh hf

/-- The loop of a sub-machine keeps it with -tc. -/
lemma tableSubLoop : KeptBy I C.tableSubLoop where
  body := by
    intro f h hf hh
    simp only [OwnCode.tableSubLoop] at hh
    split_ifs at hh
    · exact hC.subInnards hf hh
    · exact hC.findAndRunUnlessInhibited hf hh hf
  finish := by
    intro f h hf hh
    obtain rfl := Option.some.inj hh
    exact hf

/-- The loop of a sub-machine keeps it with -tss. -/
lemma singleSwitchSubLoop (event : ℤ) : KeptBy I (C.singleSwitchSubLoop event) where
  body := fun _ _ hf hh => hC.subInnards (g := .singleSwitch) hf hh
  finish := by
    intro f h hf hh
    simp only [OwnCode.singleSwitchSubLoop] at hh
    split_ifs at hh
    · obtain ⟨h', hh', rfl⟩ := Option.map_eq_some_iff.mp hh
      exact hC.findAndRunUnlessInhibited (f := { f with e := event }) (h := h') hf hh' hf
    · obtain rfl := Option.some.inj hh
      exact hf

/-- The loop of a sub-machine keeps it with -ts and -te. -/
lemma switchSubLoop (g : Generator) : KeptBy I (C.switchSubLoop g) where
  body := by
    intro f h hf hh
    obtain ⟨h', hh', hh⟩ := Option.bind_eq_some_iff.mp hh
    have hf' := hC.subInnards hf hh'
    split_ifs at hh
    · exact hC.findAndRunUnlessInhibited hf' hh hf'
    · obtain rfl := Option.some.inj hh
      exact hf'
  finish := by
    intro f h hf hh
    obtain rfl := Option.some.inj hh
    exact hf

/-- The loop of a sub-machine keeps it, whatever the generator. -/
lemma subLoop (g : Generator) (event : ℤ) : KeptBy I (C.subLoop g event) := by
  have hsingle : KeptBy I (OwnCode.once fun f =>
      if B.isOwn f.e then C.subInnards .singleSwitch f
      else if B.isBelow f.e then C.findAndRunUnlessInhibited f f
      else some f) := by
    apply KeptBy.once
    intro f h hf hh
    split_ifs at hh
    · exact hC.subInnards hf hh
    · exact hC.findAndRunUnlessInhibited hf hh hf
    · obtain rfl := Option.some.inj hh
      exact hf
  have hvoid : KeptBy I (OwnCode.once fun f =>
      (C.subInnards g f).bind fun h =>
        if B.isBelow f.e then C.findAndRunUnlessInhibited { h with e := f.e } h else some h) := by
    apply KeptBy.once
    intro f h hf hh
    obtain ⟨h', hh', hh⟩ := Option.bind_eq_some_iff.mp hh
    have hf' := hC.subInnards hf hh'
    split_ifs at hh
    · exact hC.findAndRunUnlessInhibited (f := { h' with e := f.e }) hf' hh hf'
    · obtain rfl := Option.some.inj hh
      exact hf'
  have htable : KeptBy I (OwnCode.once fun f =>
      if m.machineList.isEmpty || f.e < B.noEvent then C.subInnards .table f
      else C.findAndRunUnlessInhibited f f) := by
    apply KeptBy.once
    intro f h hf hh
    split_ifs at hh
    · exact hC.subInnards hf hh
    · exact hC.findAndRunUnlessInhibited hf hh hf
  have hstates : KeptBy I (OwnCode.once fun f =>
      if m.machineList.isEmpty || f.e < B.noEvent then C.topInnards g f
      else if g = .table then C.findAndRun f.e f
      else C.findAndRunUnlessInhibited f f) := by
    apply KeptBy.once
    intro f h hf hh
    split_ifs at hh
    · exact hC.topInnards hf hh
    · exact hC.findAndRun hf hh
    · exact hC.findAndRunUnlessInhibited hf hh hf
  unfold OwnCode.subLoop
  cases m.actionsReturn <;> cases g
  case events.table => exact hC.tableSubLoop
  case events.singleSwitch => exact hC.singleSwitchSubLoop event
  case events.switch | events.eventTable => exact hC.switchSubLoop _
  case states.singleSwitch | void.singleSwitch => exact hsingle
  case void.table => exact htable
  case void.switch | void.eventTable => exact hvoid
  case states.table | states.switch | states.eventTable => exact hstates

/-- **What a machine's function keeps.** -/
lemma machineLoop (path : List ℕ) (g : Generator) (event : ℤ) :
    KeptBy I (C.machineLoop path g event) := by
  unfold OwnCode.machineLoop
  split_ifs
  · exact hC.topLoop g
  · exact hC.subLoop g event

/-- The world a machine's function returns. -/
private lemma world_of_after {path : List ℕ} {g : Generator} {event : ℤ} (hf : I f.world) {k : ℕ}
    (hh : (C.machineLoop path g event).after k (C.start path g f) = .returned h) :
    I h.world := by
  have hloop := hC.machineLoop path g event
  have hfrom : ∀ f : Frame W, I f.world →
      (C.machineLoop path g event).after k (.running f) = .returned h → I h.world :=
    fun f hf hh => WhileLoop.of_after_eq_returned (I := fun f => I f.world)
      (J := fun h => I h.world) (fun f h => hloop.body f h) (fun f h => hloop.finish f h) hf hh
  unfold OwnCode.start at hh
  split_ifs at hh
  · exact hfrom f hf hh
  · unfold OwnCode.subStart at hh
    split_ifs at hh
    · cases hb : (C.switchSubLoop g).body f with
      | none => simp [hb] at hh
      | some f' =>
        rw [hb, Option.elim_some] at hh
        exact hfrom f' ((hC.switchSubLoop g).body f f' hf hb) hh
    · exact hfrom f hf hh

end Keeps

/-! ### Sub-machines that return more often -/

/-- Code that does what other code does, with sub-machines that return wherever the other's do. -/
structure Extends (C' C : OwnCode m B W) : Prop where
  state : C'.state = C.state
  dispatch : C'.dispatch = C.dispatch
  handleInAllStates : C'.handleInAllStates = C.handleInAllStates
  runSubMachine : ∀ k w e r, C.runSubMachine k w e = some r → C'.runSubMachine k w e = some r

namespace Extends

variable {C' C : OwnCode m B W} (hC : C'.Extends C) {f h : Frame W}

include hC

/-- What the finder returns it returns with more sub-machines that return, too. -/
lemma findAndRun {v : ℤ} (hh : C.findAndRun v f = some h) : C'.findAndRun v f = some h := by
  unfold OwnCode.findAndRun at hh ⊢
  have hrun : ∀ (ks : List ℕ) (f : Frame W), ks.foldlM (C.callSubMachine v) f = some h →
      ks.foldlM (C'.callSubMachine v) f = some h := by
    intro ks
    induction ks with
    | nil => exact fun f hh => hh
    | cons k ks ih =>
      intro f hh
      rw [List.foldlM_cons] at hh ⊢
      obtain ⟨g, hg, hh⟩ := Option.bind_eq_some_iff.mp hh
      obtain ⟨r, hr, rfl⟩ := Option.map_eq_some_iff.mp hg
      refine Option.bind_eq_some_iff.mpr ⟨_, ?_, ih _ hh⟩
      rw [OwnCode.callSubMachine, hC.runSubMachine _ _ _ r hr]
      rfl
  exact hrun _ _ hh

/-- Whether sub-machines are inhibited does not depend on the calls. -/
lemma doNotInhibitSubMachines (w : W) :
    C'.doNotInhibitSubMachines w = C.doNotInhibitSubMachines w := by
  rw [OwnCode.doNotInhibitSubMachines, hC.state]
  rfl

/-- The same where a state may inhibit the finder. -/
lemma findAndRunUnlessInhibited {i : Frame W} (hh : C.findAndRunUnlessInhibited f i = some h) :
    C'.findAndRunUnlessInhibited f i = some h := by
  unfold OwnCode.findAndRunUnlessInhibited at hh ⊢
  rw [hC.doNotInhibitSubMachines]
  split_ifs at hh ⊢
  · exact hC.findAndRun hh
  · exact hh

/-- The dispatch does not depend on the calls. -/
lemma callDispatch : C'.callDispatch f = C.callDispatch f := by
  rw [OwnCode.callDispatch, hC.dispatch]
  rfl

/-- Nor do the innards with a guard. -/
lemma switchInnards (guard : ℤ → Bool) : C'.switchInnards guard f = C.switchInnards guard f := by
  simp only [OwnCode.switchInnards, hC.handleInAllStates, hC.callDispatch]

/-- Nor do the innards of a top-level loop. -/
lemma topInnards (g : Generator) : C'.topInnards g f = C.topInnards g f := by
  cases g with
  | switch => exact hC.switchInnards _
  | table | singleSwitch | eventTable => exact hC.callDispatch

/-- Nor do the innards of a sub-machine's loop. -/
lemma subInnards (g : Generator) : C'.subInnards g f = C.subInnards g f := by
  simp only [OwnCode.subInnards, hC.switchInnards, hC.callDispatch]

omit hC in
/-- A function that is run once extends one that returns less often. -/
lemma once {body' body : Frame W → Option (Frame W)}
    (h : ∀ f g, body f = some g → body' f = some g) :
    (OwnCode.once body').Extends (OwnCode.once body) where
  cond := fun _ => rfl
  body := fun _ _ ht => ht
  finish := by
    intro f g hg
    obtain ⟨g', hg', rfl⟩ := Option.map_eq_some_iff.mp hg
    exact Option.map_eq_some_iff.mpr ⟨g', h f g' hg', rfl⟩

/-- The loop of a top-level machine extends that with fewer calls that return. -/
lemma topLoop (g : Generator) : (C'.topLoop g).Extends (C.topLoop g) := by
  unfold OwnCode.topLoop
  cases m.actionsReturn with
  | events =>
    refine ⟨fun _ => rfl, ?_, fun _ _ h => h⟩
    intro f h hh
    simp only [hC.topInnards] at hh ⊢
    split_ifs at hh ⊢
    · exact hh
    · exact hC.findAndRunUnlessInhibited hh
    · exact hC.findAndRunUnlessInhibited hh
  | void =>
    refine once ?_
    intro f h hh
    rw [hC.topInnards]
    split_ifs at hh ⊢
    · exact hh
    · exact hC.findAndRunUnlessInhibited hh
  | states =>
    refine once ?_
    intro f h hh
    rw [hC.topInnards]
    split_ifs at hh ⊢
    · exact hh
    · exact hC.findAndRun hh
    · exact hC.findAndRunUnlessInhibited hh

/-- So does the loop of a sub-machine with -tc. -/
lemma tableSubLoop : C'.tableSubLoop.Extends C.tableSubLoop where
  cond := fun _ => rfl
  body := by
    intro f h hh
    simp only [OwnCode.tableSubLoop, hC.subInnards] at hh ⊢
    split_ifs at hh ⊢
    · exact hh
    · exact hC.findAndRunUnlessInhibited hh
  finish := fun _ _ h => h

/-- And with -tss. -/
lemma singleSwitchSubLoop (event : ℤ) :
    (C'.singleSwitchSubLoop event).Extends (C.singleSwitchSubLoop event) where
  cond := fun _ => rfl
  body := by
    intro f h hh
    simp only [OwnCode.singleSwitchSubLoop, hC.subInnards] at hh ⊢
    exact hh
  finish := by
    intro f h hh
    simp only [OwnCode.singleSwitchSubLoop] at hh ⊢
    split_ifs at hh ⊢
    · obtain ⟨h', hh', rfl⟩ := Option.map_eq_some_iff.mp hh
      exact Option.map_eq_some_iff.mpr ⟨h', hC.findAndRunUnlessInhibited hh', rfl⟩
    · exact hh

/-- The body of a -ts or -te loop. -/
lemma switchSubLoop_body (g : Generator) (hh : (C.switchSubLoop g).body f = some h) :
    (C'.switchSubLoop g).body f = some h := by
  simp only [OwnCode.switchSubLoop, hC.subInnards] at hh ⊢
  obtain ⟨h', hh', hh⟩ := Option.bind_eq_some_iff.mp hh
  refine Option.bind_eq_some_iff.mpr ⟨h', hh', ?_⟩
  split_ifs at hh ⊢
  · exact hC.findAndRunUnlessInhibited hh
  · exact hh

/-- And with -ts and -te. -/
lemma switchSubLoop (g : Generator) : (C'.switchSubLoop g).Extends (C.switchSubLoop g) where
  cond := fun _ => rfl
  body := fun _ _ hh => hC.switchSubLoop_body g hh
  finish := fun _ _ h => h

/-- And whatever the generator. -/
lemma subLoop (g : Generator) (event : ℤ) : (C'.subLoop g event).Extends (C.subLoop g event) := by
  have hstates : (OwnCode.once fun f =>
      if m.machineList.isEmpty || f.e < B.noEvent then C'.topInnards g f
      else if g = .table then C'.findAndRun f.e f
      else C'.findAndRunUnlessInhibited f f).Extends (OwnCode.once fun f =>
      if m.machineList.isEmpty || f.e < B.noEvent then C.topInnards g f
      else if g = .table then C.findAndRun f.e f
      else C.findAndRunUnlessInhibited f f) := by
    refine once ?_
    intro f h hh
    rw [hC.topInnards]
    split_ifs at hh ⊢
    · exact hh
    · exact hC.findAndRun hh
    · exact hC.findAndRunUnlessInhibited hh
  unfold OwnCode.subLoop
  cases m.actionsReturn <;> cases g
  case events.table => exact hC.tableSubLoop
  case events.singleSwitch => exact hC.singleSwitchSubLoop event
  case events.switch | events.eventTable => exact hC.switchSubLoop _
  case states.singleSwitch | void.singleSwitch =>
    refine once ?_
    intro f h hh
    rw [hC.subInnards]
    split_ifs at hh ⊢
    · exact hh
    · exact hC.findAndRunUnlessInhibited hh
    · exact hh
  case void.table =>
    refine once ?_
    intro f h hh
    rw [hC.subInnards]
    split_ifs at hh ⊢
    · exact hh
    · exact hC.findAndRunUnlessInhibited hh
  case void.switch | void.eventTable =>
    refine once ?_
    intro f h hh
    rw [hC.subInnards]
    obtain ⟨h', hh', hh⟩ := Option.bind_eq_some_iff.mp hh
    refine Option.bind_eq_some_iff.mpr ⟨h', hh', ?_⟩
    split_ifs at hh ⊢
    · exact hC.findAndRunUnlessInhibited hh
    · exact hh
  case states.table | states.switch | states.eventTable => exact hstates

/-- **What a machine's function returns** does not change with sub-machines that return more
often. -/
lemma machineLoop (path : List ℕ) (g : Generator) (event : ℤ) :
    (C'.machineLoop path g event).Extends (C.machineLoop path g event) := by
  unfold OwnCode.machineLoop
  split_ifs
  · exact hC.topLoop g
  · exact hC.subLoop g event

/-- A loop that has returned with fewer calls that return has done so with more. -/
lemma after_eq_returned {path : List ℕ} {g : Generator} {event : ℤ} {k : ℕ}
    (hh : (C.machineLoop path g event).after k (C.start path g f) = .returned h) :
    (C'.machineLoop path g event).after k (C'.start path g f) = .returned h := by
  have hloop := hC.machineLoop path g event
  unfold OwnCode.start at hh ⊢
  split_ifs at hh ⊢
  · exact hloop.after_eq_returned hh
  · unfold OwnCode.subStart at hh ⊢
    split_ifs at hh ⊢
    · cases hb : (C.switchSubLoop g).body f with
      | none => simp [hb] at hh
      | some f' =>
        rw [hb, Option.elim_some] at hh
        rw [hC.switchSubLoop_body g hb, Option.elim_some]
        exact hloop.after_eq_returned hh
    · exact hloop.after_eq_returned hh

end Extends

end OwnCode

end Loops

/-! ## The code of a tree -/

/-- The machines' own code, on worlds in which every machine of the tree has a state. The fields
are those of `OwnCode`, without the calls of sub-machines; a machine's own code leaves the states
of other machines as they are. -/
structure TreeCode (top : Machine) (B : top.Node → EventBounds) (W : Type*) where
  state : (n : top.Node) → W → Fin n.machine.stateList.length
  dispatch : top.Node → W → ℤ → Option (W × ℤ)
  handleInAllStates : top.Node → W → ℤ → W × Option ℤ
  handleInAllStates_foreign : ∀ n w e, e ≠ (B n).noEvent → (∀ i, (B n).eventValue i ≠ some e) →
    handleInAllStates n w e = (w, some e)
  state_dispatch : ∀ n q w e r, dispatch n w e = some r → q ≠ n → state q r.1 = state q w
  state_handleInAllStates : ∀ n q w e, q ≠ n → state q (handleInAllStates n w e).1 = state q w

namespace TreeCode

variable {top : Machine} {B : top.Node → EventBounds} {W : Type*} (T : TreeCode top B W)

/-- The machines that are neither `n` nor below it are in the states they are in in `w`. -/
def SameAbove (n : top.Node) (w w' : W) : Prop :=
  ∀ q : top.Node, ¬ n.path <+: q.path → T.state q w' = T.state q w

/-- A function that changes the states of `n` and of the machines below it only. -/
def KeepsOthers (n : top.Node) (run : W → ℤ → Option (W × ℤ)) : Prop :=
  ∀ w e r, run w e = some r → T.SameAbove n w r.1

/-- What the function of the machine calls, if `run` calls its sub-machines. -/
def ownCode (n : top.Node) (run : (c : top.Node) → {f // T.KeepsOthers c f}) :
    OwnCode n.machine (B n) W where
  state := T.state n
  dispatch := T.dispatch n
  handleInAllStates := T.handleInAllStates n
  runSubMachine := fun k w e => (n.child? k).bind fun c => (run c).1 w e
  handleInAllStates_foreign := T.handleInAllStates_foreign n
  state_runSubMachine := by
    intro k w e r hr
    obtain ⟨c, hc, hr⟩ := Option.bind_eq_some_iff.mp hr
    refine (run c).2 w e r hr n ?_
    rw [Machine.Node.path_of_child? hc]
    intro h
    simpa using h.length_le

/-- All that a machine's function calls keeps the states of the machines above and beside it. -/
private lemma keeps_ownCode (n : top.Node) (run : (c : top.Node) → {f // T.KeepsOthers c f})
    (w : W) :
    (T.ownCode n run).Keeps (T.SameAbove n w) where
  dispatch := by
    intro w₁ e r hw hr q hq
    rw [T.state_dispatch n q w₁ e r hr fun h => hq (h ▸ List.prefix_rfl), hw q hq]
  handleInAllStates := by
    intro w₁ e hw q hq
    rw [← hw q hq]
    exact T.state_handleInAllStates n q w₁ e fun h => hq (h ▸ List.prefix_rfl)
  runSubMachine := by
    intro k w₁ e r hw hr q hq
    obtain ⟨c, hc, hr⟩ := Option.bind_eq_some_iff.mp hr
    rw [← hw q hq]
    refine (run c).2 w₁ e r hr q fun h => hq (List.IsPrefix.trans ?_ h)
    rw [Machine.Node.path_of_child? hc]
    exact List.prefix_append n.path [k]

/-- What the function of a machine returns, when its loop has come to an end:
`return e == THIS(noEvent) ? PARENT(noEvent) : e` below the top-level machine. -/
def result (B : top.Node → EventBounds) (n : top.Node) : Outcome (Frame W) (Frame W) → Option (W × ℤ)
  | .returned f =>
    (if n.path = [] then some f.e else (B n).returnEvent f.e).map fun e => (f.world, e)
  | _ => none

/-- The function of a machine whose sub-machines are called by `run`. There is no result if its
loop does not come to an end within `k` passes. -/
def runMachine (g : Generator) (n : top.Node) (run : (c : top.Node) → {f // T.KeepsOthers c f})
    (k : ℕ) (w : W) (v : ℤ) : Option (W × ℤ) :=
  result B n (((T.ownCode n run).machineLoop n.path g v).after k
    ((T.ownCode n run).start n.path g ⟨w, v, []⟩))

variable {T} in
/-- The function returns if its loop does. -/
lemma runMachine_eq_some_iff {g : Generator} {n : top.Node}
    {run : (c : top.Node) → {f // T.KeepsOthers c f}} {k : ℕ} {w : W} {v : ℤ} {r : W × ℤ} :
    T.runMachine g n run k w v = some r ↔
      ∃ f, ((T.ownCode n run).machineLoop n.path g v).after k
          ((T.ownCode n run).start n.path g ⟨w, v, []⟩) = .returned f ∧
        result B n (.returned f) = some r := by
  rw [runMachine]
  cases ((T.ownCode n run).machineLoop n.path g v).after k
      ((T.ownCode n run).start n.path g ⟨w, v, []⟩) with
  | running f => simp [result]
  | stuck => simp [result]
  | returned f => simp

/-- The function keeps the states of the machines above and beside it. -/
private lemma keepsOthers_runMachine (g : Generator) (n : top.Node)
    (run : (c : top.Node) → {f // T.KeepsOthers c f}) (k : ℕ) :
    T.KeepsOthers n (T.runMachine g n run k) := by
  intro w v r hr
  obtain ⟨f, hf, hr⟩ := runMachine_eq_some_iff.mp hr
  obtain ⟨e, -, rfl⟩ := Option.map_eq_some_iff.mp hr
  exact (T.keeps_ownCode n run w).world_of_after (fun _ _ => rfl) hf

/-- A call of a machine's function, with the bound `k` on the passes of its loop and smaller ones
for the loops below it. -/
def callMachine (g : Generator) : ℕ → (n : top.Node) → {f // T.KeepsOthers n f}
  | 0, _ => ⟨fun _ _ => none, fun _ _ _ h => nomatch h⟩
  | k + 1, n => ⟨T.runMachine g n (callMachine g k) (k + 1), T.keepsOthers_runMachine g n _ _⟩

variable {T}

/-- Code whose sub-machines return more often. -/
lemma ownCode_extends {g : Generator} {j k : ℕ}
    (h : ∀ n w v r, (T.callMachine g j n).1 w v = some r → (T.callMachine g k n).1 w v = some r)
    (n : top.Node) :
    (T.ownCode n (T.callMachine g k)).Extends (T.ownCode n (T.callMachine g j)) where
  state := rfl
  dispatch := rfl
  handleInAllStates := rfl
  runSubMachine := by
    intro i w e r hr
    obtain ⟨c, hc, hr⟩ := Option.bind_eq_some_iff.mp hr
    exact Option.bind_eq_some_iff.mpr ⟨c, hc, h c w e r hr⟩

/-- **Larger bounds.** A call that returns with a bound on the passes returns the same with a
larger one. -/
theorem callMachine_mono {g : Generator} {j k : ℕ} (hjk : j ≤ k) (n : top.Node) {w : W} {v : ℤ}
    {r : W × ℤ} (hr : (T.callMachine g j n).1 w v = some r) :
    (T.callMachine g k n).1 w v = some r := by
  induction j generalizing k n w v r with
  | zero => exact nomatch (show none = some r from hr)
  | succ j ih =>
    obtain ⟨k, rfl⟩ : ∃ i, k = i + 1 := ⟨k - 1, by omega⟩
    obtain ⟨f, hf, hres⟩ := runMachine_eq_some_iff.mp hr
    have hext := ownCode_extends (fun n w v r hr => ih (by omega : j ≤ k) n hr) n
    refine runMachine_eq_some_iff.mpr ⟨f, ?_, hres⟩
    rw [show k + 1 = (k - j) + (j + 1) by omega, WhileLoop.after_add, hext.after_eq_returned hf,
      WhileLoop.after_returned]

variable (T) in
/-- The same with two bounds. -/
lemma ownCode_extends_of_le (g : Generator) {j k : ℕ} (hjk : j ≤ k) (n : top.Node) :
    (T.ownCode n (T.callMachine g k)).Extends (T.ownCode n (T.callMachine g j)) :=
  ownCode_extends (fun n _ _ _ hr => callMachine_mono hjk n hr) n

/-- A call returns if its loop does so at all. -/
lemma exists_callMachine_of_returns {g : Generator} {k : ℕ} {n : top.Node} {w : W} {v : ℤ}
    {f : Frame W} (hf : ((T.ownCode n (T.callMachine g k)).machineLoop n.path g v).Returns
      ((T.ownCode n (T.callMachine g k)).start n.path g ⟨w, v, []⟩) f) {r : W × ℤ}
    (hr : result B n (.returned f) = some r) : ∃ k, (T.callMachine g k n).1 w v = some r := by
  obtain ⟨j, hj⟩ := hf
  have hext := T.ownCode_extends_of_le g (Nat.le_add_right k j) n
  refine ⟨k + j + 1, runMachine_eq_some_iff.mpr ⟨f, ?_, hr⟩⟩
  rw [show k + j + 1 = (k + 1) + j by omega, WhileLoop.after_add, hext.after_eq_returned hj,
    WhileLoop.after_returned]

end TreeCode

end FsmLang
