import Mathlib.Logic.Function.Basic
import Mathlib.Tactic
import FsmLang.EventNumbers

set_option relaxedAutoImplicit false
set_option autoImplicit false

/-!
# The sub-machine depth

Every machine has a counter `sub_machine_depth`, cleared when its prefix is parsed. The parser
bumps it, and those of all ancestors, when it reduces the first machine of the machine's list.
The counter of the top-level machine is taken for the depth of the tree.

The parser has reduced a machine's list before the machine itself is reduced. Hence every machine
with sub-machines bumps its own counter and those of all its ancestors, once, and a counter ends
as the number of machines with sub-machines in the machine's subtree, not as the number of levels
below it.

A machine is named here by its *lineage*, its path from the nearest step to the furthest, so that
the lineage of its parent is the tail.

## Main definitions

* `increaseSubMachineDepth`, `parseMachine`, `subMachineDepth` — the counters, as the parser
  leaves them.
* `Machine.height` — the number of levels below a machine.
* `Machine.LinearNest` — no machine has two sub-machines that have sub-machines.

## Main results

* `subMachineDepth_eq_internalCount` — what a counter ends as.
* `Machine.height_le_internalCount`, `Machine.internalCount_eq_height_iff` — when this is the
  height.
* `subMachineDepth_eq_height_iff` — the counters of a tree are the heights of its machines if and
  only if the nest is linear.
-/

namespace FsmLang

/-! ## The counters -/

/-- Bump the counter of a machine and those of all its ancestors. -/
def increaseSubMachineDepth (depth : List ℕ → ℕ) : List ℕ → List ℕ → ℕ
  | [] => Function.update depth [] (depth [] + 1)
  | k :: parent =>
    increaseSubMachineDepth (Function.update depth (k :: parent) (depth (k :: parent) + 1)) parent

mutual

/-- What parsing a machine does to the counters: what parsing its list does. -/
def parseMachine (lineage : List ℕ) : Machine → (List ℕ → ℕ) → List ℕ → ℕ
  | .mk _ ms, depth => parseMachineList lineage 0 ms depth

/-- What parsing the machines of a list, from the `i`-th on, does to the counters. The parent's
is bumped when the first one is reduced. -/
def parseMachineList (parent : List ℕ) (i : ℕ) : List Machine → (List ℕ → ℕ) → List ℕ → ℕ
  | [], depth => depth
  | m :: ms, depth =>
    let parsed := parseMachine (i :: parent) m depth
    parseMachineList parent (i + 1) ms
      (if i = 0 then increaseSubMachineDepth parsed parent else parsed)

end

/-- The counter of the machine at a path at the end of parsing. -/
def subMachineDepth (top : Machine) (path : List ℕ) : ℕ :=
  parseMachine [] top (fun _ => 0) path.reverse

/-- The depth of the tree, by the counter of the top-level machine. -/
def maxDepth (top : Machine) : ℕ := subMachineDepth top []

/-- Bumping adds one for the machine and its ancestors, whose lineages end its own. -/
lemma increaseSubMachineDepth_apply (depth : List ℕ → ℕ) (lineage x : List ℕ) :
    increaseSubMachineDepth depth lineage x = depth x + if x <:+ lineage then 1 else 0 := by
  induction lineage generalizing depth with
  | nil =>
    rw [increaseSubMachineDepth, Function.update_apply]
    by_cases hx : x = []
    · subst hx
      simp
    · simp [hx]
  | cons k parent ih =>
    rw [increaseSubMachineDepth, ih, Function.update_apply]
    by_cases hx : x = k :: parent
    · subst hx
      have hnot : ¬ (k :: parent) <:+ parent := by
        intro h
        simpa using h.length_le
      simp [hnot]
    · have hiff : x <:+ k :: parent ↔ x <:+ parent := by
        rw [List.suffix_cons_iff]
        simp [hx]
      simp [hx, hiff]

/-! ## Levels, and machines with sub-machines -/

mutual

/-- The number of levels of machines below a machine. -/
def Machine.height : Machine → ℕ
  | .mk _ ms => heightList ms

/-- The number of levels of a list of machines and those below them. -/
def heightList : List Machine → ℕ
  | [] => 0
  | m :: ms => max (m.height + 1) (heightList ms)

end

mutual

/-- The number of machines with sub-machines, of a machine and all below it. -/
def Machine.internalCount : Machine → ℕ
  | .mk _ ms => (if ms = [] then 0 else 1) + internalCountList ms

/-- The same for all machines of a list. -/
def internalCountList : List Machine → ℕ
  | [] => 0
  | m :: ms => m.internalCount + internalCountList ms

end

/-- The machines with sub-machines in a list are those of its members. -/
private lemma internalCountList_eq_sum (ms : List Machine) :
    internalCountList ms = (ms.map Machine.internalCount).sum := by
  induction ms with
  | nil => rfl
  | cons m ms ih => rw [internalCountList, ih, List.map_cons, List.sum_cons]

/-- A list of machines is one level higher than its highest member. -/
private lemma heightList_cons (m : Machine) (ms : List Machine) :
    heightList (m :: ms) = ((m :: ms).map Machine.height).foldr max 0 + 1 := by
  induction ms generalizing m with
  | nil => simp [heightList]
  | cons m' ms ih =>
    rw [heightList, ih m', List.map_cons (a := m), List.foldr_cons]
    omega

/-- No machine has sub-machines exactly if there are none. -/
private lemma internalCount_eq_zero_iff (m : Machine) :
    m.internalCount = 0 ↔ m.machineList = [] := by
  cases m with
  | mk info ms =>
    rw [Machine.internalCount, Machine.machineList_mk]
    constructor
    · intro h
      by_contra hms
      rw [if_neg hms] at h
      omega
    · intro h
      subst h
      rfl

/-! ## What the counters end as -/

mutual

/-- Parsing a machine bumps the counters of the machine and of its ancestors once for each machine
with sub-machines. -/
lemma parseMachine_of_suffix :
    ∀ (m : Machine) (lineage : List ℕ) (depth : List ℕ → ℕ) (x : List ℕ), x <:+ lineage →
      parseMachine lineage m depth x = depth x + m.internalCount
  | .mk info [], lineage, depth, x, hx => by
    simp [parseMachine, parseMachineList, Machine.internalCount, internalCountList]
  | .mk info (m :: ms), lineage, depth, x, hx => by
    have hm := parseMachine_of_suffix m (0 :: lineage) depth x
      (hx.trans (List.suffix_cons 0 lineage))
    rw [parseMachine, parseMachineList, if_pos rfl,
      parseMachineList_of_suffix ms lineage 1 _ x hx (by omega), increaseSubMachineDepth_apply,
      if_pos hx, hm, Machine.internalCount, if_neg (by simp), internalCountList]
    omega

/-- The same for the machines of a list after the first. -/
lemma parseMachineList_of_suffix :
    ∀ (ms : List Machine) (parent : List ℕ) (i : ℕ) (depth : List ℕ → ℕ) (x : List ℕ),
      x <:+ parent → i ≠ 0 →
        parseMachineList parent i ms depth x = depth x + internalCountList ms
  | [], parent, i, depth, x, _, _ => by simp [parseMachineList, internalCountList]
  | m :: ms, parent, i, depth, x, hx, hi => by
    have hm := parseMachine_of_suffix m (i :: parent) depth x (hx.trans (List.suffix_cons i parent))
    rw [parseMachineList, if_neg hi,
      parseMachineList_of_suffix ms parent (i + 1) _ x hx (by omega), hm, internalCountList]
    omega

end

mutual

/-- Parsing a machine bumps no counter but its own, its ancestors' and those of the machines below
it. -/
lemma parseMachine_of_unrelated :
    ∀ (m : Machine) (lineage : List ℕ) (depth : List ℕ → ℕ) (x : List ℕ), ¬ x <:+ lineage →
      ¬ lineage <:+ x → parseMachine lineage m depth x = depth x
  | .mk info ms, lineage, depth, x, hx, hx' => by
    rw [parseMachine]
    refine parseMachineList_of_unrelated ms lineage 0 depth x hx ?_
    intro j _ hj
    exact hx' ((List.suffix_cons j lineage).trans hj)

/-- Parsing the machines of a list, from the `i`-th on, leaves alone the counters of all machines
that are neither among their ancestors nor in one of their subtrees. -/
lemma parseMachineList_of_unrelated :
    ∀ (ms : List Machine) (parent : List ℕ) (i : ℕ) (depth : List ℕ → ℕ) (x : List ℕ),
      ¬ x <:+ parent → (∀ j, i ≤ j → ¬ (j :: parent) <:+ x) →
        parseMachineList parent i ms depth x = depth x
  | [], _, _, _, _, _, _ => by rw [parseMachineList]
  | m :: ms, parent, i, depth, x, hx, hbelow => by
    have hx' : ¬ x <:+ i :: parent := by
      intro h
      rcases List.suffix_cons_iff.mp h with h | h
      · exact hbelow i le_rfl (h ▸ List.suffix_refl x)
      · exact hx h
    have hm := parseMachine_of_unrelated m (i :: parent) depth x hx' (hbelow i le_rfl)
    rw [parseMachineList, parseMachineList_of_unrelated ms parent (i + 1) _ x hx
      (fun j hj => hbelow j (by omega))]
    split_ifs
    · rw [increaseSubMachineDepth_apply, if_neg hx, hm, Nat.add_zero]
    · exact hm

end

/-- The lineage of a machine below a sibling is not below this one. -/
lemma not_suffix_of_ne {i j : ℕ} (hij : i ≠ j) (p parent : List ℕ) :
    ¬ (j :: parent) <:+ p ++ i :: parent := by
  intro h
  have hi : (i :: parent) <:+ p ++ i :: parent := List.suffix_append _ _
  have hlen : (j :: parent).length = (i :: parent).length := rfl
  have heq := (List.suffix_of_suffix_length_le h hi hlen.le).eq_of_length hlen
  simp only [List.cons.injEq, and_true] at heq
  exact hij heq.symm

/-- No lineage is at or above the parent of its own last step. -/
lemma not_suffix_parent (p : List ℕ) (i : ℕ) (parent : List ℕ) :
    ¬ p ++ i :: parent <:+ parent := by
  intro h
  have hlen := h.length_le
  simp only [List.length_append, List.length_cons] at hlen
  omega

mutual

/-- The counter of a machine below the one that is parsed. -/
lemma parseMachine_sub? :
    ∀ (m : Machine) (lineage : List ℕ) (depth : List ℕ → ℕ) (p : List ℕ) (c : Machine),
      m.sub? p = some c →
        parseMachine lineage m depth (p.reverse ++ lineage) =
          depth (p.reverse ++ lineage) + c.internalCount
  | m, lineage, depth, [], c, hc => by
    obtain rfl : m = c := Option.some.inj hc
    exact parseMachine_of_suffix m lineage depth _ (List.suffix_refl lineage)
  | .mk info ms, lineage, depth, k :: p, c, hc => by
    rw [Machine.sub?_cons, Machine.machineList_mk, Option.bind_eq_some_iff] at hc
    obtain ⟨d, hd, hdc⟩ := hc
    have hlist := parseMachineList_sub? ms lineage 0 depth k p c d hd hdc
    rw [parseMachine, List.reverse_cons, List.append_assoc, List.singleton_append]
    rw [Nat.zero_add] at hlist
    exact hlist

/-- The same for the machines of a list, from the `i`-th on. -/
lemma parseMachineList_sub? :
    ∀ (ms : List Machine) (parent : List ℕ) (i : ℕ) (depth : List ℕ → ℕ) (k : ℕ) (p : List ℕ)
      (c d : Machine), ms[k]? = some d → d.sub? p = some c →
        parseMachineList parent i ms depth (p.reverse ++ (i + k) :: parent) =
          depth (p.reverse ++ (i + k) :: parent) + c.internalCount
  | [], _, _, _, k, _, _, d, hd, _ => by simp at hd
  | m :: ms, parent, i, depth, 0, p, c, d, hd, hdc => by
    obtain rfl : m = d := by simpa using hd
    rw [Nat.add_zero, parseMachineList, parseMachineList_of_unrelated ms parent (i + 1) _ _
      (not_suffix_parent p.reverse i parent)
      (fun j hj => not_suffix_of_ne (by omega) p.reverse parent)]
    have hm := parseMachine_sub? m (i :: parent) depth p c hdc
    split_ifs
    · rw [increaseSubMachineDepth_apply, if_neg (not_suffix_parent _ _ _), Nat.add_zero, hm]
    · exact hm
  | m :: ms, parent, i, depth, k + 1, p, c, d, hd, hdc => by
    have hlist := parseMachineList_sub? ms parent (i + 1)
      (if i = 0 then increaseSubMachineDepth (parseMachine (i :: parent) m depth) parent
        else parseMachine (i :: parent) m depth) k p c d (by simpa using hd) hdc
    rw [show i + 1 + k = i + (k + 1) by omega] at hlist
    -- the machines before it leave its counter alone
    have hm : parseMachine (i :: parent) m depth (p.reverse ++ (i + (k + 1)) :: parent) =
        depth (p.reverse ++ (i + (k + 1)) :: parent) := by
      refine parseMachine_of_unrelated m (i :: parent) depth _ ?_ ?_
      · intro h
        rcases List.suffix_cons_iff.mp h with h | h
        · refine not_suffix_of_ne (i := i + (k + 1)) (j := i) (by omega) p.reverse parent ?_
          rw [h]
        · exact not_suffix_parent _ _ _ h
      · exact not_suffix_of_ne (by omega) p.reverse parent
    rw [parseMachineList, hlist]
    split_ifs
    · rw [increaseSubMachineDepth_apply, if_neg (not_suffix_parent _ _ _), Nat.add_zero, hm]
    · rw [hm]

end

/-- **The counters.** At the end of parsing a machine's counter is the number of machines with
sub-machines in its subtree. -/
theorem subMachineDepth_eq_internalCount {top c : Machine} {path : List ℕ}
    (hc : top.sub? path = some c) : subMachineDepth top path = c.internalCount := by
  have h := parseMachine_sub? top [] (fun _ => 0) path c hc
  rw [List.append_nil, Nat.zero_add] at h
  exact h

/-! ## When this is the height -/

/-- A maximum is at most the sum. -/
lemma foldr_max_le_sum {α : Type*} (l : List α) (h a : α → ℕ) (hle : ∀ x ∈ l, h x ≤ a x) :
    (l.map h).foldr max 0 ≤ (l.map a).sum := by
  induction l with
  | nil => simp
  | cons x l ih =>
    have hx := hle x List.mem_cons_self
    have hl := ih fun y hy => hle y (List.mem_cons_of_mem x hy)
    rw [List.map_cons, List.map_cons, List.foldr_cons, List.sum_cons]
    omega

/-- A sum is the maximum of lower bounds of its terms if and only if the bounds are met and at
most one term is not zero. -/
private lemma sum_eq_foldr_max_iff {α : Type*} (l : List α) (h a : α → ℕ)
    (hle : ∀ x ∈ l, h x ≤ a x) :
    (l.map a).sum = (l.map h).foldr max 0 ↔
      l.countP (fun x => a x ≠ 0) ≤ 1 ∧ ∀ x ∈ l, a x = h x := by
  induction l with
  | nil => simp
  | cons x l ih =>
    have hx := hle x List.mem_cons_self
    have hl : ∀ y ∈ l, h y ≤ a y := fun y hy => hle y (List.mem_cons_of_mem x hy)
    have hmax := foldr_max_le_sum l h a hl
    have ih := ih hl
    rw [List.map_cons, List.map_cons, List.foldr_cons, List.sum_cons, List.forall_mem_cons]
    by_cases hzero : a x = 0
    · have hcount : (x :: l).countP (fun x => a x ≠ 0) = l.countP (fun x => a x ≠ 0) := by
        rw [List.countP_cons_of_neg]
        simp [hzero]
      rw [hcount]
      constructor
      · intro heq
        obtain ⟨hone, hall⟩ := ih.mp (by omega)
        exact ⟨hone, by omega, hall⟩
      · intro hor
        have := ih.mpr ⟨hor.1, hor.2.2⟩
        omega
    · have hcount : (x :: l).countP (fun x => a x ≠ 0) = l.countP (fun x => a x ≠ 0) + 1 := by
        rw [List.countP_cons_of_pos]
        simp [hzero]
      -- with `x` there is room for no other term
      have hnone : l.countP (fun x => a x ≠ 0) = 0 ↔ (l.map a).sum = 0 := by
        rw [List.countP_eq_zero, List.sum_eq_zero_iff_forall_eq_nat]
        simp
      rw [hcount]
      constructor
      · intro heq
        have hsum : (l.map a).sum = 0 := by omega
        have hall : ∀ y ∈ l, a y = h y := by
          intro y hy
          have hzero : a y = 0 := by
            rw [List.sum_eq_zero_iff_forall_eq_nat] at hsum
            exact hsum _ (List.mem_map_of_mem hy)
          have := hl y hy
          omega
        exact ⟨by rw [hnone.mpr hsum], by omega, hall⟩
      · intro hor
        have hsum := hnone.mp (by omega)
        have := hor.2.1
        omega

/-- No machine of the tree has two sub-machines that have sub-machines. -/
def Machine.LinearNest (m : Machine) : Prop :=
  ∀ p c, m.sub? p = some c → c.machineList.countP (fun d => d.machineList ≠ []) ≤ 1

/-- A nest is linear if its topmost machine has at most one sub-machine with sub-machines, and all
its sub-machines are linear nests. -/
lemma Machine.linearNest_iff (m : Machine) :
    m.LinearNest ↔ m.machineList.countP (fun d => d.machineList ≠ []) ≤ 1 ∧
      ∀ c ∈ m.machineList, c.LinearNest := by
  constructor
  · intro h
    refine ⟨h [] m rfl, ?_⟩
    intro c hc p d hd
    obtain ⟨k, hk⟩ := List.getElem?_of_mem hc
    refine h (k :: p) d ?_
    rw [sub?_cons, hk]
    exact hd
  · intro h p c hc
    cases p with
    | nil =>
      obtain rfl : m = c := Option.some.inj hc
      exact h.1
    | cons k p =>
      rw [sub?_cons, Option.bind_eq_some_iff] at hc
      obtain ⟨d, hd, hdc⟩ := hc
      exact h.2 d (List.mem_of_getElem? hd) p c hdc

mutual

/-- There are at least as many machines with sub-machines as levels, and as many only in a linear
nest. -/
lemma Machine.height_spec :
    ∀ m : Machine, m.height ≤ m.internalCount ∧ (m.internalCount = m.height ↔ m.LinearNest)
  | .mk info [] => by
    refine ⟨by simp [Machine.height, heightList], ?_⟩
    rw [Machine.linearNest_iff]
    simp [Machine.height, heightList, Machine.internalCount, internalCountList]
  | .mk info (m :: ms) => by
    have hlist := height_spec_list (m :: ms)
    have hle := foldr_max_le_sum (m :: ms) Machine.height Machine.internalCount
      fun c hc => (hlist c hc).1
    have hiff := sum_eq_foldr_max_iff (m :: ms) Machine.height Machine.internalCount
      fun c hc => (hlist c hc).1
    rw [Machine.height, heightList_cons, Machine.internalCount, if_neg (by simp),
      internalCountList_eq_sum, Machine.linearNest_iff, Machine.machineList_mk]
    refine ⟨by omega, ?_⟩
    have hcount : ((m :: ms).countP fun c => c.internalCount ≠ 0) =
        (m :: ms).countP fun c => c.machineList ≠ [] := by
      apply List.countP_congr
      intro c _
      simp [internalCount_eq_zero_iff]
    rw [hcount] at hiff
    calc 1 + ((m :: ms).map Machine.internalCount).sum =
          ((m :: ms).map Machine.height).foldr max 0 + 1
        ↔ ((m :: ms).map Machine.internalCount).sum =
          ((m :: ms).map Machine.height).foldr max 0 := by omega
      _ ↔ _ := hiff
      _ ↔ _ := and_congr_right fun _ => forall₂_congr fun c hc => (hlist c hc).2

/-- The same for all machines of a list. -/
lemma height_spec_list :
    ∀ ms : List Machine, ∀ c ∈ ms,
      c.height ≤ c.internalCount ∧ (c.internalCount = c.height ↔ c.LinearNest)
  | [], _, hc => by simp at hc
  | m :: ms, c, hc => by
    rcases List.mem_cons.mp hc with h | h
    · rw [h]
      exact m.height_spec
    · exact height_spec_list ms c h

end

/-- A machine's counter is its height if and only if its nest is linear. -/
lemma subMachineDepth_eq_height_iff_linearNest {top c : Machine} {path : List ℕ}
    (hc : top.sub? path = some c) :
    subMachineDepth top path = c.height ↔ c.LinearNest := by
  rw [subMachineDepth_eq_internalCount hc]
  exact c.height_spec.2

/-- **The depth of a tree.** The counters of a tree's machines are the numbers of levels below
them if and only if no machine of the tree has two sub-machines that have sub-machines.

**Proof sketch.** A counter ends as the number of machines with sub-machines in the subtree. Two
such machines below the same one, in different sub-machines, share a level; without them there is
exactly one such machine on each level but the last. -/
theorem subMachineDepth_eq_height_iff (top : Machine) :
    (∀ path c, top.sub? path = some c → subMachineDepth top path = c.height) ↔
      top.LinearNest := by
  constructor
  · intro h
    exact (subMachineDepth_eq_height_iff_linearNest rfl).mp (h [] top rfl)
  · intro h path c hc
    refine (subMachineDepth_eq_height_iff_linearNest hc).mpr ?_
    intro p d hd
    refine h (path ++ p) d ?_
    rw [Machine.sub?_append, hc]
    exact hd

/-- Two machines that have a sub-machine each, below one machine. -/
def twoNests : Machine :=
  plainMachine "top" "t" "s" [plainMachine "a" "x" "s" [plainMachine "c" "w" "s" []],
    plainMachine "b" "y" "s" [plainMachine "d" "z" "s" []]]

/-- The depth of a tree with two levels of machines below the top-level machine is counted as
three. -/
theorem subMachineDepth_twoNests :
    twoNests.Accepted ∧ twoNests.height = 2 ∧ subMachineDepth twoNests [] = 3 ∧
      ¬ ∀ path c, twoNests.sub? path = some c → subMachineDepth twoNests path = c.height := by
  have hheight : twoNests.height = 2 := by decide
  have hdepth : subMachineDepth twoNests [] = 3 := by
    rw [subMachineDepth_eq_internalCount rfl]
    decide
  refine ⟨by simp [twoNests, plainMachine, Machine.Accepted, Machine.AcceptedList], hheight,
    hdepth, ?_⟩
  intro h
  have := h [] twoNests rfl
  omega

end FsmLang
