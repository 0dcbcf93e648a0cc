import Mathlib.Data.Int.ModEq
import Mathlib.Data.Nat.Size
import Mathlib.Tactic
import FsmLang.CSemantics.BitPacking
import FsmLang.EventNumbers

set_option relaxedAutoImplicit false
set_option autoImplicit false

/-!
# The key of the single-switch machine

The single-switch generator dispatches on `COMBINE(event, state)`. For the top-level machine
the macro shifts the event by `sizeof(unsigned long long)/2` in a word of that type: `sizeof`
counts bytes, so the shift is four bits. For a sub-machine it shifts by sixteen bits in an
`int`, whose value the `switch` compares modulo `2 ^ 32`.

## Main definitions

* `printStateEnum` — the state enumeration.
* `combine` — the macro of the machine at a path.
* `CombineSeparates` — different cells of the machine have different keys.
* `KeysFit` — the condition on the numbers of states and the event values.

## Main results

* `exists_combineSeparates_iff` — the cells are told apart exactly when `KeysFit`.
* `keysFit_top_iff` — for a top-level machine without external designations: a single event,
  or at most sixteen states.
-/

namespace FsmLang

open CSemantics

/-! ## States -/

/-- The state enumeration: the states by ordinal, none with an initializer. -/
def printStateEnum (m : Machine) : List (EnumItem ℕ) :=
  (List.range m.stateList.length).map fun i => ⟨i, .implicit⟩

/-- The value C gives the `a`-th state. -/
def stateValue (m : Machine) (a : ℕ) : Option ℤ :=
  (EnumScope.empty.declareAll (printStateEnum m)).bind (·.valueOf a)

/-- A state's value is its ordinal. -/
lemma stateValue_eq {m : Machine} {a : ℕ} (ha : a < m.stateList.length) :
    stateValue m a = some (a : ℤ) := by
  have hnd : ((EnumScope.empty : EnumScope ℕ).bound.map Prod.fst ++
      List.range m.stateList.length).Nodup := List.nodup_range
  have hall := EnumScope.declareAll_implicit hnd
  have hwf := EnumScope.declareAll_wellFormed EnumScope.empty_wellFormed hall
  rw [stateValue, printStateEnum, hall, Option.bind_some, EnumScope.valueOf_eq_some_iff hwf]
  exact (mem_numberFrom _ _ _ _).mpr ⟨a, by simp [ha], by simp [EnumScope.empty]⟩

/-! ## The macro -/

/-- The macro emitted for the top-level machine; `sizeof(unsigned long long)` is eight. -/
def combineTop (E S : ℤ) : BitVec 64 := pack 64 (8 / 2) E S

/-- The macro emitted for a sub-machine. -/
def combineSub (E S : ℤ) : BitVec 32 := pack 32 16 E S

/-- The value of the macro of the machine at `path`. -/
def combine : List ℕ → ℤ → ℤ → ℕ
  | [], E, S => (combineTop E S).toNat
  | _ :: _, E, S => (combineSub E S).toNat

/-- The width of the macro's word. -/
def combineWidth : List ℕ → ℕ
  | [] => 64
  | _ :: _ => 32

/-- The macro's shift. -/
def combineShift : List ℕ → ℕ
  | [] => 4
  | _ :: _ => 16

/-- Equal values of the macro are equal packed words. -/
lemma combine_eq_iff (path : List ℕ) (E S E' S' : ℤ) :
    combine path E S = combine path E' S' ↔
      pack (combineWidth path) (combineShift path) E S =
        pack (combineWidth path) (combineShift path) E' S' := by
  cases path with
  | nil => exact BitVec.toNat_inj (x := combineTop E S) (y := combineTop E' S')
  | cons k q => exact BitVec.toNat_inj (x := combineSub E S) (y := combineSub E' S')

/-- Different cells of the machine `m` at `path` have different keys. -/
def CombineSeparates (s : EnumScope Enumerator) (path : List ℕ) (m : Machine) : Prop :=
  ∀ i j a b v w x y, i < m.eventList.length → j < m.eventList.length →
    a < m.stateList.length → b < m.stateList.length →
    s.valueOf ⟨path, .event i⟩ = some v → s.valueOf ⟨path, .event j⟩ = some w →
    stateValue m a = some x → stateValue m b = some y →
    combine path v x = combine path w y → i = j ∧ a = b

/-- The states fit in the word; every event value, shifted, ends in as many zeros as the
largest state value has bits; and different events have different values modulo the bits the
shift keeps. -/
def KeysFit (s : EnumScope Enumerator) (path : List ℕ) (m : Machine) : Prop :=
  m.stateList.length ≤ 2 ^ combineWidth path ∧
    (∀ i < m.eventList.length, ∀ v, s.valueOf ⟨path, .event i⟩ = some v →
      (2 : ℤ) ^ (m.stateList.length - 1).size ∣ v * 2 ^ combineShift path) ∧
    ∀ i < m.eventList.length, ∀ j < m.eventList.length, ∀ v w,
      s.valueOf ⟨path, .event i⟩ = some v → s.valueOf ⟨path, .event j⟩ = some w →
      v ≡ w [ZMOD 2 ^ (combineWidth path - combineShift path)] → i = j

/-! ## Separation -/

/-- The events of every machine of the tree are enumerators. -/
private lemma exists_valueOf_event {compactActionArray : Bool} {designated : String → ℤ}
    {top : Machine} (htop : top.Accepted) {s : EnumScope Enumerator}
    (hs : eventEnum compactActionArray designated top = some s) {path : List ℕ} {m : Machine}
    (hm : top.sub? path = some m) {i : ℕ} (hi : i < m.eventList.length) :
    ∃ v, s.valueOf ⟨path, .event i⟩ = some v := by
  cases path with
  | nil =>
    obtain rfl := Option.some.inj hm
    obtain ⟨own, b, v, hown, hs'⟩ := exists_eventEnum compactActionArray designated htop
    obtain rfl := Option.some.inj (hs'.symm.trans hs)
    have hname : (⟨[], .event i⟩ : Enumerator) ∈ own.map Prod.fst := by
      rw [hown]
      cases i with
      | zero => simp [topNames]
      | succ i =>
        simp only [topNames, laterEventNames, List.mem_cons, List.mem_append, List.mem_map]
        exact .inr (.inr (.inl ⟨i, List.mem_range.mpr (by omega), rfl⟩))
    obtain ⟨⟨_, w⟩, hw, rfl⟩ := List.mem_map.mp hname
    refine ⟨w, (EnumScope.valueOf_eq_some_iff (eventEnum_wellFormed hs')).mpr ?_⟩
    exact List.mem_append_left _ (List.mem_append_left _ hw)
  | cons k q =>
    obtain ⟨s', b, hs', hvals⟩ := exists_valueOf_eventEnum compactActionArray designated htop
    obtain rfl := Option.some.inj (hs'.symm.trans hs)
    obtain ⟨c, hc, hcq⟩ := Option.bind_eq_some_iff.mp hm
    have hloc := locate_map_fst c (nextValueList (top.machineList.take k) b) q
    rw [hcq] at hloc
    obtain ⟨⟨m', b'⟩, hb', rfl⟩ := Option.map_eq_some_iff.mp hloc
    refine ⟨b' + i, ?_⟩
    rw [hvals k q, locateBelow, hc, Option.bind_some, hb', Option.bind_some, Machine.ownValue,
      if_pos hi]

/-- **The key of the single-switch machine.** `COMBINE` tells the cells of a machine apart
exactly when the event values and the number of states fit its word and its shift. -/
theorem exists_combineSeparates_iff (compactActionArray : Bool) (designated : String → ℤ)
    {top : Machine} (htop : top.Accepted) {path : List ℕ} {m : Machine}
    (hm : top.sub? path = some m) :
    ∃ s, eventEnum compactActionArray designated top = some s ∧
      (CombineSeparates s path m ↔ KeysFit s path m) := by
  obtain ⟨own, b, last, -, hs⟩ := exists_eventEnum compactActionArray designated htop
  refine ⟨_, hs, ?_⟩
  set s : EnumScope Enumerator := ⟨_, _⟩
  obtain ⟨hevents, hstates, -⟩ := m.accepted_iff.mp (htop.sub? hm)
  have : Nonempty (Fin m.eventList.length) := ⟨0, List.length_pos_of_ne_nil hevents⟩
  choose V hV using fun i : Fin m.eventList.length => exists_valueOf_event htop hs hm i.isLt
  have hk : combineShift path ≤ combineWidth path := by
    cases path <;> simp [combineShift, combineWidth]
  have hpack := pack_injective_iff hk (List.length_pos_of_ne_nil hstates) V
  -- the value of an event is the value chosen for it
  have hval : ∀ (i : Fin m.eventList.length) v, s.valueOf ⟨path, .event i⟩ = some v → v = V i :=
    fun i v hv => Option.some.inj (hv.symm.trans (hV i))
  have hleft : CombineSeparates s path m ↔ ∀ i j, ∀ a < m.stateList.length,
      ∀ b < m.stateList.length, pack (combineWidth path) (combineShift path) (V i) (a : ℕ) =
        pack (combineWidth path) (combineShift path) (V j) (b : ℕ) → i = j ∧ a = b := by
    constructor
    · intro h i j a ha b hb hab
      obtain ⟨hij, hab⟩ := h i j a b (V i) (V j) a b i.isLt j.isLt ha hb (hV i) (hV j)
        (stateValue_eq ha) (stateValue_eq hb) ((combine_eq_iff _ _ _ _ _).mpr hab)
      exact ⟨Fin.ext hij, hab⟩
    · intro h i j a b v w x y hi hj ha hb hv hw hx hy hab
      obtain rfl := hval ⟨i, hi⟩ v hv
      obtain rfl := hval ⟨j, hj⟩ w hw
      obtain rfl := Option.some.inj ((stateValue_eq ha).symm.trans hx)
      obtain rfl := Option.some.inj ((stateValue_eq hb).symm.trans hy)
      obtain ⟨hij, hab⟩ := h ⟨i, hi⟩ ⟨j, hj⟩ a ha b hb ((combine_eq_iff _ _ _ _ _).mp hab)
      exact ⟨congrArg Fin.val hij, hab⟩
  rw [hleft, hpack, KeysFit]
  constructor
  · rintro ⟨hfits, hdvd, hkeys⟩
    refine ⟨hfits, ?_, ?_⟩
    · intro i hi v hv
      exact hval ⟨i, hi⟩ v hv ▸ hdvd ⟨i, hi⟩
    · intro i hi j hj v w hv hw hvw
      obtain rfl := hval ⟨i, hi⟩ v hv
      obtain rfl := hval ⟨j, hj⟩ w hw
      exact congrArg Fin.val (hkeys ⟨i, hi⟩ ⟨j, hj⟩ hvw)
  · rintro ⟨hfits, hdvd, hkeys⟩
    refine ⟨hfits, fun i => hdvd i i.isLt (V i) (hV i), ?_⟩
    intro i j hij
    exact Fin.ext (hkeys i i.isLt j j.isLt (V i) (V j) (hV i) (hV j) hij)

/-- Unless external designations are used the events of the top-level machine count from zero. -/
lemma valueOf_top_event_of_not_assigned {compactActionArray : Bool} (designated : String → ℤ)
    {top : Machine} (htop : top.Accepted)
    (hassign : assignExternalEventValues compactActionArray top = false)
    {s : EnumScope Enumerator} (hs : eventEnum compactActionArray designated top = some s)
    {i : ℕ} (hi : i < top.eventList.length) : s.valueOf ⟨[], .event i⟩ = some (i : ℤ) := by
  obtain ⟨v, hv⟩ := eventEnum_of_noExternal designated htop hassign
  obtain rfl := Option.some.inj (hv.symm.trans hs)
  have hmem : ((⟨[], .event i⟩ : Enumerator), (i : ℤ)) ∈ slots (topValues top) := by
    rw [slots_topValues (top.accepted_iff.mp htop).1, mem_numberFrom]
    refine ⟨i, ?_, by simp⟩
    rw [topSlotNames, List.getElem?_append_left (by simpa [eventNames] using hi)]
    simp [eventNames, hi]
  rw [EnumScope.valueOf_eq_some_iff (eventEnum_wellFormed hv)]
  exact List.mem_append_left _ (List.mem_append_left _ (List.mem_filter.mp hmem).1)

/-- Without external designations the events of the top-level machine count from zero. -/
lemma valueOf_top_event {compactActionArray : Bool} (designated : String → ℤ) {top : Machine}
    (htop : top.Accepted) (hext : externalEventDesignationCount top = 0)
    {s : EnumScope Enumerator} (hs : eventEnum compactActionArray designated top = some s)
    {i : ℕ} (hi : i < top.eventList.length) : s.valueOf ⟨[], .event i⟩ = some (i : ℤ) :=
  valueOf_top_event_of_not_assigned designated htop (assignExternalEventValues_eq_false htop hext)
    hs hi

/-- **Small top-level machines.** Without external designations, the cells of a top-level
machine with several events are told apart only if it has at most sixteen states. -/
theorem keysFit_top_iff {compactActionArray : Bool} (designated : String → ℤ) {top : Machine}
    (htop : top.Accepted) (hext : externalEventDesignationCount top = 0)
    {s : EnumScope Enumerator} (hs : eventEnum compactActionArray designated top = some s) :
    KeysFit s [] top ↔
      (top.eventList.length = 1 ∧ top.stateList.length ≤ 2 ^ 64) ∨
        (top.eventList.length ≤ 2 ^ 60 ∧ top.stateList.length ≤ 16) := by
  have hval : ∀ i < top.eventList.length, s.valueOf ⟨[], .event i⟩ = some (i : ℤ) :=
    fun i hi => valueOf_top_event designated htop hext hs hi
  have hpos : 0 < top.eventList.length :=
    List.length_pos_of_ne_nil (top.accepted_iff.mp htop).1
  constructor
  · rintro ⟨hfits, hdvd, hkeys⟩
    by_cases hone : top.eventList.length = 1
    · exact .inl ⟨hone, hfits⟩
    · right
      constructor
      · by_contra hmany
        have := hkeys (2 ^ 60) (by omega) 0 hpos _ _ (hval _ (by omega)) (hval 0 hpos)
          (by norm_num [combineWidth, combineShift, Int.ModEq])
        omega
      · have htwo := hdvd 1 (by omega) _ (hval 1 (by omega))
        rw [Nat.cast_one, one_mul] at htwo
        have hsize := (Nat.pow_dvd_pow_iff_le_right (by omega)).mp
          (Int.natCast_dvd_natCast.mp (by exact_mod_cast htwo) :
            2 ^ (top.stateList.length - 1).size ∣ 2 ^ combineShift [])
        have := Nat.size_le.mp hsize
        simp only [combineShift] at this
        omega
  · intro h
    have hfits : top.stateList.length ≤ 2 ^ combineWidth [] := by
      simp only [combineWidth]
      omega
    refine ⟨hfits, ?_, ?_⟩
    · intro i hi v hv
      obtain rfl := Option.some.inj ((hval i hi).symm.trans hv)
      rcases h with h | h
      · obtain rfl : i = 0 := by omega
        simp
      · have hsize : (top.stateList.length - 1).size ≤ 4 := Nat.size_le.mpr (by omega)
        exact (pow_dvd_pow 2 hsize).mul_left _
    · intro i hi j hj v w hv hw hvw
      obtain rfl := Option.some.inj ((hval i hi).symm.trans hv)
      obtain rfl := Option.some.inj ((hval j hj).symm.trans hw)
      rcases h with h | h
      · omega
      · have hlt : ∀ k < top.eventList.length, (k : ℤ) % 2 ^ 60 = k := fun k hk =>
          Int.emod_eq_of_lt (by omega) (by omega)
        have : (i : ℤ) % 2 ^ 60 = j % 2 ^ 60 := hvw
        rw [hlt i hi, hlt j hj] at this
        omega

/-- A flat machine with two events and seventeen states. -/
def seventeenStates : Machine :=
  .mk { name := "m", eventList := [{ name := "e0" }, { name := "e1" }],
        stateList := (List.range 17).map fun i => { name := "s" ++ toString i } } []

/-- The first event in the last state and the second event in the first state have the same
key. -/
theorem not_combineSeparates_seventeenStates :
    ¬ ∀ top : Machine, top.Accepted → ∀ path m, top.sub? path = some m →
      ∃ s, eventEnum false (fun _ => 0) top = some s ∧ CombineSeparates s path m := by
  intro h
  obtain ⟨s, hs, hsep⟩ := h seventeenStates
    (by simp [seventeenStates, Machine.Accepted, Machine.AcceptedList]) [] seventeenStates rfl
  have h₀ : (eventEnum false (fun _ => 0) seventeenStates).bind
      (·.valueOf ⟨[], .event 0⟩) = some 0 := by decide
  have h₁ : (eventEnum false (fun _ => 0) seventeenStates).bind
      (·.valueOf ⟨[], .event 1⟩) = some 1 := by decide
  rw [hs] at h₀ h₁
  have hlen : seventeenStates.stateList.length = 17 := by simp [seventeenStates]
  obtain ⟨hij, -⟩ := hsep 0 1 16 0 0 1 16 0 (by decide) (by decide) (by omega) (by omega) h₀ h₁
    (stateValue_eq (by omega)) (stateValue_eq (by omega)) (by decide)
  omega

/-- A sub-machine with two events and three states. -/
def threeStatesSub : Machine :=
  .mk { name := "A", eventList := [{ name := "ea" }, { name := "eb" }],
        stateList := [{ name := "s0" }, { name := "s1" }, { name := "s2" }] } []

/-- Its event values, three and four, are different modulo the bits that the shift keeps, and end in
zeros where the states are. -/
private lemma keysFit_threeStatesSub {s : EnumScope Enumerator}
    (hs : eventEnum false (fun _ => 0) (plainMachine "top" "e" "s" [threeStatesSub]) = some s) :
    KeysFit s [0] threeStatesSub := by
  have hea : (eventEnum false (fun _ => 0) (plainMachine "top" "e" "s" [threeStatesSub])).bind
      (·.valueOf ⟨[0], .event 0⟩) = some 3 := by decide
  have heb : (eventEnum false (fun _ => 0) (plainMachine "top" "e" "s" [threeStatesSub])).bind
      (·.valueOf ⟨[0], .event 1⟩) = some 4 := by decide
  rw [hs] at hea heb
  have hvalue : ∀ i < 2, ∀ v, s.valueOf ⟨[0], .event i⟩ = some v → v = 3 + i := by
    intro i hi v hv
    rcases (by omega : i = 0 ∨ i = 1) with rfl | rfl
    · exact Option.some.inj (hv.symm.trans hea)
    · exact Option.some.inj (hv.symm.trans heb)
  refine ⟨by decide, ?_, ?_⟩
  · intro i _ v _
    exact (by decide : (2 : ℤ) ^ (threeStatesSub.stateList.length - 1).size ∣
      2 ^ combineShift [0]).mul_left v
  · intro i hi j hj v w hv hw hvw
    rw [show threeStatesSub.eventList.length = 2 from rfl] at hi hj
    rw [hvalue i hi v hv, hvalue j hj w hw] at hvw
    rcases (by omega : i = 0 ∨ i = 1) with rfl | rfl <;>
      rcases (by omega : j = 0 ∨ j = 1) with rfl | rfl <;> revert hvw <;> decide

/-- The cells of the sub-machine are told apart. -/
theorem exists_combineSeparates_threeStatesSub :
    ∃ s, eventEnum false (fun _ => 0) (plainMachine "top" "e" "s" [threeStatesSub]) = some s ∧
      CombineSeparates s [0] threeStatesSub := by
  have haccepted : (plainMachine "top" "e" "s" [threeStatesSub]).Accepted := by
    simp [threeStatesSub, plainMachine, Machine.Accepted, Machine.AcceptedList]
  have hsub : (plainMachine "top" "e" "s" [threeStatesSub]).sub? [0] = some threeStatesSub := rfl
  obtain ⟨s, hs, hiff⟩ := exists_combineSeparates_iff false (fun _ => 0) haccepted hsub
  exact ⟨s, hs, hiff.mpr (keysFit_threeStatesSub hs)⟩

end FsmLang
