import Mathlib.Tactic
import FsmLang.ListRuns
import FsmLang.CSemantics.StableSorts

set_option relaxedAutoImplicit false
set_option autoImplicit false

/-!
# Ordered lists

`add_to_list_ordered` asks its order function whether the new member is less than that of an
element, places a new element before the first one for which it is, and counts the ordinals again.
If the list is in order, the new member comes after all those that are not greater.

## Main definitions

* `OrdersBy` — what the order function tells of two members.
* `addAllOrdered` — members added one after the other.

## Main results

* `Holds.exists_addToListOrdered_sorted` — one member added to a list that is in order.
* `addToListOrdered_stable` — the list stays in order, and members that are added one by one to an
  empty list are sorted, equal ones as they came.
-/

namespace FsmLang

open CSemantics

namespace Memory

/-- The order function tells whether the new member is less than that of the element, equal to it
or greater, in a total preorder of the members. -/
structure OrdersBy {μ : Type*} (orderFn : ListElement μ → Option μ → Order)
    (le : Option μ → Option μ → Bool) : Prop where
  trans : ∀ a b c, le a b = true → le b c = true → le a c = true
  total : ∀ a b, (le a b || le b a) = true
  lessThan : ∀ pelem x, orderFn pelem x = .lessThan ↔ le pelem.mbr x = false
  equalTo : ∀ pelem x, orderFn pelem x = .equalTo ↔ orderEq le pelem.mbr x = true
  greaterThan : ∀ pelem x, orderFn pelem x = .greaterThan ↔ le x pelem.mbr = false

variable {μ : Type*} [DecidableEq μ] {m m' : Memory μ} {l : ℕ} {as : List ℕ}
  {orderFn : ListElement μ → Option μ → Order} {le : Option μ → Option μ → Bool}
  (granted : ℕ → Bool)

/-- Add members to a list, one after the other. -/
def addAllOrdered (fuel : ℕ) (m : Memory μ) (plist : Option ℕ) (pmbrs : List (Option μ))
    (orderFn : ListElement μ → Option μ → Order) : Option (Memory μ) :=
  pmbrs.foldlM (fun m pmbr => (addToListOrdered granted fuel m plist pmbr orderFn).map Prod.fst) m

/-- The member `x` is in the list, after those that are not greater and before the others. -/
def InsertedAfterEqual (le : Option μ → Option μ → Bool) (x : Option μ)
    (mbrs mbrs' : List (Option μ)) : Prop :=
  ∃ before after, mbrs = before ++ after ∧ mbrs' = before ++ x :: after ∧
    (∀ y ∈ before, le y x = true) ∧ ∀ y ∈ after, le y x = false

omit [DecidableEq μ] in
/-- **Adding to a list that is in order.** If `calloc` returns memory, the new member is between
those that are not greater and the others. -/
lemma Holds.exists_addToListOrdered_sorted (hle : OrdersBy orderFn le) (h : m.Holds l as)
    {fuel : ℕ} (hfuel : as.length < fuel) (x : Option μ)
    (hsorted : (as.map m.mbr).Pairwise fun a b => le a b = true)
    (hgranted : granted m.callocs = true) :
    ∃ m' a as', addToListOrdered granted fuel m (some l) x orderFn = some (m', a) ∧
      m.Edits m' l as as' ∧ as'.length = as.length + 1 ∧
      InsertedAfterEqual le x (as.map m.mbr) (as'.map m'.mbr) := by
  obtain ⟨m', a, as', hadd, hedits, hplaces⟩ := h.exists_addToListOrdered granted hfuel x orderFn
  obtain ⟨done, rest, rfl, rfl, hmbr, hdone, hrest⟩ := hplaces hgranted
  refine ⟨m', a, _, hadd, hedits, ?_, done.map m.mbr, rest.map m.mbr, List.map_append, ?_, ?_, ?_⟩
  · simp only [List.length_append, List.length_cons]
    omega
  · have hsame := hedits.map_mbr h.allocated
    rw [List.map_append, List.map_append] at hsame
    obtain ⟨hd, hr⟩ := List.append_inj hsame (by simp)
    rw [List.map_append, List.map_cons, hd, hr, hmbr]
  · intro y hy
    obtain ⟨b, hb, rfl⟩ := List.mem_map.mp hy
    by_contra hby
    exact hdone b hb ((hle.lessThan (m.element b) x).mpr (Bool.not_eq_true _ ▸ hby))
  · rw [List.map_append] at hsorted
    refine not_le_of_head?_not_le hle.trans (List.pairwise_append.mp hsorted).2.1 ?_
    intro y hy
    rw [List.head?_map] at hy
    obtain ⟨b, hb, rfl⟩ := Option.mem_map.mp hy
    exact (hle.lessThan (m.element b) x).mp (hrest b hb)

section Inserted

variable {x : Option μ} {mbrs mbrs' xs : List (Option μ)}

omit [DecidableEq μ] in
/-- A sorted list stays sorted. -/
lemma InsertedAfterEqual.pairwise (hle : OrdersBy orderFn le)
    (h : InsertedAfterEqual le x mbrs mbrs') (hsorted : mbrs.Pairwise fun a b => le a b = true) :
    mbrs'.Pairwise fun a b => le a b = true := by
  obtain ⟨before, after, rfl, rfl, hbefore, hafter⟩ := h
  exact pairwise_insert hle.total hbefore hafter hsorted

omit [DecidableEq μ] in
/-- The list has one more member. -/
lemma InsertedAfterEqual.perm (h : InsertedAfterEqual le x mbrs mbrs') :
    mbrs'.Perm (x :: mbrs) := by
  obtain ⟨before, after, rfl, rfl, -, -⟩ := h
  exact List.perm_middle

omit [DecidableEq μ] in
/-- The list stays a stable sort of what has been added. -/
private lemma InsertedAfterEqual.isStableSort (hle : OrdersBy orderFn le)
    (h : InsertedAfterEqual le x mbrs mbrs') (hsort : IsStableSort le xs mbrs) :
    IsStableSort le (xs ++ [x]) mbrs' := by
  obtain ⟨before, after, rfl, rfl, hbefore, hafter⟩ := h
  exact hsort.insert hle.trans hle.total hbefore hafter

end Inserted

omit [DecidableEq μ] in
/-- **Members added one after the other.** The list holds the stable sort of what has been added. -/
lemma exists_addAllOrdered (hgranted : ∀ k, granted k = true) (hle : OrdersBy orderFn le)
    (h : m.Holds l []) (fuel : ℕ) (xs : List (Option μ)) (hfuel : xs.length ≤ fuel) :
    ∃ m' as', addAllOrdered granted fuel m (some l) xs orderFn = some m' ∧ m'.Holds l as' ∧
      as'.length = xs.length ∧ IsStableSort le xs (as'.map m'.mbr) := by
  induction xs using List.reverseRecOn with
  | nil => exact ⟨m, [], rfl, h, rfl, isStableSort_nil⟩
  | append_singleton xs x ih =>
    rw [List.length_append, List.length_singleton] at hfuel
    obtain ⟨m₁, as₁, hadd, hholds, hlen, hsort⟩ := ih (by omega)
    obtain ⟨m₂, a, as₂, hadd₂, hedits, hlen₂, hinserted⟩ :=
      hholds.exists_addToListOrdered_sorted granted hle (show as₁.length < fuel by omega) x
        hsort.sorted (hgranted _)
    refine ⟨m₂, as₂, ?_, hedits.holds, ?_, hinserted.isStableSort hle hsort⟩
    · rw [addAllOrdered] at hadd ⊢
      rw [List.foldlM_append, hadd]
      show ((addToListOrdered granted fuel m₁ (some l) x orderFn).map Prod.fst).bind _ = _
      rw [hadd₂]
      rfl
    · rw [hlen₂, hlen, List.length_append, List.length_singleton]

omit [DecidableEq μ] in
/-- **Ordered lists.** If a list is in order, it is so after a member has been added, with the new
member after all those that are equal to it, and with ordinals counted from zero. Members that are
added one by one to an empty list are sorted, and the sort is stable. -/
theorem addToListOrdered_stable (hgranted : ∀ k, granted k = true) (hle : OrdersBy orderFn le) :
    (∀ (m : Memory μ) l as x, m.Holds l as →
      (as.map m.mbr).Pairwise (fun a b => le a b = true) →
      ∃ fuel m' a as', addToListOrdered granted fuel m (some l) x orderFn = some (m', a) ∧
        m'.Holds l as' ∧ (as'.map m'.mbr).Pairwise (fun a b => le a b = true) ∧
        (as'.map m'.mbr).Perm (x :: as.map m.mbr) ∧
        InsertedAfterEqual le x (as.map m.mbr) (as'.map m'.mbr) ∧
        m'.count l = m.count l + 1 ∧ as'.map m'.ordinal = List.range (m'.count l)) ∧
    ∀ (m : Memory μ) l xs, m.Holds l [] →
      ∃ fuel m' as', addAllOrdered granted fuel m (some l) xs orderFn = some m' ∧ m'.Holds l as' ∧
        IsStableSort le xs (as'.map m'.mbr) ∧ as'.map m'.mbr = xs.mergeSort le := by
  constructor
  · intro m l as x h hsorted
    obtain ⟨m', a, as', hadd, hedits, hlen, hinserted⟩ :=
      h.exists_addToListOrdered_sorted granted hle (Nat.lt_succ_self _) x hsorted (hgranted _)
    refine ⟨_, m', a, as', hadd, hedits.holds, hinserted.pairwise hle hsorted, hinserted.perm,
      hinserted, ?_, ?_⟩
    · rw [hedits.holds.count, h.count, hlen]
    · rw [hedits.holds.count]
      exact hedits.holds.ordinals
  · intro m l xs h
    obtain ⟨m', as', hadd, hholds, -, hsort⟩ :=
      exists_addAllOrdered granted hgranted hle h xs.length xs le_rfl
    exact ⟨_, m', as', hadd, hholds, hsort, hsort.eq_mergeSort hle.trans hle.total⟩

/-- Numbers in the order of their tens. -/
def tensLe (a b : Option ℕ) : Bool := decide (a.getD 0 / 10 ≤ b.getD 0 / 10)

/-- The order function for `tensLe`. -/
def byTens (pelem : ListElement ℕ) (x : Option ℕ) : Order :=
  if x.getD 0 / 10 < pelem.mbr.getD 0 / 10 then .lessThan
  else if x.getD 0 / 10 = pelem.mbr.getD 0 / 10 then .equalTo
  else .greaterThan

/-- The order by tens is one. -/
lemma byTens_ordersBy : OrdersBy byTens tensLe where
  trans := by
    intro a b c hab hbc
    simp only [tensLe, decide_eq_true_eq] at hab hbc ⊢
    exact hab.trans hbc
  total := by
    intro a b
    simp only [tensLe, Bool.or_eq_true, decide_eq_true_eq]
    exact le_total _ _
  lessThan := by
    intro pelem x
    simp only [byTens, tensLe, decide_eq_false_iff_not]
    split_ifs <;> simp <;> omega
  equalTo := by
    intro pelem x
    simp only [byTens, tensLe, orderEq, Bool.and_eq_true, decide_eq_true_eq]
    split_ifs <;> simp <;> omega
  greaterThan := by
    intro pelem x
    simp only [byTens, tensLe, decide_eq_false_iff_not]
    split_ifs <;> simp <;> omega

/-- Two members with the same tens stay as they come. -/
theorem addToListOrdered_stable_byTens : ∃ fuel m' as',
    addAllOrdered (fun _ => true) fuel empty (some 0) [some 27, some 12, some 25] byTens =
      some m' ∧ m'.Holds 0 as' ∧ as'.map m'.mbr = [some 12, some 27, some 25] := by
  obtain ⟨fuel, m', as', hadd, hholds, -, hmembers⟩ :=
    (addToListOrdered_stable (fun _ => true) (fun _ => rfl) byTens_ordersBy).2 empty 0
      [some 27, some 12, some 25] (empty_holds 0)
  refine ⟨fuel, m', as', hadd, hholds, hmembers.trans ?_⟩
  have hinsert : ∀ {xs before after : List (Option ℕ)} (x : Option ℕ),
      IsStableSort tensLe xs (before ++ after) → (∀ b ∈ before, tensLe b x = true) →
      (∀ b ∈ after, tensLe b x = false) →
      IsStableSort tensLe (xs ++ [x]) (before ++ x :: after) := fun x h hbefore hafter =>
    h.insert byTens_ordersBy.trans byTens_ordersBy.total hbefore hafter
  have hfirst : IsStableSort tensLe ([] ++ [some 27]) ([] ++ [some 27]) :=
    hinsert (some 27) isStableSort_nil (by simp) (by simp)
  have hsecond : IsStableSort tensLe ([some 27] ++ [some 12]) ([some 12, some 27] ++ []) :=
    hinsert (some 12) hfirst (by simp) (by decide)
  have hthird : IsStableSort tensLe ([some 27, some 12] ++ [some 25])
      ([some 12, some 27] ++ [some 25]) := hinsert (some 25) hsecond (by decide) (by simp)
  exact (hthird.eq_mergeSort byTens_ordersBy.trans byTens_ordersBy.total).symm

end Memory

end FsmLang
