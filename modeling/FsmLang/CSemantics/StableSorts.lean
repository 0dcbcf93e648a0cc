import Mathlib.Data.List.Basic
import Mathlib.Tactic

set_option relaxedAutoImplicit false
set_option autoImplicit false

/-!
# Stable sorts

A stable sort of a list holds its members in order, and those that are equal in the order come
as they do in the list. It is unique: the first member of a sort is the first one of the smallest
ones.

The sort can be built by inserting the members one after the other, each of them after all those
that are not greater.

## Main definitions

* `IsStableSort` — the list is the stable sort of another one.

## Main results

* `IsStableSort.insert` — insertion of one more member.
* `IsStableSort.eq_mergeSort` — it is what `List.mergeSort` computes.
-/

namespace CSemantics

variable {α : Type*} {le : α → α → Bool}

/-- Neither of two members is less than the other. -/
def orderEq (le : α → α → Bool) (a b : α) : Bool := le a b && le b a

/-- The members of `xs` in order, those that are equal in it as they come in `xs`. -/
structure IsStableSort (le : α → α → Bool) (xs ys : List α) : Prop where
  sorted : ys.Pairwise fun a b => le a b = true
  perm : ys.Perm xs
  stable : ∀ a, ys.filter (orderEq le a) = xs.filter (orderEq le a)

/-- Nothing is sorted into nothing. -/
lemma isStableSort_nil : IsStableSort le [] [] where
  sorted := .nil
  perm := .nil
  stable := fun _ => rfl

section Preorder

variable (htrans : ∀ a b c, le a b = true → le b c = true → le a c = true)
  (htotal : ∀ a b, (le a b || le b a) = true)

include htotal in
/-- Of two members one comes before the other. -/
lemma le_of_not_le {a b : α} (h : le a b = false) : le b a = true := by
  have hab := htotal a b
  rwa [h, Bool.false_or] at hab

include htrans in
/-- If the first member from some place on is greater, so are the ones after it. -/
lemma not_le_of_head?_not_le {x : α} {rest : List α}
    (hsorted : rest.Pairwise fun a b => le a b = true)
    (hhead : ∀ b ∈ rest.head?, le b x = false) : ∀ b ∈ rest, le b x = false := by
  cases rest with
  | nil => exact fun b hb => absurd hb List.not_mem_nil
  | cons c rest =>
    have hc : le c x = false := hhead c rfl
    intro b hb
    rcases List.mem_cons.mp hb with rfl | hb
    · exact hc
    · by_contra hbx
      have hcb := List.rel_of_pairwise_cons hsorted hb
      have hcx := htrans c b x hcb (by simpa using hbx)
      rw [hc] at hcx
      cases hcx

section Insertion

variable {xs before after : List α} {x : α} (hbefore : ∀ b ∈ before, le b x = true)
  (hafter : ∀ b ∈ after, le b x = false)

include htotal hbefore hafter in
/-- A sorted list is sorted with a member between those that are not greater and the others. -/
lemma pairwise_insert (hsorted : (before ++ after).Pairwise fun a b => le a b = true) :
    (before ++ x :: after).Pairwise fun a b => le a b = true := by
  obtain ⟨hb, ha, hba⟩ := List.pairwise_append.mp hsorted
  refine List.pairwise_append.mpr ⟨hb, List.pairwise_cons.mpr ⟨?_, ha⟩, ?_⟩
  · intro c hc
    exact le_of_not_le htotal (hafter c hc)
  · intro b hbmem c hc
    rcases List.mem_cons.mp hc with rfl | hc
    · exact hbefore b hbmem
    · exact hba b hbmem c hc

include htrans hafter in
/-- What is equal to the new member in the order comes before it. -/
lemma filter_insert (a : α) : (before ++ x :: after).filter (orderEq le a) =
    ((before ++ after) ++ [x]).filter (orderEq le a) := by
  cases hax : orderEq le a x with
  | false => simp [hax]
  | true =>
    have hnone : after.filter (orderEq le a) = [] := by
      refine List.filter_eq_nil_iff.mpr fun b hb hab => ?_
      simp only [orderEq, Bool.and_eq_true] at hax hab
      have hbx := htrans b a x hab.2 hax.1
      rw [hafter b hb] at hbx
      cases hbx
    simp [hax, hnone]

include htrans htotal hbefore hafter in
/-- **Insertion.** The sort of a list with one more member at the end. -/
lemma IsStableSort.insert (h : IsStableSort le xs (before ++ after)) :
    IsStableSort le (xs ++ [x]) (before ++ x :: after) where
  sorted := pairwise_insert htotal hbefore hafter h.sorted
  perm := (List.perm_middle.trans (h.perm.cons x)).trans (List.perm_append_singleton x xs).symm
  stable := by
    intro a
    rw [filter_insert htrans hafter, List.filter_append, h.stable a, List.filter_append]

end Insertion

include htrans in
/-- The members that are equal to one are in order as they come. -/
lemma pairwise_filter_orderEq (a : α) (xs : List α) :
    (xs.filter (orderEq le a)).Pairwise fun b c => le b c = true := by
  refine List.pairwise_of_forall_mem_list fun b hb c hc => ?_
  have hab := (List.mem_filter.mp hb).2
  have hac := (List.mem_filter.mp hc).2
  simp only [orderEq, Bool.and_eq_true] at hab hac
  exact htrans b a c hab.2 hac.1

include htrans htotal in
/-- Merge sort is a stable sort. -/
lemma isStableSort_mergeSort (xs : List α) : IsStableSort le xs (xs.mergeSort le) where
  sorted := List.pairwise_mergeSort htrans htotal xs
  perm := List.mergeSort_perm xs le
  stable := by
    intro a
    have hsub : (xs.filter (orderEq le a)).Sublist (xs.mergeSort le) :=
      List.sublist_mergeSort htrans htotal (pairwise_filter_orderEq htrans a xs)
        List.filter_sublist
    have hsub' := hsub.filter (orderEq le a)
    rw [List.filter_filter] at hsub'
    simp only [Bool.and_self] at hsub'
    exact (hsub'.eq_of_length ((List.mergeSort_perm xs le).filter _).length_eq.symm).symm

include htotal in
/-- A member is equal to itself. -/
lemma orderEq_self (a : α) : orderEq le a a = true := by
  have haa := htotal a a
  rw [Bool.or_self] at haa
  rw [orderEq, haa, Bool.and_self]

include htotal in
/-- Two sorted lists with the same members, equal ones in the same order, are one list. -/
lemma eq_of_sorted_of_filter_eq {ys zs : List α} (hys : ys.Pairwise fun a b => le a b = true)
    (hzs : zs.Pairwise fun a b => le a b = true) (hperm : ys.Perm zs)
    (hfilter : ∀ a, ys.filter (orderEq le a) = zs.filter (orderEq le a)) : ys = zs := by
  induction ys generalizing zs with
  | nil => exact hperm.nil_eq
  | cons a ys ih =>
    cases zs with
    | nil => exact hperm.eq_nil
    | cons b zs =>
      -- both first members are the smallest
      have hab : le a b = true := by
        rcases List.mem_cons.mp (hperm.mem_iff.mpr List.mem_cons_self) with rfl | hb
        · simpa using htotal b b
        · exact List.rel_of_pairwise_cons hys hb
      have hba : le b a = true := by
        rcases List.mem_cons.mp (hperm.mem_iff.mp List.mem_cons_self) with rfl | ha
        · simpa using htotal a a
        · exact List.rel_of_pairwise_cons hzs ha
      have hfirst := hfilter a
      rw [List.filter_cons_of_pos (orderEq_self htotal a),
        List.filter_cons_of_pos (by simp [orderEq, hab, hba])] at hfirst
      obtain rfl : a = b := (List.cons.inj hfirst).1
      congr 1
      refine ih hys.of_cons hzs.of_cons hperm.cons_inv fun c => ?_
      have hc := hfilter c
      cases hca : orderEq le c a with
      | false => simpa [hca] using hc
      | true => simpa [hca] using hc

include htrans htotal in
/-- **There is one stable sort.** -/
theorem IsStableSort.eq_mergeSort {xs ys : List α} (h : IsStableSort le xs ys) :
    ys = xs.mergeSort le := by
  have hmerge := isStableSort_mergeSort htrans htotal xs
  exact eq_of_sorted_of_filter_eq htotal h.sorted hmerge.sorted (h.perm.trans hmerge.perm.symm)
    fun a => (h.stable a).trans (hmerge.stable a).symm

end Preorder

end CSemantics
