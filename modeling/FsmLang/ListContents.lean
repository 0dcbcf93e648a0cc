import Mathlib.Tactic
import FsmLang.ListRuns
import FsmLang.CSemantics.Lists

set_option relaxedAutoImplicit false
set_option autoImplicit false

/-!
# What lists hold

The members of a list after an operation, in terms of those before it.

`remove_nth_list_member` looks for the member at a place and then removes the first element that
holds this member, which may be at another place; a null pointer is not removed at all.
`copy_list` and `copy_list_filtered` walk over the source while they add to the destination; if
both are the same list, the walk comes to what it has added.

## Main definitions

* `RemovesNth`, `CopiesRight`, `CopiesFilteredRight`, `CopiesUniqueRight` — what is asked of the
  operations.

## Main results

* `removesNth_iff` — when the member at a place is removed.
* `copies_right_iff` — when lists are copied.
-/

namespace FsmLang

open CSemantics

namespace Memory

variable {μ : Type*} [DecidableEq μ] {m m' : Memory μ} {l : ℕ} {as bs : List ℕ}

omit [DecidableEq μ] in
/-- A list consists of the same elements however it is looked at. -/
lemma Holds.unique (h : m.Holds l as) (h' : m.Holds l bs) : as = bs := by
  have hvisits : visits (max as.length bs.length) m (some l) = some as :=
    visits_eq h.ring.head_eq (fun _ _ _ has => h.next_eq has) (le_max_left _ _)
  have hvisits' : visits (max as.length bs.length) m (some l) = some bs :=
    visits_eq h'.ring.head_eq (fun _ _ _ hbs => h'.next_eq hbs) (le_max_right _ _)
  exact Option.some.inj (hvisits.symm.trans hvisits')

/-! ## Removing by place -/

/-- The operation returns, and the list holds the members before the place and those after it. -/
def RemovesNth (m : Memory μ) (l n : ℕ) (mbrs : List (Option μ)) : Prop :=
  ∃ fuel m', removeNthListMember fuel m (some l) n = some m' ∧
    ∃ as', m'.Holds l as' ∧ as'.map m'.mbr = mbrs.take n ++ mbrs.drop (n + 1)

/-- **Removing by place.** The member at place `n` of a well-formed list is removed if and only if
it is not a null pointer and no other member is between two of its occurrences up to `n`. -/
theorem removesNth_iff (h : m.Holds l as) {n : ℕ} (hn : n < as.length) :
    m.RemovesNth l n (as.map m.mbr) ↔
      m.mbr as[n] ≠ none ∧ ∀ i k, i ≤ k → k ≤ n → (as.map m.mbr)[i]? = some (m.mbr as[n]) →
        (as.map m.mbr)[k]? = some (m.mbr as[n]) := by
  have hget : as[n]? = some as[n] := List.getElem?_eq_getElem hn
  have hgetm : (as.map m.mbr)[n]? = some (m.mbr as[n]) := by
    rw [List.getElem?_map, hget, Option.map_some]
  obtain ⟨m₁, as₁, hremove, hedits, hmembers⟩ := h.exists_removeNthListMember le_rfl n
  rw [hget, Option.bind_some] at hmembers
  have hiff : m.RemovesNth l n (as.map m.mbr) ↔
      as₁.map m₁.mbr = (as.map m.mbr).eraseIdx n := by
    rw [List.eraseIdx_eq_take_drop_succ]
    constructor
    · rintro ⟨fuel, m', hm', as', hholds, has'⟩
      have hreturns : Returns (fun _ => true) m (.removeNthListMember (some l) n) m' := ⟨fuel, hm'⟩
      obtain rfl := hreturns.unique _ ⟨as.length, hremove⟩
      rw [hedits.holds.unique hholds, has']
    · intro has₁
      exact ⟨as.length, m₁, hremove, as₁, hedits.holds, has₁⟩
  rw [hiff]
  cases hmbr : m.mbr as[n] with
  | none =>
    -- nothing is removed
    rw [hmbr, if_neg (by simp)] at hmembers
    refine ⟨fun hsame => ?_, fun hcond => absurd rfl hcond.1⟩
    rw [hmembers] at hsame
    have hlen := congrArg List.length hsame
    rw [List.length_eraseIdx_of_lt (by simpa using hn), List.length_map] at hlen
    omega
  | some x =>
    rw [hmbr, if_pos Option.isSome_some] at hmembers
    rw [hmbr] at hgetm
    rw [hmembers, erase_eq_eraseIdx_iff hgetm]
    exact ⟨fun hcond => ⟨Option.some_ne_none x, hcond⟩, fun hcond => hcond.2⟩

/-- A list that holds the same member at two places, with another one between them. -/
def twiceMember : Memory ℕ where
  mbr := fun a => some (a % 2)
  next := fun a => if a < 2 then some (a + 1) else none
  prev := fun a => if a = 0 then none else some (a - 1)
  ordinal := fun a => a
  count := fun _ => 3
  head := fun _ => some 0
  tail := fun _ => some 2
  callocs := 3

/-- The list has three elements. -/
lemma twiceMember_holds : twiceMember.Holds 0 [0, 1, 2] where
  ring := by simp [LinkRing, twiceMember]
  count := rfl
  ordinals := rfl
  allocated := by decide

/-- The element at the last place is asked for, and the first one is removed. -/
theorem not_removesNth_twiceMember : twiceMember.Holds 0 [0, 1, 2] ∧
    ¬ twiceMember.RemovesNth 0 2 ([0, 1, 2].map twiceMember.mbr) := by
  refine ⟨twiceMember_holds, ?_⟩
  rintro ⟨fuel, m', hm', as', hholds, has'⟩
  obtain ⟨m₁, as₁, hremove, hedits, hmembers⟩ :=
    twiceMember_holds.exists_removeNthListMember (show [0, 1, 2].length ≤ 3 from le_rfl) 2
  have hreturns : Returns (fun _ => true) twiceMember (.removeNthListMember (some 0) 2) m' :=
    ⟨fuel, hm'⟩
  obtain rfl := hreturns.unique _ ⟨3, hremove⟩
  rw [hedits.holds.unique hholds, has'] at hmembers
  exact absurd hmembers (by decide)

/-- The member at place `1` is at no other place. -/
theorem removesNth_twiceMember :
    twiceMember.RemovesNth 0 1 ([0, 1, 2].map twiceMember.mbr) := by
  refine (removesNth_iff twiceMember_holds (by decide)).mpr ⟨by decide, ?_⟩
  intro i k hik hk hi
  interval_cases k
  · obtain rfl : i = 0 := by omega
    exact hi
  · rfl

/-! ## Copying -/

section Copying

variable (granted : ℕ → Bool) {d s : ℕ}

/-- `copy_list` returns, and the destination holds its members and then those of the source. -/
def CopiesRight (m : Memory μ) (d s : ℕ) (as bs : List ℕ) : Prop :=
  ∃ fuel m', copyList granted fuel m (some d) (some s) = some (m', some d) ∧
    ∃ as', m'.Holds d as' ∧ as'.map m'.mbr = as.map m.mbr ++ bs.map m.mbr

/-- `copy_list_filtered` returns, and the destination holds its members and then those of the source
that pass the filter. -/
def CopiesFilteredRight (m : Memory μ) (pass : Option μ → Bool) (d s : ℕ) (as bs : List ℕ) : Prop :=
  ∃ fuel m', copyListFiltered granted fuel m (some d) (some s) (fun pelem => pass pelem.mbr) =
      some (m', some d) ∧
    ∃ as', m'.Holds d as' ∧ as'.map m'.mbr = as.map m.mbr ++ (bs.map m.mbr).filter pass

/-- `copy_list_unique` returns, and the destination holds its members and then members of the
source, all of those that it did not hold, each of them once. -/
def CopiesUniqueRight (m : Memory μ) (d s : ℕ) (as bs : List ℕ) : Prop :=
  ∃ fuel m', copyListUnique granted fuel m (some d) (some s) = some (m', some d) ∧
    ∃ as' added, m'.Holds d as' ∧ as'.map m'.mbr = as.map m.mbr ++ added ∧ added.Nodup ∧
      (∀ x ∈ added, x ∈ bs.map m.mbr ∧ x ∉ as.map m.mbr) ∧
      ∀ x ∈ bs.map m.mbr, x ∈ as'.map m'.mbr

omit [DecidableEq μ] in
/-- Without a filter all members are copied. -/
private lemma listCopierWithFilter_true :
    listCopierWithFilter granted (fun _ : ListElement μ => true) = listCopier granted := by
  funext m dest a
  rfl

omit [DecidableEq μ] in
/-- **Copying to another list.** -/
lemma exists_copyLoop_filtered (hgranted : ∀ k, granted k = true) (hd : m.Holds d as)
    (hs : m.Holds s bs) (hne : s ≠ d) (hdisjoint : as.Disjoint bs) (pass : Option μ → Bool) :
    ∃ m' as', copyLoop bs.length m (some d) (some s)
        (listCopierWithFilter granted fun pelem => pass pelem.mbr) = some m' ∧ m'.Holds d as' ∧
      as'.map m'.mbr = as.map m.mbr ++ (bs.map m.mbr).filter pass := by
  let P : List ℕ → List (Option μ) → Prop := fun done mbrs =>
    mbrs = as.map m.mbr ++ (done.map m.mbr).filter pass
  have hP : P [] (as.map m.mbr) := by simp [P]
  obtain ⟨m', as', hloop, hedits, hmembers⟩ : ∃ m' as', copyLoop bs.length m (some d) (some s)
      (listCopierWithFilter granted fun pelem => pass pelem.mbr) = some m' ∧ m.Edits m' d as as' ∧
        P bs (as'.map m'.mbr) := by
    refine exists_copyLoop hd hs hne hdisjoint le_rfl hP ?_
    intro done b rest m₁ as₁ hbs hedits hdone
    have hmbr : m₁.mbr b = m.mbr b := hedits.members b (hs.allocated b (by simp [hbs]))
    have hdone : as₁.map m₁.mbr = as.map m.mbr ++ (done.map m.mbr).filter pass := hdone
    show ∃ m'' as'', (if pass (m₁.mbr b) then (addToList granted m₁ (some d) (m₁.mbr b)).map Prod.fst
      else some m₁) = some m'' ∧ _
    rw [hmbr]
    split_ifs with hpass
    · obtain ⟨m₂, a, as₂, hadd, hedits₂, -, hmembers₂⟩ :=
        hedits.holds.exists_addToList_members granted (m.mbr b)
      refine ⟨m₂, as₂, by rw [hadd]; rfl, hedits₂, ?_⟩
      show as₂.map m₂.mbr = _
      rw [hmembers₂ (hgranted _), hdone]
      simp [hpass]
    · refine ⟨m₁, as₁, rfl, .refl hedits.holds, ?_⟩
      show as₁.map m₁.mbr = _
      rw [hdone]
      simp [hpass]
  exact ⟨m', as', hloop, hedits.holds, hmembers⟩

omit [DecidableEq μ] in
/-- **Copying a list to itself.** The loop does not end if it comes to a member that passes the
filter, since a copy of that member is still to come. -/
lemma Holds.copyLoop_self_eq_none (hgranted : ∀ k, granted k = true) (pass : Option μ → Bool)
    (h : m.Holds l as) (hpass : ∃ a ∈ as, pass (m.mbr a) = true) (fuel : ℕ) :
    copyLoop fuel m (some l) (some l) (listCopierWithFilter granted fun pelem => pass pelem.mbr) =
      none := by
  have hwalk : ∀ (fuel : ℕ) (m : Memory μ) (done rest : List ℕ), m.Holds l (done ++ rest) →
      (∃ a ∈ rest, pass (m.mbr a) = true) →
      walk (fun (r : Memory μ × Unit) a => r.1.next a) (fun r a =>
        (listCopierWithFilter granted (fun pelem => pass pelem.mbr) r.1 (some l) a).map fun m =>
          ((m, r.2), false)) fuel (m, ()) rest.head? = none := by
    intro fuel
    induction fuel with
    | zero =>
      rintro m done rest - ⟨a, ha, -⟩
      cases rest with
      | nil => cases ha
      | cons b rest => rfl
    | succ fuel ih =>
      intro m done rest h hrest
      cases rest with
      | nil => simp at hrest
      | cons b rest =>
        have hform : done ++ b :: rest = (done ++ [b]) ++ rest := by simp
        rw [List.head?_cons, walk]
        by_cases hb : pass (m.mbr b) = true
        · obtain ⟨m₁, a, hadd, hedits, hmbr⟩ := h.exists_addToList granted (m.mbr b)
          rw [if_pos (hgranted _)] at hedits
          have hcopy : listCopierWithFilter granted (fun pelem => pass pelem.mbr) m (some l) b =
              some m₁ := by
            show (if pass (m.mbr b) then (addToList granted m (some l) (m.mbr b)).map Prod.fst
              else some m) = some m₁
            rw [if_pos hb, hadd]
            rfl
          rw [hcopy, Option.map_some, Option.bind_some, if_neg (by simp)]
          -- the copy is the last element now
          have hlast : done ++ b :: rest ++ [m.callocs] = (done ++ [b]) ++ (rest ++ [m.callocs]) := by
            simp
          have hnext : m₁.next b = (rest ++ [m.callocs]).head? :=
            hedits.holds.next_eq (List.append_assoc _ _ _)
          show walk _ _ fuel (m₁, ()) (m₁.next b) = none
          rw [hnext]
          refine ih m₁ (done ++ [b]) (rest ++ [m.callocs]) (hlast ▸ hedits.holds)
            ⟨m.callocs, by simp, ?_⟩
          rw [hmbr (hgranted _)]
          exact hb
        · have hcopy : listCopierWithFilter granted (fun pelem => pass pelem.mbr) m (some l) b =
              some m := if_neg hb
          rw [hcopy, Option.map_some, Option.bind_some, if_neg (by simp)]
          show walk _ _ fuel (m, ()) (m.next b) = none
          rw [h.next_eq rfl]
          refine ih m (done ++ [b]) rest (hform ▸ h) ?_
          obtain ⟨a, ha, hpassa⟩ := hrest
          rcases List.mem_cons.mp ha with rfl | ha
          · exact absurd hpassa hb
          · exact ⟨a, ha, hpassa⟩
  rw [copyLoop, iterateList]
  show Option.map _ (walk _ _ fuel (m, ()) (m.head l)) = none
  rw [h.ring.head_eq, hwalk fuel m [] as h hpass, Option.map_none]

/-- **Copying what is not there.** -/
lemma exists_copyLoop_unique (hgranted : ∀ k, granted k = true) (hd : m.Holds d as)
    (hs : m.Holds s bs) (hne : s ≠ d) (hdisjoint : as.Disjoint bs) :
    ∃ m' as', copyLoop (as.length + bs.length) m (some d) (some s)
        (listCopierUnique granted (as.length + bs.length)) = some m' ∧ m'.Holds d as' ∧
      as'.map m'.mbr = (bs.map m.mbr).foldl FsmLang.addUniqueToList (as.map m.mbr) := by
  let P : List ℕ → List (Option μ) → Prop := fun done mbrs =>
    mbrs.length ≤ as.length + done.length ∧
      mbrs = (done.map m.mbr).foldl FsmLang.addUniqueToList (as.map m.mbr)
  have hP : P [] (as.map m.mbr) := by simp [P]
  obtain ⟨m', as', hloop, hedits, -, hmembers⟩ : ∃ m' as',
      copyLoop (as.length + bs.length) m (some d) (some s)
        (listCopierUnique granted (as.length + bs.length)) = some m' ∧ m.Edits m' d as as' ∧
          P bs (as'.map m'.mbr) := by
    refine exists_copyLoop hd hs hne hdisjoint (Nat.le_add_left _ _) hP ?_
    rintro done b rest m₁ as₁ hbs hedits ⟨hlen, hdone⟩
    have hmbr : m₁.mbr b = m.mbr b := hedits.members b (hs.allocated b (by simp [hbs]))
    have hlength : done.length + 1 ≤ bs.length := by simp [hbs]
    rw [List.length_map] at hlen
    obtain ⟨m₂, a, as₂, hadd, hedits₂, hlen₂, -, hmembers₂⟩ :=
      hedits.holds.exists_addUniqueToList granted
        (show as₁.length ≤ as.length + bs.length by omega) (m.mbr b)
    refine ⟨m₂, as₂, by rw [listCopierUnique, hmbr, hadd]; rfl, hedits₂, ?_, ?_⟩
    · rw [List.length_map, List.length_append, List.length_singleton]
      omega
    · rw [hmembers₂ (hgranted _), hdone, List.map_append, List.map_singleton, List.foldl_append,
        List.foldl_cons, List.foldl_nil]
  exact ⟨m', as', hloop, hedits.holds, hmembers⟩

omit [DecidableEq μ] in
/-- **Copying with a filter.** -/
lemma copiesFilteredRight_iff (hgranted : ∀ k, granted k = true) (hd : m.Holds d as)
    (hs : m.Holds s bs) (hdisjoint : d ≠ s → as.Disjoint bs) (pass : Option μ → Bool) :
    CopiesFilteredRight granted m pass d s as bs ↔
      d ≠ s ∨ ∀ b ∈ bs, pass (m.mbr b) = false := by
  by_cases hds : d = s
  · subst hds
    obtain rfl := hd.unique hs
    constructor
    · rintro ⟨fuel, m', hcopy, -⟩
      refine .inr fun b hb => ?_
      by_contra hpass
      have hnone := hd.copyLoop_self_eq_none granted hgranted pass
        ⟨b, hb, by simpa using hpass⟩ fuel
      simp [copyListFiltered, copyListWith, hnone] at hcopy
    · rintro (hne | hpass)
      · exact absurd rfl hne
      · have hloop : copyLoop as.length m (some d) (some d)
            (listCopierWithFilter granted fun pelem => pass pelem.mbr) = some m :=
          hd.copyLoop_of_fixed le_rfl fun a ha => if_neg (by simp [element, hpass a ha])
        refine ⟨as.length, m, by simp [copyListFiltered, copyListWith, hloop], as, hd, ?_⟩
        have hfilter : (as.map m.mbr).filter pass = [] := by
          simpa [List.filter_eq_nil_iff] using hpass
        rw [hfilter, List.append_nil]
  · refine iff_of_true ?_ (.inl hds)
    obtain ⟨m', as', hloop, hholds, hmembers⟩ :=
      exists_copyLoop_filtered granted hgranted hd hs (Ne.symm hds) (hdisjoint hds) pass
    exact ⟨bs.length, m', by simp [copyListFiltered, copyListWith, hloop], as', hholds, hmembers⟩

omit [DecidableEq μ] in
/-- Without a filter all members are copied. -/
lemma copiesRight_iff_filtered : CopiesRight granted m d s as bs ↔
    CopiesFilteredRight granted m (fun _ => true) d s as bs := by
  unfold CopiesRight CopiesFilteredRight copyList copyListFiltered
  rw [listCopierWithFilter_true, List.filter_eq_self.mpr fun _ _ => rfl]

/-- **Copying without repetition.** -/
lemma copiesUniqueRight (hgranted : ∀ k, granted k = true) (hd : m.Holds d as)
    (hs : m.Holds s bs) (hdisjoint : d ≠ s → as.Disjoint bs) :
    CopiesUniqueRight granted m d s as bs := by
  by_cases hds : d = s
  · subst hds
    obtain rfl := hd.unique hs
    have hloop := hd.copyLoop_self granted le_rfl
    refine ⟨as.length, m, by simp [copyListUnique, copyListWith, hloop], as, [], hd, by simp,
      List.nodup_nil, by simp, fun x hx => hx⟩
  · obtain ⟨m', as', hloop, hholds, hmembers⟩ :=
      exists_copyLoop_unique granted hgranted hd hs (Ne.symm hds) (hdisjoint hds)
    obtain ⟨added, hfold, hnd, hadded, hall⟩ :=
      exists_foldl_addUniqueToList (bs.map m.mbr) (as.map m.mbr)
    rw [hfold] at hmembers
    exact ⟨as.length + bs.length, m', by simp [copyListUnique, copyListWith, hloop], as', added,
      hholds, hmembers, hnd, hadded, fun x hx => hmembers ▸ hall x hx⟩

/-- **Copying.** For lists `d` and `s`, which may be the same, and while `calloc` returns memory:
`copy_list` copies the list if and only if they are not the same or there is nothing to copy,
`copy_list_filtered` if and only if they are not the same or no member passes the filter, and
`copy_list_unique` in any case. -/
theorem copies_right_iff (hgranted : ∀ k, granted k = true) (hd : m.Holds d as) (hs : m.Holds s bs)
    (hdisjoint : d ≠ s → as.Disjoint bs) (pass : Option μ → Bool) :
    (CopiesRight granted m d s as bs ↔ d ≠ s ∨ bs = []) ∧
      (CopiesFilteredRight granted m pass d s as bs ↔
        d ≠ s ∨ ∀ b ∈ bs, pass (m.mbr b) = false) ∧
      CopiesUniqueRight granted m d s as bs := by
  refine ⟨?_, copiesFilteredRight_iff granted hgranted hd hs hdisjoint pass,
    copiesUniqueRight granted hgranted hd hs hdisjoint⟩
  rw [copiesRight_iff_filtered, copiesFilteredRight_iff granted hgranted hd hs hdisjoint]
  refine or_congr_right ⟨fun hall => ?_, fun hnil => by simp [hnil]⟩
  exact List.eq_nil_iff_forall_not_mem.mpr fun b hb => by simpa using hall b hb

/-- A list that is copied to itself. -/
theorem not_copiesRight_twiceMember : twiceMember.Holds 0 [0, 1, 2] ∧
    ¬ CopiesRight (fun _ => true) twiceMember 0 0 [0, 1, 2] [0, 1, 2] := by
  refine ⟨twiceMember_holds, ?_⟩
  rw [copiesRight_iff_filtered,
    copiesFilteredRight_iff _ (fun _ => rfl) twiceMember_holds twiceMember_holds
      fun hne => absurd rfl hne]
  rintro (hne | hall)
  · exact hne rfl
  · simpa using hall 0 (by simp)

/-- Two lists with one element each. -/
def twoLists : Memory ℕ where
  mbr := fun a => some a
  next := fun _ => none
  prev := fun _ => none
  ordinal := fun _ => 0
  count := fun _ => 1
  head := fun l => some l
  tail := fun l => some l
  callocs := 2

/-- Each of the two lists has one element. -/
lemma twoLists_holds {l : ℕ} (hl : l < 2) : twoLists.Holds l [l] where
  ring := by simp [LinkRing, twoLists]
  count := rfl
  ordinals := rfl
  allocated := by
    intro a ha
    rwa [List.mem_singleton.mp ha]

/-- The members of one list are copied to another one. -/
theorem copies_right_twoLists :
    CopiesRight (fun _ => true) twoLists 0 1 [0] [1] ∧
      CopiesFilteredRight (fun _ => true) twoLists (fun x => decide (x = some 1)) 0 1 [0] [1] ∧
      CopiesUniqueRight (fun _ => true) twoLists 0 1 [0] [1] := by
  have hlists : (0 : ℕ) ≠ 1 := by decide
  obtain ⟨hcopies, hfiltered, hunique⟩ := copies_right_iff (fun _ => true) (fun _ => rfl)
    (twoLists_holds (l := 0) (by decide)) (twoLists_holds (l := 1) (by decide))
    (fun _ => by simp) fun x => decide (x = some 1)
  exact ⟨hcopies.mpr (.inl hlists), hfiltered.mpr (.inl hlists), hunique⟩

end Copying

end Memory

end FsmLang
