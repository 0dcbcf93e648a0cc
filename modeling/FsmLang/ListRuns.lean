import Mathlib.Tactic
import FsmLang.ListOperations
import FsmLang.CSemantics.Runs

set_option relaxedAutoImplicit false
set_option autoImplicit false

/-!
# Well-formed lists

The record of a list and its elements repeat themselves: the count, the pointer to the last element,
the ordinals and the links backward can all be read off the links forward. The generators rely on
this; most of all, they use the ordinals as indices.

All operations keep all lists well formed, but for `move_list` to a list with elements: the first
of the elements that are moved gets no link backward, and if there are none, the pointer to the
last element is lost.

## Main definitions

* `WellFormedAs`, `WellFormed` — what is asked of a list, in terms of the two loops.
* `ListOperation`, `exec`, `Returns` — the operations, as steps of a run.
* `Separate` — the invariant: lists that share no elements.

## Main results

* `exec_extends` — an operation that returns does so with more fuel.
* `Separate.exists_returns` — what an operation preserves.
* `keepsWellFormed_iff` — which runs keep all lists well formed.
-/

namespace FsmLang

open CSemantics

namespace Memory

variable {μ δ : Type*} {fuel fuel' : ℕ} {m m' : Memory μ} {l : ℕ} {as as' : List ℕ}

/-! ## What is asked of a list -/

/-- A list whose elements are `as`, as a loop comes to them: the other fields agree. -/
structure WellFormedAs (m : Memory μ) (l : ℕ) (as : List ℕ) : Prop where
  visits : ∃ fuel, visits fuel m (some l) = some as
  count : m.count l = as.length
  tail : m.tail l = as.getLast?
  ordinal : ∀ i a, as[i]? = some a → m.ordinal a = i
  prev : ∀ i a, as[i]? = some a → m.prev a = if i = 0 then none else as[i - 1]?
  reverseVisits : ∃ fuel, reverseVisits fuel m (some l) = some as.reverse

/-- A list that is well formed. -/
def WellFormed (m : Memory μ) (l : ℕ) : Prop := ∃ as, m.WellFormedAs l as

/-- What a loop comes to, from the links forward alone. -/
lemma visits_eq (hhead : m.head l = as.head?)
    (hnext : ∀ done a rest, as = done ++ a :: rest → m.next a = rest.head?)
    (hfuel : as.length ≤ fuel) : visits fuel m (some l) = some as := by
  let I : List ℕ → Memory μ × List ℕ → Prop := fun done s => s = (m, done)
  have hwalk : ∃ s', walk (fun (s : Memory μ × List ℕ) a => s.1.next a)
      (fun s a => some ((s.1, s.2 ++ [a]), false)) fuel (m, []) as.head? = some (s', none) ∧
        I as s' := by
    refine walk_of_invariant (I := I) ?_ rfl hfuel
    rintro done a rest s has rfl
    exact ⟨_, rfl, rfl, hnext done a rest has⟩
  obtain ⟨s', hs', rfl⟩ := hwalk
  rw [visits, iterateList, hhead, hs', Option.map_some]

/-- The same for the other loop. -/
private lemma reverseVisits_eq (htail : m.tail l = as.head?)
    (hprev : ∀ done a rest, as = done ++ a :: rest → m.prev a = rest.head?)
    (hfuel : as.length ≤ fuel) : reverseVisits fuel m (some l) = some as := by
  let I : List ℕ → Memory μ × List ℕ → Prop := fun done s => s = (m, done)
  have hwalk : ∃ s', walk (fun (s : Memory μ × List ℕ) a => s.1.prev a)
      (fun s a => some ((s.1, s.2 ++ [a]), false)) fuel (m, []) as.head? = some (s', none) ∧
        I as s' := by
    refine walk_of_invariant (I := I) ?_ rfl hfuel
    rintro done a rest s has rfl
    exact ⟨_, rfl, rfl, hprev done a rest has⟩
  obtain ⟨s', hs', rfl⟩ := hwalk
  rw [reverseVisits, reverseIterateList, htail, hs', Option.map_some]

/-- A list in a ring is well formed. -/
lemma Holds.wellFormedAs (h : m.Holds l as) : m.WellFormedAs l as where
  visits := by
    refine ⟨as.length, visits_eq h.ring.head_eq ?_ le_rfl⟩
    intro done a rest has
    exact h.next_eq has
  count := h.count
  tail := h.ring.tail_eq
  ordinal := by
    intro i a ha
    obtain ⟨hi, rfl⟩ := List.getElem?_eq_some_iff.mp ha
    exact h.ordinal_getElem hi
  prev := by
    intro i a ha
    obtain ⟨hi, rfl⟩ := List.getElem?_eq_some_iff.mp ha
    have has : as = as.take i ++ as[i] :: as.drop (i + 1) := by simp
    rw [h.prev_eq has, List.getLast?_take]
    split_ifs with hzero
    · rfl
    · rw [List.getElem?_eq_getElem (by omega)]
      rfl
  reverseVisits := by
    refine ⟨as.reverse.length, reverseVisits_eq ?_ ?_ le_rfl⟩
    · rw [h.ring.tail_eq, List.head?_reverse]
    · intro done a rest has
      have hform : as = rest.reverse ++ a :: done.reverse := by
        rw [← List.reverse_reverse as, has]
        simp
      rw [h.prev_eq hform, List.getLast?_reverse]

/-! ## Operations -/

/-- An operation with its arguments. A pointer to a list may be null. -/
inductive ListOperation (μ : Type*) where
  | addToList (plist : Option ℕ) (pmbr : Option μ)
  | addToListOrdered (plist : Option ℕ) (pmbr : Option μ)
      (orderFn : ListElement μ → Option μ → Order)
  | addUniqueToList (plist : Option ℕ) (pmbr : Option μ)
  | copyList (dest src : Option ℕ)
  | copyListUnique (dest src : Option ℕ)
  | copyListUniqueWithException (dest src : Option ℕ) (exception : Option μ)
  | copyListFiltered (dest src : Option ℕ) (filterFn : ListElement μ → Bool)
  | moveList (dest src : Option ℕ)
  | moveListUnique (dest src : Option ℕ)
  | removeFromList (plist : Option ℕ) (mbr : Option μ)
  | removeNthListMember (plist : Option ℕ) (target : ℕ)

variable [DecidableEq μ] (granted : ℕ → Bool)

/-- The memory after an operation. -/
def exec (fuel : ℕ) (m : Memory μ) : ListOperation μ → Option (Memory μ)
  | .addToList plist pmbr => (addToList granted m plist pmbr).map Prod.fst
  | .addToListOrdered plist pmbr orderFn =>
    (addToListOrdered granted fuel m plist pmbr orderFn).map Prod.fst
  | .addUniqueToList plist pmbr => (addUniqueToList granted fuel m plist pmbr).map Prod.fst
  | .copyList dest src => (copyList granted fuel m dest src).map Prod.fst
  | .copyListUnique dest src => (copyListUnique granted fuel m dest src).map Prod.fst
  | .copyListUniqueWithException dest src exception =>
    (copyListUniqueWithException granted fuel m dest src exception).map Prod.fst
  | .copyListFiltered dest src filterFn =>
    (copyListFiltered granted fuel m dest src filterFn).map Prod.fst
  | .moveList dest src => (moveList fuel m dest src).map Prod.fst
  | .moveListUnique dest src => (moveListUnique granted fuel m dest src).map Prod.fst
  | .removeFromList plist mbr => removeFromList fuel m plist mbr
  | .removeNthListMember plist target => removeNthListMember fuel m plist target

/-- The operation returns with a memory: it does so with enough fuel. -/
def Returns (m : Memory μ) (op : ListOperation μ) (m' : Memory μ) : Prop :=
  ∃ fuel, exec granted fuel m op = some m'

/-! ### Fuel -/

section Fuel

variable (hle : fuel ≤ fuel')
include hle

omit [DecidableEq μ] in
/-- A loop returns the same with more fuel. -/
lemma iterateList_extends {action action' : Memory μ × δ → ℕ → Option ((Memory μ × δ) × Bool)}
    (hact : ∀ s a, Extends (action s a) (action' s a)) (plist : Option ℕ) (s : Memory μ × δ) :
    Extends (iterateList fuel plist action s) (iterateList fuel' plist action' s) := by
  cases plist with
  | none => exact .refl _
  | some l => exact walk_extends hle hact s (s.1.head l)

omit [DecidableEq μ] in
/-- A search returns the same with more fuel. -/
lemma findElement_extends (m : Memory μ) (plist : Option ℕ) (test : ListElement μ → Bool) :
    Extends (findElement fuel m plist test) (findElement fuel' m plist test) :=
  (iterateList_extends hle (fun _ _ => .refl _) plist (m, ())).map _

omit [DecidableEq μ] in
/-- Counting the ordinals again returns the same with more fuel. -/
lemma resetOrdinals_extends (m : Memory μ) (plist : Option ℕ) :
    Extends (resetOrdinals fuel m plist) (resetOrdinals fuel' m plist) :=
  (iterateList_extends hle (fun _ _ => .refl _) plist (m, 0)).map _

omit [DecidableEq μ] in
/-- Adding in order returns the same with more fuel. -/
private lemma addToListOrdered_extends (m : Memory μ) (plist : Option ℕ) (pmbr : Option μ)
    (orderFn : ListElement μ → Option μ → Order) :
    Extends (addToListOrdered granted fuel m plist pmbr orderFn)
      (addToListOrdered granted fuel' m plist pmbr orderFn) := by
  cases plist with
  | none => exact .refl _
  | some l =>
    refine (findElement_extends hle m (some l) _).bind fun pexisting => ?_
    cases pexisting with
    | none => exact .refl _
    | some e =>
      rcases hcalloc : m.calloc granted with ⟨m₁, pnew⟩
      cases pnew with
      | none => exact .refl _
      | some k => exact Extends.bind (.refl _) fun m₂ => (resetOrdinals_extends hle _ _).map _

omit [DecidableEq μ] in
/-- Adding what is not there returns the same with more fuel. -/
lemma addUniqueToListWithTest_extends (m : Memory μ) (plist : Option ℕ) (pmbr : Option μ)
    (testFn : Option μ → ListElement μ → Bool) :
    Extends (addUniqueToListWithTest granted fuel m plist pmbr testFn)
      (addUniqueToListWithTest granted fuel' m plist pmbr testFn) := by
  refine (findElement_extends hle m plist _).bind fun pelem => ?_
  cases pelem with
  | none => exact .refl _
  | some a => exact .refl _

omit [DecidableEq μ] in
/-- A copying loop returns the same with more fuel. -/
lemma copyLoop_extends (m : Memory μ) (dest src : Option ℕ)
    {copier copier' : Memory μ → Option ℕ → ℕ → Option (Memory μ)}
    (hcopier : ∀ m dest a, Extends (copier m dest a) (copier' m dest a)) :
    Extends (copyLoop fuel m dest src copier) (copyLoop fuel' m dest src copier') :=
  (iterateList_extends hle (fun s a => (hcopier s.1 dest a).map _) src (m, ())).map _

omit [DecidableEq μ] in
/-- Copying returns the same with more fuel. -/
lemma copyListWith_extends (m : Memory μ) (dest src : Option ℕ)
    {copier copier' : Memory μ → Option ℕ → ℕ → Option (Memory μ)}
    (hcopier : ∀ m dest a, Extends (copier m dest a) (copier' m dest a)) :
    Extends (copyListWith fuel m dest src copier) (copyListWith fuel' m dest src copier') := by
  refine Extends.map ?_ _
  split_ifs
  · exact copyLoop_extends hle m dest src hcopier
  · exact .refl _

/-- Removing returns the same with more fuel. -/
lemma removeFromList_extends (m : Memory μ) (plist : Option ℕ) (mbr : Option μ) :
    Extends (removeFromList fuel m plist mbr) (removeFromList fuel' m plist mbr) := by
  cases plist with
  | none => exact .refl _
  | some l =>
    refine (findElement_extends hle m (some l) _).bind fun pelem => ?_
    cases pelem with
    | none => exact .refl _
    | some e => exact Extends.bind (.refl _) fun m₁ => resetOrdinals_extends hle _ _

omit [DecidableEq μ] in
/-- Moving returns the same with more fuel. -/
private lemma moveList_extends (m : Memory μ) (dest src : Option ℕ) :
    Extends (moveList fuel m dest src) (moveList fuel' m dest src) := by
  cases dest with
  | none => exact .refl _
  | some d =>
    refine Extends.bind ?_ fun m₁ => .refl _
    cases m.tail d with
    | none => exact .refl _
    | some t =>
      exact Extends.bind ((iterateList_extends hle (fun _ _ => .refl _) src _).map _)
        fun m₁ => .refl _

/-- **More fuel.** An operation that returns does so with more fuel. -/
lemma exec_extends (m : Memory μ) (op : ListOperation μ) :
    Extends (exec granted fuel m op) (exec granted fuel' m op) := by
  have hunique := fun (m : Memory μ) dest a =>
    (addUniqueToListWithTest_extends granted hle m dest (m.mbr a) matchMember).map Prod.fst
  cases op with
  | addToList plist pmbr => exact .refl _
  | addToListOrdered plist pmbr orderFn =>
    exact (addToListOrdered_extends granted hle m plist pmbr orderFn).map _
  | addUniqueToList plist pmbr =>
    exact (addUniqueToListWithTest_extends granted hle m plist pmbr matchMember).map _
  | copyList dest src => exact (copyListWith_extends hle m dest src fun _ _ _ => .refl _).map _
  | copyListUnique dest src => exact (copyListWith_extends hle m dest src hunique).map _
  | copyListUniqueWithException dest src exception =>
    refine (copyListWith_extends hle m dest src fun m dest a => ?_).map _
    unfold listCopierUniqueWithException
    split_ifs
    · exact hunique m dest a
    · exact .refl _
  | copyListFiltered dest src filterFn =>
    exact (copyListWith_extends hle m dest src fun _ _ _ => .refl _).map _
  | moveList dest src => exact (moveList_extends hle m dest src).map _
  | moveListUnique dest src =>
    refine Extends.map ?_ _
    unfold moveListUnique moveListUniqueWithTest
    split_ifs
    · exact (copyLoop_extends hle m dest src hunique).map _
    · exact .refl _
  | removeFromList plist mbr => exact removeFromList_extends hle m plist mbr
  | removeNthListMember plist target =>
    refine ((findElement_extends hle m plist _).map _).bind fun mbr => ?_
    split_ifs
    · exact removeFromList_extends hle m plist mbr
    · exact .refl _

end Fuel

/-- An operation returns with one memory. -/
lemma Returns.unique {op : ListOperation μ} {m' m'' : Memory μ} (h : Returns granted m op m')
    (h' : Returns granted m op m'') : m' = m'' := by
  obtain ⟨fuel, hfuel⟩ := h
  obtain ⟨fuel', hfuel'⟩ := h'
  have hmax := exec_extends granted (le_max_left fuel fuel') m op m' hfuel
  have hmax' := exec_extends granted (le_max_right fuel fuel') m op m'' hfuel'
  exact Option.some.inj (hmax.symm.trans hmax')

/-! ## Runs -/

/-- All lists consist of elements, and no two of them of the same. -/
structure Separate (m : Memory μ) (L : ℕ → List ℕ) : Prop where
  holds : ∀ l, m.Holds l (L l)
  disjoint : ∀ l l', l ≠ l' → (L l).Disjoint (L l')

variable {L : ℕ → List ℕ}

omit [DecidableEq μ] in
/-- Before the first operation all lists are empty. -/
lemma empty_separate : (empty : Memory μ).Separate fun _ => [] :=
  ⟨empty_holds, fun _ _ _ => List.disjoint_nil_left []⟩

omit [DecidableEq μ] in
/-- An operation on one list keeps the lists apart. -/
lemma Edits.separate (h : m.Edits m' l (L l) as') (hL : m.Separate L) :
    m'.Separate (Function.update L l as') where
  holds := by
    intro l'
    by_cases hl : l' = l
    · rw [hl, Function.update_self]
      exact h.holds
    · rw [Function.update_of_ne hl]
      exact h.frame (hL.holds l') hl (hL.disjoint l l' (Ne.symm hl))
  disjoint := by
    have hnew : ∀ l', l' ≠ l → as'.Disjoint (L l') := by
      intro l' hl a ha ha'
      rcases h.fresh a ha with hold | hfresh
      · exact hL.disjoint l l' (Ne.symm hl) hold ha'
      · exact absurd ((hL.holds l').allocated a ha') (by omega)
    intro l₁ l₂ hne
    by_cases hl₁ : l₁ = l
    · subst hl₁
      rw [Function.update_self, Function.update_of_ne hne.symm]
      exact hnew l₂ hne.symm
    · by_cases hl₂ : l₂ = l
      · subst hl₂
        rw [Function.update_self, Function.update_of_ne hne]
        exact (hnew l₁ hne).symm
      · rw [Function.update_of_ne hl₁, Function.update_of_ne hl₂]
        exact hL.disjoint l₁ l₂ hne

/-- The copying operations are given two different lists. -/
def ListOperation.Distinct : ListOperation μ → Prop
  | .copyList dest src | .copyListUnique dest src | .copyListUniqueWithException dest src _
  | .copyListFiltered dest src _ => ∀ l, dest = some l → src ≠ some l
  | _ => True

/-- `move_list` is given no list to move to, the list to be moved, or a list without elements. -/
def MovesToEmpty (m : Memory μ) : ListOperation μ → Prop
  | .moveList dest src => ∀ d, dest = some d → src = some d ∨ src ≠ none ∧ m.head d = none
  | _ => True

/-- An operation on one list, or on none. -/
lemma Separate.returns_of_edits (hL : m.Separate L) {op : ListOperation μ} (fuel : ℕ) {l : ℕ}
    (h : ∃ m' as', exec granted fuel m op = some m' ∧ m.Edits m' l (L l) as') :
    ∃ m' L', Returns granted m op m' ∧ m'.Separate L' := by
  obtain ⟨m', as', hexec, hedits⟩ := h
  exact ⟨m', _, ⟨fuel, hexec⟩, hedits.separate hL⟩

omit [DecidableEq μ] in
/-- A loop that adds to another list. -/
lemma Separate.exists_copyLoop (hL : m.Separate L) {d s : ℕ} (hne : s ≠ d) {fuel : ℕ}
    (hfuel : (L d).length + (L s).length ≤ fuel)
    {copier : Memory μ → Option ℕ → ℕ → Option (Memory μ)}
    (hcopier : ∀ b m' as', as'.length ≤ fuel → m'.Holds d as' → ∃ m'' as'',
      copier m' (some d) b = some m'' ∧ m'.Edits m'' d as' as'' ∧
        as''.length ≤ as'.length + 1) :
    ∃ m' as', copyLoop fuel m (some d) (some s) copier = some m' ∧ m.Edits m' d (L d) as' := by
  obtain ⟨m', as', hloop, hedits, -⟩ := Memory.exists_copyLoop (P := fun done ms =>
      ms.length ≤ (L d).length + done.length) (hL.holds d) (hL.holds s) hne
      (hL.disjoint d s hne.symm) (le_trans (Nat.le_add_left _ _) hfuel) (by simp) (by
    intro done b rest m' as' hbs hedits hlen
    have hdone : done.length + 1 ≤ (L s).length := by simp [hbs]
    rw [List.length_map] at hlen
    obtain ⟨m'', as'', hcopy, hedits', hlen'⟩ := hcopier b m' as' (by omega) hedits.holds
    refine ⟨m'', as'', hcopy, hedits', ?_⟩
    rw [List.length_map, List.length_append, List.length_singleton]
    omega)
  exact ⟨m', as', hloop, hedits⟩

/-- A copying operation. Nothing happens if one of the lists is a null pointer. -/
lemma Separate.returns_of_copier (hL : m.Separate L) {op : ListOperation μ} {dest src : Option ℕ}
    (copier : ℕ → Memory μ → Option ℕ → ℕ → Option (Memory μ))
    (hexec : ∀ fuel, exec granted fuel m op =
      (copyListWith fuel m dest src (copier fuel)).map Prod.fst)
    (hdistinct : ∀ l, dest = some l → src ≠ some l)
    (hcopier : ∀ fuel b d m' as', as'.length ≤ fuel → m'.Holds d as' → ∃ m'' as'',
      copier fuel m' (some d) b = some m'' ∧ m'.Edits m'' d as' as'' ∧
        as''.length ≤ as'.length + 1) :
    ∃ m' L', Returns granted m op m' ∧ m'.Separate L' := by
  cases dest with
  | none => exact ⟨m, L, ⟨0, hexec 0⟩, hL⟩
  | some d =>
    cases src with
    | none => exact ⟨m, L, ⟨0, hexec 0⟩, hL⟩
    | some s =>
      have hne : s ≠ d := fun h => hdistinct d rfl (by rw [h])
      obtain ⟨m', as', hloop, hedits⟩ := hL.exists_copyLoop hne le_rfl
        (fun b m' as' hlen h => hcopier ((L d).length + (L s).length) b d m' as' hlen h)
      refine hL.returns_of_edits granted ((L d).length + (L s).length)
        ⟨m', as', ?_, hedits⟩
      simp [hexec, copyListWith, hloop]

omit [DecidableEq μ] in
/-- Adding an element changes one list, and makes it longer by one at most. -/
lemma Holds.addToList_edits (h : m.Holds l as) (x : Option μ) :
    ∃ m' as', (addToList granted m (some l) x).map Prod.fst = some m' ∧ m.Edits m' l as as' ∧
      as'.length ≤ as.length + 1 := by
  obtain ⟨m', a, as', hadd, hedits, hlen, -⟩ := h.exists_addToList_members granted x
  exact ⟨m', as', by rw [hadd]; rfl, hedits, hlen⟩

/-- The same for adding a member that is not in the list. -/
lemma Holds.addUniqueToList_edits (h : m.Holds l as) (hfuel : as.length ≤ fuel) (x : Option μ) :
    ∃ m' as', (addUniqueToList granted fuel m (some l) x).map Prod.fst = some m' ∧
      m.Edits m' l as as' ∧ as'.length ≤ as.length + 1 := by
  obtain ⟨m', a, as', hadd, hedits, hlen, -⟩ := h.exists_addUniqueToList granted hfuel x
  exact ⟨m', as', by rw [hadd]; rfl, hedits, hlen⟩

/-- Elements that are moved to a list without elements. -/
private lemma Separate.exists_returns_moveList_empty (hL : m.Separate L) {d s : ℕ} (hne : d ≠ s)
    (hempty : m.head d = none) :
    ∃ m' L', Returns granted m (.moveList (some d) (some s)) m' ∧ m'.Separate L' := by
  have hd : m.Holds d [] := by
    have hnil : L d = [] := List.head?_eq_none_iff.mp ((hL.holds d).ring.head_eq ▸ hempty)
    exact hnil ▸ hL.holds d
  obtain ⟨m', hexec, hd', hs', hothers⟩ := hd.exists_moveList 0 (hL.holds s) hne
  refine ⟨m', Function.update (Function.update L d (L s)) s [], ⟨0, by rw [exec, hexec]; rfl⟩,
    ⟨?_, ?_⟩⟩
  · intro l
    by_cases hls : l = s
    · rw [hls, Function.update_self]
      exact hs'
    · rw [Function.update_of_ne hls]
      by_cases hld : l = d
      · rw [hld, Function.update_self]
        exact hd'
      · rw [Function.update_of_ne hld]
        exact hothers l (L l) hld hls (hL.holds l)
  · -- the elements of `s` are those of `d` now
    have hd : ∀ l, l ≠ s → l ≠ d → (L s).Disjoint (L l) := fun l hls _ =>
      hL.disjoint s l (Ne.symm hls)
    intro l₁ l₂ hl
    by_cases h₁ : l₁ = s
    · rw [h₁, Function.update_self]
      exact List.disjoint_nil_left _
    · by_cases h₂ : l₂ = s
      · rw [h₂, Function.update_self]
        exact List.disjoint_nil_right _
      · rw [Function.update_of_ne h₁, Function.update_of_ne h₂]
        by_cases h₁' : l₁ = d
        · subst h₁'
          rw [Function.update_self, Function.update_of_ne hl.symm]
          exact hd l₂ h₂ hl.symm
        · by_cases h₂' : l₂ = d
          · subst h₂'
            rw [Function.update_self, Function.update_of_ne hl]
            exact (hd l₁ h₁ hl).symm
          · rw [Function.update_of_ne h₁', Function.update_of_ne h₂']
            exact hL.disjoint l₁ l₂ hl

/-- Moving a list, also to itself. -/
private lemma Separate.exists_returns_moveList (hL : m.Separate L) {dest src : Option ℕ}
    (hmove : MovesToEmpty m (.moveList dest src)) :
    ∃ m' L', Returns granted m (.moveList dest src) m' ∧ m'.Separate L' := by
  have hself : ∀ d, ∃ m' L', Returns granted m (.moveList (some d) (some d)) m' ∧
      m'.Separate L' := by
    intro d
    obtain ⟨m', hexec, hedits⟩ := (hL.holds d).exists_moveList_self le_rfl
    exact hL.returns_of_edits granted _ ⟨m', [], by rw [exec, hexec]; rfl, hedits⟩
  cases dest with
  | none => exact ⟨m, L, ⟨0, rfl⟩, hL⟩
  | some d =>
    rcases hmove d rfl with rfl | ⟨hsrc, hempty⟩
    · exact hself d
    · obtain ⟨s, rfl⟩ := Option.ne_none_iff_exists'.mp hsrc
      by_cases hne : d = s
      · exact hne ▸ hself d
      · exact hL.exists_returns_moveList_empty granted hne hempty

/-- Moving the members of a list to another one, unless they are in there. -/
private lemma Separate.exists_returns_moveListUnique (hL : m.Separate L) (dest src : Option ℕ) :
    ∃ m' L', Returns granted m (.moveListUnique dest src) m' ∧ m'.Separate L' := by
  cases dest with
  | none => exact ⟨m, L, ⟨0, rfl⟩, hL⟩
  | some d =>
    cases src with
    | none => exact ⟨m, L, ⟨0, rfl⟩, hL⟩
    | some s =>
      by_cases hne : s = d
      · subst hne
        have hloop := (hL.holds s).copyLoop_self granted le_rfl
        refine ⟨m, L, ⟨(L s).length, ?_⟩, hL⟩
        show ((copyLoop _ m (some s) (some s) (listCopierUnique granted _)).map _).map _ = _
        rw [hloop]
        rfl
      · have hcopier : ∀ b (m' : Memory μ) as', as'.length ≤ (L d).length + (L s).length →
            m'.Holds d as' → ∃ m'' as'',
              listCopierUnique granted ((L d).length + (L s).length) m' (some d) b = some m'' ∧
                m'.Edits m'' d as' as'' ∧ as''.length ≤ as'.length + 1 :=
          fun b m' as' hlen h => h.addUniqueToList_edits granted hlen (m'.mbr b)
        obtain ⟨m', as', hloop, hedits⟩ := hL.exists_copyLoop hne le_rfl hcopier
        refine hL.returns_of_edits granted ((L d).length + (L s).length) ⟨m', as', ?_, hedits⟩
        show ((copyLoop _ m (some d) (some s) (listCopierUnique granted _)).map _).map _ = _
        rw [hloop]
        rfl

/-- **Steps.** An operation returns and keeps the lists apart, unless it moves elements to a list
that has elements. -/
lemma Separate.exists_returns (hL : m.Separate L) {op : ListOperation μ} (hop : op.Distinct)
    (hmove : MovesToEmpty m op) : ∃ m' L', Returns granted m op m' ∧ m'.Separate L' := by
  cases op with
  | addToList plist x =>
    cases plist with
    | none => exact ⟨m, L, ⟨0, rfl⟩, hL⟩
    | some l =>
      obtain ⟨m', as', hexec, hedits, -⟩ := (hL.holds l).addToList_edits granted x
      exact hL.returns_of_edits granted 0 ⟨m', as', hexec, hedits⟩
  | addToListOrdered plist x orderFn =>
    cases plist with
    | none => exact ⟨m, L, ⟨0, rfl⟩, hL⟩
    | some l =>
      obtain ⟨m', a, as', hexec, hedits, -⟩ :=
        (hL.holds l).exists_addToListOrdered granted (Nat.lt_succ_self _) x orderFn
      exact hL.returns_of_edits granted _ ⟨m', as', by rw [exec, hexec]; rfl, hedits⟩
  | addUniqueToList plist x =>
    cases plist with
    | none => exact ⟨m, L, ⟨0, rfl⟩, hL⟩
    | some l =>
      obtain ⟨m', as', hexec, hedits, -⟩ := (hL.holds l).addUniqueToList_edits granted le_rfl x
      exact hL.returns_of_edits granted _ ⟨m', as', hexec, hedits⟩
  | copyList dest src =>
    exact hL.returns_of_copier granted (fun _ => listCopier granted) (fun _ => rfl) hop
      fun _ b d m' as' _ h => h.addToList_edits granted (m'.mbr b)
  | copyListUnique dest src =>
    exact hL.returns_of_copier granted (listCopierUnique granted) (fun _ => rfl) hop
      fun fuel b d m' as' hlen h => h.addUniqueToList_edits granted hlen (m'.mbr b)
  | copyListUniqueWithException dest src exception =>
    refine hL.returns_of_copier granted
      (fun fuel => listCopierUniqueWithException granted fuel exception)
      (fun _ => rfl) hop fun fuel b d m' as' hlen h => ?_
    unfold listCopierUniqueWithException
    split_ifs
    · exact h.addUniqueToList_edits granted hlen (m'.mbr b)
    · exact ⟨m', as', rfl, .refl h, Nat.le_succ _⟩
  | copyListFiltered dest src filterFn =>
    refine hL.returns_of_copier granted (fun _ => listCopierWithFilter granted filterFn)
      (fun _ => rfl) hop fun fuel b d m' as' hlen h => ?_
    unfold listCopierWithFilter
    split_ifs
    · exact h.addToList_edits granted (m'.mbr b)
    · exact ⟨m', as', rfl, .refl h, Nat.le_succ _⟩
  | moveList dest src => exact hL.exists_returns_moveList granted hmove
  | moveListUnique dest src => exact hL.exists_returns_moveListUnique granted dest src
  | removeFromList plist x =>
    cases plist with
    | none => exact ⟨m, L, ⟨0, rfl⟩, hL⟩
    | some l =>
      obtain ⟨m', as', hexec, hedits, -⟩ := (hL.holds l).exists_removeFromList le_rfl x
      exact hL.returns_of_edits granted _ ⟨m', as', hexec, hedits⟩
  | removeNthListMember plist n =>
    cases plist with
    | none => exact ⟨m, L, ⟨0, rfl⟩, hL⟩
    | some l =>
      obtain ⟨m', as', hexec, hedits, -⟩ := (hL.holds l).exists_removeNthListMember le_rfl n
      exact hL.returns_of_edits granted _ ⟨m', as', hexec, hedits⟩

omit [DecidableEq μ] in
/-- The elements of a well-formed list are those that the links forward lead to. -/
lemma WellFormed.wellFormedAs (h : m.WellFormed l) (hhead : m.head l = as.head?)
    (hnext : ∀ done a rest, as = done ++ a :: rest → m.next a = rest.head?) :
    m.WellFormedAs l as := by
  obtain ⟨bs, hbs⟩ := h
  obtain ⟨fuel, hvisits⟩ := hbs.visits
  have hbs' : bs = as := by
    have hsame : visits as.length m (some l) = some as := visits_eq hhead hnext le_rfl
    have hmax : visits (max fuel as.length) m (some l) = some bs :=
      (iterateList_extends (le_max_left _ _) (fun _ _ => .refl _) (some l) (m, [])).map _ _ hvisits
    have hmax' : visits (max fuel as.length) m (some l) = some as :=
      (iterateList_extends (le_max_right _ _) (fun _ _ => .refl _) (some l) (m, [])).map _ _ hsame
    exact Option.some.inj (hmax.symm.trans hmax')
  exact hbs' ▸ hbs

/-- **Moving to a list with elements.** If the operation returns, the list is not well formed. -/
lemma Separate.movesToEmpty_of_wellFormed (hL : m.Separate L) {op : ListOperation μ}
    (hreturns : Returns granted m op m') (hm' : ∀ l, m'.WellFormed l) : MovesToEmpty m op := by
  cases op with
  | moveList dest src =>
    intro d hd
    subst hd
    cases src with
    | none =>
      -- a null pointer is followed
      obtain ⟨fuel, hexec⟩ := hreturns
      cases htail : m.tail d with
      | none => simp [exec, moveList, htail] at hexec
      | some t => simp [exec, moveList, htail] at hexec
    | some s =>
      by_contra hnot
      rw [not_or, not_and_or] at hnot
      obtain ⟨hne, hhead⟩ := hnot
      have hsd : d ≠ s := fun h => hne (by rw [h])
      have hnonempty : L d ≠ [] := by
        intro hnil
        have hfirst := (hL.holds d).ring.head_eq
        rw [hnil] at hfirst
        simp [hfirst] at hhead
      obtain ⟨t, ht⟩ : ∃ t, (L d).getLast? = some t :=
        Option.ne_none_iff_exists'.mp fun hnone => hnonempty (List.getLast?_eq_none_iff.mp hnone)
      obtain ⟨m₁, hexec, hhead₁, htail₁, hprev₁, hnext₁⟩ :=
        (hL.holds d).exists_moveList_of_getLast? ht (hL.holds s) hsd (hL.disjoint d s hsd) le_rfl
      obtain rfl : m' = m₁ := hreturns.unique granted ⟨_, by rw [exec, hexec]; rfl⟩
      have hwell : m'.WellFormedAs d (L d ++ L s) := by
        refine (hm' d).wellFormedAs ?_ hnext₁
        rw [hhead₁, List.head?_append_of_ne_nil _ hnonempty]
      cases hs : L s with
      | nil =>
        -- the pointer to the last element is lost
        have htail := hwell.tail
        rw [htail₁, hs, List.append_nil, ht] at htail
        cases htail
      | cons b bs =>
        -- the first of the elements that are moved has no link backward
        have hfirst : m.prev b = none := (hL.holds s).prev_eq (hs.trans (List.nil_append _).symm)
        have hprev := hwell.prev (L d).length b (by simp [hs])
        rw [hprev₁, hfirst, if_neg (by simpa using hnonempty), hs,
          List.getElem?_append_left (by
            have := List.length_pos_of_ne_nil hnonempty
            omega), ← List.getLast?_eq_getElem?, ht] at hprev
        cases hprev
  | _ => trivial

/-- **Well-formed lists.** In every sequence of operations that start from empty lists, where
copying operations are given different lists: all operations return and leave all lists well formed
if and only if no `move_list` moves a list to another one that has elements. -/
theorem keepsWellFormed_iff (ops : List (ListOperation μ)) (hops : ∀ op ∈ ops, op.Distinct) :
    EachReturns (Returns granted) (fun m => ∀ l, m.WellFormed l) empty ops ↔
      EachMet (Returns granted) MovesToEmpty empty ops := by
  refine eachReturns_iff (I := fun m => ∃ L, m.Separate L) ?_ ?_ ?_ ⟨_, empty_separate⟩ hops
  · intro m op m' m'' h h'
    exact h.unique granted h'
  · intro m op hI hop hmove
    obtain ⟨L, hL⟩ := hI
    obtain ⟨m', L', hreturns, hL'⟩ := hL.exists_returns granted hop hmove
    exact ⟨m', hreturns, fun l => ⟨L' l, (hL'.holds l).wellFormedAs⟩, L', hL'⟩
  · intro m op m' hI _ hreturns hm'
    obtain ⟨L, hL⟩ := hI
    exact hL.movesToEmpty_of_wellFormed granted hreturns hm'

/-- Two lists with an element each, the second of which is moved to the first one. -/
def movingOperations : List (ListOperation ℕ) :=
  [.addToList (some 0) (some 1), .addToList (some 1) (some 2), .moveList (some 0) (some 1)]

/-- The list that has got the second element has no link back from it. -/
theorem not_keepsWellFormed_movingOperations : (∀ op ∈ movingOperations, op.Distinct) ∧
    ¬ EachReturns (Returns fun _ => true) (fun m => ∀ l, m.WellFormed l) empty
      movingOperations := by
  refine ⟨by simp [movingOperations, ListOperation.Distinct], ?_⟩
  rintro ⟨m₁, hreturns₁, -, m₂, hreturns₂, -, m₃, hreturns₃, hm₃, -⟩
  have hadds : ∀ l x, (ListOperation.addToList (μ := ℕ) l x).Distinct := fun _ _ => trivial
  obtain ⟨m₁', L₁, hreturns₁', hL₁⟩ :=
    empty_separate.exists_returns (fun _ => true) (hadds (some 0) (some 1)) trivial
  obtain rfl := hreturns₁.unique _ hreturns₁'
  obtain ⟨m₂', L₂, hreturns₂', hL₂⟩ :=
    hL₁.exists_returns (fun _ => true) (hadds (some 1) (some 2)) trivial
  obtain rfl := hreturns₂.unique _ hreturns₂'
  obtain rfl := hreturns₁.unique _ ⟨0, rfl⟩
  obtain rfl := hreturns₂.unique _ ⟨0, rfl⟩
  have hmoves := hL₂.movesToEmpty_of_wellFormed _ hreturns₃ hm₃ 0 rfl
  rcases hmoves with hsame | ⟨-, hempty⟩
  · cases hsame
  · exact absurd hempty (by decide)

/-- A list without elements gets those of another one. -/
theorem keepsWellFormed_emptyDest :
    EachReturns (Returns fun _ => true) (fun m => ∀ l, m.WellFormed l) empty
      [ListOperation.addToList (some 0) (some 1), .moveList (some 1) (some 0)] := by
  refine (keepsWellFormed_iff (fun _ => true) _ (by simp [ListOperation.Distinct])).mpr
    ⟨trivial, fun m₁ hreturns => ⟨?_, fun _ _ => trivial⟩⟩
  obtain rfl := hreturns.unique _ ⟨0, rfl⟩
  rintro d hd
  obtain rfl := Option.some.inj hd
  exact .inr ⟨by simp, rfl⟩

end Memory

end FsmLang
