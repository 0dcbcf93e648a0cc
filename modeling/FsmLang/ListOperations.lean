import Mathlib.Logic.Function.Basic
import Mathlib.Tactic
import FsmLang.LinkedLists
import FsmLang.ActionArray

set_option relaxedAutoImplicit false
set_option autoImplicit false

/-!
# What the list operations do

For each operation: which elements the list has after it, in a memory where the list consists of
given elements before it. Nothing else in memory changes.

## Main results

* `Holds.ring_insert`, `Holds.ring_erase` — the two edits of a ring.
* `Holds.exists_addToList`, `Holds.exists_addToListOrdered`,
  `Holds.exists_addUniqueToListWithTest` — adding a member.
* `exists_copyLoop` — the loops that add the members of one list to another one.
* `Holds.exists_removeFromList` — removing a member.
* `Holds.exists_moveList` — moving the elements to an empty list.
-/

namespace FsmLang.Memory

open CSemantics

variable {μ δ : Type*} [DecidableEq μ] (granted : ℕ → Bool) {fuel : ℕ} {m m' m'' : Memory μ}
  {l : ℕ} {as as' : List ℕ}

/-! ## Edits of the ring -/

section Places

variable {l : ℕ} {as done rest : List ℕ} {k : ℕ}

omit [DecidableEq μ] in
/-- The nodes of the ring are different, those of a part of the list, too. -/
private lemma Holds.nodup_nodes (h : m.Holds l as) {part : List ℕ} (hpart : part.Sublist as) :
    (none :: part.map some).Nodup := by
  rw [List.nodup_cons]
  exact ⟨by simp, (h.nodup.sublist hpart).map (Option.some_injective ℕ)⟩

omit [DecidableEq μ] in
/-- A ring with other nodes between those in `done` and those in `rest`, where only the links there
and those of a node `k` that is in neither have changed. -/
lemma Holds.ring_replace {mid mid' : List ℕ} (h : m.Holds l as) (has : as = done ++ (mid ++ rest))
    (hk : k ∉ done ++ rest)
    (hnext : ∀ p, p ≠ done.getLast? → p ≠ some k →
      sentinel (m'.head l) m'.next p = sentinel (m.head l) m.next p)
    (hprev : ∀ p, p ≠ rest.head? → p ≠ some k →
      sentinel (m'.tail l) m'.prev p = sentinel (m.tail l) m.prev p)
    (hlinks : Links (sentinel (m'.head l) m'.next) (sentinel (m'.tail l) m'.prev)
      (done.getLast? :: (mid'.map some ++ [rest.head?]))) :
    LinkRing (sentinel (m'.head l) m'.next) (sentinel (m'.tail l) m'.prev) none
      (done.map some ++ (mid'.map some ++ rest.map some)) := by
  have hne : ∀ p ∈ none :: (done.map some ++ rest.map some), p ≠ some k := by
    rintro p hp rfl
    rw [← List.map_append] at hp
    rcases List.mem_cons.mp hp with hp | hp
    · cases hp
    · obtain ⟨a, ha, hak⟩ := List.mem_map.mp hp
      exact hk (Option.some.inj hak ▸ ha)
  have hring : LinkRing (sentinel (m.head l) m.next) (sentinel (m.tail l) m.prev) none
      (done.map some ++ (mid.map some ++ rest.map some)) := by
    simpa [has] using h.ring
  refine hring.replace (x := done.getLast?) (y := rest.head?) ?_ ?_ ?_ ?_ ?_ hlinks
  · rw [← List.map_append]
    refine h.nodup_nodes ?_
    rw [has]
    exact (List.Sublist.refl done).append (List.sublist_append_right mid rest)
  · rw [List.getLast?_cons, List.getLast?_map]
    cases done.getLast? <;> rfl
  · cases rest <;> rfl
  · intro p hp hx
    exact hnext p hx (hne p hp)
  · intro p hp hy
    exact hprev p hy (hne p hp)

omit [DecidableEq μ] in
/-- A ring with a new node `k` between those in `done` and those in `rest`. -/
lemma Holds.ring_insert (h : m.Holds l as) (has : as = done ++ rest) (hk : k ∉ as)
    (hlast : sentinel (m'.head l) m'.next done.getLast? = some k) (hnextk : m'.next k = rest.head?)
    (hprevk : m'.prev k = done.getLast?)
    (hfirst : sentinel (m'.tail l) m'.prev rest.head? = some k)
    (hnext : ∀ p, p ≠ done.getLast? → p ≠ some k →
      sentinel (m'.head l) m'.next p = sentinel (m.head l) m.next p)
    (hprev : ∀ p, p ≠ rest.head? → p ≠ some k →
      sentinel (m'.tail l) m'.prev p = sentinel (m.tail l) m.prev p) :
    LinkRing (sentinel (m'.head l) m'.next) (sentinel (m'.tail l) m'.prev) none
      ((done ++ k :: rest).map some) := by
  have hlinks : Links (sentinel (m'.head l) m'.next) (sentinel (m'.tail l) m'.prev)
      (done.getLast? :: ([k].map some ++ [rest.head?])) := by
    simp only [List.map_cons, List.map_nil, List.cons_append, List.nil_append, links_cons_cons,
      links_singleton, sentinel_some, and_true]
    exact ⟨⟨hlast, hprevk⟩, hnextk, hfirst⟩
  have hplaces : as = done ++ ([] ++ rest) := has
  simpa using h.ring_replace hplaces (has ▸ hk) hnext hprev hlinks

omit [DecidableEq μ] in
/-- A ring without the node `k`. -/
lemma Holds.ring_erase (h : m.Holds l as) (has : as = done ++ k :: rest)
    (hlast : sentinel (m'.head l) m'.next done.getLast? = rest.head?)
    (hfirst : sentinel (m'.tail l) m'.prev rest.head? = done.getLast?)
    (hnext : ∀ p, p ≠ done.getLast? → p ≠ some k →
      sentinel (m'.head l) m'.next p = sentinel (m.head l) m.next p)
    (hprev : ∀ p, p ≠ rest.head? → p ≠ some k →
      sentinel (m'.tail l) m'.prev p = sentinel (m.tail l) m.prev p) :
    LinkRing (sentinel (m'.head l) m'.next) (sentinel (m'.tail l) m'.prev) none
      ((done ++ rest).map some) := by
  have hk : k ∉ done ++ rest := by
    have hnd := h.nodup
    rw [has, List.nodup_middle, List.nodup_cons] at hnd
    exact hnd.1
  have hlinks : Links (sentinel (m'.head l) m'.next) (sentinel (m'.tail l) m'.prev)
      (done.getLast? :: (([] : List ℕ).map some ++ [rest.head?])) := by
    simp only [List.map_nil, List.nil_append, links_cons_cons, links_singleton, and_true]
    exact ⟨hlast, hfirst⟩
  have hplaces : as = done ++ ([k] ++ rest) := has
  simpa using h.ring_replace hplaces hk hnext hprev hlinks

end Places

/-! ## Adding -/

omit [DecidableEq μ] in
/-- **Adding at the end.** If `calloc` returns memory, the list has a new last element. -/
lemma Holds.exists_addToList (h : m.Holds l as) (x : Option μ) :
    ∃ m' a, addToList granted m (some l) x = some (m', a) ∧
      m.Edits m' l as (if granted m.callocs then as ++ [m.callocs] else as) ∧
      (granted m.callocs = true → m'.mbr m.callocs = x) := by
  cases hgranted : granted m.callocs with
  | false =>
    refine ⟨{ m with callocs := m.callocs + 1 }, none, ?_, ?_, by simp⟩
    · simp [addToList, calloc, hgranted]
    · rw [if_neg (by simp)]
      exact h.edits_of_not_granted
  | true =>
    have hnew : m.callocs ∉ as := fun hmem => lt_irrefl _ (h.allocated _ hmem)
    have hordinals : (as ++ [m.callocs]).map (Function.update
        (Function.update m.ordinal m.callocs 0) m.callocs (m.count l)) =
          List.range (as ++ [m.callocs]).length := by
      have hold : as.map (Function.update (Function.update m.ordinal m.callocs 0) m.callocs
          (m.count l)) = as.map m.ordinal :=
        List.map_congr_left fun a ha => by
          rw [Function.update_of_ne (ne_of_mem_of_not_mem ha hnew),
            Function.update_of_ne (ne_of_mem_of_not_mem ha hnew)]
      rw [List.map_append, hold, h.ordinals, List.map_singleton, Function.update_self, h.count,
        List.length_append, List.length_singleton, List.range_succ]
    have hallocated : ∀ a ∈ as ++ [m.callocs], a < m.callocs + 1 := by
      intro a ha
      rcases List.mem_append.mp ha with ha | ha
      · exact (h.allocated a ha).trans (Nat.lt_succ_self _)
      · rw [List.mem_singleton.mp ha]
        exact Nat.lt_succ_self _
    have hfresh : ∀ a ∈ as ++ [m.callocs], a ∈ as ∨ m.callocs ≤ a := by
      intro a ha
      rcases List.mem_append.mp ha with ha | ha
      · exact .inl ha
      · exact .inr (List.mem_singleton.mp ha).ge
    rw [if_pos rfl]
    cases has : as.getLast? with
    | none =>
      -- the list was empty
      obtain rfl := List.getLast?_eq_none_iff.mp has
      have hhead : m.head l = none := h.ring.head_eq
      refine ⟨_, some m.callocs, by
        simp only [addToList, calloc, hgranted, if_true, hhead]
        rfl, ⟨⟨?_, ?_, ?_, Nat.le_succ _⟩, ⟨?_, ?_, hordinals, hallocated⟩, hfresh⟩, ?_⟩
      · intro l' hl'
        simp [hl']
      · intro a ha _
        simp [ha.ne]
      · intro a ha
        simp [ha.ne]
      · refine h.ring_insert (List.append_nil _).symm hnew ?_ ?_ ?_ ?_ ?_ ?_
        · simp
        · simp
        · simp
        · simp
        · intro p hp hk
          rw [sentinel_of_ne_none (m.head l) hp]
          simp [sentinel_update_of_ne hk]
        · intro p hp hk
          rw [sentinel_of_ne_none (m.tail l) hp]
          simp [sentinel_update_of_ne hk]
      · simp
      · simp
    | some t =>
      have hmem : t ∈ as := List.mem_of_getLast? has
      have htk : t ≠ m.callocs := ne_of_mem_of_not_mem hmem hnew
      have htail : m.tail l = some t := h.ring.tail_eq.trans has
      obtain ⟨a, hhead⟩ : ∃ a, m.head l = some a := by
        rw [h.ring.head_eq]
        cases as with
        | nil => cases hmem
        | cons a as => exact ⟨a, rfl⟩
      refine ⟨_, some m.callocs, by
        simp only [addToList, calloc, hgranted, if_true, hhead, htail, Option.bind_some]
        rfl, ⟨⟨?_, ?_, ?_, Nat.le_succ _⟩, ⟨?_, ?_, hordinals, hallocated⟩, hfresh⟩, ?_⟩
      · intro l' hl'
        simp [hl']
      · intro a ha hnot
        have hat : a ≠ t := fun h => hnot (h ▸ hmem)
        simp [ha.ne, hat]
      · intro a ha
        simp [ha.ne]
      · refine h.ring_insert (List.append_nil _).symm hnew ?_ ?_ ?_ ?_ ?_ ?_
        · simp [has]
        · simp [htk.symm]
        · simp [has]
        · simp
        · intro p hlast hk
          rw [has] at hlast
          simp [sentinel_update_of_ne hk, sentinel_update_of_ne hlast]
        · intro p hp hk
          rw [sentinel_of_ne_none (m.tail l) hp]
          simp [sentinel_update_of_ne hk]
      · simp [h.count]
      · simp

omit [DecidableEq μ] in
/-- Links that are in place, and then ordinals. -/
lemma Touches.exists_resetOrdinals (fuel : ℕ) (h : m.Touches m' l as)
    (hring : LinkRing (sentinel (m'.head l) m'.next) (sentinel (m'.tail l) m'.prev) none
      (as'.map some)) (hnd : as'.Nodup) (hcount : m'.count l = as'.length)
    (hallocated : ∀ a ∈ as', a < m'.callocs) (hfresh : ∀ a ∈ as', a ∈ as ∨ m.callocs ≤ a)
    (hfuel : as'.length ≤ fuel) :
    ∃ ordinal, resetOrdinals fuel m' (some l) = some { m' with ordinal := ordinal } ∧
      m.Edits { m' with ordinal := ordinal } l as as' := by
  obtain ⟨ordinal, hreset, hordinals, hsame⟩ := Memory.exists_resetOrdinals fuel hring hnd hfuel
  refine ⟨ordinal, hreset, ⟨h.others, ?_, h.members, h.callocs⟩,
    ⟨hring, hcount, hordinals, hallocated⟩, hfresh⟩
  intro a ha hnot
  obtain ⟨hnext, hprev, hord⟩ := h.elements a ha hnot
  refine ⟨hnext, hprev, ?_⟩
  have hnot' : a ∉ as' := by
    intro hmem
    rcases hfresh a hmem with hold | hnew
    · exact hnot hold
    · omega
  exact (hsame a hnot').trans hord

/-- An element with one before it is not the first one. -/
lemma head?_ne_of_getLast? {done rest : List ℕ} {e p : ℕ} (hnd : as.Nodup)
    (has : as = done ++ e :: rest) (hp : done.getLast? = some p) : as.head? ≠ some e := by
  cases done with
  | nil => cases hp
  | cons d done =>
    rw [has] at hnd ⊢
    rintro hde
    obtain rfl : d = e := by simpa using hde
    exact (List.nodup_cons.mp hnd).1 (by simp)

/-- The memory `m'` after the links, the count and the member of a new element, between those in
`done` and those in `rest`, have been stored. -/
structure InsertedBetween (m m' : Memory μ) (l : ℕ) (done rest : List ℕ) (x : Option μ) : Prop where
  touches : m.Touches m' l (done ++ rest)
  ring : LinkRing (sentinel (m'.head l) m'.next) (sentinel (m'.tail l) m'.prev) none
    ((done ++ m.callocs :: rest).map some)
  count : m'.count l = (done ++ rest).length + 1
  callocs : m'.callocs = m.callocs + 1
  mbr : m'.mbr m.callocs = x

section Insert

variable {done rest : List ℕ} {e p : ℕ} {x : Option μ}

omit [DecidableEq μ] in
/-- Once the new element is linked, only the ordinals are to be counted again. -/
lemma InsertedBetween.exists_resetOrdinals (hins : m.InsertedBetween m' l done rest x)
    (h : m.Holds l (done ++ rest)) (hfuel : (done ++ rest).length < fuel) :
    ∃ m'', resetOrdinals fuel m' (some l) = some m'' ∧
      m.Edits m'' l (done ++ rest) (done ++ m.callocs :: rest) ∧ m''.mbr m.callocs = x := by
  have hnew : m.callocs ∉ done ++ rest := fun hmem => lt_irrefl _ (h.allocated _ hmem)
  have hmem : ∀ a ∈ done ++ m.callocs :: rest, a = m.callocs ∨ a ∈ done ++ rest := by
    intro a ha
    simpa [or_left_comm] using ha
  have hlength : (done ++ m.callocs :: rest).length = (done ++ rest).length + 1 := by
    simp only [List.length_append, List.length_cons]
    omega
  have hnodup : (done ++ m.callocs :: rest).Nodup := by
    rw [List.nodup_middle]
    exact List.nodup_cons.mpr ⟨hnew, h.nodup⟩
  have hallocated : ∀ a ∈ done ++ m.callocs :: rest, a < m'.callocs := by
    intro a ha
    rw [hins.callocs]
    rcases hmem a ha with rfl | ha
    · exact Nat.lt_succ_self _
    · exact (h.allocated a ha).trans (Nat.lt_succ_self _)
  obtain ⟨ordinal, hreset, hedits⟩ := hins.touches.exists_resetOrdinals fuel hins.ring hnodup
    (hins.count.trans hlength.symm) hallocated (fun a ha => (hmem a ha).symm.imp_right ge_of_eq)
    (by omega)
  exact ⟨_, hreset, hedits, hins.mbr⟩

omit [DecidableEq μ] in
/-- A new element before the first one. -/
private lemma Holds.addToListOrdered_first (h : m.Holds l (e :: rest))
    {orderFn : ListElement μ → Option μ → Order} (hgranted : granted m.callocs = true)
    (hfind : findElement fuel m (some l) (fun a => decide (orderFn a x = .lessThan)) =
      some (some e)) :
    ∃ m', addToListOrdered granted fuel m (some l) x orderFn =
        (resetOrdinals fuel m' (some l)).map (fun m' => (m', some m.callocs)) ∧
      m.InsertedBetween m' l [] (e :: rest) x := by
  have hnew : m.callocs ∉ e :: rest := fun hmem => lt_irrefl _ (h.allocated _ hmem)
  have hek : e ≠ m.callocs := ne_of_mem_of_not_mem List.mem_cons_self hnew
  have hhead : m.head l = some e := h.ring.head_eq
  have hprev : m.prev e = none := h.prev_eq (List.nil_append _).symm
  simp only [addToListOrdered, hfind, calloc, hgranted, if_true, hhead, Option.bind_some]
  refine ⟨_, rfl, ⟨?_, ?_, ?_, Nat.le_succ _⟩, ?_, ?_, rfl, ?_⟩
  · intro l' hl'
    simp [hl']
  · intro a ha hnot
    have hae : a ≠ e := fun h => hnot (by simp [h])
    simp [ha.ne, hae]
  · intro a ha
    simp [ha.ne]
  · refine h.ring_insert (List.nil_append _).symm hnew ?_ ?_ ?_ ?_ ?_ ?_
    · simp
    · simp
    · simpa [hek, hek.symm] using hprev
    · simp
    · intro q hq hk
      rw [sentinel_of_ne_none (m.head l) hq]
      simp [sentinel_update_of_ne hk]
    · intro q hq hk
      rw [List.head?_cons] at hq
      simp [sentinel_update_of_ne hk, sentinel_update_of_ne hq]
  · simp [h.count]
  · simp

omit [DecidableEq μ] in
/-- A new element between two others. -/
private lemma Holds.addToListOrdered_between (h : m.Holds l (done ++ e :: rest))
    (hlast : done.getLast? = some p) {orderFn : ListElement μ → Option μ → Order}
    (hgranted : granted m.callocs = true)
    (hfind : findElement fuel m (some l) (fun a => decide (orderFn a x = .lessThan)) =
      some (some e)) :
    ∃ m', addToListOrdered granted fuel m (some l) x orderFn =
        (resetOrdinals fuel m' (some l)).map (fun m' => (m', some m.callocs)) ∧
      m.InsertedBetween m' l done (e :: rest) x := by
  have hnew : m.callocs ∉ done ++ e :: rest := fun hmem => lt_irrefl _ (h.allocated _ hmem)
  have hpmem : p ∈ done ++ e :: rest := List.mem_append_left _ (List.mem_of_getLast? hlast)
  have hek : e ≠ m.callocs := ne_of_mem_of_not_mem (by simp) hnew
  have hpk : p ≠ m.callocs := ne_of_mem_of_not_mem hpmem hnew
  have hhead : m.head l ≠ some e := by
    rw [h.ring.head_eq]
    exact head?_ne_of_getLast? h.nodup rfl hlast
  have hprev : m.prev e = some p := (h.prev_eq rfl).trans hlast
  simp only [addToListOrdered, hfind, calloc, hgranted, if_true, Function.update_of_ne hek, hhead,
    if_false, hprev, Option.map_some, Option.bind_some]
  refine ⟨_, rfl, ⟨?_, ?_, ?_, Nat.le_succ _⟩, ?_, ?_, rfl, ?_⟩
  · intro l' hl'
    simp [hl']
  · intro a ha hnot
    have hae : a ≠ e := fun h => hnot (by simp [h])
    have hap : a ≠ p := fun h => hnot (h ▸ hpmem)
    simp [ha.ne, hae, hap]
  · intro a ha
    simp [ha.ne]
  · refine h.ring_insert rfl hnew ?_ ?_ ?_ ?_ ?_ ?_
    · simp [hlast]
    · simp [hpk.symm]
    · simp [hek.symm, hlast]
    · simp
    · intro q hq hk
      rw [hlast] at hq
      simp [sentinel_update_of_ne hk, sentinel_update_of_ne hq]
    · intro q hq hk
      rw [List.head?_cons] at hq
      simp [sentinel_update_of_ne hk, sentinel_update_of_ne hq]
  · simp [h.count]
  · simp

end Insert

omit [DecidableEq μ] in
/-- **Adding in order.** The list has a new element before the first one that is greater, or at the
end, if `calloc` returns memory. -/
lemma Holds.exists_addToListOrdered (h : m.Holds l as) (hfuel : as.length < fuel) (x : Option μ)
    (orderFn : ListElement μ → Option μ → Order) :
    ∃ m' a as', addToListOrdered granted fuel m (some l) x orderFn = some (m', a) ∧
      m.Edits m' l as as' ∧ (granted m.callocs = true → ∃ done rest, as = done ++ rest ∧
        as' = done ++ m.callocs :: rest ∧ m'.mbr m.callocs = x ∧
        (∀ b ∈ done, orderFn (m.element b) x ≠ .lessThan) ∧
        ∀ b ∈ rest.head?, orderFn (m.element b) x = .lessThan) := by
  have hfound := h.findElement_eq fuel hfuel.le fun a => decide (orderFn a x = .lessThan)
  cases hfind : as.find? fun a => decide (orderFn (m.element a) x = .lessThan) with
  | none =>
    rw [hfind] at hfound
    obtain ⟨m', a, hadd, hedits, hmbr⟩ := h.exists_addToList granted x
    refine ⟨m', a, _, ?_, hedits, fun hgranted => ⟨as, [], by simp, if_pos hgranted,
      hmbr hgranted, ?_, by simp⟩⟩
    · rw [addToListOrdered, hfound]
      exact hadd
    · intro b hb
      simpa using List.find?_eq_none.mp hfind b hb
  | some e =>
    rw [hfind] at hfound
    obtain ⟨hless, done, rest, rfl, hdone⟩ := List.find?_eq_some_iff_append.mp hfind
    cases hgranted : granted m.callocs with
    | false =>
      refine ⟨{ m with callocs := m.callocs + 1 }, none, _, ?_, h.edits_of_not_granted, by simp⟩
      simp [addToListOrdered, hfound, calloc, hgranted]
    | true =>
      have hinserted : ∃ m', addToListOrdered granted fuel m (some l) x orderFn =
            (resetOrdinals fuel m' (some l)).map (fun m' => (m', some m.callocs)) ∧
          m.InsertedBetween m' l done (e :: rest) x := by
        cases hlast : done.getLast? with
        | none =>
          obtain rfl := List.getLast?_eq_none_iff.mp hlast
          exact Holds.addToListOrdered_first granted h hgranted hfound
        | some p => exact h.addToListOrdered_between granted hlast hgranted hfound
      obtain ⟨m', hadd, hins⟩ := hinserted
      obtain ⟨m'', hreset, hedits, hmbr⟩ := hins.exists_resetOrdinals h hfuel
      refine ⟨m'', some m.callocs, _, by rw [hadd, hreset]; rfl, hedits, fun _ =>
        ⟨done, e :: rest, rfl, rfl, hmbr, ?_, ?_⟩⟩
      · intro b hb
        simpa using hdone b hb
      · simpa using hless

omit [DecidableEq μ] in
/-- The members of a list after adding one at the end. -/
lemma Holds.exists_addToList_members (h : m.Holds l as) (x : Option μ) :
    ∃ m' a as', addToList granted m (some l) x = some (m', a) ∧ m.Edits m' l as as' ∧
      as'.length ≤ as.length + 1 ∧
      (granted m.callocs = true → as'.map m'.mbr = as.map m.mbr ++ [x]) := by
  obtain ⟨m', a, hadd, hedits, hmbr⟩ := h.exists_addToList granted x
  refine ⟨m', a, _, hadd, hedits, ?_, ?_⟩
  · split_ifs <;> simp
  · intro hgranted
    rw [if_pos hgranted, List.map_append, List.map_singleton, hmbr hgranted,
      hedits.map_mbr h.allocated]

omit [DecidableEq μ] in
/-- **Adding what is not there.** Nothing changes if an element passes the test; otherwise the list
has a new last element, if `calloc` returns memory. -/
lemma Holds.exists_addUniqueToListWithTest (h : m.Holds l as) (hfuel : as.length ≤ fuel)
    (x : Option μ) (testFn : Option μ → ListElement μ → Bool) :
    ∃ m' a as', addUniqueToListWithTest granted fuel m (some l) x testFn = some (m', a) ∧
      m.Edits m' l as as' ∧ as'.length ≤ as.length + 1 ∧
      ((∃ a ∈ as, testFn x (m.element a) = true) → m' = m ∧ as' = as) ∧
      ((∀ a ∈ as, testFn x (m.element a) = false) → granted m.callocs = true →
        as'.map m'.mbr = as.map m.mbr ++ [x]) := by
  rw [addUniqueToListWithTest, h.findElement_eq fuel hfuel, Option.bind_some]
  cases hfind : as.find? fun a => testFn x (m.element a) with
  | some a =>
    have hmem := List.mem_of_find?_eq_some hfind
    have htest := List.find?_some hfind
    refine ⟨m, some a, as, rfl, .refl h, Nat.le_succ _, fun _ => ⟨rfl, rfl⟩, ?_⟩
    intro hall
    rw [hall a hmem] at htest
    cases htest
  | none =>
    obtain ⟨m', a, as', hadd, hedits, hlen, hmembers⟩ := h.exists_addToList_members granted x
    refine ⟨m', a, as', hadd, hedits, hlen, ?_, fun _ => hmembers⟩
    rintro ⟨a, ha, htest⟩
    exact absurd htest (List.find?_eq_none.mp hfind a ha)

/-- The same with the comparison of members: this is `addUniqueToList` on the members. -/
lemma Holds.exists_addUniqueToList (h : m.Holds l as) (hfuel : as.length ≤ fuel) (x : Option μ) :
    ∃ m' a as', addUniqueToList granted fuel m (some l) x = some (m', a) ∧
      m.Edits m' l as as' ∧ as'.length ≤ as.length + 1 ∧ (x ∈ as.map m.mbr → m' = m) ∧
      (granted m.callocs = true →
        as'.map m'.mbr = FsmLang.addUniqueToList (as.map m.mbr) x) := by
  obtain ⟨m', a, as', hadd, hedits, hlen, hin, hout⟩ :=
    h.exists_addUniqueToListWithTest granted hfuel x matchMember
  have hthere : x ∈ as.map m.mbr → m' = m ∧ as' = as := by
    intro hx
    obtain ⟨a, ha, hax⟩ := List.mem_map.mp hx
    exact hin ⟨a, ha, decide_eq_true hax⟩
  refine ⟨m', a, as', hadd, hedits, hlen, fun hx => (hthere hx).1, ?_⟩
  intro hgranted
  unfold FsmLang.addUniqueToList
  split_ifs with hx
  · obtain ⟨rfl, rfl⟩ := hthere hx
    rfl
  · exact hout (fun a ha => decide_eq_false fun hax => hx (List.mem_map.mpr ⟨a, ha, hax⟩)) hgranted

/-! ## Loops that add -/

omit [DecidableEq μ] in
/-- A loop that adds to another list, with what is known of the members of that list. -/
lemma exists_copyLoop {d s : ℕ} {bs : List ℕ} (hd : m.Holds d as) (hs : m.Holds s bs)
    (hne : s ≠ d) (hdisjoint : as.Disjoint bs) (hfuel : bs.length ≤ fuel)
    {copier : Memory μ → Option ℕ → ℕ → Option (Memory μ)} {P : List ℕ → List (Option μ) → Prop}
    (hP : P [] (as.map m.mbr))
    (hcopier : ∀ done b rest m' as', bs = done ++ b :: rest → m.Edits m' d as as' →
      P done (as'.map m'.mbr) → ∃ m'' as'', copier m' (some d) b = some m'' ∧
        m'.Edits m'' d as' as'' ∧ P (done ++ [b]) (as''.map m''.mbr)) :
    ∃ m' as', copyLoop fuel m (some d) (some s) copier = some m' ∧ m.Edits m' d as as' ∧
      P bs (as'.map m'.mbr) := by
  let I : List ℕ → Memory μ × Unit → Prop := fun done r =>
    ∃ as', m.Edits r.1 d as as' ∧ P done (as'.map r.1.mbr)
  have hloop : ∃ r', iterateList fuel (some s) (fun r a =>
      (copier r.1 (some d) a).map fun m => ((m, r.2), false)) (m, ()) = some (r', none) ∧
        I bs r' := by
    refine iterateList_of_invariant fuel (I := I) ?_ ?_ ⟨as, .refl hd, hP⟩ hfuel
    · rintro done r ⟨as', hedits, -⟩
      exact (hedits.frame hs hne hdisjoint).ring
    · rintro done b rest r hbs ⟨as', hedits, hPdone⟩
      obtain ⟨m'', as'', hcopy, hedits', hP'⟩ := hcopier done b rest r.1 as' hbs hedits hPdone
      exact ⟨(m'', r.2), by rw [hcopy]; rfl, as'', hedits.trans hedits', hP'⟩
  obtain ⟨r', hr', as', hedits, hP'⟩ := hloop
  exact ⟨r'.1, as', by rw [copyLoop, hr']; rfl, hedits, hP'⟩

omit [DecidableEq μ] in
/-- A loop whose callback changes nothing. -/
lemma Holds.copyLoop_of_fixed {d : ℕ} (h : m.Holds l as) (hfuel : as.length ≤ fuel)
    {copier : Memory μ → Option ℕ → ℕ → Option (Memory μ)}
    (hcopier : ∀ a ∈ as, copier m (some d) a = some m) :
    copyLoop fuel m (some d) (some l) copier = some m := by
  let I : List ℕ → Memory μ × Unit → Prop := fun _ r => r.1 = m
  have hloop : ∃ r', iterateList fuel (some l) (fun r a =>
      (copier r.1 (some d) a).map fun m => ((m, r.2), false)) (m, ()) = some (r', none) ∧
        I as r' := by
    refine iterateList_of_invariant fuel (I := I) ?_ ?_ rfl hfuel
    · intro done r hr
      have hr : r.1 = m := hr
      rw [hr]
      exact h.ring
    · intro done a rest r has hr
      have hr : r.1 = m := hr
      refine ⟨(m, r.2), ?_, rfl⟩
      rw [hr, hcopier a (by simp [has])]
      rfl
  obtain ⟨r', hr', hm⟩ := hloop
  rw [copyLoop, hr', Option.map_some]
  exact congrArg some hm

/-- A loop that adds the members of a list to the list itself, unless they are in there. -/
lemma Holds.copyLoop_self (h : m.Holds l as) (hfuel : as.length ≤ fuel) :
    copyLoop fuel m (some l) (some l) (listCopierUnique granted fuel) = some m := by
  refine h.copyLoop_of_fixed hfuel fun a ha => ?_
  obtain ⟨m', b, as', hadd, -, -, hsame, -⟩ := h.exists_addUniqueToList granted hfuel (m.mbr a)
  rw [listCopierUnique, hadd, hsame (List.mem_map_of_mem ha)]
  rfl

/-! ## Removing -/

/-- The memory `m'` after an element of `as` has been unlinked: those in `as'` are left in the ring,
unless the element was the only one. -/
structure Unlinked (m m' : Memory μ) (l : ℕ) (as as' : List ℕ) : Prop where
  touches : m.Touches m' l as
  count : m'.count = m.count
  callocs : m'.callocs = m.callocs
  ring : as' ≠ [] →
    LinkRing (sentinel (m'.head l) m'.next) (sentinel (m'.tail l) m'.prev) none (as'.map some)

section Unlink

variable {done rest : List ℕ} {e p n : ℕ}

omit [DecidableEq μ] in
/-- The only element stays the head of the list. -/
private lemma Holds.unlink_only (h : m.Holds l [e]) :
    ∃ m', unlink m l e = some m' ∧ m.Unlinked m' l [e] [] := by
  have hhead : m.head l = some e := h.ring.head_eq
  have htail : m.tail l = some e := h.ring.tail_eq
  have hnext : m.next e = none := h.next_eq (List.nil_append _).symm
  have hunlink : unlink m l e = some { m with
      head := Function.update m.head l (some e)
      prev := Function.update m.prev e none } := by
    simp [unlink, hhead, hnext, htail]
  refine ⟨_, hunlink, ⟨?_, ?_, ?_, le_rfl⟩, rfl, rfl, fun hne => absurd rfl hne⟩
  · intro l' hl'
    simp [hl']
  · intro a ha hnot
    have hae : a ≠ e := fun h => hnot (by simp [h])
    simp [hae]
  · intro a ha
    rfl

omit [DecidableEq μ] in
/-- The first of several elements. -/
private lemma Holds.unlink_first (h : m.Holds l (e :: n :: rest)) :
    ∃ m', unlink m l e = some m' ∧ m.Unlinked m' l (e :: n :: rest) (n :: rest) := by
  have hhead : m.head l = some e := h.ring.head_eq
  have hnext : m.next e = some n := h.next_eq (List.nil_append _).symm
  have hunlink : unlink m l e = some { m with
      head := Function.update m.head l (some n)
      prev := Function.update m.prev n none } := by
    simp [unlink, hhead, hnext]
  refine ⟨_, hunlink, ⟨?_, ?_, ?_, le_rfl⟩, rfl, rfl, fun _ => ?_⟩
  · intro l' hl'
    simp [hl']
  · intro a ha hnot
    have han : a ≠ n := fun h => hnot (by simp [h])
    simp [han]
  · intro a ha
    rfl
  · refine h.ring_erase (List.nil_append _).symm ?_ ?_ ?_ ?_
    · simp
    · simp
    · intro q hq hk
      exact sentinel_of_ne_none (m.head l) hq
    · intro q hq hk
      exact sentinel_update_of_ne hq

omit [DecidableEq μ] in
/-- The last of several elements. -/
private lemma Holds.unlink_last (h : m.Holds l (done ++ [e])) (hdone : done.getLast? = some p) :
    ∃ m', unlink m l e = some m' ∧ m.Unlinked m' l (done ++ [e]) (done ++ []) := by
  have hpmem : p ∈ done := List.mem_of_getLast? hdone
  have hhead : some e ≠ m.head l := by
    rw [h.ring.head_eq]
    exact (head?_ne_of_getLast? h.nodup rfl hdone).symm
  have htail : m.tail l = some e := by rw [h.ring.tail_eq]; simp
  have hprev : m.prev e = some p := (h.prev_eq rfl).trans hdone
  have hunlink : unlink m l e = some { m with
      tail := Function.update m.tail l (some p)
      next := Function.update m.next p none } := by
    simp [unlink, hhead, hprev, htail]
  refine ⟨_, hunlink, ⟨?_, ?_, ?_, le_rfl⟩, rfl, rfl, fun _ => ?_⟩
  · intro l' hl'
    simp [hl']
  · intro a ha hnot
    have hap : a ≠ p := fun h => hnot (by simp [h, hpmem])
    simp [hap]
  · intro a ha
    rfl
  · refine h.ring_erase rfl ?_ ?_ ?_ ?_
    · simp [hdone]
    · simp [hdone]
    · intro q hq hk
      rw [hdone] at hq
      exact sentinel_update_of_ne hq
    · intro q hq hk
      exact sentinel_of_ne_none (m.tail l) hq

omit [DecidableEq μ] in
/-- An element between two others. -/
private lemma Holds.unlink_between (h : m.Holds l (done ++ e :: n :: rest))
    (hdone : done.getLast? = some p) :
    ∃ m', unlink m l e = some m' ∧
      m.Unlinked m' l (done ++ e :: n :: rest) (done ++ n :: rest) := by
  have hpmem : p ∈ done := List.mem_of_getLast? hdone
  have hhead : some e ≠ m.head l := by
    rw [h.ring.head_eq]
    exact (head?_ne_of_getLast? h.nodup rfl hdone).symm
  have htail : some e ≠ m.tail l := by
    rw [h.ring.tail_eq, List.getLast?_append_cons, List.getLast?_cons_cons]
    intro hlast
    have hnd := h.nodup
    rw [List.nodup_middle, List.nodup_cons] at hnd
    exact hnd.1 (List.mem_append_right done (List.mem_of_getLast? hlast.symm))
  have hprev : m.prev e = some p := (h.prev_eq rfl).trans hdone
  have hnext : m.next e = some n := h.next_eq rfl
  have hunlink : unlink m l e = some { m with
      next := Function.update m.next p (some n)
      prev := Function.update m.prev n (some p) } := by
    simp [unlink, hhead, hprev, hnext, htail]
  refine ⟨_, hunlink, ⟨?_, ?_, ?_, le_rfl⟩, rfl, rfl, fun _ => ?_⟩
  · intro l' hl'
    simp
  · intro a ha hnot
    have hap : a ≠ p := fun h => hnot (by simp [h, hpmem])
    have han : a ≠ n := fun h => hnot (by simp [h])
    simp [hap, han]
  · intro a ha
    rfl
  · refine h.ring_erase rfl ?_ ?_ ?_ ?_
    · simp [hdone]
    · simp [hdone]
    · intro q hq hk
      rw [hdone] at hq
      exact sentinel_update_of_ne hq
    · intro q hq hk
      exact sentinel_update_of_ne hq

omit [DecidableEq μ] in
/-- The element is not in the ring any more, unless it is the only one. -/
private lemma Holds.exists_unlink (h : m.Holds l (done ++ e :: rest)) :
    ∃ m', unlink m l e = some m' ∧ m.Unlinked m' l (done ++ e :: rest) (done ++ rest) := by
  cases hdone : done.getLast? with
  | none =>
    obtain rfl := List.getLast?_eq_none_iff.mp hdone
    cases rest with
    | nil => exact Holds.unlink_only h
    | cons n rest => exact Holds.unlink_first h
  | some p =>
    cases rest with
    | nil => exact h.unlink_last hdone
    | cons n rest => exact h.unlink_between hdone

end Unlink

/-- **Removing.** The first element with the member is not in the list any more. -/
lemma Holds.exists_removeFromList (h : m.Holds l as) (hfuel : as.length ≤ fuel) (x : Option μ) :
    ∃ m' as', removeFromList fuel m (some l) x = some m' ∧ m.Edits m' l as as' ∧
      as'.map m'.mbr = (as.map m.mbr).erase x := by
  simp only [removeFromList, h.findElement_eq fuel hfuel, Option.bind_some]
  cases hfind : as.find? fun a => matchMember x (m.element a) with
  | none =>
    have hx : x ∉ as.map m.mbr := by
      intro hx
      obtain ⟨a, ha, hax⟩ := List.mem_map.mp hx
      exact List.find?_eq_none.mp hfind a ha (decide_eq_true hax)
    exact ⟨m, as, rfl, .refl h, (List.erase_of_not_mem hx).symm⟩
  | some e =>
    obtain ⟨htest, done, rest, has, hbefore⟩ := List.find?_eq_some_iff_append.mp hfind
    have hmbr : m.mbr e = x := of_decide_eq_true htest
    have hbefore' : x ∉ done.map m.mbr := by
      intro hx
      obtain ⟨a, ha, hax⟩ := List.mem_map.mp hx
      simpa [matchMember, element, hax] using hbefore a ha
    have hnd := h.nodup
    rw [has, List.nodup_middle, List.nodup_cons] at hnd
    have hsub : ∀ a ∈ done ++ rest, a ∈ as := by
      intro a ha
      rw [has]
      simp only [List.mem_append, List.mem_cons] at ha ⊢
      tauto
    have hlength : as.length = (done ++ rest).length + 1 := by
      simp only [has, List.length_append, List.length_cons]
      omega
    obtain ⟨m₁, hunlink, hunlinked⟩ := (has ▸ h).exists_unlink
    obtain ⟨htouches, hcount₁, hcallocs, hring⟩ := has ▸ hunlinked
    simp only [hunlink, Option.bind_some, Function.update_self, hcount₁]
    -- once the links are in place, only the ordinals are to be counted again
    have hcounted : ∀ m₂ : Memory μ, m.Touches m₂ l as →
        LinkRing (sentinel (m₂.head l) m₂.next) (sentinel (m₂.tail l) m₂.prev) none
          ((done ++ rest).map some) →
        m₂.count l = m.count l - 1 → m₂.callocs = m₁.callocs →
        ∃ m' as', resetOrdinals fuel m₂ (some l) = some m' ∧ m.Edits m' l as as' ∧
          as'.map m'.mbr = (as.map m.mbr).erase x := by
      intro m₂ htouches hring₂ hcount hcallocs₂
      obtain ⟨ordinal, hreset, hedits⟩ := htouches.exists_resetOrdinals fuel hring₂ hnd.2
        (by
          rw [hcount, h.count]
          omega)
        (fun a ha => by
          rw [hcallocs₂, hcallocs]
          exact h.allocated a (hsub a ha))
        (fun a ha => .inl (hsub a ha)) (by omega)
      refine ⟨_, _, hreset, hedits, ?_⟩
      rw [hedits.map_mbr fun b hb => h.allocated b (hsub b hb), has]
      simp [List.erase_append_right _ hbefore', hmbr]
    have hmem : e ∈ as := by simp [has]
    have hnext : ∀ a, a < m.callocs → a ∉ as → Function.update m₁.next e none a = m.next a := by
      intro a ha hnot
      rw [Function.update_of_ne (ne_of_mem_of_not_mem hmem hnot).symm]
      exact (htouches.elements a ha hnot).1
    split_ifs with hzero
    · -- the list has become empty
      have hempty : done ++ rest = [] := by
        rw [h.count] at hzero
        exact List.length_eq_zero_iff.mp (by omega)
      refine hcounted _ ⟨?_, ?_, htouches.members, htouches.callocs⟩ ?_ ?_ rfl
      · intro l' hl'
        obtain ⟨hhead, htail, -⟩ := htouches.others l' hl'
        simp [hl', hhead, htail]
      · intro a ha hnot
        exact ⟨hnext a ha hnot, (htouches.elements a ha hnot).2⟩
      · rw [hempty]
        simp [LinkRing]
      · simp
    · have hne : done ++ rest ≠ [] := by
        intro hempty
        rw [h.count, hlength, hempty] at hzero
        exact hzero rfl
      refine hcounted _ ⟨?_, ?_, htouches.members, htouches.callocs⟩ ?_ ?_ rfl
      · intro l' hl'
        obtain ⟨hhead, htail, -⟩ := htouches.others l' hl'
        simp [hl', hhead, htail]
      · intro a ha hnot
        exact ⟨hnext a ha hnot, (htouches.elements a ha hnot).2⟩
      · refine (hring hne).congr ?_ fun _ _ => rfl
        intro q hq
        cases q with
        | none => rfl
        | some a =>
          have hae : a ≠ e := by
            rintro rfl
            simp at hq
            exact hnd.1 (List.mem_append.mpr hq)
          simp [hae]
      · simp

omit [DecidableEq μ] in
/-- The ordinal of an element is its place. -/
lemma Holds.ordinal_getElem (h : m.Holds l as) {i : ℕ} (hi : i < as.length) :
    m.ordinal as[i] = i := by
  have hget : (as.map m.ordinal)[i]? = some (m.ordinal as[i]) := by
    rw [List.getElem?_map, List.getElem?_eq_getElem hi, Option.map_some]
  rw [h.ordinals] at hget
  simpa using (List.getElem?_eq_some_iff.mp hget).2.symm

omit [DecidableEq μ] in
/-- The member at a place. -/
private lemma Holds.findNthListMember_eq (h : m.Holds l as) (hfuel : as.length ≤ fuel) (n : ℕ) :
    findNthListMember fuel m (some l) n = some (as[n]?.bind m.mbr) := by
  have hfind : as.find? (fun a => decide ((m.element a).ordinal = n)) = as[n]? := by
    by_cases hn : n < as.length
    · rw [List.getElem?_eq_getElem hn, List.find?_eq_some_iff_getElem]
      refine ⟨decide_eq_true (h.ordinal_getElem hn), n, hn, rfl, ?_⟩
      intro j hj
      have hjn : j < as.length := hj.trans hn
      have hord : m.ordinal as[j] = j := h.ordinal_getElem hjn
      simp [element, hord, hj.ne]
    · rw [List.getElem?_eq_none (by omega), List.find?_eq_none]
      intro a ha hord
      obtain ⟨i, hi, rfl⟩ := List.getElem_of_mem ha
      have hin : m.ordinal as[i] = n := of_decide_eq_true hord
      rw [h.ordinal_getElem hi] at hin
      omega
  rw [findNthListMember, h.findElement_eq fuel hfuel, hfind, Option.map_some]

/-- **Removing by place.** The member at the place is removed, where it is found first. -/
lemma Holds.exists_removeNthListMember (h : m.Holds l as) (hfuel : as.length ≤ fuel) (n : ℕ) :
    ∃ m' as', removeNthListMember fuel m (some l) n = some m' ∧ m.Edits m' l as as' ∧
      as'.map m'.mbr = if (as[n]?.bind m.mbr).isSome then
        (as.map m.mbr).erase (as[n]?.bind m.mbr) else as.map m.mbr := by
  rw [removeNthListMember, h.findNthListMember_eq hfuel, Option.bind_some]
  split_ifs
  · exact h.exists_removeFromList hfuel _
  · exact ⟨m, as, rfl, .refl h, rfl⟩

/-! ## Moving -/

omit [DecidableEq μ] in
/-- Ordinals that are raised. -/
lemma Holds.exists_updateOrdinals (h : m.Holds l as) (hfuel : as.length ≤ fuel) (start : ℕ) :
    ∃ ordinal, updateOrdinals fuel m (some l) start = some { m with ordinal := ordinal } ∧
      ∀ a ∉ as, ordinal a = m.ordinal a := by
  let I : List ℕ → Memory μ × ℕ → Prop := fun done r => r.2 = start ∧
    ∃ ordinal, r.1 = { m with ordinal := ordinal } ∧ ∀ a ∉ as, ordinal a = m.ordinal a
  have hloop : ∃ r', iterateList fuel (some l) (fun s a => some (({ s.1 with
      ordinal := Function.update s.1.ordinal a (s.1.ordinal a + s.2) }, s.2), false))
        (m, start) = some (r', none) ∧ I as r' := by
    refine iterateList_of_invariant fuel (I := I) ?_ ?_ ⟨rfl, m.ordinal, rfl, fun _ _ => rfl⟩ hfuel
    · rintro done r ⟨-, ordinal, hr, -⟩
      rw [hr]
      exact h.ring
    · rintro done a rest r has ⟨hstart, ordinal, hr, hrest⟩
      refine ⟨_, rfl, hstart, Function.update ordinal a (ordinal a + r.2), by rw [hr], ?_⟩
      intro b hb
      have hab : b ≠ a := by
        rintro rfl
        exact hb (by simp [has])
      rw [Function.update_of_ne hab]
      exact hrest b hb
  obtain ⟨r', hr', -, ordinal, hm, hrest⟩ := hloop
  exact ⟨ordinal, by rw [updateOrdinals, hr', Option.map_some, hm], hrest⟩

section Move

variable {d s : ℕ} {bs : List ℕ}

omit [DecidableEq μ] in
/-- **Moving to an empty list.** The elements are those of the other list, which is empty then. -/
lemma Holds.exists_moveList (fuel : ℕ) (hd : m.Holds d []) (hs : m.Holds s bs) (hne : d ≠ s) :
    ∃ m', moveList fuel m (some d) (some s) = some (m', some d) ∧ m'.Holds d bs ∧ m'.Holds s [] ∧
      ∀ l as, l ≠ d → l ≠ s → m.Holds l as → m'.Holds l as := by
  have htail : m.tail d = none := hd.ring.tail_eq
  refine ⟨_, by simp only [moveList, htail, Option.map_some, Option.bind_some]; rfl, ?_, ?_, ?_⟩
  · refine ⟨?_, ?_, hs.ordinals, hs.allocated⟩
    · simpa [hne] using hs.ring
    · simp [hne, hd.count, hs.count]
  · refine ⟨?_, ?_, rfl, by simp⟩
    · simp [LinkRing]
    · simp
  · intro l as hld hls h
    exact h.congr (by simp [hld, hls]) (by simp [hld, hls]) (by simp [hld, hls]) le_rfl
      fun _ _ => ⟨rfl, rfl, rfl⟩

omit [DecidableEq μ] in
/-- **Moving a list to itself.** The list is empty then. -/
lemma Holds.exists_moveList_self (h : m.Holds l as) (hfuel : as.length ≤ fuel) :
    ∃ m', moveList fuel m (some l) (some l) = some (m', some l) ∧ m.Edits m' l as [] := by
  have hempty : ∀ m₂ : Memory μ, m.Touches m₂ l as → m₂.head l = none → m₂.tail l = none →
      m₂.count l = 0 → m.Edits m₂ l as [] := by
    intro m₂ htouches hhead htail hcount
    exact ⟨htouches, ⟨by simp [LinkRing, hhead, htail], hcount, rfl, by simp⟩, by simp⟩
  cases has : as.getLast? with
  | none =>
    have htail : m.tail l = none := h.ring.tail_eq.trans has
    refine ⟨_, by simp only [moveList, htail, Option.map_some, Option.bind_some]; rfl, ?_⟩
    refine hempty _ ⟨?_, ?_, fun _ _ => rfl, le_rfl⟩ ?_ ?_ ?_
    · intro l' hl'
      simp [hl']
    · exact fun _ _ _ => ⟨rfl, rfl, rfl⟩
    · simp
    · simp
    · simp
  | some t =>
    have htail : m.tail l = some t := h.ring.tail_eq.trans has
    have hmem : t ∈ as := List.mem_of_getLast? has
    obtain ⟨ordinal, hupdate, hsame⟩ := h.exists_updateOrdinals hfuel (m.count l)
    refine ⟨_, by simp only [moveList, htail, hupdate, Option.map_some, Option.bind_some]; rfl, ?_⟩
    refine hempty _ ⟨?_, ?_, fun _ _ => rfl, le_rfl⟩ ?_ ?_ ?_
    · intro l' hl'
      simp [hl']
    · intro a _ hnot
      have hat : a ≠ t := (ne_of_mem_of_not_mem hmem hnot).symm
      simp [hat, hsame a hnot]
    · simp
    · simp
    · simp

omit [DecidableEq μ] in
/-- **Moving to a list with elements.** The link forward from the last element leads to the
elements that are moved; no link leads back to it. -/
lemma Holds.exists_moveList_of_getLast? (hd : m.Holds d as) {t : ℕ} (ht : as.getLast? = some t)
    (hs : m.Holds s bs) (hne : d ≠ s) (hdisjoint : as.Disjoint bs) (hfuel : bs.length ≤ fuel) :
    ∃ m', moveList fuel m (some d) (some s) = some (m', some d) ∧ m'.head d = as.head? ∧
      m'.tail d = bs.getLast? ∧ m'.prev = m.prev ∧
      ∀ done a rest, as ++ bs = done ++ a :: rest → m'.next a = rest.head? := by
  have htail : m.tail d = some t := hd.ring.tail_eq.trans ht
  have hmem : t ∈ as := List.mem_of_getLast? ht
  obtain ⟨ordinal, hupdate, -⟩ := hs.exists_updateOrdinals hfuel (m.count d)
  refine ⟨_, by simp only [moveList, htail, hupdate, Option.map_some, Option.bind_some]; rfl,
    ?_, ?_, ?_, ?_⟩
  · simpa [hne] using hd.ring.head_eq
  · simpa [hne] using hs.ring.tail_eq
  · rfl
  · -- the elements of the second list keep their links
    have hsecond : ∀ done a rest, bs = done ++ a :: rest →
        Function.update m.next t (m.head s) a = rest.head? := by
      intro done a rest hbs
      have hat : a ≠ t := by
        rintro rfl
        exact hdisjoint hmem (by simp [hbs])
      rw [Function.update_of_ne hat, hs.next_eq hbs]
    intro done a rest hform
    rcases List.append_eq_append_iff.mp hform with ⟨part, -, hbs⟩ | ⟨part, has, hrest⟩
    · exact hsecond part a rest hbs
    · cases part with
      | nil => exact hsecond [] a rest hrest.symm
      | cons b part =>
        obtain ⟨rfl, rfl⟩ := List.cons.inj hrest
        rcases List.eq_nil_or_concat' part with rfl | ⟨part', u, rfl⟩
        · -- the last element of the first list
          have hat : a = t := by simpa [has] using ht
          simp [hat, hs.ring.head_eq]
        · have hut : u = t := by
            have hlast : as.getLast? = some u := by
              rw [has, ← List.cons_append, ← List.append_assoc, List.getLast?_concat]
            exact Option.some.inj (hlast.symm.trans ht)
          have hat : a ≠ t := by
            have hnd := hd.nodup
            rw [has, List.nodup_append, List.nodup_cons] at hnd
            rintro rfl
            exact hnd.2.1.1 (by simp [hut])
          simp only [Function.update_of_ne hat]
          rw [hd.next_eq has]
          simp

end Move

end FsmLang.Memory
