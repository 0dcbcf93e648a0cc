import Mathlib.Data.List.Basic
import Mathlib.Tactic

set_option relaxedAutoImplicit false
set_option autoImplicit false

/-!
# Lists that are grouped and lists that are printed

Two things that programs do with a list by walking over it: collect its members under leaders,
and print them with separators, where a flag that all callbacks share says whether a separator
is due.

## Main definitions

* `clusters` — the members of a list under leaders, each under the first leader that it goes with.
* `printList` — a walk that prints and hands the flag on.
* `readSeparated` — a list with separators, as it is read.

## Main results

* `clusters_spec` — every member is in a group whose leader it goes with.
* `clusters_members_perm` — grouping loses and repeats no member.
* `Prints.printList` — walks within walks print one list.
* `readSeparated_printSeparated` — which is read back.
* `exists_zipIdx_eq_append` — a member with its place.
* `erase_eq_eraseIdx_iff` — when removing a member removes it from a given place.
-/

namespace CSemantics

/-! ## Grouping -/

section Grouping

variable {α : Type*} (same : α → α → Bool)

/-- Members of a list with their leader. -/
structure Cluster (α : Type*) where
  leader : α
  members : List α
  deriving DecidableEq, Repr

/-- Add a member to the first group whose leader it goes with, or as a new group. -/
def insertCluster : List (Cluster α) → α → List (Cluster α)
  | [], a => [⟨a, [a]⟩]
  | g :: gs, a =>
    if same g.leader a then { g with members := g.members ++ [a] } :: gs
    else g :: insertCluster gs a

/-- Cluster the members of a list. -/
def clusters (l : List α) : List (Cluster α) := l.foldl (insertCluster same) []

variable {same}

/-- A member of a group has been in it before, or is the new one and goes with the leader. -/
lemma of_mem_insertCluster (hrefl : ∀ a, same a a = true) {gs : List (Cluster α)} {a b : α}
    {g : Cluster α} (hg : g ∈ insertCluster same gs a) (hb : b ∈ g.members) :
    (∃ g' ∈ gs, g'.leader = g.leader ∧ b ∈ g'.members) ∨ b = a ∧ same g.leader a = true := by
  induction gs with
  | nil =>
    obtain rfl := List.mem_singleton.mp hg
    obtain rfl := List.mem_singleton.mp hb
    exact .inr ⟨rfl, hrefl b⟩
  | cons g' gs ih =>
    rw [insertCluster] at hg
    split_ifs at hg with hsame
    · rcases List.mem_cons.mp hg with h | h
      · subst h
        rcases List.mem_append.mp hb with hb | hb
        · exact .inl ⟨g', List.mem_cons_self, rfl, hb⟩
        · exact .inr ⟨List.mem_singleton.mp hb, hsame⟩
      · exact .inl ⟨g, List.mem_cons_of_mem g' h, rfl, hb⟩
    · rcases List.mem_cons.mp hg with h | h
      · subst h
        exact .inl ⟨g, List.mem_cons_self, rfl, hb⟩
      · rcases ih h with hold | hnew
        · obtain ⟨g'', hg'', hleader, hmem⟩ := hold
          exact .inl ⟨g'', List.mem_cons_of_mem g' hg'', hleader, hmem⟩
        · exact .inr hnew

/-- The new member is in a group, and all others stay in one. -/
lemma exists_mem_insertCluster (gs : List (Cluster α)) (a : α) :
    (∃ g ∈ insertCluster same gs a, a ∈ g.members) ∧
      ∀ g ∈ gs, ∀ b ∈ g.members, ∃ g' ∈ insertCluster same gs a, b ∈ g'.members := by
  induction gs with
  | nil => simp [insertCluster]
  | cons g gs ih =>
    obtain ⟨⟨g₁, hg₁, ha⟩, hold⟩ := ih
    rw [insertCluster]
    split_ifs with hsame
    · refine ⟨⟨_, List.mem_cons_self, by simp⟩, ?_⟩
      intro g' hg' b hb
      rcases List.mem_cons.mp hg' with h | h
      · subst h
        exact ⟨_, List.mem_cons_self, List.mem_append_left _ hb⟩
      · exact ⟨g', List.mem_cons_of_mem _ h, hb⟩
    · refine ⟨⟨g₁, List.mem_cons_of_mem g hg₁, ha⟩, ?_⟩
      intro g' hg' b hb
      rcases List.mem_cons.mp hg' with h | h
      · subst h
        exact ⟨g', List.mem_cons_self, hb⟩
      · obtain ⟨g₂, hg₂, hb₂⟩ := hold g' h b hb
        exact ⟨g₂, List.mem_cons_of_mem g hg₂, hb₂⟩

/-- **Groups.** The groups hold the members of the list, each under a leader that it goes with. -/
lemma clusters_spec (hrefl : ∀ a, same a a = true) (l : List α) :
    (∀ g ∈ clusters same l, ∀ a ∈ g.members, a ∈ l ∧ same g.leader a = true) ∧
      ∀ a ∈ l, ∃ g ∈ clusters same l, a ∈ g.members := by
  -- `done` has been grouped, and `l` is still to come
  have hfold : ∀ (l done : List α) (gs : List (Cluster α)),
      ((∀ g ∈ gs, ∀ a ∈ g.members, a ∈ done ∧ same g.leader a = true) ∧
          ∀ a ∈ done, ∃ g ∈ gs, a ∈ g.members) →
        (∀ g ∈ l.foldl (insertCluster same) gs, ∀ a ∈ g.members,
          a ∈ done ++ l ∧ same g.leader a = true) ∧
        ∀ a ∈ done ++ l, ∃ g ∈ l.foldl (insertCluster same) gs, a ∈ g.members := by
    intro l
    induction l with
    | nil =>
      intro done gs h
      simpa using h
    | cons b l ih =>
      intro done gs h
      have hstep := @exists_mem_insertCluster α same gs b
      have := ih (done ++ [b]) (insertCluster same gs b) (by
        constructor
        · intro g hg a ha
          rcases of_mem_insertCluster hrefl hg ha with hold | hnew
          · obtain ⟨g', hg', hleader, hmem⟩ := hold
            obtain ⟨hdone, hsame⟩ := h.1 g' hg' a hmem
            exact ⟨List.mem_append_left _ hdone, hleader ▸ hsame⟩
          · obtain ⟨rfl, hsame⟩ := hnew
            exact ⟨by simp, hsame⟩
        · intro a ha
          rcases List.mem_append.mp ha with ha | ha
          · obtain ⟨g, hg, hmem⟩ := h.2 a ha
            exact hstep.2 g hg a hmem
          · rw [List.mem_singleton.mp ha]
            exact hstep.1)
      simpa using this
  simpa [clusters] using hfold l [] [] (by simp)

/-- A new member is added once. -/
lemma insertCluster_members_perm (gs : List (Cluster α)) (a : α) :
    ((insertCluster same gs a).flatMap Cluster.members).Perm
      (gs.flatMap Cluster.members ++ [a]) := by
  induction gs with
  | nil => exact List.Perm.refl _
  | cons g gs ih =>
    rw [insertCluster]
    split_ifs
    · -- the member goes to the end of the first group
      rw [List.flatMap_cons, List.flatMap_cons, List.append_assoc, List.append_assoc]
      exact List.Perm.append_left _ List.perm_append_comm
    · rw [List.flatMap_cons, List.flatMap_cons, List.append_assoc]
      exact List.Perm.append_left _ ih

/-- The members of all groups are those of the list, each as often as there. -/
lemma clusters_members_perm (l : List α) :
    ((clusters same l).flatMap Cluster.members).Perm l := by
  -- what has been grouped is a permutation of the members so far
  have hfold : ∀ (l : List α) (gs : List (Cluster α)),
      ((l.foldl (insertCluster same) gs).flatMap Cluster.members).Perm
        (gs.flatMap Cluster.members ++ l) := by
    intro l
    induction l with
    | nil =>
      intro gs
      simp
    | cons a l ih =>
      intro gs
      have hstep := (@insertCluster_members_perm α same gs a).append_right l
      rw [List.append_assoc, List.singleton_append] at hstep
      exact (ih _).trans hstep
  simpa [clusters] using hfold l []

end Grouping

/-! ## Printing with separators -/

section Printing

variable {α β : Type*}

/-- A member as it is printed, with or without a separator before it. -/
structure Separated (β : Type*) where
  separator : Bool
  member : β
  deriving DecidableEq, Repr

/-- Print one member: there is a separator unless the flag `first` is set, which is cleared. -/
def printMember (first : Bool) (b : β) : List (Separated β) × Bool := ([⟨!first, b⟩], false)

/-- Print for each member of a list, and hand on the flag. -/
def printList (print : Bool → α → List (Separated β) × Bool) :
    Bool → List α → List (Separated β) × Bool
  | first, [] => ([], first)
  | first, a :: as =>
    ((print first a).1 ++ (printList print (print first a).2 as).1,
      (printList print (print first a).2 as).2)

/-- The members of a list, all but the first one with a separator. -/
def printSeparated (first : Bool) : List β → List (Separated β)
  | [] => []
  | b :: bs => ⟨!first, b⟩ :: printSeparated false bs

/-- A list as it is read: separators stand between its members, and nowhere else. -/
def readSeparated : List (Separated β) → Option (List β)
  | [] => some []
  | x :: xs =>
    if x.separator = false ∧ ∀ y ∈ xs, y.separator = true then
      some (x.member :: xs.map Separated.member)
    else none

/-- The callback prints the members that `f` gives. -/
def Prints (print : Bool → α → List (Separated β) × Bool) (f : α → List β) : Prop :=
  ∀ first a, print first a = (printSeparated first (f a), first && (f a).isEmpty)

/-- A member is printed as itself. -/
lemma prints_printMember : Prints (printMember (β := β)) fun b => [b] := by
  intro first b
  simp [printMember, printSeparated]

/-- Members printed behind others. -/
lemma printSeparated_append (first : Bool) (l l' : List β) :
    printSeparated first (l ++ l') =
      printSeparated first l ++ printSeparated (first && l.isEmpty) l' := by
  induction l generalizing first with
  | nil => simp [printSeparated]
  | cons b l ih => simp [printSeparated, ih]

/-- **Walks.** A walk whose callback prints the members `f a` prints all of them as one list. -/
lemma Prints.printList {print : Bool → α → List (Separated β) × Bool} {f : α → List β}
    (h : Prints print f) : Prints (CSemantics.printList print) fun l => l.flatMap f := by
  intro first l
  induction l generalizing first with
  | nil => simp [CSemantics.printList, printSeparated]
  | cons a l ih =>
    have hempty : (f a ++ l.flatMap f).isEmpty = ((f a).isEmpty && (l.flatMap f).isEmpty) := by
      cases f a <;> rfl
    show CSemantics.printList print first (a :: l) =
      (printSeparated first (f a ++ l.flatMap f), first && (f a ++ l.flatMap f).isEmpty)
    rw [CSemantics.printList, h first a, ih, printSeparated_append, hempty, Bool.and_assoc]

/-- A walk that prints one member for each of a list's members. -/
lemma prints_map (g : α → β) :
    Prints (printList fun first a => printMember first (g a)) (List.map g) := by
  intro first l
  have hone : Prints (fun first a => printMember first (g a)) fun a => [g a] :=
    fun first a => prints_printMember first (g a)
  rw [List.map_eq_flatMap]
  exact hone.printList first l

/-- **Reading.** What is printed is read back. -/
lemma readSeparated_printSeparated (l : List β) :
    readSeparated (printSeparated true l) = some l := by
  have hrest : ∀ l : List β, (∀ y ∈ printSeparated false l, y.separator = true) ∧
      (printSeparated false l).map Separated.member = l := by
    intro l
    induction l with
    | nil => simp [printSeparated]
    | cons b l ih =>
      rw [printSeparated]
      simpa using ih
  cases l with
  | nil => rfl
  | cons b l =>
    obtain ⟨hsep, hmembers⟩ := hrest l
    rw [printSeparated, readSeparated, if_pos ⟨rfl, hsep⟩, hmembers]

/-! ## Reading -/

variable {γ : Type*} {read : β → Option (List γ)}

/-- Read every member of a list and append what is read. -/
def readEach (read : β → Option (List γ)) : List β → Option (List γ)
  | [] => some []
  | b :: bs => (read b).bind fun l => (readEach read bs).map fun l' => l ++ l'

/-- Parts read behind others. -/
lemma readEach_append {l l' : List β} {r r' : List γ} (h : readEach read l = some r)
    (h' : readEach read l' = some r') : readEach read (l ++ l') = some (r ++ r') := by
  induction l generalizing r with
  | nil =>
    obtain rfl := Option.some.inj h
    exact h'
  | cons b l ih =>
    obtain ⟨r₁, hr₁, hrest⟩ := Option.bind_eq_some_iff.mp h
    obtain ⟨r₂, hr₂, rfl⟩ := Option.map_eq_some_iff.mp hrest
    rw [List.cons_append, readEach, hr₁, Option.bind_some, ih hr₂, Option.map_some,
      List.append_assoc]

/-- What is read of lists that are put together. -/
lemma readEach_flatMap {f : α → List β} {g : α → List γ} {l : List α}
    (h : ∀ a ∈ l, readEach read (f a) = some (g a)) :
    readEach read (l.flatMap f) = some (l.flatMap g) := by
  induction l with
  | nil => rfl
  | cons a l ih =>
    exact readEach_append (h a List.mem_cons_self) (ih fun b hb => h b (List.mem_cons_of_mem a hb))

/-- Parts that are read one by one. -/
lemma readEach_map {f : α → β} {g : α → List γ} {l : List α}
    (h : ∀ a ∈ l, read (f a) = some (g a)) :
    readEach read (l.map f) = some (l.flatMap g) := by
  have hone : ∀ a ∈ l, readEach read [f a] = some (g a) := fun a ha => by
    simp [readEach, h a ha]
  rw [List.map_eq_flatMap]
  exact readEach_flatMap hone

end Printing

/-! ## Searching -/

section Searching

variable {α β : Type*} {f : α → Option β} {l : List α} {v : Option β}

/-- The search in a list each of whose members gives nothing or `v`. -/
lemma findSome?_eq_or (h : ∀ a ∈ l, f a = none ∨ f a = v) :
    l.findSome? f = none ∨ l.findSome? f = v := by
  induction l with
  | nil => exact .inl rfl
  | cons a l ih =>
    cases hfa : f a with
    | none =>
      rw [List.findSome?_cons_of_isNone (by simp [hfa])]
      exact ih fun b hb => h b (List.mem_cons_of_mem a hb)
    | some b =>
      rcases h a List.mem_cons_self with hnone | hv
      · rw [hfa] at hnone
        cases hnone
      · rw [List.findSome?_cons_of_isSome (by simp [hfa])]
        exact .inr hv

/-- If one of them gives `v`, then so does the search. -/
lemma findSome?_eq (h : ∀ a ∈ l, f a = none ∨ f a = v) (hex : ∃ a ∈ l, f a = v) :
    l.findSome? f = v := by
  rcases findSome?_eq_or h with hnone | hv
  · obtain ⟨a, ha, hav⟩ := hex
    rw [hnone, ← hav]
    exact (List.findSome?_eq_none_iff.mp hnone a ha).symm
  · exact hv

end Searching

/-! ## Places -/

/-- A member with its place, between those with other places. -/
lemma exists_zipIdx_eq_append {α : Type*} {l : List α} {i : ℕ} {a : α} (h : l[i]? = some a) :
    ∃ as bs, l.zipIdx = as ++ (a, i) :: bs ∧ ∀ x ∈ as ++ bs, x.2 ≠ i := by
  obtain ⟨hlt, rfl⟩ := List.getElem?_eq_some_iff.mp h
  refine ⟨(l.take i).zipIdx, (l.drop (i + 1)).zipIdx (i + 1), ?_, ?_⟩
  · conv_lhs => rw [← List.take_append_drop i l, List.drop_eq_getElem_cons hlt, List.zipIdx_append,
      List.zipIdx_cons]
    simp [hlt.le]
  · rintro ⟨b, j⟩ hx
    rcases List.mem_append.mp hx with hx | hx
    · have hj := (List.mem_zipIdx hx).2.1
      rw [List.length_take] at hj
      show j ≠ i
      omega
    · have hj := (List.mem_zipIdx hx).1
      show j ≠ i
      omega

/-! ## Removing -/

section Removing

variable {α : Type*}

/-- A list with its member at a place moved to the front is the same list. -/
lemma eq_cons_eraseIdx_iff {l : List α} {n : ℕ} (hn : n < l.length) (a : α) :
    l = a :: l.eraseIdx n ↔ ∀ k, k ≤ n → l[k]? = some a := by
  induction l generalizing n a with
  | nil => simp at hn
  | cons b l ih =>
    cases n with
    | zero =>
      rw [List.eraseIdx_cons_zero]
      constructor
      · intro h k hk
        obtain rfl : k = 0 := by omega
        rw [List.getElem?_cons_zero, (List.cons.inj h).1]
      · intro h
        have := h 0 le_rfl
        rw [List.getElem?_cons_zero] at this
        rw [Option.some.inj this]
    | succ n =>
      have hn' : n < l.length := by simpa using hn
      rw [List.eraseIdx_cons_succ, List.cons.injEq]
      constructor
      · rintro ⟨rfl, hl⟩ k hk
        cases k with
        | zero => rfl
        | succ k => exact (ih hn' b).mp hl k (by omega)
      · intro h
        have hb : b = a := by simpa using h 0 (by omega)
        subst hb
        refine ⟨rfl, (ih hn' b).mpr fun k hk => ?_⟩
        simpa using h (k + 1) (by omega)

/-- **Removing by member.** The first occurrence of the member at a place can be removed instead of
the one at the place if and only if no other member is between any two of them. -/
lemma erase_eq_eraseIdx_iff [BEq α] [LawfulBEq α] {l : List α} {n : ℕ} {a : α}
    (hn : l[n]? = some a) :
    l.erase a = l.eraseIdx n ↔
      ∀ i k, i ≤ k → k ≤ n → l[i]? = some a → l[k]? = some a := by
  induction l generalizing n with
  | nil => simp at hn
  | cons b l ih =>
    cases n with
    | zero =>
      obtain rfl : b = a := by simpa using hn
      rw [List.erase_cons_head, List.eraseIdx_cons_zero]
      refine ⟨fun _ i k hik hk hi => ?_, fun _ => rfl⟩
      obtain rfl : k = 0 := by omega
      rfl
    | succ n =>
      rw [List.getElem?_cons_succ] at hn
      obtain ⟨hlt, -⟩ := List.getElem?_eq_some_iff.mp hn
      rw [List.eraseIdx_cons_succ]
      by_cases hba : b = a
      · -- the member is found at the head
        subst hba
        rw [List.erase_cons_head, eq_cons_eraseIdx_iff hlt b]
        constructor
        · intro h i k _ hk _
          cases k with
          | zero => rfl
          | succ k => exact h k (by omega)
        · intro h k hk
          simpa using h 0 (k + 1) (by omega) (by omega) rfl
      · rw [List.erase_cons_tail (by simpa using hba), List.cons.injEq, ih hn]
        constructor
        · rintro ⟨-, h⟩ i k hik hk hi
          cases i with
          | zero => exact absurd (by simpa using hi) hba
          | succ i =>
            cases k with
            | zero => omega
            | succ k => exact h i k (by omega) (by omega) (by simpa using hi)
        · intro h
          refine ⟨rfl, fun i k hik hk hi => ?_⟩
          simpa using h (i + 1) (k + 1) (by omega) (by omega) (by simpa using hi)

end Removing

end CSemantics
