import Mathlib.Data.List.Basic
import Mathlib.Logic.Function.Basic
import Mathlib.Tactic

set_option relaxedAutoImplicit false
set_option autoImplicit false

/-!
# Stores that are used key by key

A store has a value at each key. An operation names a key; it looks at the value there, and fails or
replaces it. A run of operations succeeds if and only if it does at each key, where only the
operations at that key count, in their order.

## Main definitions

* `stepAt`, `runAt` — an operation and a run of operations.
* `opsAt` — the operations at a key.

## Main results

* `runAt_eq_some_iff` — a run is a run at each key.
* `exists_giver_of_runAt` — what an operation finds at its key has been put there by another one.
* `nodup_of_runAt` — what can happen once at a key.
-/

namespace CSemantics

section Stores

variable {ι κ ρ : Type*} [DecidableEq ι] (after : ρ → κ → Option κ)

/-- An operation at a key. -/
def stepAt (s : ι → κ) (o : ι × ρ) : Option (ι → κ) :=
  (after o.2 (s o.1)).map (Function.update s o.1)

/-- Operations one after the other. -/
def runAt (s : ι → κ) (l : List (ι × ρ)) : Option (ι → κ) := l.foldlM (stepAt after) s

/-- Operations one after the other, all at one key. -/
def runOps (k : κ) (l : List ρ) : Option κ := l.foldlM (fun k r => after r k) k

/-- The operations at a key, in their order. -/
def opsAt (i : ι) (l : List (ι × ρ)) : List ρ := (l.filter fun o => o.1 = i).map Prod.snd

variable {after} {s s' : ι → κ} {l l' : List (ι × ρ)}

/-- Without operations nothing changes. -/
@[simp] lemma runAt_nil (s : ι → κ) : runAt after s [] = some s := rfl

/-- Operations, one at a time. -/
lemma runAt_cons (s : ι → κ) (o : ι × ρ) (l : List (ι × ρ)) :
    runAt after s (o :: l) = (stepAt after s o).bind (runAt after · l) := rfl

/-- Operations behind others. -/
lemma runAt_append (s : ι → κ) (l l' : List (ι × ρ)) :
    runAt after s (l ++ l') = (runAt after s l).bind (runAt after · l') := by
  rw [runAt, List.foldlM_append]
  rfl

/-- The operations in the middle of a run have been run. -/
lemma exists_part_of_runAt {l₁ l₂ l₃ : List (ι × ρ)}
    (h : runAt after s (l₁ ++ l₂ ++ l₃) = some s') :
    ∃ s₁ s₂, runAt after s₁ l₂ = some s₂ := by
  rw [runAt_append, runAt_append, Option.bind_eq_some_iff] at h
  obtain ⟨s₂, hmiddle, -⟩ := h
  obtain ⟨s₁, -, hrun⟩ := Option.bind_eq_some_iff.mp hmiddle
  exact ⟨s₁, s₂, hrun⟩

/-- Without operations a value stays as it is. -/
@[simp] lemma runOps_nil (k : κ) : runOps after k [] = some k := rfl

/-- The operations on a value, one at a time. -/
lemma runOps_cons (k : κ) (r : ρ) (l : List ρ) :
    runOps after k (r :: l) = (after r k).bind (runOps after · l) := rfl

/-- The operations on a value behind others. -/
lemma runOps_append (k : κ) (l l' : List ρ) :
    runOps after k (l ++ l') = (runOps after k l).bind (runOps after · l') := by
  rw [runOps, List.foldlM_append]
  rfl

/-- No operations, none at a key. -/
@[simp] lemma opsAt_nil (i : ι) : opsAt i ([] : List (ι × ρ)) = [] := rfl

/-- The operations at a key, one at a time. -/
lemma opsAt_cons (i : ι) (o : ι × ρ) (l : List (ι × ρ)) :
    opsAt i (o :: l) = if o.1 = i then o.2 :: opsAt i l else opsAt i l := by
  unfold opsAt
  rw [List.filter_cons]
  split_ifs <;> simp_all

/-- The operations at a key are those with the key. -/
lemma mem_opsAt {i : ι} {r : ρ} : r ∈ opsAt i l ↔ (i, r) ∈ l := by
  simp [opsAt]

/-- One operation at all keys of a list. -/
lemma opsAt_map (i : ι) (r : ρ) (keys : List ι) :
    opsAt i (keys.map fun j => (j, r)) = List.replicate (keys.count i) r := by
  induction keys with
  | nil => rfl
  | cons j keys ih =>
    rw [List.map_cons, opsAt_cons, ih]
    by_cases h : j = i
    · subst h
      rw [if_pos rfl, List.count_cons_self, List.replicate_succ]
    · rw [if_neg h, List.count_cons_of_ne h]

/-- **A run is a run at each key.** -/
theorem runAt_eq_some_iff :
    runAt after s l = some s' ↔ ∀ i, runOps after (s i) (opsAt i l) = some (s' i) := by
  induction l generalizing s with
  | nil => simp [funext_iff]
  | cons o l ih =>
    rw [runAt_cons, stepAt]
    cases hstep : after o.2 (s o.1) with
    | none =>
      refine iff_of_false (by simp) fun h => ?_
      have hkey := h o.1
      rw [opsAt_cons, if_pos rfl, runOps_cons, hstep] at hkey
      cases hkey
    | some k =>
      rw [Option.map_some, Option.bind_some, ih]
      refine forall_congr' fun i => ?_
      rw [opsAt_cons]
      by_cases hi : o.1 = i
      · subst hi
        rw [if_pos rfl, Function.update_self, runOps_cons, hstep, Option.bind_some]
      · rw [if_neg hi, Function.update_of_ne (Ne.symm hi)]

/-- A run succeeds if it does at each key. -/
theorem isSome_runAt_iff :
    (runAt after s l).isSome ↔ ∀ i, (runOps after (s i) (opsAt i l)).isSome := by
  constructor
  · intro h i
    obtain ⟨s', hs'⟩ := Option.isSome_iff_exists.mp h
    rw [runAt_eq_some_iff.mp hs' i]
    rfl
  · intro h
    have hrun : runAt after s l =
        some fun i => (runOps after (s i) (opsAt i l)).get (h i) := by
      rw [runAt_eq_some_iff]
      intro i
      rw [Option.some_get]
    rw [hrun]
    rfl

/-- What holds of the value at a key, and is kept by the operations there, holds after a run. -/
lemma runOps_induction {P : κ → Prop} {k k' : κ} {l : List ρ} (h : runOps after k l = some k')
    (hk : P k) (hstep : ∀ r ∈ l, ∀ k k', P k → after r k = some k' → P k') : P k' := by
  induction l generalizing k with
  | nil =>
    obtain rfl : k = k' := Option.some.inj h
    exact hk
  | cons r l ih =>
    rw [runOps_cons, Option.bind_eq_some_iff] at h
    obtain ⟨k₁, hr, hl⟩ := h
    exact ih hl (hstep r (by simp) k k₁ hk hr) fun r' hr' => hstep r' (List.mem_cons_of_mem r hr')

/-- What holds of the value at a key in the end, and did not at first, has been made to hold by an
operation at this key. -/
lemma exists_giver_of_result {P : κ → Prop} {i : ι} (h : runAt after s l = some s') (hs : ¬ P (s i))
    (hs' : P (s' i)) : ∃ r, (i, r) ∈ l ∧ ∃ k k', ¬ P k ∧ after r k = some k' ∧ P k' := by
  by_contra hnone
  refine runOps_induction (P := fun k => ¬ P k) (runAt_eq_some_iff.mp h i) hs ?_ hs'
  intro r hr k k' hk hstep hk'
  exact hnone ⟨r, mem_opsAt.mp hr, k, k', hk, hstep, hk'⟩

/-- **Values come from operations.** If an operation needs `P` of the value at its key, and `P` did
not hold at first, then an operation at this key has made it hold. -/
lemma exists_giver_of_runAt {P : κ → Prop} {i : ι} {r : ρ} (h : runAt after s l = some s')
    (hr : (i, r) ∈ l) (hneeds : ∀ k k', after r k = some k' → P k) (hs : ¬ P (s i)) :
    ∃ r', (i, r') ∈ l ∧ ∃ k k', ¬ P k ∧ after r' k = some k' ∧ P k' := by
  obtain ⟨l₁, l₂, rfl⟩ := List.append_of_mem hr
  rw [runAt_append, Option.bind_eq_some_iff] at h
  obtain ⟨s₁, hl₁, h⟩ := h
  -- `P` holds when `r` needs it
  have hs₁ : P (s₁ i) := by
    rw [runAt_cons, Option.bind_eq_some_iff] at h
    obtain ⟨s₂, hstep, -⟩ := h
    obtain ⟨k', hk', -⟩ := Option.map_eq_some_iff.mp hstep
    exact hneeds _ k' hk'
  obtain ⟨r', hr', hgives⟩ := exists_giver_of_result hl₁ hs hs₁
  exact ⟨r', List.mem_append_left _ hr', hgives⟩

/-- If no operation brings `Q` back, an operation that needs it finds that it has held at first. -/
lemma of_runAt {Q : κ → Prop} {i : ι} {r : ρ} (h : runAt after s l = some s') (hr : (i, r) ∈ l)
    (hneeds : ∀ k k', after r k = some k' → Q k)
    (hkeeps : ∀ r k k', after r k = some k' → ¬ Q k → ¬ Q k') : Q (s i) := by
  by_contra hs
  obtain ⟨r', -, k, k', hk, hstep, hk'⟩ := exists_giver_of_runAt h hr hneeds hs
  exact hkeeps r' k k' hstep hk hk'

/-- If no operation brings `Q` back, it does not hold after one that ends it. -/
lemma not_of_runAt {Q : κ → Prop} {i : ι} {r : ρ} (h : runAt after s l = some s') (hr : (i, r) ∈ l)
    (hends : ∀ k k', after r k = some k' → ¬ Q k')
    (hkeeps : ∀ r k k', after r k = some k' → ¬ Q k → ¬ Q k') : ¬ Q (s' i) := by
  have hrun := runAt_eq_some_iff.mp h i
  obtain ⟨l₁, l₂, hl⟩ := List.append_of_mem (mem_opsAt.mpr hr)
  rw [hl, runOps_append, Option.bind_eq_some_iff] at hrun
  obtain ⟨k, -, hafter⟩ := hrun
  rw [runOps_cons, Option.bind_eq_some_iff] at hafter
  obtain ⟨k', hk', hrest⟩ := hafter
  exact runOps_induction (P := fun k => ¬ Q k) hrest (hends k k' hk')
    fun r' _ k₁ k₂ hk₁ hstep => hkeeps r' k₁ k₂ hstep hk₁

/-- **Once a key.** Parts of a run, each with a key where it needs `Q` and ends it, have different
keys, if no operation brings `Q` back. -/
lemma nodup_of_runAt {α : Type*} {Q : κ → Prop} {ops : α → List (ι × ρ)} {key : α → ι} {l : List α}
    (h : runAt after s (l.flatMap ops) = some s')
    (hneeds : ∀ a, ∃ r, (key a, r) ∈ ops a ∧ ∀ k k', after r k = some k' → Q k)
    (hends : ∀ a, ∃ r, (key a, r) ∈ ops a ∧ ∀ k k', after r k = some k' → ¬ Q k')
    (hkeeps : ∀ r k k', after r k = some k' → ¬ Q k → ¬ Q k') : (l.map key).Nodup := by
  induction l generalizing s with
  | nil => simp
  | cons a l ih =>
    rw [List.flatMap_cons, runAt_append, Option.bind_eq_some_iff] at h
    obtain ⟨s₁, ha, hl⟩ := h
    rw [List.map_cons, List.nodup_cons]
    refine ⟨fun hmem => ?_, ih hl⟩
    obtain ⟨b, hb, hkey⟩ := List.mem_map.mp hmem
    obtain ⟨r, hr, hend⟩ := hends a
    obtain ⟨r', hr', hneed⟩ := hneeds b
    rw [hkey] at hr'
    exact not_of_runAt ha hr hend hkeeps
      (of_runAt hl (List.mem_flatMap.mpr ⟨b, hb, hr'⟩) hneed hkeeps)

end Stores

end CSemantics
