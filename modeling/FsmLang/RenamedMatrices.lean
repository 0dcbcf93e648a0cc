import Mathlib.Data.List.Basic
import Mathlib.Data.List.FinRange
import Mathlib.Tactic
import FsmLang.AcceptedTexts

set_option relaxedAutoImplicit false
set_option autoImplicit false

/-!
# Matrices under other names

A machine's events and states may be known by their names or by their places in its lists. What the
walk over the cells does depends only on which of them are the same. So a matrix and one with other
names for the same events and states are populated alike.

## Main definitions

* `namesAt`, `placeOf` — the name at a place of a list, and the place of a name.
* `ActionInfo.map`, `ActionInfo.places` — an entry with other names, and one with places for names.
* `MachineMatrix.Renames` — one matrix is the other with other names.

## Main results

* `ActionInfo.map_places` — what has no place is lost.
* `Renames.error_iff`, `Renames.cell_eq` — populating reports the same, and stores the same.
-/

namespace FsmLang

open CSemantics

/-! ## Names and places -/

section Places

variable {α β : Type*} {n : ℕ}

/-- The name at a place. -/
def namesAt (l : List α) (h : n = l.length) (i : Fin n) : α := l.get (i.cast h)

/-- The names at all places are the list. -/
lemma map_namesAt (l : List α) (h : n = l.length) : (List.finRange n).map (namesAt l h) = l := by
  subst h
  exact (List.ofFn_eq_map).symm.trans (List.ofFn_get l)

/-- Different places have different names if the list has no duplicates. -/
lemma namesAt_injective {l : List α} (hl : l.Nodup) (h : n = l.length) :
    Function.Injective (namesAt l h) := by
  subst h
  exact List.nodup_iff_injective_get.mp hl

/-- The place of a name. -/
def placeOf [DecidableEq α] (l : List α) (h : n = l.length) (x : α) : Option (Fin n) :=
  (l.finIdxOf? x).map (Fin.cast h.symm)

/-- A name stands at its place. -/
lemma namesAt_of_placeOf [DecidableEq α] {l : List α} {h : n = l.length} {x : α} {i : Fin n}
    (hi : placeOf l h x = some i) : namesAt l h i = x := by
  subst h
  obtain ⟨j, hj, rfl⟩ := Option.map_eq_some_iff.mp hi
  exact (List.finIdxOf?_eq_some_iff.mp hj).1

/-- The members of the list are the names with places. -/
@[simp] lemma isSome_placeOf [DecidableEq α] {l : List α} {h : n = l.length} {x : α} :
    (placeOf l h x).isSome ↔ x ∈ l := by
  rw [placeOf, Option.isSome_map, List.isSome_finIdxOf?, List.contains_iff_mem]

/-- If names are told by their places, a list is kept if all its members have one. -/
lemma map_filterMap_eq_iff {f : α → β} {place : β → Option α}
    (hplace : ∀ x i, place x = some i → f i = x) (l : List β) :
    (l.filterMap place).map f = l ↔ ∀ x ∈ l, (place x).isSome := by
  constructor
  · intro heq x hx
    rw [← heq] at hx
    obtain ⟨i, hi, rfl⟩ := List.mem_map.mp hx
    obtain ⟨y, -, hy⟩ := List.mem_filterMap.mp hi
    rw [hplace y i hy, hy]
    rfl
  · intro hall
    induction l with
    | nil => rfl
    | cons x l ih =>
      obtain ⟨hx, hall⟩ := List.forall_mem_cons.mp hall
      obtain ⟨i, hi⟩ := Option.isSome_iff_exists.mp hx
      rw [List.filterMap_cons_some hi, List.map_cons, ih hall, hplace x i hi]

end Places

/-! ## Entries -/

section Maps

variable {ε σ ε' σ' : Type*} (f : ε → ε') (g : σ → σ')

/-- A transition with other names. -/
def Transition.map : Transition σ → Transition σ'
  | .state s => .state (g s)
  | .fn name returnsDecl => .fn name (returnsDecl.map g)

/-- An entry with other names. -/
def ActionInfo.map (pai : ActionInfo ε σ) : ActionInfo ε' σ' where
  action := pai.action
  transition := pai.transition.map (Transition.map g)
  eventList := pai.eventList.map f
  stateList := pai.stateList.map g

/-- A transition with places for names, if its state has one. -/
def Transition.places (place : σ' → Option σ) : Transition σ' → Option (Transition σ)
  | .state s => (place s).map .state
  | .fn name returnsDecl => some (.fn name (returnsDecl.filterMap place))

/-- An entry with places for names. What has no place is left out. -/
def ActionInfo.places (placeE : ε' → Option ε) (placeS : σ' → Option σ) (pai : ActionInfo ε' σ') :
    ActionInfo ε σ where
  action := pai.action
  transition := pai.transition.bind (Transition.places placeS)
  eventList := pai.eventList.filterMap placeE
  stateList := pai.stateList.filterMap placeS

/-- The states of a transition. -/
def Transition.states : Transition σ → List σ
  | .state s => [s]
  | .fn _ returnsDecl => returnsDecl

/-- A named cell with other names. -/
def renameCell (x : (ε × σ) × ℕ) : (ε' × σ') × ℕ := ((f x.1.1, g x.1.2), x.2)

/-- The second matrix is the first one with other names. -/
structure MachineMatrix.Renames (M : MachineMatrix ε σ) (M' : MachineMatrix ε' σ') : Prop where
  eventList : M'.eventList = M.eventList.map f
  stateList : M'.stateList = M.stateList.map g
  entries : M'.actionInfoList = M.actionInfoList.map (ActionInfo.map f g)
  consumed : ∀ e, M'.consumedByTranslator (f e) = M.consumedByTranslator e
  implemented : ∀ s, M'.implementedBySubMachine (g s) = M.implementedBySubMachine s

variable {f g}

/-- A transition goes to places if its states have some. -/
lemma Transition.map_places {placeS : σ' → Option σ} (hS : ∀ x s, placeS x = some s → g s = x)
    (t : Transition σ') :
    (t.places placeS).map (Transition.map g) = some t ↔ ∀ x ∈ t.states, (placeS x).isSome := by
  cases t with
  | state s =>
    cases hs : placeS s with
    | none => simp [Transition.places, Transition.states, hs]
    | some i => simp [Transition.places, Transition.states, Transition.map, hs, hS s i hs]
  | fn name returnsDecl =>
    rw [Transition.states, ← map_filterMap_eq_iff hS]
    simp [Transition.places, Transition.map]

/-- What has no place is lost. -/
lemma ActionInfo.map_places {placeE : ε' → Option ε} {placeS : σ' → Option σ}
    (hE : ∀ x e, placeE x = some e → f e = x) (hS : ∀ x s, placeS x = some s → g s = x)
    (pai : ActionInfo ε' σ') :
    (pai.places placeE placeS).map f g = pai ↔ (∀ x ∈ pai.eventList, (placeE x).isSome) ∧
      (∀ x ∈ pai.stateList, (placeS x).isSome) ∧
        ∀ t, pai.transition = some t → ∀ x ∈ t.states, (placeS x).isSome := by
  have htransition : (pai.transition.bind (Transition.places placeS)).map (Transition.map g) =
      pai.transition ↔ ∀ t, pai.transition = some t → ∀ x ∈ t.states, (placeS x).isSome := by
    cases pai.transition with
    | none => simp
    | some t => simpa using t.map_places hS
  rw [← htransition, ← map_filterMap_eq_iff hE, ← map_filterMap_eq_iff hS]
  obtain ⟨action, transition, eventList, stateList⟩ := pai
  simp only [ActionInfo.map, ActionInfo.places, ActionInfo.mk.injEq, true_and]
  tauto

/-- Order numbers do not depend on names. -/
lemma enumeratePids_map [DecidableEq ε] [DecidableEq ε'] (hf : Function.Injective f) (l : List ε)
    (k : ℕ) (order : ε → ℕ) (order' : ε' → ℕ) (h : ∀ e, order' (f e) = order e) (e : ε) :
    enumeratePids k order' (l.map f) (f e) = enumeratePids k order l e := by
  induction l generalizing k order order' with
  | nil => exact h e
  | cons a l ih =>
    rw [List.map_cons, enumeratePids, enumeratePids]
    refine ih _ _ _ fun b => ?_
    by_cases hb : b = a
    · subst hb
      rw [Function.update_self, Function.update_self]
    · rw [Function.update_of_ne hb, Function.update_of_ne (hf.ne hb), h]

namespace MachineMatrix.Renames

variable {M : MachineMatrix ε σ} {M' : MachineMatrix ε' σ'} (h : M.Renames f g M')

include h

/-- The events of an entry are renamed. -/
lemma expandEvents (pai : ActionInfo ε σ) :
    M'.expandEvents (pai.map f g) = (M.expandEvents pai).map f := by
  unfold MachineMatrix.expandEvents
  by_cases hnil : pai.eventList = []
  · rw [if_pos hnil, if_pos (by simp [ActionInfo.map, hnil]), h.eventList, List.filter_map]
    congr 2
    funext e
    rw [Function.comp_apply, h.consumed]
  · rw [if_neg hnil, if_neg (by simpa [ActionInfo.map] using hnil)]
    rfl

/-- The states of an entry are renamed. -/
lemma expandStates (pai : ActionInfo ε σ) :
    M'.expandStates (pai.map f g) = (M.expandStates pai).map g := by
  unfold MachineMatrix.expandStates
  by_cases hnil : pai.stateList = []
  · rw [if_pos hnil, if_pos (by simp [ActionInfo.map, hnil]), h.stateList, List.filter_map]
    congr 2
    funext s
    rw [Function.comp_apply, h.implemented]
  · rw [if_neg hnil, if_neg (by simpa [ActionInfo.map] using hnil)]
    rfl

/-- The same cells are named in the same order. -/
lemma namedCells_eq : namedCells M' = (namedCells M).map (renameCell f g) := by
  rw [namedCells, namedCells, h.entries, List.zipIdx_map, List.flatMap_map, List.map_flatMap]
  refine List.flatMap_congr fun pai _ => ?_
  rw [namedByEntry, namedByEntry, List.map_flatMap]
  dsimp only [Prod.map]
  rw [h.expandEvents, List.flatMap_map]
  refine List.flatMap_congr fun e _ => ?_
  rw [namedByEvent, namedByEvent, h.expandStates, List.map_map, List.map_map]
  rfl

/-- What is named is declared under the other names too. -/
lemma declared (hM : M.Declared) : M'.Declared := by
  intro pai' hpai'
  rw [h.entries] at hpai'
  obtain ⟨pai, hpai, rfl⟩ := List.mem_map.mp hpai'
  rw [h.eventList, h.stateList]
  exact ⟨List.map_subset f (hM pai hpai).1, List.map_subset g (hM pai hpai).2⟩

variable [DecidableEq ε] [DecidableEq σ] [DecidableEq ε'] [DecidableEq σ']
  (hf : Function.Injective f) (hg : Function.Injective g)

include hf hg

/-- The order of a cell does not depend on the names. -/
lemma cellOrder_eq (x : (ε × σ) × ℕ) : M'.cellOrder (renameCell f g x) = M.cellOrder x := by
  rw [MachineMatrix.cellOrder, MachineMatrix.cellOrder, MachineMatrix.eventOrder,
    MachineMatrix.stateOrder, h.eventList, h.stateList]
  exact Prod.ext (enumeratePids_map hf _ _ _ _ (fun _ => rfl) _)
    (enumeratePids_map hg _ _ _ _ (fun _ => rfl) _)

/-- **Populating reports the same.** -/
theorem error_iff :
    (populateActionArray M').error = false ↔ (populateActionArray M).error = false := by
  rw [populateActionArray_error_iff, populateActionArray_error_iff, h.namedCells_eq, List.map_map,
    show M'.cellOrder ∘ renameCell f g = M.cellOrder from funext (h.cellOrder_eq hf hg)]

/-- **Populating stores the same**: the cells have the places of the same entries. -/
theorem cell_eq (hM : M.Declared) (herror : (populateActionArray M).error = false) :
    (populateActionArray M').cell = (populateActionArray M).cell := by
  have hcell := (hM.cellsDeclared.filled herror).cell
  have hcell' := ((h.declared hM).cellsDeclared.filled ((h.error_iff hf hg).mpr herror)).cell
  have horder := h.cellOrder_eq hf hg
  funext i j
  refine Option.ext fun idx => ?_
  rw [hcell, hcell', h.namedCells_eq]
  constructor
  · rintro ⟨x', hx', hi, hj, hidx⟩
    obtain ⟨x, hx, rfl⟩ := List.mem_map.mp hx'
    exact ⟨x, hx, ((congrArg Prod.fst (horder x)).symm.trans hi),
      ((congrArg Prod.snd (horder x)).symm.trans hj), hidx⟩
  · rintro ⟨x, hx, hi, hj, hidx⟩
    exact ⟨_, List.mem_map_of_mem hx, (congrArg Prod.fst (horder x)).trans hi,
      (congrArg Prod.snd (horder x)).trans hj, hidx⟩

end MachineMatrix.Renames

end Maps

end FsmLang
