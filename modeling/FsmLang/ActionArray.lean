import Mathlib.Logic.Function.Basic
import Mathlib.Data.List.Nodup
import Mathlib.Tactic
import FsmLang.CSemantics.Iteration

set_option relaxedAutoImplicit false
set_option autoImplicit false

/-!
# Populating the action array

`populate_action_array` fills a machine's table of cells from its matrix entries. An entry
names an action, a transition or both, and the events and states it is for; an empty list
stands for ALL and is filled in first. Every entry is stored in the cells of all pairs of its
events and states, until a cell turns out to be occupied.

On the way the walk collects what the generators ask for later: which events a state handles
and which states handle an event, the transitions into and out of each state, and whether one
and the same entry handles an event in every state.

Events and states are kept generic: what counts is which of them are the same. An entry is
known by its place in the list, as in the source by its address.

## Main definitions

* `ActionInfo`, `MachineMatrix` — a matrix entry, and what the walk reads of a machine.
* `enumeratePidList` — the order numbers of a list's members.
* `populateActionArray` — the walk.
* `namedCells` — the cells named by the expanded entries, in the order of the walk.

## Main results

* `populateActionArray_spec` — what the walk has done after any run.
* `populateActionArray_correct` — when it reports an error, and what the cells hold.
-/

namespace FsmLang

open CSemantics

/-- The transition of a matrix entry: a state, or a function with the states it is declared to
return. -/
inductive Transition (σ : Type*) where
  | state (s : σ)
  | fn (name : String) (returnsDecl : List σ)
  deriving DecidableEq, Repr

/-- A matrix entry. The action's name is empty when there is only a transition; an empty event
or state list stands for ALL. -/
structure ActionInfo (ε σ : Type*) where
  action : String
  transition : Option (Transition σ)
  eventList : List ε
  stateList : List σ
  deriving DecidableEq, Repr

/-- What the walk reads of a machine. -/
structure MachineMatrix (ε σ : Type*) where
  eventList : List ε
  stateList : List σ
  consumedByTranslator : ε → Bool
  implementedBySubMachine : σ → Bool
  actionInfoList : List (ActionInfo ε σ)

/-! ## Order numbers -/

section Order

variable {α : Type*} [DecidableEq α]

/-- The order numbers `enumerate_pid_list` gives, counting from `k` on, over those given
before. -/
def enumeratePids (k : ℕ) (order : α → ℕ) : List α → α → ℕ
  | [] => order
  | a :: as => enumeratePids (k + 1) (Function.update order a k) as

/-- The order numbers of the members of a list. -/
def enumeratePidList (l : List α) : α → ℕ := enumeratePids 0 (fun _ => 0) l

/-- A member's order number is one of its positions. -/
lemma getElem?_enumeratePids (l : List α) (k : ℕ) (order : α → ℕ) (a : α) :
    (a ∈ l → k ≤ enumeratePids k order l a ∧ l[enumeratePids k order l a - k]? = some a) ∧
      (a ∉ l → enumeratePids k order l a = order a) := by
  induction l generalizing k order with
  | nil => simp [enumeratePids]
  | cons b l ih =>
    obtain ⟨hmem, hnot⟩ := ih (k + 1) (Function.update order b k)
    rw [enumeratePids]
    constructor
    · intro ha
      by_cases hal : a ∈ l
      · obtain ⟨hk, hget⟩ := hmem hal
        refine ⟨by omega, ?_⟩
        rw [show enumeratePids (k + 1) (Function.update order b k) l a - k =
          enumeratePids (k + 1) (Function.update order b k) l a - (k + 1) + 1 by omega,
          List.getElem?_cons_succ, hget]
      · obtain rfl : a = b := (List.mem_cons.mp ha).resolve_right hal
        rw [hnot hal]
        simp
    · intro ha
      rw [List.mem_cons, not_or] at ha
      rw [hnot ha.2, Function.update_of_ne ha.1]

/-- A member's order number is below the number of members. -/
lemma enumeratePidList_lt {l : List α} {a : α} (ha : a ∈ l) : enumeratePidList l a < l.length := by
  have hget := ((getElem?_enumeratePids l 0 (fun _ => 0) a).1 ha).2
  obtain ⟨hlt, -⟩ := List.getElem?_eq_some_iff.mp hget
  exact hlt

/-- The order number of anything else stays 0. -/
lemma enumeratePidList_of_notMem {l : List α} {a : α} (ha : a ∉ l) : enumeratePidList l a = 0 :=
  (getElem?_enumeratePids l 0 (fun _ => 0) a).2 ha

/-- Members with one order number are the same. -/
lemma enumeratePidList_inj {l : List α} {a b : α} (ha : a ∈ l) (hb : b ∈ l)
    (h : enumeratePidList l a = enumeratePidList l b) : a = b := by
  have hga := ((getElem?_enumeratePids l 0 (fun _ => 0) a).1 ha).2
  have hgb := ((getElem?_enumeratePids l 0 (fun _ => 0) b).1 hb).2
  unfold enumeratePidList at h
  rw [h, hgb] at hga
  exact (Option.some.inj hga).symm

end Order

/-! ## The walk -/

section Walk

variable {ε σ : Type*} [DecidableEq ε] [DecidableEq σ]

/-- What the walk changes: the table, the data of each event and of each state, and the
machine's flag for events that one entry handles in all states. Entries stand for their place
in the list. -/
structure ActionArray (ε σ : Type*) where
  cell : ℕ → ℕ → Option ℕ
  psinglePai : ε → Option ℕ
  singlePaiStateCount : ε → ℕ
  singlePaiForAllStates : ε → Bool
  phandlingStates : ε → List σ
  eventActionsList : ε → List String
  peventsHandled : σ → List ε
  stateActionsList : σ → List String
  pinboundTransitions : σ → List σ
  poutboundTransitions : σ → List σ
  hasSinglePaiEvents : Bool
  error : Bool

/-- The fresh table: `allocateActionArray` clears it, and all lists are empty. -/
def ActionArray.fresh : ActionArray ε σ where
  cell := fun _ _ => none
  psinglePai := fun _ => none
  singlePaiStateCount := fun _ => 0
  singlePaiForAllStates := fun _ => false
  phandlingStates := fun _ => []
  eventActionsList := fun _ => []
  peventsHandled := fun _ => []
  stateActionsList := fun _ => []
  pinboundTransitions := fun _ => []
  poutboundTransitions := fun _ => []
  hasSinglePaiEvents := false
  error := false

/-- Add a member that is not there yet. -/
def addUniqueToList {α : Type*} [DecidableEq α] (l : List α) (a : α) : List α :=
  if a ∈ l then l else l ++ [a]

/-- Adding to a list without repetition. -/
lemma mem_addUniqueToList {α : Type*} [DecidableEq α] {l : List α} {a b : α} :
    b ∈ addUniqueToList l a ↔ b ∈ l ∨ b = a := by
  unfold addUniqueToList
  split_ifs with h
  · constructor
    · exact .inl
    · intro hb
      rcases hb with hb | hb
      · exact hb
      · exact hb ▸ h
  · simp

/-- Adding a member that is not there makes no duplicate. -/
lemma nodup_addUniqueToList {α : Type*} [DecidableEq α] {l : List α} (h : l.Nodup) (a : α) :
    (addUniqueToList l a).Nodup := by
  unfold addUniqueToList
  split_ifs with ha
  · exact h
  · exact List.nodup_append.mpr ⟨h, by simp, fun b hb c hc => by
      rw [List.mem_singleton.mp hc]
      exact fun hba => ha (hba ▸ hb)⟩

/-- The members after some have been added. -/
lemma mem_foldl_addUniqueToList {α : Type*} [DecidableEq α] {l decl : List α} {a : α} :
    a ∈ l.foldl addUniqueToList decl ↔ a ∈ decl ∨ a ∈ l := by
  induction l generalizing decl with
  | nil => simp
  | cons b l ih => rw [List.foldl_cons, ih, mem_addUniqueToList, List.mem_cons, or_assoc]

/-- Adding members that are not there makes no duplicates. -/
lemma nodup_foldl_addUniqueToList {α : Type*} [DecidableEq α] {l decl : List α}
    (h : decl.Nodup) : (l.foldl addUniqueToList decl).Nodup := by
  induction l generalizing decl with
  | nil => exact h
  | cons b l ih => exact ih (nodup_addUniqueToList h b)

/-- Adding members one after the other: those that are not in the list are appended, once. -/
lemma exists_foldl_addUniqueToList {α : Type*} [DecidableEq α] (l decl : List α) :
    ∃ added, l.foldl addUniqueToList decl = decl ++ added ∧ added.Nodup ∧
      (∀ a ∈ added, a ∈ l ∧ a ∉ decl) ∧ ∀ a ∈ l, a ∈ decl ++ added := by
  induction l generalizing decl with
  | nil => exact ⟨[], by simp⟩
  | cons b l ih =>
    rw [List.foldl_cons]
    by_cases hb : b ∈ decl
    · obtain ⟨added, hfold, hnd, hadded, hall⟩ := ih decl
      rw [addUniqueToList, if_pos hb]
      refine ⟨added, hfold, hnd, fun a ha => ?_, List.forall_mem_cons.mpr ⟨?_, hall⟩⟩
      · exact ⟨List.mem_cons_of_mem b (hadded a ha).1, (hadded a ha).2⟩
      · exact List.mem_append_left _ hb
    · obtain ⟨added, hfold, hnd, hadded, hall⟩ := ih (decl ++ [b])
      rw [addUniqueToList, if_neg hb]
      have hform : decl ++ [b] ++ added = decl ++ b :: added := by simp
      refine ⟨b :: added, hfold.trans hform, List.nodup_cons.mpr ⟨fun hmem => ?_, hnd⟩, ?_, ?_⟩
      · exact (hadded b hmem).2 (by simp)
      · refine List.forall_mem_cons.mpr ⟨⟨List.mem_cons_self, hb⟩, fun a ha => ?_⟩
        have hnot := (hadded a ha).2
        rw [List.mem_append, not_or] at hnot
        exact ⟨List.mem_cons_of_mem b (hadded a ha).1, hnot.1⟩
      · rw [← hform]
        exact List.forall_mem_cons.mpr ⟨by simp, hall⟩

/-- Add to the list of one event or state. -/
def addUniqueAt {κ α : Type*} [DecidableEq κ] [DecidableEq α] (f : κ → List α) (k : κ) (a : α) :
    κ → List α :=
  Function.update f k (addUniqueToList (f k) a)

/-- The members after one has been added to the list of a key. -/
lemma mem_addUniqueAt {κ α : Type*} [DecidableEq κ] [DecidableEq α] {f : κ → List α} {k l : κ}
    {a b : α} : b ∈ addUniqueAt f k a l ↔ b ∈ f l ∨ l = k ∧ b = a := by
  unfold addUniqueAt
  by_cases hl : l = k
  · subst hl
    simp [mem_addUniqueToList]
  · simp [hl]

/-- Adding a member that is not there to a list makes no duplicate in any. -/
lemma nodup_addUniqueAt {κ α : Type*} [DecidableEq κ] [DecidableEq α] {f : κ → List α}
    (h : ∀ k, (f k).Nodup) (k : κ) (a : α) (l : κ) : (addUniqueAt f k a l).Nodup := by
  unfold addUniqueAt
  by_cases hl : l = k
  · subst hl
    simpa using nodup_addUniqueToList (h l) a
  · simpa [hl] using h l

/-- The entry's events, ALL filled in. -/
def MachineMatrix.expandEvents (M : MachineMatrix ε σ) (pai : ActionInfo ε σ) : List ε :=
  if pai.eventList = [] then M.eventList.filter (fun e => !M.consumedByTranslator e)
  else pai.eventList

/-- The entry's states, ALL filled in. -/
def MachineMatrix.expandStates (M : MachineMatrix ε σ) (pai : ActionInfo ε σ) : List σ :=
  if pai.stateList = [] then M.stateList.filter (fun s => !M.implementedBySubMachine s)
  else pai.stateList

/-- The order number of an event. -/
def MachineMatrix.eventOrder (M : MachineMatrix ε σ) : ε → ℕ := enumeratePidList M.eventList

/-- The order number of a state. -/
def MachineMatrix.stateOrder (M : MachineMatrix ε σ) : σ → ℕ := enumeratePidList M.stateList

/-- Note the action of an entry for an event and a state. -/
def recordAction (A : ActionArray ε σ) (action : String) (e : ε) (s : σ) : ActionArray ε σ :=
  if action = "" then A
  else
    { A with
      stateActionsList := addUniqueAt A.stateActionsList s action
      eventActionsList := addUniqueAt A.eventActionsList e action }

/-- Count the state when the entry is the event's single one so far. -/
def recordSinglePai (A : ActionArray ε σ) (idx : ℕ) (e : ε) : ActionArray ε σ :=
  if A.psinglePai e = some idx then
    { A with
      singlePaiStateCount :=
        Function.update A.singlePaiStateCount e (A.singlePaiStateCount e + 1) }
  else A

/-- Note that the state handles the event. -/
def recordHandling (A : ActionArray ε σ) (e : ε) (s : σ) : ActionArray ε σ :=
  { A with
    peventsHandled := addUniqueAt A.peventsHandled s e
    phandlingStates := addUniqueAt A.phandlingStates e s }

/-- Note where the entry's transition leads from a state. -/
def recordTransition (A : ActionArray ε σ) (t : Option (Transition σ)) (s : σ) :
    ActionArray ε σ :=
  match t with
  | none => A
  | some (.state t) =>
    if t = s then A
    else
      { A with
        pinboundTransitions := addUniqueAt A.pinboundTransitions t s
        poutboundTransitions := addUniqueAt A.poutboundTransitions s t }
  | some (.fn _ returnsDecl) =>
    { A with
      poutboundTransitions := Function.update A.poutboundTransitions s
        ((returnsDecl.filter (· ≠ s)).foldl addUniqueToList (A.poutboundTransitions s))
      pinboundTransitions := (returnsDecl.filter (· ≠ s)).foldl
        (fun inbound t => addUniqueAt inbound t s) A.pinboundTransitions }

/-- Store the entry with number `idx` in the cell of an event and a state, or report that the
cell is occupied. -/
def addToActionArray (M : MachineMatrix ε σ) (idx : ℕ) (pai : ActionInfo ε σ) (e : ε)
    (A : ActionArray ε σ) (s : σ) : ActionArray ε σ × Bool :=
  match A.cell (M.eventOrder e) (M.stateOrder s) with
  | some _ => ({ A with error := true }, true)
  | none =>
    let A₁ := { A with
      cell := Function.update A.cell (M.eventOrder e)
        (Function.update (A.cell (M.eventOrder e)) (M.stateOrder s) (some idx)) }
    let A₂ := recordTransition (recordHandling
      (recordSinglePai (recordAction A₁ pai.action e s) idx e) e s) pai.transition s
    (A₂, A₂.error)

/-- Before the states of an entry are walked over for an event. -/
def beginEvent (A : ActionArray ε σ) (idx : ℕ) (e : ε) : ActionArray ε σ :=
  { A with
    singlePaiStateCount := Function.update A.singlePaiStateCount e 0
    psinglePai := Function.update A.psinglePai e (some ((A.psinglePai e).getD idx))
    error := false }

/-- After the states of an entry have been walked over for an event. -/
def endEvent (M : MachineMatrix ε σ) (A : ActionArray ε σ) (e : ε) : ActionArray ε σ :=
  if A.singlePaiStateCount e = M.stateList.length then
    { A with
      singlePaiForAllStates := Function.update A.singlePaiForAllStates e true
      hasSinglePaiEvents := true }
  else A

/-- Store the entry in the cells of one event. -/
def iterateMatrixStates (M : MachineMatrix ε σ) (idx : ℕ) (pai : ActionInfo ε σ)
    (A : ActionArray ε σ) (e : ε) : ActionArray ε σ × Bool :=
  let A₁ := (iterate (addToActionArray M idx pai e) (beginEvent A idx e) (M.expandStates pai)).1
  let A₂ := endEvent M A₁ e
  (A₂, A₂.error)

/-- Store one entry, given with its place in the list, in the cells of all its events. -/
def processActionInfo (M : MachineMatrix ε σ) (A : ActionArray ε σ)
    (pai : ActionInfo ε σ × ℕ) : ActionArray ε σ × Bool :=
  let A₁ := (iterate (iterateMatrixStates M pai.2 pai.1) A (M.expandEvents pai.1)).1
  (A₁, A₁.error)

/-- Fill in the action array. The result's `error` is what the source returns. -/
def populateActionArray (M : MachineMatrix ε σ) : ActionArray ε σ :=
  (iterate (processActionInfo M) ActionArray.fresh M.actionInfoList.zipIdx).1

/-! ## What the walk does -/

/-- The cells an entry names for one event, with the entry's place. -/
def namedByEvent (M : MachineMatrix ε σ) (pai : ActionInfo ε σ × ℕ) (e : ε) :
    List ((ε × σ) × ℕ) :=
  (M.expandStates pai.1).map fun s => ((e, s), pai.2)

/-- The cells an entry names, with the entry's place. -/
def namedByEntry (M : MachineMatrix ε σ) (pai : ActionInfo ε σ × ℕ) : List ((ε × σ) × ℕ) :=
  (M.expandEvents pai.1).flatMap (namedByEvent M pai)

/-- The cells the expanded entries name, with the place of the entry, in the order of the
walk. -/
def namedCells (M : MachineMatrix ε σ) : List ((ε × σ) × ℕ) :=
  M.actionInfoList.zipIdx.flatMap (namedByEntry M)

/-- Every entry names events and states of the machine. -/
def MachineMatrix.Declared (M : MachineMatrix ε σ) : Prop :=
  ∀ pai ∈ M.actionInfoList, pai.eventList ⊆ M.eventList ∧ pai.stateList ⊆ M.stateList

/-- The cells that the entries name are those of events and states of the machine. -/
def MachineMatrix.CellsDeclared (M : MachineMatrix ε σ) : Prop :=
  ∀ pai ∈ M.actionInfoList, ∀ e ∈ M.expandEvents pai, ∀ s ∈ M.expandStates pai,
    e ∈ M.eventList ∧ s ∈ M.stateList

instance (M : MachineMatrix ε σ) : Decidable M.CellsDeclared :=
  inferInstanceAs (Decidable (∀ pai ∈ M.actionInfoList, ∀ e ∈ M.expandEvents pai,
    ∀ s ∈ M.expandStates pai, e ∈ M.eventList ∧ s ∈ M.stateList))

/-- A state of the walk in which exactly the cells in `done` are filled, each once. -/
structure Filled (M : MachineMatrix ε σ) (done : List ((ε × σ) × ℕ)) (A : ActionArray ε σ) :
    Prop where
  nodup : (done.map Prod.fst).Nodup
  declared : ∀ x ∈ done, x.1.1 ∈ M.eventList ∧ x.1.2 ∈ M.stateList
  cell : ∀ i j idx, A.cell i j = some idx ↔
    ∃ x ∈ done, M.eventOrder x.1.1 = i ∧ M.stateOrder x.1.2 = j ∧ x.2 = idx
  error : A.error = false

/-- Some cell is named twice. -/
def NamedTwice (l : List ((ε × σ) × ℕ)) : Prop := ¬ (l.map Prod.fst).Nodup

omit [DecidableEq ε] [DecidableEq σ] in
/-- A cell that is named twice is so among more names. -/
lemma NamedTwice.append {l : List ((ε × σ) × ℕ)} (h : NamedTwice l)
    (more : List ((ε × σ) × ℕ)) : NamedTwice (l ++ more) := by
  unfold NamedTwice at h ⊢
  rw [List.map_append]
  intro hnd
  exact h (List.nodup_append.mp hnd).1

/-! ### What the notes leave alone -/

/-- Recording an action leaves the cells alone. -/
@[simp] lemma recordAction_cell (A : ActionArray ε σ) (action : String) (e : ε) (s : σ) :
    (recordAction A action e s).cell = A.cell := by
  unfold recordAction
  split_ifs <;> rfl

/-- Recording an action reports no error. -/
@[simp] lemma recordAction_error (A : ActionArray ε σ) (action : String) (e : ε) (s : σ) :
    (recordAction A action e s).error = A.error := by
  unfold recordAction
  split_ifs <;> rfl

omit [DecidableEq σ] in
/-- Recording the entry of an event leaves the cells alone. -/
@[simp] lemma recordSinglePai_cell (A : ActionArray ε σ) (idx : ℕ) (e : ε) :
    (recordSinglePai A idx e).cell = A.cell := by
  unfold recordSinglePai
  split_ifs <;> rfl

omit [DecidableEq σ] in
/-- Recording the entry of an event reports no error. -/
@[simp] lemma recordSinglePai_error (A : ActionArray ε σ) (idx : ℕ) (e : ε) :
    (recordSinglePai A idx e).error = A.error := by
  unfold recordSinglePai
  split_ifs <;> rfl

/-- Recording that a state handles an event leaves the cells alone. -/
@[simp] lemma recordHandling_cell (A : ActionArray ε σ) (e : ε) (s : σ) :
    (recordHandling A e s).cell = A.cell := rfl

/-- Recording that a state handles an event reports no error. -/
@[simp] lemma recordHandling_error (A : ActionArray ε σ) (e : ε) (s : σ) :
    (recordHandling A e s).error = A.error := rfl

omit [DecidableEq ε] in
/-- Recording a transition leaves the cells alone. -/
@[simp] lemma recordTransition_cell (A : ActionArray ε σ) (t : Option (Transition σ)) (s : σ) :
    (recordTransition A t s).cell = A.cell := by
  unfold recordTransition
  split
  · rfl
  · split_ifs <;> rfl
  · rfl

omit [DecidableEq ε] in
/-- Recording a transition reports no error. -/
@[simp] lemma recordTransition_error (A : ActionArray ε σ) (t : Option (Transition σ)) (s : σ) :
    (recordTransition A t s).error = A.error := by
  unfold recordTransition
  split
  · rfl
  · split_ifs <;> rfl
  · rfl

omit [DecidableEq σ] in
/-- The end of an event leaves the cells alone. -/
@[simp] lemma endEvent_cell (M : MachineMatrix ε σ) (A : ActionArray ε σ) (e : ε) :
    (endEvent M A e).cell = A.cell := by
  unfold endEvent
  split_ifs <;> rfl

omit [DecidableEq σ] in
/-- The end of an event reports no error. -/
@[simp] lemma endEvent_error (M : MachineMatrix ε σ) (A : ActionArray ε σ) (e : ε) :
    (endEvent M A e).error = A.error := by
  unfold endEvent
  split_ifs <;> rfl

/-! ### One cell, one event, one entry -/

/-- Only the table and the error flag count. -/
lemma Filled.congr {M : MachineMatrix ε σ} {done : List ((ε × σ) × ℕ)} {A B : ActionArray ε σ}
    (h : Filled M done A) (hcell : B.cell = A.cell) (herror : B.error = A.error) :
    Filled M done B :=
  ⟨h.nodup, h.declared, by rw [hcell]; exact h.cell, by rw [herror]; exact h.error⟩

/-- The cell of an event and a state is filled when it has been named. -/
lemma Filled.cell_order {M : MachineMatrix ε σ} {done : List ((ε × σ) × ℕ)}
    {A : ActionArray ε σ} (h : Filled M done A) {e : ε} {s : σ} (he : e ∈ M.eventList)
    (hs : s ∈ M.stateList) (idx : ℕ) :
    A.cell (M.eventOrder e) (M.stateOrder s) = some idx ↔ ((e, s), idx) ∈ done := by
  rw [h.cell]
  constructor
  · rintro ⟨⟨⟨e', s'⟩, idx'⟩, hmem, horder, horder', rfl⟩
    obtain ⟨he', hs'⟩ := h.declared _ hmem
    obtain rfl := enumeratePidList_inj he' he horder
    obtain rfl := enumeratePidList_inj hs' hs horder'
    exact hmem
  · intro hmem
    exact ⟨_, hmem, rfl, rfl, rfl⟩

/-- `add_to_action_array` fills one more cell, or reports a cell named twice. -/
lemma stepSpec_addToActionArray {M : MachineMatrix ε σ} (idx : ℕ) (pai : ActionInfo ε σ) {e : ε}
    (he : e ∈ M.eventList) {s : σ} (hs : s ∈ M.stateList) (done : List ((ε × σ) × ℕ))
    (A : ActionArray ε σ) (h : Filled M done A) :
    StepSpec (Filled M) NamedTwice (fun A => A.error = true) done [((e, s), idx)]
      (addToActionArray M idx pai e A s) := by
  unfold addToActionArray
  cases hcell : A.cell (M.eventOrder e) (M.stateOrder s) with
  | some idx' =>
    refine ⟨by simp, fun _ => rfl, ?_⟩
    intro _ more
    apply NamedTwice.append
    have hmem := (h.cell_order he hs idx').mp hcell
    intro hnd
    rw [List.map_append, List.nodup_append] at hnd
    exact hnd.2.2 (e, s) (List.mem_map_of_mem (f := Prod.fst) hmem) (e, s) (by simp) rfl
  | none =>
    have herror : A.error = false := h.error
    refine ⟨?_, by simp [herror], by simp [herror]⟩
    intro _
    -- the cell has not been named before
    have hnew : (e, s) ∉ done.map Prod.fst := by
      intro hmem
      obtain ⟨⟨_, idx'⟩, hmem, rfl⟩ := List.mem_map.mp hmem
      rw [(h.cell_order he hs idx').mpr hmem] at hcell
      simp at hcell
    refine ⟨?_, ?_, ?_, by simp [herror]⟩
    · rw [List.map_append]
      exact List.nodup_append.mpr ⟨h.nodup, by simp, by
        intro x hx y hy hxy
        obtain rfl : y = (e, s) := by simpa using hy
        exact hnew (hxy ▸ hx)⟩
    · intro x hx
      rcases List.mem_append.mp hx with hx | hx
      · exact h.declared x hx
      · rw [List.mem_singleton.mp hx]
        exact ⟨he, hs⟩
    · intro i j idx'
      simp only [recordTransition_cell, recordHandling_cell, recordSinglePai_cell,
        recordAction_cell, Function.update_apply, List.mem_append, List.mem_singleton, or_and_right,
        exists_or, exists_eq_left]
      by_cases hi : i = M.eventOrder e
      · by_cases hj : j = M.stateOrder s
        · rw [if_pos hi, Function.update_apply, if_pos hj]
          constructor
          · intro hidx
            exact .inr ⟨hi.symm, hj.symm, Option.some.inj hidx⟩
          · intro hor
            rcases hor with hold | hnow
            · have := (h.cell i j idx').mpr hold
              rw [hi, hj, hcell] at this
              simp at this
            · rw [hnow.2.2]
        · rw [if_pos hi, Function.update_apply, if_neg hj, ← hi, h.cell]
          simp [Ne.symm hj]
      · rw [if_neg hi, h.cell]
        simp [Ne.symm hi]

omit [DecidableEq ε] [DecidableEq σ] in
/-- A callback that passes on the error flag of the walk inside it. -/
lemma StepSpec.report {Good : List ((ε × σ) × ℕ) → ActionArray ε σ → Prop}
    {Bad : List ((ε × σ) × ℕ) → Prop} (hgood : ∀ done A, Good done A → A.error = false)
    {done items : List ((ε × σ) × ℕ)} {r : ActionArray ε σ × Bool}
    (h : StepSpec Good Bad (fun A => A.error = true) done items r) {B : ActionArray ε σ}
    (hB : Good (done ++ items) r.1 → Good (done ++ items) B) (herror : B.error = r.1.error) :
    StepSpec Good Bad (fun A => A.error = true) done items (B, B.error) := by
  cases hr : r.2 with
  | true =>
    have htrue : B.error = true := by rw [herror, h.failed hr]
    exact ⟨by simp [htrue], fun _ => htrue, fun _ => h.bad hr⟩
  | false =>
    have hafter := hB (h.good hr)
    have hfalse := hgood _ B hafter
    exact ⟨fun _ => hafter, by simp [hfalse], by simp [hfalse]⟩

/-- The same for the cells. -/
lemma stepSpec_report {M : MachineMatrix ε σ} {done items : List ((ε × σ) × ℕ)}
    {r : ActionArray ε σ × Bool}
    (h : StepSpec (Filled M) NamedTwice (fun A => A.error = true) done items r)
    {B : ActionArray ε σ} (hcell : B.cell = r.1.cell) (herror : B.error = r.1.error) :
    StepSpec (Filled M) NamedTwice (fun A => A.error = true) done items (B, B.error) :=
  StepSpec.report (fun _ _ hA => hA.error) h (fun hr => hr.congr hcell herror) herror

/-- `iterate_matrix_states` fills the cells an entry names for one event. -/
lemma stepSpec_iterateMatrixStates {M : MachineMatrix ε σ} (pai : ActionInfo ε σ × ℕ) {e : ε}
    (hpai : ∀ s ∈ M.expandStates pai.1, e ∈ M.eventList ∧ s ∈ M.stateList)
    (done : List ((ε × σ) × ℕ)) (A : ActionArray ε σ) (h : Filled M done A) :
    StepSpec (Filled M) NamedTwice (fun A => A.error = true) done (namedByEvent M pai e)
      (iterateMatrixStates M pai.2 pai.1 A e) := by
  have hbegin : Filled M done (beginEvent A pai.2 e) := ⟨h.nodup, h.declared, h.cell, rfl⟩
  have hwalk := StepSpec.iterate (M.expandStates pai.1)
    (fun s hs done A hA =>
      stepSpec_addToActionArray pai.2 pai.1 (hpai s hs).1 (hpai s hs).2 done A hA) done _ hbegin
  rw [← List.map_eq_flatMap] at hwalk
  exact stepSpec_report hwalk (endEvent_cell _ _ _) (endEvent_error _ _ _)

/-- `process_action_info` fills the cells an entry names. -/
private lemma stepSpec_processActionInfo {M : MachineMatrix ε σ} {pai : ActionInfo ε σ × ℕ}
    (hpai : ∀ e ∈ M.expandEvents pai.1, ∀ s ∈ M.expandStates pai.1,
      e ∈ M.eventList ∧ s ∈ M.stateList)
    (done : List ((ε × σ) × ℕ)) (A : ActionArray ε σ) (h : Filled M done A) :
    StepSpec (Filled M) NamedTwice (fun A => A.error = true) done (namedByEntry M pai)
      (processActionInfo M A pai) := by
  have hwalk := StepSpec.iterate (M.expandEvents pai.1)
    (fun e he done A hA => stepSpec_iterateMatrixStates pai (hpai e he) done A hA) done A h
  exact stepSpec_report hwalk rfl rfl

omit [DecidableEq ε] [DecidableEq σ] in
/-- ALL stands for events of the machine. -/
lemma MachineMatrix.Declared.expandEvents_subset {M : MachineMatrix ε σ} (hM : M.Declared)
    {pai : ActionInfo ε σ} (hpai : pai ∈ M.actionInfoList) :
    M.expandEvents pai ⊆ M.eventList := by
  unfold MachineMatrix.expandEvents
  split_ifs
  · exact List.filter_subset_self _
  · exact (hM pai hpai).1

omit [DecidableEq ε] [DecidableEq σ] in
/-- ALL stands for states of the machine. -/
lemma MachineMatrix.Declared.expandStates_subset {M : MachineMatrix ε σ} (hM : M.Declared)
    {pai : ActionInfo ε σ} (hpai : pai ∈ M.actionInfoList) :
    M.expandStates pai ⊆ M.stateList := by
  unfold MachineMatrix.expandStates
  split_ifs
  · exact List.filter_subset_self _
  · exact (hM pai hpai).2

omit [DecidableEq ε] [DecidableEq σ] in
/-- Entries that name events and states of the machine name its cells. -/
lemma MachineMatrix.Declared.cellsDeclared {M : MachineMatrix ε σ} (hM : M.Declared) :
    M.CellsDeclared := fun _ hpai _ he _ hs =>
  ⟨hM.expandEvents_subset hpai he, hM.expandStates_subset hpai hs⟩

/-- **What populating does.** Either all cells named have been filled, each once, or some cell
is named twice and the error flag is set. -/
theorem populateActionArray_spec {M : MachineMatrix ε σ} (hM : M.CellsDeclared) :
    (Filled M (namedCells M) (populateActionArray M)) ∨
      (populateActionArray M).error = true ∧ NamedTwice (namedCells M) := by
  have hfresh : Filled M [] (ActionArray.fresh : ActionArray ε σ) :=
    ⟨by simp, by simp, by simp [ActionArray.fresh], rfl⟩
  have hwalk := StepSpec.iterate M.actionInfoList.zipIdx
    (fun pai hpai done A hA => by
      have hmem : pai.1 ∈ M.actionInfoList := List.fst_mem_of_mem_zipIdx hpai
      exact stepSpec_processActionInfo (hM pai.1 hmem) done A hA) [] _ hfresh
  cases h : (iterate (processActionInfo M) ActionArray.fresh M.actionInfoList.zipIdx).2 with
  | false => exact .inl (hwalk.good h)
  | true =>
    have hbad := hwalk.bad h []
    rw [List.nil_append, List.append_nil] at hbad
    exact .inr ⟨hwalk.failed h, hbad⟩

/-- Without an error the cells named are filled. -/
lemma MachineMatrix.CellsDeclared.filled {M : MachineMatrix ε σ} (hM : M.CellsDeclared)
    (herror : (populateActionArray M).error = false) :
    Filled M (namedCells M) (populateActionArray M) := by
  rcases populateActionArray_spec hM with hfilled | ⟨herror', -⟩
  · exact hfilled
  · rw [herror] at herror'
    cases herror'

omit [DecidableEq ε] [DecidableEq σ] in
/-- The cells the entries name are named by an entry with its events and states. -/
lemma mem_namedCells {M : MachineMatrix ε σ} {e : ε} {s : σ} {idx : ℕ} :
    ((e, s), idx) ∈ namedCells M ↔
      ∃ pai, M.actionInfoList[idx]? = some pai ∧ e ∈ M.expandEvents pai ∧
        s ∈ M.expandStates pai := by
  simp only [namedCells, namedByEntry, namedByEvent, List.mem_flatMap, List.mem_map,
    Prod.mk.injEq]
  constructor
  · rintro ⟨⟨pai, k⟩, hk, e', he', s', hs', ⟨rfl, rfl⟩, rfl⟩
    exact ⟨pai, List.mem_zipIdx_iff_getElem?.mp hk, he', hs'⟩
  · rintro ⟨pai, hk, he, hs⟩
    exact ⟨(pai, idx), List.mem_zipIdx_iff_getElem?.mpr hk, e, he, s, hs, ⟨rfl, rfl⟩, rfl⟩

/-- **The action array.** Populating reports an error exactly when a cell is named twice by
the expanded entries; without an error the cell of an event and a state holds the entry that
names it, and is empty when there is none.

**Proof sketch.** The walk fills the cells in the order in which they are named, until one is
occupied. Order numbers tell the events and states of a machine apart, so that a cell is
occupied only if the same event and state have been named before. -/
theorem populateActionArray_correct {M : MachineMatrix ε σ} (hM : M.Declared) :
    ((populateActionArray M).error = true ↔ ¬ ((namedCells M).map Prod.fst).Nodup) ∧
      ((populateActionArray M).error = false → ∀ e ∈ M.eventList, ∀ s ∈ M.stateList,
        (∀ idx, (populateActionArray M).cell (M.eventOrder e) (M.stateOrder s) = some idx ↔
          ∃ pai, M.actionInfoList[idx]? = some pai ∧ e ∈ M.expandEvents pai ∧
            s ∈ M.expandStates pai) ∧
        ((populateActionArray M).cell (M.eventOrder e) (M.stateOrder s) = none ↔
          ∀ pai ∈ M.actionInfoList, ¬ (e ∈ M.expandEvents pai ∧ s ∈ M.expandStates pai))) := by
  rcases populateActionArray_spec hM.cellsDeclared with h | h
  · have hcell : ∀ e ∈ M.eventList, ∀ s ∈ M.stateList, ∀ idx,
        (populateActionArray M).cell (M.eventOrder e) (M.stateOrder s) = some idx ↔
          ∃ pai, M.actionInfoList[idx]? = some pai ∧ e ∈ M.expandEvents pai ∧
            s ∈ M.expandStates pai := by
      intro e he s hs idx
      rw [h.cell_order he hs, mem_namedCells]
    refine ⟨by simp [h.error, h.nodup], ?_⟩
    intro _ e he s hs
    refine ⟨hcell e he s hs, ?_⟩
    rw [Option.eq_none_iff_forall_ne_some]
    constructor
    · intro hnone pai hpai hnamed
      obtain ⟨idx, hidx⟩ := List.getElem?_of_mem hpai
      exact hnone idx ((hcell e he s hs idx).mpr ⟨pai, hidx, hnamed⟩)
    · intro hno idx hidx
      obtain ⟨pai, hpai, hnamed⟩ := (hcell e he s hs idx).mp hidx
      exact hno pai (List.mem_of_getElem? hpai) hnamed
  · obtain ⟨herror, htwice⟩ := h
    exact ⟨⟨fun _ => htwice, fun _ => herror⟩, by simp [herror]⟩

/-- Two events and two states: one entry for all events in the first state, one for the second
event in the second state. -/
def smallMatrix : MachineMatrix ℕ ℕ where
  eventList := [0, 1]
  stateList := [0, 1]
  consumedByTranslator := fun _ => false
  implementedBySubMachine := fun _ => false
  actionInfoList := [⟨"a", none, [], [0]⟩, ⟨"b", some (.state 0), [1], [1]⟩]

/-- No cell of the small matrix is named twice, and the cells hold the entries that name them. -/
theorem populateActionArray_correct_smallMatrix :
    (populateActionArray smallMatrix).error = false ∧
      ∀ e ∈ smallMatrix.eventList, ∀ s ∈ smallMatrix.stateList,
        (∀ idx, (populateActionArray smallMatrix).cell (smallMatrix.eventOrder e)
            (smallMatrix.stateOrder s) = some idx ↔
          ∃ pai, smallMatrix.actionInfoList[idx]? = some pai ∧
            e ∈ smallMatrix.expandEvents pai ∧ s ∈ smallMatrix.expandStates pai) ∧
        ((populateActionArray smallMatrix).cell (smallMatrix.eventOrder e)
            (smallMatrix.stateOrder s) = none ↔
          ∀ pai ∈ smallMatrix.actionInfoList,
            ¬ (e ∈ smallMatrix.expandEvents pai ∧ s ∈ smallMatrix.expandStates pai)) :=
  ⟨by decide, (populateActionArray_correct (by simp [MachineMatrix.Declared, smallMatrix])).2
    (by decide)⟩

example : (populateActionArray smallMatrix).cell 1 1 = some 1 := by decide

end Walk

end FsmLang
