import Mathlib.Data.List.Perm.Subperm
import Mathlib.Tactic
import FsmLang.ActionArray

set_option relaxedAutoImplicit false
set_option autoImplicit false

/-!
# What the action array's walk notes

Besides the cells, the walk of `populate_action_array` notes for each state the events it
handles, for each event the states that handle it, and which events one and the same entry
handles in all states. The -ts and -te generators print their functions from these notes.

An event is taken to be handled in all states by the first entry that names it, and the states
of each entry are counted against the number of all states. This finds every event that one
entry handles in all states, if every entry names at least one state. ALL may name none: it
leaves out the states implemented by sub-machines. An event that such an entry names first is
never found.

## Main definitions

* `Row` — an entry and one of its events; `rowCells` — the cells of rows.
* `RowsNoted` — the notes are those of the rows walked over so far.
* `Noted` — the notes agree with the cells filled so far, if every entry names a state.
* `NamedWithoutStates` — an earlier entry names the event and no state.

## Main results

* `rowsNoted_populateActionArray`, `noted_populateActionArray` — they agree after a walk without
  error.
* `RowsNoted.singlePaiForAllStates_iff` — which events are noted as handled in all states.
* `singlePai_right_iff` — when all events that one entry handles in all states are.
-/

namespace FsmLang

open CSemantics

section Notes

variable {ε σ : Type*} [DecidableEq ε] [DecidableEq σ]

/-- A row that the walk goes over: an entry with its place, and one of its events. -/
abbrev Row (ε σ : Type*) := (ActionInfo ε σ × ℕ) × ε

/-- The cells of rows. -/
def rowCells (M : MachineMatrix ε σ) (rows : List (Row ε σ)) : List ((ε × σ) × ℕ) :=
  rows.flatMap fun r => namedByEvent M r.1 r.2

/-- The rows of an entry. -/
def entryRows (M : MachineMatrix ε σ) (pai : ActionInfo ε σ × ℕ) : List (Row ε σ) :=
  (M.expandEvents pai.1).map fun e => (pai, e)

/-- The rows of all entries, in the order of the walk. -/
def namedRows (M : MachineMatrix ε σ) : List (Row ε σ) :=
  M.actionInfoList.zipIdx.flatMap (entryRows M)

/-- The notes are those of the rows that have been walked over. -/
structure RowsNoted (M : MachineMatrix ε σ) (rows : List (Row ε σ)) (A : ActionArray ε σ) :
    Prop extends Filled M (rowCells M rows) A where
  entries : ∀ r ∈ rows, M.actionInfoList[r.1.2]? = some r.1.1
  peventsHandled : ∀ s, A.peventsHandled s =
    ((rowCells M rows).filter fun x => x.1.2 = s).map fun x => x.1.1
  phandlingStates : ∀ e, A.phandlingStates e =
    ((rowCells M rows).filter fun x => x.1.1 = e).map fun x => x.1.2
  psinglePai : ∀ e, A.psinglePai e = (rows.find? fun r => r.2 = e).map fun r => r.1.2
  single : ∀ e, A.singlePaiForAllStates e = true ↔
    ∃ idx, A.psinglePai e = some idx ∧ ∀ s ∈ M.stateList, ((e, s), idx) ∈ rowCells M rows
  hasSingle : A.hasSinglePaiEvents = true ↔ ∃ e, A.singlePaiForAllStates e = true

/-- The notes agree with the cells in `done`, which are those of whole rows of entries. -/
structure Noted (M : MachineMatrix ε σ) (done : List ((ε × σ) × ℕ)) (A : ActionArray ε σ) :
    Prop extends Filled M done A where
  handled : ∀ e s, e ∈ A.peventsHandled s ↔ ∃ idx, ((e, s), idx) ∈ done
  handling : ∀ e s, s ∈ A.phandlingStates e ↔ ∃ idx, ((e, s), idx) ∈ done
  whole : ∀ e s idx, ((e, s), idx) ∈ done → ∀ pai, M.actionInfoList[idx]? = some pai →
    ∀ s' ∈ M.expandStates pai, ((e, s'), idx) ∈ done
  psinglePai_none : ∀ e, A.psinglePai e = none → ∀ s idx, ((e, s), idx) ∉ done
  psinglePai_some : ∀ e idx, A.psinglePai e = some idx → ∃ s, ((e, s), idx) ∈ done
  single : ∀ e, A.singlePaiForAllStates e = true ↔
    ∃ idx, ∀ s ∈ M.stateList, ((e, s), idx) ∈ done
  hasSingle : ∀ e, A.singlePaiForAllStates e = true → A.hasSinglePaiEvents = true

/-- The notes while the states of the entry `idx` are walked over for the event `e`, since
`start`. -/
structure Noting (M : MachineMatrix ε σ) (idx : ℕ) (e : ε) (start : ActionArray ε σ)
    (done₀ done : List ((ε × σ) × ℕ)) (A : ActionArray ε σ) : Prop extends Filled M done A where
  peventsHandled : ∀ s, A.peventsHandled s = (done.filter fun x => x.1.2 = s).map fun x => x.1.1
  phandlingStates : ∀ e, A.phandlingStates e =
    (done.filter fun x => x.1.1 = e).map fun x => x.1.2
  psinglePai : A.psinglePai = start.psinglePai
  single : A.singlePaiForAllStates = start.singlePaiForAllStates
  hasSingle : A.hasSinglePaiEvents = start.hasSinglePaiEvents
  count : A.singlePaiStateCount e + done₀.length =
    if start.psinglePai e = some idx then done.length else done₀.length

/-! ## Rows -/

omit [DecidableEq ε] [DecidableEq σ] in
/-- The cells of rows behind others. -/
@[simp] lemma rowCells_append (M : MachineMatrix ε σ) (rows rows' : List (Row ε σ)) :
    rowCells M (rows ++ rows') = rowCells M rows ++ rowCells M rows' :=
  List.flatMap_append

omit [DecidableEq ε] [DecidableEq σ] in
/-- The cells of one row. -/
@[simp] lemma rowCells_singleton (M : MachineMatrix ε σ) (pai : ActionInfo ε σ × ℕ) (e : ε) :
    rowCells M [(pai, e)] = namedByEvent M pai e := by
  simp [rowCells]

omit [DecidableEq ε] [DecidableEq σ] in
/-- The cells of all rows are those that are named. -/
lemma rowCells_namedRows (M : MachineMatrix ε σ) : rowCells M (namedRows M) = namedCells M := by
  rw [rowCells, namedRows, List.flatMap_assoc, namedCells]
  refine List.flatMap_congr fun pai _ => ?_
  rw [entryRows, List.flatMap_map, namedByEntry]

omit [DecidableEq ε] [DecidableEq σ] in
/-- The cells that an entry names for an event. -/
lemma mem_namedByEvent {M : MachineMatrix ε σ} {pai : ActionInfo ε σ × ℕ} {e e' : ε} {s : σ}
    {idx : ℕ} : ((e', s), idx) ∈ namedByEvent M pai e ↔
      s ∈ M.expandStates pai.1 ∧ e' = e ∧ idx = pai.2 := by
  simp only [namedByEvent, List.mem_map, Prod.mk.injEq]
  constructor
  · intro h
    obtain ⟨s', hs', ⟨he, rfl⟩, hidx⟩ := h
    exact ⟨hs', he.symm, hidx.symm⟩
  · intro h
    obtain ⟨hs, rfl, rfl⟩ := h
    exact ⟨s, hs, ⟨rfl, rfl⟩, rfl⟩

omit [DecidableEq ε] [DecidableEq σ] in
/-- The cells of rows are those that the entries name for their events. -/
lemma mem_rowCells {M : MachineMatrix ε σ} {rows : List (Row ε σ)} {e : ε} {s : σ} {idx : ℕ} :
    ((e, s), idx) ∈ rowCells M rows ↔
      ∃ pai, ((pai, idx), e) ∈ rows ∧ s ∈ M.expandStates pai := by
  rw [rowCells, List.mem_flatMap]
  constructor
  · rintro ⟨⟨⟨pai, idx'⟩, e'⟩, hr, hmem⟩
    obtain ⟨hs, rfl, rfl⟩ := mem_namedByEvent.mp hmem
    exact ⟨pai, hr, hs⟩
  · rintro ⟨pai, hr, hs⟩
    exact ⟨_, hr, mem_namedByEvent.mpr ⟨hs, rfl, rfl⟩⟩

omit [DecidableEq ε] [DecidableEq σ] in
/-- The rows are the entries with their events. -/
lemma mem_namedRows {M : MachineMatrix ε σ} {pai : ActionInfo ε σ} {idx : ℕ} {e : ε} :
    ((pai, idx), e) ∈ namedRows M ↔
      M.actionInfoList[idx]? = some pai ∧ e ∈ M.expandEvents pai := by
  simp only [namedRows, entryRows, List.mem_flatMap, List.mem_map, Prod.mk.injEq]
  constructor
  · rintro ⟨⟨pai', idx'⟩, hmem, e', he', ⟨rfl, rfl⟩, rfl⟩
    exact ⟨List.mem_zipIdx_iff_getElem?.mp hmem, he'⟩
  · rintro ⟨hidx, he⟩
    exact ⟨(pai, idx), List.mem_zipIdx_iff_getElem?.mpr hidx, e, he, rfl, rfl⟩

/-! ## One state -/

/-- Adding to one of several lists what is not in it yet. -/
lemma addUniqueAt_of_notMem {κ α : Type*} [DecidableEq κ] [DecidableEq α] {f : κ → List α}
    {k : κ} {a : α} (h : a ∉ f k) (l : κ) :
    addUniqueAt f k a l = f l ++ if k = l then [a] else [] := by
  unfold addUniqueAt addUniqueToList
  rw [if_neg h]
  by_cases hl : k = l
  · subst hl
    simp
  · simp [hl, Ne.symm hl]

/-- What storing an entry in a free cell notes. -/
lemma addToActionArray_notes (M : MachineMatrix ε σ) (idx : ℕ) (pai : ActionInfo ε σ) (e : ε)
    (A : ActionArray ε σ) (s : σ)
    (h : A.cell (M.eventOrder e) (M.stateOrder s) = none) :
    let B := (addToActionArray M idx pai e A s).1
    B.peventsHandled = addUniqueAt A.peventsHandled s e ∧
      B.phandlingStates = addUniqueAt A.phandlingStates e s ∧
      B.psinglePai = A.psinglePai ∧ B.singlePaiForAllStates = A.singlePaiForAllStates ∧
      B.hasSinglePaiEvents = A.hasSinglePaiEvents ∧
      B.singlePaiStateCount e =
        A.singlePaiStateCount e + if A.psinglePai e = some idx then 1 else 0 := by
  simp only [addToActionArray, h]
  unfold recordTransition recordHandling recordSinglePai recordAction
  refine ⟨?_, ?_, ?_, ?_, ?_, ?_⟩
  all_goals split <;> split_ifs <;> simp_all

/-- One state of an entry, for one event. -/
private lemma stepSpec_noting {M : MachineMatrix ε σ} {idx : ℕ} (pai : ActionInfo ε σ) {e : ε}
    (he : e ∈ M.eventList) {start : ActionArray ε σ} {done₀ : List ((ε × σ) × ℕ)} {s : σ}
    (hs : s ∈ M.stateList) (done : List ((ε × σ) × ℕ)) (A : ActionArray ε σ)
    (h : Noting M idx e start done₀ done A) :
    StepSpec (Noting M idx e start done₀) NamedTwice (fun A => A.error = true) done
      [((e, s), idx)] (addToActionArray M idx pai e A s) := by
  apply (stepSpec_addToActionArray idx pai he hs done A h.toFilled).of_good
  intro hr hfilled
  -- the cell was free
  have hfree : A.cell (M.eventOrder e) (M.stateOrder s) = none := by
    cases hcell : A.cell (M.eventOrder e) (M.stateOrder s) with
    | none => rfl
    | some idx' => simp [addToActionArray, hcell] at hr
  have hnew : ∀ x ∈ done, x.1 ≠ (e, s) := by
    rintro ⟨_, idx'⟩ hx rfl
    rw [(h.cell_order he hs idx').mpr hx] at hfree
    cases hfree
  have hevent : e ∉ A.peventsHandled s := by
    rw [h.peventsHandled]
    intro hmem
    obtain ⟨x, hx, hxe⟩ := List.mem_map.mp hmem
    obtain ⟨hx, hxs⟩ := List.mem_filter.mp hx
    exact hnew x hx (Prod.ext hxe (by simpa using hxs))
  have hstate : s ∉ A.phandlingStates e := by
    rw [h.phandlingStates]
    intro hmem
    obtain ⟨x, hx, hxs⟩ := List.mem_map.mp hmem
    obtain ⟨hx, hxe⟩ := List.mem_filter.mp hx
    exact hnew x hx (Prod.ext (by simpa using hxe) hxs)
  obtain ⟨hhandled, hhandling, hsingle, hall, hhas, hcount⟩ :=
    addToActionArray_notes M idx pai e A s hfree
  refine ⟨hfilled, ?_, ?_, hsingle.trans h.psinglePai, hall.trans h.single,
    hhas.trans h.hasSingle, ?_⟩
  · intro s'
    rw [hhandled, addUniqueAt_of_notMem hevent, h.peventsHandled, List.filter_append,
      List.map_append]
    by_cases hss : s = s' <;> simp [hss]
  · intro e'
    rw [hhandling, addUniqueAt_of_notMem hstate, h.phandlingStates, List.filter_append,
      List.map_append]
    by_cases hee : e = e' <;> simp [hee]
  · have := h.count
    rw [hcount, h.psinglePai, List.length_append, List.length_singleton]
    split_ifs at this ⊢ <;> omega

/-! ## One event, one entry -/

/-- Before the states of an entry are walked over. -/
private lemma RowsNoted.noting {M : MachineMatrix ε σ} {rows : List (Row ε σ)} {A : ActionArray ε σ}
    (h : RowsNoted M rows A) (idx : ℕ) (e : ε) :
    Noting M idx e (beginEvent A idx e) (rowCells M rows) (rowCells M rows)
      (beginEvent A idx e) where
  nodup := h.nodup
  declared := h.declared
  cell := h.cell
  error := rfl
  peventsHandled := h.peventsHandled
  phandlingStates := h.phandlingStates
  psinglePai := rfl
  single := rfl
  hasSingle := rfl
  count := by simp [beginEvent]

omit [DecidableEq σ] in
/-- The entry is noted for the event if no other one has been. -/
lemma beginEvent_psinglePai (A : ActionArray ε σ) (idx : ℕ) (e e' : ε) :
    (beginEvent A idx e).psinglePai e' =
      (A.psinglePai e').or (if e = e' then some idx else none) := by
  by_cases hee : e = e'
  · subst hee
    cases hA : A.psinglePai e <;> simp [beginEvent, hA]
  · simp [beginEvent, hee, Ne.symm hee]

/-- As many different states as there are. -/
private lemma mem_of_length_eq {α : Type*} [DecidableEq α] {l states : List α} (hnd : states.Nodup)
    (hsub : states ⊆ l) (hlen : states.length = l.length) {s : α} (hs : s ∈ l) : s ∈ states :=
  ((List.subperm_of_subset hnd hsub).perm_of_length_le hlen.ge).mem_iff.mpr hs

/-- A cell holds one entry. -/
lemma Filled.unique {M : MachineMatrix ε σ} {done : List ((ε × σ) × ℕ)} {A : ActionArray ε σ}
    (h : Filled M done A) {e : ε} {s : σ} {idx idx' : ℕ} (hidx : ((e, s), idx) ∈ done)
    (hidx' : ((e, s), idx') ∈ done) : idx = idx' := by
  obtain ⟨he, hs⟩ := h.declared _ hidx
  have hcell := (h.cell_order he hs idx).mpr hidx
  rw [(h.cell_order he hs idx').mpr hidx'] at hcell
  exact (Option.some.inj hcell).symm

/-- The states are counted for the first entry that names the event: the count is that of all
states exactly when the entry handles the event in all states. -/
private lemma Noting.count_eq_iff {M : MachineMatrix ε σ} (hne : M.stateList ≠ [])
    (hnd : M.stateList.Nodup)
    {pai : ActionInfo ε σ × ℕ} {e : ε} (hpai : M.expandStates pai.1 ⊆ M.stateList)
    {done : List ((ε × σ) × ℕ)} {start A : ActionArray ε σ}
    (h : Noting M pai.2 e start done (done ++ namedByEvent M pai e) A) :
    A.singlePaiStateCount e = M.stateList.length ↔
      start.psinglePai e = some pai.2 ∧ M.stateList ⊆ M.expandStates pai.1 := by
  have hcount := h.count
  have hitems : (namedByEvent M pai e).length = (M.expandStates pai.1).length :=
    List.length_map _
  have hstates : (M.expandStates pai.1).Nodup := by
    have hitems := (List.nodup_append.mp (List.map_append ▸ h.nodup)).2.1
    rw [namedByEvent, List.map_map] at hitems
    exact List.Nodup.of_map _ hitems
  have hpos := List.length_pos_of_ne_nil hne
  by_cases hown : start.psinglePai e = some pai.2
  · rw [if_pos hown, List.length_append, hitems] at hcount
    have hlen : A.singlePaiStateCount e = (M.expandStates pai.1).length := by omega
    rw [hlen]
    constructor
    · intro hall
      exact ⟨hown, fun s hs => mem_of_length_eq hstates hpai hall hs⟩
    · intro hall
      have hle := (List.subperm_of_subset hstates hpai).length_le
      have hge := (List.subperm_of_subset hnd hall.2).length_le
      omega
  · rw [if_neg hown] at hcount
    constructor
    · intro hall
      omega
    · intro hall
      exact absurd hall.1 hown

omit [DecidableEq σ] in
/-- What the end of an event's walk leaves alone. -/
lemma endEvent_notes (M : MachineMatrix ε σ) (A : ActionArray ε σ) (e : ε) :
    (endEvent M A e).peventsHandled = A.peventsHandled ∧
      (endEvent M A e).phandlingStates = A.phandlingStates ∧
      (endEvent M A e).psinglePai = A.psinglePai := by
  unfold endEvent
  split_ifs <;> exact ⟨rfl, rfl, rfl⟩

omit [DecidableEq σ] in
/-- What it notes. -/
lemma endEvent_single_iff (M : MachineMatrix ε σ) (A : ActionArray ε σ) (e e' : ε) :
    (endEvent M A e).singlePaiForAllStates e' = true ↔
      (e' = e ∧ A.singlePaiStateCount e = M.stateList.length) ∨
        A.singlePaiForAllStates e' = true := by
  unfold endEvent
  split_ifs with hfull
  · by_cases hee : e' = e
    · subst hee
      simp [hfull]
    · simp [hee]
  · simp [hfull]

omit [DecidableEq σ] in
/-- The flag of the machine is set when an event has one entry for all states. -/
private lemma endEvent_hasSingle_iff (M : MachineMatrix ε σ) (A : ActionArray ε σ) (e : ε) :
    (endEvent M A e).hasSinglePaiEvents = true ↔
      A.singlePaiStateCount e = M.stateList.length ∨ A.hasSinglePaiEvents = true := by
  unfold endEvent
  split_ifs with hfull <;> simp [hfull]

section Event

variable {M : MachineMatrix ε σ} {pai : ActionInfo ε σ × ℕ} {e : ε}
  {rows : List (Row ε σ)} {A A' : ActionArray ε σ} (h : RowsNoted M rows A)
  (hnoting : Noting M pai.2 e (beginEvent A pai.2 e) (rowCells M rows)
    (rowCells M rows ++ namedByEvent M pai e) A')

include h hnoting in
/-- The count is full, or the event was noted before, when the first entry that names the event
handles it in all states. -/
private lemma RowsNoted.count_eq_or_single_iff (hnd : M.stateList.Nodup) (hne : M.stateList ≠ [])
    (hidx : M.actionInfoList[pai.2]? = some pai.1) (hpai : M.expandStates pai.1 ⊆ M.stateList) :
    (A'.singlePaiStateCount e = M.stateList.length ∨ A.singlePaiForAllStates e = true) ↔
      ∃ idx, (beginEvent A pai.2 e).psinglePai e = some idx ∧
        ∀ s ∈ M.stateList, ((e, s), idx) ∈ rowCells M rows ++ namedByEvent M pai e := by
  have hcount := hnoting.count_eq_iff hne hnd hpai
  -- a cell that the entry names is one of this row
  have hown : ∀ s, ((e, s), pai.2) ∈ rowCells M rows ++ namedByEvent M pai e →
      s ∈ M.expandStates pai.1 := by
    intro s hs
    rcases List.mem_append.mp hs with hold | hnow
    · obtain ⟨pai', hrow, hs⟩ := mem_rowCells.mp hold
      obtain rfl := Option.some.inj (hidx.symm.trans (h.entries _ hrow))
      exact hs
    · exact (mem_namedByEvent.mp hnow).1
  constructor
  · rintro (hfull | hold)
    · obtain ⟨hfirst, hall⟩ := hcount.mp hfull
      exact ⟨pai.2, hfirst, fun s hs =>
        List.mem_append_right _ (mem_namedByEvent.mpr ⟨hall hs, rfl, rfl⟩)⟩
    · obtain ⟨idx, hfirst, hall⟩ := (h.single e).mp hold
      refine ⟨idx, ?_, fun s hs => List.mem_append_left _ (hall s hs)⟩
      rw [beginEvent_psinglePai, hfirst, Option.some_or]
  · rintro ⟨idx, hfirst, hall⟩
    have hfull : idx = pai.2 → A'.singlePaiStateCount e = M.stateList.length := by
      rintro rfl
      exact hcount.mpr ⟨hfirst, fun s hs => hown s (hall s hs)⟩
    rw [beginEvent_psinglePai, if_pos rfl] at hfirst
    cases hA : A.psinglePai e with
    | none =>
      rw [hA, Option.none_or] at hfirst
      exact .inl (hfull (Option.some.inj hfirst).symm)
    | some idx' =>
      rw [hA, Option.some_or] at hfirst
      obtain rfl := Option.some.inj hfirst
      by_cases hold : ∀ s ∈ M.stateList, ((e, s), idx') ∈ rowCells M rows
      · exact .inr ((h.single e).mpr ⟨idx', hA, hold⟩)
      · push Not at hold
        obtain ⟨s, hs, hnot⟩ := hold
        have hnow := (List.mem_append.mp (hall s hs)).resolve_left hnot
        exact .inl (hfull (mem_namedByEvent.mp hnow).2.2)

include h hnoting in
/-- The notes at the end of an event's walk. -/
lemma RowsNoted.endEvent (hnd : M.stateList.Nodup) (hne : M.stateList ≠ [])
    (hidx : M.actionInfoList[pai.2]? = some pai.1) (hpai : M.expandStates pai.1 ⊆ M.stateList) :
    RowsNoted M (rows ++ [(pai, e)]) (endEvent M A' e) := by
  obtain ⟨hhandled, hhandling, hpsingle⟩ := endEvent_notes M A' e
  rw [hnoting.psinglePai] at hpsingle
  have hcells : rowCells M (rows ++ [(pai, e)]) = rowCells M rows ++ namedByEvent M pai e := by
    simp
  refine ⟨?_, ?_, ?_, ?_, ?_, ?_, ?_⟩
  · rw [hcells]
    exact hnoting.toFilled.congr (endEvent_cell _ _ _) (endEvent_error _ _ _)
  · intro r hr
    rcases List.mem_append.mp hr with hr | hr
    · exact h.entries r hr
    · obtain rfl := List.mem_singleton.mp hr
      exact hidx
  · rw [hhandled, hcells]
    exact hnoting.peventsHandled
  · rw [hhandling, hcells]
    exact hnoting.phandlingStates
  · intro e'
    rw [hpsingle, beginEvent_psinglePai, h.psinglePai, List.find?_append, Option.map_or]
    by_cases hee : e = e' <;> simp [hee]
  · intro e'
    rw [endEvent_single_iff, hnoting.single, hpsingle, hcells]
    show _ ∨ A.singlePaiForAllStates e' = true ↔ _
    by_cases hee : e' = e
    · subst hee
      simpa using h.count_eq_or_single_iff hnoting hnd hne hidx hpai
    · have hother : ∀ s idx, ((e', s), idx) ∈ rowCells M rows ++ namedByEvent M pai e ↔
          ((e', s), idx) ∈ rowCells M rows := by
        intro s idx
        simp [mem_namedByEvent, hee]
      simp only [hee, false_and, false_or, h.single, hother, beginEvent_psinglePai,
        if_neg (Ne.symm hee), Option.or_none]
  · rw [endEvent_hasSingle_iff, hnoting.hasSingle]
    show _ ∨ A.hasSinglePaiEvents = true ↔ _
    simp only [endEvent_single_iff, hnoting.single, h.hasSingle]
    constructor
    · rintro (hfull | ⟨e', hold⟩)
      · exact ⟨e, .inl ⟨rfl, hfull⟩⟩
      · exact ⟨e', .inr hold⟩
    · rintro ⟨e', ⟨-, hfull⟩ | hold⟩
      · exact .inl hfull
      · exact .inr ⟨e', hold⟩

end Event

/-- What a callback does in terms of cells, put in terms of rows. -/
private lemma stepSpec_of_rows {M : MachineMatrix ε σ} {rows items : List (Row ε σ)}
    {r : ActionArray ε σ × Bool}
    (h : StepSpec (Filled M) NamedTwice (fun A => A.error = true) (rowCells M rows)
      (rowCells M items) r)
    (hgood : r.2 = false → RowsNoted M (rows ++ items) r.1) :
    StepSpec (RowsNoted M) (fun rows => NamedTwice (rowCells M rows)) (fun A => A.error = true)
      rows items r := by
  refine ⟨hgood, h.failed, ?_⟩
  intro hr more
  rw [rowCells_append, rowCells_append]
  exact h.bad hr (rowCells M more)

/-- **One event of an entry.** -/
lemma stepSpec_rowsNoted_event {M : MachineMatrix ε σ} (hnd : M.stateList.Nodup)
    (hne : M.stateList ≠ []) {pai : ActionInfo ε σ × ℕ}
    (hidx : M.actionInfoList[pai.2]? = some pai.1) {e : ε} (he : e ∈ M.eventList)
    (hpai : M.expandStates pai.1 ⊆ M.stateList) (rows : List (Row ε σ)) (A : ActionArray ε σ)
    (h : RowsNoted M rows A) :
    StepSpec (RowsNoted M) (fun rows => NamedTwice (rowCells M rows)) (fun A => A.error = true)
      rows [(pai, e)] (iterateMatrixStates M pai.2 pai.1 A e) := by
  have hcells := stepSpec_iterateMatrixStates pai (fun s hs => ⟨he, hpai hs⟩) (rowCells M rows) A
    h.toFilled
  rw [← rowCells_singleton] at hcells
  apply stepSpec_of_rows hcells
  intro hr
  have hwalk := StepSpec.iterate (M.expandStates pai.1)
    (fun s hs done' A' hA' => stepSpec_noting pai.1 he (hpai hs) done' A' hA') (rowCells M rows) _
    (h.noting pai.2 e)
  rw [← List.map_eq_flatMap] at hwalk
  set r := iterate (addToActionArray M pai.2 pai.1 e) (beginEvent A pai.2 e)
    (M.expandStates pai.1) with hr₁
  have hrun : r.2 = false := by
    cases hb : r.2 with
    | false => rfl
    | true =>
      have hfailed : r.1.error = true := hwalk.failed hb
      have : (endEvent M r.1 e).error = false := hr
      rw [endEvent_error, hfailed] at this
      cases this
  exact h.endEvent (hwalk.good hrun) hnd hne hidx hpai

/-- **One entry.** -/
lemma stepSpec_rowsNoted_entry {M : MachineMatrix ε σ} (hnd : M.stateList.Nodup)
    (hne : M.stateList ≠ []) {pai : ActionInfo ε σ × ℕ}
    (hidx : M.actionInfoList[pai.2]? = some pai.1)
    (hevents : M.expandEvents pai.1 ⊆ M.eventList)
    (hstates : M.expandStates pai.1 ⊆ M.stateList) (rows : List (Row ε σ)) (A : ActionArray ε σ)
    (h : RowsNoted M rows A) :
    StepSpec (RowsNoted M) (fun rows => NamedTwice (rowCells M rows)) (fun A => A.error = true)
      rows (entryRows M pai) (processActionInfo M A pai) := by
  have hwalk := StepSpec.iterate (M.expandEvents pai.1)
    (fun e he rows A hA => stepSpec_rowsNoted_event hnd hne hidx (hevents he) hstates rows A hA)
    rows A h
  rw [← List.map_eq_flatMap] at hwalk
  set r := iterate (iterateMatrixStates M pai.2 pai.1) A (M.expandEvents pai.1) with hr₁
  show StepSpec _ _ _ rows (entryRows M pai) (r.1, r.1.error)
  cases hb : r.2 with
  | true =>
    have hfailed : r.1.error = true := hwalk.failed hb
    exact ⟨by simp [hfailed], fun _ => hfailed, fun _ => hwalk.bad hb⟩
  | false =>
    have hgood := hwalk.good hb
    exact ⟨fun _ => hgood, by simp [hgood.error], by simp [hgood.error]⟩

/-- **What populating notes.** After a walk without error the notes are those of all rows. -/
theorem rowsNoted_populateActionArray {M : MachineMatrix ε σ} (hM : M.Declared)
    (hnd : M.stateList.Nodup) (hne : M.stateList ≠ [])
    (herror : (populateActionArray M).error = false) :
    RowsNoted M (namedRows M) (populateActionArray M) := by
  have hfresh : RowsNoted M [] (ActionArray.fresh : ActionArray ε σ) := by
    obtain ⟨s, hs⟩ := List.exists_mem_of_ne_nil _ hne
    exact ⟨⟨by simp [rowCells], by simp [rowCells], by simp [ActionArray.fresh, rowCells], rfl⟩,
      by simp, by simp [ActionArray.fresh, rowCells], by simp [ActionArray.fresh, rowCells],
      by simp [ActionArray.fresh], by simp [ActionArray.fresh], by simp [ActionArray.fresh]⟩
  have hwalk := StepSpec.iterate M.actionInfoList.zipIdx
    (fun pai hpai rows A hA => by
      have hmem : pai.1 ∈ M.actionInfoList := List.fst_mem_of_mem_zipIdx hpai
      exact stepSpec_rowsNoted_entry hnd hne (List.mem_zipIdx_iff_getElem?.mp hpai)
        (hM.expandEvents_subset hmem) (hM.expandStates_subset hmem) rows A hA) [] _ hfresh
  apply hwalk.good
  cases hb : (iterate (processActionInfo M) ActionArray.fresh M.actionInfoList.zipIdx).2 with
  | false => rfl
  | true =>
    have hfailed : (populateActionArray M).error = true := hwalk.failed hb
    exact absurd (hfailed.symm.trans herror) (by simp)

/-! ## What the notes say -/

section Populated

variable {M : MachineMatrix ε σ} {rows : List (Row ε σ)} {A : ActionArray ε σ}

/-- The events noted for a state are those of its cells. -/
lemma RowsNoted.mem_peventsHandled (h : RowsNoted M rows A) {e : ε} {s : σ} :
    e ∈ A.peventsHandled s ↔ ∃ idx, ((e, s), idx) ∈ rowCells M rows := by
  rw [h.peventsHandled]
  simp

/-- The states noted for an event are those of its cells. -/
lemma RowsNoted.mem_phandlingStates (h : RowsNoted M rows A) {e : ε} {s : σ} :
    s ∈ A.phandlingStates e ↔ ∃ idx, ((e, s), idx) ∈ rowCells M rows := by
  rw [h.phandlingStates]
  simp

/-- A state's events are noted once. -/
lemma RowsNoted.nodup_peventsHandled (h : RowsNoted M rows A) (s : σ) :
    (A.peventsHandled s).Nodup := by
  rw [h.peventsHandled]
  refine (List.Nodup.of_map _ h.nodup |>.filter _).map_on ?_
  intro x hx y hy hxy
  obtain ⟨hx, hxs⟩ := List.mem_filter.mp hx
  obtain ⟨hy, hys⟩ := List.mem_filter.mp hy
  refine List.inj_on_of_nodup_map h.nodup hx hy (Prod.ext hxy ?_)
  rw [of_decide_eq_true hxs, of_decide_eq_true hys]

/-- An event's states are noted once. -/
lemma RowsNoted.nodup_phandlingStates (h : RowsNoted M rows A) (e : ε) :
    (A.phandlingStates e).Nodup := by
  rw [h.phandlingStates]
  refine (List.Nodup.of_map _ h.nodup |>.filter _).map_on ?_
  intro x hx y hy hxy
  obtain ⟨hx, hxe⟩ := List.mem_filter.mp hx
  obtain ⟨hy, hye⟩ := List.mem_filter.mp hy
  refine List.inj_on_of_nodup_map h.nodup hx hy (Prod.ext ?_ hxy)
  rw [of_decide_eq_true hxe, of_decide_eq_true hye]

/-- The first entry that names an event. -/
lemma RowsNoted.exists_row_of_psinglePai (h : RowsNoted M rows A) {e : ε} {idx : ℕ}
    (hidx : A.psinglePai e = some idx) : ∃ pai, ((pai, idx), e) ∈ rows := by
  rw [h.psinglePai, Option.map_eq_some_iff] at hidx
  obtain ⟨⟨⟨pai, idx'⟩, e'⟩, hfind, rfl⟩ := hidx
  obtain rfl : e' = e := by simpa using List.find?_some hfind
  exact ⟨pai, List.mem_of_find?_eq_some hfind⟩

/-- An event that is named has a first entry. -/
lemma RowsNoted.exists_psinglePai_of_row (h : RowsNoted M rows A) {r : Row ε σ} (hr : r ∈ rows) :
    ∃ idx, A.psinglePai r.2 = some idx := by
  rw [← Option.isSome_iff_exists, h.psinglePai, Option.isSome_map, List.find?_isSome]
  exact ⟨r, hr, by simp⟩

end Populated

/-- If every entry names a state, the notes say which events an entry handles in all states. -/
theorem noted_populateActionArray {M : MachineMatrix ε σ} (hM : M.Declared)
    (hnd : M.stateList.Nodup) (hne : M.stateList ≠ [])
    (hsome : ∀ pai ∈ M.actionInfoList, M.expandStates pai ≠ [])
    (herror : (populateActionArray M).error = false) :
    Noted M (namedCells M) (populateActionArray M) := by
  have h := rowsNoted_populateActionArray hM hnd hne herror
  rw [← rowCells_namedRows]
  -- the first entry that names an event names a cell of it
  have hfirst : ∀ e idx, (populateActionArray M).psinglePai e = some idx →
      ∃ s, ((e, s), idx) ∈ rowCells M (namedRows M) := by
    intro e idx hidx
    obtain ⟨pai, hrow⟩ := h.exists_row_of_psinglePai hidx
    obtain ⟨s, hs⟩ := List.exists_mem_of_ne_nil _
      (hsome pai (List.mem_of_getElem? (h.entries _ hrow)))
    exact ⟨s, mem_rowCells.mpr ⟨pai, hrow, hs⟩⟩
  refine ⟨h.toFilled, fun e s => h.mem_peventsHandled, fun e s => h.mem_phandlingStates, ?_, ?_,
    hfirst, ?_, ?_⟩
  · intro e s idx hmem pai hpai s' hs'
    obtain ⟨pai', hrow, -⟩ := mem_rowCells.mp hmem
    obtain rfl := Option.some.inj (hpai.symm.trans (h.entries _ hrow))
    exact mem_rowCells.mpr ⟨pai, hrow, hs'⟩
  · intro e hnone s idx hmem
    obtain ⟨pai, hrow, -⟩ := mem_rowCells.mp hmem
    obtain ⟨idx', hidx'⟩ := h.exists_psinglePai_of_row hrow
    rw [hnone] at hidx'
    cases hidx'
  · intro e
    rw [h.single]
    constructor
    · rintro ⟨idx, -, hall⟩
      exact ⟨idx, hall⟩
    · rintro ⟨idx, hall⟩
      obtain ⟨s, hs⟩ := List.exists_mem_of_ne_nil _ hne
      obtain ⟨pai, hrow, -⟩ := mem_rowCells.mp (hall s hs)
      obtain ⟨idx', hidx'⟩ := h.exists_psinglePai_of_row hrow
      obtain ⟨t, ht⟩ := hfirst e idx' hidx'
      obtain rfl := h.toFilled.unique ht (hall t (h.declared _ ht).2)
      exact ⟨idx', hidx', hall⟩
  · intro e he
    exact h.hasSingle.mpr ⟨e, he⟩

/-! ## Events that one entry handles in all states -/

/-- An entry before the one with number `idx` names the event and no state. -/
def NamedWithoutStates (M : MachineMatrix ε σ) (e : ε) (idx : ℕ) : Prop :=
  ∃ idx' < idx, ∃ pai, M.actionInfoList[idx']? = some pai ∧ e ∈ M.expandEvents pai ∧
    M.expandStates pai = []

/-- All cells of the event hold the entry with number `idx`. -/
def HandlesInAllStates (M : MachineMatrix ε σ) (e : ε) (idx : ℕ) : Prop :=
  ∀ s ∈ M.stateList,
    (populateActionArray M).cell (M.eventOrder e) (M.stateOrder s) = some idx

/-- The flags and the entry noted for an event are those of its cells. -/
structure SinglePaiRight (M : MachineMatrix ε σ) : Prop where
  single : ∀ e ∈ M.eventList,
    ((populateActionArray M).singlePaiForAllStates e = true ↔ ∃ idx, HandlesInAllStates M e idx)
  psinglePai : ∀ e ∈ M.eventList, ∀ idx, HandlesInAllStates M e idx →
    (populateActionArray M).psinglePai e = some idx
  hasSingle : (populateActionArray M).hasSinglePaiEvents = true ↔
    ∃ e ∈ M.eventList, ∃ idx, HandlesInAllStates M e idx

omit [DecidableEq ε] [DecidableEq σ] in
/-- Rows are walked over in the order of the entries. -/
private lemma pairwise_namedRows (M : MachineMatrix ε σ) :
    (namedRows M).Pairwise fun r r' => r.1.2 ≤ r'.1.2 := by
  rw [namedRows, List.pairwise_flatMap]
  constructor
  · intro pai _
    rw [entryRows, List.pairwise_map]
    exact List.pairwise_of_forall fun _ _ => le_rfl
  · have hplaces : (M.actionInfoList.zipIdx.map Prod.snd).Pairwise (· < ·) := by
      rw [List.zipIdx_map_snd]
      exact List.pairwise_lt_range'
    refine (List.pairwise_map.mp hplaces).imp ?_
    intro pai pai' hlt r hr r' hr'
    obtain ⟨e, -, rfl⟩ := List.mem_map.mp hr
    obtain ⟨e', -, rfl⟩ := List.mem_map.mp hr'
    exact hlt.le

section First

variable {M : MachineMatrix ε σ} {A : ActionArray ε σ} (h : RowsNoted M (namedRows M) A)

include h in
/-- No entry before the first one names the event. -/
lemma RowsNoted.psinglePai_le {e : ε} {idx : ℕ} (hidx : A.psinglePai e = some idx)
    {pai : ActionInfo ε σ} {idx' : ℕ} (hrow : ((pai, idx'), e) ∈ namedRows M) : idx ≤ idx' := by
  rw [h.psinglePai, Option.map_eq_some_iff] at hidx
  obtain ⟨r, hfind, rfl⟩ := hidx
  obtain ⟨-, as, bs, hrows, hbefore⟩ := List.find?_eq_some_iff_append.mp hfind
  have horder := pairwise_namedRows M
  rw [hrows] at hrow horder
  rcases List.mem_append.mp hrow with has | hbs
  · simpa using hbefore _ has
  · rcases List.mem_cons.mp hbs with heq | hbs
    · rw [← heq]
    · exact (List.pairwise_cons.mp (List.pairwise_append.mp horder).2.1).1 _ hbs

include h in
/-- **Events handled in all states** are noted unless an entry names them before, and no state. -/
theorem RowsNoted.singlePaiForAllStates_iff (hne : M.stateList ≠ []) {e : ε} :
    A.singlePaiForAllStates e = true ↔
      ∃ idx, (∀ s ∈ M.stateList, ((e, s), idx) ∈ namedCells M) ∧ ¬ NamedWithoutStates M e idx := by
  rw [h.single, rowCells_namedRows]
  constructor
  · rintro ⟨idx, hidx, hall⟩
    refine ⟨idx, hall, ?_⟩
    rintro ⟨idx', hlt, pai, hpai, he, -⟩
    exact absurd (h.psinglePai_le hidx (mem_namedRows.mpr ⟨hpai, he⟩)) (not_le.mpr hlt)
  · rintro ⟨idx, hall, hnot⟩
    obtain ⟨s, hs⟩ := List.exists_mem_of_ne_nil _ hne
    obtain ⟨pai, hpai, he, -⟩ := mem_namedCells.mp (hall s hs)
    have hrow := mem_namedRows.mpr ⟨hpai, he⟩
    obtain ⟨idx', hidx'⟩ := h.exists_psinglePai_of_row hrow
    refine ⟨idx', hidx', ?_⟩
    rcases (h.psinglePai_le hidx' hrow).eq_or_lt with rfl | hlt
    · exact hall
    · -- an earlier entry names no state, as its cells would be occupied
      exfalso
      obtain ⟨pai', hrow'⟩ := h.exists_row_of_psinglePai hidx'
      obtain ⟨hpai', he'⟩ := mem_namedRows.mp hrow'
      refine hnot ⟨idx', hlt, pai', hpai', he', ?_⟩
      rw [List.eq_nil_iff_forall_not_mem]
      intro t ht
      have hcell := mem_rowCells.mpr ⟨pai', hrow', ht⟩
      have hother := hall t (h.declared _ hcell).2
      rw [← rowCells_namedRows] at hother
      exact hlt.ne (h.toFilled.unique hcell hother)

include h in
/-- The entry noted for such an event is that of its cells. -/
private lemma RowsNoted.psinglePai_of_all (hne : M.stateList ≠ []) {e : ε} {idx : ℕ}
    (hall : ∀ s ∈ M.stateList, ((e, s), idx) ∈ namedCells M)
    (hsingle : A.singlePaiForAllStates e = true) : A.psinglePai e = some idx := by
  obtain ⟨idx', hidx', hall'⟩ := (h.single e).mp hsingle
  obtain ⟨s, hs⟩ := List.exists_mem_of_ne_nil _ hne
  have hcell := hall s hs
  rw [← rowCells_namedRows] at hcell
  rw [h.toFilled.unique hcell (hall' s hs), hidx']

end First

/-- **Single entries.** After populating without error the flags say which events one entry handles
in all states exactly if no such event has been named before by an entry that names no state.

**Proof sketch.** The states of an entry are counted for the first entry that names the event. An
earlier entry that names a state of the event would leave no cell of it to a later one, so that
only an entry without states can come before the one that handles the event in all states. -/
theorem singlePai_right_iff {M : MachineMatrix ε σ} (hM : M.Declared) (hnd : M.stateList.Nodup)
    (hne : M.stateList ≠ []) (herror : (populateActionArray M).error = false) :
    SinglePaiRight M ↔
      ∀ idx pai, M.actionInfoList[idx]? = some pai → M.stateList ⊆ M.expandStates pai →
        ∀ e ∈ M.expandEvents pai, ¬ NamedWithoutStates M e idx := by
  have h := rowsNoted_populateActionArray hM hnd hne herror
  have hfilled := h.toFilled
  rw [rowCells_namedRows] at hfilled
  obtain ⟨s₀, hs₀⟩ := List.exists_mem_of_ne_nil _ hne
  have hhandles : ∀ e ∈ M.eventList, ∀ idx, HandlesInAllStates M e idx ↔
      ∀ s ∈ M.stateList, ((e, s), idx) ∈ namedCells M := by
    intro e he idx
    exact forall₂_congr fun s hs => hfilled.cell_order he hs idx
  have hdeclared : ∀ e idx, (∀ s ∈ M.stateList, ((e, s), idx) ∈ namedCells M) → e ∈ M.eventList :=
    fun e idx hall => (hfilled.declared _ (hall s₀ hs₀)).1
  constructor
  · intro hright idx pai hpai hstates e he
    have hall : ∀ s ∈ M.stateList, ((e, s), idx) ∈ namedCells M :=
      fun s hs => mem_namedCells.mpr ⟨pai, hpai, he, hstates hs⟩
    have hevent := hdeclared e idx hall
    obtain ⟨idx', hall', hnot⟩ := (h.singlePaiForAllStates_iff hne).mp
      ((hright.single e hevent).mpr ⟨idx, (hhandles e hevent idx).mpr hall⟩)
    rwa [hfilled.unique (hall s₀ hs₀) (hall' s₀ hs₀)]
  · intro hcond
    have hsingle : ∀ e idx, (∀ s ∈ M.stateList, ((e, s), idx) ∈ namedCells M) →
        (populateActionArray M).singlePaiForAllStates e = true := by
      intro e idx hall
      obtain ⟨pai, hpai, he, -⟩ := mem_namedCells.mp (hall s₀ hs₀)
      refine (h.singlePaiForAllStates_iff hne).mpr ⟨idx, hall, hcond idx pai hpai ?_ e he⟩
      intro s hs
      obtain ⟨pai', hpai', -, hs'⟩ := mem_namedCells.mp (hall s hs)
      obtain rfl := Option.some.inj (hpai.symm.trans hpai')
      exact hs'
    refine ⟨?_, ?_, ?_⟩
    · intro e he
      constructor
      · intro hflag
        obtain ⟨idx, hall, -⟩ := (h.singlePaiForAllStates_iff hne).mp hflag
        exact ⟨idx, (hhandles e he idx).mpr hall⟩
      · rintro ⟨idx, hall⟩
        exact hsingle e idx ((hhandles e he idx).mp hall)
    · intro e he idx hall
      have hall := (hhandles e he idx).mp hall
      exact h.psinglePai_of_all hne hall (hsingle e idx hall)
    · rw [h.hasSingle]
      constructor
      · rintro ⟨e, hflag⟩
        obtain ⟨idx, hall, -⟩ := (h.singlePaiForAllStates_iff hne).mp hflag
        have he := hdeclared e idx hall
        exact ⟨e, he, idx, (hhandles e he idx).mpr hall⟩
      · rintro ⟨e, he, idx, hall⟩
        exact ⟨e, hsingle e idx ((hhandles e he idx).mp hall)⟩

/-- Two events and two states: the first event is handled alike in both states, the second one in
the second state only. -/
def evenMatrix : MachineMatrix ℕ ℕ where
  eventList := [0, 1]
  stateList := [0, 1]
  consumedByTranslator := fun _ => false
  implementedBySubMachine := fun _ => false
  actionInfoList := [⟨"a", none, [0], []⟩, ⟨"b", some (.state 0), [1], [1]⟩]

/-- Every entry names a state. -/
private lemma not_namedWithoutStates_evenMatrix (e idx : ℕ) :
    ¬ NamedWithoutStates evenMatrix e idx := by
  rintro ⟨idx', -, pai, hpai, -, hnone⟩
  have hstates : ∀ pai ∈ evenMatrix.actionInfoList, evenMatrix.expandStates pai ≠ [] := by decide
  exact absurd hnone (hstates pai (List.mem_of_getElem? hpai))

/-- The flags of that matrix are right. -/
theorem singlePai_right_evenMatrix : SinglePaiRight evenMatrix :=
  (singlePai_right_iff (by simp [MachineMatrix.Declared, evenMatrix]) (by decide) (by decide)
    (by decide)).mpr fun idx _ _ _ e _ => not_namedWithoutStates_evenMatrix e idx

/-- A machine whose only state is implemented by a sub-machine: an entry for ALL states, which are
none, and a transition. -/
def implementedMatrix : MachineMatrix ℕ ℕ where
  eventList := [0]
  stateList := [0]
  consumedByTranslator := fun _ => false
  implementedBySubMachine := fun _ => true
  actionInfoList := [⟨"a", none, [0], []⟩, ⟨"", some (.state 0), [0], [0]⟩]

/-- The transition handles the event in all states, and is not noted. -/
theorem not_singlePaiRight_implementedMatrix :
    ¬ ∀ M : MachineMatrix ℕ ℕ, M.Declared → M.stateList.Nodup → M.stateList ≠ [] →
      (populateActionArray M).error = false → SinglePaiRight M := by
  intro h
  have hright := h implementedMatrix (by simp [MachineMatrix.Declared, implementedMatrix])
    (by decide) (by decide) (by decide)
  have hall : HandlesInAllStates implementedMatrix 0 1 := by
    intro s hs
    obtain rfl : s = 0 := List.mem_singleton.mp hs
    decide
  have hflag := (hright.single 0 (by decide)).mpr ⟨1, hall⟩
  revert hflag
  decide

end Notes

end FsmLang
