import Mathlib.Data.List.Nodup
import Mathlib.Tactic
import FsmLang.CSemantics.Lists
import FsmLang.FunctionBodies

set_option relaxedAutoImplicit false
set_option autoImplicit false

/-!
# Labels and bodies of the switches

The lists of the events that a state handles and of the states that handle an event are those of
the non-empty cells. In the switches printed for their members every cell has its label once, and
the label leads to the statements of the cell's entry. The events of one entry follow each other
in a list. So a body is printed for the last of them, and the labels before it fall through to it.

This needs a label for the last event of an entry, if there is one for any. A state function has
none for an event that one entry handles in all states. Usually all events of the entry are of this
kind, or none is. But an event that has been named before by an entry without states is not noted
as handled in all states, and a label printed for it leads out of the entry if the last event has
none.

## Main definitions

* `Dispatched` — the state function is to have a case for the event.
* `HandledRight` — the lists and the switches are right.
* `LastNamedWithoutStates` — the last event of an entry has a label if another one has.

## Main results

* `exists_peventsHandled_eq` — the events of an entry follow each other.
* `handledRight_iff` — when lists and switches are right.
-/

namespace FsmLang

open CSemantics

namespace GeneratedMachine

variable {ε σ : Type*} [DecidableEq ε] [DecidableEq σ] (P : GeneratedMachine ε σ)

/-- The function of the state is to have a case for the event, unless the cell is empty: the event
is not left to the handler of the events handled in all states. -/
def Dispatched (s : σ) (e : ε) : Prop :=
  P.actionArray.singlePaiForAllStates e = false ∨
    (P.artifactsImplementing = true ∧ P.transitionsOnly s = false)

/-- A label stands once among the cases, and leads to the statements of an entry. -/
def LeadsTo {κ : Type*} [DecidableEq κ] (cases : List (Case κ (CaseBody σ))) (x : κ)
    (statements : ActionInfo ε σ → List (BodyStatement σ)) (idx : ℕ) : Prop :=
  (cases.flatMap Case.labels).count x = 1 ∧
    ∃ pai, P.actionInfoList[idx]? = some pai ∧ switchBody cases x = some ⟨idx, statements pai⟩

/-- The lists of a populated action array and the switches printed for them are right. -/
structure HandledRight : Prop where
  handled : ∀ e ∈ P.eventList, ∀ s ∈ P.stateList,
    (e ∈ P.actionArray.peventsHandled s ↔ (P.cellIdx e s).isSome)
  handling : ∀ e ∈ P.eventList, ∀ s ∈ P.stateList,
    (s ∈ P.actionArray.phandlingStates e ↔ (P.cellIdx e s).isSome)
  nodup_handled : ∀ s, (P.actionArray.peventsHandled s).Nodup
  nodup_handling : ∀ e, (P.actionArray.phandlingStates e).Nodup
  stateFn : ∀ e ∈ P.eventList, ∀ s ∈ P.stateList, ∀ idx, P.cellIdx e s = some idx →
    P.Dispatched s e → ∀ x ∈ P.eventLabels e,
      P.LeadsTo (P.stateFnCases s) x (P.stateFnBody s) idx
  allStates : ∀ e ∈ P.eventList, P.actionArray.singlePaiForAllStates e = true →
    ∀ s ∈ P.stateList, ∃ idx pai, P.cellIdx e s = some idx ∧ P.actionInfoList[idx]? = some pai ∧
      (P.allStatesCases.flatMap Case.labels).count (.this e) = P.eventList.count e ∧
      switchBody P.allStatesCases (.this e) = some ⟨idx, P.allStatesBody pai⟩
  handler : ∀ e ∈ P.eventList, ∀ s ∈ P.stateList, ∀ idx, P.cellIdx e s = some idx →
    P.LeadsTo (P.handlerCases e) s P.handlerStateCase idx
  empty : ∀ e ∈ P.eventList, ∀ s ∈ P.stateList, P.cellIdx e s = none →
    (∀ x ∈ P.eventLabels e, ∀ c ∈ P.stateFnCases s, x ∉ c.labels) ∧
      ∀ c ∈ P.handlerCases e, s ∉ c.labels

/-- Where one entry names all states: if one of its events has been named before by an entry that
names no state, so has the last one. -/
def LastNamedWithoutStates : Prop :=
  ∀ idx pai, P.actionInfoList[idx]? = some pai → P.stateList ⊆ P.expandStates pai →
    (∃ e ∈ P.expandEvents pai, NamedWithoutStates P.toMachineMatrix e idx) →
      ∃ e, (P.expandEvents pai).getLast? = some e ∧ NamedWithoutStates P.toMachineMatrix e idx

/-! ## Lists -/

/-- The events that entries contribute to the list of a state. -/
def contributedEvents (M : MachineMatrix ε σ) (pais : List (ActionInfo ε σ × ℕ)) (s : σ) : List ε :=
  ((pais.flatMap (namedByEntry M)).filter fun x => x.1.2 = s).map fun x => x.1.1

omit [DecidableEq ε] in
/-- The contributions of entries behind others. -/
lemma contributedEvents_append (M : MachineMatrix ε σ) (pais pais' : List (ActionInfo ε σ × ℕ))
    (s : σ) : contributedEvents M (pais ++ pais') s =
      contributedEvents M pais s ++ contributedEvents M pais' s := by
  rw [contributedEvents, List.flatMap_append, List.filter_append, List.map_append]
  rfl

section Lists

variable {P} (h : P.Accepted)

include h

/-- The walk has noted the rows. -/
lemma Accepted.rowsNoted :
    RowsNoted P.toMachineMatrix (namedRows P.toMachineMatrix) P.actionArray :=
  rowsNoted_populateActionArray h.declared h.nodup h.nonempty h.populated

/-- The walk has filled the cells. -/
lemma Accepted.filled : Filled P.toMachineMatrix (namedCells P.toMachineMatrix) P.actionArray := by
  rw [← rowCells_namedRows]
  exact h.rowsNoted.toFilled

/-- The entry of a cell is the one that names it. -/
lemma Accepted.cellIdx_eq_some_iff {e : ε} {s : σ} (he : e ∈ P.eventList) (hs : s ∈ P.stateList)
    {idx : ℕ} : P.cellIdx e s = some idx ↔ ((e, s), idx) ∈ namedCells P.toMachineMatrix :=
  h.filled.cell_order he hs idx

/-- The events noted for a state are those of its cells. -/
lemma Accepted.mem_peventsHandled {e : ε} {s : σ} :
    e ∈ P.actionArray.peventsHandled s ↔ ∃ idx, ((e, s), idx) ∈ namedCells P.toMachineMatrix := by
  rw [h.rowsNoted.mem_peventsHandled, rowCells_namedRows]

/-- The states noted for an event are those of its cells. -/
lemma Accepted.mem_phandlingStates {e : ε} {s : σ} :
    s ∈ P.actionArray.phandlingStates e ↔
      ∃ idx, ((e, s), idx) ∈ namedCells P.toMachineMatrix := by
  rw [h.rowsNoted.mem_phandlingStates, rowCells_namedRows]

/-- The members of a state's list are declared and have an entry. -/
private lemma Accepted.exists_of_mem_peventsHandled {e : ε} {s : σ}
    (hmem : e ∈ P.actionArray.peventsHandled s) :
    e ∈ P.eventList ∧ s ∈ P.stateList ∧ ∃ idx, P.cellIdx e s = some idx := by
  obtain ⟨idx, hidx⟩ := h.mem_peventsHandled.mp hmem
  obtain ⟨he, hs⟩ := h.filled.declared _ hidx
  exact ⟨he, hs, idx, (h.cellIdx_eq_some_iff he hs).mpr hidx⟩

/-- So are those of an event's list. -/
lemma Accepted.exists_of_mem_phandlingStates {e : ε} {s : σ}
    (hmem : s ∈ P.actionArray.phandlingStates e) :
    e ∈ P.eventList ∧ s ∈ P.stateList ∧ ∃ idx, P.cellIdx e s = some idx := by
  obtain ⟨idx, hidx⟩ := h.mem_phandlingStates.mp hmem
  obtain ⟨he, hs⟩ := h.filled.declared _ hidx
  exact ⟨he, hs, idx, (h.cellIdx_eq_some_iff he hs).mpr hidx⟩

omit h [DecidableEq ε] in
/-- The events that an entry contributes to the list of one of its states are its own, in their
order. -/
private lemma contributedEvents_singleton (M : MachineMatrix ε σ) (pai : ActionInfo ε σ × ℕ) {s : σ}
    (hs : s ∈ M.expandStates pai.1) (hnd : ((namedByEntry M pai).map Prod.fst).Nodup) :
    contributedEvents M [pai] s = M.expandEvents pai.1 := by
  have hevent : ∀ e ∈ M.expandEvents pai.1,
      ((namedByEvent M pai e).filter fun x => x.1.2 = s).map (fun x => x.1.1) = [e] := by
    intro e he
    have hstates : (M.expandStates pai.1).Nodup := by
      have hsub : (namedByEvent M pai e).Sublist (namedByEntry M pai) :=
        List.sublist_flatten_of_mem (List.mem_map_of_mem he)
      have hitems := (hsub.map Prod.fst).nodup hnd
      rw [namedByEvent, List.map_map] at hitems
      exact List.Nodup.of_map _ hitems
    have hone : (M.expandStates pai.1).filter (fun t => decide (t = s)) = [s] := by
      rw [List.filter_eq, List.count_eq_one_of_mem hstates hs]
      rfl
    rw [namedByEvent, List.filter_map, List.map_map]
    calc ((M.expandStates pai.1).filter fun t => decide (t = s)).map (fun _ => e)
        = [s].map (fun _ => e) := by rw [hone]
      _ = [e] := rfl
  rw [contributedEvents, List.flatMap_singleton, namedByEntry, List.filter_flatMap,
    List.map_flatMap]
  calc (M.expandEvents pai.1).flatMap
        (fun e => ((namedByEvent M pai e).filter fun x => x.1.2 = s).map fun x => x.1.1)
      = (M.expandEvents pai.1).flatMap (fun e => [e]) := List.flatMap_congr hevent
    _ = M.expandEvents pai.1 := by simp

/-- **The events of an entry follow each other** in the lists of its states. -/
lemma Accepted.exists_peventsHandled_eq {idx : ℕ} {pai : ActionInfo ε σ}
    (hpai : P.actionInfoList[idx]? = some pai) {s : σ} (hs : s ∈ P.expandStates pai) :
    ∃ l₁ l₂, P.actionArray.peventsHandled s = l₁ ++ (P.expandEvents pai ++ l₂) ∧
      ∀ e ∈ l₁ ++ l₂, P.cellIdx e s ≠ some idx := by
  obtain ⟨as, bs, hlist, hne⟩ := exists_zipIdx_eq_append hpai
  -- a cell of another entry does not hold this one
  have hother : ∀ rest : List (ActionInfo ε σ × ℕ), rest ⊆ P.actionInfoList.zipIdx →
      (∀ x ∈ rest, x.2 ≠ idx) →
      ∀ e ∈ contributedEvents P.toMachineMatrix rest s, P.cellIdx e s ≠ some idx := by
    intro rest hrest hne e he
    obtain ⟨⟨⟨e', s'⟩, idx'⟩, hx, rfl⟩ := List.mem_map.mp he
    obtain ⟨hcells, hxs⟩ := List.mem_filter.mp hx
    obtain rfl : s' = s := of_decide_eq_true hxs
    obtain ⟨r, hr, hmem⟩ := List.mem_flatMap.mp hcells
    have hcell : ((e', s'), idx') ∈ namedCells P.toMachineMatrix :=
      List.mem_flatMap.mpr ⟨r, hrest hr, hmem⟩
    obtain ⟨he', hs'⟩ := h.filled.declared _ hcell
    rw [(h.cellIdx_eq_some_iff he' hs').mpr hcell]
    obtain ⟨d, -, hd⟩ := List.mem_flatMap.mp hmem
    obtain ⟨-, -, rfl⟩ := mem_namedByEvent.mp hd
    intro heq
    exact hne r hr (Option.some.inj heq)
  refine ⟨contributedEvents P.toMachineMatrix as s, contributedEvents P.toMachineMatrix bs s,
    ?_, ?_⟩
  · have hown : ((namedByEntry P.toMachineMatrix (pai, idx)).map Prod.fst).Nodup := by
      refine List.Nodup.sublist (List.Sublist.map _ ?_) h.filled.nodup
      exact List.sublist_flatten_of_mem
        (List.mem_map_of_mem (List.mem_zipIdx_iff_getElem?.mpr hpai))
    calc P.actionArray.peventsHandled s
        = contributedEvents P.toMachineMatrix P.actionInfoList.zipIdx s := by
          rw [h.rowsNoted.peventsHandled, rowCells_namedRows]
          rfl
      _ = contributedEvents P.toMachineMatrix (as ++ ([(pai, idx)] ++ bs)) s := by
          rw [hlist, List.singleton_append]
      _ = _ := by
          rw [contributedEvents_append, contributedEvents_append,
            contributedEvents_singleton _ _ hs hown]
  · intro e he
    rcases List.mem_append.mp he with he | he
    · refine hother as ?_ (fun x hx => hne x (List.mem_append_left _ hx)) e he
      rw [hlist]
      exact List.subset_append_left _ _
    · refine hother bs ?_ (fun x hx => hne x (List.mem_append_right _ hx)) e he
      rw [hlist]
      exact List.Subset.trans (List.subset_cons_self _ _) (List.subset_append_right _ _)

/-- A declared event and state with an entry, and their entry. -/
lemma Accepted.exists_entry {e : ε} {s : σ} (he : e ∈ P.eventList) (hs : s ∈ P.stateList) {idx : ℕ}
    (hidx : P.cellIdx e s = some idx) :
    ∃ pai, P.actionInfoList[idx]? = some pai ∧ e ∈ P.expandEvents pai ∧ s ∈ P.expandStates pai :=
  mem_namedCells.mp ((h.cellIdx_eq_some_iff he hs).mp hidx)

/-- The cells that an entry names. -/
lemma Accepted.cellIdx_of_mem_expandEvents {idx : ℕ} {pai : ActionInfo ε σ}
    (hpai : P.actionInfoList[idx]? = some pai) {s : σ} (hstate : s ∈ P.expandStates pai)
    (hs : s ∈ P.stateList) {e : ε} (he : e ∈ P.expandEvents pai) :
    e ∈ P.eventList ∧ P.cellIdx e s = some idx := by
  have hdeclared := h.declared.expandEvents_subset (List.mem_of_getElem? hpai) he
  exact ⟨hdeclared,
    (h.cellIdx_eq_some_iff hdeclared hs).mpr (mem_namedCells.mpr ⟨pai, hpai, he, hstate⟩)⟩

omit [DecidableEq ε] [DecidableEq σ] h in
/-- A list with members has a last one. -/
lemma exists_getLast? {α : Type*} {l : List α} {a : α} (ha : a ∈ l) : ∃ b, l.getLast? = some b :=
  Option.isSome_iff_exists.mp (List.getLast?_isSome.mpr (List.ne_nil_of_mem ha))

omit [DecidableEq ε] [DecidableEq σ] h in
/-- An entry names no state only where sub-machines implement all states. -/
private lemma implemented_of_namedWithoutStates {M : MachineMatrix ε σ} {e : ε} {idx : ℕ}
    (hnamed : NamedWithoutStates M e idx) {s : σ} (hs : s ∈ M.stateList) :
    M.implementedBySubMachine s = true := by
  obtain ⟨-, -, pai, -, -, hempty⟩ := hnamed
  unfold MachineMatrix.expandStates at hempty
  split_ifs at hempty with hall
  · by_contra himplemented
    have hmem : s ∈ M.stateList.filter fun s => !M.implementedBySubMachine s :=
      List.mem_filter.mpr ⟨hs, by simpa using himplemented⟩
    rw [hempty] at hmem
    exact List.not_mem_nil hmem
  · exact absurd hempty hall

/-- The events that are noted as handled in all states: one entry names all states for them, and
none without states names them before. -/
lemma Accepted.single_iff {e : ε} (he : e ∈ P.eventList) {s : σ} (hs : s ∈ P.stateList) {idx : ℕ}
    {pai : ActionInfo ε σ} (hidx : P.cellIdx e s = some idx)
    (hpai : P.actionInfoList[idx]? = some pai) :
    P.actionArray.singlePaiForAllStates e = true ↔
      P.stateList ⊆ P.expandStates pai ∧ ¬ NamedWithoutStates P.toMachineMatrix e idx := by
  have hcell := (h.cellIdx_eq_some_iff he hs).mp hidx
  obtain ⟨pai', hpai', hevent, -⟩ := mem_namedCells.mp hcell
  obtain rfl := Option.some.inj (hpai.symm.trans hpai')
  rw [h.rowsNoted.singlePaiForAllStates_iff h.nonempty]
  constructor
  · rintro ⟨idx', hall, hnot⟩
    obtain rfl := h.filled.unique (hall s hs) hcell
    refine ⟨fun t ht => ?_, hnot⟩
    obtain ⟨pai', hpai', -, hstate⟩ := mem_namedCells.mp (hall t ht)
    obtain rfl := Option.some.inj (hpai.symm.trans hpai')
    exact hstate
  · rintro ⟨hstates, hnot⟩
    exact ⟨idx, fun t ht => mem_namedCells.mpr ⟨pai, hpai, hevent, hstates ht⟩, hnot⟩

end Lists

/-! ## Labels of state functions -/

section StateFn

variable {P} (h : P.Accepted)

omit [DecidableEq ε] [DecidableEq σ] in
/-- The labels of an event are different. -/
private lemma nodup_eventLabels (e : ε) : (P.eventLabels e).Nodup := by
  unfold eventLabels
  split_ifs
  · refine List.nodup_cons.mpr ⟨by simp, (List.nodup_range).map ?_⟩
    intro j k hjk
    exact (EventLabel.ancestor.inj hjk).2
  · simp

omit [DecidableEq ε] [DecidableEq σ] in
/-- A label tells its event. -/
lemma eq_of_mem_eventLabels {e e' : ε} {x : EventLabel ε} (hx : x ∈ P.eventLabels e)
    (hx' : x ∈ P.eventLabels e') : e = e' := by
  have hevent : ∀ {d : ε}, x ∈ P.eventLabels d → x = .this d ∨ ∃ k, x = .ancestor d k := by
    intro d hd
    unfold eventLabels at hd
    split_ifs at hd
    · rcases List.mem_cons.mp hd with hd | hd
      · exact .inl hd
      · obtain ⟨k, -, rfl⟩ := List.mem_map.mp hd
        exact .inr ⟨k, rfl⟩
    · exact .inl (List.mem_singleton.mp hd)
  rcases hevent hx with rfl | ⟨k, rfl⟩ <;> rcases hevent hx' with hx' | ⟨k', hx'⟩ <;>
    cases hx' <;> rfl

include h

/-- The function of a state has a case for exactly the events that are to have one. -/
lemma Accepted.printsStateFnCase_iff {e : ε} (he : e ∈ P.eventList) {s : σ} (hs : s ∈ P.stateList)
    {idx : ℕ} (hidx : P.cellIdx e s = some idx) :
    P.printsStateFnCase s e = true ↔ P.Dispatched s e := by
  unfold printsStateFnCase Dispatched
  obtain ⟨pai, hpai, -, hstate⟩ := h.exists_entry he hs hidx
  cases honly : P.transitionsOnly s with
  | false => cases hsingle : P.actionArray.singlePaiForAllStates e <;> simp [hidx]
  | true =>
    -- the entry has no action, as the state is implemented by a sub-machine
    have himplemented : P.implementedBySubMachine s = true := by
      simp only [transitionsOnly, Bool.and_eq_true] at honly
      exact honly.2
    have hmem := List.mem_of_getElem? hpai
    have haction : pai.action = "" := by
      by_contra haction
      unfold MachineMatrix.expandStates at hstate
      split_ifs at hstate with hall
      · simpa [himplemented] using (List.mem_filter.mp hstate).2
      · simpa [himplemented] using h.elsewhere pai hmem haction s hstate
    have htransition : pai.transition.isSome = true :=
      Option.isSome_iff_ne_none.mpr ((h.named pai hmem).resolve_left (by simp [haction]))
    simp [hidx, hpai, htransition]

/-- The labels of a state function, each once. -/
private lemma Accepted.count_stateFnCases {e : ε} {s : σ} {x : EventLabel ε}
    (hx : x ∈ P.eventLabels e)
    (hmem : e ∈ P.actionArray.peventsHandled s) (hprinted : P.printsStateFnCase s e = true) :
    ((P.stateFnCases s).flatMap Case.labels).count x = 1 := by
  rw [stateFnCases, flatMap_labels_printCases]
  apply List.count_eq_one_of_mem
  · rw [List.nodup_flatMap]
    constructor
    · intro d _
      exact nodup_eventLabels d
    · refine ((h.rowsNoted.nodup_peventsHandled s).filter _).imp ?_
      intro d d' hne y hy hy'
      exact hne (eq_of_mem_eventLabels hy hy')
  · exact List.mem_flatMap.mpr ⟨e, List.mem_filter.mpr ⟨hmem, hprinted⟩, hx⟩

/-- **Where a label leads.** The label of an event leads to what the printed cases from the entry's
last event on have as body, if this one is printed, and otherwise out of the entry. -/
lemma Accepted.switchBody_stateFnCases {e d : ε} {s : σ} {idx : ℕ} {pai : ActionInfo ε σ}
    (he : e ∈ P.eventList) (hs : s ∈ P.stateList) (hidx : P.cellIdx e s = some idx)
    (hpai : P.actionInfoList[idx]? = some pai) (hlast : (P.expandEvents pai).getLast? = some d)
    {x : EventLabel ε} (hx : x ∈ P.eventLabels e) (hprinted : P.printsStateFnCase s e = true) :
    switchBody (P.stateFnCases s) x = some ⟨idx, P.stateFnBody s pai⟩ ↔
      P.printsStateFnCase s d = true := by
  obtain ⟨pai', hpai', hevent, hstate⟩ := h.exists_entry he hs hidx
  obtain rfl := Option.some.inj (hpai.symm.trans hpai')
  obtain ⟨l₁, l₂, hlist, hother⟩ := h.exists_peventsHandled_eq hpai hstate
  -- the entry's events up to `e`, and those from `e` on
  obtain ⟨as, bs, hsplit⟩ := List.append_of_mem hevent
  have hwhole : P.actionArray.peventsHandled s = (l₁ ++ as) ++ e :: (bs ++ l₂) := by
    rw [hlist, hsplit]
    simp
  have hunique : ∀ c ∈ l₁ ++ as, x ∉ P.eventLabels c := by
    intro c hc hxc
    obtain rfl := eq_of_mem_eventLabels hx hxc
    have hnd := h.rowsNoted.nodup_peventsHandled s
    rw [hwhole] at hnd
    exact List.disjoint_of_nodup_append hnd hc List.mem_cons_self
  have hgroup : ∀ c ∈ e :: bs, P.cellIdx c s = some idx := by
    intro c hc
    exact (h.cellIdx_of_mem_expandEvents hpai hstate hs
      (hsplit ▸ List.mem_append_right as hc)).2
  have hrest : ∀ c ∈ l₂, P.cellIdx c s ≠ some idx :=
    fun c hc => hother c (List.mem_append_right l₁ hc)
  rw [hsplit, List.getLast?_append_cons] at hlast
  have hd := hgroup d (List.mem_of_getLast? hlast)
  rw [stateFnCases, hwhole, switchBody_printCases_append hprinted hx hunique, ← List.cons_append]
  constructor
  · intro hbody
    by_contra hnot
    rw [findSome?_printCases_of_not_getLast hgroup hlast (by simpa using hnot)] at hbody
    obtain ⟨c, hc, hcbody⟩ := exists_of_findSome?_printCases hbody
    obtain ⟨idx', hidx', hentry⟩ := Option.bind_eq_some_iff.mp hcbody
    obtain ⟨pai', -, heq⟩ := Option.map_eq_some_iff.mp hentry
    obtain rfl : idx' = idx := (CaseBody.mk.inj heq).1
    exact hrest c hc hidx'
  · intro hlastPrinted
    refine findSome?_printCases_of_getLast hgroup hrest hlast hlastPrinted ?_
    simp [hd, entryBody, hpai]

/-- A case for an event needs one for the last event of its entry. -/
lemma Accepted.leadsTo_stateFnCases_iff {e d : ε} {s : σ} {idx : ℕ} {pai : ActionInfo ε σ}
    (he : e ∈ P.eventList) (hs : s ∈ P.stateList) (hidx : P.cellIdx e s = some idx)
    (hpai : P.actionInfoList[idx]? = some pai) (hlast : (P.expandEvents pai).getLast? = some d)
    {x : EventLabel ε} (hx : x ∈ P.eventLabels e) (hdispatched : P.Dispatched s e) :
    P.LeadsTo (P.stateFnCases s) x (P.stateFnBody s) idx ↔ P.Dispatched s d := by
  have hprinted := (h.printsStateFnCase_iff he hs hidx).mpr hdispatched
  obtain ⟨pai', hpai', -, hstate⟩ := h.exists_entry he hs hidx
  obtain rfl := Option.some.inj (hpai.symm.trans hpai')
  obtain ⟨hd, hdidx⟩ := h.cellIdx_of_mem_expandEvents hpai hstate hs (List.mem_of_getLast? hlast)
  rw [← h.printsStateFnCase_iff hd hs hdidx,
    ← h.switchBody_stateFnCases he hs hidx hpai hlast hx hprinted]
  constructor
  · rintro ⟨-, pai', hpai', hbody⟩
    obtain rfl := Option.some.inj (hpai.symm.trans hpai')
    exact hbody
  · intro hbody
    refine ⟨h.count_stateFnCases hx ?_ hprinted, pai, hpai, hbody⟩
    exact h.mem_peventsHandled.mpr ⟨idx, (h.cellIdx_eq_some_iff he hs).mp hidx⟩

end StateFn

/-! ## The other switches -/

section Others

variable {P} (h : P.Accepted)

include h

/-- **Event handlers.** The label of every state with an entry leads to the entry's statements. -/
lemma Accepted.leadsTo_handlerCases {e : ε} (he : e ∈ P.eventList) {s : σ} (hs : s ∈ P.stateList)
    {idx : ℕ} (hidx : P.cellIdx e s = some idx) :
    P.LeadsTo (P.handlerCases e) s P.handlerStateCase idx := by
  obtain ⟨pai, hpai, -, -⟩ := h.exists_entry he hs hidx
  have hmem : s ∈ P.actionArray.phandlingStates e :=
    h.mem_phandlingStates.mpr ⟨idx, (h.cellIdx_eq_some_iff he hs).mp hidx⟩
  refine ⟨?_, pai, hpai, ?_⟩
  · have hlabels : (P.handlerCases e).flatMap Case.labels = P.actionArray.phandlingStates e := by
      rw [handlerCases, flatMap_labels_printCases, List.filter_eq_self.mpr (by simp)]
      exact List.flatMap_singleton' _
    rw [hlabels]
    exact List.count_eq_one_of_mem (h.rowsNoted.nodup_phandlingStates e) hmem
  · refine switchBody_printCases hmem rfl (List.mem_singleton_self s) ?_ ?_ ?_
    · simp [hidx, entryBody, hpai]
    · intro c _ _ hc
      exact (List.mem_singleton.mp hc).symm
    · intro c _ d _ hkey
      exact ⟨rfl, by rw [hkey]⟩

/-- **The events handled in all states** have a label in their handler as often as they are listed,
and it leads to their entry's statements. -/
lemma Accepted.allStatesCases_of_single {e : ε} (he : e ∈ P.eventList)
    (hsingle : P.actionArray.singlePaiForAllStates e = true) {s : σ} (hs : s ∈ P.stateList) :
    ∃ idx pai, P.cellIdx e s = some idx ∧ P.actionInfoList[idx]? = some pai ∧
      (P.allStatesCases.flatMap Case.labels).count (.this e) = P.eventList.count e ∧
      switchBody P.allStatesCases (.this e) = some ⟨idx, P.allStatesBody pai⟩ := by
  obtain ⟨idx, hfirst, hall⟩ := (h.rowsNoted.single e).mp hsingle
  have hcell := hall s hs
  rw [rowCells_namedRows] at hcell
  have hidx := (h.cellIdx_eq_some_iff he hs).mpr hcell
  obtain ⟨pai, hpai, -, -⟩ := h.exists_entry he hs hidx
  -- the labels of an event contain its own one, and no other's
  have hthis : ∀ d, (P.allStatesLabels d).count (.this e) = if d = e then 1 else 0 := by
    intro d
    unfold allStatesLabels eventLabels
    split_ifs <;> simp_all [List.count_eq_zero]
  have hmem : ∀ d, .this e ∈ P.allStatesLabels d ↔ d = e := by
    intro d
    rw [← List.count_pos_iff, hthis]
    split_ifs <;> simp_all
  refine ⟨idx, pai, hidx, hpai, ?_, ?_⟩
  · rw [allStatesCases, List.flatMap_map, List.count_flatMap, ← List.count_filter hsingle]
    induction P.eventList.filter P.actionArray.singlePaiForAllStates with
    | nil => rfl
    | cons d l ih =>
      rw [List.map_cons, List.sum_cons, ih, List.count_cons, add_comm]
      simp [hthis]
  · obtain ⟨b, hb, rfl⟩ := exists_switchBody P.allStatesCases (.this e)
      (· = (⟨idx, P.allStatesBody pai⟩ : CaseBody σ))
      ⟨_, List.mem_map_of_mem (List.mem_filter.mpr ⟨he, hsingle⟩), (hmem e).mpr rfl⟩
      (by
        intro c hc hx
        obtain ⟨d, -, rfl⟩ := List.mem_map.mp hc
        obtain rfl := (hmem d).mp hx
        exact ⟨_, by simp [hfirst, entryBody, hpai], rfl⟩)
    exact hb

end Others

/-- **Lists and switches** of an accepted machine are right exactly if its actions return states and
it implements artifacts of its parent, or if, where one entry names all states, the last of its
events has been named before by an entry without states if any of them has.

**Proof sketch.** The lists hold the events and states of the cells, in the order of the walk, so
that the events of an entry follow each other. A label falls through to the body of the last of
them, if that one has a case. It has none if it is handled in all states. Then the entry names all
states, and the label that falls through is that of an event named before without states. -/
theorem handledRight_iff (h : P.Accepted) : P.HandledRight ↔
    (P.actionsReturn = .states ∧ P.artifactsImplementing = true) ∨ P.LastNamedWithoutStates := by
  constructor
  · intro hright
    rw [or_iff_not_imp_left]
    intro hkind idx pai hpai hstates hnamed
    obtain ⟨e, he, hnot⟩ := hnamed
    obtain ⟨s, hs⟩ := List.exists_mem_of_ne_nil _ h.nonempty
    obtain ⟨d, hlast⟩ := exists_getLast? he
    refine ⟨d, hlast, ?_⟩
    obtain ⟨hevent, hidx⟩ := h.cellIdx_of_mem_expandEvents hpai (hstates hs) hs he
    obtain ⟨hdevent, hdidx⟩ :=
      h.cellIdx_of_mem_expandEvents hpai (hstates hs) hs (List.mem_of_getLast? hlast)
    -- a label is printed for the event, so one is for the last
    have hdispatched : P.Dispatched s e := by
      refine .inl (Bool.eq_false_iff.mpr fun hsingle => ?_)
      exact ((h.single_iff hevent hs hidx hpai).mp hsingle).2 hnot
    have hleads := hright.stateFn e hevent s hs idx hidx hdispatched (.this e)
      (by simp [eventLabels])
    rcases (h.leadsTo_stateFnCases_iff hevent hs hidx hpai hlast (by simp [eventLabels])
      hdispatched).mp hleads with hsingle | ⟨hart, honly⟩
    · by_contra hdnot
      rw [(h.single_iff hdevent hs hdidx hpai).mpr ⟨hstates, hdnot⟩] at hsingle
      cases hsingle
    · rw [transitionsOnly, implemented_of_namedWithoutStates hnot hs] at honly
      exact absurd ⟨by simpa using honly, hart⟩ hkind
  · intro hcond
    refine ⟨?_, ?_, h.rowsNoted.nodup_peventsHandled, h.rowsNoted.nodup_phandlingStates, ?_, ?_,
      ?_, ?_⟩
    · intro e he s hs
      rw [h.mem_peventsHandled, Option.isSome_iff_exists]
      exact exists_congr fun idx => (h.cellIdx_eq_some_iff he hs).symm
    · intro e he s hs
      rw [h.mem_phandlingStates, Option.isSome_iff_exists]
      exact exists_congr fun idx => (h.cellIdx_eq_some_iff he hs).symm
    · intro e he s hs idx hidx hdispatched x hx
      obtain ⟨pai, hpai, hevent, hstate⟩ := h.exists_entry he hs hidx
      obtain ⟨d, hlast⟩ := exists_getLast? hevent
      obtain ⟨hdevent, hdidx⟩ :=
        h.cellIdx_of_mem_expandEvents hpai hstate hs (List.mem_of_getLast? hlast)
      rw [h.leadsTo_stateFnCases_iff he hs hidx hpai hlast hx hdispatched]
      rcases hdispatched with hsingle | hart
      · rcases hcond with ⟨hkind, hart⟩ | hcond
        · exact .inr ⟨hart, by simp [transitionsOnly, hkind]⟩
        · -- if the entry names all states, the last event has been named before, too
          refine .inl (Bool.eq_false_iff.mpr fun hlastSingle => ?_)
          obtain ⟨hall, hdnot⟩ := (h.single_iff hdevent hs hdidx hpai).mp hlastSingle
          have hnot : NamedWithoutStates P.toMachineMatrix e idx := by
            by_contra hnot
            rw [(h.single_iff he hs hidx hpai).mpr ⟨hall, hnot⟩] at hsingle
            cases hsingle
          obtain ⟨d', hlast', hd'⟩ := hcond idx pai hpai hall ⟨e, hevent, hnot⟩
          exact hdnot (Option.some.inj (hlast.symm.trans hlast') ▸ hd')
      · exact .inr hart
    · intro e he hsingle s hs
      exact h.allStatesCases_of_single he hsingle hs
    · intro e he s hs idx hidx
      exact h.leadsTo_handlerCases he hs hidx
    · intro e he s hs hnone
      constructor
      · intro x hx c hc hmem
        obtain ⟨d, hd, -, hlabels⟩ := exists_of_mem_printCases hc
        obtain rfl := eq_of_mem_eventLabels hx (hlabels ▸ hmem)
        obtain ⟨-, -, idx, hidx⟩ := h.exists_of_mem_peventsHandled hd
        simp [hnone] at hidx
      · intro c hc hmem
        obtain ⟨t, ht, -, hlabels⟩ := exists_of_mem_printCases hc
        obtain rfl := List.mem_singleton.mp (hlabels ▸ hmem)
        obtain ⟨-, -, idx, hidx⟩ := h.exists_of_mem_phandlingStates ht
        simp [hnone] at hidx

/-- Two events and three states: an action for the first event in all states, and a transition for
the second event in two of them. -/
def emptyCellMachine : GeneratedMachine ℕ ℕ where
  eventList := [0, 1]
  stateList := [0, 1, 2]
  consumedByTranslator := fun _ => false
  implementedBySubMachine := fun _ => false
  actionInfoList := [⟨"a", none, [0], []⟩, ⟨"", some (.state 1), [1], [0, 2]⟩]

/-- Every entry names a state. -/
private lemma lastNamedWithoutStates_emptyCellMachine :
    emptyCellMachine.LastNamedWithoutStates := by
  rintro idx pai - - ⟨e, -, idx', -, pai', hpai', -, hnone⟩
  have hstates : ∀ pai ∈ emptyCellMachine.actionInfoList,
      emptyCellMachine.expandStates pai ≠ [] := by decide
  exact absurd hnone (hstates pai' (List.mem_of_getElem? hpai'))

/-- Its lists and switches are right. -/
theorem handledRight_emptyCellMachine : emptyCellMachine.HandledRight :=
  (handledRight_iff _ ⟨by simp [MachineMatrix.Declared, emptyCellMachine], by decide, by decide,
    by decide, by decide, by decide, by decide⟩).mpr
      (.inr lastNamedWithoutStates_emptyCellMachine)

/-- A machine whose only state is implemented by a sub-machine: an action for the first event and
ALL states, which are none, and a transition for both events. -/
def fallThroughMachine : GeneratedMachine ℕ ℕ where
  eventList := [0, 1]
  stateList := [0]
  consumedByTranslator := fun _ => false
  implementedBySubMachine := fun _ => true
  actionInfoList := [⟨"a", none, [0], []⟩, ⟨"", some (.state 0), [0, 1], [0]⟩]

/-- The label of the first event has no statements in the state function. -/
theorem not_handledRight_fallThroughMachine :
    ¬ ∀ P : GeneratedMachine ℕ ℕ, P.Accepted → P.HandledRight := by
  intro h
  have hright := h fallThroughMachine ⟨by simp [MachineMatrix.Declared, fallThroughMachine],
    by decide, by decide, by decide, by decide, by decide, by decide⟩
  obtain ⟨-, pai, -, hbody⟩ := hright.stateFn 0 (by decide) 0 (by decide) 1 (by decide)
    (.inl (by decide)) (.this 0) (by decide)
  have hnone : switchBody (fallThroughMachine.stateFnCases 0) (.this 0) = none := by decide
  rw [hnone] at hbody
  cases hbody

end GeneratedMachine

end FsmLang
