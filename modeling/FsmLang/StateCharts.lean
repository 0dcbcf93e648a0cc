import Mathlib.Data.List.Basic
import Mathlib.Data.List.Nodup
import Mathlib.Data.List.Perm.Basic
import Mathlib.Tactic
import FsmLang.ActionArray
import FsmLang.ReturnDeclarations

set_option relaxedAutoImplicit false
set_option autoImplicit false

/-!
# State charts

The PlantUML state chart of a machine shows its matrix state by state. A cell with a transition is
an arrow to the state, or to the guard that chooses it; the guard's own arrows follow when the guard
is seen for the first time. The cells of a state without a transition are collected, and written
when the state's events are done: one of them as an arrow back to the state, more of them as the
items of a note.

A guard's arrows go to the states of its list of plain returns. Returns with `when` or `otherwise`
are in a list of their own, which the writer does not look at; it reports an error for a guard that
has these only.

## Main definitions

* `ChartMachine` — what the writer reads of a machine.
* `ChartMachine.stateChart` — the writer; `ChartMachine.stateChartText` is what it prints.
* `ChartMachine.ChartRight` — the chart shows the matrix and the returns of the guards.

## Main results

* `ChartMachine.perm_cells` — each non-empty cell is shown once, whatever the guards are.
* `ChartMachine.mem_transitionOption_iff` — the arrows from the guards.
* `ChartMachine.chartRight_iff` — when the chart is right.

## Implementation notes

The title, the legend and the descriptions of the states (their comments, entry and exit functions
and inhibitions) are left out.
-/

namespace FsmLang

/-! ## The matrix -/

/-- What the chart shows of an event. The list of the sub-machines that share it
(`psharing_sub_machines`) is empty where the source has a null pointer. -/
structure ChartEvent where
  name : String
  sharedWithParent : Bool := false
  sharingSubMachines : List String := []
  deriving DecidableEq, Repr

/-- A transition: to a state, or by a guard (a transition function). -/
inductive ChartTransition where
  | state (name : String)
  | guard (name : String)
  deriving DecidableEq, Repr

/-- The name of the state or guard. -/
def ChartTransition.name : ChartTransition → String
  | state name | guard name => name

/-- What the chart shows of a cell. The action's name is empty when there is only a transition. -/
structure ChartCell where
  action : String
  docCmnt : Option String := none
  transition : Option ChartTransition
  deriving DecidableEq, Repr

/-- What the writer reads of a machine that is accepted: the names of its events, and of its states,
are different, and the returns declarations of the guards are parsed without error. -/
structure ChartMachine where
  parentName : String
  eventList : List ChartEvent
  stateList : List String
  transitionFnList : List String
  actionArray : ℕ → ℕ → Option ChartCell
  declarations : String → List (ReturnsDeclaration String)
  nodup_events : (eventList.map ChartEvent.name).Nodup
  nodup_states : stateList.Nodup
  accepted : ∀ g, Accepts [] (declarations g)

/-! ## The chart -/

/-- What is printed at a time. -/
inductive ChartItem where
  | stateName (state : String)
  | guardName (guard : String)
  | initialState (state : String)
  | transition (state : String) (event : ChartEvent) (action : String) (target : String)
      (docCmnt : Option String)
  | transitionOption (guard state : String)
  | loopBack (state : String) (event : ChartEvent) (action : String) (docCmnt : Option String)
  | loopBackNote (state : String) (events : List (ChartEvent × ChartCell))
  deriving DecidableEq, Repr

namespace ChartMachine

variable (M : ChartMachine)

/-- The name of an event on an arrow. -/
def eventText (e : ChartEvent) : String :=
  if e.sharedWithParent then "(" ++ M.parentName ++ "::) " ++ e.name else e.name

/-- `print_loop_back_event`. -/
def loopBackEventText (e : ChartEvent) (pai : ChartCell) : String :=
  e.name ++ ": " ++ pai.action ++
    pai.docCmnt.elim "" (fun c => "\n" ++ c ++ "\n") ++
    (if e.sharingSubMachines = [] then ""
      else "\nShared with:\n" ++ String.join (e.sharingSubMachines.map (· ++ "\n"))) ++
    "\n"

/-- The text of an item. -/
def itemText : ChartItem → String
  | .stateName s => "state " ++ s ++ "\n"
  | .guardName g => "state " ++ g ++ " <<choice>>\n"
  | .initialState s => "\n[*] --> " ++ s ++ "\n"
  | .transition s e action target docCmnt =>
    s ++ " --> " ++ target ++ " : **Event:** " ++ M.eventText e ++ "\\n**Action:** " ++
      (if action = "" then "none" else action) ++
      (if e.sharingSubMachines = [] then ""
        else "\\n**Event shared with:**\\n" ++
          String.join (e.sharingSubMachines.map (· ++ "\\n")) ++ "\n") ++
      "\n" ++ docCmnt.elim "" fun c => "note on link\n" ++ c ++ "\nend note\n"
  | .transitionOption g s => g ++ " -[#blue]-> " ++ s ++ "\n"
  | .loopBack s e action docCmnt =>
    s ++ " --> " ++ s ++ " : **Event:** " ++ M.eventText e ++ "\\n**Action:** " ++ action ++ "\n" ++
      docCmnt.elim "" fun c => "\nnote on link\n" ++ c ++ "\nend note\n"
  | .loopBackNote s events =>
    "\nnote left of " ++ s ++ "\n**These events loop back:**\n\n" ++
      String.join (events.map fun p => loopBackEventText p.1 p.2) ++ "end note\n"

/-- The list `transition_fn_returns_decl` of a guard, empty where the source has a null pointer. -/
def returnsDecl (g : String) : List String :=
  ((parseDeclarations (.start []) (M.declarations g)).map ReturnsParser.returnsDecl).getD []

end ChartMachine

/-- The writer: the guards seen so far (`ptransition_fns_seen`), what is printed, and the flag
`good`, which `yyerror` clears. -/
structure ChartWriter where
  seen : List String
  chart : List ChartItem
  good : Bool
  deriving DecidableEq, Repr

namespace ChartWriter

/-- Print an item. -/
def print (W : ChartWriter) (i : ChartItem) : ChartWriter := { W with chart := W.chart ++ [i] }

/-- The arrows of a guard that has not been seen before. -/
def transitionFn (M : ChartMachine) (W : ChartWriter) (g : String) : ChartWriter :=
  if g ∈ W.seen then W
  else
    match M.returnsDecl g with
    -- "It is required to declare what the transition function returns."
    | [] => { W with seen := W.seen ++ [g], good := false }
    | l => { W with seen := W.seen ++ [g], chart := W.chart ++ l.map (.transitionOption g) }

/-- A cell of a state, given the cells that loop back so far. -/
def cell (M : ChartMachine) (s : String) (W : ChartWriter × List (ChartEvent × ChartCell))
    (e : ChartEvent) (pai : ChartCell) : ChartWriter × List (ChartEvent × ChartCell) :=
  match pai.transition with
  | none => (W.1, W.2 ++ [(e, pai)])
  | some t =>
    let W' := W.1.print (.transition s e pai.action t.name pai.docCmnt)
    match t with
    | .state _ => (W', W.2)
    | .guard g => (W'.transitionFn M g, W.2)

/-- The cells of a state that loop back. -/
def loopBacks (W : ChartWriter) (s : String) : List (ChartEvent × ChartCell) → ChartWriter
  | [] => W
  | [(e, pai)] => W.print (.loopBack s e pai.action pai.docCmnt)
  | events => W.print (.loopBackNote s events)

/-- The cells of a state for some events; the state and the events are given with their indices. -/
def cells (M : ChartMachine) (s : String × ℕ) (es : List (ChartEvent × ℕ))
    (W : ChartWriter × List (ChartEvent × ChartCell)) :
    ChartWriter × List (ChartEvent × ChartCell) :=
  es.foldl (fun W e => (M.actionArray e.2 s.2).elim W (cell M s.1 W e.1)) W

/-- The cells of a state. -/
def state (M : ChartMachine) (W : ChartWriter) (s : String × ℕ) : ChartWriter :=
  let W' := cells M s M.eventList.zipIdx (W, [])
  W'.1.loopBacks s.1 W'.2

/-- What is printed before the cells. -/
def start (M : ChartMachine) : ChartWriter where
  seen := []
  chart := M.stateList.map .stateName ++ M.transitionFnList.map .guardName ++
    M.stateList.head?.toList.map .initialState
  good := true

end ChartWriter

/-! ## What the chart shows -/

/-- A cell as it is shown: the state, the event and the action, and the target of the transition;
there is no target on an arrow back to the state or in a note of events that loop back. -/
structure ShownCell where
  state : String
  event : String
  action : String
  target : Option String
  deriving DecidableEq, Repr

/-- A cell as it is to be shown. -/
def ChartCell.shown (pai : ChartCell) (s : String) (e : ChartEvent) : ShownCell :=
  ⟨s, e.name, pai.action, pai.transition.map ChartTransition.name⟩

/-- A cell that loops back, as it is shown. -/
def loopBackShown (s : String) (p : ChartEvent × ChartCell) : ShownCell :=
  ⟨s, p.1.name, p.2.action, none⟩

/-- The cells that an item shows. -/
def ChartItem.cells : ChartItem → List ShownCell
  | .transition s e action target _ => [⟨s, e.name, action, some target⟩]
  | .loopBack s e action _ => [⟨s, e.name, action, none⟩]
  | .loopBackNote s events => events.map (loopBackShown s)
  | _ => []

/-- The cells that the chart shows. -/
def ChartWriter.shown (W : ChartWriter) : List ShownCell := W.chart.flatMap ChartItem.cells

namespace ChartMachine

variable (M : ChartMachine)

/-- The state chart of a machine. -/
def stateChart : ChartWriter := M.stateList.zipIdx.foldl (ChartWriter.state M) (ChartWriter.start M)

/-- The text of the chart. -/
def stateChartText : String := String.join (M.stateChart.chart.map M.itemText)

/-- The non-empty cells of a state for some events. -/
def rowCells (s : String × ℕ) (es : List (ChartEvent × ℕ)) : List ShownCell :=
  es.filterMap fun e => (M.actionArray e.2 s.2).map fun pai => pai.shown s.1 e.1

/-- The non-empty cells of the matrix. -/
def nonEmptyCells : List ShownCell :=
  M.stateList.zipIdx.flatMap fun s => M.rowCells s M.eventList.zipIdx

/-- A guard is used in the cells of a state for some events. -/
def UsedInRow (s : ℕ) (es : List (ChartEvent × ℕ)) (g : String) : Prop :=
  ∃ e ∈ es, ∃ pai, M.actionArray e.2 s = some pai ∧ pai.transition = some (.guard g)

/-- A guard is used in the matrix. -/
def UsedInMatrix (g : String) : Prop :=
  ∃ s ∈ M.stateList.zipIdx, M.UsedInRow s.2 M.eventList.zipIdx g

/-- A state is declared as a return of a guard, with `when` or `otherwise` or without. -/
def Returns (g s : String) : Prop := ∃ d ∈ M.declarations g, ∃ c ∈ d.choices, c.state = s

/-- A state is declared as a return of a guard without `when` and `otherwise`. -/
def ReturnsPlain (g s : String) : Prop :=
  ∃ d ∈ M.declarations g, ∃ c ∈ d.choices, c.annotated = false ∧ c.state = s

/-- The chart is written without error, shows every non-empty cell exactly once, with the target of
its transition or as looping back, and from every guard in the matrix arrows to its declared returns
and to nothing else. -/
structure ChartRight : Prop where
  good : M.stateChart.good = true
  cells : ∀ s e S E pai, M.stateList[s]? = some S → M.eventList[e]? = some E →
    M.actionArray e s = some pai →
      (M.stateChart.shown.filter fun c => c.state = S ∧ c.event = E.name) = [pai.shown S E]
  guards : ∀ g, M.UsedInMatrix g → ∀ s,
    .transitionOption g s ∈ M.stateChart.chart ↔ M.Returns g s

end ChartMachine

/-! ## What the writer does -/

/-- A member of a list whose members have different keys is the only one with its key. -/
private lemma filter_eq_singleton {α β : Type*} [DecidableEq β] {f : α → β} {l : List α}
    (h : (l.map f).Nodup) {a : α} (ha : a ∈ l) : (l.filter fun b => f b = f a) = [a] := by
  induction l with
  | nil => simp at ha
  | cons b l ih =>
    rw [List.map_cons, List.nodup_cons] at h
    by_cases hb : f b = f a
    · have hnone : ∀ c ∈ l, ¬ f c = f a := by
        intro c hc hca
        exact h.1 (List.mem_map.mpr ⟨c, hc, hca.trans hb.symm⟩)
      obtain rfl : a = b := by
        rcases List.mem_cons.mp ha with hab | hal
        · exact hab
        · exact absurd rfl (hnone a hal)
      rw [List.filter_cons_of_pos (by simp), List.filter_eq_nil_iff.mpr (by simpa using hnone)]
    · have hal : a ∈ l := by
        rcases List.mem_cons.mp ha with hab | hal
        · exact absurd (by rw [hab]) hb
        · exact hal
      rw [List.filter_cons_of_neg (by simpa using hb), ih h.2 hal]

namespace ChartWriter

variable {M : ChartMachine} {W : ChartWriter}

/-- Printing an item sees no guard. -/
@[simp] lemma seen_print (i : ChartItem) : (W.print i).seen = W.seen := rfl

/-- An item shows its own cells. -/
@[simp] lemma shown_print (i : ChartItem) : (W.print i).shown = W.shown ++ i.cells := by
  simp [shown, print]

/-- The arrows from guards are those of the guards that have been seen, and no error has been
reported unless one of these has no list. -/
structure GuardsRight (M : ChartMachine) (W : ChartWriter) : Prop where
  options : ∀ g s, .transitionOption g s ∈ W.chart ↔ g ∈ W.seen ∧ s ∈ M.returnsDecl g
  good : W.good = true ↔ ∀ g ∈ W.seen, M.returnsDecl g ≠ []

/-- Before the first cell nothing has been printed. -/
private lemma guardsRight_start (M : ChartMachine) : GuardsRight M (start M) where
  options := by simp [start]
  good := by simp [start]

/-- Other items do not matter for the guards. -/
lemma GuardsRight.print (h : GuardsRight M W) {i : ChartItem}
    (hi : ∀ g s, i ≠ .transitionOption g s) : GuardsRight M (W.print i) where
  options := fun g s => by
    simpa [ChartWriter.print, (hi g s).symm] using h.options g s
  good := h.good

/-- A guard that is seen for the first time. -/
lemma GuardsRight.transitionFn (h : GuardsRight M W) (g : String) :
    GuardsRight M (W.transitionFn M g) := by
  unfold ChartWriter.transitionFn
  split_ifs with hg
  · exact h
  · split
    next hnone =>
      refine ⟨fun g' s => ?_, ?_⟩
      · rw [h.options, List.mem_append, List.mem_singleton]
        constructor
        · exact fun hs => ⟨.inl hs.1, hs.2⟩
        · rintro ⟨hs | rfl, hret⟩
          · exact ⟨hs, hret⟩
          · simp [hnone] at hret
      · simp [hnone]
    next hsome =>
      refine ⟨fun g' s => ?_, ?_⟩
      · rw [List.mem_append, h.options, List.mem_append, List.mem_singleton]
        have hmap : ChartItem.transitionOption g' s ∈ (M.returnsDecl g).map (.transitionOption g) ↔
            g' = g ∧ s ∈ M.returnsDecl g := by
          simp only [List.mem_map, ChartItem.transitionOption.injEq]
          constructor
          · rintro ⟨s', hs', rfl, rfl⟩
            exact ⟨rfl, hs'⟩
          · rintro ⟨rfl, hs'⟩
            exact ⟨s, hs', rfl, rfl⟩
        rw [hmap, or_and_right]
        constructor
        · rintro (hold | ⟨rfl, hs⟩)
          · exact .inl hold
          · exact .inr ⟨rfl, hs⟩
        · rintro (hold | ⟨rfl, hs⟩)
          · exact .inl hold
          · exact .inr ⟨rfl, hs⟩
      · simp only [List.mem_append, List.mem_singleton]
        rw [h.good]
        constructor
        · rintro hold g' (hg' | rfl)
          · exact hold g' hg'
          · exact hsome
        · exact fun hall g' hg' => hall g' (.inl hg')

/-- A guard is seen when it is printed. -/
private lemma mem_seen_transitionFn (W : ChartWriter) (g g' : String) :
    g' ∈ (W.transitionFn M g).seen ↔ g' ∈ W.seen ∨ g' = g := by
  unfold ChartWriter.transitionFn
  split_ifs with hg
  · constructor
    · exact .inl
    · rintro (hg' | rfl)
      · exact hg'
      · exact hg
  · split <;> simp

/-- The arrows of a guard show no cell. -/
@[simp] lemma shown_transitionFn (W : ChartWriter) (g : String) :
    (W.transitionFn M g).shown = W.shown := by
  unfold ChartWriter.transitionFn
  split_ifs with hg
  · rfl
  · split
    · rfl
    · simp [shown, ChartItem.cells, List.flatMap_map]

/-! ### The cells of a state -/

section Row

variable {loops : List (ChartEvent × ChartCell)} (s : String) (e : ChartEvent) (pai : ChartCell)

/-- A cell keeps the guards right. -/
lemma GuardsRight.cell (h : GuardsRight M W) : GuardsRight M (cell M s (W, loops) e pai).1 := by
  have hprint : ∀ target : String,
      GuardsRight M (W.print (.transition s e pai.action target pai.docCmnt)) :=
    fun target => h.print (by simp)
  unfold ChartWriter.cell
  match pai.transition with
  | none => exact h
  | some (.state t) => exact hprint t
  | some (.guard g) => exact (hprint g).transitionFn g

/-- A cell sees the guard of its transition. -/
private lemma mem_seen_cell (g : String) :
    g ∈ (cell M s (W, loops) e pai).1.seen ↔
      g ∈ W.seen ∨ pai.transition = some (.guard g) := by
  unfold ChartWriter.cell
  match pai.transition with
  | none => simp
  | some (.state t) => simp
  | some (.guard g') =>
    simp only [mem_seen_transitionFn, seen_print, Option.some.injEq, ChartTransition.guard.injEq]
    rw [eq_comm]

/-- A cell is shown, or kept to be shown as looping back. -/
lemma perm_cell :
    ((cell M s (W, loops) e pai).1.shown ++
      (cell M s (W, loops) e pai).2.map (loopBackShown s)).Perm
        (W.shown ++ loops.map (loopBackShown s) ++ [pai.shown s e]) := by
  unfold ChartWriter.cell ChartCell.shown
  match pai.transition with
  | none => simp [loopBackShown]
  | some (.state t) =>
    simpa [ChartItem.cells, ChartTransition.name] using
      (List.perm_append_singleton _ _).symm.append_left W.shown
  | some (.guard g) =>
    simpa [ChartItem.cells, ChartTransition.name] using
      (List.perm_append_singleton _ _).symm.append_left W.shown

end Row

section Row

variable {s : String × ℕ} {es : List (ChartEvent × ℕ)}
  {V : ChartWriter × List (ChartEvent × ChartCell)}

/-- The cells of a row, one at a time. -/
lemma cells_cons (e : ChartEvent × ℕ) :
    cells M s (e :: es) V =
      cells M s es ((M.actionArray e.2 s.2).elim V (cell M s.1 V e.1)) := rfl

/-- A row of cells keeps the guards right. -/
lemma GuardsRight.cells (h : GuardsRight M V.1) : GuardsRight M (cells M s es V).1 := by
  induction es generalizing V with
  | nil => exact h
  | cons e es ih =>
    rw [cells_cons]
    match M.actionArray e.2 s.2 with
    | none => exact ih h
    | some pai => exact ih (h.cell s.1 e.1 pai)

/-- A row sees the guards of its transitions. -/
private lemma mem_seen_cells (g : String) :
    g ∈ (cells M s es V).1.seen ↔ g ∈ V.1.seen ∨ M.UsedInRow s.2 es g := by
  induction es generalizing V with
  | nil => simp [cells, ChartMachine.UsedInRow]
  | cons e es ih =>
    have hused : M.UsedInRow s.2 (e :: es) g ↔
        (∃ pai, M.actionArray e.2 s.2 = some pai ∧ pai.transition = some (.guard g)) ∨
          M.UsedInRow s.2 es g := by
      simp [ChartMachine.UsedInRow]
    rw [cells_cons, ih, hused]
    match M.actionArray e.2 s.2 with
    | none => simp
    | some pai =>
      rw [Option.elim_some, mem_seen_cell s.1 e.1 pai g]
      simp [or_assoc]

/-- After the events of a state its cells are shown, or kept to be shown as looping back. -/
lemma perm_cells :
    ((cells M s es V).1.shown ++ (cells M s es V).2.map (loopBackShown s.1)).Perm
      (V.1.shown ++ V.2.map (loopBackShown s.1) ++ M.rowCells s es) := by
  induction es generalizing V with
  | nil => simp [cells, ChartMachine.rowCells]
  | cons e es ih =>
    rw [cells_cons]
    refine ih.trans ?_
    match hpai : M.actionArray e.2 s.2 with
    | none => simp [ChartMachine.rowCells, hpai]
    | some pai =>
      have hrow : M.rowCells s (e :: es) = pai.shown s.1 e.1 :: M.rowCells s es := by
        simp [ChartMachine.rowCells, hpai]
      rw [Option.elim_some, hrow, List.append_cons]
      exact (perm_cell s.1 e.1 pai).append_right _

/-- All cells that loop back are shown. -/
private lemma shown_loopBacks (W : ChartWriter) (s : String)
    (events : List (ChartEvent × ChartCell)) :
    (W.loopBacks s events).shown = W.shown ++ events.map (loopBackShown s) := by
  match events with
  | [] => simp [loopBacks]
  | [p] => simp [loopBacks, ChartItem.cells, loopBackShown]
  | p :: q :: events => simp [loopBacks, ChartItem.cells]

/-- The loop-backs of a state see no guard. -/
private lemma seen_loopBacks (W : ChartWriter) (s : String)
    (events : List (ChartEvent × ChartCell)) :
    (W.loopBacks s events).seen = W.seen := by
  match events with
  | [] => rfl
  | [_] => rfl
  | _ :: _ :: _ => rfl

/-- The loop-backs of a state keep the guards right. -/
lemma GuardsRight.loopBacks (h : GuardsRight M W) (s : String)
    (events : List (ChartEvent × ChartCell)) : GuardsRight M (W.loopBacks s events) := by
  match events with
  | [] => exact h
  | [_] => exact h.print (by simp)
  | _ :: _ :: _ => exact h.print (by simp)

end Row

/-! ### The states -/

section States

variable {s : String × ℕ} {ss : List (String × ℕ)}

/-- A state keeps the guards right. -/
lemma GuardsRight.state (h : GuardsRight M W) : GuardsRight M (state M W s) := by
  have hcells : GuardsRight M (ChartWriter.cells M s M.eventList.zipIdx (W, [])).1 :=
    GuardsRight.cells h
  exact hcells.loopBacks _ _

/-- A state sees the guards of its row. -/
private lemma mem_seen_state (g : String) :
    g ∈ (state M W s).seen ↔ g ∈ W.seen ∨ M.UsedInRow s.2 M.eventList.zipIdx g := by
  simp only [state]
  rw [seen_loopBacks, mem_seen_cells]

/-- After a state all its cells are shown. -/
private lemma perm_state :
    (state M W s).shown.Perm (W.shown ++ M.rowCells s M.eventList.zipIdx) := by
  simp only [state]
  rw [shown_loopBacks]
  simpa using perm_cells (V := (W, []))

/-- A list of states keeps the guards right. -/
private lemma GuardsRight.foldl_state (h : GuardsRight M W) :
    GuardsRight M (ss.foldl (ChartWriter.state M) W) := by
  induction ss generalizing W with
  | nil => exact h
  | cons s ss ih => exact ih h.state

/-- A list of states sees the guards of its rows. -/
private lemma mem_seen_foldl_state (g : String) :
    g ∈ (ss.foldl (state M) W).seen ↔
      g ∈ W.seen ∨ ∃ s ∈ ss, M.UsedInRow s.2 M.eventList.zipIdx g := by
  induction ss generalizing W with
  | nil => simp
  | cons s ss ih =>
    rw [List.foldl_cons, ih, mem_seen_state, or_assoc]
    simp

/-- A list of states shows the cells of its rows, in some order. -/
private lemma perm_foldl_state : (ss.foldl (state M) W).shown.Perm
    (W.shown ++ ss.flatMap fun s => M.rowCells s M.eventList.zipIdx) := by
  induction ss generalizing W with
  | nil => simp
  | cons s ss ih =>
    rw [List.foldl_cons, List.flatMap_cons, ← List.append_assoc]
    exact ih.trans (perm_state.append_right _)

end States

end ChartWriter

namespace ChartMachine

variable (M : ChartMachine)

open ChartWriter

/-! ## When the chart is right -/

/-- **The cells of the chart.** It shows the non-empty cells of the matrix, each of them once. -/
theorem perm_cells : M.stateChart.shown.Perm M.nonEmptyCells := by
  have hstart : (start M).shown = [] := by
    simp [start, shown, ChartItem.cells, List.flatMap_map]
  have hrun : M.stateChart.shown.Perm ((start M).shown ++ M.nonEmptyCells) := perm_foldl_state
  rwa [hstart, List.nil_append] at hrun

/-- The guards of a finished chart are right. -/
lemma guardsRight_stateChart : GuardsRight M M.stateChart := (guardsRight_start M).foldl_state

/-- The guards that have been seen are those in the matrix. -/
lemma mem_seen_stateChart (g : String) : g ∈ M.stateChart.seen ↔ M.UsedInMatrix g := by
  rw [stateChart, mem_seen_foldl_state]
  simp [start, UsedInMatrix]

/-- The list of a guard holds the returns that are declared without `when` and `otherwise`. -/
lemma mem_returnsDecl (g s : String) : s ∈ M.returnsDecl g ↔ M.ReturnsPlain g s := by
  obtain ⟨Q, hQ, -⟩ := M.accepted g
  rw [returnsDecl, hQ, Option.map_some, Option.getD_some]
  exact mem_returnsDecl_of_parseDeclarations hQ s

/-- **The arrows from the guards.** -/
theorem mem_transitionOption_iff (g s : String) :
    .transitionOption g s ∈ M.stateChart.chart ↔ M.UsedInMatrix g ∧ M.ReturnsPlain g s := by
  rw [M.guardsRight_stateChart.options, mem_seen_stateChart, mem_returnsDecl]

/-- No error is reported if every guard in the matrix has a return without `when` and `otherwise`.
-/
lemma good_stateChart_iff :
    M.stateChart.good = true ↔ ∀ g, M.UsedInMatrix g → ∃ s, M.ReturnsPlain g s := by
  have hlist : ∀ g, M.returnsDecl g ≠ [] ↔ ∃ s, M.ReturnsPlain g s := by
    intro g
    constructor
    · intro hne
      obtain ⟨s, hs⟩ := List.exists_mem_of_ne_nil _ hne
      exact ⟨s, (M.mem_returnsDecl g s).mp hs⟩
    · rintro ⟨s, hs⟩
      exact List.ne_nil_of_mem ((M.mem_returnsDecl g s).mpr hs)
  rw [M.guardsRight_stateChart.good]
  simp only [mem_seen_stateChart, hlist]

/-! ### Every cell once -/

/-- Different cells are for different states or events. -/
private lemma nodup_nonEmptyCells : (M.nonEmptyCells.map fun c => (c.state, c.event)).Nodup := by
  have hevents : M.eventList.zipIdx.Pairwise fun a b => a.1.name ≠ b.1.name := by
    have h := M.nodup_events
    rw [← List.zipIdx_map_fst 0 M.eventList, List.map_map] at h
    exact List.pairwise_map.mp h
  have hstates : M.stateList.zipIdx.Pairwise fun a b => a.1 ≠ b.1 := by
    have h := M.nodup_states
    rw [← List.zipIdx_map_fst 0 M.stateList] at h
    exact List.pairwise_map.mp h
  refine List.pairwise_map.mpr (List.pairwise_flatMap.mpr ⟨fun s hs => ?_, ?_⟩)
  · refine List.pairwise_filterMap.mpr (hevents.imp fun {a b} hab c hc c' hc' hkey => ?_)
    obtain ⟨pai, -, rfl⟩ := Option.map_eq_some_iff.mp hc
    obtain ⟨pai', -, rfl⟩ := Option.map_eq_some_iff.mp hc'
    exact hab (Prod.mk.inj hkey).2
  · refine hstates.imp fun {a b} hab c hc c' hc' hkey => ?_
    obtain ⟨e, -, hc⟩ := List.mem_filterMap.mp hc
    obtain ⟨e', -, hc'⟩ := List.mem_filterMap.mp hc'
    obtain ⟨pai, -, rfl⟩ := Option.map_eq_some_iff.mp hc
    obtain ⟨pai', -, rfl⟩ := Option.map_eq_some_iff.mp hc'
    exact hab (Prod.mk.inj hkey).1

/-- A cell of the matrix is shown once, with what it holds. -/
private lemma filter_shown {s e : ℕ} {S : String} {E : ChartEvent} {pai : ChartCell}
    (hs : M.stateList[s]? = some S) (he : M.eventList[e]? = some E)
    (hpai : M.actionArray e s = some pai) :
    (M.stateChart.shown.filter fun c => c.state = S ∧ c.event = E.name) = [pai.shown S E] := by
  have hmem : pai.shown S E ∈ M.nonEmptyCells := by
    refine List.mem_flatMap.mpr ⟨(S, s), List.mem_zipIdx_iff_getElem?.mpr hs, ?_⟩
    refine List.mem_filterMap.mpr ⟨(E, e), List.mem_zipIdx_iff_getElem?.mpr he, ?_⟩
    rw [hpai]
    rfl
  have honly := filter_eq_singleton M.nodup_nonEmptyCells hmem
  have hshown := M.perm_cells.filter fun c => decide (c.state = S ∧ c.event = E.name)
  have hkey : (M.nonEmptyCells.filter fun c => c.state = S ∧ c.event = E.name) =
      [pai.shown S E] := by
    rw [← honly]
    refine List.filter_congr fun c _ => ?_
    simp [ChartCell.shown]
  rw [hkey] at hshown
  exact List.perm_singleton.mp hshown

/-! ### The chart -/

/-- **The state chart.** The chart of an accepted machine is right if and only if every guard in the
matrix has a return that is declared without `when` and `otherwise`, and no return that is declared
only with them.

**Proof sketch.** The cells are shown in any case. The arrows from a guard in the matrix are those
to its plain returns; they are the declared returns if the others are among them. -/
theorem chartRight_iff : M.ChartRight ↔ ∀ g, M.UsedInMatrix g →
    (∃ s, M.ReturnsPlain g s) ∧ ∀ s, M.Returns g s → M.ReturnsPlain g s := by
  constructor
  · intro h g hg
    refine ⟨M.good_stateChart_iff.mp h.good g hg, fun s hs => ?_⟩
    exact ((M.mem_transitionOption_iff g s).mp ((h.guards g hg s).mpr hs)).2
  · intro h
    refine ⟨M.good_stateChart_iff.mpr fun g hg => (h g hg).1,
      fun s e S E pai hs he hpai => M.filter_shown hs he hpai, fun g hg s => ?_⟩
    rw [mem_transitionOption_iff]
    constructor
    · rintro ⟨-, d, hd, c, hc, -, hs⟩
      exact ⟨d, hd, c, hc, hs⟩
    · exact fun hs => ⟨hg, (h g hg).2 s hs⟩

end ChartMachine

/-- `g returns s0 when c, s1 otherwise;` for the only guard of a machine. -/
def conditionalReturns : ChartMachine where
  parentName := ""
  eventList := [{ name := "e" }]
  stateList := ["s0", "s1"]
  transitionFnList := ["g"]
  actionArray := fun e s => if e = 0 ∧ s = 0 then some ⟨"", none, some (.guard "g")⟩ else none
  declarations := fun g => if g = "g" then [⟨.when "s0" "c", [.otherwise "s1"]⟩] else []
  nodup_events := by decide
  nodup_states := by decide
  accepted := by
    intro g
    rw [accepts_iff]
    split_ifs
    · simp [ReturnsDeclaration.Mixed, ReturnsDeclaration.choices]
    · simp

/-- The writer reports an error, and no arrow leaves the guard. -/
theorem not_chartRight_conditionalReturns :
    ¬ conditionalReturns.ChartRight ∧ conditionalReturns.stateChart.good = false ∧
      (∀ s, .transitionOption "g" s ∉ conditionalReturns.stateChart.chart) ∧
      ∀ g ∈ conditionalReturns.transitionFnList, conditionalReturns.declarations g ≠ [] := by
  have hgood : conditionalReturns.stateChart.good = false := by decide
  have hchart : conditionalReturns.stateChart.chart = [.stateName "s0", .stateName "s1",
      .guardName "g", .initialState "s0", .transition "s0" { name := "e" } "" "g" none] := by decide
  refine ⟨fun h => ?_, hgood, fun s => by simp [hchart], by decide⟩
  rw [h.good] at hgood
  cases hgood

end FsmLang
