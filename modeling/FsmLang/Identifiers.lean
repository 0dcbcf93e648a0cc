import Mathlib.Data.List.Basic
import Mathlib.Tactic
import FsmLang.CSemantics.KeyedStores
import FsmLang.Qualifiers

set_option relaxedAutoImplicit false
set_option autoImplicit false

/-!
# The types of names

The lexer looks a name up in the identifiers of the machine that is being read. A new name is added
with the type `ID`, and the token has the type that is found. The rules of the grammar ask for tokens
of certain types, and their actions set types: a name that is declared as a state is one from then
on, and where a rule asks for another type there is a syntax error. The name of a machine is looked
up in the list of the machine around it, or of the file.

What the rules do to the identifiers of a machine is a list of occurrences of names, each with its
role, in the order of the text.

## Main definitions

* `IdEntry`, `Role`, `Role.after` — what is known of a name, and what an occurrence makes of it.
* `OwnText.openingOccurrences`, `OwnText.closingOccurrences` — the occurrences before and after the
  sub-machines.
* `readNames` — the identifiers after some occurrences.

## Main results

* `isSome_readNames_iff` — names can be looked at one by one.
* `state_of_uses`, `event_of_uses` — what is used as a state or an event has been declared as one.
* `nodup_of_readNames` — nothing is declared twice.
-/

namespace FsmLang

open CSemantics

/-! ## Roles -/

/-- The types that names are given by the rules. -/
inductive Kind where
  | typeName
  | state
  | event
  | action
  | transitionFn
  | translatorFn
  | entryOrExitFn
  | machine
  | undefinedSIMachine
  | siMachine
  | undefinedTIMachine
  | tiMachine
  deriving DecidableEq, Repr

/-- What a list of identifiers has for a name: nothing, the type `ID`, or a type that a rule has
set. -/
inductive IdEntry where
  | absent
  | id
  | known (k : Kind)
  deriving DecidableEq, Repr

/-- An occurrence of a name in a rule. -/
inductive Role where
  /-- The rule asks for `ID`, and leaves it. -/
  | mention
  /-- The rule asks for `ID` or the type, and leaves it. -/
  | idOr (k : Kind)
  /-- The rule asks for `ID`, and sets the type. -/
  | declares (k : Kind)
  /-- The rule sets the type of a name that it has asked for before. -/
  | becomes (k : Kind)
  /-- The rule asks for the type. -/
  | uses (k : Kind)
  /-- There is a rule for `ID`, which sets the type, and one for the type. -/
  | declaresOrUses (k : Kind)
  /-- The end of a transition: a state, or a function. -/
  | target
  /-- The name of a machine that is defined (`machine_declared_by_id`,
  `machine_declared_by_machine_pid`). -/
  | machineName
  /-- `add_id` with the type: it adds a name that is new, and leaves any other one. -/
  | builtin (k : Kind)
  deriving DecidableEq, Repr

/-- The type of the token: the lexer adds a new name as an `ID`. -/
def IdEntry.lexed : IdEntry → IdEntry
  | .absent => .id
  | t => t

/-- What an occurrence makes of a name; `none` is a syntax error. -/
def Role.after (r : Role) (t : IdEntry) : Option IdEntry :=
  match r with
  | .mention => if t.lexed = .id then some .id else none
  | .idOr k => if t.lexed = .id ∨ t.lexed = .known k then some t.lexed else none
  | .declares k => if t.lexed = .id then some (.known k) else none
  | .becomes k => some (.known k)
  | .uses k => if t.lexed = .known k then some (.known k) else none
  | .declaresOrUses k => if t.lexed = .id ∨ t.lexed = .known k then some (.known k) else none
  | .target =>
    if t.lexed = .id ∨ t.lexed = .known .transitionFn then some (.known .transitionFn)
    else if t.lexed = .known .state then some (.known .state) else none
  | .machineName =>
    match t.lexed with
    | .id => some (.known .machine)
    | .known .undefinedSIMachine => some (.known .siMachine)
    | .known .undefinedTIMachine => some (.known .tiMachine)
    | _ => none
  | .builtin k => some (if t = .absent then .known k else t)

/-- The identifiers of a machine. -/
abbrev IdList := Ident → IdEntry

/-- No identifiers (`init_list`). -/
def IdList.empty : IdList := fun _ => .absent

/-- The identifiers after some occurrences. -/
def readNames (ids : IdList) (l : List (Ident × Role)) : Option IdList := runAt Role.after ids l

/-! ## Occurrences -/

/-- The event that stands for no event. -/
def Ident.noEvent : Ident := .of 'n' ['o', 'E', 'v', 'e', 'n', 't']

/-- The state that stands for no transition. -/
def Ident.noTransition : Ident :=
  .of 'n' ['o', 'T', 'r', 'a', 'n', 's', 'i', 't', 'i', 'o', 'n']

def Dimension.occurrences : Dimension → List (Ident × Role)
  | .empty => []
  | .number _ => []
  | .name x => [(x, .mention)]

/-- The name of a field and its dimension. -/
def declaratorOccurrences (name : Ident) (dimension : Option Dimension) : List (Ident × Role) :=
  (name, .mention) :: dimension.elim [] Dimension.occurrences

mutual

def DataField.occurrences : DataField → List (Ident × Role)
  | .simple type _ name dimension =>
    (type, .declaresOrUses .typeName) :: declaratorOccurrences name dimension
  | .members _ first rest _ name dimension =>
    first.occurrences ++ DataField.listOccurrences rest ++ declaratorOccurrences name dimension

def DataField.listOccurrences : List DataField → List (Ident × Role)
  | [] => []
  | d :: ds => d.occurrences ++ DataField.listOccurrences ds

end

def DataBlock.occurrences (b : DataBlock) : List (Ident × Role) :=
  b.first.occurrences ++ DataField.listOccurrences b.rest

/-- The functions on entry and on exit may be those of several states; a machine implements one. -/
def StateClause.occurrences : StateClause → List (Ident × Role)
  | .inhibitsSubMachines => []
  | .implementedBy machine => [(machine, .declares .undefinedSIMachine)]
  | .onEntry fn => fn.elim [] fun x => [(x, .declaresOrUses .entryOrExitFn)]
  | .onExit fn => fn.elim [] fun x => [(x, .declaresOrUses .entryOrExitFn)]

def StateText.occurrences (s : StateText) : List (Ident × Role) :=
  (s.name, .declares .state) :: s.clauses.flatMap StateClause.occurrences

def TranslatorText.occurrences (t : TranslatorText) : List (Ident × Role) :=
  (t.name, .declares .translatorFn) ::
    t.implementedBy.map fun m => (m, .declares .undefinedTIMachine)

def UserEventData.occurrences : UserEventData → List (Ident × Role)
  | .none => []
  | .translator fn b => fn.occurrences ++ b.elim [] DataBlock.occurrences
  | .block b => b.occurrences

/-- The rule sets the type after all parts of the event. -/
def EventText.occurrences (e : EventText) : List (Ident × Role) :=
  (e.name, .mention) :: ((e.externalDesignation.elim [] fun x => [(x, .mention)]) ++
    e.userEventData.occurrences ++ [(e.name, .becomes .event)])

def DeclText.occurrences : DeclText → List (Ident × Role)
  | .states first rest => (first :: rest).flatMap StateText.occurrences
  | .events first rest => (first :: rest).flatMap EventText.occurrences

/-- The names in a vector. -/
def vectorNames : EventVector Ident → List Ident
  | .all => []
  | .scalar x => [x]
  | .vector first rest last => first :: rest ++ [last]

def MatrixText.occurrences (m : MatrixText) : List (Ident × Role) :=
  (vectorNames m.events).map (fun x => (x, .uses .event)) ++
    (vectorNames m.states).map fun x => (x, .uses .state)

/-- A guard is a function. -/
def TransitionText.occurrence (t : TransitionText) : Ident × Role :=
  (t.name, if t.isGuard then .declaresOrUses .transitionFn else .target)

/-- The name of an action is read before its matrix, and its type is set after it. -/
def ActionText.occurrences (a : ActionText) : List (Ident × Role) :=
  (a.name, .idOr .action) :: (a.matrix.occurrences ++ (a.name, .declaresOrUses .action) ::
    a.transition.elim [] fun t => [t.occurrence])

def StatementText.occurrences : StatementText → List (Ident × Role)
  | .actions first rest => (first :: rest).flatMap ActionText.occurrences
  | .transition _ matrix t => matrix.occurrences ++ [t.occurrence]

/-- Where events are returned, `noEvent` is added. -/
def QualifierText.occurrences : QualifierText → List (Ident × Role)
  | .onTransition fn => [(fn, .mention)]
  | .actionsReturn what => if what = .events then [(.noEvent, .builtin .event)] else []
  | .translatorsReturn events => if events then [(.noEvent, .builtin .event)] else []
  | .nativeImpl _ => []

/-- The occurrences before the sub-machines. `noEvent` and `noTransition` are added after the
qualifiers (`capture_machine_qualifier`). -/
def OwnText.openingOccurrences (o : OwnText) : List (Ident × Role) :=
  o.qualifiers.flatMap QualifierText.occurrences ++
    ((if o.actionsReturn = .events then [(.noEvent, .builtin .event)] else []) ++
      (.noTransition, .builtin .state) ::
        (o.data.elim [] DataBlock.occurrences ++ o.decls.flatMap DeclText.occurrences))

/-- The occurrences after the sub-machines. -/
def OwnText.closingOccurrences (o : OwnText) : List (Ident × Role) :=
  o.statements.flatMap StatementText.occurrences

/-! ## Declared names -/

/-- The name that a declaration of a state or an event is about. -/
def memberName : StateText ⊕ EventText → Ident := Sum.elim StateText.name EventText.name

/-- The occurrences in a declaration of one state or event. -/
def memberOccurrences : StateText ⊕ EventText → List (Ident × Role) :=
  Sum.elim StateText.occurrences EventText.occurrences

/-- The states and events of a declaration. -/
def DeclText.members : DeclText → List (StateText ⊕ EventText)
  | .states first rest => (first :: rest).map .inl
  | .events first rest => (first :: rest).map .inr

/-- The states of a declaration. -/
def DeclText.stateTexts : DeclText → List StateText
  | .states first rest => first :: rest
  | .events _ _ => []

/-- The events of a declaration. -/
def DeclText.eventTexts : DeclText → List EventText
  | .states _ _ => []
  | .events first rest => first :: rest

/-- The states of a machine, in the order of their declaration. -/
def OwnText.states (o : OwnText) : List StateText := o.decls.flatMap DeclText.stateTexts

/-- The events of a machine, in the order of their declaration. -/
def OwnText.events (o : OwnText) : List EventText := o.decls.flatMap DeclText.eventTexts

/-- The names in a declaration are those of its members. -/
private lemma DeclText.occurrences_eq (d : DeclText) :
    d.occurrences = d.members.flatMap memberOccurrences := by
  cases d <;> simp only [occurrences, members, List.flatMap_map] <;> rfl

/-- The names in declarations are those of their members. -/
lemma flatMap_occurrences_eq (ds : List DeclText) :
    ds.flatMap DeclText.occurrences = (ds.flatMap DeclText.members).flatMap memberOccurrences := by
  rw [List.flatMap_assoc]
  exact List.flatMap_congr fun d _ => d.occurrences_eq

/-! ## What names are -/

/-- No rule has set the type of the name. -/
def IdEntry.IsFree (t : IdEntry) : Prop := ∀ k, t ≠ .known k

/-- A type that has been set is never taken back. -/
private lemma Role.not_isFree_after {r : Role} {t t' : IdEntry} (h : r.after t = some t')
    (ht : ¬ t.IsFree) : ¬ t'.IsFree := by
  simp only [IdEntry.IsFree, not_forall, not_not] at ht ⊢
  obtain ⟨k, rfl⟩ := ht
  cases r <;> simp only [Role.after, IdEntry.lexed] at h <;> grind

/-- A name that is only mentioned is new. -/
private lemma Role.isFree_of_mention {t t' : IdEntry} (h : Role.mention.after t = some t') :
    t.IsFree := by
  rintro k rfl
  simp [Role.after, IdEntry.lexed] at h

/-- A name that is declared is new. -/
private lemma Role.isFree_of_declares {k : Kind} {t t' : IdEntry}
    (h : (Role.declares k).after t = some t') : t.IsFree := by
  rintro k rfl
  simp [Role.after, IdEntry.lexed] at h

/-- A name that becomes something is not new afterwards. -/
private lemma Role.not_isFree_of_becomes {k : Kind} {t t' : IdEntry}
    (h : (Role.becomes k).after t = some t') : ¬ t'.IsFree := by
  obtain rfl : .known k = t' := Option.some.inj h
  exact fun hfree => hfree k rfl

/-- A name that is declared is not new afterwards. -/
private lemma Role.not_isFree_of_declares {k : Kind} {t t' : IdEntry}
    (h : (Role.declares k).after t = some t') : ¬ t'.IsFree := by
  simp only [Role.after] at h
  split_ifs at h
  obtain rfl : .known k = t' := Option.some.inj h
  exact fun hfree => hfree k rfl

/-- **Nothing is declared twice**: the names of states and events are different. -/
lemma nodup_memberNames {ids ids' : IdList} {ds : List DeclText}
    (h : readNames ids (ds.flatMap DeclText.occurrences) = some ids') :
    ((ds.flatMap DeclText.members).map memberName).Nodup := by
  rw [readNames, flatMap_occurrences_eq] at h
  refine nodup_of_runAt h ?_ ?_ fun r t t' => Role.not_isFree_after
  · rintro (s | e)
    · exact ⟨.declares .state, List.mem_cons_self, fun _ _ => Role.isFree_of_declares⟩
    · exact ⟨.mention, List.mem_cons_self, fun _ _ => Role.isFree_of_mention⟩
  · rintro (s | e)
    · exact ⟨.declares .state, List.mem_cons_self, fun _ _ => Role.not_isFree_of_declares⟩
    · refine ⟨.becomes .event, ?_, fun _ _ => Role.not_isFree_of_becomes⟩
      simp [memberOccurrences, memberName, EventText.occurrences]

/-- The names of a machine's states. -/
def OwnText.stateNames (o : OwnText) : List Ident := o.states.map StateText.name

/-- The names of a machine's events. -/
def OwnText.eventNames (o : OwnText) : List Ident := o.events.map EventText.name

/-- The names of the states and those of the events are among the names of the members. -/
private lemma sublist_memberNames (l : List (StateText ⊕ EventText)) :
    ((l.filterMap Sum.getLeft?).map StateText.name).Sublist (l.map memberName) ∧
      ((l.filterMap Sum.getRight?).map EventText.name).Sublist (l.map memberName) := by
  induction l with
  | nil => simp
  | cons m l ih =>
    obtain ⟨hstates, hevents⟩ := ih
    cases m with
    | inl s => exact ⟨hstates.cons_cons _, hevents.cons _⟩
    | inr e => exact ⟨hstates.cons _, hevents.cons_cons _⟩

/-- The states of a machine are those among the members of its declarations. -/
lemma OwnText.states_eq (o : OwnText) :
    o.states = (o.decls.flatMap DeclText.members).filterMap Sum.getLeft? := by
  rw [OwnText.states, List.filterMap_flatMap]
  refine List.flatMap_congr fun d _ => ?_
  cases d <;> simp [DeclText.stateTexts, DeclText.members, List.filterMap_map, Function.comp_def]

/-- The events of a machine are those among the members of its declarations. -/
lemma OwnText.events_eq (o : OwnText) :
    o.events = (o.decls.flatMap DeclText.members).filterMap Sum.getRight? := by
  rw [OwnText.events, List.filterMap_flatMap]
  refine List.flatMap_congr fun d _ => ?_
  cases d <;> simp [DeclText.eventTexts, DeclText.members, List.filterMap_map, Function.comp_def]

/-! ## Machines -/

/-- The occurrences of names in the list of a machine's identifiers. Of a sub-machine there is only
its name in it. -/
def MachineText.occurrences (m : MachineText) : List (Ident × Role) :=
  m.own.openingOccurrences ++ (m.machines.map fun c => (c.own.name, .machineName)) ++
    m.own.closingOccurrences

/-- The role makes a name one of a state or of an event. -/
def Role.givesMember : Role → Bool
  | .declares k => k = .state ∨ k = .event
  | .becomes k => k = .state ∨ k = .event
  | .declaresOrUses k => k = .state ∨ k = .event
  | .builtin k => k = .state ∨ k = .event
  | _ => false

/-- None of the occurrences makes a name one of a state or of an event. -/
def Neutral (l : List (Ident × Role)) : Prop := ∀ o ∈ l, o.2.givesMember = false

/-- No names give no members. -/
@[simp] lemma neutral_nil : Neutral [] := by
  simp [Neutral]

/-- Names that give no members, one at a time. -/
@[simp] lemma neutral_cons {o : Ident × Role} {l : List (Ident × Role)} :
    Neutral (o :: l) ↔ o.2.givesMember = false ∧ Neutral l := by
  simp [Neutral]

/-- Names that give no members behind others. -/
@[simp] lemma neutral_append {l l' : List (Ident × Role)} :
    Neutral (l ++ l') ↔ Neutral l ∧ Neutral l' := by
  simp only [Neutral, List.forall_mem_append]

/-- The names of the parts give no members if those of each part do not. -/
lemma neutral_flatMap {α : Type*} {l : List α} {f : α → List (Ident × Role)}
    (h : ∀ a ∈ l, Neutral (f a)) : Neutral (l.flatMap f) := by
  intro o ho
  obtain ⟨a, ha, hoa⟩ := List.mem_flatMap.mp ho
  exact h a ha o hoa

/-- The same where each part has one name. -/
lemma neutral_map {α : Type*} {l : List α} {f : α → Ident × Role}
    (h : ∀ a, (f a).2.givesMember = false) : Neutral (l.map f) := by
  intro o ho
  obtain ⟨a, -, rfl⟩ := List.mem_map.mp ho
  exact h a

/-- A declarator gives no members. -/
lemma neutral_declarator (x : Ident) (d : Option Dimension) :
    Neutral (declaratorOccurrences x d) := by
  rcases d with _ | _ | d | y <;>
    simp [declaratorOccurrences, Dimension.occurrences, Role.givesMember]

/-- A data field gives no members. -/
lemma DataField.neutral (d : DataField) : Neutral d.occurrences := by
  induction d using DataField.induct with
  | simple type i x dim =>
    simp [DataField.occurrences, neutral_declarator, Role.givesMember]
  | members isUnion f fs i x dim hf hfs =>
    have hall : Neutral (DataField.listOccurrences fs) := by
      clear hf
      induction fs with
      | nil => simp [DataField.listOccurrences]
      | cons d ds ih =>
        rw [List.forall_mem_cons] at hfs
        simp [DataField.listOccurrences, hfs.1, ih hfs.2]
    simp [DataField.occurrences, neutral_declarator, hf, hall]

/-- A data block gives no members. -/
lemma DataBlock.neutral (b : DataBlock) : Neutral b.occurrences := by
  have hall : ∀ ds : List DataField, Neutral (DataField.listOccurrences ds) := by
    intro ds
    induction ds with
    | nil => simp [DataField.listOccurrences]
    | cons d ds ih => simp [DataField.listOccurrences, d.neutral, ih]
  simp [DataBlock.occurrences, b.first.neutral, hall]

/-- A clause gives no members. -/
lemma StateClause.neutral (c : StateClause) : Neutral c.occurrences := by
  rcases c with _ | m | (_ | fn) | (_ | fn) <;> simp [StateClause.occurrences, Role.givesMember]

/-- The data of an event give no members. -/
lemma UserEventData.neutral (u : UserEventData) : Neutral u.occurrences := by
  have hfn : ∀ fn : TranslatorText, Neutral fn.occurrences := fun fn => by
    simp [TranslatorText.occurrences, neutral_map, Role.givesMember]
  cases u with
  | none => simp [UserEventData.occurrences]
  | translator fn b => cases b <;> simp [UserEventData.occurrences, hfn, DataBlock.neutral]
  | block b => exact b.neutral

/-- A matrix gives no members. -/
lemma MatrixText.neutral (m : MatrixText) : Neutral m.occurrences :=
  neutral_append.mpr ⟨neutral_map fun _ => rfl, neutral_map fun _ => rfl⟩

/-- A transition gives no member. -/
lemma TransitionText.neutral (t : TransitionText) : t.occurrence.2.givesMember = false := by
  cases h : t.isGuard <;> simp [TransitionText.occurrence, h, Role.givesMember]

/-- An action gives no members. -/
lemma ActionText.neutral (a : ActionText) : Neutral a.occurrences := by
  have htransition : Neutral (a.transition.elim [] fun t => [t.occurrence]) := by
    cases a.transition with
    | none => exact neutral_nil
    | some t => exact neutral_cons.mpr ⟨t.neutral, neutral_nil⟩
  exact neutral_cons.mpr ⟨rfl, neutral_append.mpr ⟨a.matrix.neutral,
    neutral_cons.mpr ⟨rfl, htransition⟩⟩⟩

/-- A statement gives no members. -/
lemma StatementText.neutral (s : StatementText) : Neutral s.occurrences := by
  cases s with
  | actions first rest => exact neutral_flatMap fun a _ => a.neutral
  | transition _ m t => simp [StatementText.occurrences, MatrixText.neutral, TransitionText.neutral]

/-- A declaration of a state or an event. -/
private lemma mem_memberOccurrences {m : StateText ⊕ EventText} {o : Ident × Role}
    (ho : o ∈ memberOccurrences m) (h : o.2.givesMember = true) :
    (∃ s, m = .inl s ∧ o = (s.name, .declares .state)) ∨
      ∃ e, m = .inr e ∧ o = (e.name, .becomes .event) := by
  cases m with
  | inl s =>
    refine .inl ⟨s, rfl, ?_⟩
    rcases List.mem_cons.mp ho with rfl | hclauses
    · rfl
    · have hno := neutral_flatMap (fun c _ => StateClause.neutral c) o hclauses
      rw [hno] at h
      cases h
  | inr e =>
    refine .inr ⟨e, rfl, ?_⟩
    have hneutral : Neutral ((e.name, Role.mention) ::
        ((e.externalDesignation.elim [] fun x => [(x, .mention)]) ++
          e.userEventData.occurrences)) := by
      cases hext : e.externalDesignation <;> simp [UserEventData.neutral, Role.givesMember]
    have hsplit : memberOccurrences (.inr e) = ((e.name, Role.mention) ::
        ((e.externalDesignation.elim [] fun x => [(x, .mention)]) ++
          e.userEventData.occurrences)) ++ [(e.name, .becomes .event)] := by
      simp [memberOccurrences, EventText.occurrences]
    rw [hsplit, List.mem_append] at ho
    rcases ho with ho | ho
    · rw [hneutral o ho] at h
      cases h
    · simpa using ho

/-- The only member a qualifier gives is `noEvent`. -/
private lemma QualifierText.mem_occurrences {q : QualifierText} {o : Ident × Role}
    (ho : o ∈ q.occurrences)
    (h : o.2.givesMember = true) : o = (.noEvent, .builtin .event) := by
  rcases q with fn | (_ | _ | _) | (_ | _) | n <;>
    simp_all [QualifierText.occurrences, Role.givesMember]

/-- **Where states and events come from**: from their declarations, and from what the parser adds
itself. -/
lemma mem_occurrences_givesMember {m : MachineText} {o : Ident × Role} (ho : o ∈ m.occurrences)
    (h : o.2.givesMember = true) :
    (o.1 ∈ m.own.stateNames ∧ o.2 = .declares .state) ∨
      (o.1 ∈ m.own.eventNames ∧ o.2 = .becomes .event) ∨
      o = (.noEvent, .builtin .event) ∨ o = (.noTransition, .builtin .state) := by
  have hno : ∀ {l : List (Ident × Role)}, Neutral l → o ∉ l := fun hl hmem => by
    rw [hl o hmem] at h
    cases h
  simp only [MachineText.occurrences, OwnText.openingOccurrences, OwnText.closingOccurrences,
    List.mem_append, List.mem_cons] at ho
  rcases ho with ((hqual | hevent | rfl | hdata | hdecl) | hmachine) | hstatement
  · obtain ⟨q, -, hq⟩ := List.mem_flatMap.mp hqual
    exact .inr (.inr (.inl (q.mem_occurrences hq h)))
  · split_ifs at hevent
    · exact .inr (.inr (.inl (List.mem_singleton.mp hevent)))
    · cases hevent
  · exact .inr (.inr (.inr rfl))
  · cases hd : m.own.data with
    | none =>
      rw [hd] at hdata
      cases hdata
    | some b =>
      rw [hd] at hdata
      exact absurd hdata (hno b.neutral)
  · rw [flatMap_occurrences_eq] at hdecl
    obtain ⟨mem, hmem, ho⟩ := List.mem_flatMap.mp hdecl
    rcases mem_memberOccurrences ho h with ⟨s, rfl, rfl⟩ | ⟨e, rfl, rfl⟩
    · refine .inl ⟨?_, rfl⟩
      rw [OwnText.stateNames, m.own.states_eq]
      exact List.mem_map_of_mem (List.mem_filterMap.mpr ⟨_, hmem, rfl⟩)
    · refine .inr (.inl ⟨?_, rfl⟩)
      rw [OwnText.eventNames, m.own.events_eq]
      exact List.mem_map_of_mem (List.mem_filterMap.mpr ⟨_, hmem, rfl⟩)
  · exact absurd hmachine (hno (neutral_map fun _ => rfl))
  · exact absurd hstatement (hno (neutral_flatMap fun s _ => s.neutral))

/-- The roles that make a name one of a state or of an event. -/
lemma Role.gives_of_after {r : Role} {k : Kind} (hk : k = .state ∨ k = .event) {t t' : IdEntry}
    (ht : t ≠ .known k) (h : r.after t = some t') (ht' : t' = .known k) :
    r = .declares k ∨ r = .becomes k ∨ r = .declaresOrUses k ∨ r = .builtin k := by
  subst ht'
  cases r <;> simp only [Role.after] at h <;> rcases hk with rfl | rfl <;> grind [IdEntry.lexed]

/-- A name that is used is known as what it is used for. -/
lemma Role.known_of_uses {k : Kind} {t t' : IdEntry} (h : (Role.uses k).after t = some t') :
    t = .known k := by
  simp only [Role.after] at h
  split_ifs at h with ht
  cases t with
  | absent => simp [IdEntry.lexed] at ht
  | id => simp [IdEntry.lexed] at ht
  | known k' => exact ht

section Machine

variable {m : MachineText} {ids : IdList} {x : Ident}

/-- What makes a name one of a state. -/
lemma state_of_given (h : ∃ r, (x, r) ∈ m.occurrences ∧ ∃ t t', ¬ t = .known .state ∧
    Role.after r t = some t' ∧ t' = .known .state) :
    x ∈ m.own.stateNames ∨ x = .noTransition := by
  obtain ⟨r, hmem, t, t', ht, hafter, ht'⟩ := h
  have hgives := Role.gives_of_after (.inl rfl) ht hafter ht'
  have hmember : r.givesMember = true := by
    rcases hgives with rfl | rfl | rfl | rfl <;> rfl
  rcases mem_occurrences_givesMember hmem hmember with ⟨hx, -⟩ | ⟨-, hr⟩ | hr | hr
  · exact .inl hx
  · simp [show r = .becomes .event from hr] at hgives
  · simp [(Prod.mk.inj hr).2] at hgives
  · exact .inr (Prod.mk.inj hr).1

/-- What makes a name one of an event. -/
private lemma event_of_given (h : ∃ r, (x, r) ∈ m.occurrences ∧ ∃ t t', ¬ t = .known .event ∧
    Role.after r t = some t' ∧ t' = .known .event) :
    x ∈ m.own.eventNames ∨ x = .noEvent := by
  obtain ⟨r, hmem, t, t', ht, hafter, ht'⟩ := h
  have hgives := Role.gives_of_after (.inr rfl) ht hafter ht'
  have hmember : r.givesMember = true := by
    rcases hgives with rfl | rfl | rfl | rfl <;> rfl
  rcases mem_occurrences_givesMember hmem hmember with ⟨-, hr⟩ | ⟨hx, -⟩ | hr | hr
  · simp [show r = .declares .state from hr] at hgives
  · exact .inl hx
  · exact .inr (Prod.mk.inj hr).1
  · simp [(Prod.mk.inj hr).2] at hgives

/-- A name that is used as a state is declared as one, or `noTransition`. -/
theorem state_of_uses (h : readNames .empty m.occurrences = some ids)
    (hx : (x, .uses .state) ∈ m.occurrences) : x ∈ m.own.stateNames ∨ x = .noTransition := by
  exact state_of_given (exists_giver_of_runAt h hx (fun t t' => Role.known_of_uses)
    (by simp [IdList.empty]))

/-- A name that is used as an event is declared as one, or `noEvent`. -/
theorem event_of_uses (h : readNames .empty m.occurrences = some ids)
    (hx : (x, .uses .event) ∈ m.occurrences) : x ∈ m.own.eventNames ∨ x = .noEvent := by
  exact event_of_given (exists_giver_of_runAt h hx (fun t t' => Role.known_of_uses)
    (by simp [IdList.empty]))

/-- A name that has the type of states is declared as one, or `noTransition`. -/
theorem state_of_known (h : readNames .empty m.occurrences = some ids)
    (hx : ids x = .known .state) : x ∈ m.own.stateNames ∨ x = .noTransition :=
  state_of_given
    (exists_giver_of_result (P := fun t => t = .known .state) h (by simp [IdList.empty]) hx)

/-- The states of a machine that is read are different, and so are its events. -/
theorem nodup_of_readNames (h : readNames .empty m.occurrences = some ids) :
    m.own.stateNames.Nodup ∧ m.own.eventNames.Nodup := by
  obtain ⟨l₁, l₃, hsplit⟩ : ∃ l₁ l₃, m.occurrences =
      l₁ ++ m.own.decls.flatMap DeclText.occurrences ++ l₃ := by
    refine ⟨m.own.qualifiers.flatMap QualifierText.occurrences ++
      ((if m.own.actionsReturn = .events then [(.noEvent, .builtin .event)] else []) ++
        (.noTransition, .builtin .state) :: m.own.data.elim [] DataBlock.occurrences),
      (m.machines.map fun c => (c.own.name, .machineName)) ++ m.own.closingOccurrences, ?_⟩
    simp [MachineText.occurrences, OwnText.openingOccurrences]
  rw [readNames, hsplit] at h
  obtain ⟨ids₁, ids₂, hdecls⟩ := exists_part_of_runAt h
  have hnodup := nodup_memberNames hdecls
  obtain ⟨hstates, hevents⟩ := sublist_memberNames (m.own.decls.flatMap DeclText.members)
  rw [OwnText.stateNames, OwnText.eventNames, m.own.states_eq, m.own.events_eq]
  exact ⟨hnodup.sublist hstates, hnodup.sublist hevents⟩

end Machine

/-- **Names one by one.** The names of a machine are read if and only if each name alone is. -/
theorem isSome_readNames_iff (ids : IdList) (l : List (Ident × Role)) :
    (readNames ids l).isSome ↔ ∀ x, (runOps Role.after (ids x) (opsAt x l)).isSome :=
  isSome_runAt_iff

end FsmLang
