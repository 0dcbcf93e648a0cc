import Mathlib.Data.List.Basic
import Mathlib.Data.List.Induction
import Mathlib.Data.List.Nodup
import Mathlib.Tactic
import FsmLang.ActionArray
import FsmLang.ReturnDeclarations

set_option relaxedAutoImplicit false
set_option autoImplicit false

/-!
# Returns declared in several statements

What an action or a transition function returns may be declared in one statement or in several:
`a returns x, y;` or `a returns x; a returns y;`. Each statement makes the function's list if it
is not there and adds the members that are new.

The grammar has separate branches for one member and for several, and for events and states. The
branch for an action with one state appends the state before it makes the list, and does so
without looking for it.

## Main definitions

* `PlainStatement` — a statement without `when` and `otherwise`.
* `actionReturnDecl` — the branches for an action.
* `returnList` — what the statements for a function leave.
* `SplitRight` — several statements do what one does.

## Main results

* `actionReturnDecl_run` — what the statements for an action leave.
* `splitRight_iff` — when several statements do what one does.
-/

namespace FsmLang

/-! ## What is written -/

/-- A returns statement without `when` and `otherwise`: the comma list, empty when there is only
one member, and the last member. -/
structure PlainStatement (ι : Type*) where
  commaList : List ι
  last : ι
  deriving DecidableEq, Repr

/-- All members of a statement. -/
def PlainStatement.members {ι : Type*} (st : PlainStatement ι) : List ι :=
  st.commaList ++ [st.last]

/-- The members of two statements in one. -/
def PlainStatement.join {ι : Type*} (st st' : PlainStatement ι) : PlainStatement ι :=
  ⟨st.members ++ st'.commaList, st'.last⟩

/-- A statement for a transition function. -/
def PlainStatement.toDeclaration {σ : Type*} (st : PlainStatement σ) : ReturnsDeclaration σ :=
  match st.commaList with
  | [] => ⟨.plain st.last, []⟩
  | s :: ss => ⟨.plain s, (ss ++ [st.last]).map .plain⟩

/-- What is declared to return something. The transition functions known before are of interest to
the parser only. -/
inductive Returning where
  | actionOfEvents
  | actionOfStates
  | transitionFn (transitionFns : List String)
  deriving DecidableEq, Repr

/-! ## What the parser does -/

section Parser

variable {ι : Type*} [DecidableEq ι]

/-- The return list of an action, `none` before it is made, and the parser's flag `good`, which
`yyerror` clears. -/
structure ActionReturns (ι : Type*) where
  returnsDecl : Option (List ι)
  good : Bool
  deriving DecidableEq, Repr

omit [DecidableEq ι] in
/-- Nothing declared, no error. -/
def ActionReturns.start : ActionReturns ι := ⟨none, true⟩

omit [DecidableEq ι] in
/-- Make the list, unless it is there. -/
def ActionReturns.initList (R : ActionReturns ι) : ActionReturns ι :=
  { R with returnsDecl := some (R.returnsDecl.getD []) }

omit [DecidableEq ι] in
/-- `add_to_list`, followed by `yyerror` if there is no list. -/
def ActionReturns.addToList (R : ActionReturns ι) (a : ι) : ActionReturns ι :=
  match R.returnsDecl with
  | none => { R with good := false }
  | some l => { R with returnsDecl := some (l ++ [a]) }

/-- `move_list_unique`, into a list that is there. -/
def ActionReturns.moveListUnique (R : ActionReturns ι) (l : List ι) : ActionReturns ι :=
  { R with returnsDecl := R.returnsDecl.map (l.foldl addUniqueToList) }

/-- One statement for an action. Several events, several states and one event are added to the list
made before; one state is appended first. -/
def actionReturnDecl (ofStates : Bool) (R : ActionReturns ι) (st : PlainStatement ι) :
    ActionReturns ι :=
  match st.commaList, ofStates with
  | [], true => ((R.addToList st.last).initList).moveListUnique [st.last]
  | [], false => R.initList.moveListUnique [st.last]
  | a :: as, _ => R.initList.moveListUnique (a :: as ++ [st.last])

/-- What the statements for an action leave, when there is no error. -/
def actionReturnList (ofStates : Bool) (sts : List (PlainStatement ι)) : Option (List ι) :=
  let R := sts.foldl (actionReturnDecl ofStates) .start
  if R.good then R.returnsDecl else none

/-- The return list after a sequence of statements; `none` when the parser reports an error. -/
def returnList (f : Returning) (sts : List (PlainStatement ι)) : Option (List ι) :=
  match f with
  | .actionOfEvents => actionReturnList false sts
  | .actionOfStates => actionReturnList true sts
  | .transitionFn transitionFns =>
    (parseDeclarations (.start transitionFns) (sts.map PlainStatement.toDeclaration)).bind fun Q =>
      if Q.state = .statement then some Q.returnsDecl else none

/-- Several statements are accepted and give the list that one with all their members gives, in
which no member is repeated. -/
def SplitRight (f : Returning) (st : PlainStatement ι) (sts : List (PlainStatement ι)) : Prop :=
  ∃ l, returnList f (st :: sts) = some l ∧ returnList f [sts.foldl .join st] = some l ∧ l.Nodup ∧
    ∀ a, a ∈ l ↔ a ∈ (st :: sts).flatMap PlainStatement.members

/-! ## One statement instead of several -/

omit [DecidableEq ι] in
/-- A joined statement has the members of all. -/
lemma members_foldl_join (st : PlainStatement ι) (sts : List (PlainStatement ι)) :
    (sts.foldl .join st).members = (st :: sts).flatMap PlainStatement.members := by
  induction sts generalizing st with
  | nil => simp
  | cons st' sts ih =>
    rw [List.foldl_cons, ih]
    simp [PlainStatement.join, PlainStatement.members]

omit [DecidableEq ι] in
/-- A statement joined from several has more than one member. -/
private lemma commaList_foldl_join_ne_nil (st : PlainStatement ι) {sts : List (PlainStatement ι)}
    (hsts : sts ≠ []) : (sts.foldl .join st).commaList ≠ [] := by
  induction sts using List.reverseRecOn with
  | nil => exact absurd rfl hsts
  | append_singleton sts st' _ =>
    rw [List.foldl_append]
    simp [PlainStatement.join, PlainStatement.members]

/-- The list of members without repetition. -/
def distinctMembers (sts : List (PlainStatement ι)) : List ι :=
  (sts.flatMap PlainStatement.members).foldl addUniqueToList []

/-- The members of a further statement are added to those of the statements before. -/
private lemma distinctMembers_append (sts : List (PlainStatement ι)) (st : PlainStatement ι) :
    distinctMembers (sts ++ [st]) = st.members.foldl addUniqueToList (distinctMembers sts) := by
  simp [distinctMembers]

/-- A joined statement has the members of all statements. -/
private lemma distinctMembers_join (st : PlainStatement ι) (sts : List (PlainStatement ι)) :
    distinctMembers [sts.foldl .join st] = distinctMembers (st :: sts) := by
  unfold distinctMembers
  rw [← members_foldl_join st sts, ← members_foldl_join (sts.foldl .join st) [], List.foldl_nil]

/-- No member is listed twice. -/
private lemma nodup_distinctMembers (sts : List (PlainStatement ι)) : (distinctMembers sts).Nodup :=
  nodup_foldl_addUniqueToList List.nodup_nil

/-- All members are listed. -/
lemma mem_distinctMembers (sts : List (PlainStatement ι)) (a : ι) :
    a ∈ distinctMembers sts ↔ a ∈ sts.flatMap PlainStatement.members := by
  rw [distinctMembers, mem_foldl_addUniqueToList]
  simp

/-! ## Statements for a transition function -/

omit [DecidableEq ι] in
/-- The choices of the statement as a declaration are its members. -/
lemma choices_toDeclaration (st : PlainStatement ι) :
    st.toDeclaration.choices = st.members.map .plain := by
  obtain ⟨_ | ⟨s, ss⟩, last⟩ := st <;>
    simp [PlainStatement.toDeclaration, PlainStatement.members, ReturnsDeclaration.choices]

omit [DecidableEq ι] in
/-- A plain statement is no mixed declaration. -/
private lemma not_mixed_toDeclaration (st : PlainStatement ι) : ¬ st.toDeclaration.Mixed := by
  rintro ⟨-, c, hc, hannotated⟩
  rw [choices_toDeclaration] at hc
  obtain ⟨s, -, rfl⟩ := List.mem_map.mp hc
  simp at hannotated

/-- What the parser does with a statement. -/
private lemma declare_toDeclaration (P : ReturnsParser ι) (st : PlainStatement ι) :
    declare P st.toDeclaration =
      { P with returnsDecl := st.members.foldl addUniqueToList P.returnsDecl } := by
  have hfirst : st.toDeclaration.first.annotated = false := by
    obtain ⟨_ | ⟨s, ss⟩, last⟩ := st <;> rfl
  have hstates : st.toDeclaration.choices.map Choice.state = st.members := by
    rw [choices_toDeclaration, List.map_map]
    exact List.map_id _
  rw [declare, hfirst, if_neg (by simp), hstates]

/-- What the parser does with several statements. -/
private lemma foldl_declare_toDeclaration (P : ReturnsParser ι) (sts : List (PlainStatement ι)) :
    (sts.map PlainStatement.toDeclaration).foldl declare P =
      { P with
        returnsDecl := (sts.flatMap PlainStatement.members).foldl addUniqueToList P.returnsDecl } := by
  induction sts generalizing P with
  | nil => rfl
  | cons st sts ih =>
    rw [List.map_cons, List.foldl_cons, declare_toDeclaration, ih, List.flatMap_cons,
      List.foldl_append]

/-- A transition function gets all members, however the statements are split. -/
lemma returnList_transitionFn (transitionFns : List String) (sts : List (PlainStatement ι)) :
    returnList (.transitionFn transitionFns) sts = some (distinctMembers sts) := by
  have hmixed : ∀ d ∈ sts.map PlainStatement.toDeclaration, ¬ d.Mixed := by
    intro d hd
    obtain ⟨st, -, rfl⟩ := List.mem_map.mp hd
    exact not_mixed_toDeclaration st
  simp only [returnList]
  rw [parseDeclarations_eq (.start transitionFns) rfl _ hmixed, foldl_declare_toDeclaration]
  rfl

/-! ## Statements for an action -/

/-- A statement that does what it should after the statements before it: it has several members, or
its only member is not a state, or it is neither the first statement nor repeats a member. -/
def Harmless (ofStates : Bool) (sts : List (PlainStatement ι)) (st : PlainStatement ι) : Prop :=
  ofStates = true → st.commaList = [] → sts ≠ [] ∧ st.last ∉ sts.flatMap PlainStatement.members

/-- All statements do what they should: the list holds each member once. -/
structure Listed (sts : List (PlainStatement ι)) (R : ActionReturns ι) : Prop where
  returnsDecl : R.returnsDecl = if sts = [] then none else some (distinctMembers sts)
  good : R.good = true

/-- An error has been reported, or some member is repeated. -/
def Spoilt (R : ActionReturns ι) : Prop := R.good = true → ¬ (R.returnsDecl.getD []).Nodup

/-- A harmless statement adds its members. -/
lemma Listed.actionReturnDecl {ofStates : Bool} {sts : List (PlainStatement ι)}
    {R : ActionReturns ι} (h : Listed sts R) {st : PlainStatement ι}
    (hst : Harmless ofStates sts st) :
    Listed (sts ++ [st]) (actionReturnDecl ofStates R st) := by
  obtain ⟨commaList, last⟩ := st
  have hinit : R.initList.returnsDecl = some (distinctMembers sts) := by
    simp only [ActionReturns.initList, h.returnsDecl]
    split_ifs with hsts
    · rw [hsts]
      rfl
    · rfl
  refine ⟨?_, ?_⟩
  · rw [if_neg (by simp), distinctMembers_append]
    match commaList, ofStates, hst with
    | [], true, hst =>
      obtain ⟨hne, hnew⟩ := hst rfl rfl
      have hlist : R.returnsDecl = some (distinctMembers sts) := by rw [h.returnsDecl, if_neg hne]
      have hnot : last ∉ distinctMembers sts := (mem_distinctMembers sts last).not.mpr hnew
      simp [FsmLang.actionReturnDecl, ActionReturns.moveListUnique, ActionReturns.initList,
        ActionReturns.addToList, hlist, PlainStatement.members, hnot, addUniqueToList]
    | [], false, _ =>
      simp [FsmLang.actionReturnDecl, ActionReturns.moveListUnique, hinit, PlainStatement.members]
    | a :: as, _, _ =>
      simp [FsmLang.actionReturnDecl, ActionReturns.moveListUnique, hinit, PlainStatement.members]
  · match commaList, ofStates, hst with
    | [], true, hst =>
      obtain ⟨hne, -⟩ := hst rfl rfl
      simp [FsmLang.actionReturnDecl, ActionReturns.moveListUnique, ActionReturns.initList,
        ActionReturns.addToList, h.returnsDecl, hne, h.good]
    | [], false, _ => exact h.good
    | a :: as, _, _ => exact h.good

/-- A statement that is not harmless leads to an error or to a repeated member. -/
private lemma Listed.spoilt {ofStates : Bool} {sts : List (PlainStatement ι)} {R : ActionReturns ι}
    (h : Listed sts R) {st : PlainStatement ι} (hst : ¬ Harmless ofStates sts st) :
    Spoilt (FsmLang.actionReturnDecl ofStates R st) := by
  obtain ⟨commaList, last⟩ := st
  unfold Harmless at hst
  push Not at hst
  obtain ⟨rfl, hcomma, hrepeat⟩ := hst
  obtain rfl : commaList = [] := hcomma
  intro hgood
  by_cases hne : sts = []
  · simp [FsmLang.actionReturnDecl, ActionReturns.moveListUnique, ActionReturns.initList,
      ActionReturns.addToList, h.returnsDecl, hne] at hgood
  · have hmem := (mem_distinctMembers sts last).mpr (hrepeat hne)
    simp [FsmLang.actionReturnDecl, ActionReturns.moveListUnique, ActionReturns.initList,
      ActionReturns.addToList, h.returnsDecl, hne, addUniqueToList, List.nodup_append, hmem]

/-- A list only grows. -/
def Extended (R R' : ActionReturns ι) : Prop :=
  R'.good = true → R.good = true ∧ R.returnsDecl.getD [] <+: R'.returnsDecl.getD []

omit [DecidableEq ι] in
/-- Lists that are extended twice are extended. -/
lemma Extended.trans {R R' R'' : ActionReturns ι} (h : Extended R R') (h' : Extended R' R'') :
    Extended R R'' := by
  intro hgood
  obtain ⟨hmid, hprefix⟩ := h' hgood
  obtain ⟨hfirst, hprefix'⟩ := h hmid
  exact ⟨hfirst, hprefix'.trans hprefix⟩

omit [DecidableEq ι] in
/-- A new list extends none. -/
lemma extended_initList (R : ActionReturns ι) : Extended R R.initList :=
  fun hgood => ⟨hgood, List.prefix_rfl⟩

omit [DecidableEq ι] in
/-- Adding a member extends the list. -/
private lemma extended_addToList (R : ActionReturns ι) (a : ι) : Extended R (R.addToList a) := by
  obtain ⟨_ | l, good⟩ := R
  · intro hgood
    simp [ActionReturns.addToList] at hgood
  · exact fun hgood => ⟨hgood, List.prefix_append l [a]⟩

/-- Moving members to the list extends it. -/
lemma extended_moveListUnique (R : ActionReturns ι) (l : List ι) :
    Extended R (R.moveListUnique l) := by
  obtain ⟨_ | decl, good⟩ := R
  · exact fun hgood => ⟨hgood, List.prefix_rfl⟩
  · obtain ⟨added, hfold, -⟩ := exists_foldl_addUniqueToList l decl
    refine fun hgood => ⟨hgood, ?_⟩
    simp only [ActionReturns.moveListUnique, Option.map_some, Option.getD_some, hfold]
    exact List.prefix_append decl added

/-- A statement extends what is stored. -/
private lemma extended_actionReturnDecl (ofStates : Bool) (R : ActionReturns ι)
    (st : PlainStatement ι) :
    Extended R (actionReturnDecl ofStates R st) := by
  obtain ⟨commaList, last⟩ := st
  match commaList, ofStates with
  | [], true =>
    exact ((extended_addToList R last).trans (extended_initList _)).trans
      (extended_moveListUnique _ _)
  | [], false => exact (extended_initList R).trans (extended_moveListUnique _ _)
  | a :: as, _ => exact (extended_initList R).trans (extended_moveListUnique _ _)

/-- Nothing repairs an error or a repetition. -/
lemma Spoilt.actionReturnDecl {ofStates : Bool} {R : ActionReturns ι} (h : Spoilt R)
    (st : PlainStatement ι) : Spoilt (actionReturnDecl ofStates R st) := by
  intro hgood hnd
  obtain ⟨hbefore, hprefix⟩ := extended_actionReturnDecl ofStates R st hgood
  exact h hbefore (hnd.sublist hprefix.sublist)

/-- Every statement is harmless where it stands. -/
def AllHarmless (ofStates : Bool) (sts : List (PlainStatement ι)) : Prop :=
  ∀ l st r, sts = l ++ st :: r → Harmless ofStates l st

omit [DecidableEq ι] in
/-- A further harmless statement behind harmless ones. -/
private lemma allHarmless_append_singleton (ofStates : Bool) (sts : List (PlainStatement ι))
    (st : PlainStatement ι) :
    AllHarmless ofStates (sts ++ [st]) ↔ AllHarmless ofStates sts ∧ Harmless ofStates sts st := by
  constructor
  · intro h
    refine ⟨fun l st' r hsts => ?_, h sts st [] rfl⟩
    exact h l st' (r ++ [st]) (by rw [hsts, List.append_assoc, List.cons_append])
  · rintro ⟨hbefore, hst⟩ l st' r hsts
    induction r using List.reverseRecOn with
    | nil =>
      obtain ⟨rfl, hlast⟩ := List.append_inj' hsts rfl
      obtain rfl : st = st' := by simpa using hlast
      exact hst
    | append_singleton r st'' _ =>
      rw [← List.cons_append, ← List.append_assoc] at hsts
      obtain ⟨hsts, -⟩ := List.append_inj' hsts rfl
      exact hbefore l st' r hsts

/-- **What the statements for an action leave.** If every one is harmless the list of all members,
each once; otherwise an error or a list that repeats a member. -/
theorem actionReturnDecl_run (ofStates : Bool) (sts : List (PlainStatement ι)) :
    (AllHarmless ofStates sts → Listed sts (sts.foldl (actionReturnDecl ofStates) .start)) ∧
      (¬ AllHarmless ofStates sts → Spoilt (sts.foldl (actionReturnDecl ofStates) .start)) := by
  induction sts using List.reverseRecOn with
  | nil =>
    refine ⟨fun _ => ⟨rfl, rfl⟩, fun h => absurd (fun l st r hsts => ?_) h⟩
    simp at hsts
  | append_singleton sts st ih =>
    obtain ⟨hlisted, hspoilt⟩ := ih
    rw [allHarmless_append_singleton, List.foldl_append, List.foldl_cons, List.foldl_nil]
    refine ⟨fun h => (hlisted h.1).actionReturnDecl h.2, fun h => ?_⟩
    by_cases hbefore : AllHarmless ofStates sts
    · exact (hlisted hbefore).spoilt fun hst => h ⟨hbefore, hst⟩
    · exact (hspoilt hbefore).actionReturnDecl st

/-- Harmless statements store all members once. -/
lemma actionReturnList_of_allHarmless {ofStates : Bool} {sts : List (PlainStatement ι)}
    (h : AllHarmless ofStates sts) (hsts : sts ≠ []) :
    actionReturnList ofStates sts = some (distinctMembers sts) := by
  have hlisted := (actionReturnDecl_run ofStates sts).1 h
  simp only [actionReturnList]
  rw [if_pos hlisted.good, hlisted.returnsDecl, if_neg hsts]

/-- If all members are stored once the statements are harmless. -/
private lemma allHarmless_of_actionReturnList {ofStates : Bool} {sts : List (PlainStatement ι)}
    {l : List ι}
    (h : actionReturnList ofStates sts = some l) (hl : l.Nodup) : AllHarmless ofStates sts := by
  by_contra hnot
  have hspoilt := (actionReturnDecl_run ofStates sts).2 hnot
  simp only [actionReturnList] at h
  split_ifs at h with hgood
  refine hspoilt hgood ?_
  rw [h]
  exact hl

omit [DecidableEq ι] in
/-- One statement with several members is harmless. -/
private lemma allHarmless_join {ofStates : Bool} {st : PlainStatement ι}
    {sts : List (PlainStatement ι)}
    (h : AllHarmless ofStates (st :: sts)) : AllHarmless ofStates [sts.foldl .join st] := by
  by_cases hsts : sts = []
  · rw [hsts] at h ⊢
    exact h
  · intro l st' r hone
    obtain ⟨rfl, hst'⟩ : l = [] ∧ sts.foldl .join st = st' := by
      cases l with
      | nil => simpa using (List.cons.inj hone).1
      | cons a l => simp at hone
    intro _ hcomma
    rw [← hst'] at hcomma
    exact absurd hcomma (commaList_foldl_join_ne_nil st hsts)

/-- What is stored for several statements is what is stored for one, if both store all members. -/
lemma splitRight_of_returnList {f : Returning} {st : PlainStatement ι}
    {sts : List (PlainStatement ι)}
    (h : returnList f (st :: sts) = some (distinctMembers (st :: sts)))
    (hone : returnList f [sts.foldl .join st] = some (distinctMembers [sts.foldl .join st])) :
    SplitRight f st sts := by
  rw [distinctMembers_join] at hone
  exact ⟨_, h, hone, nodup_distinctMembers _, mem_distinctMembers _⟩

/-- An action's statements may be split exactly if they are harmless. -/
lemma splitRight_action {f : Returning} {ofStates : Bool}
    (hf : ∀ sts : List (PlainStatement ι), returnList f sts = actionReturnList ofStates sts)
    (st : PlainStatement ι) (sts : List (PlainStatement ι)) :
    SplitRight f st sts ↔ AllHarmless ofStates (st :: sts) := by
  constructor
  · rintro ⟨l, hl, -, hnd, -⟩
    rw [hf] at hl
    exact allHarmless_of_actionReturnList hl hnd
  · intro h
    refine splitRight_of_returnList ?_ ?_
    · rw [hf, actionReturnList_of_allHarmless h (by simp)]
    · rw [hf, actionReturnList_of_allHarmless (allHarmless_join h) (by simp)]

/-- **Splitting returns declarations.** Several returns statements are accepted and give the list
that one statement with all their members gives, each member once, if and only if they are for a
transition function, or for an action that returns events, or no statement with a single state is
the first or repeats a member of an earlier one.

**Proof sketch.** Every branch but one makes the list and adds the new members, so that after any
number of statements the list holds each member once. The branch for one state appends it first:
without a list that is an error, and with a list that has the state a repetition. Both stay, since
lists only grow. -/
theorem splitRight_iff (f : Returning) (st : PlainStatement ι) (sts : List (PlainStatement ι)) :
    SplitRight f st sts ↔
      f ≠ .actionOfStates ∨
        ∀ l s r, st :: sts = l ++ ⟨[], s⟩ :: r → l ≠ [] ∧ s ∉ l.flatMap PlainStatement.members := by
  cases f with
  | transitionFn transitionFns =>
    have hright : SplitRight (.transitionFn transitionFns) st sts :=
      splitRight_of_returnList (returnList_transitionFn _ _) (returnList_transitionFn _ _)
    simp [hright]
  | actionOfEvents =>
    have hright : SplitRight .actionOfEvents st sts := by
      refine (splitRight_action (fun _ => rfl) st sts).mpr ?_
      intro l st' r _ hfalse
      simp at hfalse
    simp [hright]
  | actionOfStates =>
    rw [splitRight_action (fun _ => rfl) st sts]
    simp only [ne_eq, not_true_eq_false, false_or]
    constructor
    · intro h l s r hsts
      exact h l ⟨[], s⟩ r hsts rfl rfl
    · intro h l st' r hsts _ hcomma
      obtain ⟨commaList, last⟩ := st'
      obtain rfl : commaList = [] := hcomma
      exact h l last r hsts

end Parser

/-- `a returns 0; a returns 1, 2;` for an action is not accepted, while `a returns 0, 1, 2;` is. -/
theorem not_splitRight_singleStateFirst :
    ¬ SplitRight .actionOfStates (⟨[], 0⟩ : PlainStatement ℕ) [⟨[1], 2⟩] ∧
      returnList .actionOfStates [(⟨[], 0⟩ : PlainStatement ℕ), ⟨[1], 2⟩] = none ∧
      returnList .actionOfStates [(⟨[0, 1], 2⟩ : PlainStatement ℕ)] = some [0, 1, 2] := by
  have hnone : returnList .actionOfStates [(⟨[], 0⟩ : PlainStatement ℕ), ⟨[1], 2⟩] = none := by
    decide
  refine ⟨?_, hnone, by decide⟩
  rintro ⟨l, hl, -⟩
  rw [hnone] at hl
  simp at hl

end FsmLang
