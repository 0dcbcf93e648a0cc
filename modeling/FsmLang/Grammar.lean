import Mathlib.Data.List.Basic
import Mathlib.Tactic
import FsmLang.ActionMatrices
import FsmLang.Lexer
import FsmLang.Parsing.Separation

set_option relaxedAutoImplicit false
set_option autoImplicit false

/-!
# Texts of machines

The syntax trees of the grammar, with the tokens they stand for. A tree has the names as they are
written. That a name is one of a state, of an event or of something else is not in the tree: the
lexer gives names types, and the rules of the grammar ask for them, but no rule is chosen by a type.

The grammar is left-recursive in lists; a tree has a list where the grammar has such a rule, and a
first member where the list must not be empty. Some lists have several derivations: a
`machine_qualifier` may be empty, a member or a `machine_qualifier` with a member, and `native impl`
blocks that stand next to each other may be one member or several. A tree has the flat list of what
is written, and it is this tree that is unique. Documentation comments are values of tokens, and a
tree leaves them out. The trees are those of machines with their data, native code, events, states,
sub-machines and matrices. References to events of other machines, return declarations and event
sequences are not among them.

## Main definitions

* `MachineText`, `MachineText.tokens` — a machine and what is written for it.
* `Token.plain` — a token without its documentation comment.

## Main results

* `MachineText.readsBack` — a machine is read back wherever it stands.
* `IsText.unique` — a file is the text of one list of machines.
* `read_uniquely` — at any place of a text at most one machine can be read.
-/

namespace FsmLang

open Parsing

/-! ## Trees -/

/-- A name. The one empty name of the generator, that of the null action, is never written. -/
structure Ident where
  name : String
  nonempty : name ≠ ""
  deriving DecidableEq

/-- A text with a first character is not empty. -/
private lemma ofList_cons_ne (first : Char) (rest : List Char) :
    String.ofList (first :: rest) ≠ "" := by
  intro h
  simpa using congrArg String.toList h

/-- The name with these letters. -/
def Ident.of (first : Char) (rest : List Char) : Ident :=
  ⟨String.ofList (first :: rest), ofList_cons_ne first rest⟩

/-- The token without its documentation comment. -/
def Token.plain : Token → Token
  | .docKeyword k _ => .docKeyword k none
  | .id name _ => .id name none
  | t => t

/-- The token of a name. -/
def Ident.token (x : Ident) : Token := .id x.name.toList none

/-- A block of native code before a machine, or for its implementation (`native_prologue`,
`native_epilogue` and their siblings with `impl`). The word `prologue` may be missing. -/
inductive NativeText where
  | prologue (named : Bool) (block : List Char)
  | epilogue (block : List Char)
  deriving DecidableEq, Repr

/-- What stands in the brackets of an array (`data_field_dimension`). -/
inductive Dimension where
  | empty
  | number (digits : List Char)
  | name (x : Ident)
  deriving DecidableEq

/-- A field of data (`data_field`): one of a named type, or of a structure or union with fields of
its own. -/
inductive DataField where
  | simple (type : Ident) (indirection : ℕ) (name : Ident) (dimension : Option Dimension)
  | members (isUnion : Bool) (first : DataField) (rest : List DataField) (indirection : ℕ)
      (name : Ident) (dimension : Option Dimension)

/-- The fields in braces (`data_block`). -/
structure DataBlock where
  first : DataField
  rest : List DataField

/-- What is said of a state after its name (`state`). -/
inductive StateClause where
  | inhibitsSubMachines
  | implementedBy (machine : Ident)
  | onEntry (fn : Option Ident)
  | onExit (fn : Option Ident)
  deriving DecidableEq

/-- A state as it is declared. -/
structure StateText where
  name : Ident
  clauses : List StateClause
  deriving DecidableEq

/-- The translator of an event's data (`data_translator_fn`). -/
structure TranslatorText where
  consuming : Bool
  name : Ident
  implementedBy : List Ident
  deriving DecidableEq

/-- What is said of an event's data (`user_event_data`). -/
inductive UserEventData where
  | none
  | translator (fn : TranslatorText) (block : Option DataBlock)
  | block (block : DataBlock)

/-- An event as it is declared. -/
structure EventText where
  name : Ident
  externalDesignation : Option Ident
  userEventData : UserEventData

/-- A declaration of states or of events (`state_decl`, `event_decl`). -/
inductive DeclText where
  | states (first : StateText) (rest : List StateText)
  | events (first : EventText) (rest : List EventText)

/-- A matrix. State vectors have the form of event vectors. -/
structure MatrixText where
  events : EventVector Ident
  states : EventVector Ident
  deriving DecidableEq

/-- A transition to a state or by a function, or one by a guard. -/
structure TransitionText where
  isGuard : Bool
  name : Ident
  deriving DecidableEq

/-- An action with its matrix (`action`). -/
structure ActionText where
  name : Ident
  matrix : MatrixText
  transition : Option TransitionText
  deriving DecidableEq

/-- A declaration of actions, or a transition without an action (`action_decl`,
`transition_matrix`). The keyword of such a transition may stand on either side of its matrix. -/
inductive StatementText where
  | actions (first : ActionText) (rest : List ActionText)
  | transition (matrixFirst : Bool) (matrix : MatrixText) (transition : TransitionText)
  deriving DecidableEq

/-- What is said of a machine before its brace: a member of the flat list that the derivations of
`machine_qualifier` have in common. Each `native impl` block is one. -/
inductive QualifierText where
  | onTransition (fn : Ident)
  | actionsReturn (what : ActionsReturn)
  | translatorsReturn (events : Bool)
  | nativeImpl (native : NativeText)
  deriving DecidableEq

/-- A machine without its sub-machines. -/
structure OwnText where
  natives : List NativeText
  reentrant : Bool
  name : Ident
  qualifiers : List QualifierText
  data : Option DataBlock
  decls : List DeclText
  statements : List StatementText

/-- A machine. Its sub-machines stand before its actions and transitions. -/
inductive MachineText where
  | mk (own : OwnText) (machines : List MachineText)

namespace MachineText

/-- The machine without its sub-machines. -/
def own : MachineText → OwnText
  | mk own _ => own

/-- The sub-machines. -/
def machines : MachineText → List MachineText
  | mk _ machines => machines

/-- Induction on the tree of machines. -/
theorem induct {P : MachineText → Prop}
    (mk : ∀ own machines, (∀ m ∈ machines, P m) → P (.mk own machines)) (m : MachineText) : P m :=
  @MachineText.rec P (fun ms => ∀ m ∈ ms, P m) (fun own machines ih => mk own machines ih) (by simp)
    (fun m ms hm hms => by simpa using ⟨hm, hms⟩) m

end MachineText

/-- Induction on the fields of data. -/
theorem DataField.induct {P : DataField → Prop}
    (simple : ∀ type indirection name dimension, P (.simple type indirection name dimension))
    (members : ∀ isUnion first rest indirection name dimension, P first → (∀ d ∈ rest, P d) →
      P (.members isUnion first rest indirection name dimension)) (d : DataField) : P d :=
  @DataField.rec P (fun ds => ∀ d ∈ ds, P d) simple
    (fun isUnion first rest indirection name dimension hfirst hrest =>
      members isUnion first rest indirection name dimension hfirst hrest) (by simp)
    (fun d ds hd hds => by simpa using ⟨hd, hds⟩) d

/-! ## Tokens -/

/-- The tokens of a native block, with `impl` or without. -/
def NativeText.tokens (impl : Bool) : NativeText → List Token
  | .prologue named block =>
    .keyword .nativeKey :: ((if impl then [.keyword .implementationKey] else []) ++
      (if named then [.keyword .prologueKey] else []) ++ [.nativeBlock block])
  | .epilogue block =>
    .keyword .nativeKey :: ((if impl then [.keyword .implementationKey] else []) ++
      [.keyword .epilogueKey, .nativeBlock block])

def Dimension.tokens : Dimension → List Token
  | .empty => [.char '[', .char ']']
  | .number digits => [.char '[', .numericString digits, .char ']']
  | .name x => [.char '[', x.token, .char ']']

/-- What comes after the type of a field. -/
def declaratorTokens (indirection : ℕ) (name : Ident) (dimension : Option Dimension) :
    List Token :=
  List.replicate indirection (.char '*') ++ name.token ::
    (dimension.elim [] Dimension.tokens ++ [.char ';'])

mutual

def DataField.tokens : DataField → List Token
  | .simple type indirection name dimension =>
    type.token :: declaratorTokens indirection name dimension
  | .members isUnion first rest indirection name dimension =>
    .keyword (if isUnion then .unionKey else .structKey) :: .char '\x7b' ::
      (first.tokens ++ DataField.listTokens rest ++ .char '\x7d' ::
        declaratorTokens indirection name dimension)

def DataField.listTokens : List DataField → List Token
  | [] => []
  | d :: ds => d.tokens ++ DataField.listTokens ds

end

def DataBlock.tokens (b : DataBlock) : List Token :=
  .char '\x7b' :: ((b.first :: b.rest).flatMap DataField.tokens ++ [.char '\x7d'])

/-- `implemented by machine` -/
def implementedByTokens (machine : Ident) : List Token :=
  [.keyword .implemented, .keyword .by, .keyword .machineKey, machine.token]

def StateClause.tokens : StateClause → List Token
  | .inhibitsSubMachines => [.keyword .inhibits, .keyword .submachines]
  | .implementedBy machine => implementedByTokens machine
  | .onEntry fn => .keyword .on :: .keyword .entry :: fn.elim [] fun x => [x.token]
  | .onExit fn => .keyword .on :: .keyword .exit :: fn.elim [] fun x => [x.token]

def StateText.tokens (s : StateText) : List Token :=
  s.name.token :: s.clauses.flatMap StateClause.tokens

def TranslatorText.tokens (t : TranslatorText) : List Token :=
  (if t.consuming then [.keyword .consuming] else []) ++ .keyword .dataKey ::
    .keyword .translatorKey :: t.name.token :: t.implementedBy.flatMap implementedByTokens

def UserEventData.tokens : UserEventData → List Token
  | .none => []
  | .translator fn b => fn.tokens ++ b.elim [] DataBlock.tokens
  | .block b => .keyword .dataKey :: b.tokens

def EventText.tokens (e : EventText) : List Token :=
  e.name.token :: ((e.externalDesignation.elim [] fun x => [.char '=', x.token]) ++
    e.userEventData.tokens)

/-- The members of a declaration, with commas. -/
def commaTokens {α : Type*} (tokens : α → List Token) (first : α) (rest : List α) : List Token :=
  tokens first ++ (rest.flatMap fun a => .char ',' :: tokens a) ++ [.char ';']

def DeclText.tokens : DeclText → List Token
  | .states first rest => .keyword .stateKey :: commaTokens StateText.tokens first rest
  | .events first rest => .keyword .eventKey :: commaTokens EventText.tokens first rest

def vectorTokens : EventVector Ident → List Token
  | .all => [.char '(', .keyword .all, .char ')']
  | .scalar x => [x.token]
  | .vector first rest last =>
    .char '(' :: (((first :: rest).flatMap fun x => [x.token, .char ',']) ++
      [last.token, .char ')'])

def MatrixText.tokens (m : MatrixText) : List Token :=
  .char '[' :: (vectorTokens m.events ++ .char ',' :: (vectorTokens m.states ++ [.char ']']))

/-- The keyword `transition` or `guard`. -/
def TransitionText.keyword (t : TransitionText) : Token :=
  .docKeyword (if t.isGuard then .guardKey else .transitionKey) none

def TransitionText.tokens (t : TransitionText) : List Token := [t.keyword, t.name.token]

def ActionText.tokens (a : ActionText) : List Token :=
  a.name.token :: (a.matrix.tokens ++ a.transition.elim [] TransitionText.tokens)

def StatementText.tokens : StatementText → List Token
  | .actions first rest => .docKeyword .actionKey none :: commaTokens ActionText.tokens first rest
  | .transition true matrix t => matrix.tokens ++ [t.keyword, t.name.token, .char ';']
  | .transition false matrix t => t.keyword :: (matrix.tokens ++ [t.name.token, .char ';'])

def QualifierText.tokens : QualifierText → List Token
  | .onTransition fn =>
    [.keyword .on, .docKeyword .transitionKey none, fn.token, .char ';']
  | .actionsReturn what =>
    [.keyword .actions, .keyword .return,
      .keyword (match what with | .events => .events | .states => .states | .void => .void),
      .char ';']
  | .translatorsReturn events =>
    [.keyword .dataKey, .keyword .translators, .keyword .return,
      .keyword (if events then .events else .void), .char ';']
  | .nativeImpl native => native.tokens true

/-- The tokens up to the sub-machines. -/
def OwnText.openingTokens (o : OwnText) : List Token :=
  o.natives.flatMap (NativeText.tokens false) ++
    ((if o.reentrant then [.keyword .reentrant] else []) ++ .keyword .machineKey :: o.name.token ::
      (o.qualifiers.flatMap QualifierText.tokens ++ .char '\x7b' ::
        ((o.data.elim [] fun b => .keyword .dataKey :: b.tokens) ++
          o.decls.flatMap DeclText.tokens)))

/-- The tokens after the sub-machines. -/
def OwnText.closingTokens (o : OwnText) : List Token :=
  o.statements.flatMap StatementText.tokens ++ [.char '\x7d']

mutual

/-- The tokens of a machine (`machine`). -/
def MachineText.tokens : MachineText → List Token
  | .mk own machines => own.openingTokens ++ MachineText.listTokens machines ++ own.closingTokens

/-- The tokens of machines in a row. -/
def MachineText.listTokens : List MachineText → List Token
  | [] => []
  | m :: ms => m.tokens ++ MachineText.listTokens ms

end

/-- The tokens of a file (`fsmlang`). -/
def fileTokens (machines : List MachineText) : List Token := machines.flatMap MachineText.tokens

/-- The list of fields is read field by field. -/
lemma DataField.listTokens_eq (ds : List DataField) :
    DataField.listTokens ds = ds.flatMap DataField.tokens := by
  induction ds with
  | nil => rfl
  | cons d ds ih => rw [DataField.listTokens, ih, List.flatMap_cons]

/-- The list of sub-machines is read machine by machine. -/
lemma MachineText.listTokens_eq (ms : List MachineText) :
    MachineText.listTokens ms = fileTokens ms := by
  induction ms with
  | nil => rfl
  | cons m ms ih => rw [MachineText.listTokens, ih, fileTokens, fileTokens, List.flatMap_cons]

/-! ## Data -/

/-- Different names have different spellings. -/
@[simp] lemma Ident.toList_inj {x y : Ident} : x.name.toList = y.name.toList ↔ x = y := by
  constructor
  · intro h
    obtain ⟨x, hx⟩ := x
    obtain ⟨y, hy⟩ := y
    obtain rfl : x = y := String.toList_inj.mp h
    rfl
  · rintro rfl
    rfl

/-- The token is that of a name. -/
def IsName (c : Token) : Prop := ∃ x : Ident, c = x.token

/-- The token of a name is one. -/
@[simp] lemma isName_token (x : Ident) : IsName x.token := ⟨x, rfl⟩

/-- A native block can be read back. -/
lemma NativeText.readsBack (impl : Bool) (next : Token → Prop) (n : NativeText) :
    ReadsBack (NativeText.tokens impl) next n := by
  intro n' r r' _ _ heq
  cases impl <;> rcases n with ⟨_ | _, b⟩ | b <;> rcases n' with ⟨_ | _, b'⟩ | b' <;>
    simp_all [NativeText.tokens]

/-- A native block starts with `native`. -/
lemma NativeText.starts (impl : Bool) :
    Starts (NativeText.tokens impl) (fun c => c = .keyword .nativeKey) := by
  rintro (⟨named, b⟩ | b) <;> exact ⟨_, _, rfl, rfl⟩

/-- A dimension can be read back. -/
lemma Dimension.readsBack (next : Token → Prop) (d : Dimension) :
    ReadsBack Dimension.tokens next d := by
  intro d' r r' _ _ heq
  rcases d with _ | d | x <;> rcases d' with _ | d' | x' <;>
    simp_all [Dimension.tokens, Ident.token]

/-- A dimension starts with a bracket. -/
lemma Dimension.starts : Starts Dimension.tokens (fun c => c = .char '[') := by
  rintro (_ | d | x) <;> exact ⟨_, _, rfl, rfl⟩

/-- The part after the type: a star goes on with the indirection, a bracket opens the dimension. -/
lemma declaratorTokens_inj {i i' : ℕ} {x x' : Ident} {d d' : Option Dimension}
    {r r' : List Token} (h : declaratorTokens i x d ++ r = declaratorTokens i' x' d' ++ r') :
    i = i' ∧ x = x' ∧ d = d' ∧ r = r' := by
  simp only [declaratorTokens, List.append_assoc, List.cons_append, List.nil_append] at h
  obtain ⟨hi, h⟩ := readsBack_replicate (Token.char '*') i i' _ _ (by simp [Ident.token])
    (by simp [Ident.token]) h
  obtain ⟨hx, h⟩ := List.cons.inj h
  have hback : ReadsBack (fun o : Option Dimension => o.elim [] Dimension.tokens)
      (fun c => c = Token.char ';') d :=
    .option Dimension.starts (by simp) fun a _ => a.readsBack _
  obtain ⟨hd, h⟩ := hback d' _ _ (by simp) (by simp) h
  exact ⟨hi, by simpa [Ident.token] using hx, hd, (List.cons.inj h).2⟩

/-- The tokens that a field may start with. -/
def StartsField (c : Token) : Prop :=
  IsName c ∨ c = .keyword .structKey ∨ c = .keyword .unionKey

/-- A data field starts with a name or with the keyword of a structure or a union. -/
lemma DataField.starts : Starts DataField.tokens StartsField := by
  rintro (⟨type, i, x, d⟩ | ⟨isUnion, f, fs, i, x, d⟩)
  · exact ⟨_, _, rfl, .inl (isName_token type)⟩
  · refine ⟨_, _, rfl, .inr ?_⟩
    cases isUnion <;> simp

/-- No field starts with a punctuation mark. -/
private lemma not_startsField_char (c : Char) : ¬ StartsField (.char c) := by
  simp [StartsField, IsName, Ident.token]

/-- Fields before a closing brace. -/
lemma DataField.readsBack_flatMap {fs : List DataField}
    (h : ∀ f ∈ fs, ∀ next, ReadsBack DataField.tokens next f) :
    ReadsBack (fun fs : List DataField => fs.flatMap DataField.tokens)
      (fun c => c = Token.char '\x7d') fs := by
  refine .flatMap DataField.starts ?_ fun f hf => h f hf _
  rintro c hc rfl
  exact not_startsField_char _ hc

/-- Induction on the field, and the rule for lists for what it contains. -/
lemma DataField.readsBack (next : Token → Prop) (d : DataField) :
    ReadsBack DataField.tokens next d := by
  induction d using DataField.induct generalizing next with
  | simple type i x dim =>
    rintro (⟨type', i', x', dim'⟩ | ⟨isUnion', f', fs', i', x', dim'⟩) r r' hr hr' heq
    · rw [DataField.tokens, DataField.tokens, List.cons_append, List.cons_append] at heq
      obtain ⟨htype, heq⟩ := List.cons.inj heq
      obtain ⟨rfl, rfl, rfl, hrest⟩ := declaratorTokens_inj heq
      obtain rfl : type = type' := by simpa [Ident.token] using htype
      exact ⟨rfl, hrest⟩
    · simp [DataField.tokens, Ident.token] at heq
  | members isUnion f fs i x dim ihf ihfs =>
    rintro (⟨type', i', x', dim'⟩ | ⟨isUnion', f', fs', i', x', dim'⟩) r r' hr hr' heq
    · simp [DataField.tokens, Ident.token] at heq
    · simp only [DataField.tokens, DataField.listTokens_eq, List.cons_append,
        List.append_assoc] at heq
      obtain ⟨hkey, heq⟩ := List.cons.inj heq
      obtain ⟨-, heq⟩ := List.cons.inj heq
      obtain ⟨rfl, hfs⟩ := ihf (fun _ => True) f' _ _ (fun _ _ => trivial) (fun _ _ => trivial) heq
      obtain ⟨rfl, hclose⟩ := DataField.readsBack_flatMap ihfs fs' _ _ (by simp) (by simp) hfs
      obtain ⟨-, heq⟩ := List.cons.inj hclose
      obtain ⟨rfl, rfl, rfl, hrest⟩ := declaratorTokens_inj heq
      obtain rfl : isUnion = isUnion' := by
        cases isUnion <;> cases isUnion' <;> simp_all
      exact ⟨rfl, hrest⟩

/-- A data block can be read back. -/
lemma DataBlock.readsBack (next : Token → Prop) (b : DataBlock) :
    ReadsBack DataBlock.tokens next b := by
  obtain ⟨f, fs⟩ := b
  rintro ⟨f', fs'⟩ r r' hr hr' heq
  simp only [DataBlock.tokens, List.cons_append, List.append_assoc] at heq
  obtain ⟨hall, hclose⟩ := DataField.readsBack_flatMap (fun f _ next => f.readsBack next)
    (f' :: fs') _ _ (by simp) (by simp) (List.cons.inj heq).2
  obtain ⟨rfl, rfl⟩ := List.cons.inj hall
  exact ⟨rfl, (List.cons.inj hclose).2⟩

/-! ## Declarations -/

/-- What comes after a member of a declaration. -/
def EndsMember (c : Token) : Prop := c = .char ',' ∨ c = .char ';'

/-- The members of a declaration are read back, and what follows may be anything. -/
lemma commaTokens_inj {α : Type*} {tokens : α → List Token} (h : ∀ a, ReadsBack tokens EndsMember a)
    {a a' : α} {l l' : List α} {r r' : List Token}
    (heq : commaTokens tokens a l ++ r = commaTokens tokens a' l' ++ r') :
    a = a' ∧ l = l' ∧ r = r' := by
  have hstarts : Starts (fun a => Token.char ',' :: tokens a) (fun c => c = Token.char ',') :=
    fun a => ⟨_, _, rfl, rfl⟩
  have hbegins : ∀ (l : List α) (r : List Token),
      Begins EndsMember ((l.flatMap fun a => Token.char ',' :: tokens a) ++ Token.char ';' :: r) :=
    fun l r => hstarts.begins_flatMap (fun c hc => .inl hc) (by simp [EndsMember]) l
  have hback : ReadsBack (fun l : List α => l.flatMap fun a => Token.char ',' :: tokens a)
      (fun c => c = Token.char ';') l :=
    .flatMap hstarts (by simp) fun b _ => (h b).cons _
  simp only [commaTokens, List.append_assoc, List.cons_append, List.nil_append] at heq
  obtain ⟨rfl, hrest⟩ := h a a' _ _ (hbegins l r) (hbegins l' r') heq
  obtain ⟨rfl, hend⟩ := hback l' _ _ (by simp) (by simp) hrest
  exact ⟨rfl, rfl, (List.cons.inj hend).2⟩

/-- A name starts with itself. -/
private lemma starts_name : Starts (fun x : Ident => [x.token]) IsName :=
  fun x => ⟨_, _, rfl, isName_token x⟩

/-- An optional name. -/
lemma readsBack_optionalName {next : Token → Prop} (hnext : ∀ c, next c → ¬ IsName c)
    (fn : Option Ident) :
    ReadsBack (fun fn : Option Ident => fn.elim [] fun x => [x.token]) next fn :=
  .option starts_name (fun c hc hn => hnext c hn hc) fun x _ =>
    readsBack_singleton (fun x y h => by simpa [Ident.token] using h) x

/-- The clause about the implementing machine can be read back. -/
lemma implementedBy_readsBack (next : Token → Prop) (m : Ident) :
    ReadsBack implementedByTokens next m := by
  intro m' r r' _ _ heq
  simpa [implementedByTokens, Ident.token] using heq

/-- The clause about the implementing machine starts with `implemented`. -/
private lemma implementedBy_starts :
    Starts implementedByTokens (fun c => c = .keyword .implemented) :=
  fun _ => ⟨_, _, rfl, rfl⟩

/-- The tokens that a clause may start with. -/
def StartsClause (c : Token) : Prop :=
  c = .keyword .inhibits ∨ c = .keyword .implemented ∨ c = .keyword .on

/-- The first token of a clause is one that starts clauses. -/
lemma StateClause.starts : Starts StateClause.tokens StartsClause := by
  rintro (_ | m | fn | fn)
  · exact ⟨_, _, rfl, .inl rfl⟩
  · exact ⟨_, _, rfl, .inr (.inl rfl)⟩
  · exact ⟨_, _, rfl, .inr (.inr rfl)⟩
  · exact ⟨_, _, rfl, .inr (.inr rfl)⟩

/-- A clause can be read back where no name follows it. -/
lemma StateClause.readsBack {next : Token → Prop} (hnext : ∀ c, next c → ¬ IsName c)
    (c : StateClause) : ReadsBack StateClause.tokens next c := by
  intro c' r r' hr hr' heq
  cases c with
  | inhibitsSubMachines =>
    cases c' <;> simp_all [StateClause.tokens, implementedByTokens]
  | implementedBy m =>
    cases c' with
    | implementedBy m' =>
      obtain ⟨rfl, hrest⟩ := implementedBy_readsBack next m m' r r' hr hr' heq
      exact ⟨rfl, hrest⟩
    | _ => simp [StateClause.tokens, implementedByTokens] at heq
  | onEntry fn =>
    cases c' with
    | onEntry fn' =>
      obtain ⟨rfl, hrest⟩ := readsBack_optionalName hnext fn fn' r r' hr hr'
        (List.cons.inj (List.cons.inj heq).2).2
      exact ⟨rfl, hrest⟩
    | _ => simp [StateClause.tokens, implementedByTokens] at heq
  | onExit fn =>
    cases c' with
    | onExit fn' =>
      obtain ⟨rfl, hrest⟩ := readsBack_optionalName hnext fn fn' r r' hr hr'
        (List.cons.inj (List.cons.inj heq).2).2
      exact ⟨rfl, hrest⟩
    | _ => simp [StateClause.tokens, implementedByTokens] at heq

/-- A state can be read back before what ends a member. -/
lemma StateText.readsBack (s : StateText) : ReadsBack StateText.tokens EndsMember s := by
  obtain ⟨x, clauses⟩ := s
  rintro ⟨x', clauses'⟩ r r' hr hr' heq
  have hback : ReadsBack (fun l : List StateClause => l.flatMap StateClause.tokens) EndsMember
      clauses := by
    refine .flatMap StateClause.starts ?_ fun c _ => c.readsBack ?_
    · rintro c (rfl | rfl | rfl) <;> simp [EndsMember]
    · rintro c ((rfl | rfl | rfl) | (rfl | rfl)) <;> simp [IsName, Ident.token]
  obtain ⟨hx, hrest⟩ := List.cons.inj heq
  obtain ⟨rfl, hend⟩ := hback clauses' r r' hr hr' hrest
  obtain rfl : x = x' := by simpa [Ident.token] using hx
  exact ⟨rfl, hend⟩

/-- A translator can be read back where no `implemented` follows it. -/
lemma TranslatorText.readsBack {next : Token → Prop}
    (hnext : ∀ c, next c → c ≠ .keyword .implemented) (t : TranslatorText) :
    ReadsBack TranslatorText.tokens next t := by
  obtain ⟨consuming, x, ms⟩ := t
  rintro ⟨consuming', x', ms'⟩ r r' hr hr' heq
  have hback : ReadsBack (fun l : List Ident => l.flatMap implementedByTokens) next ms :=
    .flatMap implementedBy_starts (fun c hc hn => hnext c hn hc)
      fun m _ => implementedBy_readsBack _ m
  have hboth : consuming = consuming' ∧ x = x' ∧
      ms.flatMap implementedByTokens ++ r = ms'.flatMap implementedByTokens ++ r' := by
    cases consuming <;> cases consuming' <;> simp_all [TranslatorText.tokens, Ident.token]
  obtain ⟨rfl, rfl, hrest⟩ := hboth
  obtain ⟨rfl, hend⟩ := hback ms' r r' hr hr' hrest
  exact ⟨rfl, hend⟩

/-- A data block starts with a brace. -/
lemma DataBlock.starts : Starts DataBlock.tokens (fun c => c = .char '\x7b') :=
  fun _ => ⟨_, _, rfl, rfl⟩

/-- The tokens that are said of an event's data may start with. -/
def StartsUserEventData (c : Token) : Prop := c = .keyword .consuming ∨ c = .keyword .dataKey

/-- What starts the data of an event does not end the event. -/
lemma not_endsMember_of_startsUserEventData (c : Token) (hc : StartsUserEventData c) :
    ¬ EndsMember c := by
  rcases hc with rfl | rfl <;> simp [EndsMember]

/-- A translator starts the data of an event. -/
lemma TranslatorText.starts : Starts TranslatorText.tokens StartsUserEventData := by
  rintro ⟨_ | _, x, ms⟩
  · exact ⟨_, _, rfl, .inr rfl⟩
  · exact ⟨_, _, rfl, .inl rfl⟩

/-- A brace after the keyword makes a block without a translator. -/
lemma TranslatorText.tokens_append_ne (fn : TranslatorText) (b : DataBlock) (r r' : List Token) :
    fn.tokens ++ r ≠ Token.keyword .dataKey :: (b.tokens ++ r') := by
  cases hc : fn.consuming <;> simp [TranslatorText.tokens, DataBlock.tokens, hc]

/-- A data block behind its keyword starts the data of an event. -/
lemma starts_block :
    Starts (fun b : DataBlock => Token.keyword .dataKey :: b.tokens) StartsUserEventData :=
  fun _ => ⟨_, _, rfl, .inr rfl⟩

/-- A translator, and the block that may follow it. -/
private lemma translator_readsBack {fn fn' : TranslatorText} {b b' : Option DataBlock}
    {r r' : List Token}
    (hr : Begins EndsMember r) (hr' : Begins EndsMember r')
    (heq : fn.tokens ++ (b.elim [] DataBlock.tokens ++ r) =
      fn'.tokens ++ (b'.elim [] DataBlock.tokens ++ r')) :
    fn = fn' ∧ b = b' ∧ r = r' := by
  have hfn : ReadsBack TranslatorText.tokens (fun c => c = .char '\x7b' ∨ EndsMember c) fn :=
    fn.readsBack (by rintro c (rfl | rfl | rfl) <;> simp)
  have hblock : ReadsBack (fun b : Option DataBlock => b.elim [] DataBlock.tokens) EndsMember b :=
    .option DataBlock.starts (by rintro c rfl; simp [EndsMember]) fun b _ => b.readsBack _
  have hbegins : ∀ (b : Option DataBlock) {r : List Token}, Begins EndsMember r →
      Begins (fun c => c = .char '\x7b' ∨ EndsMember c) (b.elim [] DataBlock.tokens ++ r) :=
    fun b r hr => DataBlock.starts.begins_option (fun c hc => .inl hc)
      (hr.mono fun c hc => .inr hc) b
  obtain ⟨rfl, hrest⟩ := hfn fn' _ _ (hbegins b hr) (hbegins b' hr') heq
  obtain ⟨rfl, hend⟩ := hblock b' r r' hr hr' hrest
  exact ⟨rfl, rfl, hend⟩

/-- The data of an event can be read back before what ends a member. -/
lemma UserEventData.readsBack (u : UserEventData) :
    ReadsBack UserEventData.tokens EndsMember u := by
  intro u' r r' hr hr' heq
  cases u <;> cases u' <;> simp only [tokens, List.nil_append, List.append_assoc] at heq
  case none.none => exact ⟨rfl, heq⟩
  case translator.translator fn b fn' b' =>
    obtain ⟨rfl, rfl, hend⟩ := translator_readsBack hr hr' heq
    exact ⟨rfl, hend⟩
  case block.block b b' =>
    obtain ⟨rfl, hend⟩ := b.readsBack EndsMember b' r r' hr hr' (List.cons.inj heq).2
    exact ⟨rfl, hend⟩
  -- the first token shows that something is said of the data
  case none.translator fn b =>
    exact absurd heq.symm
      (TranslatorText.starts.append_ne hr not_endsMember_of_startsUserEventData fn _)
  case translator.none fn b =>
    exact absurd heq
      (TranslatorText.starts.append_ne hr' not_endsMember_of_startsUserEventData fn _)
  case none.block b =>
    exact absurd heq.symm
      (starts_block.append_ne hr not_endsMember_of_startsUserEventData b _)
  case block.none b =>
    exact absurd heq
      (starts_block.append_ne hr' not_endsMember_of_startsUserEventData b _)
  case translator.block fn b b' => exact absurd heq (fn.tokens_append_ne b' _ _)
  case block.translator b fn' b' => exact absurd heq.symm (fn'.tokens_append_ne b _ _)

/-- What may follow the name of an event, if no designation does. -/
lemma UserEventData.begins (u : UserEventData) {r : List Token} (hr : Begins EndsMember r) :
    Begins (fun c => c ≠ .char '=') (u.tokens ++ r) := by
  cases u with
  | none => exact hr.mono (by rintro c (rfl | rfl) <;> simp)
  | translator fn b => cases hc : fn.consuming <;> simp [tokens, TranslatorText.tokens, hc]
  | block b => simp [tokens]

/-- An event can be read back before what ends a member. -/
lemma EventText.readsBack (e : EventText) : ReadsBack EventText.tokens EndsMember e := by
  obtain ⟨x, ext, u⟩ := e
  rintro ⟨x', ext', u'⟩ r r' hr hr' heq
  have hstarts : Starts (fun x : Ident => [Token.char '=', x.token]) (fun c => c = .char '=') :=
    fun _ => ⟨_, _, rfl, rfl⟩
  have hback : ReadsBack (fun ext : Option Ident => ext.elim [] fun x => [Token.char '=', x.token])
      (fun c => c ≠ .char '=') ext :=
    .option hstarts (fun c hc hn => hn hc)
      fun x _ => (readsBack_singleton (fun x y h => by simpa [Ident.token] using h) x).cons _
  simp only [EventText.tokens, List.cons_append, List.append_assoc] at heq
  obtain ⟨hx, hrest⟩ := List.cons.inj heq
  obtain ⟨rfl, hdata⟩ := hback ext' _ _ (u.begins hr) (u'.begins hr') hrest
  obtain ⟨rfl, hend⟩ := u.readsBack u' r r' hr hr' hdata
  obtain rfl : x = x' := by simpa [Ident.token] using hx
  exact ⟨rfl, hend⟩

/-- A declaration can be read back. -/
lemma DeclText.readsBack (next : Token → Prop) (d : DeclText) :
    ReadsBack DeclText.tokens next d := by
  intro d' r r' _ _ heq
  cases d with
  | states s l =>
    cases d' with
    | states s' l' =>
      obtain ⟨rfl, rfl, hend⟩ := commaTokens_inj StateText.readsBack (List.cons.inj heq).2
      exact ⟨rfl, hend⟩
    | events e' l' => simp [DeclText.tokens] at heq
  | events e l =>
    cases d' with
    | states s' l' => simp [DeclText.tokens] at heq
    | events e' l' =>
      obtain ⟨rfl, rfl, hend⟩ := commaTokens_inj EventText.readsBack (List.cons.inj heq).2
      exact ⟨rfl, hend⟩

/-- The tokens that a declaration may start with. -/
def StartsDecl (c : Token) : Prop := c = .keyword .stateKey ∨ c = .keyword .eventKey

/-- The first token of a declaration is one that starts declarations. -/
lemma DeclText.starts : Starts DeclText.tokens StartsDecl := by
  rintro (⟨s, l⟩ | ⟨e, l⟩)
  · exact ⟨_, _, rfl, .inl rfl⟩
  · exact ⟨_, _, rfl, .inr rfl⟩

/-! ## Matrices -/

/-- The last member of a vector is the one with a parenthesis behind it. -/
private lemma vectorMembers_inj {l l' : List Ident} {x x' : Ident} {r r' : List Token}
    (h : (l.flatMap fun x => [x.token, .char ',']) ++ x.token :: .char ')' :: r =
      (l'.flatMap fun x => [x.token, .char ',']) ++ x'.token :: .char ')' :: r') :
    l = l' ∧ x = x' ∧ r = r' := by
  induction l generalizing l' with
  | nil =>
    cases l' with
    | nil => simpa [Ident.token] using h
    | cons y' l' => simp at h
  | cons y l ih =>
    cases l' with
    | nil => simp at h
    | cons y' l' =>
      simp only [List.flatMap_cons, List.cons_append, List.nil_append, List.cons.injEq,
        true_and] at h
      obtain ⟨hy, hrest⟩ := h
      obtain ⟨rfl, rfl, hend⟩ := ih hrest
      obtain rfl : y = y' := by simpa [Ident.token] using hy
      exact ⟨rfl, rfl, hend⟩

/-- A vector of events or states can be read back. -/
lemma vector_readsBack (next : Token → Prop) (v : EventVector Ident) :
    ReadsBack vectorTokens next v := by
  intro v' r r' _ _ heq
  cases v with
  | all => cases v' <;> simp_all [vectorTokens, Ident.token]
  | scalar x => cases v' <;> simp_all [vectorTokens, Ident.token]
  | vector first rest last =>
    cases v' with
    | vector first' rest' last' =>
      simp only [vectorTokens, List.cons_append, List.append_assoc, List.nil_append] at heq
      obtain ⟨hall, rfl, hend⟩ := vectorMembers_inj (List.cons.inj heq).2
      obtain ⟨rfl, rfl⟩ := List.cons.inj hall
      exact ⟨rfl, hend⟩
    | _ => simp [vectorTokens, Ident.token] at heq

/-- A matrix can be read back. -/
lemma MatrixText.readsBack (next : Token → Prop) (m : MatrixText) :
    ReadsBack MatrixText.tokens next m := by
  obtain ⟨events, states⟩ := m
  rintro ⟨events', states'⟩ r r' _ _ heq
  simp only [MatrixText.tokens, List.cons_append, List.append_assoc, List.nil_append] at heq
  obtain ⟨rfl, hrest⟩ := vector_readsBack (fun _ => True) events events' _ _ (fun _ _ => trivial)
    (fun _ _ => trivial) (List.cons.inj heq).2
  obtain ⟨rfl, hend⟩ := vector_readsBack (fun _ => True) states states' _ _ (fun _ _ => trivial)
    (fun _ _ => trivial) (List.cons.inj hrest).2
  exact ⟨rfl, (List.cons.inj hend).2⟩

/-- Where a transition goes is told by its keyword and its name. -/
lemma TransitionText.ext_keyword {t t' : TransitionText} (hkey : t.keyword = t'.keyword)
    (hname : t.name.token = t'.name.token) : t = t' := by
  obtain ⟨isGuard, x⟩ := t
  obtain ⟨isGuard', x'⟩ := t'
  obtain rfl : x = x' := by simpa [Ident.token] using hname
  cases isGuard <;> cases isGuard' <;> simp_all [keyword]

/-- The tokens that a transition may start with. -/
def StartsTransition (c : Token) : Prop :=
  c = .docKeyword .transitionKey none ∨ c = .docKeyword .guardKey none

/-- The keyword of a transition is one that starts transitions. -/
lemma TransitionText.startsTransition (t : TransitionText) : StartsTransition t.keyword := by
  cases h : t.isGuard <;> simp [StartsTransition, keyword, h]

/-- An action can be read back before what ends a member. -/
lemma ActionText.readsBack (a : ActionText) : ReadsBack ActionText.tokens EndsMember a := by
  obtain ⟨x, m, t⟩ := a
  rintro ⟨x', m', t'⟩ r r' hr hr' heq
  have hback : ReadsBack (fun t : Option TransitionText => t.elim [] TransitionText.tokens)
      EndsMember t := by
    refine .option (fun t => ⟨_, _, rfl, t.startsTransition⟩) ?_ fun t _ t' r r' _ _ heq => ?_
    · rintro c (rfl | rfl) <;> simp [EndsMember]
    · obtain ⟨hkey, hrest⟩ := List.cons.inj heq
      obtain ⟨hname, hend⟩ := List.cons.inj hrest
      exact ⟨t.ext_keyword hkey hname, hend⟩
  simp only [ActionText.tokens, List.cons_append, List.append_assoc] at heq
  obtain ⟨hx, hrest⟩ := List.cons.inj heq
  obtain ⟨rfl, htransition⟩ := m.readsBack (fun _ => True) m' _ _ (fun _ _ => trivial)
    (fun _ _ => trivial) hrest
  obtain ⟨rfl, hend⟩ := hback t' r r' hr hr' htransition
  obtain rfl : x = x' := by simpa [Ident.token] using hx
  exact ⟨rfl, hend⟩

/-- The tokens that a statement may start with. -/
def StartsStatement (c : Token) : Prop :=
  c = .docKeyword .actionKey none ∨ c = .char '[' ∨ StartsTransition c

/-- The first token of a statement is one that starts statements. -/
lemma StatementText.starts : Starts StatementText.tokens StartsStatement := by
  rintro (⟨a, l⟩ | ⟨_ | _, m, t⟩)
  · exact ⟨_, _, rfl, .inl rfl⟩
  · exact ⟨_, _, rfl, .inr (.inr t.startsTransition)⟩
  · exact ⟨_, _, rfl, .inr (.inl rfl)⟩

/-- A statement can be read back. -/
lemma StatementText.readsBack (next : Token → Prop) (s : StatementText) :
    ReadsBack StatementText.tokens next s := by
  -- the first token shows the form of the statement
  have hkey : ∀ t : TransitionText,
      t.keyword ≠ .docKeyword .actionKey none ∧ t.keyword ≠ .char '[' := by
    intro t
    rcases t.startsTransition with h | h <;> rw [h] <;> simp
  intro s' r r' _ _ heq
  rcases s with ⟨a, l⟩ | ⟨_ | _, m, t⟩ <;> rcases s' with ⟨a', l'⟩ | ⟨_ | _, m', t'⟩
  case actions.actions =>
    obtain ⟨rfl, rfl, hend⟩ := commaTokens_inj ActionText.readsBack (List.cons.inj heq).2
    exact ⟨rfl, hend⟩
  case transition.false.transition.false =>
    simp only [StatementText.tokens, List.cons_append, List.append_assoc] at heq
    obtain ⟨hk, hrest⟩ := List.cons.inj heq
    obtain ⟨rfl, htail⟩ := m.readsBack (fun _ => True) m' _ _ (fun _ _ => trivial)
      (fun _ _ => trivial) hrest
    obtain ⟨hname, hend⟩ := List.cons.inj htail
    obtain rfl := t.ext_keyword hk hname
    exact ⟨rfl, (List.cons.inj hend).2⟩
  case transition.true.transition.true =>
    simp only [StatementText.tokens, List.append_assoc] at heq
    obtain ⟨rfl, htail⟩ := m.readsBack (fun _ => True) m' _ _ (fun _ _ => trivial)
      (fun _ _ => trivial) heq
    obtain ⟨hk, hrest⟩ := List.cons.inj htail
    obtain ⟨hname, hend⟩ := List.cons.inj hrest
    obtain rfl := t.ext_keyword hk hname
    exact ⟨rfl, (List.cons.inj hend).2⟩
  all_goals
    have hfirst := (List.cons.inj heq).1
    first
    | exact absurd hfirst (by simp)
    | exact absurd hfirst (hkey _).1
    | exact absurd hfirst (hkey _).2
    | exact absurd hfirst.symm (hkey _).1
    | exact absurd hfirst.symm (hkey _).2

/-! ## Machines -/

/-- A qualifier can be read back. -/
lemma QualifierText.readsBack (next : Token → Prop) (q : QualifierText) :
    ReadsBack QualifierText.tokens next q := by
  intro q' r r' hr hr' heq
  rcases q with fn | what | events | n <;> rcases q' with fn' | what' | events' | n'
  case nativeImpl.nativeImpl =>
    obtain ⟨rfl, hend⟩ := n.readsBack true next n' r r' hr hr' heq
    exact ⟨rfl, hend⟩
  case actionsReturn.actionsReturn =>
    cases what <;> cases what' <;> simp_all [QualifierText.tokens]
  case translatorsReturn.translatorsReturn =>
    cases events <;> cases events' <;> simp_all [QualifierText.tokens]
  case onTransition.nativeImpl | actionsReturn.nativeImpl | translatorsReturn.nativeImpl =>
    rcases n' with ⟨_ | _, b⟩ | b <;> simp_all [QualifierText.tokens, NativeText.tokens]
  case nativeImpl.onTransition | nativeImpl.actionsReturn | nativeImpl.translatorsReturn =>
    rcases n with ⟨_ | _, b⟩ | b <;> simp_all [QualifierText.tokens, NativeText.tokens]
  all_goals simp_all [QualifierText.tokens, Ident.token]

/-- The tokens that a qualifier may start with. -/
def StartsQualifier (c : Token) : Prop :=
  c = .keyword .on ∨ c = .keyword .actions ∨ c = .keyword .dataKey ∨ c = .keyword .nativeKey

/-- The first token of a qualifier is one that starts qualifiers. -/
lemma QualifierText.starts : Starts QualifierText.tokens StartsQualifier := by
  rintro (fn | what | events | n)
  · exact ⟨_, _, rfl, .inl rfl⟩
  · exact ⟨_, _, rfl, .inr (.inl rfl)⟩
  · exact ⟨_, _, rfl, .inr (.inr (.inl rfl))⟩
  · obtain ⟨c, text, hn, hc⟩ := NativeText.starts true n
    exact ⟨c, text, hn, .inr (.inr (.inr hc))⟩

/-- The tokens that a machine may start with. -/
def StartsMachine (c : Token) : Prop :=
  c = .keyword .nativeKey ∨ c = .keyword .reentrant ∨ c = .keyword .machineKey

/-- The first token of a machine is one that starts machines. -/
lemma MachineText.starts : Starts MachineText.tokens StartsMachine := by
  refine starts_of_begins ?_ ?_
  · rintro ⟨own, ms⟩
    simp [MachineText.tokens, OwnText.openingTokens]
  · rintro ⟨own, ms⟩
    simp only [MachineText.tokens, OwnText.openingTokens, List.append_assoc]
    refine (NativeText.starts false).begins_flatMap (fun c hc => .inl hc) ?_ own.natives
    cases own.reentrant <;> simp [StartsMachine]

/-- What may follow the declarations of a machine. -/
def EndsDecls (c : Token) : Prop := StartsMachine c ∨ StartsStatement c ∨ c = .char '\x7d'

/-- The native blocks before a machine can be read back. -/
lemma NativeText.readsBack_flatMap (l : List NativeText) :
    ReadsBack (fun l : List NativeText => l.flatMap (NativeText.tokens false))
      (fun c => c = .keyword .reentrant ∨ c = .keyword .machineKey) l :=
  .flatMap (NativeText.starts false) (by rintro c rfl; simp) fun n _ => n.readsBack _ _

/-- The qualifiers of a machine can be read back. -/
lemma QualifierText.readsBack_flatMap (l : List QualifierText) :
    ReadsBack (fun l : List QualifierText => l.flatMap QualifierText.tokens)
      (fun c => c = .char '\x7b') l := by
  refine .flatMap QualifierText.starts ?_ fun q _ => q.readsBack _
  rintro c (rfl | rfl | rfl | rfl) <;> simp

/-- The machine's data. -/
private lemma DataBlock.readsBack_option (data : Option DataBlock) :
    ReadsBack (fun b : Option DataBlock => b.elim [] fun b => .keyword .dataKey :: b.tokens)
      (fun c => c ≠ .keyword .dataKey) data :=
  .option (show Starts _ (fun c => c = .keyword .dataKey) from fun _ => ⟨_, _, rfl, rfl⟩)
    (fun _ hc hn => hn hc) fun b _ => (b.readsBack _).cons _

/-- The declarations of a machine can be read back. -/
lemma DeclText.readsBack_flatMap (l : List DeclText) :
    ReadsBack (fun l : List DeclText => l.flatMap DeclText.tokens) EndsDecls l := by
  refine .flatMap DeclText.starts ?_ fun d _ => d.readsBack _
  rintro c (rfl | rfl) <;> simp [EndsDecls, StartsMachine, StartsStatement, StartsTransition]

/-- What may follow the machine's data. -/
lemma DeclText.begins_flatMap (l : List DeclText) {r : List Token} (hr : Begins EndsDecls r) :
    Begins (fun c => c ≠ .keyword .dataKey) (l.flatMap DeclText.tokens ++ r) := by
  refine DeclText.starts.begins_flatMap ?_ (hr.mono ?_) l
  · rintro c (rfl | rfl) <;> simp
  · rintro c ((rfl | rfl | rfl) | (rfl | rfl | rfl | rfl) | rfl) <;> simp

/-- The part up to the sub-machines is read back before a sub-machine, a statement or the end. -/
private lemma OwnText.openingTokens_inj {o o' : OwnText} {r r' : List Token}
    (hr : Begins EndsDecls r)
    (hr' : Begins EndsDecls r') (heq : o.openingTokens ++ r = o'.openingTokens ++ r') :
    o = { o' with statements := o.statements } ∧ r = r' := by
  obtain ⟨natives, reentrant, x, qualifiers, data, decls, statements⟩ := o
  obtain ⟨natives', reentrant', x', qualifiers', data', decls', statements'⟩ := o'
  simp only [openingTokens, List.append_assoc, List.cons_append] at heq
  obtain ⟨rfl, hrest⟩ := NativeText.readsBack_flatMap natives natives' _ _
    (by cases reentrant <;> simp) (by cases reentrant' <;> simp) heq
  obtain ⟨rfl, rfl, hopen⟩ : reentrant = reentrant' ∧ x = x' ∧
      qualifiers.flatMap QualifierText.tokens ++ .char '\x7b' ::
        ((data.elim [] fun b => .keyword .dataKey :: b.tokens) ++
          (decls.flatMap DeclText.tokens ++ r)) =
      qualifiers'.flatMap QualifierText.tokens ++ .char '\x7b' ::
        ((data'.elim [] fun b => .keyword .dataKey :: b.tokens) ++
          (decls'.flatMap DeclText.tokens ++ r')) := by
    cases reentrant <;> cases reentrant' <;> simp [Ident.token] at hrest ⊢ <;> exact hrest
  obtain ⟨rfl, hbrace⟩ := QualifierText.readsBack_flatMap qualifiers qualifiers' _ _ (by simp)
    (by simp) hopen
  obtain ⟨rfl, hdeclared⟩ := DataBlock.readsBack_option data data' _ _
    (DeclText.begins_flatMap decls hr) (DeclText.begins_flatMap decls' hr') (List.cons.inj hbrace).2
  obtain ⟨rfl, hend⟩ := DeclText.readsBack_flatMap decls decls' _ _ hr hr' hdeclared
  exact ⟨rfl, hend⟩

/-- The statements at the end of a machine can be read back. -/
private lemma OwnText.closingTokens_inj {o o' : OwnText} {r r' : List Token}
    (heq : o.closingTokens ++ r = o'.closingTokens ++ r') :
    o.statements = o'.statements ∧ r = r' := by
  have hback : ReadsBack (fun l : List StatementText => l.flatMap StatementText.tokens)
      (fun c => c = .char '\x7d') o.statements := by
    refine .flatMap StatementText.starts ?_ fun s _ => s.readsBack _
    rintro c (rfl | rfl | rfl | rfl) <;> simp
  simp only [closingTokens, List.append_assoc, List.cons_append, List.nil_append] at heq
  obtain ⟨hstatements, hend⟩ := hback o'.statements _ _ (by simp) (by simp) heq
  exact ⟨hstatements, (List.cons.inj hend).2⟩

/-- The end of a machine starts with a statement or with the closing brace. -/
lemma OwnText.begins_closingTokens (o : OwnText) (r : List Token) :
    Begins (fun c => StartsStatement c ∨ c = .char '\x7d') (o.closingTokens ++ r) := by
  rw [closingTokens, List.append_assoc]
  exact StatementText.starts.begins_flatMap (fun c hc => .inl hc) (by simp) o.statements

/-- **Machines are read back**, whatever follows them. By induction on the tree: a machine ends with
its brace, so its sub-machines are told from its statements and from what comes later. -/
lemma MachineText.readsBack (next : Token → Prop) (m : MachineText) :
    ReadsBack MachineText.tokens next m := by
  induction m using MachineText.induct generalizing next with
  | mk own ms ih =>
    rintro ⟨own', ms'⟩ r r' hr hr' heq
    have hback : ReadsBack (fun l : List MachineText => l.flatMap MachineText.tokens)
        (fun c => StartsStatement c ∨ c = .char '\x7d') ms := by
      refine .flatMap MachineText.starts ?_ fun m hm => ih m hm _
      rintro c (rfl | rfl | rfl) <;> simp [StartsStatement, StartsTransition]
    have hbegins : ∀ (ms : List MachineText) (o : OwnText) (r : List Token),
        Begins EndsDecls (ms.flatMap MachineText.tokens ++ (o.closingTokens ++ r)) := fun ms o r =>
      MachineText.starts.begins_flatMap (fun c hc => .inl hc)
        ((o.begins_closingTokens r).mono fun c hc => .inr hc) ms
    simp only [MachineText.tokens, MachineText.listTokens_eq, fileTokens, List.append_assoc] at heq
    obtain ⟨hown, hrest⟩ := OwnText.openingTokens_inj (hbegins ms own r) (hbegins ms' own' r') heq
    obtain ⟨rfl, hclosing⟩ := hback ms' _ _ (own.begins_closingTokens r)
      (own'.begins_closingTokens r') hrest
    obtain ⟨hstatements, hend⟩ := OwnText.closingTokens_inj hclosing
    refine ⟨?_, hend⟩
    rw [hown, hstatements]

/-- A text that is written for machines, with documentation comments or without. -/
def IsText (ms : List MachineText) (text : List Token) : Prop :=
  text.map Token.plain = fileTokens ms

/-- The text of a single machine is the machine's own. -/
lemma isText_singleton (m : MachineText) (text : List Token) :
    IsText [m] text ↔ text.map Token.plain = m.tokens := by
  rw [IsText, fileTokens, List.flatMap_singleton]

/-- A file has one list of machines. -/
lemma IsText.unique {ms ms' : List MachineText} {text : List Token} (h : IsText ms text)
    (h' : IsText ms' text) : ms = ms' := by
  have hback : ReadsBack (fun l : List MachineText => l.flatMap MachineText.tokens)
      (fun _ => False) ms :=
    .flatMap MachineText.starts (by simp) fun m _ => m.readsBack _
  have hfile : fileTokens ms ++ [] = fileTokens ms' ++ [] := by rw [← h, ← h']
  exact (hback ms' [] [] begins_nil begins_nil hfile).1

/-- **One reading.** At a place of a text at most one machine can be read, with its lists flat, and
where it ends does not depend on what comes after it; documentation comments do not matter. -/
theorem read_uniquely {m m' : MachineText} {text text' rest rest' : List Token}
    (h : IsText [m] text) (h' : IsText [m'] text') (heq : text ++ rest = text' ++ rest') :
    m = m' ∧ text = text' ∧ rest = rest' := by
  have hplain : m.tokens ++ rest.map Token.plain = m'.tokens ++ rest'.map Token.plain := by
    rw [← (isText_singleton m text).mp h, ← (isText_singleton m' text').mp h', ← List.map_append,
      ← List.map_append, heq]
  obtain ⟨rfl, -⟩ := m.readsBack (fun _ => True) m' _ _ (fun _ _ => trivial) (fun _ _ => trivial)
    hplain
  have hlength : text.length = text'.length := by
    have hmap : text.map Token.plain = text'.map Token.plain :=
      ((isText_singleton m text).mp h).trans ((isText_singleton m text').mp h').symm
    simpa using congrArg List.length hmap
  obtain ⟨rfl, hrest⟩ := List.append_inj heq hlength
  exact ⟨rfl, rfl, hrest⟩

/-- A machine with the states `a` and `b` and the event `e`, that goes from `a` to `b`. -/
def twoStatesText : MachineText :=
  .mk
    { natives := [], reentrant := false, name := .of 'm' [], qualifiers := [], data := none
      decls := [.states ⟨.of 'a' [], []⟩ [⟨.of 'b' [], []⟩], .events ⟨.of 'e' [], none, .none⟩ []]
      statements :=
        [.transition true ⟨.scalar (.of 'e' []), .scalar (.of 'a' [])⟩ ⟨false, .of 'b' []⟩] }
    []

/-- The machine with two states is written as its tokens. -/
lemma isText_twoStatesText : IsText [twoStatesText] twoStatesText.tokens := by
  rw [isText_singleton]
  rfl

/-- The only machine that can be read in front of a semicolon after this text. -/
theorem read_uniquely_twoStatesText :
    {m : MachineText | ∃ text rest, IsText [m] text ∧
      text ++ rest = twoStatesText.tokens ++ [.char ';']} = {twoStatesText} := by
  ext m
  constructor
  · rintro ⟨text, rest, h, heq⟩
    exact (read_uniquely h isText_twoStatesText heq).1
  · rintro rfl
    exact ⟨_, _, isText_twoStatesText, rfl⟩

end FsmLang
