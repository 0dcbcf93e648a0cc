import Mathlib.Data.List.Basic
import Mathlib.Tactic
import FsmLang.ActionArray

set_option relaxedAutoImplicit false
set_option autoImplicit false

/-!
# Returns declarations of transition functions

`fn returns s1, s2;` (Mode A) and `fn returns s1 when c, s2 otherwise;` (Mode B) declare what a
transition function may return. The specification asks of Mode B that every choice be annotated,
that `otherwise` appear exactly once, and that it be the last choice.

The grammar has four rules for a declaration and no check beyond them: the choices of one
declaration are all plain or all annotated, and that is all. Choices are appended to the lists of
the function, which a later declaration extends.

The parser is modelled as the automaton of these rules. A name after `when` is a new identifier
the first time and a known transition function from then on.

## Main definitions

* `Choice`, `ReturnsDeclaration` — what is written.
* `parserStep`, `parseDeclarations` — the automaton with its actions.
* `ModeRules` — what the specification asks for.

## Main results

* `foldlM_declaration` — what the parser does with a declaration.
* `accepts_iff` — which sequences of declarations are accepted.
* `accepts_iff_modeRules_iff` — when these are the ones that the specification admits.
-/

namespace FsmLang

/-! ## What is written -/

/-- A choice of a returns declaration. The states include `noTransition`. -/
inductive Choice (σ : Type*) where
  | plain (s : σ)
  | when (s : σ) (conditionFn : String)
  | otherwise (s : σ)
  deriving DecidableEq, Repr

/-- A choice with `when` or `otherwise`. -/
def Choice.annotated {σ : Type*} : Choice σ → Bool
  | plain _ => false
  | _ => true

/-- A plain choice is not annotated. -/
@[simp] lemma Choice.annotated_plain {σ : Type*} (s : σ) : (plain s).annotated = false := rfl

/-- A choice with `when` is annotated. -/
@[simp] lemma Choice.annotated_when {σ : Type*} (s : σ) (c : String) :
    (when s c).annotated = true := rfl

/-- A choice with `otherwise` is annotated. -/
@[simp] lemma Choice.annotated_otherwise {σ : Type*} (s : σ) :
    (otherwise s).annotated = true := rfl

/-- A choice with `otherwise`. -/
def Choice.isOtherwise {σ : Type*} : Choice σ → Bool
  | otherwise _ => true
  | _ => false

/-- The choices of one returns declaration; there is at least one. -/
structure ReturnsDeclaration (σ : Type*) where
  first : Choice σ
  rest : List (Choice σ)
  deriving DecidableEq, Repr

/-- All choices of a declaration. -/
def ReturnsDeclaration.choices {σ : Type*} (d : ReturnsDeclaration σ) : List (Choice σ) :=
  d.first :: d.rest

/-- What the lexer finds in a returns declaration. `fnName` is the name of the function that the
declaration is for. -/
inductive Lexeme (σ : Type*) where
  | fnName
  | returnsKey
  | state (s : σ)
  | whenKey
  | otherwiseKey
  | name (conditionFn : String)
  | comma
  | semicolon
  deriving DecidableEq, Repr

section Text

variable {σ : Type*}

/-- The text of a choice. -/
def choiceLexemes : Choice σ → List (Lexeme σ)
  | .plain s => [.state s]
  | .when s c => [.state s, .whenKey, .name c]
  | .otherwise s => [.state s, .otherwiseKey]

/-- A plain choice is written as its state. -/
@[simp] lemma choiceLexemes_plain (s : σ) : choiceLexemes (.plain s) = [.state s] := rfl

/-- A choice with `when` is written as its state, the keyword and the condition. -/
@[simp] lemma choiceLexemes_when (s : σ) (c : String) :
    choiceLexemes (.when s c) = [.state s, .whenKey, .name c] := rfl

/-- A choice with `otherwise` is written as its state and the keyword. -/
@[simp] lemma choiceLexemes_otherwise (s : σ) :
    choiceLexemes (.otherwise s) = [.state s, .otherwiseKey] := rfl

/-- The text of a declaration. -/
def declarationLexemes (d : ReturnsDeclaration σ) : List (Lexeme σ) :=
  [.fnName, .returnsKey] ++ choiceLexemes d.first ++
    d.rest.flatMap (fun c => .comma :: choiceLexemes c) ++ [.semicolon]

/-! ## The parser -/

/-- An annotated choice as the parser stores it. -/
structure ReturnChoiceData (σ : Type*) where
  state : σ
  conditionFn : Option String
  isOtherwise : Bool
  deriving DecidableEq, Repr

/-- The right end of the parser's stack: between two statements, or within the rules of
`transition_fn_return_decl`, with the values of the lists on it. -/
inductive ParserState (σ : Type*) where
  | statement
  | fnName
  | returnsKey
  | state (stateCommaList : List σ) (s : σ)
  | stateComma (stateCommaList : List σ)
  | choiceState (choices : List (ReturnChoiceData σ)) (s : σ)
  | whenKey (choices : List (ReturnChoiceData σ)) (s : σ)
  | cond (choices : List (ReturnChoiceData σ)) (c : ReturnChoiceData σ)
  | condComma (choices : List (ReturnChoiceData σ))
  deriving DecidableEq, Repr

/-- The parser with what it has stored: the names known as transition functions, and the two lists
of the function that the declarations are for. -/
structure ReturnsParser (σ : Type*) where
  state : ParserState σ
  transitionFns : List String
  returnsDecl : List σ
  returnsCondDecl : List (ReturnChoiceData σ)
  deriving DecidableEq, Repr

/-- Make a name a transition function (`set_id_type`), unless it is one. -/
def learnTransitionFn (transitionFns : List String) (c : String) : List String :=
  if c ∈ transitionFns then transitionFns else c :: transitionFns

variable [DecidableEq σ]

/-- One lexeme: a shift, with the reductions that follow it. `none` is a syntax error. After the
first state the parser is both in the rule for plain states and in the one for choices; after the
first comma it is in one of them. -/
def parserStep (P : ReturnsParser σ) (x : Lexeme σ) : Option (ReturnsParser σ) :=
  match P.state, x with
  | .statement, .fnName => some { P with state := .fnName }
  | .fnName, .returnsKey => some { P with state := .returnsKey }
  | .returnsKey, .state s => some { P with state := .state [] s }
  | .state l s, .comma => some { P with state := .stateComma (l ++ [s]) }
  | .state l s, .semicolon =>
    some { P with
      state := .statement
      returnsDecl := (addUniqueToList l s).foldl addUniqueToList P.returnsDecl }
  | .state [] s, .whenKey => some { P with state := .whenKey [] s }
  | .state [] s, .otherwiseKey => some { P with state := .cond [] ⟨s, none, true⟩ }
  | .stateComma l, .state s => some { P with state := .state l s }
  | .choiceState cs s, .whenKey => some { P with state := .whenKey cs s }
  | .choiceState cs s, .otherwiseKey => some { P with state := .cond cs ⟨s, none, true⟩ }
  | .whenKey cs s, .name c =>
    some { P with
      state := .cond cs ⟨s, some c, false⟩
      transitionFns := learnTransitionFn P.transitionFns c }
  | .cond cs c, .comma => some { P with state := .condComma (cs ++ [c]) }
  | .cond cs c, .semicolon =>
    some { P with state := .statement, returnsCondDecl := P.returnsCondDecl ++ (cs ++ [c]) }
  | .condComma cs, .state s => some { P with state := .choiceState cs s }
  | _, _ => none

/-- Parse a sequence of declarations. -/
def parseDeclarations (P : ReturnsParser σ) (ds : List (ReturnsDeclaration σ)) :
    Option (ReturnsParser σ) :=
  (ds.flatMap declarationLexemes).foldlM parserStep P

omit [DecidableEq σ] in
/-- The parser before the first declaration for a function. -/
def ReturnsParser.start (transitionFns : List String) : ReturnsParser σ :=
  ⟨.statement, transitionFns, [], []⟩

/-- All declarations for a function are parsed without error. -/
def Accepts (transitionFns : List String) (ds : List (ReturnsDeclaration σ)) : Prop :=
  ∃ Q, parseDeclarations (.start transitionFns) ds = some Q ∧ Q.state = .statement

/-! ## What the specification asks for -/

omit [DecidableEq σ] in
/-- No choice is annotated, or all are, exactly one of them with `otherwise`, and that one is the
last. -/
def ModeRules (cs : List (Choice σ)) : Prop :=
  (∀ c ∈ cs, c.annotated = false) ∨
    (∀ c ∈ cs, c.annotated = true) ∧ cs.countP Choice.isOtherwise = 1 ∧
      cs.getLast?.any Choice.isOtherwise = true

omit [DecidableEq σ] in
/-- A declaration with plain and with annotated choices. -/
def ReturnsDeclaration.Mixed (d : ReturnsDeclaration σ) : Prop :=
  (∃ c ∈ d.choices, c.annotated = false) ∧ ∃ c ∈ d.choices, c.annotated = true

/-! ## What the parser does -/

/-- The state of a choice. -/
def Choice.state : Choice σ → σ
  | plain s | when s _ | otherwise s => s

/-- The state of a plain choice. -/
@[simp] lemma Choice.state_plain {σ : Type*} (s : σ) : (plain s).state = s := rfl

/-- An annotated choice as it is stored. -/
def Choice.data : Choice σ → ReturnChoiceData σ
  | plain s => ⟨s, none, false⟩
  | when s c => ⟨s, some c, false⟩
  | otherwise s => ⟨s, none, true⟩

/-- What is stored of a choice with `when`. -/
@[simp] lemma Choice.data_when {σ : Type*} (s : σ) (c : String) :
    (when s c).data = ⟨s, some c, false⟩ := rfl

/-- What is stored of a choice with `otherwise`. -/
@[simp] lemma Choice.data_otherwise {σ : Type*} (s : σ) :
    (otherwise s).data = ⟨s, none, true⟩ := rfl

/-- The transition functions known after a choice. -/
def Choice.learn (transitionFns : List String) : Choice σ → List String
  | when _ c => learnTransitionFn transitionFns c
  | _ => transitionFns

omit [DecidableEq σ] in
/-- A condition becomes a transition function. -/
@[simp] lemma Choice.learn_when (fns : List String) (s : σ) (c : String) :
    learn fns (when s c) = learnTransitionFn fns c := rfl

omit [DecidableEq σ] in
/-- A choice with `otherwise` names no condition. -/
@[simp] lemma Choice.learn_otherwise (fns : List String) (s : σ) :
    learn fns (otherwise s) = fns := rfl

/-- Adding a state that a list has been given before changes nothing. -/
private lemma foldl_addUniqueToList_append (l : List σ) (s : σ) (decl : List σ) :
    (addUniqueToList l s).foldl addUniqueToList decl =
      (l ++ [s]).foldl addUniqueToList decl := by
  by_cases hs : s ∈ l
  · have hadded : s ∈ l.foldl addUniqueToList decl := mem_foldl_addUniqueToList.mpr (.inr hs)
    rw [List.foldl_append, List.foldl_cons, List.foldl_nil, addUniqueToList, if_pos hs,
      addUniqueToList, if_pos hadded]
  · rw [addUniqueToList, if_neg hs]

/-- A further plain choice. -/
lemma foldlM_comma_state (P : ReturnsParser σ) (l : List σ) (s t : σ) (more : List (Lexeme σ)) :
    (.comma :: .state t :: more).foldlM parserStep { P with state := .state l s } =
      more.foldlM parserStep { P with state := .state (l ++ [s]) t } := rfl

/-- A further choice with `when`. -/
private lemma foldlM_comma_when (P : ReturnsParser σ) (cs : List (ReturnChoiceData σ))
    (c : ReturnChoiceData σ) (t : σ) (b : String) (more : List (Lexeme σ)) :
    (.comma :: .state t :: .whenKey :: .name b :: more).foldlM parserStep
        { P with state := .cond cs c } =
      more.foldlM parserStep { P with
        state := .cond (cs ++ [c]) ⟨t, some b, false⟩
        transitionFns := learnTransitionFn P.transitionFns b } := rfl

/-- A further choice with `otherwise`. -/
private lemma foldlM_comma_otherwise (P : ReturnsParser σ) (cs : List (ReturnChoiceData σ))
    (c : ReturnChoiceData σ) (t : σ) (more : List (Lexeme σ)) :
    (.comma :: .state t :: .otherwiseKey :: more).foldlM parserStep { P with state := .cond cs c } =
      more.foldlM parserStep { P with state := .cond (cs ++ [c]) ⟨t, none, true⟩ } := rfl

/-- After an annotated choice a plain one is an error. -/
lemma foldlM_comma_state_comma (P : ReturnsParser σ) (cs : List (ReturnChoiceData σ))
    (c : ReturnChoiceData σ) (t : σ) {x : Lexeme σ} (hx : x = .comma ∨ x = .semicolon)
    (more : List (Lexeme σ)) :
    (.comma :: .state t :: x :: more).foldlM parserStep { P with state := .cond cs c } = none := by
  rcases hx with rfl | rfl <;> rfl

/-- In a list of plain choices nothing annotated follows the first comma. -/
lemma parserStep_state_append (P : ReturnsParser σ) (l : List σ) (s t : σ) {x : Lexeme σ}
    (hx : x = .whenKey ∨ x = .otherwiseKey) :
    parserStep { P with state := .state (l ++ [s]) t } x = none := by
  have hne : l ++ [s] ≠ [] := by simp
  obtain ⟨a, as, has⟩ := List.exists_cons_of_ne_nil hne
  rw [has]
  rcases hx with rfl | rfl <;> rfl

/-- The rest of a declaration after a plain choice: all further choices must be plain. -/
private lemma foldlM_plain (P : ReturnsParser σ) (rest : List (Choice σ)) (l : List σ) (s : σ)
    (more : List (Lexeme σ)) :
    (rest.flatMap (fun c => .comma :: choiceLexemes c) ++ .semicolon :: more).foldlM parserStep
        { P with state := .state l s } =
      if ∀ c ∈ rest, c.annotated = false then
        more.foldlM parserStep { P with
          state := .statement
          returnsDecl := (l ++ [s] ++ rest.map Choice.state).foldl addUniqueToList P.returnsDecl }
      else none := by
  induction rest generalizing l s with
  | nil => simp [parserStep, foldl_addUniqueToList_append]
  | cons c rest ih =>
    rw [List.flatMap_cons, List.cons_append, List.cons_append]
    cases c with
    | plain t =>
      simp only [choiceLexemes_plain, List.cons_append, List.nil_append]
      rw [foldlM_comma_state, ih]
      simp
    | when t c =>
      simp only [choiceLexemes_when, List.cons_append, List.nil_append]
      rw [foldlM_comma_state, List.foldlM_cons, parserStep_state_append P l s t (.inl rfl)]
      simp
    | otherwise t =>
      simp only [choiceLexemes_otherwise, List.cons_append, List.nil_append]
      rw [foldlM_comma_state, List.foldlM_cons, parserStep_state_append P l s t (.inr rfl)]
      simp

/-- The rest of a declaration after an annotated choice: all further choices must be annotated. -/
lemma foldlM_annotated (P : ReturnsParser σ) (rest : List (Choice σ))
    (cs : List (ReturnChoiceData σ)) (c : ReturnChoiceData σ) (more : List (Lexeme σ)) :
    (rest.flatMap (fun c => .comma :: choiceLexemes c) ++ .semicolon :: more).foldlM parserStep
        { P with state := .cond cs c } =
      if ∀ c ∈ rest, c.annotated = true then
        more.foldlM parserStep { P with
          state := .statement
          transitionFns := rest.foldl Choice.learn P.transitionFns
          returnsCondDecl := P.returnsCondDecl ++ (cs ++ [c] ++ rest.map Choice.data) }
      else none := by
  induction rest generalizing P cs c with
  | nil => simp [parserStep]
  | cons d rest ih =>
    rw [List.flatMap_cons, List.cons_append, List.cons_append]
    cases d with
    | plain t =>
      -- after the state only `when` or `otherwise` can follow
      simp only [choiceLexemes_plain, List.cons_append, List.nil_append]
      cases rest with
      | nil =>
        rw [List.flatMap_nil, List.nil_append, foldlM_comma_state_comma P cs c t (.inr rfl)]
        simp
      | cons d rest =>
        rw [List.flatMap_cons, List.cons_append, List.cons_append,
          foldlM_comma_state_comma P cs c t (.inl rfl)]
        simp
    | when t b =>
      have hrest := ih { P with transitionFns := learnTransitionFn P.transitionFns b } (cs ++ [c])
        ⟨t, some b, false⟩
      dsimp only at hrest
      simp only [choiceLexemes_when, List.cons_append, List.nil_append]
      rw [foldlM_comma_when, hrest]
      simp
    | otherwise t =>
      simp only [choiceLexemes_otherwise, List.cons_append, List.nil_append]
      rw [foldlM_comma_otherwise, ih P (cs ++ [c]) ⟨t, none, true⟩]
      simp

/-- What a declaration adds to what the parser has stored. -/
def declare (P : ReturnsParser σ) (d : ReturnsDeclaration σ) : ReturnsParser σ :=
  if d.first.annotated then
    { P with
      transitionFns := d.choices.foldl Choice.learn P.transitionFns
      returnsCondDecl := P.returnsCondDecl ++ d.choices.map Choice.data }
  else
    { P with returnsDecl := (d.choices.map Choice.state).foldl addUniqueToList P.returnsDecl }

/-- A declaration does not change the parser's state. -/
lemma declare_state (P : ReturnsParser σ) (d : ReturnsDeclaration σ) :
    (declare P d).state = P.state := by
  unfold declare
  split_ifs <;> rfl

omit [DecidableEq σ] in
/-- A declaration mixes the modes if a later choice is not of the kind of the first. -/
lemma mixed_iff (d : ReturnsDeclaration σ) :
    d.Mixed ↔ ¬ ∀ c ∈ d.rest, c.annotated = d.first.annotated := by
  unfold ReturnsDeclaration.Mixed ReturnsDeclaration.choices
  cases hfirst : d.first.annotated with
  | false => simp [hfirst]
  | true => simp [hfirst]

section First

variable (fns : List String) (decl : List σ) (condDecl : List (ReturnChoiceData σ)) (s : σ)
  (more : List (Lexeme σ))

/-- A declaration up to its first choice, a plain one. -/
private lemma foldlM_first_state :
    (.fnName :: .returnsKey :: .state s :: more).foldlM parserStep
        ⟨.statement, fns, decl, condDecl⟩ =
      more.foldlM parserStep ⟨.state [] s, fns, decl, condDecl⟩ := rfl

/-- The same with `when`. -/
private lemma foldlM_first_when (b : String) :
    (.fnName :: .returnsKey :: .state s :: .whenKey :: .name b :: more).foldlM parserStep
        ⟨.statement, fns, decl, condDecl⟩ =
      more.foldlM parserStep
        ⟨.cond [] ⟨s, some b, false⟩, learnTransitionFn fns b, decl, condDecl⟩ := rfl

/-- The same with `otherwise`. -/
private lemma foldlM_first_otherwise :
    (.fnName :: .returnsKey :: .state s :: .otherwiseKey :: more).foldlM parserStep
        ⟨.statement, fns, decl, condDecl⟩ =
      more.foldlM parserStep ⟨.cond [] ⟨s, none, true⟩, fns, decl, condDecl⟩ := rfl

end First

/-- **A declaration.** The parser stores the choices of a declaration whose choices are all plain
or all annotated, and ends with an error in any other. -/
lemma foldlM_declaration (P : ReturnsParser σ) (hP : P.state = .statement)
    (d : ReturnsDeclaration σ) (more : List (Lexeme σ)) :
    (declarationLexemes d ++ more).foldlM parserStep P =
      if ∀ c ∈ d.rest, c.annotated = d.first.annotated then more.foldlM parserStep (declare P d)
      else none := by
  obtain ⟨first, rest⟩ := d
  obtain ⟨state, fns, decl, condDecl⟩ := P
  obtain rfl : state = .statement := hP
  have hform : declarationLexemes ⟨first, rest⟩ ++ more = .fnName :: .returnsKey ::
      (choiceLexemes first ++
        (rest.flatMap (fun c => .comma :: choiceLexemes c) ++ .semicolon :: more)) := by
    simp [declarationLexemes]
  rw [hform]
  cases first with
  | plain s =>
    have h := foldlM_plain ⟨.statement, fns, decl, condDecl⟩ rest [] s more
    rw [choiceLexemes_plain, List.singleton_append, foldlM_first_state, h]
    simp [declare, ReturnsDeclaration.choices]
  | when s c =>
    have h := foldlM_annotated ⟨.statement, learnTransitionFn fns c, decl, condDecl⟩ rest []
      ⟨s, some c, false⟩ more
    simp only [choiceLexemes_when, List.cons_append, List.nil_append]
    rw [foldlM_first_when, h]
    simp [declare, ReturnsDeclaration.choices]
  | otherwise s =>
    have h := foldlM_annotated ⟨.statement, fns, decl, condDecl⟩ rest [] ⟨s, none, true⟩ more
    simp only [choiceLexemes_otherwise, List.cons_append, List.nil_append]
    rw [foldlM_first_otherwise, h]
    simp [declare, ReturnsDeclaration.choices]

/-- What the parser has stored after a sequence of declarations, none of which mixes the modes. -/
lemma parseDeclarations_eq (P : ReturnsParser σ) (hP : P.state = .statement)
    (ds : List (ReturnsDeclaration σ)) (hds : ∀ d ∈ ds, ¬ d.Mixed) :
    parseDeclarations P ds = some (ds.foldl declare P) := by
  unfold parseDeclarations
  induction ds generalizing P with
  | nil => rfl
  | cons d ds ih =>
    have hd := not_not.mp ((mixed_iff d).not.mp (hds d List.mem_cons_self))
    rw [List.flatMap_cons, foldlM_declaration P hP, if_pos hd,
      ih (declare P d) (by rw [declare_state, hP]) fun c hc => hds c (List.mem_cons_of_mem d hc)]
    rfl

/-- A sequence of declarations that is parsed without error mixes the modes in none of them. -/
lemma not_mixed_of_parseDeclarations {P Q : ReturnsParser σ} (hP : P.state = .statement)
    {ds : List (ReturnsDeclaration σ)} (hQ : parseDeclarations P ds = some Q) :
    ∀ d ∈ ds, ¬ d.Mixed := by
  unfold parseDeclarations at hQ
  induction ds generalizing P with
  | nil => simp
  | cons d ds ih =>
    rw [List.flatMap_cons, foldlM_declaration P hP] at hQ
    split_ifs at hQ with hsame
    · have hd : ¬ d.Mixed := fun h => (mixed_iff d).mp h hsame
      intro c hc
      rcases List.mem_cons.mp hc with h | h
      · rw [h]
        exact hd
      · exact ih (by rw [declare_state, hP]) hQ c h

/-- The list of plain returns after a sequence of declarations that is parsed without error. -/
lemma mem_returnsDecl_of_parseDeclarations {transitionFns : List String} {Q : ReturnsParser σ}
    {ds : List (ReturnsDeclaration σ)}
    (hQ : parseDeclarations (.start transitionFns) ds = some Q) (s : σ) :
    s ∈ Q.returnsDecl ↔ ∃ d ∈ ds, ∃ c ∈ d.choices, c.annotated = false ∧ c.state = s := by
  have hmixed := not_mixed_of_parseDeclarations rfl hQ
  rw [parseDeclarations_eq _ rfl ds hmixed] at hQ
  obtain rfl := Option.some.inj hQ
  have hrun : ∀ (ds : List (ReturnsDeclaration σ)) (P : ReturnsParser σ), (∀ d ∈ ds, ¬ d.Mixed) →
      (s ∈ (ds.foldl declare P).returnsDecl ↔ s ∈ P.returnsDecl ∨
        ∃ d ∈ ds, ∃ c ∈ d.choices, c.annotated = false ∧ c.state = s) := by
    intro ds
    induction ds with
    | nil => simp
    | cons d ds ih =>
      intro P hds
      have hd := not_not.mp ((mixed_iff d).not.mp (hds d List.mem_cons_self))
      have hplain : s ∈ (declare P d).returnsDecl ↔ s ∈ P.returnsDecl ∨
          ∃ c ∈ d.choices, c.annotated = false ∧ c.state = s := by
        have hall : ∀ c ∈ d.choices, c.annotated = d.first.annotated :=
          List.forall_mem_cons.mpr ⟨rfl, hd⟩
        unfold declare
        split_ifs with hfirst
        · have hnone : ¬ ∃ c ∈ d.choices, c.annotated = false ∧ c.state = s := by
            rintro ⟨c, hc, hfalse, -⟩
            rw [hall c hc, hfirst] at hfalse
            cases hfalse
          exact ⟨.inl, fun h => h.resolve_right hnone⟩
        · rw [mem_foldl_addUniqueToList, List.mem_map]
          have hfirst := Bool.not_eq_true _ ▸ hfirst
          refine or_congr_right ⟨?_, ?_⟩
          · rintro ⟨c, hc, hs⟩
            exact ⟨c, hc, (hall c hc).trans hfirst, hs⟩
          · rintro ⟨c, hc, -, hs⟩
            exact ⟨c, hc, hs⟩
      rw [List.foldl_cons, ih _ fun c hc => hds c (List.mem_cons_of_mem d hc), hplain, or_assoc]
      simp
  rw [hrun ds _ hmixed]
  simp [ReturnsParser.start]

/-- **Which declarations are accepted.** A sequence of declarations is parsed without error if and
only if none of them mixes plain and annotated choices. -/
lemma accepts_iff (transitionFns : List String) (ds : List (ReturnsDeclaration σ)) :
    Accepts transitionFns ds ↔ ∀ d ∈ ds, ¬ d.Mixed := by
  constructor
  · intro h
    obtain ⟨Q, hQ, -⟩ := h
    exact not_mixed_of_parseDeclarations rfl hQ
  · intro h
    have hstate : ∀ (ds : List (ReturnsDeclaration σ)) (P : ReturnsParser σ),
        (ds.foldl declare P).state = P.state := by
      intro ds
      induction ds with
      | nil => intro P; rfl
      | cons d ds ih => intro P; rw [List.foldl_cons, ih, declare_state]
    exact ⟨_, parseDeclarations_eq (.start transitionFns) rfl ds h, hstate ds _⟩

omit [DecidableEq σ] in
/-- Declarations that follow the rules do not mix the modes. -/
lemma ModeRules.not_mixed {ds : List (ReturnsDeclaration σ)}
    (h : ModeRules (ds.flatMap ReturnsDeclaration.choices)) {d : ReturnsDeclaration σ}
    (hd : d ∈ ds) : ¬ d.Mixed := by
  intro hmixed
  obtain ⟨⟨c, hc, hplain⟩, ⟨c', hc', hannotated⟩⟩ := hmixed
  have hmem : c ∈ ds.flatMap ReturnsDeclaration.choices := List.mem_flatMap.mpr ⟨d, hd, hc⟩
  have hmem' : c' ∈ ds.flatMap ReturnsDeclaration.choices := List.mem_flatMap.mpr ⟨d, hd, hc'⟩
  rcases h with hall | hall
  · rw [hall c' hmem'] at hannotated
    simp at hannotated
  · rw [hall.1 c hmem] at hplain
    simp at hplain

/-- **Mode consistency.** For every sequence of declarations for a transition function, the parser
accepts exactly what the specification admits if and only if some declaration by itself mixes
plain and annotated choices, or no choice of the sequence is annotated, or all are, with exactly
one `otherwise`, as the last.

**Proof sketch.** The automaton leaves the rules of one mode only at the end of a declaration, and
no action compares a choice with those stored before. So a sequence is rejected only for a
declaration that mixes the modes, which the specification does not admit either. -/
theorem accepts_iff_modeRules_iff (transitionFns : List String)
    (ds : List (ReturnsDeclaration σ)) :
    (Accepts transitionFns ds ↔ ModeRules (ds.flatMap ReturnsDeclaration.choices)) ↔
      (∃ d ∈ ds, d.Mixed) ∨ ModeRules (ds.flatMap ReturnsDeclaration.choices) := by
  rw [accepts_iff]
  constructor
  · intro h
    by_cases hmixed : ∃ d ∈ ds, d.Mixed
    · exact .inl hmixed
    · exact .inr (h.mp fun d hd hm => hmixed ⟨d, hd, hm⟩)
  · intro h
    rcases h with h | h
    · obtain ⟨d, hd, hm⟩ := h
      exact ⟨fun hall => absurd hm (hall d hd), fun hrules d hd => hrules.not_mixed hd⟩
    · exact ⟨fun _ => h, fun hrules d hd => hrules.not_mixed hd⟩

end Text

/-- `guard returns 1 otherwise, 0 when ready;` -/
def otherwiseFirst : ReturnsDeclaration ℕ := ⟨.otherwise 1, [.when 0 "ready"]⟩

/-- A declaration that starts with its `otherwise` is accepted, and not admitted. -/
theorem accepts_otherwiseFirst :
    Accepts ["guard"] [otherwiseFirst] ∧
      ¬ ModeRules ([otherwiseFirst].flatMap ReturnsDeclaration.choices) ∧
      ¬ (Accepts ["guard"] [otherwiseFirst] ↔
        ModeRules ([otherwiseFirst].flatMap ReturnsDeclaration.choices)) := by
  have haccepts : Accepts ["guard"] [otherwiseFirst] :=
    ⟨⟨.statement, ["ready", "guard"], [], [⟨1, none, true⟩, ⟨0, some "ready", false⟩]⟩,
      by decide, rfl⟩
  have hrules : ¬ ModeRules ([otherwiseFirst].flatMap ReturnsDeclaration.choices) := by
    simp [ModeRules, otherwiseFirst, ReturnsDeclaration.choices, Choice.annotated,
      Choice.isOtherwise]
  exact ⟨haccepts, hrules, fun h => hrules (h.mp haccepts)⟩

end FsmLang
