import Mathlib.Tactic
import FsmLang.CSemantics.Buffers
import FsmLang.CSemantics.Loops
import FsmLang.Lexing.Patterns

set_option relaxedAutoImplicit false
set_option autoImplicit false

/-!
# The lexer

The rules of `lexer.l` with their start conditions, and what their actions do. Comments and blocks
of native code have start conditions of their own, in which the characters are stored in `charData`,
a buffer of 4096 characters, at the places that `charOffset` counts. Where a store is outside the
buffer, the run is stuck.

A character is a byte of the input. The files that `include` names are opened by `newfile`, which
may fail; a run has them in the order in which they are asked for. The scanner is one loop: the
tokens that `yylex` returns are collected in `returned`.

## Main definitions

* `lexerRules` — the rules, in the order of the source.
* `Source`, `Lexer` — what is still to be read, and the state of the lexer.
* `perform`, `lexStep` — the actions, and one match with its action.
* `yylex` — the loop.

## Main results

* `lexStep_of_select` — a match in terms of the rule that is taken.
* `select_inComment`, `select_nativeBlck` — the rules that are taken within comments and blocks.
-/

namespace FsmLang

open CSemantics Lexing

/-! ## Rules -/

/-- The start conditions; all but the first are exclusive. -/
inductive StartCondition where
  | initial
  | cmnt
  | docCmnt
  | native
  | nativeBlck
  | «include»
  deriving DecidableEq, Repr

/-- Tokens of one word. -/
inductive Keyword where
  | dataKey | translatorKey | translators | nativeKey | implementationKey | prologueKey | epilogueKey
  | states | events | «return» | actions | reentrant | machineKey | stateKey | eventKey
  | transitionKey | guardKey | whenKey | otherwiseKey | actionKey | returns | «external» | on | void
  | parent | inhibits | submachines | all | entry | exit | structKey | sequenceKey | startKey | endKey
  | unionKey | «namespace» | consuming | implemented | «by»
  deriving DecidableEq, Repr

/-- What is done for a match. -/
inductive Action where
  | beginDocCmnt
  | store
  | endDocCmnt
  | beginCmnt
  | skip
  | endCmnt
  | beginInclude
  | newFile
  | keyword (k : Keyword)
  | docKeyword (k : Keyword)
  | beginNative
  | openBlock
  | openBrace
  | closeBrace
  | char
  | id
  | numericString
  deriving DecidableEq, Repr

/-- Any character but the end of a line. -/
def dot : Pattern Char := .one fun c => decide (c ≠ '\n')

/-- The end of a line. -/
def newline : Pattern Char := .one fun c => decide (c = '\n')

/-- The characters of a text. -/
def word (s : String) : Pattern Char := .lit s.toList

/-- One of the characters of a text. -/
def oneOf (s : String) : Pattern Char := .one fun c => decide (c ∈ s.toList)

/-- A character that separates the words in the condition `INCLUDE`. -/
def isSeparator (c : Char) : Bool := decide (c = ' ' ∨ c = '\t' ∨ c = '\n' ∨ c = '"')

def isLetter (c : Char) : Bool := decide ('a' ≤ c ∧ c ≤ 'z' ∨ 'A' ≤ c ∧ c ≤ 'Z' ∨ c = '_')

def isDigit (c : Char) : Bool := decide ('0' ≤ c ∧ c ≤ '9')

/-- The rules, in their order. -/
def lexerRules : List (Rule StartCondition Action Char) :=
  [⟨[.initial], word "/**", .beginDocCmnt⟩,
    ⟨[.docCmnt], dot, .store⟩,
    ⟨[.docCmnt], newline, .store⟩,
    ⟨[.docCmnt], word "*/", .endDocCmnt⟩,
    ⟨[.initial], word "/*", .beginCmnt⟩,
    ⟨[.cmnt], dot, .skip⟩,
    ⟨[.cmnt], newline, .store⟩,
    ⟨[.cmnt], word "*/", .endCmnt⟩,
    ⟨[.initial], .seq (word "//") (.star dot), .skip⟩,
    ⟨[.initial], .seq (word "include") (.seq (.star (oneOf " \t")) (.opt (word "\""))),
      .beginInclude⟩,
    ⟨[.«include»], .plus (.one fun c => !isSeparator c), .newFile⟩,
    ⟨[.initial], word "data", .keyword .dataKey⟩,
    ⟨[.initial], word "translator", .keyword .translatorKey⟩,
    ⟨[.initial], word "translators", .keyword .translators⟩,
    ⟨[.initial], word "native", .beginNative⟩,
    ⟨[.native], word "\x7b", .openBlock⟩,
    ⟨[.native], .seq (word "impl") (.opt (word "ementation")), .keyword .implementationKey⟩,
    ⟨[.native], word "prologue", .keyword .prologueKey⟩,
    ⟨[.native], word "epilogue", .keyword .epilogueKey⟩,
    ⟨[.native], newline, .skip⟩,
    ⟨[.native], dot, .skip⟩,
    ⟨[.nativeBlck], word "\x7b", .openBrace⟩,
    ⟨[.nativeBlck], word "\x7d", .closeBrace⟩,
    ⟨[.nativeBlck], newline, .store⟩,
    ⟨[.nativeBlck], dot, .store⟩,
    ⟨[.initial], word ";", .char⟩,
    ⟨[.initial], word "states", .keyword .states⟩,
    ⟨[.initial], word "events", .keyword .events⟩,
    ⟨[.initial], word "return", .keyword .«return»⟩,
    ⟨[.initial], word "actions", .keyword .actions⟩,
    ⟨[.initial], word "reentrant", .keyword .reentrant⟩,
    ⟨[.initial], word "machine", .keyword .machineKey⟩,
    ⟨[.initial], word "state", .keyword .stateKey⟩,
    ⟨[.initial], word "event", .keyword .eventKey⟩,
    ⟨[.initial], word "transition", .docKeyword .transitionKey⟩,
    ⟨[.initial], word "guard", .docKeyword .guardKey⟩,
    ⟨[.initial], word "when", .keyword .whenKey⟩,
    ⟨[.initial], word "otherwise", .keyword .otherwiseKey⟩,
    ⟨[.initial], word "action", .docKeyword .actionKey⟩,
    ⟨[.initial], word "returns", .keyword .returns⟩,
    ⟨[.initial], word "external", .keyword .«external»⟩,
    ⟨[.initial], word "on", .keyword .on⟩,
    ⟨[.initial], word "void", .keyword .void⟩,
    ⟨[.initial], word "parent", .docKeyword .parent⟩,
    ⟨[.initial], word "inhibits", .keyword .inhibits⟩,
    ⟨[.initial], word "submachines", .keyword .submachines⟩,
    ⟨[.initial], word "all", .keyword .all⟩,
    ⟨[.initial], word "entry", .keyword .entry⟩,
    ⟨[.initial], word "exit", .keyword .exit⟩,
    ⟨[.initial], word "struct", .keyword .structKey⟩,
    ⟨[.initial], word "sequence", .docKeyword .sequenceKey⟩,
    ⟨[.initial], word "start", .keyword .startKey⟩,
    ⟨[.initial], word "end", .keyword .endKey⟩,
    ⟨[.initial], word "union", .keyword .unionKey⟩,
    ⟨[.initial], word "::", .keyword .«namespace»⟩,
    ⟨[.initial], word "consuming", .keyword .consuming⟩,
    ⟨[.initial], word "implemented", .keyword .implemented⟩,
    ⟨[.initial], word "by", .keyword .«by»⟩,
    ⟨[.initial], oneOf "]()\x7b\x7d=*", .char⟩,
    ⟨[.initial], oneOf "[", .char⟩,
    ⟨[.initial], word ",", .char⟩,
    ⟨[.initial], .seq (.one isLetter) (.star (.one fun c => isLetter c || isDigit c)), .id⟩,
    ⟨[.initial], .plus (.one isDigit), .numericString⟩,
    ⟨[.initial], newline, .skip⟩,
    ⟨[.initial, .cmnt, .docCmnt, .native, .nativeBlck, .«include»], dot, .skip⟩]

/-! ## Matches -/

section Matches

/-- A text begins with a character if that is its first one. -/
lemma singleton_prefix_iff {α : Type*} (a : α) (t : List α) : [a] <+: t ↔ t.head? = some a := by
  cases t with
  | nil => simp
  | cons b t => simp [eq_comm]

/-- The match of `*/`. -/
private lemma longest_starSlash (c : Char) (t : List Char) : (word "*/").longest (c :: t) =
    if c = '*' ∧ t.head? = some '/' then some 2 else none := by
  rw [word, Pattern.longest_lit]
  simp [List.cons_prefix_cons, singleton_prefix_iff, eq_comm]

/-- The dot matches a character that does not end the line. -/
@[simp] lemma longest_dot (c : Char) (t : List Char) :
    dot.longest (c :: t) = if c = '\n' then none else some 1 := by
  simp [dot]

/-- The end of a line matches itself. -/
@[simp] lemma longest_newline (c : Char) (t : List Char) :
    newline.longest (c :: t) = if c = '\n' then some 1 else none := by
  simp [newline]

/-- What a rule matches in one of its start conditions. -/
lemma matched_of_mem {k : StartCondition} {ks : List StartCondition} (p : Pattern Char) (a : Action)
    (h : k ∈ ks) (s : List Char) : (⟨ks, p, a⟩ : Rule StartCondition Action Char).matched k s =
      (p.longest s).getD 0 := if_pos h

/-- The rule that is taken within a comment. -/
lemma select_inComment {k : StartCondition} (hk : k = .cmnt ∨ k = .docCmnt) {a b e : Action}
    (hrules : (lexerRules.filter fun r => decide (k ∈ r.conds)) =
      [⟨[k], dot, a⟩, ⟨[k], newline, b⟩, ⟨[k], word "*/", e⟩,
        ⟨[.initial, .cmnt, .docCmnt, .native, .nativeBlck, .«include»], dot, .skip⟩])
    (c : Char) (t : List Char) : select lexerRules k (c :: t) =
      some (if c = '*' ∧ t.head? = some '/' then (⟨[k], word "*/", e⟩, 2)
        else if c = '\n' then (⟨[k], newline, b⟩, 1) else (⟨[k], dot, a⟩, 1)) := by
  have hmem : k ∈ [.initial, .cmnt, .docCmnt, .native, .nativeBlck, StartCondition.«include»] := by
    rcases hk with rfl | rfl <;> decide
  rw [select_filter, hrules]
  simp only [select, matched_of_mem _ _ hmem, matched_of_mem _ _ (List.mem_singleton_self k),
    longest_dot, longest_newline, longest_starSlash]
  by_cases hend : c = '*' ∧ t.head? = some '/'
  · have hnl : c ≠ '\n' := by
      rw [hend.1]
      decide
    simp only [if_pos hend, if_neg hnl]
    rfl
  · by_cases hnl : c = '\n'
    · simp only [if_neg hend, if_pos hnl]
      rfl
    · simp only [if_neg hend, if_neg hnl]
      rfl

/-- The rule that is taken within a block. -/
lemma select_nativeBlck (c : Char) (t : List Char) : select lexerRules .nativeBlck (c :: t) =
    some (if c = '\x7b' then (⟨[.nativeBlck], word "\x7b", .openBrace⟩, 1)
      else if c = '\x7d' then (⟨[.nativeBlck], word "\x7d", .closeBrace⟩, 1)
      else if c = '\n' then (⟨[.nativeBlck], newline, .store⟩, 1)
      else (⟨[.nativeBlck], dot, .store⟩, 1)) := by
  have hrules : (lexerRules.filter fun r => decide (StartCondition.nativeBlck ∈ r.conds)) =
      [⟨[.nativeBlck], word "\x7b", .openBrace⟩, ⟨[.nativeBlck], word "\x7d", .closeBrace⟩,
        ⟨[.nativeBlck], newline, .store⟩, ⟨[.nativeBlck], dot, .store⟩,
        ⟨[.initial, .cmnt, .docCmnt, .native, .nativeBlck, .«include»], dot, .skip⟩] := rfl
  have hopen : (word "\x7b").longest (c :: t) = if c = '\x7b' then some 1 else none := by
    rw [word, Pattern.longest_lit]
    simp [List.cons_prefix_cons, eq_comm]
  have hclose : (word "\x7d").longest (c :: t) = if c = '\x7d' then some 1 else none := by
    rw [word, Pattern.longest_lit]
    simp [List.cons_prefix_cons, eq_comm]
  rw [select_filter, hrules]
  simp only [select, matched_of_mem _ _ (List.mem_singleton_self StartCondition.nativeBlck),
    matched_of_mem _ _ (by decide : StartCondition.nativeBlck ∈
      [.initial, .cmnt, .docCmnt, .native, .nativeBlck, StartCondition.«include»]),
    longest_dot, longest_newline, hopen, hclose]
  by_cases ho : c = '\x7b'
  · subst ho
    rfl
  by_cases hc : c = '\x7d'
  · subst hc
    rfl
  by_cases hnl : c = '\n'
  · subst hnl
    rfl
  simp only [if_neg ho, if_neg hc, if_neg hnl]
  rfl

end Matches

/-! ## States -/

/-- A token with its value. What kind of name an identifier is depends on what has been declared. -/
inductive Token where
  | keyword (k : Keyword)
  | docKeyword (k : Keyword) (charData : Option (List Char))
  | nativeBlock (charData : List Char)
  | char (c : Char)
  | id (name : List Char) (docCmnt : Option (List Char))
  | numericString (charData : List Char)
  deriving DecidableEq, Repr

/-- The size of `charData`. -/
def bufferSize : ℕ := 4096

/-- What is to be read: the rest of the current file and of those that it is included from, in a
start condition, with the number of calls of `newfile` so far. -/
structure Source where
  cond : StartCondition
  buffers : List (List Char)
  newfiles : ℕ
  deriving DecidableEq, Repr

/-- The state of the lexer. The buffer is `charData` with `charOffset`, and `brace_cnt` is a 32-bit
number. -/
structure Lexer extends Source where
  charData : Buffer bufferSize
  braceCnt : ℕ
  currDocCmnt : Option (List Char)
  returned : List Token

/-- The main file before the first call of `yylex`. -/
def Source.start (text : List Char) : Source := ⟨.initial, [text], 0⟩

namespace Lexer

def start (text : List Char) : Lexer where
  toSource := .start text
  charData := ⟨.replicate bufferSize '\x00', 0⟩
  braceCnt := 0
  currDocCmnt := none
  returned := []

/-! ## Actions -/

def setCharData (b : Buffer bufferSize) (s : Lexer) : Lexer := { s with charData := b }

def setCond (cond : StartCondition) (s : Lexer) : Lexer := { s with cond := cond }

def give (t : Token) (s : Lexer) : Lexer := { s with returned := s.returned ++ [t] }

/-- `charData[charOffset++] = c`. -/
def store (c : Char) (s : Lexer) : Option Lexer :=
  (s.charData.put c).map fun b => s.setCharData b

/-- `charOffset = 0`. -/
def rewind (s : Lexer) : Lexer := s.setCharData s.charData.rewind

/-- The end of a documentation comment: `charData[charOffset] = 0`, and a copy. -/
def keepDocCmnt (s : Lexer) : Option Lexer :=
  s.charData.terminate.map fun b => { s.setCharData b with currDocCmnt := some b.string }

/-- The end of a block of native code. -/
def giveBlock (s : Lexer) : Option Lexer :=
  s.charData.terminate.map fun b => (s.setCharData b).give (.nativeBlock b.string)

/-- The action of a rule, with the characters that have been matched and what `newfile` opens. -/
def perform (files : ℕ → List Char → Option (List Char)) (action : Action) (yytext : List Char)
    (s : Lexer) : Option Lexer :=
  match action with
  | .beginDocCmnt => some (s.setCond .docCmnt).rewind
  | .store => s.store (yytext.headD '\x00')
  | .endDocCmnt => (s.setCond .initial).keepDocCmnt
  | .beginCmnt => some (s.setCond .cmnt)
  | .skip => some s
  | .endCmnt => some (s.setCond .initial)
  | .beginInclude => some (s.setCond .«include»)
  | .newFile =>
    match files s.newfiles yytext with
    -- `yyterminate`: nothing more is read
    | none => some { s with buffers := [], newfiles := s.newfiles + 1 }
    | some text => some { s with
        cond := .initial, buffers := text :: s.buffers, newfiles := s.newfiles + 1 }
  | .keyword k => some (s.give (.keyword k))
  | .docKeyword k => some { s.give (.docKeyword k s.currDocCmnt) with currDocCmnt := none }
  | .beginNative => some ((s.setCond .native).give (.keyword .nativeKey))
  | .openBlock =>
    if s.braceCnt = 0 then
      some { (s.setCond .nativeBlck).rewind with braceCnt := (s.braceCnt + 1) % 2 ^ 32 }
    else { s with braceCnt := (s.braceCnt + 1) % 2 ^ 32 }.store (yytext.headD '\x00')
  | .openBrace =>
    if s.braceCnt ≠ 0 then
      { s with braceCnt := (s.braceCnt + 1) % 2 ^ 32 }.store (yytext.headD '\x00')
    else some { s with braceCnt := (s.braceCnt + 1) % 2 ^ 32 }
  | .closeBrace =>
    if (s.braceCnt + (2 ^ 32 - 1)) % 2 ^ 32 = 0 then
      { s.setCond .initial with braceCnt := 0 }.giveBlock
    else { s with braceCnt := (s.braceCnt + (2 ^ 32 - 1)) % 2 ^ 32 }.store (yytext.headD '\x00')
  | .char => some (s.give (.char (yytext.headD '\x00')))
  | .id => some { s.give (.id yytext s.currDocCmnt) with currDocCmnt := none }
  | .numericString => some (s.give (.numericString yytext))

/-- One match, or the end of a file. What no rule matches is skipped. -/
def lexStep (files : ℕ → List Char → Option (List Char)) (s : Lexer) : Option Lexer :=
  match s.buffers with
  | [] => some s
  | [] :: prev => some { s with buffers := prev }
  | (c :: t) :: prev =>
    match select lexerRules s.cond (c :: t) with
    | none => some { s with buffers := t :: prev }
    | some (r, n) =>
      perform files r.action ((c :: t).take n) { s with buffers := (c :: t).drop n :: prev }

/-- The scanner runs until no file is left. -/
def yylex (files : ℕ → List Char → Option (List Char)) : WhileLoop Lexer (List Token) where
  cond s := !s.buffers.isEmpty
  body := lexStep files
  finish s := some s.returned

/-! ## Steps -/

variable {files : ℕ → List Char → Option (List Char)} {s : Lexer} {c : Char} {t : List Char}
  {prev : List (List Char)}

/-- A match and its action. -/
lemma lexStep_of_select {r : Rule StartCondition Action Char} {n : ℕ}
    (hbuffers : s.buffers = (c :: t) :: prev)
    (hselect : select lexerRules s.cond (c :: t) = some (r, n)) : lexStep files s =
      perform files r.action ((c :: t).take n) { s with buffers := (c :: t).drop n :: prev } := by
  rw [lexStep, hbuffers]
  simp only [hselect]

/-- A match of one character. -/
lemma lexStep_of_select_one {r : Rule StartCondition Action Char}
    (hbuffers : s.buffers = (c :: t) :: prev)
    (hselect : select lexerRules s.cond (c :: t) = some (r, 1)) :
    lexStep files s = perform files r.action [c] { s with buffers := t :: prev } := by
  rw [lexStep_of_select hbuffers hselect, List.take_succ_cons, List.take_zero, List.drop_succ_cons,
    List.drop_zero]

/-- A step within an ordinary comment. -/
lemma lexStep_cmnt (hcond : s.cond = .cmnt) (hbuffers : s.buffers = (c :: t) :: prev) :
    lexStep files s =
      if c = '*' ∧ t.head? = some '/' then
        some ({ s with buffers := t.tail :: prev }.setCond .initial)
      else if c = '\n' then { s with buffers := t :: prev }.store c
      else some { s with buffers := t :: prev } := by
  have hselect := select_inComment (.inl rfl) rfl c t
  rw [← hcond] at hselect
  by_cases hend : c = '*' ∧ t.head? = some '/'
  · rw [if_pos hend] at hselect ⊢
    rw [lexStep_of_select hbuffers hselect]
    cases t <;> rfl
  · rw [if_neg hend] at hselect ⊢
    by_cases hnl : c = '\n'
    · rw [if_pos hnl] at hselect ⊢
      exact lexStep_of_select_one hbuffers hselect
    · rw [if_neg hnl] at hselect ⊢
      exact lexStep_of_select_one hbuffers hselect

/-- A step within a documentation comment. -/
lemma lexStep_docCmnt (hcond : s.cond = .docCmnt) (hbuffers : s.buffers = (c :: t) :: prev) :
    lexStep files s =
      if c = '*' ∧ t.head? = some '/' then
        ({ s with buffers := t.tail :: prev }.setCond .initial).keepDocCmnt
      else { s with buffers := t :: prev }.store c := by
  have hselect := select_inComment (.inr rfl) rfl c t
  rw [← hcond] at hselect
  by_cases hend : c = '*' ∧ t.head? = some '/'
  · rw [if_pos hend] at hselect ⊢
    rw [lexStep_of_select hbuffers hselect]
    cases t <;> rfl
  · rw [if_neg hend] at hselect ⊢
    split_ifs at hselect
    · exact lexStep_of_select_one hbuffers hselect
    · exact lexStep_of_select_one hbuffers hselect

/-- A step within a block of native code. -/
lemma lexStep_nativeBlck (hcond : s.cond = .nativeBlck) (hbuffers : s.buffers = (c :: t) :: prev) :
    lexStep files s =
      if c = '\x7b' then perform files .openBrace [c] { s with buffers := t :: prev }
      else if c = '\x7d' then perform files .closeBrace [c] { s with buffers := t :: prev }
      else { s with buffers := t :: prev }.store c := by
  have hselect := select_nativeBlck c t
  rw [← hcond] at hselect
  by_cases ho : c = '\x7b'
  · rw [if_pos ho] at hselect ⊢
    rw [lexStep_of_select_one hbuffers hselect]
  · rw [if_neg ho] at hselect ⊢
    by_cases hc : c = '\x7d'
    · rw [if_pos hc] at hselect ⊢
      rw [lexStep_of_select_one hbuffers hselect]
    · rw [if_neg hc] at hselect ⊢
      split_ifs at hselect
      · exact lexStep_of_select_one hbuffers hselect
      · exact lexStep_of_select_one hbuffers hselect

end Lexer

end FsmLang
