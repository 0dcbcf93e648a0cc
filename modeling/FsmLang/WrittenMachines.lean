import Mathlib.Data.List.Basic
import Mathlib.Tactic
import FsmLang.AcceptedTexts
import FsmLang.SourceTexts

set_option relaxedAutoImplicit false
set_option autoImplicit false

/-!
# Written machines

Machines are written to a file token by token, with a blank after each one. The lexer has conditions
of its own for native code, so what it makes of a word depends on what comes before it; in the text
of machines, words and blocks of native code stand where the lexer expects them. What is written is
lexed into the tokens that have been written, and from these the same machines are read.

## Main definitions

* `Token.text`, `fileText` — what is written.
* `Token.Writable` — the names, numbers and blocks that can be written.
* `Grouped` — words and blocks of native code stand together.
* `FileAccepted` — the lexer returns, and what it returns is accepted.

## Main results

* `grouped_fileTokens` — the tokens of machines are grouped.
* `Grouped.reads` — the sections of what is written.
* `fileAccepted_iff` — written machines are read back, and accepted if they are sound.
-/

namespace FsmLang

open CSemantics Lexing Lexing.Members

/-! ## Writing tokens -/

/-- The text of a keyword. Some are words in the condition for native code only. -/
def Keyword.text : Keyword → List Char
  | .nativeKey => "native".toList
  | .implementationKey => NativePlace.impl.text
  | .prologueKey => NativePlace.prologue.text
  | .epilogueKey => NativePlace.epilogue.text
  | k =>
    (((reserved.find? fun x => decide (x.2 = .keyword k ∨ x.2 = .docKeyword k)).map
      Prod.fst).getD "").toList

namespace Token

def text : Token → List Char
  | .keyword k => k.text
  | .docKeyword k _ => k.text
  | .nativeBlock b => '\x7b' :: (b ++ ['\x7d'])
  | .char c => [c]
  | .id name _ => name
  | .numericString digits => digits

/-- The section of a token. -/
def lexed : Token → Section
  | .keyword .nativeKey => .lexeme .beginNative "native".toList
  | .keyword k => .lexeme (.keyword k) k.text
  | .docKeyword k _ => .lexeme (.docKeyword k) k.text
  | .nativeBlock b => .block b true
  | .char c => .lexeme .char [c]
  | .id name _ => .lexeme .id name
  | .numericString digits => .lexeme .numericString digits

/-- The sections of a token and of the blank after it. -/
def sections (t : Token) : List Section := [t.lexed, .lexeme .skip [' ']]

/-- The word can be written for the action. -/
def IsWordFor (w : List Char) (a : Action) : Prop :=
  (∀ c ∈ w.head?, isLetter c = true) ∧ (∀ c ∈ w, isWordChar c = true) ∧ w ≠ [] ∧
    w ≠ "include".toList ∧ w ≠ "native".toList ∧ wordAction w = a

instance (w : List Char) (a : Action) : Decidable (IsWordFor w a) :=
  inferInstanceAs (Decidable ((∀ c ∈ w.head?, isLetter c = true) ∧
    (∀ c ∈ w, isWordChar c = true) ∧ w ≠ [] ∧ w ≠ "include".toList ∧ w ≠ "native".toList ∧
      wordAction w = a))

/-- The names, numbers and blocks that can be written. -/
def Writable : Token → Prop
  | .id name _ => IsWordFor name .id
  | .numericString digits => digits ≠ [] ∧ ∀ c ∈ digits, isDigit c = true
  | .nativeBlock b => Balanced '\x7b' '\x7d' b ∧ '\x00' ∉ b
  | _ => True

instance (t : Token) : Decidable t.Writable :=
  match t with
  | .id name _ => inferInstanceAs (Decidable (IsWordFor name .id))
  | .numericString digits =>
    inferInstanceAs (Decidable (digits ≠ [] ∧ ∀ c ∈ digits, isDigit c = true))
  | .nativeBlock b =>
    @instDecidableAnd _ _ (decidable_of_iff' _ (balanced_iff_depth (by decide))) inferInstance
  | .keyword _ | .docKeyword _ _ | .char _ => isTrue trivial

/-- There is room for a block of native code, and for the null character after it. -/
def Fits : Token → Prop
  | .nativeBlock b => b.length < bufferSize
  | _ => True

instance (t : Token) : Decidable t.Fits :=
  match t with
  | .nativeBlock b => inferInstanceAs (Decidable (b.length < bufferSize))
  | .keyword _ | .docKeyword _ _ | .char _ | .id _ _ | .numericString _ => isTrue trivial

/-- A token that does not belong to native code, without a documentation comment. -/
def Ordinary : Token → Prop
  | .keyword k => IsWordFor k.text (.keyword k)
  | .docKeyword k doc => IsWordFor k.text (.docKeyword k) ∧ doc = none
  | .nativeBlock _ => False
  | .char c => c ∈ marks
  | .id _ doc => doc = none
  | .numericString _ => True

/-- The piece that is written for an ordinary token. -/
def piece : Token → Piece
  | .char c => .mark c
  | .numericString digits => .number digits
  | t => .word t.text

/-- A word is complete at a blank and is a lexeme. -/
lemma IsWordFor.followed {w : List Char} {a : Action} (h : IsWordFor w a) :
    (Piece.word w).Followed (some ' ') ∧ (Piece.word w).sections = [.lexeme a w] := by
  obtain ⟨hletter, hw, hne, hinclude, hnative, rfl⟩ := h
  refine ⟨⟨hletter, hw, hne, hinclude, hnative, ?_⟩, rfl⟩
  intro a ha
  obtain rfl := Option.some.inj ha
  decide

/-- The word for a keyword is not that for native blocks. -/
private lemma keyword_ne_nativeKey {k : Keyword} (h : IsWordFor k.text (.keyword k)) :
    k ≠ .nativeKey := by
  rintro rfl
  obtain ⟨-, -, -, -, hnative, -⟩ := h
  exact hnative rfl

/-- Ordinary tokens that can be written are written as pieces. -/
private lemma Ordinary.piece_spec {t : Token} (ht : t.Ordinary) (hw : t.Writable) :
    t.piece.Followed (some ' ') ∧ t.piece.sections = [t.lexed] ∧ t.piece.text = t.text := by
  cases t with
  | keyword k =>
    obtain ⟨hfollowed, hsections⟩ := IsWordFor.followed ht
    refine ⟨hfollowed, hsections.trans ?_, rfl⟩
    have hk := keyword_ne_nativeKey ht
    cases k <;> first | rfl | exact absurd rfl hk
  | docKeyword k doc =>
    obtain ⟨hfollowed, hsections⟩ := ht.1.followed
    exact ⟨hfollowed, hsections, rfl⟩
  | nativeBlock b => exact False.elim ht
  | char c => exact ⟨ht, rfl, rfl⟩
  | id name doc =>
    obtain ⟨hfollowed, hsections⟩ := IsWordFor.followed hw
    exact ⟨hfollowed, hsections, rfl⟩
  | numericString digits =>
    refine ⟨⟨hw.1, hw.2, ?_⟩, rfl, rfl⟩
    intro a ha
    obtain rfl := Option.some.inj ha
    decide

/-- The section of an ordinary token has that token. -/
lemma Ordinary.lexed_token {t : Token} (ht : t.Ordinary) : t.lexed.token none = some t := by
  cases t with
  | keyword k => cases k <;> rfl
  | docKeyword k doc =>
    obtain ⟨-, rfl⟩ := ht
    rfl
  | nativeBlock b => exact False.elim ht
  | char c => rfl
  | id name doc =>
    obtain rfl : doc = none := ht
    rfl
  | numericString digits => rfl

end Token

/-- Tokens with a blank after each one. -/
def writeTokens (ts : List Token) : List Char := ts.flatMap fun t => t.text ++ [' ']

/-- What is written for machines. -/
def fileText (ms : List MachineText) : List Char := writeTokens (fileTokens ms)

/-- Tokens are written one after the other. -/
lemma writeTokens_append (ts us : List Token) :
    writeTokens (ts ++ us) = writeTokens ts ++ writeTokens us := List.flatMap_append

/-- A token is written with a blank behind it. -/
lemma writeTokens_cons (t : Token) (ts : List Token) :
    writeTokens (t :: ts) = t.text ++ ' ' :: writeTokens ts := by
  rw [writeTokens, List.flatMap_cons, List.append_assoc]
  rfl

/-! ## Groups of native code -/

/-- The words before a block. -/
def NativeText.places (impl : Bool) (n : NativeText) : List NativePlace :=
  (if impl then [.impl] else []) ++
    match n with
    | .prologue named _ => if named then [.prologue] else []
    | .epilogue _ => [.epilogue]

def NativeText.block : NativeText → List Char
  | .prologue _ b => b
  | .epilogue b => b

/-- A native block is its keyword, the keywords of its places and the block. -/
lemma NativeText.tokens_eq (impl : Bool) (n : NativeText) :
    n.tokens impl = .keyword .nativeKey ::
      ((n.places impl).map (fun p => .keyword p.keyword) ++ [.nativeBlock n.block]) := by
  cases impl <;> rcases n with ⟨_ | _, b⟩ | b <;> rfl

/-- None of the tokens belongs to native code. -/
def AllOrdinary (ts : List Token) : Prop := ∀ t ∈ ts, t.Ordinary

/-- Tokens in which words and blocks of native code stand together, and nowhere else. -/
inductive Grouped : List Token → Prop
  | nil : Grouped []
  | ordinary {t : Token} {ts : List Token} (ht : t.Ordinary) (h : Grouped ts) : Grouped (t :: ts)
  | native (impl : Bool) (n : NativeText) {ts : List Token} (h : Grouped ts) :
    Grouped (n.tokens impl ++ ts)

namespace Grouped

/-- Groups may follow each other. -/
lemma append {ts us : List Token} (h : Grouped ts) (h' : Grouped us) : Grouped (ts ++ us) := by
  induction h with
  | nil => exact h'
  | ordinary ht _ ih => exact .ordinary ht ih
  | native impl n _ ih =>
    rw [List.append_assoc]
    exact .native impl n ih

/-- So may the groups of the members of a list. -/
lemma flatMap {α : Type*} {tokens : α → List Token} {l : List α}
    (h : ∀ a ∈ l, Grouped (tokens a)) : Grouped (l.flatMap tokens) := by
  induction l with
  | nil => exact .nil
  | cons a l ih =>
    rw [List.flatMap_cons]
    exact (h a List.mem_cons_self).append (ih fun b hb => h b (List.mem_cons_of_mem a hb))

/-- Ordinary tokens are groups of their own. -/
lemma of_allOrdinary {ts : List Token} (h : AllOrdinary ts) : Grouped ts := by
  induction ts with
  | nil => exact .nil
  | cons t ts ih =>
    obtain ⟨ht, hts⟩ := List.forall_mem_cons.mp h
    exact .ordinary ht (ih hts)

end Grouped

/-- The tokens of a native block make a group. -/
lemma NativeText.grouped (impl : Bool) (n : NativeText) : Grouped (n.tokens impl) := by
  have h := Grouped.native impl n .nil
  rwa [List.append_nil] at h

/-! ## The tokens of machines -/

section Ordinary

variable {ts us : List Token}

/-- The token of a name is ordinary. -/
@[simp] lemma ordinary_token (x : Ident) : x.token.Ordinary := rfl

/-- The token of a number is ordinary. -/
@[simp] lemma ordinary_numericString (digits : List Char) :
    (Token.numericString digits).Ordinary := trivial

/-- The ordinary keywords are those the lexer gives without comments or blocks. -/
@[simp] lemma ordinary_keyword_iff (k : Keyword) : (Token.keyword k).Ordinary ↔
    k ∉ [.nativeKey, .implementationKey, .prologueKey, .epilogueKey, .«namespace», .transitionKey,
      .guardKey, .actionKey, .parent, .sequenceKey] := by
  rw [Token.Ordinary]
  cases k <;> decide

/-- The keywords that keep a comment are those of five rules. -/
@[simp] lemma ordinary_docKeyword_iff (k : Keyword) : (Token.docKeyword k none).Ordinary ↔
    k ∈ [.transitionKey, .guardKey, .actionKey, .parent, .sequenceKey] := by
  rw [Token.Ordinary]
  cases k <;> decide

/-- The ordinary punctuation marks. -/
@[simp] lemma ordinary_char_iff (c : Char) : (Token.char c).Ordinary ↔
    c ∈ [';', ',', ']', '(', ')', '\x7b', '\x7d', '=', '*', '['] := Iff.rfl

/-- No tokens are ordinary ones. -/
@[simp] lemma allOrdinary_nil : AllOrdinary [] := List.forall_mem_nil _

/-- Ordinary tokens, one at a time. -/
@[simp] lemma allOrdinary_cons {t : Token} :
    AllOrdinary (t :: ts) ↔ t.Ordinary ∧ AllOrdinary ts := List.forall_mem_cons

/-- Ordinary tokens behind ordinary tokens. -/
@[simp] lemma allOrdinary_append : AllOrdinary (ts ++ us) ↔ AllOrdinary ts ∧ AllOrdinary us :=
  List.forall_mem_append

/-- The tokens of the members of a list are ordinary if those of each member are. -/
@[simp] lemma allOrdinary_flatMap {α : Type*} {tokens : α → List Token} {l : List α} :
    AllOrdinary (l.flatMap tokens) ↔ ∀ a ∈ l, AllOrdinary (tokens a) := List.forall_mem_flatMap

/-- The tokens of an optional part are ordinary if the part's are. -/
@[simp] lemma allOrdinary_elim {α : Type*} {tokens : α → List Token} {o : Option α} :
    AllOrdinary (o.elim [] tokens) ↔ ∀ a ∈ o, AllOrdinary (tokens a) := by
  cases o <;> simp

/-- A dimension consists of ordinary tokens. -/
@[simp] lemma Dimension.allOrdinary (d : Dimension) : AllOrdinary d.tokens := by
  cases d <;> simp [tokens]

/-- So does a declarator. -/
@[simp] lemma allOrdinary_declaratorTokens (indirection : ℕ) (name : Ident)
    (dimension : Option Dimension) :
    AllOrdinary (declaratorTokens indirection name dimension) := by
  have hstars : AllOrdinary (List.replicate indirection (.char '*')) := by
    intro t ht
    obtain rfl := List.eq_of_mem_replicate ht
    simp
  simp [declaratorTokens, hstars]

/-- By induction on the field. -/
@[simp] lemma DataField.allOrdinary (d : DataField) : AllOrdinary d.tokens := by
  induction d using DataField.induct with
  | simple => simp [tokens]
  | members isUnion first rest indirection name dimension hfirst hrest =>
    cases isUnion <;> simpa [tokens, DataField.listTokens_eq, hfirst] using hrest

/-- A data block consists of ordinary tokens. -/
@[simp] lemma DataBlock.allOrdinary (b : DataBlock) : AllOrdinary b.tokens := by
  simp [tokens]

/-- A clause consists of ordinary tokens. -/
@[simp] lemma StateClause.allOrdinary (c : StateClause) : AllOrdinary c.tokens := by
  cases c <;> simp [tokens, implementedByTokens]

/-- A state consists of ordinary tokens. -/
@[simp] lemma StateText.allOrdinary (s : StateText) : AllOrdinary s.tokens := by
  simp [tokens]

/-- A translator consists of ordinary tokens. -/
@[simp] lemma TranslatorText.allOrdinary (fn : TranslatorText) : AllOrdinary fn.tokens := by
  cases hc : fn.consuming <;> simp [tokens, implementedByTokens, hc]

/-- The data of an event consist of ordinary tokens. -/
@[simp] lemma UserEventData.allOrdinary (u : UserEventData) : AllOrdinary u.tokens := by
  cases u <;> simp [tokens]

/-- An event consists of ordinary tokens. -/
@[simp] lemma EventText.allOrdinary (e : EventText) : AllOrdinary e.tokens := by
  simp [tokens]

/-- So does a list with commas of members that do. -/
lemma allOrdinary_commaTokens {α : Type*} {tokens : α → List Token}
    (h : ∀ a, AllOrdinary (tokens a)) (first : α) (rest : List α) :
    AllOrdinary (commaTokens tokens first rest) := by
  simp [commaTokens, h]

/-- A declaration consists of ordinary tokens. -/
lemma DeclText.allOrdinary (d : DeclText) : AllOrdinary d.tokens := by
  cases d <;> simp [tokens, allOrdinary_commaTokens]

/-- A vector consists of ordinary tokens. -/
@[simp] lemma allOrdinary_vectorTokens (v : EventVector Ident) : AllOrdinary (vectorTokens v) := by
  cases v <;> simp [vectorTokens]

/-- A matrix consists of ordinary tokens. -/
@[simp] lemma MatrixText.allOrdinary (m : MatrixText) : AllOrdinary m.tokens := by
  simp [tokens]

/-- The keyword of a transition is ordinary. -/
@[simp] lemma TransitionText.ordinary_keyword (t : TransitionText) : t.keyword.Ordinary := by
  cases h : t.isGuard <;> simp [keyword, h]

/-- A transition consists of ordinary tokens. -/
@[simp] lemma TransitionText.allOrdinary (t : TransitionText) : AllOrdinary t.tokens := by
  simp [tokens]

/-- An action consists of ordinary tokens. -/
@[simp] lemma ActionText.allOrdinary (a : ActionText) : AllOrdinary a.tokens := by
  simp [tokens]

/-- A statement consists of ordinary tokens. -/
lemma StatementText.allOrdinary (s : StatementText) : AllOrdinary s.tokens := by
  rcases s with ⟨first, rest⟩ | ⟨_ | _, matrix, t⟩ <;> simp [tokens, allOrdinary_commaTokens]

end Ordinary

/-- The tokens of a qualifier are grouped: only native blocks are not ordinary. -/
lemma QualifierText.grouped (q : QualifierText) : Grouped q.tokens := by
  cases q with
  | nativeImpl n => exact n.grouped true
  | onTransition fn => exact .of_allOrdinary (by simp [tokens])
  | actionsReturn what => exact .of_allOrdinary (by cases what <;> simp [tokens])
  | translatorsReturn events => exact .of_allOrdinary (by cases events <;> simp [tokens])

/-- The tokens before a machine's own statements are grouped. -/
private lemma OwnText.grouped_openingTokens (o : OwnText) : Grouped o.openingTokens := by
  have hreentrant : Grouped (if o.reentrant then [.keyword .reentrant] else []) :=
    .of_allOrdinary (by cases o.reentrant <;> simp)
  have hdata : Grouped (o.data.elim [] fun b => .keyword .dataKey :: b.tokens) :=
    .of_allOrdinary (by simp)
  have hdecls : Grouped (o.decls.flatMap DeclText.tokens) :=
    .flatMap fun d _ => .of_allOrdinary d.allOrdinary
  refine (Grouped.flatMap fun n _ => n.grouped false).append (hreentrant.append ?_)
  refine .ordinary (by simp) (.ordinary (by simp) ?_)
  exact (Grouped.flatMap fun q _ => q.grouped).append (.ordinary (by simp) (hdata.append hdecls))

/-- The tokens from a machine's statements on are ordinary, and so grouped. -/
private lemma OwnText.grouped_closingTokens (o : OwnText) : Grouped o.closingTokens :=
  (Grouped.flatMap fun s _ => .of_allOrdinary s.allOrdinary).append (.of_allOrdinary (by simp))

/-- By induction on the tree of machines. -/
lemma MachineText.grouped (m : MachineText) : Grouped m.tokens := by
  induction m using MachineText.induct with
  | mk own machines ih =>
    rw [MachineText.tokens, MachineText.listTokens_eq]
    exact (own.grouped_openingTokens.append (.flatMap ih)).append own.grouped_closingTokens

/-- **The tokens of machines are grouped.** -/
theorem grouped_fileTokens (ms : List MachineText) : Grouped (fileTokens ms) :=
  .flatMap fun m _ => m.grouped

/-! ## Lexing what is written -/

section Reading

variable {files : ℕ → List Char → Option (List Char)} {ts : List Token}

/-- A blank between tokens. -/
lemma reads_blank (rest : List Char) (prev : List (List Char)) (m : ℕ) :
    Reads files ⟨.initial, (' ' :: rest) :: prev, m⟩ [.lexeme .skip [' ']]
      ⟨.initial, rest :: prev, m⟩ :=
  Piece.reads (p := .blank ' ')
    ⟨by decide, by decide, fun h => absurd h (by decide), fun h => absurd h (by decide)⟩

/-- An ordinary token. -/
lemma Token.Ordinary.reads {t : Token} (ht : t.Ordinary) (hw : t.Writable) (rest : List Char)
    (prev : List (List Char)) (m : ℕ) :
    Reads files ⟨.initial, (t.text ++ ' ' :: rest) :: prev, m⟩ t.sections
      ⟨.initial, rest :: prev, m⟩ := by
  obtain ⟨hfollowed, hsections, htext⟩ := ht.piece_spec hw
  have h : Reads files ⟨.initial, (t.piece.text ++ ' ' :: rest) :: prev, m⟩
      (t.piece.sections ++ [.lexeme .skip [' ']]) ⟨.initial, rest :: prev, m⟩ :=
    (Piece.reads (show t.piece.Followed (' ' :: rest).head? from hfollowed)).append
      (reads_blank rest prev m)
  rw [hsections, htext] at h
  exact h

/-- A blank before a block. -/
lemma reads_nativeBlank (rest : List Char) (prev : List (List Char)) (m : ℕ) :
    Reads files ⟨.native, (' ' :: rest) :: prev, m⟩ [.lexeme .skip [' ']]
      ⟨.native, rest :: prev, m⟩ :=
  reads_nativeGap (by decide : ∀ a ∈ [' '], isBlank a = true)

/-- A word before a block. -/
private lemma reads_place {p : NativePlace} (hp : p.keyword.text = p.text) (rest : List Char)
    (prev : List (List Char)) (m : ℕ) :
    Reads files ⟨.native, (p.keyword.text ++ ' ' :: rest) :: prev, m⟩
      (Token.keyword p.keyword).sections ⟨.native, rest :: prev, m⟩ := by
  have hlexed : (Token.keyword p.keyword).lexed = .lexeme (.keyword p.keyword) p.text := by
    rw [← hp]
    cases p <;> rfl
  obtain ⟨r, hselect, haction⟩ := select_native_place p (.inl (by decide : isBlank ' ' = true)) rest
  have hword : Reads files ⟨.native, (p.text ++ ' ' :: rest) :: prev, m⟩ [.lexeme r.action p.text]
      ⟨.native, (' ' :: rest) :: prev, m⟩ :=
    reads_lexeme p.text_ne_nil hselect (by rw [haction]; rfl)
  rw [Token.sections, hlexed, hp, ← haction]
  exact hword.append (reads_nativeBlank rest prev m)

/-- The words before a block. -/
private lemma reads_places {places : List NativePlace} (h : ∀ p ∈ places, p.keyword.text = p.text)
    (rest : List Char) (prev : List (List Char)) (m : ℕ) :
    Reads files
      ⟨.native, (writeTokens (places.map fun p => .keyword p.keyword) ++ rest) :: prev, m⟩
      ((places.map fun p => Token.keyword p.keyword).flatMap Token.sections)
      ⟨.native, rest :: prev, m⟩ := by
  induction places with
  | nil => rfl
  | cons p places ih =>
    obtain ⟨hp, hplaces⟩ := List.forall_mem_cons.mp h
    rw [List.map_cons, writeTokens_cons, List.flatMap_cons, List.append_assoc, List.cons_append]
    exact (reads_place hp _ prev m).append (ih hplaces)

/-- A block of native code with the words before it. -/
lemma NativeText.reads (impl : Bool) (n : NativeText) (hblock : Balanced '\x7b' '\x7d' n.block)
    (rest : List Char) (prev : List (List Char)) (m : ℕ) :
    Reads files ⟨.initial, (writeTokens (n.tokens impl) ++ rest) :: prev, m⟩
      ((n.tokens impl).flatMap Token.sections) ⟨.initial, rest :: prev, m⟩ := by
  have hplaces : ∀ p ∈ n.places impl, p.keyword.text = p.text := by
    cases impl <;> rcases n with ⟨_ | _, b⟩ | b <;> simp [places] <;> decide
  have htext : writeTokens (n.tokens impl) ++ rest = "native".toList ++ (' ' ::
      (writeTokens ((n.places impl).map fun p => .keyword p.keyword) ++
        '\x7b' :: (n.block ++ '\x7d' :: (' ' :: rest)))) := by
    rw [n.tokens_eq, writeTokens_cons, writeTokens_append]
    simp [writeTokens, Token.text, Keyword.text]
  have hnative : Reads files ⟨.native, ('\x7b' :: (n.block ++ '\x7d' :: (' ' :: rest))) :: prev, m⟩
      [.block n.block true] ⟨.initial, (' ' :: rest) :: prev, m⟩ :=
    reads_nativeBlock none (List.forall_mem_nil _) hblock
  rw [htext, n.tokens_eq, List.flatMap_cons, List.flatMap_append]
  refine .cons (List.cons_ne_nil _ _) (nextSection_beginNative (by simp [isWordChar]; decide)) ?_
  refine (reads_nativeBlank _ prev m).append ((reads_places hplaces _ prev m).append ?_)
  exact hnative.append (reads_blank rest prev m)

/-- **The sections of what is written** are those of its tokens. -/
theorem Grouped.reads (h : Grouped ts) (hw : ∀ t ∈ ts, t.Writable) (rest : List Char)
    (prev : List (List Char)) (m : ℕ) :
    Reads files ⟨.initial, (writeTokens ts ++ rest) :: prev, m⟩ (ts.flatMap Token.sections)
      ⟨.initial, rest :: prev, m⟩ := by
  induction h with
  | nil => rfl
  | ordinary ht _ ih =>
    obtain ⟨htw, hts⟩ := List.forall_mem_cons.mp hw
    rw [writeTokens_cons, List.flatMap_cons, List.append_assoc, List.cons_append]
    exact (ht.reads htw _ prev m).append (ih hts)
  | native impl n _ ih =>
    obtain ⟨hn, hts⟩ := List.forall_mem_append.mp hw
    have hblock : (Token.nativeBlock n.block).Writable := hn _ (by rw [n.tokens_eq]; simp)
    rw [writeTokens_append, List.flatMap_append, List.append_assoc]
    exact (n.reads impl hblock.1 _ prev m).append (ih hts)

/-- The section of a written token has that token. -/
lemma Grouped.lexed_token (h : Grouped ts) (hw : ∀ t ∈ ts, t.Writable) :
    ∀ t ∈ ts, t.lexed.token none = some t := by
  induction h with
  | nil => simp
  | ordinary ht _ ih =>
    obtain ⟨-, hts⟩ := List.forall_mem_cons.mp hw
    exact List.forall_mem_cons.mpr ⟨ht.lexed_token, ih hts⟩
  | native impl n _ ih =>
    obtain ⟨hn, hts⟩ := List.forall_mem_append.mp hw
    refine List.forall_mem_append.mpr ⟨?_, ih hts⟩
    have hblock : (Token.nativeBlock n.block).Writable := hn _ (by rw [n.tokens_eq]; simp)
    rw [n.tokens_eq]
    refine List.forall_mem_cons.mpr ⟨rfl, List.forall_mem_append.mpr ⟨?_, ?_⟩⟩
    · intro t ht
      obtain ⟨p, -, rfl⟩ := List.mem_map.mp ht
      cases p <;> rfl
    · intro t ht
      obtain rfl := List.mem_singleton.mp ht
      rw [Token.lexed, Section.token, upToNull_eq_self_iff.mpr hblock.2]

/-- Without documentation comments, the tokens of the sections are those that have been written. -/
private lemma tokensFrom_sections (h : ∀ t ∈ ts, t.lexed.token none = some t)
    {before : List Section}
    (hbefore : docCmntBefore before = none) :
    tokensFrom before (ts.flatMap Token.sections) = ts := by
  induction ts generalizing before with
  | nil => rfl
  | cons t ts ih =>
    obtain ⟨ht, hts⟩ := List.forall_mem_cons.mp h
    have hdoc : t.lexed.docCmnt = none := by
      cases t with
      | keyword k => cases k <;> rfl
      | _ => rfl
    have hnext : docCmntBefore (before ++ t.sections) = none := by
      rw [Token.sections, ← List.singleton_append, ← List.append_assoc,
        docCmntBefore_append_singleton, docCmntBefore_append_singleton, hdoc, hbefore]
      simp [Section.docCmnt, Section.takesDocCmnt]
    rw [List.flatMap_cons, tokensFrom_append, ih hts hnext, Token.sections, tokensFrom, hbefore, ht]
    rfl

/-- There is room for what is written if there is for each block. -/
private lemma fitsFrom_sections (offset : ℕ) (ts : List Token) :
    FitsFrom offset (ts.flatMap Token.sections) ↔ ∀ t ∈ ts, t.Fits := by
  induction ts generalizing offset with
  | nil => simp [FitsFrom]
  | cons t ts ih =>
    have ht : FitsFrom offset t.sections ↔ t.Fits := by
      cases t with
      | keyword k =>
        cases k <;> simp [Token.sections, Token.lexed, FitsFrom, Section.Fits, Token.Fits]
      | nativeBlock b =>
        simp [Token.sections, Token.lexed, FitsFrom, Section.Fits, Token.Fits]
      | _ => simp [Token.sections, Token.lexed, FitsFrom, Section.Fits, Token.Fits]
    rw [List.flatMap_cons, fitsFrom_append, ih, ht, List.forall_mem_cons]

/-- What the lexer returns for what is written. -/
private lemma yylex_writeTokens_iff (h : Grouped ts) (hw : ∀ t ∈ ts, t.Writable)
    (tokens : List Token) :
    (Lexer.yylex files).Returns (.running (.start (writeTokens ts))) tokens ↔
      (∀ t ∈ ts, t.Fits) ∧ tokens = ts := by
  have hread : Reads files ⟨.initial, [writeTokens ts ++ []], 0⟩ (ts.flatMap Token.sections)
      ⟨.initial, [[]], 0⟩ := h.reads hw [] [] 0
  rw [List.append_nil] at hread
  have hend : Reads files ⟨.initial, [[]], 0⟩ [.fileEnd] ⟨.initial, [], 0⟩ :=
    .single (List.cons_ne_nil _ _) rfl
  have hfits : FitsFrom 0 (ts.flatMap Token.sections ++ [.fileEnd]) ↔ ∀ t ∈ ts, t.Fits := by
    rw [fitsFrom_append, fitsFrom_sections]
    exact and_iff_left ⟨trivial, trivial⟩
  have htokens : tokensFrom [] (ts.flatMap Token.sections ++ [.fileEnd]) = ts := by
    rw [tokensFrom_append, tokensFrom_sections (h.lexed_token hw) rfl]
    exact List.append_nil _
  rw [Lexer.returns_iff_of_reads (hread.append hend), hfits, htokens]

end Reading

/-! ## Files -/

/-- The tokens of machines have no documentation comments. -/
private lemma Grouped.map_plain {ts : List Token} (h : Grouped ts) : ts.map Token.plain = ts := by
  induction h with
  | nil => rfl
  | @ordinary t ts ht _ ih =>
    rw [List.map_cons, ih]
    cases t with
    | docKeyword k doc =>
      obtain ⟨-, rfl⟩ := ht
      rfl
    | id name doc =>
      obtain rfl : doc = none := ht
      rfl
    | _ => rfl
  | native impl n _ ih =>
    rw [List.map_append, ih]
    cases impl <;> rcases n with ⟨_ | _, b⟩ | b <;> rfl

/-- The tokens of machines are a text of them. -/
lemma isText_fileTokens (ms : List MachineText) : IsText ms (fileTokens ms) :=
  (grouped_fileTokens ms).map_plain

/-- The lexer returns for the file, and what it returns is accepted. -/
def FileAccepted (files : ℕ → List Char → Option (List Char)) (namesOnly : Bool)
    (text : List Char) : Prop :=
  ∃ tokens, (Lexer.yylex files).Returns (.running (.start text)) tokens ∧
    TextAccepted namesOnly tokens

/-- **Written machines are read back.** Machines whose names are words, whose numbers are digits and
whose blocks are balanced are written to a file. From what the lexer returns for it no other
machines are read; and the file is accepted if and only if the blocks fit into the buffer, the
machines have different names, and each one is sound with all its sub-machines. -/
theorem fileAccepted_iff {ms : List MachineText} (hms : ∀ t ∈ fileTokens ms, t.Writable)
    (files : ℕ → List Char → Option (List Char)) (namesOnly : Bool) :
    (∀ tokens ms', (Lexer.yylex files).Returns (.running (.start (fileText ms))) tokens →
      (IsText ms' tokens ↔ ms' = ms)) ∧
    (FileAccepted files namesOnly (fileText ms) ↔
      (∀ t ∈ fileTokens ms, t.Fits) ∧ ms ≠ [] ∧ (ms.map fun m => m.own.name).Nodup ∧
        ∀ m ∈ ms, m.Sound namesOnly none) := by
  have hlexed : ∀ tokens, (Lexer.yylex files).Returns (.running (.start (fileText ms))) tokens ↔
      (∀ t ∈ fileTokens ms, t.Fits) ∧ tokens = fileTokens ms :=
    yylex_writeTokens_iff (grouped_fileTokens ms) hms
  refine ⟨?_, ?_⟩
  · intro tokens ms' hreturns
    obtain ⟨-, rfl⟩ := (hlexed tokens).mp hreturns
    constructor
    · exact fun h => h.unique (isText_fileTokens ms)
    · rintro rfl
      exact isText_fileTokens ms'
  · rw [← readFile_eq_some_nil_iff]
    constructor
    · rintro ⟨tokens, hreturns, ms', htext, hread⟩
      obtain ⟨hfits, rfl⟩ := (hlexed tokens).mp hreturns
      obtain rfl := htext.unique (isText_fileTokens ms)
      exact ⟨hfits, hread⟩
    · rintro ⟨hfits, hread⟩
      exact ⟨fileTokens ms, (hlexed _).mpr ⟨hfits, rfl⟩, ms, isText_fileTokens ms, hread⟩

/-- The machine with two states, with code before it. -/
def prologueText : MachineText :=
  .mk { twoStatesText.own with natives := [.prologue true "int x[] = \x7b 1 \x7d;".toList] } []

/-- A file with a machine that has a prologue is accepted. -/
theorem fileAccepted_prologueText :
    FileAccepted (fun _ _ => none) false (fileText [prologueText]) := by
  have hread : readFile false [prologueText] = some [] := by decide
  exact (fileAccepted_iff (by decide) _ _).2.mpr
    ⟨by decide, (readFile_eq_some_nil_iff _).mp hread⟩

end FsmLang
