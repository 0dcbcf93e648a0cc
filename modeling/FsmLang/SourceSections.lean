import Mathlib.Tactic
import FsmLang.Lexer
import FsmLang.Lexing.Brackets

set_option relaxedAutoImplicit false
set_option autoImplicit false

/-!
# The sections of a source text

A source text read section by section: comments up to `*/`, blocks of native code up to the brace
that closes them, and single matches between them. The characters of a section are read from the
text alone, without a buffer and without a count of braces. A section may go on in the file that
includes the one in which it begins.

The lexer takes one section after the other: `bySections` takes each of them at once, and every pass
of it is one or more passes of `yylex`.

## Main definitions

* `readComment`, `readBlock` — the characters of a section, and what comes after it.
* `Section`, `nextSection`, `sections` — the sections of a source.
* `bySections` — the lexer, section by section.

## Main results

* `readBlock_of_balanced`, `balanced_of_readBlock` — blocks are what is between balanced braces.
* `runsThrough_pass` — the lexer takes the sections one after the other.
-/

namespace FsmLang

open CSemantics Lexing

/-! ## Reading -/

/-- How much there is to read. -/
def readLength (texts : List (List Char)) : ℕ := (texts.map fun t => t.length + 1).sum

/-- The characters up to `*/`, and the text after it. -/
def readComment : List (List Char) → List Char × Option (List (List Char))
  | [] => ([], none)
  | [] :: prev => readComment prev
  | (c :: t) :: prev =>
    if c = '*' ∧ t.head? = some '/' then ([], some (t.tail :: prev))
    else (c :: (readComment (t :: prev)).1, (readComment (t :: prev)).2)
termination_by texts => readLength texts
decreasing_by all_goals simp [readLength]

/-- The characters up to the brace that closes a block, at a depth within the block, and the text
after it. -/
def readBlock : ℕ → List (List Char) → List Char × Option (List (List Char))
  | _, [] => ([], none)
  | d, [] :: prev => readBlock d prev
  | d, (c :: t) :: prev =>
    if c = '\x7d' ∧ d = 0 then ([], some (t :: prev))
    else
      let read := readBlock (if c = '\x7b' then d + 1 else if c = '\x7d' then d - 1 else d)
        (t :: prev)
      (c :: read.1, read.2)
termination_by _ texts => readLength texts
decreasing_by all_goals simp [readLength]

/-- A section of a source. Comments and blocks are without what begins and ends them; the flag tells
whether they are closed. -/
inductive Section where
  | fileEnd
  | lexeme (action : Action) (yytext : List Char)
  | docComment (body : List Char) (closed : Bool)
  | comment (body : List Char) (closed : Bool)
  | block (body : List Char) (closed : Bool)
  deriving DecidableEq, Repr

/-- The blocks of native code that are closed. -/
def Section.blocks : Section → List (List Char)
  | .block body true => [body]
  | _ => []

/-- The source after a section, which ends with its last file if it is not closed. -/
def Source.afterSection (src : Source) (within : StartCondition)
    (rest : Option (List (List Char))) : Source :=
  match rest with
  | some texts => { src with cond := .initial, buffers := texts }
  | none => { src with cond := within, buffers := [] }

/-- The next section of a source, and what comes after it. -/
def nextSection (files : ℕ → List Char → Option (List Char)) (src : Source) : Section × Source :=
  match src.buffers with
  | [] => (.fileEnd, src)
  | [] :: prev => (.fileEnd, { src with buffers := prev })
  | (c :: t) :: prev =>
    match select lexerRules src.cond (c :: t) with
    | none => (.lexeme .skip [c], { src with buffers := t :: prev })
    | some (r, n) =>
      let yytext := (c :: t).take n
      let rest := (c :: t).drop n :: prev
      match r.action with
      | .beginDocCmnt => (.docComment (readComment rest).1 (readComment rest).2.isSome,
          src.afterSection .docCmnt (readComment rest).2)
      | .beginCmnt => (.comment (readComment rest).1 (readComment rest).2.isSome,
          src.afterSection .cmnt (readComment rest).2)
      | .openBlock => (.block (readBlock 0 rest).1 (readBlock 0 rest).2.isSome,
          src.afterSection .nativeBlck (readBlock 0 rest).2)
      | .beginInclude => (.lexeme .beginInclude yytext,
          { src with cond := .«include», buffers := rest })
      | .beginNative => (.lexeme .beginNative yytext, { src with cond := .native, buffers := rest })
      | .newFile => (.lexeme .newFile yytext,
          match files src.newfiles yytext with
          | none => { src with buffers := [], newfiles := src.newfiles + 1 }
          | some text => ⟨.initial, text :: rest, src.newfiles + 1⟩)
      | action => (.lexeme action yytext, { src with buffers := rest })

/-- The first `n` sections of a source. -/
def sections (files : ℕ → List Char → Option (List Char)) : ℕ → Source → List Section
  | 0, _ => []
  | n + 1, src =>
    if src.buffers = [] then []
    else (nextSection files src).1 :: sections files n (nextSection files src).2

/-- The source after its first `n` sections. -/
def sourceAfter (files : ℕ → List Char → Option (List Char)) : ℕ → Source → Source
  | 0, src => src
  | n + 1, src => if src.buffers = [] then src else sourceAfter files n (nextSection files src).2

/-- A source that has been read has no more sections. -/
lemma sourceAfter_of_buffers_eq_nil (files : ℕ → List Char → Option (List Char)) (n : ℕ)
    {src : Source} (h : src.buffers = []) : sourceAfter files n src = src := by
  cases n with
  | zero => rfl
  | succ n => rw [sourceAfter, if_pos h]

/-- A source with a buffer left has had one before. -/
lemma buffers_ne_nil_of_sourceAfter {files : ℕ → List Char → Option (List Char)} {n : ℕ}
    {src : Source} (h : (sourceAfter files n src).buffers ≠ []) : src.buffers ≠ [] := by
  intro hnil
  rw [sourceAfter_of_buffers_eq_nil files n hnil] at h
  exact h hnil

/-- The source after one more section. -/
lemma sourceAfter_succ (files : ℕ → List Char → Option (List Char)) (n : ℕ) {src : Source}
    (h : (sourceAfter files n src).buffers ≠ []) :
    sourceAfter files (n + 1) src = (nextSection files (sourceAfter files n src)).2 := by
  induction n generalizing src with
  | zero => exact if_neg h
  | succ n ih =>
    have hsrc := buffers_ne_nil_of_sourceAfter h
    rw [sourceAfter, if_neg hsrc] at h ⊢
    rw [ih h, sourceAfter, if_neg hsrc]

/-- One more section. -/
lemma sections_succ (files : ℕ → List Char → Option (List Char)) (n : ℕ) {src : Source}
    (h : (sourceAfter files n src).buffers ≠ []) : sections files (n + 1) src =
      sections files n src ++ [(nextSection files (sourceAfter files n src)).1] := by
  induction n generalizing src with
  | zero => exact if_neg h
  | succ n ih =>
    have hsrc := buffers_ne_nil_of_sourceAfter h
    rw [sourceAfter, if_neg hsrc] at h ⊢
    rw [sections, if_neg hsrc, ih h, sections, if_neg hsrc, List.cons_append]

/-- The sections go on. -/
lemma sections_prefix (files : ℕ → List Char → Option (List Char)) {m n : ℕ} (h : m ≤ n)
    (src : Source) : sections files m src <+: sections files n src := by
  induction m generalizing n src with
  | zero => exact List.nil_prefix
  | succ m ih =>
    obtain ⟨n, rfl⟩ := Nat.exists_eq_succ_of_ne_zero (show n ≠ 0 by omega)
    rw [sections, sections]
    split_ifs with hnil
    · exact List.nil_prefix
    · exact List.prefix_cons_inj _ |>.mpr (ih (by omega) _)

/-- Where a section comes from. -/
lemma exists_of_mem_sections {files : ℕ → List Char → Option (List Char)} {n : ℕ} {src : Source}
    {p : Section} (h : p ∈ sections files n src) :
    ∃ i < n, (nextSection files (sourceAfter files i src)).1 = p := by
  induction n generalizing src with
  | zero => cases h
  | succ n ih =>
    rw [sections] at h
    split_ifs at h with hnil
    · cases h
    · rcases List.mem_cons.mp h with rfl | hmem
      · exact ⟨0, Nat.succ_pos n, rfl⟩
      · obtain ⟨i, hi, hp⟩ := ih hmem
        refine ⟨i + 1, by omega, ?_⟩
        rw [sourceAfter, if_neg hnil, hp]

/-- Characters without a star are a comment. -/
lemma readComment_of_not_mem {body : List Char} (h : '*' ∉ body) (rest : List Char)
    (prev : List (List Char)) :
    readComment ((body ++ '*' :: '/' :: rest) :: prev) = (body, some (rest :: prev)) := by
  induction body with
  | nil => rw [List.nil_append, readComment, if_pos ⟨rfl, rfl⟩, List.tail_cons]
  | cons c body ih =>
    rw [List.mem_cons, not_or] at h
    rw [List.cons_append, readComment, if_neg fun hend => h.1 hend.1.symm, ih h.2]

/-! ## Blocks and braces -/

/-- **What is between balanced braces is a block.** -/
lemma readBlock_of_depth {d : ℕ} {body : List Char} (h : depth '\x7b' '\x7d' d body = some 0)
    (rest : List Char) (prev : List (List Char)) :
    readBlock d ((body ++ '\x7d' :: rest) :: prev) = (body, some (rest :: prev)) := by
  induction body generalizing d with
  | nil =>
    obtain rfl := Option.some.inj h
    rw [List.nil_append, readBlock, if_pos ⟨rfl, rfl⟩]
  | cons c body ih =>
    rw [depth] at h
    rw [List.cons_append, readBlock]
    split_ifs at h with ho hc hd
    · subst ho
      rw [if_neg (by simp), if_pos rfl]
      simp only [ih h]
    · rw [if_neg fun hclose => hd hclose.2, if_neg ho, if_pos hc]
      simp only [ih h]
    · rw [if_neg fun hclose => hc hclose.1, if_neg ho, if_neg hc]
      simp only [ih h]

/-- The block up to its closing brace. -/
lemma readBlock_of_balanced {body : List Char} (h : Balanced '\x7b' '\x7d' body)
    (rest : List Char) (prev : List (List Char)) :
    readBlock 0 ((body ++ '\x7d' :: rest) :: prev) = (body, some (rest :: prev)) :=
  readBlock_of_depth (h.depth_eq (by decide) 0) rest prev

/-- What has been read, the brace and what comes after it are the text. -/
lemma flatten_of_readBlock {d : ℕ} {texts rest : List (List Char)}
    (h : (readBlock d texts).2 = some rest) :
    rest ≠ [] ∧ texts.flatten = (readBlock d texts).1 ++ '\x7d' :: rest.flatten := by
  induction d, texts using readBlock.induct with
  | case1 d => simp [readBlock] at h
  | case2 d prev ih =>
    rw [readBlock] at h ⊢
    exact ih h
  | case3 d c t prev hclose =>
    rw [readBlock, if_pos hclose] at h ⊢
    obtain rfl := Option.some.inj h
    rw [hclose.1]
    exact ⟨List.cons_ne_nil _ _, rfl⟩
  | case4 d c t prev hclose ih =>
    rw [readBlock, if_neg hclose] at h ⊢
    obtain ⟨hne, hflat⟩ := ih h
    exact ⟨hne, congrArg (c :: ·) hflat⟩

/-- The depth comes back to zero where a block is closed. -/
private lemma depth_of_readBlock {d : ℕ} {texts rest : List (List Char)}
    (h : (readBlock d texts).2 = some rest) :
    depth '\x7b' '\x7d' d (readBlock d texts).1 = some 0 := by
  induction d, texts using readBlock.induct with
  | case1 d => simp [readBlock] at h
  | case2 d prev ih =>
    rw [readBlock] at h ⊢
    exact ih h
  | case3 d c t prev hclose =>
    rw [readBlock, if_pos hclose, hclose.2]
    rfl
  | case4 d c t prev hclose ih =>
    rw [readBlock, if_neg hclose] at h ⊢
    have hih := ih h
    rw [depth]
    split_ifs at hih ⊢ with ho hc hd
    · exact hih
    · exact absurd ⟨hc, hd⟩ hclose
    · exact hih
    · exact hih

/-- **Blocks are balanced.** -/
lemma balanced_of_readBlock {texts rest : List (List Char)}
    (h : (readBlock 0 texts).2 = some rest) : Balanced '\x7b' '\x7d' (readBlock 0 texts).1 :=
  (balanced_iff_depth (by decide)).mpr (depth_of_readBlock h)

/-! ## The lexer, section by section -/

namespace Lexer

variable {files : ℕ → List Char → Option (List Char)}

/-- The lexer at another place of the source. -/
def setSource (src : Source) (s : Lexer) : Lexer := { s with toSource := src }

/-- Store characters one after the other. -/
def storeAll (cs : List Char) (s : Lexer) : Option Lexer :=
  (s.charData.putAll cs).map fun b => s.setCharData b

/-- The lexer with another count of braces. -/
def setBraces (n : ℕ) (s : Lexer) : Lexer := { s with braceCnt := n }

/-- Characters are stored one after the other. -/
lemma storeAll_cons (c : Char) (cs : List Char) (s : Lexer) :
    storeAll (c :: cs) s = (s.store c).bind (storeAll cs) := by
  rw [storeAll, store, Buffer.putAll_cons, Option.map_bind, Option.bind_map]
  rfl

/-- Storing a character leaves the source alone. -/
lemma store_setSource (c : Char) (src : Source) (s : Lexer) :
    (s.setSource src).store c = (s.store c).map (setSource src) := by
  rw [store, store, Option.map_map]
  rfl

/-- Storing a character leaves the count of braces alone. -/
private lemma store_setBraces (c : Char) (n : ℕ) (s : Lexer) :
    (s.setBraces n).store c = (s.store c).map (setBraces n) := by
  rw [store, store, Option.map_map]
  rfl

/-- Storing characters leaves the source alone. -/
lemma storeAll_setSource (cs : List Char) (src : Source) (s : Lexer) :
    storeAll cs (s.setSource src) = (storeAll cs s).map (setSource src) := by
  rw [storeAll, storeAll, Option.map_map]
  rfl

/-- Storing characters leaves the count of braces alone. -/
lemma storeAll_setBraces (cs : List Char) (n : ℕ) (s : Lexer) :
    storeAll cs (s.setBraces n) = (storeAll cs s).map (setBraces n) := by
  rw [storeAll, storeAll, Option.map_map]
  rfl

/-- What is done for a section. A block that is not closed leaves braces that are counted. -/
def takeSection (files : ℕ → List Char → Option (List Char)) (s : Lexer) : Section → Option Lexer
  | .fileEnd => some s
  | .lexeme action yytext => s.perform files action yytext
  | .docComment body closed =>
    (storeAll body s.rewind).bind fun s => if closed then s.keepDocCmnt else some s
  | .comment body _ => storeAll (body.filter fun c => decide (c = '\n')) s
  | .block body closed =>
    (storeAll body s.rewind).bind fun s =>
      if closed then s.giveBlock
      else some (s.setBraces (1 + body.count '\x7b' - body.count '\x7d'))

/-- The lexer takes a section at once. -/
def bySections (files : ℕ → List Char → Option (List Char)) : WhileLoop Lexer (List Token) where
  cond s := !s.buffers.isEmpty
  body s :=
    (takeSection files s (nextSection files s.toSource).1).map
      (setSource (nextSection files s.toSource).2)
  finish s := some s.returned

/-- A pass of the loop. -/
lemma pass_of_buffers {s : Lexer} {text : List Char} {prev : List (List Char)}
    (h : s.buffers = text :: prev) :
    (yylex files).pass s = (lexStep files s).elim .stuck .running := by
  have hcond : (yylex files).cond s = true := by
    show (!s.buffers.isEmpty) = true
    rw [h]
    rfl
  exact WhileLoop.pass_of_cond hcond

/-- **Comments.** The lexer reads on up to `*/`, and stores those characters that are kept. It
returns nothing on the way. -/
lemma runsThrough_readComment (files : ℕ → List Char → Option (List Char)) {k : StartCondition}
    {p : Char → Bool} {f : Lexer → Option Lexer} {ts : List Token}
    (hstep : ∀ (s : Lexer) c t prev, s.cond = k → s.buffers = (c :: t) :: prev →
      lexStep files s =
        if c = '*' ∧ t.head? = some '/' then f { s with buffers := t.tail :: prev }
        else if p c = true then { s with buffers := t :: prev }.store c
        else some { s with buffers := t :: prev })
    (texts : List (List Char)) (s : Lexer) (hcond : s.cond = k) (hbuffers : s.buffers = texts)
    (hreturned : s.returned = ts) :
    (yylex files).RunsThrough (fun t => t.returned = ts) (.running s)
      (((storeAll ((readComment texts).1.filter p) s).bind fun s' =>
        match (readComment texts).2 with
        | some rest => f (s'.setSource { s.toSource with buffers := rest })
        | none => some (s'.setSource { s.toSource with buffers := [] })).elim .stuck .running) := by
  induction texts using readComment.induct generalizing s with
  | case1 =>
    refine .trans_eq (.refl _) ?_
    rw [readComment]
    show CSemantics.Outcome.running s = .running (s.setSource { s.toSource with buffers := [] })
    rw [← hbuffers]
    rfl
  | case2 prev ih =>
    have hstep' : lexStep files s = some (s.setSource { s.toSource with buffers := prev }) := by
      rw [lexStep, hbuffers]
      rfl
    refine .pass hreturned ?_
    rw [pass_of_buffers hbuffers, hstep', readComment]
    refine (ih (s.setSource { s.toSource with buffers := prev }) hcond rfl hreturned).trans_eq ?_
    rw [storeAll_setSource, Option.bind_map]
    rfl
  | case3 c t prev hend =>
    refine .pass hreturned (.trans_eq (.refl _) ?_)
    rw [pass_of_buffers hbuffers, hstep s c t prev hcond hbuffers, if_pos hend, readComment,
      if_pos hend]
    rfl
  | case4 c t prev hend ih =>
    rw [readComment, if_neg hend, List.filter_cons]
    have hread := hstep s c t prev hcond hbuffers
    rw [if_neg hend] at hread
    cases hkept : p c with
    | false =>
      rw [hkept, if_neg (by simp)] at hread
      refine .pass hreturned ?_
      rw [pass_of_buffers hbuffers, hread, if_neg (by simp)]
      refine (ih (s.setSource { s.toSource with buffers := t :: prev }) hcond rfl
        hreturned).trans_eq ?_
      rw [storeAll_setSource, Option.bind_map]
      rfl
    | true =>
      rw [hkept, if_pos rfl] at hread
      have hstore : { s with buffers := t :: prev }.store c =
          (s.store c).map (setSource { s.toSource with buffers := t :: prev }) :=
        store_setSource c { s.toSource with buffers := t :: prev } s
      rw [hstore] at hread
      rw [if_pos rfl, storeAll_cons]
      refine .pass hreturned ?_
      rw [pass_of_buffers hbuffers, hread]
      cases hs : s.store c with
      | none => exact .refl _
      | some s₁ =>
        obtain ⟨b, hput, rfl⟩ := Option.map_eq_some_iff.mp hs
        refine (ih ((s.setCharData b).setSource { s.toSource with buffers := t :: prev }) hcond rfl
          hreturned).trans_eq ?_
        rw [storeAll_setSource, Option.bind_map, Option.bind_some]
        rfl

/-- The brace that closes a block. -/
private lemma perform_closeBrace_of_one {s : Lexer} (h : s.braceCnt = 1) (yytext : List Char) :
    perform files .closeBrace yytext s = ((s.setCond .initial).setBraces 0).giveBlock := by
  simp only [perform, h]
  rfl

/-- Braces within a block are stored and counted. -/
private lemma perform_closeBrace_of_lt {s : Lexer} {d : ℕ} (h : s.braceCnt = d + 2)
    (hd : d + 2 < 2 ^ 32)
    (c : Char) : perform files .closeBrace [c] s = (s.setBraces (d + 1)).store c := by
  have hcnt : (s.braceCnt + (2 ^ 32 - 1)) % 2 ^ 32 = d + 1 := by omega
  simp only [perform, hcnt]
  rfl

/-- An opening brace in a block is counted and stored. -/
private lemma perform_openBrace {s : Lexer} {d : ℕ} (h : s.braceCnt = d + 1) (hd : d + 2 < 2 ^ 32)
    (c : Char) : perform files .openBrace [c] s = (s.setBraces (d + 2)).store c := by
  have hcnt : (s.braceCnt + 1) % 2 ^ 32 = d + 2 := by omega
  have hne : s.braceCnt ≠ 0 := by omega
  simp only [perform, hcnt, if_pos hne]
  rfl

/-- A character of a block, with the depth after it. -/
private lemma lexStep_inBlock {s : Lexer} {d : ℕ} {c : Char} {t : List Char}
    {prev : List (List Char)}
    (hcond : s.cond = .nativeBlck) (hbuffers : s.buffers = (c :: t) :: prev)
    (hbraces : s.braceCnt = d + 1) (hd : d + 2 < 2 ^ 32) (hopen : ¬ (c = '\x7d' ∧ d = 0)) :
    lexStep files s = (s.store c).map fun s' =>
      (s'.setSource { s.toSource with buffers := t :: prev }).setBraces
        ((if c = '\x7b' then d + 1 else if c = '\x7d' then d - 1 else d) + 1) := by
  have hplace : ∀ n, (({ s with buffers := t :: prev } : Lexer).setBraces n).store c =
      (s.store c).map fun s' =>
        (s'.setSource { s.toSource with buffers := t :: prev }).setBraces n := by
    intro n
    have hset := store_setSource c { s.toSource with buffers := t :: prev } s
    rw [store_setBraces]
    show Option.map _ ((s.setSource _).store c) = _
    rw [hset, Option.map_map]
    rfl
  have hbraces' : ({ s with buffers := t :: prev } : Lexer).braceCnt = d + 1 := hbraces
  rw [lexStep_nativeBlck hcond hbuffers]
  split_ifs with ho hc
  · rw [perform_openBrace hbraces' hd, hplace]
  · obtain ⟨e, rfl⟩ := Nat.exists_eq_succ_of_ne_zero fun h => hopen ⟨hc, h⟩
    rw [perform_closeBrace_of_lt hbraces' (by omega), hplace]
    rfl
  · have hsame := hplace (d + 1)
    rw [← hbraces] at hsame ⊢
    exact hsame

/-- **Blocks.** The lexer reads on up to the brace that closes the block, and stores what comes
before it. The depth is never more than what has been stored. -/
lemma runsThrough_readBlock (files : ℕ → List Char → Option (List Char)) {ts : List Token} (d : ℕ)
    (texts : List (List Char)) (s : Lexer) (hcond : s.cond = .nativeBlck)
    (hbuffers : s.buffers = texts) (hreturned : s.returned = ts) (hbraces : s.braceCnt = d + 1)
    (hd : d ≤ s.charData.next) (hroom : s.charData.next ≤ bufferSize) :
    (yylex files).RunsThrough (fun t => t.returned = ts) (.running s)
      (((storeAll (readBlock d texts).1 s).bind fun s' =>
        match (readBlock d texts).2 with
        | some rest => ((s'.setSource ⟨.initial, rest, s.newfiles⟩).setBraces 0).giveBlock
        | none => some ((s'.setSource { s.toSource with buffers := [] }).setBraces
            (d + 1 + (readBlock d texts).1.count '\x7b' -
              (readBlock d texts).1.count '\x7d'))).elim .stuck .running) := by
  induction d, texts using readBlock.induct generalizing s with
  | case1 d =>
    refine .trans_eq (.refl _) ?_
    rw [readBlock]
    show CSemantics.Outcome.running s =
      .running ((s.setSource { s.toSource with buffers := [] }).setBraces (d + 1))
    rw [← hbuffers, ← hbraces]
    rfl
  | case2 d prev ih =>
    have hstep : lexStep files s = some (s.setSource { s.toSource with buffers := prev }) := by
      rw [lexStep, hbuffers]
      rfl
    refine .pass hreturned ?_
    rw [pass_of_buffers hbuffers, hstep, readBlock]
    refine (ih (s.setSource { s.toSource with buffers := prev }) hcond rfl hreturned hbraces hd
      hroom).trans_eq ?_
    rw [storeAll_setSource, Option.bind_map]
    rfl
  | case3 d c t prev hclose =>
    obtain ⟨rfl, rfl⟩ := hclose
    have hbraces' : ({ s with buffers := t :: prev } : Lexer).braceCnt = 1 := hbraces
    refine .pass hreturned (.trans_eq (.refl _) ?_)
    rw [pass_of_buffers hbuffers, lexStep_nativeBlck hcond hbuffers, if_neg (by decide),
      if_pos rfl, perform_closeBrace_of_one hbraces', readBlock, if_pos ⟨rfl, rfl⟩]
    rfl
  | case4 d c t prev hclose ih =>
    have hsize : bufferSize = 4096 := rfl
    simp only [dite_eq_ite] at ih
    refine .pass hreturned ?_
    rw [pass_of_buffers hbuffers, lexStep_inBlock hcond hbuffers hbraces (by omega) hclose,
      readBlock, if_neg hclose]
    simp only [storeAll_cons]
    cases hs : s.store c with
    | none => exact .refl _
    | some s₁ =>
      obtain ⟨b, hput, rfl⟩ := Option.map_eq_some_iff.mp hs
      obtain ⟨hlt, hnext, -⟩ := Buffer.put_eq_some hput
      have hdepth : (if c = '\x7b' then d + 1 else if c = '\x7d' then d - 1 else d) ≤ b.next := by
        split_ifs <;> omega
      have hroom : b.next ≤ bufferSize := by omega
      refine (ih (((s.setCharData b).setSource { s.toSource with buffers := t :: prev }).setBraces _)
        hcond rfl hreturned rfl hdepth hroom).trans_eq ?_
      rw [storeAll_setBraces, storeAll_setSource, Option.map_map, Option.bind_map,
        Option.bind_some]
      congr 2
      funext s'
      cases hrest : (readBlock (if c = '\x7b' then d + 1 else if c = '\x7d' then d - 1 else d)
        (t :: prev)).2 with
      | some rest => rfl
      | none =>
        have hcount : ∀ body : List Char,
            (if c = '\x7b' then d + 1 else if c = '\x7d' then d - 1 else d) + 1 +
              body.count '\x7b' - body.count '\x7d' =
            d + 1 + (c :: body).count '\x7b' - (c :: body).count '\x7d' := by
          intro body
          simp only [List.count_cons, beq_iff_eq]
          split_ifs with ho hc hc
          · exact absurd (ho.symm.trans hc) (by decide)
          · omega
          · have hpos : d ≠ 0 := fun h => hclose ⟨hc, h⟩
            omega
          · omega
        simp only [hcount]
        rfl

end Lexer

/-! ### Between the sections -/

/-- The start conditions between the sections. -/
def StartCondition.isBetween : StartCondition → Bool
  | .initial | .native | .«include» => true
  | _ => false

/-- Actions that neither begin or end a comment or a block nor store. -/
def Action.isPlain : Action → Bool
  | .beginDocCmnt | .store | .endDocCmnt | .beginCmnt | .endCmnt => false
  | .openBlock | .openBrace | .closeBrace => false
  | _ => true

/-- What the rules between the sections do. -/
lemma isPlain_or_of_select {k : StartCondition} {cs : List Char} {n : ℕ}
    {r : Rule StartCondition Action Char} (hk : k.isBetween = true)
    (h : select lexerRules k cs = some (r, n)) : r.action.isPlain = true ∨
      r.action = .beginDocCmnt ∨ r.action = .beginCmnt ∨ r.action = .openBlock := by
  have hall : ∀ r ∈ lexerRules, (∃ k ∈ r.conds, k.isBetween = true) → r.action.isPlain = true ∨
      r.action = .beginDocCmnt ∨ r.action = .beginCmnt ∨ r.action = .openBlock := by decide
  obtain ⟨hmem, hcond, -, -⟩ := select_spec h
  exact hall r hmem ⟨k, hcond, hk⟩

/-- Single matches between the sections are plain, and a block that is not closed is the last
section. -/
lemma nextSection_spec (files : ℕ → List Char → Option (List Char)) {src : Source}
    (h : src.buffers = [] ∨ src.cond.isBetween = true) :
    (∀ action yytext, (nextSection files src).1 = .lexeme action yytext → action.isPlain = true) ∧
      ∀ body, (nextSection files src).1 = .block body false →
        (nextSection files src).2.buffers = [] := by
  rw [nextSection]
  split
  · simp
  · simp
  · next c t prev hbuffers =>
    have hcond : src.cond.isBetween = true := h.resolve_left (by simp [hbuffers])
    cases hselect : select lexerRules src.cond (c :: t) with
    | none => exact ⟨by rintro _ _ ⟨⟩; rfl, by simp⟩
    | some rn =>
      obtain ⟨r, n⟩ := rn
      have hrule := isPlain_or_of_select hcond hselect
      dsimp only
      cases haction : r.action with
      | beginDocCmnt | beginCmnt => simp
      | openBlock =>
        refine ⟨by simp, ?_⟩
        intro body hblock
        obtain ⟨-, hopen⟩ := Section.block.inj hblock
        cases hrest : (readBlock 0 ((c :: t).drop n :: prev)).2 with
        | none => rfl
        | some rest =>
          rw [hrest] at hopen
          cases hopen
      | store | endDocCmnt | endCmnt | openBrace | closeBrace =>
        rw [haction] at hrule
        rcases hrule with hplain | hfalse | hfalse | hfalse <;> contradiction
      | skip | beginInclude | newFile | keyword | docKeyword | beginNative | char | id
      | numericString => exact ⟨by rintro _ _ ⟨⟩; rfl, by simp⟩

/-- Between the sections a source goes on between the sections, or it has come to its end. -/
lemma nextSection_isBetween (files : ℕ → List Char → Option (List Char)) {src : Source}
    (h : src.buffers = [] ∨ src.cond.isBetween = true) :
    (nextSection files src).2.buffers = [] ∨ (nextSection files src).2.cond.isBetween = true := by
  have hafter : ∀ within rest, (src.afterSection within rest).buffers = [] ∨
      (src.afterSection within rest).cond.isBetween = true := by
    intro within rest
    cases rest with
    | none => exact .inl rfl
    | some texts => exact .inr rfl
  rw [nextSection]
  split
  · exact h
  · next hbuffers => exact h.imp (fun hnil => by simp [hnil] at hbuffers) id
  · next c t prev hbuffers =>
    have hcond : src.cond.isBetween = true := h.resolve_left (by simp [hbuffers])
    split
    · exact .inr hcond
    · dsimp only
      split
      · exact hafter _ _
      · exact hafter _ _
      · exact hafter _ _
      · exact .inr rfl
      · exact .inr rfl
      · dsimp only
        split
        · exact .inl rfl
        · exact .inr rfl
      · exact .inr hcond

namespace Lexer

variable {files : ℕ → List Char → Option (List Char)} {s : Lexer} {c : Char} {t : List Char}
  {prev : List (List Char)} {r : Rule StartCondition Action Char} {n : ℕ}

/-- Keeping a documentation comment leaves the source alone. -/
private lemma keepDocCmnt_setSource (src : Source) (s : Lexer) :
    (s.setSource src).keepDocCmnt = s.keepDocCmnt.map (setSource src) := by
  rw [keepDocCmnt, keepDocCmnt, Option.map_map]
  rfl

/-- Giving a block leaves the source alone. -/
private lemma giveBlock_setSource (src : Source) (s : Lexer) :
    (s.setSource src).giveBlock = s.giveBlock.map (setSource src) := by
  rw [giveBlock, giveBlock, Option.map_map]
  rfl

/-- The outcome of taking the next section. -/
def afterNext (files : ℕ → List Char → Option (List Char)) (s : Lexer) :
    CSemantics.Outcome Lexer (List Token) :=
  ((takeSection files s (nextSection files s.toSource).1).map
    (setSource (nextSection files s.toSource).2)).elim .stuck .running

/-- A documentation comment. -/
private lemma runsThrough_docComment (hbuffers : s.buffers = (c :: t) :: prev)
    (hselect : select lexerRules s.cond (c :: t) = some (r, n)) (haction : r.action = .beginDocCmnt) :
    (yylex files).RunsThrough (fun t => t.returned = s.returned) ((yylex files).pass s)
      (afterNext files s) := by
  let rest := (c :: t).drop n :: prev
  have hread := runsThrough_readComment files (p := fun _ => true)
    (f := fun s => (s.setCond .initial).keepDocCmnt) (fun s c t prev hcond hbuffers => by
      rw [if_pos rfl]
      exact lexStep_docCmnt hcond hbuffers) rest
    (s.rewind.setSource ⟨.docCmnt, rest, s.newfiles⟩) rfl rfl rfl
  rw [pass_of_buffers hbuffers, lexStep_of_select hbuffers hselect, haction]
  refine hread.trans_eq ?_
  rw [storeAll_setSource, Option.bind_map, List.filter_eq_self.mpr fun _ _ => rfl]
  simp only [afterNext, nextSection, hbuffers, hselect, haction, takeSection, Option.map_bind]
  congr 2
  funext s'
  show (match (readComment rest).2 with
    | some _ => _
    | none => _) = (if (readComment rest).2.isSome then s'.keepDocCmnt else some s').map
      (setSource (s.toSource.afterSection .docCmnt (readComment rest).2))
  cases (readComment rest).2 with
  | none => rfl
  | some rest' => exact keepDocCmnt_setSource _ s'

/-- An ordinary comment. -/
private lemma runsThrough_comment (hbuffers : s.buffers = (c :: t) :: prev)
    (hselect : select lexerRules s.cond (c :: t) = some (r, n)) (haction : r.action = .beginCmnt) :
    (yylex files).RunsThrough (fun t => t.returned = s.returned) ((yylex files).pass s)
      (afterNext files s) := by
  let rest := (c :: t).drop n :: prev
  have hread := runsThrough_readComment files (p := fun c => decide (c = '\n'))
    (f := fun s => some (s.setCond .initial)) (fun s c t prev hcond hbuffers => by
      simp only [decide_eq_true_eq]
      exact lexStep_cmnt hcond hbuffers) rest (s.setSource ⟨.cmnt, rest, s.newfiles⟩) rfl rfl rfl
  rw [pass_of_buffers hbuffers, lexStep_of_select hbuffers hselect, haction]
  refine hread.trans_eq ?_
  rw [storeAll_setSource, Option.bind_map]
  simp only [afterNext, nextSection, hbuffers, hselect, haction, takeSection]
  rw [Option.map_eq_bind]
  congr 2
  funext s'
  show (match (readComment rest).2 with
    | some _ => _
    | none => _) = some (s'.setSource (s.toSource.afterSection .cmnt (readComment rest).2))
  cases (readComment rest).2 with
  | none => rfl
  | some rest' => rfl

/-- A block of native code. -/
private lemma runsThrough_block (hbraces : s.braceCnt = 0) (hbuffers : s.buffers = (c :: t) :: prev)
    (hselect : select lexerRules s.cond (c :: t) = some (r, n)) (haction : r.action = .openBlock) :
    (yylex files).RunsThrough (fun t => t.returned = s.returned) ((yylex files).pass s)
      (afterNext files s) := by
  let rest := (c :: t).drop n :: prev
  have hread := runsThrough_readBlock files 0 rest
    ((s.rewind.setSource ⟨.nativeBlck, rest, s.newfiles⟩).setBraces 1)
    rfl rfl rfl rfl (Nat.zero_le _) (Nat.zero_le _)
  have hopen : perform files .openBlock ((c :: t).take n) { s with buffers := rest } =
      some ((s.rewind.setSource
        ⟨.nativeBlck, rest, s.newfiles⟩).setBraces 1) := by
    simp only [perform, hbraces, if_true]
    rfl
  rw [pass_of_buffers hbuffers, lexStep_of_select hbuffers hselect, haction, hopen]
  refine hread.trans_eq ?_
  rw [storeAll_setBraces, storeAll_setSource, Option.map_map, Option.bind_map]
  simp only [afterNext, nextSection, hbuffers, hselect, haction, takeSection]
  show _ = Option.elim (Option.map (setSource (s.toSource.afterSection .nativeBlck
    (readBlock 0 rest).2)) (Option.bind (storeAll (readBlock 0 rest).1 _) fun s' =>
      if (readBlock 0 rest).2.isSome then s'.giveBlock else _)) _ _
  cases hstored : storeAll (readBlock 0 rest).1 s.rewind with
  | none => rfl
  | some s' =>
    rw [Option.bind_some, Option.bind_some]
    cases (readBlock 0 rest).2 with
    | none => rfl
    | some rest' =>
      have hzero : s'.setBraces 0 = s' := by
        obtain ⟨b, -, rfl⟩ := Option.map_eq_some_iff.mp hstored
        rw [← hbraces]
        rfl
      rw [if_pos Option.isSome_some, ← giveBlock_setSource, ← hzero]
      rfl

/-- A single match. -/
private lemma pass_of_isPlain (hbuffers : s.buffers = (c :: t) :: prev)
    (hselect : select lexerRules s.cond (c :: t) = some (r, n)) (hplain : r.action.isPlain = true) :
    (yylex files).pass s = afterNext files s := by
  rw [pass_of_buffers hbuffers, lexStep_of_select hbuffers hselect]
  simp only [afterNext, nextSection, hbuffers, hselect]
  cases haction : r.action with
  | beginDocCmnt | store | endDocCmnt | beginCmnt | endCmnt | openBlock | openBrace
  | closeBrace =>
    rw [haction] at hplain
    cases hplain
  | newFile =>
    simp only [takeSection, perform]
    cases files s.newfiles ((c :: t).take n) <;> rfl
  | skip | beginInclude | keyword | docKeyword | beginNative | char | id | numericString => rfl

/-- **One section.** Every pass of the lexer that takes the sections at once is one or more passes
of the scanner, which returns nothing before the last of them. -/
lemma runsThrough_pass (files : ℕ → List Char → Option (List Char)) (s : Lexer)
    (hs : s.buffers = [] ∨ s.cond.isBetween = true ∧ s.braceCnt = 0) :
    (yylex files).RunsThrough (fun t => t.returned = s.returned) ((yylex files).pass s)
      ((bySections files).pass s) := by
  cases hbuffers : s.buffers with
  | nil =>
    have hcond : (yylex files).cond s = false := by
      show (!s.buffers.isEmpty) = false
      rw [hbuffers]
      rfl
    have hcond' : (bySections files).cond s = false := hcond
    rw [WhileLoop.pass_of_not_cond hcond, WhileLoop.pass_of_not_cond hcond']
    exact .refl _
  | cons text prev =>
    have hcond : (bySections files).cond s = true := by
      show (!s.buffers.isEmpty) = true
      rw [hbuffers]
      rfl
    obtain ⟨hbetween, hbraces⟩ := hs.resolve_left (by simp [hbuffers])
    have hpass : (bySections files).pass s = afterNext files s := WhileLoop.pass_of_cond hcond
    rw [hpass]
    cases text with
    | nil =>
      refine .trans_eq (.refl _) ?_
      rw [pass_of_buffers hbuffers]
      simp only [afterNext, nextSection, lexStep, hbuffers]
      rfl
    | cons c t =>
      cases hselect : select lexerRules s.cond (c :: t) with
      | none =>
        refine .trans_eq (.refl _) ?_
        rw [pass_of_buffers hbuffers]
        simp only [afterNext, nextSection, lexStep, hbuffers, hselect]
        rfl
      | some rn =>
        obtain ⟨r, n⟩ := rn
        rcases isPlain_or_of_select hbetween hselect with hplain | haction | haction | haction
        · exact .trans_eq (.refl _) (pass_of_isPlain hbuffers hselect hplain)
        · exact runsThrough_docComment hbuffers hselect haction
        · exact runsThrough_comment hbuffers hselect haction
        · exact runsThrough_block hbraces hbuffers hselect haction

end Lexer

end FsmLang
