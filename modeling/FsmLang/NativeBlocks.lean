import Mathlib.Tactic
import FsmLang.CharData

set_option relaxedAutoImplicit false
set_option autoImplicit false

/-!
# Blocks of native code

A block of native code is what is between balanced braces. Its text is delivered with the token
`NATIVE_BLOCK`, and the lexer goes on after the brace that closes it. The text goes through
`charData` and is copied as a string: it is as it should be where everything before it has been
stored inside the buffer, and no null character is in it.

## Main definitions

* `BlocksShort` — the blocks of a text are closed and have less characters than the buffer.
* `BlocksDelivered` — the text of every block is delivered.

## Main results

* `nextSection_eq_block`, `nextSection_block` — a block is what is between balanced braces.
* `blocksDelivered_iff` — when the blocks are delivered.
-/

namespace FsmLang

open CSemantics Lexing

variable {files : ℕ → List Char → Option (List Char)}

/-! ## Blocks in the text -/

/-- The rule that begins a block. -/
private lemma pattern_of_openBlock {r : Rule StartCondition Action Char} (hmem : r ∈ lexerRules)
    (haction : r.action = .openBlock) : r.conds = [.native] ∧ r.pattern = word "\x7b" := by
  have hall : ∀ r ∈ lexerRules, r.action = .openBlock →
      r.conds = [.native] ∧ r.pattern = word "\x7b" := by
    simp [lexerRules]
  exact hall r hmem haction

/-- A block begins with its brace. -/
private lemma select_of_openBlock {k : StartCondition} {c : Char} {t : List Char} {n : ℕ}
    {r : Rule StartCondition Action Char} (h : select lexerRules k (c :: t) = some (r, n))
    (haction : r.action = .openBlock) : k = .native ∧ c = '\x7b' ∧ n = 1 := by
  obtain ⟨hmem, hcond, -, hlongest⟩ := select_spec h
  obtain ⟨hconds, hpattern⟩ := pattern_of_openBlock hmem haction
  rw [hconds, List.mem_singleton] at hcond
  rw [hpattern, word, Pattern.longest_lit] at hlongest
  split_ifs at hlongest with hprefix
  obtain ⟨rfl, -⟩ := List.cons_prefix_cons.mp hprefix
  exact ⟨hcond, rfl, (Option.some.inj hlongest).symm⟩

/-- **A block in the text.** Its braces are balanced, and what comes after it is what is read
next. -/
lemma nextSection_block {src : Source} {body : List Char}
    (h : (nextSection files src).1 = .block body true) :
    Balanced '\x7b' '\x7d' body ∧ (nextSection files src).2.buffers ≠ [] ∧
      src.buffers.flatten =
        '\x7b' :: (body ++ '\x7d' :: (nextSection files src).2.buffers.flatten) := by
  cases hbuffers : src.buffers with
  | nil => simp [nextSection, hbuffers] at h
  | cons text prev =>
    cases text with
    | nil => simp [nextSection, hbuffers] at h
    | cons c t =>
      cases hselect : select lexerRules src.cond (c :: t) with
      | none => simp [nextSection, hbuffers, hselect] at h
      | some rn =>
        obtain ⟨r, n⟩ := rn
        by_cases haction : r.action = .openBlock
        · obtain ⟨-, rfl, rfl⟩ := select_of_openBlock hselect haction
          simp only [nextSection, hbuffers, hselect, haction, List.drop_succ_cons,
            List.drop_zero] at h ⊢
          obtain ⟨rfl, hclosed⟩ := Section.block.inj h
          obtain ⟨rest, hrest⟩ := Option.isSome_iff_exists.mp hclosed
          obtain ⟨hne, hflat⟩ := flatten_of_readBlock hrest
          refine ⟨balanced_of_readBlock hrest, ?_, ?_⟩
          · rw [hrest]
            exact hne
          · rw [hrest]
            exact congrArg ('\x7b' :: ·) hflat
        · simp only [nextSection, hbuffers, hselect] at h
          cases hother : r.action with
          | openBlock => exact absurd hother haction
          | beginDocCmnt | beginCmnt | store | endDocCmnt | endCmnt | skip | beginInclude | newFile
          | keyword | docKeyword | beginNative | openBrace | closeBrace | char | id
          | numericString =>
            rw [hother] at h
            cases h

/-- **What is between balanced braces is a block.** -/
lemma nextSection_eq_block (files : ℕ → List Char → Option (List Char)) {body : List Char}
    (h : Balanced '\x7b' '\x7d' body) (rest : List Char) (prev : List (List Char))
    (newfiles : ℕ) :
    nextSection files ⟨.native, ('\x7b' :: (body ++ '\x7d' :: rest)) :: prev, newfiles⟩ =
      (.block body true, ⟨.initial, rest :: prev, newfiles⟩) := by
  have hselect : ∀ c t, select lexerRules .native ('\x7b' :: c :: t) =
      some (⟨[.native], word "\x7b", .openBlock⟩, 1) := fun c t => rfl
  obtain ⟨c, t, ht⟩ : ∃ c t, body ++ '\x7d' :: rest = c :: t :=
    List.exists_cons_of_ne_nil (by simp)
  have hread := readBlock_of_balanced h rest prev
  rw [ht] at hread ⊢
  simp only [nextSection, hselect, List.drop_succ_cons, List.drop_zero, hread]
  rfl

/-! ## Delivery -/

/-- The blocks of native code in a text are closed, and have less characters than the buffer. -/
def BlocksShort (files : ℕ → List Char → Option (List Char)) (text : List Char) : Prop :=
  ∀ n body closed, (nextSection files (sourceAfter files n (.start text))).1 = .block body closed →
    closed = true ∧ body.length < bufferSize

/-- Every block of native code in a text is delivered: it is what is between balanced braces, its
token has its text as those of the blocks before it have theirs, and the lexer goes on after its
last brace, with no brace counted. -/
def BlocksDelivered (files : ℕ → List Char → Option (List Char)) (text : List Char) : Prop :=
  ∀ n body, (nextSection files (sourceAfter files n (.start text))).1 = .block body true →
    Balanced '\x7b' '\x7d' body ∧
      ∃ k s, (Lexer.yylex files).after k (.running (.start text)) = .running s ∧
        (sourceAfter files n (.start text)).buffers.flatten =
          '\x7b' :: (body ++ '\x7d' :: s.buffers.flatten) ∧
        s.toSource = sourceAfter files (n + 1) (.start text) ∧ s.braceCnt = 0 ∧
        nativeBlocks s.returned =
          (sections files n (.start text)).flatMap Section.blocks ++ [body]

/-- Sections deliver as many blocks as they have. -/
lemma length_flatMap_delivered (ps : List Section) :
    (ps.flatMap Section.delivered).length = (ps.flatMap Section.blocks).length := by
  simp [List.length_flatMap, Section.delivered]

/-- Blocks without null characters are delivered as they are. -/
private lemma flatMap_delivered_of_not_mem {ps : List Section}
    (h : ∀ body, Section.block body true ∈ ps → '\x00' ∉ body) :
    ps.flatMap Section.delivered = ps.flatMap Section.blocks := by
  induction ps with
  | nil => rfl
  | cons p ps ih =>
    rw [List.flatMap_cons, List.flatMap_cons,
      ih fun body hbody => h body (List.mem_cons_of_mem p hbody)]
    congr 1
    cases p with
    | block body closed =>
      cases closed with
      | false => rfl
      | true =>
        have hbody : upToNull body = body := upToNull_eq_self_iff.mpr (h body List.mem_cons_self)
        exact congrArg (fun w => [w]) hbody
    | fileEnd | lexeme | docComment | comment => rfl

/-- A block is one more section of the text. -/
lemma sections_succ_of_block {text body : List Char} {n : ℕ} {closed : Bool}
    (h : (nextSection files (sourceAfter files n (.start text))).1 = .block body closed) :
    sections files (n + 1) (.start text) = sections files n (.start text) ++ [.block body closed] := by
  rw [sections_succ, h]
  intro hnil
  simp [nextSection, hnil] at h

/-- **Delivering blocks.** It takes room for all sections before the block, and no null character in
the block. -/
lemma fitsFrom_of_blocksDelivered {text body : List Char} {n : ℕ} (h : BlocksDelivered files text)
    (hblock : (nextSection files (sourceAfter files n (.start text))).1 = .block body true) :
    FitsFrom 0 (sections files n (.start text)) ∧ '\x00' ∉ body := by
  obtain ⟨-, k, s, hk, -, -, -, hblocks⟩ := h n body hblock
  have hstart := Lexer.between_start text
  -- the state is within a pass that takes a section, and no token is returned there
  obtain ⟨m, s₁, hs₁, hreturned⟩ := WhileLoop.exists_within_of_steps
    (L := Lexer.bySections files) (I := fun s t => t.returned = s.returned) (fun _ => rfl)
    (fun m s₁ hs₁ => Lexer.runsThrough_pass files s₁ (Lexer.of_after_eq_running hstart hs₁).1.cond)
    k hk
  obtain ⟨-, -, hdelivered⟩ := Lexer.of_after_eq_running hstart hs₁
  have hfits : FitsFrom 0 (sections files m (.start text)) := by
    by_contra hfits
    have hstuck := (Lexer.after_eq_stuck_iff hstart m).mpr hfits
    cases hs₁.symm.trans hstuck
  have heq : (sections files m (.start text)).flatMap Section.delivered =
      (sections files n (.start text)).flatMap Section.blocks ++ [body] := by
    rw [← hblocks, hreturned]
    exact hdelivered.symm
  have hlength := congrArg List.length heq
  rw [length_flatMap_delivered, List.length_append, List.length_singleton] at hlength
  have hnm : n + 1 ≤ m := by
    by_contra hmn
    obtain ⟨qs, hqs⟩ := sections_prefix files (show m ≤ n by omega) (.start text)
    rw [← hqs, List.flatMap_append, List.length_append] at hlength
    omega
  obtain ⟨qs, hqs⟩ := sections_prefix files hnm (.start text)
  rw [sections_succ_of_block hblock, List.append_assoc] at hqs
  rw [← hqs] at hfits heq
  refine ⟨(fitsFrom_append.mp hfits).1, ?_⟩
  rw [List.flatMap_append] at heq
  obtain ⟨-, htail⟩ := List.append_inj heq (length_flatMap_delivered _)
  exact upToNull_eq_self_iff.mp (List.cons.inj htail).1

/-- **Blocks that are delivered.** -/
lemma blocksDelivered_of_fitsFrom {text : List Char} (hshort : BlocksShort files text)
    (h : ∀ n body, (nextSection files (sourceAfter files n (.start text))).1 = .block body true →
      FitsFrom 0 (sections files n (.start text)) ∧ '\x00' ∉ body) :
    BlocksDelivered files text := by
  intro n body hblock
  obtain ⟨hbalanced, hne, hflat⟩ := nextSection_block hblock
  have hstart := Lexer.between_start text
  have hbuffers : (sourceAfter files n (.start text)).buffers ≠ [] := by
    intro hnil
    simp [nextSection, hnil] at hblock
  have hsections := sections_succ_of_block hblock
  have hfits : FitsFrom 0 (sections files (n + 1) (.start text)) := by
    rw [hsections, fitsFrom_append]
    refine ⟨(h n body hblock).1, ?_, trivial⟩
    have hlt : body.length < bufferSize := (hshort n body true hblock).2
    exact hlt
  have hnext : sourceAfter files (n + 1) (.start text) =
      (nextSection files (sourceAfter files n (.start text))).2 := sourceAfter_succ files n hbuffers
  rw [← hnext] at hne hflat
  obtain ⟨s, hs⟩ := Lexer.exists_after_eq_running hstart hfits hne
  obtain ⟨hbetween, hsrc, hblocks⟩ := Lexer.of_after_eq_running hstart hs
  obtain ⟨k, -, hk⟩ := Lexer.exists_after_eq_bySections files hstart (n + 1)
  have hs_ne : s.buffers ≠ [] := by
    rw [hsrc]
    exact hne
  refine ⟨hbalanced, k, s, hk.trans hs, ?_, hsrc, (hbetween.cond.resolve_left hs_ne).2, ?_⟩
  · rw [hsrc]
    exact hflat
  · have hall : ∀ body, Section.block body true ∈ sections files (n + 1) (.start text) →
        '\x00' ∉ body := by
      intro body' hmem
      obtain ⟨i, -, hi⟩ := exists_of_mem_sections hmem
      exact (h i body' hi).2
    calc nativeBlocks s.returned
        = (sections files (n + 1) (.start text)).flatMap Section.delivered := hblocks
      _ = (sections files (n + 1) (.start text)).flatMap Section.blocks :=
          flatMap_delivered_of_not_mem hall
      _ = (sections files n (.start text)).flatMap Section.blocks ++ [body] := by
          rw [hsections, List.flatMap_append]
          rfl

/-- **Blocks of native code.** In a text with short blocks every block is delivered if and only if
there is room for the comments before it, and no null character is in it. -/
theorem blocksDelivered_iff (files : ℕ → List Char → Option (List Char)) (text : List Char)
    (hshort : BlocksShort files text) : BlocksDelivered files text ↔
      ∀ n body, (nextSection files (sourceAfter files n (.start text))).1 = .block body true →
        FitsFrom 0 (sections files n (.start text)) ∧ '\x00' ∉ body :=
  ⟨fun h _ _ => fitsFrom_of_blocksDelivered h, blocksDelivered_of_fitsFrom hshort⟩

/-! ### One block -/

/-- A text with one block. -/
def oneBlock (body : List Char) : List Char :=
  'n' :: 'a' :: 't' :: 'i' :: 'v' :: 'e' :: '\x7b' :: (body ++ ['\x7d'])

/-- The keyword of a native block, at the start of a text. -/
lemma nextSection_native (files : ℕ → List Char → Option (List Char)) (t : List Char)
    (prev : List (List Char)) (newfiles : ℕ) :
    nextSection files
        ⟨.initial, ('n' :: 'a' :: 't' :: 'i' :: 'v' :: 'e' :: '\x7b' :: t) :: prev, newfiles⟩ =
      (.lexeme .beginNative ['n', 'a', 't', 'i', 'v', 'e'],
        ⟨.native, ('\x7b' :: t) :: prev, newfiles⟩) := by
  have hselect : select lexerRules .initial
      ('n' :: 'a' :: 't' :: 'i' :: 'v' :: 'e' :: '\x7b' :: t) =
        some (⟨[.initial], word "native", .beginNative⟩, 6) := rfl
  simp only [nextSection, hselect]
  rfl

/-- The block is the second section. -/
lemma block_oneBlock {body : List Char} (h : Balanced '\x7b' '\x7d' body) {n : ℕ}
    {body' : List Char} {closed : Bool}
    (hblock : (nextSection files (sourceAfter files n (.start (oneBlock body)))).1 =
      .block body' closed) : n = 1 ∧ body' = body ∧ closed = true := by
  have hfirst : nextSection files (.start (oneBlock body)) = _ :=
    nextSection_native files (body ++ ['\x7d']) [] 0
  have hsecond := nextSection_eq_block files h [] [] 0
  have hstart : (Source.start (oneBlock body)).buffers ≠ [] := List.cons_ne_nil _ _
  rcases n with _ | _ | _ | n
  · rw [sourceAfter, hfirst] at hblock
    cases hblock
  · rw [sourceAfter, if_neg hstart, hfirst, sourceAfter, hsecond] at hblock
    obtain ⟨rfl, rfl⟩ := Section.block.inj hblock
    exact ⟨rfl, rfl, rfl⟩
  · rw [sourceAfter, if_neg hstart, hfirst, sourceAfter, if_neg (List.cons_ne_nil _ _), hsecond,
      sourceAfter] at hblock
    cases hblock
  · rw [sourceAfter, if_neg hstart, hfirst, sourceAfter, if_neg (List.cons_ne_nil _ _), hsecond,
      sourceAfter, if_neg (List.cons_ne_nil _ _)] at hblock
    have hread : (nextSection files ⟨.initial, [[]], 0⟩).2 = ⟨.initial, [], 0⟩ := rfl
    rw [hread, sourceAfter_of_buffers_eq_nil files n rfl] at hblock
    cases hblock

/-- A short block is short in the text that consists of it. -/
lemma blocksShort_oneBlock {body : List Char} (h : Balanced '\x7b' '\x7d' body)
    (hlen : body.length < bufferSize) : BlocksShort files (oneBlock body) := by
  intro n body' closed hblock
  obtain ⟨-, rfl, hclosed⟩ := block_oneBlock h hblock
  exact ⟨hclosed, hlen⟩

/-- The second section of the text is the block. -/
lemma nextSection_oneBlock {body : List Char} (h : Balanced '\x7b' '\x7d' body) :
    (nextSection files (sourceAfter files 1 (.start (oneBlock body)))).1 = .block body true := by
  have hfirst : nextSection files (.start (oneBlock body)) = _ :=
    nextSection_native files (body ++ ['\x7d']) [] 0
  have hstart : (Source.start (oneBlock body)).buffers ≠ [] := List.cons_ne_nil _ _
  rw [sourceAfter, if_neg hstart, hfirst, sourceAfter, nextSection_eq_block files h [] [] 0]

/-- There is always room for the text before the block. -/
private lemma fitsFrom_oneBlock (body : List Char) :
    FitsFrom 0 (sections files 1 (.start (oneBlock body))) := by
  have hfirst : nextSection files (.start (oneBlock body)) = _ :=
    nextSection_native files (body ++ ['\x7d']) [] 0
  have hstart : (Source.start (oneBlock body)).buffers ≠ [] := List.cons_ne_nil _ _
  rw [sections, if_neg hstart, hfirst]
  exact ⟨trivial, trivial⟩

/-- A block with a group of braces and the end of a line. -/
theorem blocksDelivered_oneBlock :
    BlocksDelivered (fun _ _ => none) (oneBlock ['a', '\x7b', 'b', '\x7d', '\n']) := by
  have hbalanced : Balanced '\x7b' '\x7d' ['a', '\x7b', 'b', '\x7d', '\n'] :=
    (balanced_iff_depth (by decide)).mpr (by decide)
  refine (blocksDelivered_iff _ _ (blocksShort_oneBlock hbalanced (by decide))).mpr ?_
  intro n body hblock
  obtain ⟨rfl, rfl, -⟩ := block_oneBlock hbalanced hblock
  exact ⟨fitsFrom_oneBlock _, by decide⟩

/-- A short block is not delivered after a comment that overruns the buffer, nor with a null
character in it. -/
theorem not_blocksDelivered_oneBlock :
    (BlocksShort (fun _ _ => none) (emptyLines (oneBlock ['x'])) ∧
      ¬ BlocksDelivered (fun _ _ => none) (emptyLines (oneBlock ['x']))) ∧
    BlocksShort (fun _ _ => none) (oneBlock ['a', '\x00', 'b']) ∧
      ¬ BlocksDelivered (fun _ _ => none) (oneBlock ['a', '\x00', 'b']) := by
  have hx : Balanced '\x7b' '\x7d' ['x'] := (balanced_iff_depth (by decide)).mpr (by decide)
  have hnull : Balanced '\x7b' '\x7d' ['a', '\x00', 'b'] :=
    (balanced_iff_depth (by decide)).mpr (by decide)
  have hcomment : nextSection (fun _ _ => none) (.start (emptyLines (oneBlock ['x']))) = _ :=
    nextSection_emptyLines (fun _ _ => none) (oneBlock ['x']) [] 0
  have hstart : (Source.start (emptyLines (oneBlock ['x']))).buffers ≠ [] := List.cons_ne_nil _ _
  have hafter : ∀ n, sourceAfter (fun _ _ => none) (n + 1) (.start (emptyLines (oneBlock ['x']))) =
      sourceAfter (fun _ _ => none) n (.start (oneBlock ['x'])) := by
    intro n
    rw [sourceAfter, if_neg hstart, hcomment]
    rfl
  refine ⟨⟨?_, ?_⟩, blocksShort_oneBlock hnull (by decide), ?_⟩
  · intro n body closed hblock
    cases n with
    | zero =>
      rw [sourceAfter, hcomment] at hblock
      cases hblock
    | succ n =>
      rw [hafter] at hblock
      exact blocksShort_oneBlock hx (by decide) n body closed hblock
  · intro h
    have hblock : (nextSection (fun _ _ => none) (sourceAfter (fun _ _ => none) 2
        (.start (emptyLines (oneBlock ['x']))))).1 = .block ['x'] true := by
      rw [hafter]
      exact nextSection_oneBlock hx
    obtain ⟨hfits, -⟩ := fitsFrom_of_blocksDelivered h hblock
    rw [sections, if_neg hstart, hcomment] at hfits
    exact not_fits_emptyLines 0 hfits.1
  · intro h
    obtain ⟨-, hmem⟩ := fitsFrom_of_blocksDelivered h (nextSection_oneBlock hnull)
    exact hmem (by simp)

end FsmLang
