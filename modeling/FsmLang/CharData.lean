import Mathlib.Tactic
import FsmLang.SourceSections

set_option relaxedAutoImplicit false
set_option autoImplicit false

/-!
# The buffer of the lexer

`charOffset` is set to zero where a documentation comment or a block of native code begins, and
nowhere else; the ends of the lines of ordinary comments are stored too, after what is in the buffer.
Nothing compares `charOffset` with the size of the buffer.

## Main definitions

* `Section.Fits`, `FitsFrom` — there is room for a section, and for a list of them.
* `StaysInside` — no store is outside the buffer, however far the run goes.

## Main results

* `exists_takeSection_of_fits`, `takeSection_of_not_fits` — what taking a section does.
* `staysInside_iff` — all stores are inside the buffer if and only if the sections fit.
-/

namespace FsmLang

open CSemantics Lexing

/-! ## Room for sections -/

/-- There is room for the section, if so many characters are in the buffer. Comments and blocks that
are closed have a null character after them. -/
def Section.Fits (offset : ℕ) : Section → Prop
  | .fileEnd => True
  | .lexeme _ _ => True
  | .docComment body closed => body.length + closed.toNat ≤ bufferSize
  | .comment body _ => offset + body.count '\n' ≤ bufferSize
  | .block body closed => body.length + closed.toNat ≤ bufferSize

/-- How many characters are in the buffer after the section. -/
def Section.offsetAfter (offset : ℕ) : Section → ℕ
  | .fileEnd => offset
  | .lexeme _ _ => offset
  | .docComment body _ => body.length
  | .comment body _ => offset + body.count '\n'
  | .block body _ => body.length

/-- There is room for all sections, one after the other. -/
def FitsFrom : ℕ → List Section → Prop
  | _, [] => True
  | offset, p :: ps => p.Fits offset ∧ FitsFrom (p.offsetAfter offset) ps

/-- Sections fit behind others if they fit where those end. -/
lemma fitsFrom_append {offset : ℕ} {ps qs : List Section} : FitsFrom offset (ps ++ qs) ↔
    FitsFrom offset ps ∧ FitsFrom (ps.foldl Section.offsetAfter offset) qs := by
  induction ps generalizing offset with
  | nil => simp [FitsFrom]
  | cons p ps ih => rw [List.cons_append, FitsFrom, FitsFrom, ih, and_assoc, List.foldl_cons]

/-- What is delivered of the blocks of native code: all of them as far as a null character. -/
def Section.delivered (p : Section) : List (List Char) := p.blocks.map upToNull

/-- The values of the tokens `NATIVE_BLOCK`. -/
def nativeBlocks (tokens : List Token) : List (List Char) :=
  tokens.filterMap fun
    | .nativeBlock charData => some charData
    | _ => none

namespace Lexer

variable {files : ℕ → List Char → Option (List Char)} {s s' : Lexer}

/-- The blocks among tokens behind others. -/
private lemma nativeBlocks_append (ts us : List Token) :
    nativeBlocks (ts ++ us) = nativeBlocks ts ++ nativeBlocks us := List.filterMap_append

/-! ## The end of a comment or a block -/

/-- The end of a documentation comment. -/
private lemma exists_keepDocCmnt (h : s.charData.next < bufferSize) :
    ∃ s', s.keepDocCmnt = some s' ∧
    s'.charData.next = s.charData.next ∧ s'.braceCnt = s.braceCnt ∧ s'.returned = s.returned := by
  obtain ⟨b, hb, hnext, -⟩ := Buffer.exists_terminate h
  rw [keepDocCmnt, hb]
  exact ⟨_, rfl, hnext, rfl, rfl⟩

/-- The end of a block. -/
private lemma exists_giveBlock (h : s.charData.next < bufferSize) : ∃ s', s.giveBlock = some s' ∧
    s'.charData.next = s.charData.next ∧ s'.braceCnt = s.braceCnt ∧
      nativeBlocks s'.returned = nativeBlocks s.returned ++ [upToNull s.charData.written] := by
  obtain ⟨b, hb, hnext, hstring⟩ := Buffer.exists_terminate h
  rw [giveBlock, hb, ← hstring]
  exact ⟨_, rfl, hnext, rfl, nativeBlocks_append s.returned _⟩

/-- What the actions between the sections leave as it is. -/
private lemma perform_of_isPlain (files : ℕ → List Char → Option (List Char)) {action : Action}
    (h : action.isPlain = true) (yytext : List Char) (s : Lexer) :
    ∃ s', perform files action yytext s = some s' ∧ s'.charData = s.charData ∧
      s'.braceCnt = s.braceCnt ∧ nativeBlocks s'.returned = nativeBlocks s.returned := by
  cases action with
  | beginDocCmnt | store | endDocCmnt | beginCmnt | endCmnt | openBlock | openBrace
  | closeBrace => cases h
  | newFile =>
    rw [perform]
    cases files s.newfiles yytext <;> exact ⟨_, rfl, rfl, rfl, rfl⟩
  | skip | beginInclude => exact ⟨_, rfl, rfl, rfl, rfl⟩
  | keyword | docKeyword | beginNative | char | id | numericString =>
    refine ⟨_, rfl, rfl, rfl, ?_⟩
    simp [give, setCond, nativeBlocks]

/-! ## Taking a section -/

/-- Characters for which there is room. -/
lemma exists_storeAll {cs : List Char} (h : s.charData.next + cs.length ≤ bufferSize) :
    ∃ b, storeAll cs s = some (s.setCharData b) ∧ b.next = s.charData.next + cs.length ∧
      b.written = s.charData.written ++ cs := by
  obtain ⟨b, hb⟩ := Buffer.exists_putAll h
  obtain ⟨hnext, hwritten⟩ := Buffer.putAll_eq_some hb
  exact ⟨b, by rw [storeAll, hb]; rfl, hnext, hwritten⟩

/-- Characters for which there is no room. -/
lemma storeAll_eq_none {cs : List Char} (hs : s.charData.next ≤ bufferSize)
    (h : bufferSize < s.charData.next + cs.length) : storeAll cs s = none := by
  rw [storeAll, (Buffer.putAll_eq_none_iff hs).mpr h]
  rfl

/-- Characters from the beginning of the buffer. -/
lemma exists_storeAll_rewind {body : List Char} (h : body.length ≤ bufferSize) :
    ∃ b, storeAll body s.rewind = some (s.setCharData b) ∧ b.next = body.length ∧
      b.written = body := by
  have hroom : s.rewind.charData.next + body.length ≤ bufferSize := (Nat.zero_add _).trans_le h
  obtain ⟨b, hb, hnext, hwritten⟩ := exists_storeAll hroom
  exact ⟨b, hb, hnext.trans (Nat.zero_add _), hwritten⟩

/-- **A section for which there is room.** -/
lemma exists_takeSection_of_fits (files : ℕ → List Char → Option (List Char)) {p : Section}
    (hs : s.charData.next ≤ bufferSize)
    (hplain : ∀ action yytext, p = .lexeme action yytext → action.isPlain = true)
    (h : p.Fits s.charData.next) : ∃ s', takeSection files s p = some s' ∧
      s'.charData.next = p.offsetAfter s.charData.next ∧
      p.offsetAfter s.charData.next ≤ bufferSize ∧
      nativeBlocks s'.returned = nativeBlocks s.returned ++ p.delivered ∧
      ((∀ body, p ≠ .block body false) → s'.braceCnt = s.braceCnt) := by
  cases p with
  | fileEnd => exact ⟨s, rfl, rfl, hs, (List.append_nil _).symm, fun _ => rfl⟩
  | lexeme action yytext =>
    obtain ⟨s', hperform, hsame, hbraces, hblocks⟩ :=
      perform_of_isPlain files (hplain action yytext rfl) yytext s
    exact ⟨s', hperform, congrArg Buffer.next hsame, hs, hblocks.trans (List.append_nil _).symm,
      fun _ => hbraces⟩
  | comment body closed =>
    have hroom : s.charData.next + (body.filter fun c => decide (c = '\n')).length ≤ bufferSize := by
      rw [← List.countP_eq_length_filter]
      exact h
    obtain ⟨b, hstored, hnext, -⟩ := exists_storeAll hroom
    rw [← List.countP_eq_length_filter] at hnext
    exact ⟨_, hstored, hnext, h, (List.append_nil _).symm, fun _ => rfl⟩
  | docComment body closed =>
    have hroom : body.length + closed.toNat ≤ bufferSize := h
    have hle : body.length ≤ bufferSize := by omega
    obtain ⟨b, hstored, hnext, -⟩ := exists_storeAll_rewind (s := s) hle
    rw [takeSection, hstored, Option.bind_some]
    cases closed with
    | false => exact ⟨_, rfl, hnext, hle, (List.append_nil _).symm, fun _ => rfl⟩
    | true =>
      have hlt : (s.setCharData b).charData.next < bufferSize := hnext.trans_lt hroom
      obtain ⟨s', hkeep, hnext', hbraces, hreturned⟩ := exists_keepDocCmnt hlt
      refine ⟨s', hkeep, hnext'.trans hnext, hle, ?_, fun _ => hbraces⟩
      rw [hreturned]
      exact (List.append_nil _).symm
  | block body closed =>
    have hroom : body.length + closed.toNat ≤ bufferSize := h
    have hle : body.length ≤ bufferSize := by omega
    obtain ⟨b, hstored, hnext, hwritten⟩ := exists_storeAll_rewind (s := s) hle
    rw [takeSection, hstored, Option.bind_some]
    cases closed with
    | false =>
      exact ⟨_, rfl, hnext, hle, (List.append_nil _).symm, fun hclosed => absurd rfl (hclosed body)⟩
    | true =>
      have hlt : (s.setCharData b).charData.next < bufferSize := hnext.trans_lt hroom
      obtain ⟨s', hgive, hnext', hbraces, hblocks⟩ := exists_giveBlock hlt
      have htext : (s.setCharData b).charData.written = body := hwritten
      rw [htext] at hblocks
      exact ⟨s', hgive, hnext'.trans hnext, hle, hblocks, fun _ => hbraces⟩

/-- A text that fills the buffer is not ended. -/
lemma bind_storeAll_eq_none {f : Lexer → Option Lexer} {body : List Char} {closed : Bool}
    (hf : ∀ s : Lexer, bufferSize ≤ s.charData.next → f s = none)
    (h : bufferSize < body.length + closed.toNat) (g : Lexer → Option Lexer) :
    ((storeAll body s.rewind).bind fun s => if closed then f s else g s) = none := by
  by_cases hle : body.length ≤ bufferSize
  · obtain ⟨b, hstored, hnext, -⟩ := exists_storeAll_rewind (s := s) hle
    cases closed with
    | false => exact absurd h (not_lt.mpr hle)
    | true =>
      rw [hstored, Option.bind_some, if_pos rfl]
      refine hf _ ?_
      show bufferSize ≤ b.next
      rw [hnext]
      exact Nat.lt_succ_iff.mp h
  · have hroom : bufferSize < s.rewind.charData.next + body.length :=
      (not_le.mp hle).trans_eq (Nat.zero_add _).symm
    rw [storeAll_eq_none (Nat.zero_le _) hroom]
    rfl

/-- **A section for which there is no room.** -/
lemma takeSection_of_not_fits {p : Section} (hs : s.charData.next ≤ bufferSize)
    (h : ¬ p.Fits s.charData.next) : takeSection files s p = none := by
  cases p with
  | fileEnd => exact absurd trivial h
  | lexeme action yytext => exact absurd trivial h
  | comment body closed =>
    refine storeAll_eq_none hs ?_
    rw [← List.countP_eq_length_filter]
    exact not_le.mp h
  | docComment body closed =>
    refine bind_storeAll_eq_none (fun s hfull => ?_) (not_le.mp h) some
    rw [keepDocCmnt, Buffer.terminate_eq_none_iff.mpr hfull]
    rfl
  | block body closed =>
    refine bind_storeAll_eq_none (fun s hfull => ?_) (not_le.mp h) _
    rw [giveBlock, Buffer.terminate_eq_none_iff.mpr hfull]
    rfl

/-! ## Runs -/

/-- Between two sections: no brace is counted, and what is stored is inside the buffer. -/
structure Between (s : Lexer) : Prop where
  cond : s.buffers = [] ∨ s.cond.isBetween = true ∧ s.braceCnt = 0
  next_le : s.charData.next ≤ bufferSize

/-- At the start the lexer is between two sections. -/
lemma between_start (text : List Char) : (start text).Between :=
  ⟨.inr ⟨rfl, rfl⟩, Nat.zero_le _⟩

/-- The loop goes on while there is a buffer. -/
lemma cond_bySections (h : s.buffers ≠ []) : (bySections files).cond s = true := by
  simpa [bySections] using h

/-- A pass that takes a section for which there is room. -/
lemma exists_pass_of_fits (hs : s.Between) (hbuffers : s.buffers ≠ [])
    (h : (nextSection files s.toSource).1.Fits s.charData.next) :
    ∃ s', (bySections files).pass s = .running s' ∧ s'.Between ∧
      s'.toSource = (nextSection files s.toSource).2 ∧
      s'.charData.next = (nextSection files s.toSource).1.offsetAfter s.charData.next ∧
      nativeBlocks s'.returned =
        nativeBlocks s.returned ++ (nextSection files s.toSource).1.delivered := by
  have hcond : s.buffers = [] ∨ s.cond.isBetween = true := hs.cond.imp_right And.left
  obtain ⟨hplain, hopen⟩ := nextSection_spec files hcond
  obtain ⟨s₁, htake, hoffset, hle, hblocks, hbraces⟩ :=
    exists_takeSection_of_fits files hs.next_le hplain h
  refine ⟨s₁.setSource (nextSection files s.toSource).2, ?_, ⟨?_, hoffset.trans_le hle⟩, rfl,
    hoffset, hblocks⟩
  · rw [WhileLoop.pass_of_cond (cond_bySections hbuffers)]
    show ((takeSection files s _).map _).elim _ _ = _
    rw [htake]
    rfl
  · by_cases hend : ∃ body, (nextSection files s.toSource).1 = .block body false
    · obtain ⟨body, hbody⟩ := hend
      exact .inl (hopen body hbody)
    · refine (nextSection_isBetween files hcond).imp_right fun hbetween => ⟨hbetween, ?_⟩
      show s₁.braceCnt = 0
      rw [hbraces fun body hbody => hend ⟨body, hbody⟩]
      exact (hs.cond.resolve_left hbuffers).2

/-- A pass that takes a section for which there is no room. -/
lemma pass_of_not_fits (hs : s.Between) (hbuffers : s.buffers ≠ [])
    (h : ¬ (nextSection files s.toSource).1.Fits s.charData.next) :
    (bySections files).pass s = .stuck := by
  rw [WhileLoop.pass_of_cond (cond_bySections hbuffers)]
  show ((takeSection files s _).map _).elim _ _ = _
  rw [takeSection_of_not_fits hs.next_le h]
  rfl

/-- The loop returns when no buffer is left. -/
lemma pass_of_buffers_eq_nil (hbuffers : s.buffers = []) :
    (bySections files).pass s = .returned s.returned := by
  have hcond : (bySections files).cond s = false := by
    simp [bySections, hbuffers]
  rw [WhileLoop.pass_of_not_cond hcond]
  rfl

/-- **A run of sections.** Where the run has come to after so many sections. -/
lemma of_after_eq_running (hs : s.Between) {n : ℕ}
    (h : (bySections files).after n (.running s) = .running s') :
    s'.Between ∧ s'.toSource = sourceAfter files n s.toSource ∧
      nativeBlocks s'.returned =
        nativeBlocks s.returned ++ (sections files n s.toSource).flatMap Section.delivered := by
  induction n generalizing s with
  | zero =>
    obtain rfl := CSemantics.Outcome.running.inj h
    exact ⟨hs, rfl, (List.append_nil _).symm⟩
  | succ n ih =>
    rw [WhileLoop.after_succ, WhileLoop.advance_running] at h
    by_cases hbuffers : s.buffers = []
    · rw [pass_of_buffers_eq_nil hbuffers, WhileLoop.after_returned] at h
      cases h
    by_cases hfits : (nextSection files s.toSource).1.Fits s.charData.next
    · obtain ⟨s₁, hpass, hs₁, hsrc, -, hblocks⟩ := exists_pass_of_fits hs hbuffers hfits
      rw [hpass] at h
      obtain ⟨hs', hsrc', hblocks'⟩ := ih hs₁ h
      refine ⟨hs', ?_, ?_⟩
      · rw [hsrc', hsrc, sourceAfter, if_neg hbuffers]
      · rw [hblocks', hblocks, hsrc, sections, if_neg hbuffers, List.flatMap_cons,
          List.append_assoc]
    · rw [pass_of_not_fits hs hbuffers hfits, WhileLoop.after_stuck] at h
      cases h

/-- **A run of sections** gets stuck if and only if there is no room for one of them. -/
lemma after_eq_stuck_iff (hs : s.Between) (n : ℕ) :
    (bySections files).after n (.running s) = .stuck ↔
      ¬ FitsFrom s.charData.next (sections files n s.toSource) := by
  induction n generalizing s with
  | zero => simp [sections, FitsFrom]
  | succ n ih =>
    rw [WhileLoop.after_succ, WhileLoop.advance_running, sections]
    by_cases hbuffers : s.buffers = []
    · rw [pass_of_buffers_eq_nil hbuffers, if_pos hbuffers, WhileLoop.after_returned]
      simp [FitsFrom]
    · rw [if_neg hbuffers, FitsFrom]
      by_cases hfits : (nextSection files s.toSource).1.Fits s.charData.next
      · obtain ⟨s', hpass, hs', hsrc, hoffset, -⟩ := exists_pass_of_fits hs hbuffers hfits
        rw [hpass, ih hs', hsrc, hoffset, and_iff_right hfits]
      · rw [pass_of_not_fits hs hbuffers hfits, WhileLoop.after_stuck]
        exact iff_of_true rfl fun h => hfits h.1

/-- The run goes on where there is room for the sections and the source has not been read. -/
lemma exists_after_eq_running (hs : s.Between) {n : ℕ}
    (hfits : FitsFrom s.charData.next (sections files n s.toSource))
    (hbuffers : (sourceAfter files n s.toSource).buffers ≠ []) :
    ∃ s', (bySections files).after n (.running s) = .running s' := by
  induction n generalizing s with
  | zero => exact ⟨s, rfl⟩
  | succ n ih =>
    have hsrc := buffers_ne_nil_of_sourceAfter hbuffers
    rw [sections, if_neg hsrc] at hfits
    rw [sourceAfter, if_neg hsrc] at hbuffers
    obtain ⟨s₁, hpass, hs₁, hnext, hoffset, -⟩ := exists_pass_of_fits hs hsrc hfits.1
    rw [WhileLoop.after_succ, WhileLoop.advance_running, hpass]
    refine ih hs₁ ?_ ?_
    · rw [hnext, hoffset]
      exact hfits.2
    · rwa [hnext]

/-- The run of the scanner follows the run of sections. -/
lemma exists_after_eq_bySections (files : ℕ → List Char → Option (List Char)) (hs : s.Between)
    (n : ℕ) : ∃ j, n ≤ j ∧
      (yylex files).after j (.running s) = (bySections files).after n (.running s) := by
  refine WhileLoop.exists_after_eq_of_steps ?_ n
  intro k s₁ hs₁
  obtain ⟨j, hj, -⟩ := (runsThrough_pass files s₁ (of_after_eq_running hs hs₁).1.cond).exists_after
  exact ⟨j, hj⟩

/-- The run of the scanner gets stuck if and only if there is no room for one of the sections. -/
lemma exists_stuck_iff (files : ℕ → List Char → Option (List Char)) (hs : s.Between) :
    (∃ k, (yylex files).after k (.running s) = .stuck) ↔
      ∃ n, ¬ FitsFrom s.charData.next (sections files n s.toSource) := by
  constructor
  · rintro ⟨k, hk⟩
    obtain ⟨j, hkj, hj⟩ := exists_after_eq_bySections files hs k
    refine ⟨k, (after_eq_stuck_iff hs k).mp (hj.symm.trans ?_)⟩
    rw [← Nat.sub_add_cancel hkj, WhileLoop.after_add, hk, WhileLoop.after_stuck]
  · rintro ⟨n, hn⟩
    obtain ⟨j, -, hj⟩ := exists_after_eq_bySections files hs n
    exact ⟨j, hj.trans ((after_eq_stuck_iff hs n).mpr hn)⟩

end Lexer

/-! ## Stores inside the buffer -/

/-- No store is outside the buffer, however far the run on a text goes. -/
def StaysInside (files : ℕ → List Char → Option (List Char)) (text : List Char) : Prop :=
  ∀ k, (Lexer.yylex files).after k (.running (.start text)) ≠ .stuck

/-- **The buffer of the lexer.** All stores are inside the buffer if and only if there is room for
the sections of the text: documentation comments and blocks of native code have less than 4096
characters, and the lines of ordinary comments that come after them fit in as well. -/
theorem staysInside_iff (files : ℕ → List Char → Option (List Char)) (text : List Char) :
    StaysInside files text ↔ ∀ n, FitsFrom 0 (sections files n (.start text)) := by
  have hstuck := Lexer.exists_stuck_iff files (Lexer.between_start text)
  rw [StaysInside, ← not_exists, hstuck, not_exists]
  exact forall_congr' fun n => not_not

/-- A comment of so many empty lines that their ends do not fit in the buffer. -/
def emptyLines (rest : List Char) : List Char :=
  '/' :: '*' :: '\n' :: (List.replicate bufferSize '\n' ++ '*' :: '/' :: rest)

/-- Many empty lines are one section. -/
lemma nextSection_emptyLines (files : ℕ → List Char → Option (List Char)) (rest : List Char)
    (prev : List (List Char)) (newfiles : ℕ) :
    nextSection files ⟨.initial, emptyLines rest :: prev, newfiles⟩ =
      (.comment (List.replicate (bufferSize + 1) '\n') true, ⟨.initial, rest :: prev, newfiles⟩) := by
  have hselect : ∀ t : List Char, select lexerRules .initial ('/' :: '*' :: '\n' :: t) =
      some (⟨[.initial], word "/*", .beginCmnt⟩, 2) := fun t => rfl
  have hmem : '*' ∉ List.replicate (bufferSize + 1) '\n' := fun hmem =>
    absurd (List.eq_of_mem_replicate hmem) (by decide)
  have hread : readComment (('\n' :: (List.replicate bufferSize '\n' ++ '*' :: '/' :: rest)) ::
      prev) = (List.replicate (bufferSize + 1) '\n', some (rest :: prev)) :=
    readComment_of_not_mem hmem rest prev
  simp only [nextSection, emptyLines, hselect, List.drop_succ_cons, List.drop_zero, hread]
  rfl

/-- Too many empty lines do not fit into the buffer. -/
lemma not_fits_emptyLines (offset : ℕ) :
    ¬ (Section.comment (List.replicate (bufferSize + 1) '\n') true).Fits offset := by
  show ¬ offset + (List.replicate (bufferSize + 1) '\n').count '\n' ≤ bufferSize
  rw [List.count_replicate_self]
  omega

/-- A comment of 4097 lines overruns the buffer. -/
theorem not_staysInside_emptyLines : ¬ StaysInside (fun _ _ => none) (emptyLines []) := by
  have hnext : nextSection (fun _ _ => none) (.start (emptyLines [])) = _ :=
    nextSection_emptyLines (fun _ _ => none) [] [] 0
  have hstart : (Source.start (emptyLines [])).buffers ≠ [] := List.cons_ne_nil _ _
  have hfits : ¬ FitsFrom 0 (sections (fun _ _ => none) 1 (.start (emptyLines []))) := by
    rw [sections, if_neg hstart, hnext]
    exact fun h => not_fits_emptyLines 0 h.1
  intro h
  obtain ⟨k, hk⟩ := (Lexer.exists_stuck_iff (fun _ _ => none)
    (Lexer.between_start (emptyLines []))).mpr ⟨1, hfits⟩
  exact h k hk

end FsmLang
