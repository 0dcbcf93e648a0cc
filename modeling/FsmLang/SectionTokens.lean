import Mathlib.Tactic
import FsmLang.CharData

set_option relaxedAutoImplicit false
set_option autoImplicit false

/-!
# The tokens of a source text

What `yylex` returns for the sections of a text. Identifiers, and the words `transition`, `guard`,
`action`, `parent` and `sequence`, take a documentation comment with them. `currDocCmnt` points to
the comment that was seen last; who takes it sets it back to `NULL`.

## Main definitions

* `docCmntBefore` — the documentation comment for the token after some sections.
* `Section.token`, `tokensFrom` — the tokens of sections.
* `LastDocCmnt` — the documentation comment for a section, by its place.

## Main results

* `Lexer.of_after_eq_running_tokens` — what has been returned after so many sections.
* `yylex_returns_iff` — what `yylex` returns for a text.
-/

namespace FsmLang

open CSemantics Lexing

/-! ## Tokens of sections -/

/-- The documentation comment that a section is. -/
def Section.docCmnt : Section → Option (List Char)
  | .docComment body true => some (upToNull body)
  | _ => none

/-- The token of the section takes a documentation comment with it. -/
def Section.takesDocCmnt : Section → Bool
  | .lexeme (.docKeyword _) _ => true
  | .lexeme .id _ => true
  | _ => false

/-- The last documentation comment among the sections, if it has not been taken since. -/
def docCmntBefore (ps : List Section) : Option (List Char) :=
  (ps.reverse.takeWhile fun p => !p.takesDocCmnt).findSome? Section.docCmnt

/-- The token of a section, with the documentation comment before it. -/
def Section.token (docCmnt : Option (List Char)) : Section → Option Token
  | .lexeme (.keyword k) _ => some (.keyword k)
  | .lexeme (.docKeyword k) _ => some (.docKeyword k docCmnt)
  | .lexeme .beginNative _ => some (.keyword .nativeKey)
  | .lexeme .char yytext => some (.char (yytext.headD '\x00'))
  | .lexeme .id yytext => some (.id yytext docCmnt)
  | .lexeme .numericString yytext => some (.numericString yytext)
  | .block body true => some (.nativeBlock (upToNull body))
  | _ => none

/-- The tokens of sections that come after others. -/
def tokensFrom (before : List Section) : List Section → List Token
  | [] => []
  | p :: ps => (p.token (docCmntBefore before)).toList ++ tokensFrom (before ++ [p]) ps

/-- The documentation comment before the end of some sections. -/
lemma docCmntBefore_append_singleton (ps : List Section) (p : Section) :
    docCmntBefore (ps ++ [p]) =
      if p.takesDocCmnt then none else p.docCmnt.or (docCmntBefore ps) := by
  rw [docCmntBefore, List.reverse_append, List.reverse_singleton, List.singleton_append,
    List.takeWhile_cons]
  cases htakes : p.takesDocCmnt with
  | true => rfl
  | false =>
    cases hdoc : p.docCmnt with
    | none => simp [docCmntBefore, hdoc]
    | some body => simp [hdoc]

/-- The tokens of sections behind others. -/
lemma tokensFrom_append (before ps qs : List Section) :
    tokensFrom before (ps ++ qs) = tokensFrom before ps ++ tokensFrom (before ++ ps) qs := by
  induction ps generalizing before with
  | nil => simp [tokensFrom]
  | cons p ps ih => simp [tokensFrom, ih]

/-! ## Runs -/

namespace Lexer

variable {files : ℕ → List Char → Option (List Char)} {s s' : Lexer}

/-- What the actions between the sections do with the token and the documentation comment. -/
private lemma token_of_perform {action : Action} (h : action.isPlain = true) {yytext : List Char}
    (hs : perform files action yytext s = some s') :
    s'.returned = s.returned ++ ((Section.lexeme action yytext).token s.currDocCmnt).toList ∧
      s'.currDocCmnt = if (Section.lexeme action yytext).takesDocCmnt then none
        else s.currDocCmnt := by
  cases action with
  | beginDocCmnt | store | endDocCmnt | beginCmnt | endCmnt | openBlock | openBrace
  | closeBrace => cases h
  | newFile =>
    rw [perform] at hs
    cases hfile : files s.newfiles yytext with
    | none =>
      rw [hfile] at hs
      obtain rfl := Option.some.inj hs
      exact ⟨(List.append_nil _).symm, rfl⟩
    | some text =>
      rw [hfile] at hs
      obtain rfl := Option.some.inj hs
      exact ⟨(List.append_nil _).symm, rfl⟩
  | skip | beginInclude =>
    obtain rfl := Option.some.inj hs
    exact ⟨(List.append_nil _).symm, rfl⟩
  | keyword | docKeyword | beginNative | char | id | numericString =>
    obtain rfl := Option.some.inj hs
    exact ⟨rfl, rfl⟩

/-- Storing characters gives no token and keeps the comment. -/
lemma storeAll_returned {cs : List Char} (h : storeAll cs s = some s') :
    s'.returned = s.returned ∧ s'.currDocCmnt = s.currDocCmnt := by
  obtain ⟨b, -, rfl⟩ := Option.map_eq_some_iff.mp h
  exact ⟨rfl, rfl⟩

/-- The text of a comment or a block, when its end has been stored. -/
lemma string_of_terminate {body : List Char} {b : Buffer bufferSize}
    (h : storeAll body s.rewind = some s') (hb : s'.charData.terminate = some b) :
    b.string = upToNull body := by
  obtain ⟨b₀, hput, rfl⟩ := Option.map_eq_some_iff.mp h
  obtain ⟨-, hwritten⟩ := Buffer.putAll_eq_some hput
  have hlt : b₀.next < bufferSize := by
    by_contra hge
    have hnone := Buffer.terminate_eq_none_iff.mpr (not_lt.mp hge)
    cases hnone.symm.trans hb
  obtain ⟨b', hb', -, hstring⟩ := Buffer.exists_terminate hlt
  obtain rfl := Option.some.inj (hb'.symm.trans hb)
  rw [hstring, hwritten]
  rfl

/-- What taking a section does with the token and the documentation comment. -/
private lemma token_of_takeSection {p : Section}
    (hplain : ∀ action yytext, p = .lexeme action yytext → action.isPlain = true)
    (h : takeSection files s p = some s') :
    s'.returned = s.returned ++ (p.token s.currDocCmnt).toList ∧
      s'.currDocCmnt = if p.takesDocCmnt then none else p.docCmnt.or s.currDocCmnt := by
  cases p with
  | fileEnd =>
    obtain rfl := Option.some.inj h
    exact ⟨(List.append_nil _).symm, rfl⟩
  | lexeme action yytext => exact token_of_perform (hplain action yytext rfl) h
  | comment body closed =>
    obtain ⟨hreturned, hdoc⟩ := storeAll_returned h
    exact ⟨hreturned.trans (List.append_nil _).symm, hdoc⟩
  | docComment body closed =>
    obtain ⟨s₁, hstored, hend⟩ := Option.bind_eq_some_iff.mp h
    obtain ⟨hreturned, hdoc⟩ := storeAll_returned hstored
    cases closed with
    | false =>
      obtain rfl := Option.some.inj hend
      exact ⟨hreturned.trans (List.append_nil _).symm, hdoc⟩
    | true =>
      obtain ⟨b, hb, rfl⟩ := Option.map_eq_some_iff.mp hend
      refine ⟨hreturned.trans (List.append_nil _).symm, ?_⟩
      show some b.string = some (upToNull body)
      rw [string_of_terminate hstored hb]
  | block body closed =>
    obtain ⟨s₁, hstored, hend⟩ := Option.bind_eq_some_iff.mp h
    obtain ⟨hreturned, hdoc⟩ := storeAll_returned hstored
    cases closed with
    | false =>
      obtain rfl := Option.some.inj hend
      exact ⟨hreturned.trans (List.append_nil _).symm, hdoc⟩
    | true =>
      obtain ⟨b, hb, rfl⟩ := Option.map_eq_some_iff.mp hend
      refine ⟨?_, hdoc⟩
      show s₁.returned ++ [.nativeBlock b.string] = s.returned ++ [.nativeBlock (upToNull body)]
      rw [hreturned, string_of_terminate hstored hb]
      rfl

/-- **A run of sections.** What has been returned after so many sections, and which documentation
comment is the current one. -/
lemma of_after_eq_running_tokens {text : List Char} {n : ℕ}
    (h : (bySections files).after n (.running (start text)) = .running s) :
    s.returned = tokensFrom [] (sections files n (.start text)) ∧
      s.currDocCmnt = docCmntBefore (sections files n (.start text)) := by
  induction n generalizing s with
  | zero =>
    obtain rfl := CSemantics.Outcome.running.inj h
    exact ⟨rfl, rfl⟩
  | succ n ih =>
    rw [WhileLoop.after_succ'] at h
    cases hn : (bySections files).after n (.running (start text)) with
    | returned r => simp [hn, WhileLoop.advance] at h
    | stuck => simp [hn, WhileLoop.advance] at h
    | running s₁ =>
      obtain ⟨hreturned, hdoc⟩ := ih hn
      obtain ⟨hs₁, hsrc, -⟩ := of_after_eq_running (between_start text) hn
      rw [hn, WhileLoop.advance_running] at h
      by_cases hbuffers : s₁.buffers = []
      · rw [pass_of_buffers_eq_nil hbuffers] at h
        cases h
      · rw [WhileLoop.pass_of_cond (cond_bySections hbuffers)] at h
        cases htake : takeSection files s₁ (nextSection files s₁.toSource).1 with
        | none => simp [bySections, htake] at h
        | some s₂ =>
          have hs₂ : s = s₂.setSource (nextSection files s₁.toSource).2 := by
            simpa [bySections, htake, eq_comm] using h
          obtain ⟨hplain, -⟩ := nextSection_spec files (hs₁.cond.imp_right And.left)
          obtain ⟨hreturned', hdoc'⟩ := token_of_takeSection hplain htake
          have hsource : sourceAfter files n (.start text) = s₁.toSource := hsrc.symm
          have hsections : FsmLang.sections files (n + 1) (.start text) = _ :=
            sections_succ files n (hsource ▸ hbuffers)
          rw [hsource] at hsections
          subst hs₂
          rw [hsections, tokensFrom_append, docCmntBefore_append_singleton]
          refine ⟨?_, ?_⟩
          · show s₂.returned = _
            rw [hreturned', hreturned, hdoc]
            simp [tokensFrom]
          · show s₂.currDocCmnt = _
            rw [hdoc', hdoc]

/-- The run comes to the end of a source that has one, where there is room for the sections. -/
private lemma exists_after_of_end {n : ℕ} (hs : s.Between)
    (hfits : FitsFrom s.charData.next (sections files n s.toSource))
    (hend : (sourceAfter files n s.toSource).buffers = []) :
    ∃ m s', (bySections files).after m (.running s) = .running s' ∧ s'.buffers = [] ∧
      sections files m s.toSource = sections files n s.toSource := by
  induction n generalizing s with
  | zero => exact ⟨0, s, rfl, hend, rfl⟩
  | succ n ih =>
    by_cases hbuffers : s.buffers = []
    · refine ⟨0, s, rfl, hbuffers, ?_⟩
      rw [sections, sections, if_pos hbuffers]
    · rw [sections, if_neg hbuffers] at hfits
      rw [sourceAfter, if_neg hbuffers] at hend
      obtain ⟨s₁, hpass, hs₁, hsrc, hoffset, -⟩ := exists_pass_of_fits hs hbuffers hfits.1
      obtain ⟨-, hrest⟩ := hfits
      rw [← hsrc, ← hoffset] at hrest
      rw [← hsrc] at hend
      obtain ⟨m, s', hm, hs', hsections⟩ := ih hs₁ hrest hend
      refine ⟨m + 1, s', ?_, hs', ?_⟩
      · rw [WhileLoop.after_succ, WhileLoop.advance_running, hpass, hm]
      · rw [sections, sections, if_neg hbuffers, if_neg hbuffers, ← hsrc, hsections]

/-- The lexer returns if and only if the files come to an end and there is room in the buffer for
every section, and it returns the tokens of the sections. -/
lemma returns_iff_sections (files : ℕ → List Char → Option (List Char)) (text : List Char)
    (tokens : List Token) :
    (yylex files).Returns (.running (start text)) tokens ↔
      ∃ n, (sourceAfter files n (.start text)).buffers = [] ∧
        FitsFrom 0 (sections files n (.start text)) ∧
        tokens = tokensFrom [] (sections files n (.start text)) := by
  have hstart := between_start text
  have hsteps : (bySections files).Returns (.running (.start text)) tokens ↔
      (yylex files).Returns (.running (.start text)) tokens := by
    refine WhileLoop.returns_iff_of_steps ?_ tokens
    intro k s hs
    have hcond := (of_after_eq_running hstart hs).1.cond
    obtain ⟨j, hj, -⟩ := (runsThrough_pass files s hcond).exists_after
    exact ⟨j, hj⟩
  rw [← hsteps]
  constructor
  · intro h
    obtain ⟨n, s, hs, hcond, hfinish⟩ := h.exists_last (by simp)
    have hbuffers : s.buffers = [] := by simpa [bySections] using hcond
    obtain ⟨-, hsrc, -⟩ := of_after_eq_running hstart hs
    obtain ⟨hreturned, -⟩ := of_after_eq_running_tokens hs
    refine ⟨n, ?_, ?_, ?_⟩
    · rw [← hbuffers]
      exact congrArg Source.buffers hsrc.symm
    · by_contra hfits
      have hstuck := (after_eq_stuck_iff hstart n).mpr hfits
      cases hs.symm.trans hstuck
    · rw [← hreturned]
      exact (Option.some.inj hfinish).symm
  · rintro ⟨n, hend, hfits, rfl⟩
    obtain ⟨m, s, hm, hbuffers, hsections⟩ := exists_after_of_end hstart hfits hend
    obtain ⟨hreturned, -⟩ := of_after_eq_running_tokens hm
    refine ⟨m + 1, ?_⟩
    have hsections' : sections files m (.start text) = sections files n (.start text) := hsections
    rw [WhileLoop.after_succ', hm, WhileLoop.advance_running, pass_of_buffers_eq_nil hbuffers,
      hreturned, hsections']

end Lexer

/-! ## Documentation comments -/

/-- The last documentation comment before a section, if no section in between takes it. -/
def LastDocCmnt (ps : List Section) (i : ℕ) (docCmnt : List Char) : Prop :=
  ∃ j < i, ps[j]?.bind Section.docCmnt = some docCmnt ∧
    ∀ k, j < k → k < i → ∀ p ∈ ps[k]?, p.docCmnt = none ∧ p.takesDocCmnt = false

/-- A section without a documentation comment takes none, or is one. -/
private lemma Section.takesDocCmnt_eq_false {p : Section} (h : p.docCmnt.isSome) :
    p.takesDocCmnt = false := by
  cases p with
  | docComment | comment | block | fileEnd => rfl
  | lexeme => cases h

/-- The current documentation comment is the last one that has not been taken. -/
private lemma docCmntBefore_eq_some_iff (ps : List Section) (docCmnt : List Char) :
    docCmntBefore ps = some docCmnt ↔ LastDocCmnt ps ps.length docCmnt := by
  induction ps using List.reverseRecOn with
  | nil =>
    constructor
    · intro h
      cases h
    · rintro ⟨j, hj, -⟩
      exact absurd hj (Nat.not_lt_zero j)
  | append_singleton ps p ih =>
    have hbefore : ∀ {j}, j < ps.length → (ps ++ [p])[j]? = ps[j]? :=
      fun h => List.getElem?_append_left h
    have hlast : (ps ++ [p])[ps.length]? = some p := by simp
    have hlen : (ps ++ [p]).length = ps.length + 1 := by simp
    rw [docCmntBefore_append_singleton, hlen]
    constructor
    · intro h
      split_ifs at h with htakes
      rcases Option.or_eq_some_iff.mp h with hdoc | ⟨hdoc, hbody⟩
      · -- the section is the comment
        refine ⟨ps.length, Nat.lt_succ_self _, by rw [hlast, Option.bind_some, hdoc], ?_⟩
        intro k hk hk'
        omega
      · obtain ⟨j, hj, hjbody, hbetween⟩ := ih.mp hbody
        refine ⟨j, by omega, by rw [hbefore hj, hjbody], ?_⟩
        intro k hk hk' q hq
        rcases Nat.lt_succ_iff_lt_or_eq.mp hk' with hlt | rfl
        · rw [hbefore hlt] at hq
          exact hbetween k hk hlt q hq
        · obtain rfl := Option.some.inj (hlast.symm.trans hq)
          exact ⟨hdoc, by simpa using htakes⟩
    · rintro ⟨j, hj, hjbody, hbetween⟩
      rcases Nat.lt_succ_iff_lt_or_eq.mp hj with hlt | rfl
      · obtain ⟨hdoc, htakes⟩ := hbetween ps.length hlt (Nat.lt_succ_self _) p hlast
        rw [hbefore hlt] at hjbody
        rw [htakes, hdoc, Option.none_or, if_neg (by simp), ih]
        refine ⟨j, hlt, hjbody, ?_⟩
        intro k hk hk' q hq
        exact hbetween k hk (by omega) q (by rw [hbefore hk']; exact hq)
      · rw [hlast, Option.bind_some] at hjbody
        rw [Section.takesDocCmnt_eq_false (by rw [hjbody]; rfl), hjbody, if_neg (by simp),
          Option.some_or]

/-- Up to a section, only what comes before it counts. -/
private lemma lastDocCmnt_take_iff {ps : List Section} {i : ℕ} (hi : i ≤ ps.length)
    (docCmnt : List Char) :
    LastDocCmnt (ps.take i) (ps.take i).length docCmnt ↔ LastDocCmnt ps i docCmnt := by
  have htake : ∀ {j}, j < i → (ps.take i)[j]? = ps[j]? := fun h => List.getElem?_take_of_lt h
  rw [List.length_take, Nat.min_eq_left hi]
  constructor
  · rintro ⟨j, hj, hbody, hbetween⟩
    refine ⟨j, hj, htake hj ▸ hbody, ?_⟩
    intro k hk hk' p hp
    exact hbetween k hk hk' p (by rw [htake hk']; exact hp)
  · rintro ⟨j, hj, hbody, hbetween⟩
    refine ⟨j, hj, by rw [htake hj, hbody], ?_⟩
    intro k hk hk' p hp
    rw [htake hk'] at hp
    exact hbetween k hk hk' p hp

/-- The tokens, section by section. -/
lemma tokensFrom_eq_filterMap (before ps : List Section) : tokensFrom before ps =
    (ps.mapIdx fun i p => p.token (docCmntBefore (before ++ ps.take i))).filterMap id := by
  induction ps generalizing before with
  | nil => rfl
  | cons p ps ih =>
    rw [tokensFrom, ih, List.mapIdx_cons, List.take_zero, List.append_nil]
    cases hp : p.token (docCmntBefore before) with
    | none => simp
    | some t => simp

/-- **The tokens of a text.** For every text, with any files that it includes, the lexer returns if
and only if the files come to an end and there is room in the buffer for every section. It returns
the tokens of the sections in their order. Identifiers and the words that take a documentation
comment have the last one before them, unless a token in between takes it; so each comment goes to
one token at most, and one that is followed by another before it is taken goes to none.

**Proof sketch.** The lexer takes the sections one after the other. By induction on their number,
what has been returned are their tokens, and the current documentation comment is the last one that
has not been taken. -/
theorem yylex_returns_iff (files : ℕ → List Char → Option (List Char)) (text : List Char)
    (tokens : List Token) :
    (Lexer.yylex files).Returns (.running (.start text)) tokens ↔
      ∃ n, (sourceAfter files n (.start text)).buffers = [] ∧
        FitsFrom 0 (sections files n (.start text)) ∧
        ∃ values : List (Option Token), tokens = values.filterMap id ∧
          values.length = (sections files n (.start text)).length ∧
          ∀ i p, (sections files n (.start text))[i]? = some p →
            ∃ docCmnt, values[i]? = some (p.token docCmnt) ∧
              ∀ d, docCmnt = some d ↔ LastDocCmnt (sections files n (.start text)) i d := by
  have hdoc : ∀ (ps : List Section) {i : ℕ}, i < ps.length → ∀ d,
      docCmntBefore (ps.take i) = some d ↔ LastDocCmnt ps i d := by
    intro ps i hi d
    rw [docCmntBefore_eq_some_iff, lastDocCmnt_take_iff hi.le]
  rw [Lexer.returns_iff_sections]
  constructor
  · rintro ⟨n, hend, hfits, rfl⟩
    refine ⟨n, hend, hfits, _, tokensFrom_eq_filterMap _ _, by simp, ?_⟩
    intro i p hp
    have hi := (List.getElem?_eq_some_iff.mp hp).1
    refine ⟨_, ?_, hdoc _ hi⟩
    rw [List.getElem?_mapIdx, hp]
    rfl
  · rintro ⟨n, hend, hfits, values, rfl, hlen, hvalues⟩
    refine ⟨n, hend, hfits, ?_⟩
    rw [tokensFrom_eq_filterMap]
    congr 1
    apply List.ext_getElem?
    intro i
    rw [List.getElem?_mapIdx]
    cases hp : (sections files n (.start text))[i]? with
    | none =>
      rw [List.getElem?_eq_none_iff] at hp
      exact List.getElem?_eq_none_iff.mpr (by omega)
    | some p =>
      obtain ⟨docCmnt, hvalue, hdocCmnt⟩ := hvalues i p hp
      have hi := (List.getElem?_eq_some_iff.mp hp).1
      have heq : docCmnt = docCmntBefore ((sections files n (.start text)).take i) := by
        ext d
        exact (hdocCmnt d).trans (hdoc _ hi d).symm
      rw [hvalue, heq]
      rfl

end FsmLang
