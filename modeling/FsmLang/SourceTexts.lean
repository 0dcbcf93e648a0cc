import Mathlib.Tactic
import FsmLang.LexerMatches
import FsmLang.NativeBlocks
import FsmLang.SectionTokens

set_option relaxedAutoImplicit false
set_option autoImplicit false

/-!
# Written texts

What a source file is written of: words, numbers, marks and blanks, comments, blocks of native code,
and other files that it includes, which are written in the same way. Where such a text goes on must
not make its pieces longer; apart from that they need not be separated.

A text is read back as it has been written. A file that is included stands for its pieces, however
deep the inclusion is: documentation comments go into the file and come out of it, but words do not
go on behind its end.

## Main definitions

* `Piece`, `SourceText` — pieces of a file, and files with what they include.
* `Piece.Followed`, `SourceText.WellFormed` — what may come after a piece.
* `SourceText.expand` — the pieces, with those of included files in their place.

## Main results

* `SourceText.reads` — the sections of a text are those of its pieces.
* `SourceText.yylex_text_returns_iff` — the lexer returns the tokens of the pieces.
-/

namespace FsmLang

open CSemantics Lexing Lexing.Members

/-! ## Texts -/

/-- A piece of a source file. -/
inductive Piece where
  | word (w : List Char)
  | number (digits : List Char)
  | mark (c : Char)
  | «namespace»
  | blank (c : Char)
  | lineComment (body : List Char)
  | comment (body : List Char)
  | docComment (body : List Char)
  | native (gap : List Char) (place : Option NativePlace) (gap' : List Char) (body : List Char)
  deriving DecidableEq, Repr

namespace Piece

def text : Piece → List Char
  | .word w => w
  | .number digits => digits
  | .mark c => [c]
  | .«namespace» => [':', ':']
  | .blank c => [c]
  | .lineComment body => '/' :: '/' :: body
  | .comment body => '/' :: '*' :: (body ++ ['*', '/'])
  | .docComment body => '/' :: '*' :: '*' :: (body ++ ['*', '/'])
  | .native gap place gap' body =>
    "native".toList ++ (gap ++ ((place.elim [] NativePlace.text) ++
      (gap' ++ '\x7b' :: (body ++ ['\x7d']))))

/-- The sections of a piece. -/
def sections : Piece → List Section
  | .word w => [.lexeme (wordAction w) w]
  | .number digits => [.lexeme .numericString digits]
  | .mark c => [.lexeme .char [c]]
  | .«namespace» => [.lexeme (.keyword .«namespace») [':', ':']]
  | .blank c => [.lexeme .skip [c]]
  | .lineComment body => [.lexeme .skip ('/' :: '/' :: body)]
  | .comment body => [.comment body true]
  | .docComment body => [.docComment body true]
  | .native gap place gap' body =>
    .lexeme .beginNative "native".toList :: (gap.map (fun c => .lexeme .skip [c]) ++
      ((place.toList.map fun p => .lexeme (.keyword p.keyword) p.text) ++
        (gap'.map (fun c => .lexeme .skip [c]) ++ [.block body true])))

/-- The first `*/` after the beginning of a comment is the one that ends it. -/
def EndsAt (body : List Char) : Prop :=
  ∀ u v, body ++ ['*', '/'] = u ++ '*' :: '/' :: v → v = []

/-- A piece that may be followed by a character, or the end of the file. -/
def Followed (next : Option Char) : Piece → Prop
  | .word w => (∀ a ∈ w.head?, isLetter a = true) ∧ (∀ a ∈ w, isWordChar a = true) ∧ w ≠ [] ∧
      w ≠ "include".toList ∧ w ≠ "native".toList ∧ ∀ a ∈ next, isWordChar a = false
  | .number digits => digits ≠ [] ∧ (∀ a ∈ digits, isDigit a = true) ∧
      ∀ a ∈ next, isDigit a = false
  | .mark c => c ∈ marks
  | .«namespace» => True
  | .blank c => isWordChar c = false ∧ c ∉ marks ∧ (c = ':' → ∀ a ∈ next, a ≠ ':') ∧
      (c = '/' → ∀ a ∈ next, a ≠ '/' ∧ a ≠ '*')
  | .lineComment body => '\n' ∉ body ∧ ∀ a ∈ next, a = '\n'
  -- `/**` begins a documentation comment
  | .comment body => EndsAt body ∧ ∀ a ∈ (body ++ ['*', '/']).head?, a ≠ '*'
  | .docComment body => EndsAt body
  | .native gap place gap' body => (∀ a ∈ gap, isBlank a = true) ∧ (∀ a ∈ gap', isBlank a = true) ∧
      (gap = [] → place = none) ∧ Balanced '\x7b' '\x7d' body

end Piece

/-- A file, with the files that it includes. -/
inductive SourceText where
  | nil
  | cons (p : Piece) (rest : SourceText)
  | «include» (gap : List Char) (quoted : Bool) (name : List Char) (file rest : SourceText)

namespace SourceText

/-- What is in the file. -/
def text : SourceText → List Char
  | .nil => []
  | .cons p rest => p.text ++ rest.text
  | .«include» gap quoted name _ rest =>
    "include".toList ++ (gap ++ (openingQuote quoted ++ (name ++ (openingQuote quoted ++ rest.text))))

/-- Every piece may be followed by what follows it, and the names of files are names. -/
def WellFormed : SourceText → Prop
  | .nil => True
  | .cons p rest => p.Followed rest.text.head? ∧ rest.WellFormed
  | .«include» gap quoted name file rest =>
    (∀ a ∈ gap, a ∈ " \t".toList) ∧ (quoted = false → gap ≠ []) ∧ name ≠ [] ∧
      (∀ a ∈ name, isSeparator a = false) ∧
      (quoted = false → ∀ a ∈ rest.text.head?, isSeparator a = true) ∧
      file.WellFormed ∧ rest.WellFormed

/-- The files that are included have been written to where they are looked for. -/
def StoredIn (files : ℕ → List Char → Option (List Char)) : SourceText → Prop
  | .nil => True
  | .cons _ rest => rest.StoredIn files
  | .«include» _ _ name file rest =>
    (∀ n, files n name = some file.text) ∧ file.StoredIn files ∧ rest.StoredIn files

/-- The pieces of a file and of those that it includes. -/
def expand : SourceText → List Piece
  | .nil => []
  | .cons p rest => p :: rest.expand
  | .«include» _ _ _ file rest => file.expand ++ rest.expand

/-- The sections of a file, without its end. -/
def sections : SourceText → List Section
  | .nil => []
  | .cons p rest => p.sections ++ rest.sections
  | .«include» gap quoted name file rest =>
    .lexeme .beginInclude ("include".toList ++ (gap ++ openingQuote quoted)) ::
      .lexeme .newFile name :: (file.sections ++ .fileEnd ::
        ((openingQuote quoted).map (fun c => .lexeme .skip [c]) ++ rest.sections))

end SourceText

/-! ## Reading sections -/

/-- The next sections of a source, and what comes after them. -/
def Reads (files : ℕ → List Char → Option (List Char)) : Source → List Section → Source → Prop
  | src, [], src' => src = src'
  | src, p :: ps, src' => src.buffers ≠ [] ∧ (nextSection files src).1 = p ∧
      Reads files (nextSection files src).2 ps src'

namespace Reads

variable {files : ℕ → List Char → Option (List Char)} {src src₁ src' : Source}
  {p : Section} {ps qs : List Section}

/-- What is read in two parts is read. -/
lemma append (h : Reads files src ps src₁) (h' : Reads files src₁ qs src') :
    Reads files src (ps ++ qs) src' := by
  induction ps generalizing src with
  | nil =>
    obtain rfl : src = src₁ := h
    exact h'
  | cons p ps ih =>
    obtain ⟨hbuffers, hp, hrest⟩ := h
    exact ⟨hbuffers, hp, ih hrest⟩

/-- A single section. -/
lemma single (hbuffers : src.buffers ≠ []) (h : nextSection files src = (p, src')) :
    Reads files src [p] src' :=
  ⟨hbuffers, congrArg Prod.fst h, congrArg Prod.snd h⟩

/-- A section before others. -/
lemma cons (hbuffers : src.buffers ≠ []) (h : nextSection files src = (p, src₁))
    (h' : Reads files src₁ ps src') : Reads files src (p :: ps) src' :=
  (single hbuffers h).append h'

/-- The sections that are read are the first ones of the source. -/
private lemma sections_eq (h : Reads files src ps src') :
    sections files ps.length src = ps ∧ sourceAfter files ps.length src = src' := by
  induction ps generalizing src with
  | nil =>
    obtain rfl : src = src' := h
    exact ⟨rfl, rfl⟩
  | cons p ps ih =>
    obtain ⟨hbuffers, hp, hrest⟩ := h
    obtain ⟨hsections, hsource⟩ := ih hrest
    refine ⟨?_, ?_⟩
    · rw [List.length_cons, sections, if_neg hbuffers, hp, hsections]
    · rw [List.length_cons, sourceAfter, if_neg hbuffers, hsource]

end Reads

/-! ### Single sections -/

section SingleSections

variable {files : ℕ → List Char → Option (List Char)} {k : StartCondition} {c : Char}
  {t u : List Char} {prev : List (List Char)} {m n : ℕ}

/-- Actions after which the lexer goes on in the same condition. -/
def Action.staysInCond : Action → Bool
  | .skip | .keyword _ | .docKeyword _ | .char | .id | .numericString => true
  | _ => false

/-- A single match. -/
lemma nextSection_lexeme {r : Rule StartCondition Action Char}
    (h : select lexerRules k (c :: t) = some (r, n)) (hr : r.action.staysInCond = true) :
    nextSection files ⟨k, (c :: t) :: prev, m⟩ =
      (.lexeme r.action ((c :: t).take n), ⟨k, (c :: t).drop n :: prev, m⟩) := by
  simp only [nextSection, h]
  cases haction : r.action with
  | beginDocCmnt | store | endDocCmnt | beginCmnt | endCmnt | beginInclude | newFile | beginNative
  | openBlock | openBrace | closeBrace => exact absurd hr (by rw [haction]; decide)
  | skip | keyword | docKeyword | char | id | numericString => rfl

/-- A single match of a text. -/
lemma reads_lexeme {r : Rule StartCondition Action Char} (hne : u ≠ [])
    (h : select lexerRules k (u ++ t) = some (r, u.length)) (hr : r.action.staysInCond = true) :
    Reads files ⟨k, (u ++ t) :: prev, m⟩ [.lexeme r.action u] ⟨k, t :: prev, m⟩ := by
  obtain ⟨c, u, rfl⟩ := List.exists_cons_of_ne_nil hne
  refine .single (List.cons_ne_nil _ _) ?_
  have hnext : nextSection files ⟨k, (c :: u ++ t) :: prev, m⟩ =
      (.lexeme r.action ((c :: u ++ t).take (c :: u).length),
        ⟨k, (c :: u ++ t).drop (c :: u).length :: prev, m⟩) := nextSection_lexeme h hr
  rw [hnext, List.take_left, List.drop_left]

/-- Single characters one after the other. -/
lemma reads_chars {a : Action} (ha : a.staysInCond = true)
    (h : ∀ c ∈ u, ∀ t, ∃ r, select lexerRules k (c :: t) = some (r, 1) ∧ r.action = a) :
    Reads files ⟨k, (u ++ t) :: prev, m⟩ (u.map fun c => .lexeme a [c]) ⟨k, t :: prev, m⟩ := by
  induction u with
  | nil => rfl
  | cons c u ih =>
    obtain ⟨hc, hu⟩ := List.forall_mem_cons.mp h
    obtain ⟨r, hselect, haction⟩ := hc (u ++ t)
    refine .cons (List.cons_ne_nil _ _) ?_ (ih hu)
    rw [List.cons_append, nextSection_lexeme hselect (by rw [haction]; exact ha), haction]
    rfl

/-- A comment up to the first `*/`. -/
lemma readComment_of_endsAt {body : List Char} (h : Piece.EndsAt body) (rest : List Char)
    (prev : List (List Char)) :
    readComment ((body ++ '*' :: '/' :: rest) :: prev) = (body, some (rest :: prev)) := by
  induction body with
  | nil => rw [List.nil_append, readComment, if_pos ⟨rfl, rfl⟩, List.tail_cons]
  | cons c body ih =>
    have hend : ¬ (c = '*' ∧ (body ++ '*' :: '/' :: rest).head? = some '/') := by
      rintro ⟨rfl, hhead⟩
      cases body with
      | nil => cases hhead
      | cons d body =>
        obtain rfl := Option.some.inj hhead
        have hnil := h [] (body ++ ['*', '/']) rfl
        simp at hnil
    have hbody : Piece.EndsAt body := fun u v huv => h (c :: u) v (by
      rw [List.cons_append, huv, List.cons_append])
    rw [List.cons_append, readComment, if_neg hend, ih hbody]

/-- A comment. -/
private lemma nextSection_comment {body : List Char} (h : Piece.EndsAt body)
    (hhead : ∀ a ∈ (body ++ '*' :: '/' :: t).head?, a ≠ '*') :
    nextSection files ⟨.initial, ('/' :: '*' :: (body ++ '*' :: '/' :: t)) :: prev, m⟩ =
      (.comment body true, ⟨.initial, t :: prev, m⟩) := by
  have hselect := select_beginCmnt hhead
  have hread := readComment_of_endsAt h t prev
  simp only [nextSection, hselect, List.drop_succ_cons, List.drop_zero, hread]
  rfl

/-- A documentation comment is one section. -/
private lemma nextSection_docComment {body : List Char} (h : Piece.EndsAt body) :
    nextSection files ⟨.initial, ('/' :: '*' :: '*' :: (body ++ '*' :: '/' :: t)) :: prev, m⟩ =
      (.docComment body true, ⟨.initial, t :: prev, m⟩) := by
  have hselect := select_beginDocCmnt (body ++ '*' :: '/' :: t)
  have hread := readComment_of_endsAt h t prev
  simp only [nextSection, hselect, List.drop_succ_cons, List.drop_zero, hread]
  rfl

/-- Blanks before a block. -/
lemma reads_nativeGap {gap : List Char} (h : ∀ a ∈ gap, isBlank a = true) :
    Reads files ⟨.native, (gap ++ t) :: prev, m⟩ (gap.map fun c => .lexeme .skip [c])
      ⟨.native, t :: prev, m⟩ :=
  reads_chars rfl fun c hc t => select_native_blank (h c hc) t

/-- The actions of words. -/
private lemma wordAction_staysInCond {w : List Char} (h : w ≠ "native".toList) :
    (wordAction w).staysInCond = true := by
  have hall : ∀ x ∈ reserved, x.1 ≠ "native" → x.2.staysInCond = true := by decide
  rw [wordAction]
  cases hfind : reserved.find? fun x => decide (x.1.toList = w) with
  | none => rfl
  | some x =>
    refine hall x (List.mem_of_find?_eq_some hfind) ?_
    intro hx
    have hw := List.find?_some hfind
    exact h ((of_decide_eq_true hw).symm.trans (congrArg String.toList hx))

/-- The word that begins a block of native code. -/
lemma nextSection_beginNative (ht : ∀ a ∈ t.head?, isWordChar a = false) :
    nextSection files ⟨.initial, ("native".toList ++ t) :: prev, m⟩ =
      (.lexeme .beginNative "native".toList, ⟨.native, t :: prev, m⟩) := by
  obtain ⟨r, hselect, haction⟩ := select_word (c := 'n') (w := "ative".toList) (by decide)
    (by decide) ht (by decide)
  have haction' : r.action = .beginNative := haction
  have hselect' : select lexerRules .initial ('n' :: ("ative".toList ++ t)) =
      some (r, "native".toList.length) := hselect
  show nextSection files ⟨.initial, ('n' :: ("ative".toList ++ t)) :: prev, m⟩ = _
  simp only [nextSection, hselect', haction']
  rfl

end SingleSections

/-! ### Pieces -/

section Pieces

variable {files : ℕ → List Char → Option (List Char)} {rest : List Char} {prev : List (List Char)}
  {m : ℕ}

/-- The text of a place is not empty. -/
lemma NativePlace.text_ne_nil (p : NativePlace) : p.text ≠ [] := by
  cases p <;> decide

/-- A block of native code, after the word that begins it. -/
lemma reads_nativeBlock (place : Option NativePlace) {gap' body : List Char}
    (hgap' : ∀ a ∈ gap', isBlank a = true) (hbody : Balanced '\x7b' '\x7d' body) :
    Reads files ⟨.native, ((place.elim [] NativePlace.text) ++
        (gap' ++ '\x7b' :: (body ++ '\x7d' :: rest))) :: prev, m⟩
      ((place.toList.map fun p => .lexeme (.keyword p.keyword) p.text) ++
        (gap'.map (fun c => .lexeme .skip [c]) ++ [.block body true]))
      ⟨.initial, rest :: prev, m⟩ := by
  have hblock : Reads files ⟨.native, (gap' ++ '\x7b' :: (body ++ '\x7d' :: rest)) :: prev, m⟩
      (gap'.map (fun c => .lexeme .skip [c]) ++ [.block body true])
      ⟨.initial, rest :: prev, m⟩ :=
    (reads_nativeGap hgap').append
      (.single (List.cons_ne_nil _ _) (nextSection_eq_block files hbody rest prev m))
  cases place with
  | none => exact hblock
  | some p =>
    refine Reads.append ?_ hblock
    obtain ⟨c, t, ht, hc⟩ : ∃ c t, gap' ++ '\x7b' :: (body ++ '\x7d' :: rest) = c :: t ∧
        (isBlank c = true ∨ c = '\x7b') := by
      cases gap' with
      | nil => exact ⟨_, _, rfl, .inr rfl⟩
      | cons a gap' => exact ⟨_, _, rfl, .inl (hgap' a (by simp))⟩
    obtain ⟨r, hselect, haction⟩ := select_native_place p hc t
    rw [ht]
    have hread : Reads files ⟨_, (p.text ++ (c :: t)) :: prev, m⟩ [.lexeme r.action p.text]
        ⟨_, (c :: t) :: prev, m⟩ := reads_lexeme p.text_ne_nil hselect (by rw [haction]; rfl)
    rw [haction] at hread
    exact hread

/-- **The sections of a piece**, whatever comes after it. -/
lemma Piece.reads {p : Piece} (h : p.Followed rest.head?) :
    Reads files ⟨.initial, (p.text ++ rest) :: prev, m⟩ p.sections ⟨.initial, rest :: prev, m⟩ := by
  cases p with
  | word w =>
    obtain ⟨hletter, hw, hne, hinclude, hnative, hrest⟩ := h
    obtain ⟨c, w, rfl⟩ := List.exists_cons_of_ne_nil hne
    obtain ⟨r, hselect, haction⟩ := select_word (hletter c rfl)
      (fun a ha => hw a (List.mem_cons_of_mem c ha)) hrest hinclude
    have hread : Reads files ⟨.initial, (c :: w ++ rest) :: prev, m⟩ [.lexeme r.action (c :: w)]
        ⟨.initial, rest :: prev, m⟩ :=
      reads_lexeme hne hselect (by rw [haction]; exact wordAction_staysInCond hnative)
    rw [haction] at hread
    exact hread
  | number digits =>
    obtain ⟨hne, hdigits, hrest⟩ := h
    obtain ⟨c, w, rfl⟩ := List.exists_cons_of_ne_nil hne
    obtain ⟨hc, hw⟩ := List.forall_mem_cons.mp hdigits
    exact reads_lexeme hne (select_number hc hw hrest) rfl
  | mark c =>
    obtain ⟨r, hselect, haction⟩ := select_mark h rest
    refine .single (List.cons_ne_nil _ _) ?_
    show nextSection files ⟨.initial, (c :: rest) :: prev, m⟩ = _
    rw [nextSection_lexeme hselect (by rw [haction]; rfl), haction]
    rfl
  | «namespace» =>
    exact .single (List.cons_ne_nil _ _) (nextSection_lexeme (select_namespace rest) rfl)
  | blank c =>
    obtain ⟨hword, hmark, hcolon, hslash⟩ := h
    obtain ⟨r, hselect, haction⟩ := select_blank hword hmark hcolon hslash
    refine .single (List.cons_ne_nil _ _) ?_
    show nextSection files ⟨.initial, (c :: rest) :: prev, m⟩ = _
    rw [nextSection_lexeme hselect (by rw [haction]; rfl), haction]
    rfl
  | lineComment body =>
    obtain ⟨hbody, hrest⟩ := h
    obtain ⟨r, hselect, haction⟩ := select_lineComment hbody hrest
    have hread : Reads files ⟨.initial, ('/' :: '/' :: body ++ rest) :: prev, m⟩
        [.lexeme r.action ('/' :: '/' :: body)] ⟨.initial, rest :: prev, m⟩ :=
      reads_lexeme (List.cons_ne_nil _ _) hselect (by rw [haction]; rfl)
    rw [haction] at hread
    exact hread
  | comment body =>
    obtain ⟨hend, hhead⟩ := h
    have hnext : ∀ a ∈ (body ++ '*' :: '/' :: rest).head?, a ≠ '*' := by
      intro a ha
      refine hhead a ?_
      cases body <;> exact ha
    have htext : (body ++ ['*', '/']) ++ rest = body ++ '*' :: '/' :: rest := by simp
    refine .single (List.cons_ne_nil _ _) ?_
    show nextSection files ⟨.initial, ('/' :: '*' :: ((body ++ ['*', '/']) ++ rest)) :: prev, m⟩ = _
    rw [htext, nextSection_comment hend hnext]
  | docComment body =>
    have htext : (body ++ ['*', '/']) ++ rest = body ++ '*' :: '/' :: rest := by simp
    refine .single (List.cons_ne_nil _ _) ?_
    show nextSection files
      ⟨.initial, ('/' :: '*' :: '*' :: ((body ++ ['*', '/']) ++ rest)) :: prev, m⟩ = _
    rw [htext, nextSection_docComment h]
  | native gap place gap' body =>
    obtain ⟨hgap, hgap', hplace, hbody⟩ := h
    have htext : (Piece.native gap place gap' body).text ++ rest = "native".toList ++ (gap ++
        ((place.elim [] NativePlace.text) ++ (gap' ++ '\x7b' :: (body ++ '\x7d' :: rest)))) := by
      simp [Piece.text]
    have hnext : ∀ a ∈ (gap ++ ((place.elim [] NativePlace.text) ++
        (gap' ++ '\x7b' :: (body ++ '\x7d' :: rest)))).head?, isWordChar a = false := by
      have hblank : ∀ a, isBlank a = true → isWordChar a = false := by
        intro a ha
        rcases of_decide_eq_true ha with rfl | rfl | rfl <;> decide
      intro a ha
      cases gap with
      | cons b gap =>
        obtain rfl := Option.some.inj ha
        exact hblank _ (hgap _ (by simp))
      | nil =>
        obtain rfl := hplace rfl
        cases gap' with
        | cons b gap' =>
          obtain rfl := Option.some.inj ha
          exact hblank _ (hgap' _ (by simp))
        | nil =>
          obtain rfl := Option.some.inj ha
          decide
    rw [htext]
    exact .cons (List.cons_ne_nil _ _) (nextSection_beginNative hnext)
      ((reads_nativeGap hgap).append (reads_nativeBlock place hgap' hbody))

end Pieces

/-! ### Files -/

namespace SourceText

section Reading

variable {files : ℕ → List Char → Option (List Char)}

/-- The word `include`, with the blanks and the quote before the name. -/
private lemma nextSection_beginInclude {gap : List Char} {quoted : Bool} {t : List Char}
    (hgap : ∀ a ∈ gap, a ∈ " \t".toList) (hsome : quoted = false → gap ≠ [])
    (ht : quoted = false → ∀ a ∈ t.head?, a ≠ '"' ∧ a ∉ " \t".toList) (prev : List (List Char))
    (m : ℕ) :
    nextSection files
        ⟨.initial, ("include".toList ++ (gap ++ (openingQuote quoted ++ t))) :: prev, m⟩ =
      (.lexeme .beginInclude ("include".toList ++ (gap ++ openingQuote quoted)),
        ⟨.«include», t :: prev, m⟩) := by
  obtain ⟨r, hselect, haction⟩ := select_beginInclude hgap hsome ht
  have hsplit : "include".toList ++ (gap ++ (openingQuote quoted ++ t)) =
      ("include".toList ++ (gap ++ openingQuote quoted)) ++ t := by simp only [List.append_assoc]
  have htake : ("include".toList ++ (gap ++ (openingQuote quoted ++ t))).take
      ("include".toList ++ (gap ++ openingQuote quoted)).length =
        "include".toList ++ (gap ++ openingQuote quoted) := by
    rw [hsplit, List.take_left]
  have hdrop : ("include".toList ++ (gap ++ (openingQuote quoted ++ t))).drop
      ("include".toList ++ (gap ++ openingQuote quoted)).length = t := by
    rw [hsplit, List.drop_left]
  obtain ⟨c, u, hu⟩ : ∃ c u, "include".toList ++ (gap ++ (openingQuote quoted ++ t)) = c :: u :=
    ⟨_, _, rfl⟩
  rw [hu] at hselect htake hdrop ⊢
  simp only [nextSection, hselect, haction, htake, hdrop]

/-- The name of a file, which is opened. -/
private lemma nextSection_newFile {name text t : List Char} (hne : name ≠ [])
    (hname : ∀ a ∈ name, isSeparator a = false) (ht : ∀ a ∈ t.head?, isSeparator a = true)
    (hfile : ∀ n, files n name = some text) (prev : List (List Char)) (m : ℕ) :
    nextSection files ⟨.«include», (name ++ t) :: prev, m⟩ =
      (.lexeme .newFile name, ⟨.initial, text :: t :: prev, m + 1⟩) := by
  obtain ⟨c, w, rfl⟩ := List.exists_cons_of_ne_nil hne
  obtain ⟨hc, hw⟩ := List.forall_mem_cons.mp hname
  obtain ⟨r, hselect, haction⟩ := select_newFile hc hw ht
  have hselect' : select lexerRules .«include» (c :: (w ++ t)) = some (r, (c :: w).length) := hselect
  have htake : (c :: (w ++ t)).take (c :: w).length = c :: w := List.take_left
  have hdrop : (c :: (w ++ t)).drop (c :: w).length = t := List.drop_left
  show nextSection files ⟨.«include», (c :: (w ++ t)) :: prev, m⟩ = _
  simp only [nextSection, hselect', haction, htake, hdrop, hfile]

/-- The quote after the name is skipped when the file has been read. -/
private lemma reads_closingQuote (quoted : Bool) (t : List Char) (prev : List (List Char)) (m : ℕ) :
    Reads files ⟨.initial, (openingQuote quoted ++ t) :: prev, m⟩
      ((openingQuote quoted).map fun c => .lexeme .skip [c]) ⟨.initial, t :: prev, m⟩ := by
  refine reads_chars rfl ?_
  intro c hc t
  cases quoted with
  | false => cases hc
  | true =>
    obtain rfl := List.mem_singleton.mp hc
    exact select_blank (by decide) (by decide) (fun h => absurd h (by decide))
      fun h => absurd h (by decide)

/-- **The sections of a text.** They are those of its pieces; where a file is included, its sections
come next, and then its end. -/
lemma reads {T : SourceText} (hT : T.WellFormed) (hfiles : T.StoredIn files)
    (prev : List (List Char)) (m : ℕ) :
    ∃ m', Reads files ⟨.initial, T.text :: prev, m⟩ T.sections ⟨.initial, [] :: prev, m'⟩ := by
  induction T generalizing prev m with
  | nil => exact ⟨m, rfl⟩
  | cons p rest ih =>
    obtain ⟨hp, hrest⟩ := hT
    obtain ⟨m', hread⟩ := ih hrest hfiles prev m
    exact ⟨m', (Piece.reads hp).append hread⟩
  | «include» gap quoted name file rest ihfile ihrest =>
    obtain ⟨hgap, hsome, hne, hname, hafter, hfile, hrest⟩ := hT
    obtain ⟨hstored, hfiles, hfiles'⟩ := hfiles
    have hhead : quoted = false →
        ∀ a ∈ (name ++ (openingQuote quoted ++ rest.text)).head?, a ≠ '"' ∧ a ∉ " \t".toList := by
      intro _ a ha
      obtain ⟨c, w, rfl⟩ := List.exists_cons_of_ne_nil hne
      obtain rfl := Option.some.inj ha
      have hsep := hname c (by simp)
      refine ⟨?_, ?_⟩
      · rintro rfl
        exact absurd hsep (by decide)
      · intro hblank
        have hall : ∀ a ∈ " \t".toList, isSeparator a = true := by decide
        rw [hall c hblank] at hsep
        cases hsep
    have hnext : ∀ a ∈ (openingQuote quoted ++ rest.text).head?, isSeparator a = true := by
      intro a ha
      cases quoted with
      | true =>
        obtain rfl := Option.some.inj ha
        decide
      | false => exact hafter rfl a ha
    obtain ⟨m₁, hreadfile⟩ := ihfile hfile hfiles ((openingQuote quoted ++ rest.text) :: prev) (m + 1)
    obtain ⟨m₂, hreadrest⟩ := ihrest hrest hfiles' prev m₁
    refine ⟨m₂, .cons (List.cons_ne_nil _ _) (nextSection_beginInclude hgap hsome hhead prev m) ?_⟩
    refine .cons (List.cons_ne_nil _ _) (nextSection_newFile hne hname hnext hstored prev m) ?_
    refine hreadfile.append (.cons (List.cons_ne_nil _ _) rfl ?_)
    exact (reads_closingQuote quoted rest.text prev m₁).append hreadrest

end Reading

end SourceText

/-! ## Silent sections -/

/-- Sections that leave no trace: neither a token, nor a comment, nor characters in the buffer. -/
def Section.isSilent : Section → Bool
  | .fileEnd => true
  | .lexeme .skip _ => true
  | .lexeme .beginInclude _ => true
  | .lexeme .newFile _ => true
  | _ => false

/-- A silent section makes no token, takes and leaves no comment, and always fits. -/
lemma Section.isSilent_spec {p : Section} (h : p.isSilent = true) :
    (∀ docCmnt, p.token docCmnt = none) ∧ p.takesDocCmnt = false ∧ p.docCmnt = none ∧
      ∀ offset, p.Fits offset ∧ p.offsetAfter offset = offset := by
  cases p with
  | docComment | comment | block => cases h
  | fileEnd => exact ⟨fun _ => rfl, rfl, rfl, fun _ => ⟨trivial, rfl⟩⟩
  | lexeme action yytext =>
    cases action with
    | skip | beginInclude | newFile => exact ⟨fun _ => rfl, rfl, rfl, fun _ => ⟨trivial, rfl⟩⟩
    | beginDocCmnt | store | endDocCmnt | beginCmnt | endCmnt | keyword | docKeyword | beginNative
    | openBlock | openBrace | closeBrace | char | id | numericString => cases h

/-- The sections that are not silent. -/
def spoken (ps : List Section) : List Section := ps.filter fun p => !p.isSilent

/-- The sections that are not silent, in two parts. -/
lemma spoken_append (ps qs : List Section) : spoken (ps ++ qs) = spoken ps ++ spoken qs :=
  List.filter_append ..

/-- A silent section is left out. -/
lemma spoken_cons_of_isSilent {p : Section} (h : p.isSilent = true) (ps : List Section) :
    spoken (p :: ps) = spoken ps := List.filter_cons_of_neg (by simp [h])

/-- Another section is kept. -/
lemma spoken_cons_of_not_isSilent {p : Section} (h : p.isSilent = false) (ps : List Section) :
    spoken (p :: ps) = p :: spoken ps := List.filter_cons_of_pos (by simp [h])

/-- Nothing is left of silent sections. -/
private lemma spoken_eq_nil {ps : List Section} (h : ∀ p ∈ ps, p.isSilent = true) :
    spoken ps = [] :=
  List.filter_eq_nil_iff.mpr fun p hp => by simp [h p hp]

/-- The comment before a section is that before the sections that are not silent. -/
private lemma docCmntBefore_spoken (ps : List Section) :
    docCmntBefore (spoken ps) = docCmntBefore ps := by
  induction ps using List.reverseRecOn with
  | nil => rfl
  | append_singleton ps p ih =>
    rw [spoken_append, docCmntBefore_append_singleton]
    cases hp : p.isSilent with
    | true =>
      obtain ⟨-, htakes, hdoc, -⟩ := Section.isSilent_spec hp
      rw [spoken_cons_of_isSilent hp, htakes, hdoc]
      simpa [spoken] using ih
    | false =>
      rw [spoken_cons_of_not_isSilent hp]
      show docCmntBefore (spoken ps ++ [p]) = _
      rw [docCmntBefore_append_singleton, ih]

/-- Silent sections do not matter for the tokens. -/
lemma tokensFrom_spoken (before ps : List Section) :
    tokensFrom (spoken before) (spoken ps) = tokensFrom before ps := by
  induction ps generalizing before with
  | nil => rfl
  | cons p ps ih =>
    have hnext := ih (before ++ [p])
    rw [spoken_append] at hnext
    rw [tokensFrom, ← hnext]
    cases hp : p.isSilent with
    | true =>
      obtain ⟨htoken, -⟩ := Section.isSilent_spec hp
      rw [spoken_cons_of_isSilent hp, spoken_cons_of_isSilent hp, htoken]
      simp [spoken]
    | false =>
      rw [spoken_cons_of_not_isSilent hp, spoken_cons_of_not_isSilent hp, tokensFrom,
        docCmntBefore_spoken]
      rfl

/-- Nor do they for the room in the buffer. -/
lemma fitsFrom_spoken (offset : ℕ) (ps : List Section) :
    FitsFrom offset (spoken ps) ↔ FitsFrom offset ps := by
  induction ps generalizing offset with
  | nil => rfl
  | cons p ps ih =>
    cases hp : p.isSilent with
    | true =>
      obtain ⟨-, -, -, hfits⟩ := Section.isSilent_spec hp
      rw [spoken_cons_of_isSilent hp, ih, FitsFrom, (hfits offset).2, and_iff_right (hfits offset).1]
    | false => rw [spoken_cons_of_not_isSilent hp, FitsFrom, FitsFrom, ih]

/-- At the end of a source there are no more sections. -/
lemma sections_of_end {files : ℕ → List Char → Option (List Char)} {m n : ℕ} (h : m ≤ n)
    {src : Source} (hend : (sourceAfter files m src).buffers = []) :
    sections files n src = sections files m src := by
  induction m generalizing n src with
  | zero =>
    have hnil : src.buffers = [] := hend
    cases n with
    | zero => rfl
    | succ n => exact if_pos hnil
  | succ m ih =>
    obtain ⟨n, rfl⟩ := Nat.exists_eq_succ_of_ne_zero (show n ≠ 0 by omega)
    rw [sections, sections]
    rw [sourceAfter] at hend
    split_ifs at hend ⊢ with hnil
    · rfl
    · rw [ih (by omega) hend]

/-- What is returned for a source whose sections up to its end are known. -/
lemma Lexer.returns_iff_of_reads {files : ℕ → List Char → Option (List Char)} {text : List Char}
    {ps : List Section} {m : ℕ} (h : Reads files (.start text) ps ⟨.initial, [], m⟩)
    (tokens : List Token) :
    (Lexer.yylex files).Returns (.running (.start text)) tokens ↔
      FitsFrom 0 ps ∧ tokens = tokensFrom [] ps := by
  obtain ⟨hsections, hsource⟩ := h.sections_eq
  have hend : (sourceAfter files ps.length (.start text)).buffers = [] := by rw [hsource]
  have hsections' : ∀ n, (sourceAfter files n (.start text)).buffers = [] →
      sections files n (.start text) = ps := by
    intro n hn
    rw [← hsections]
    rcases Nat.le_total n ps.length with hle | hle
    · exact (sections_of_end hle hn).symm
    · exact sections_of_end hle hend
  rw [Lexer.returns_iff_sections]
  constructor
  · rintro ⟨n, hn, hroom, rfl⟩
    rw [hsections' n hn] at hroom ⊢
    exact ⟨hroom, rfl⟩
  · rintro ⟨hroom, rfl⟩
    refine ⟨ps.length, hend, ?_, ?_⟩
    · rw [hsections]
      exact hroom
    · rw [hsections]

namespace SourceText

/-- What a text leaves behind are the sections of its pieces. -/
private lemma spoken_sections (T : SourceText) :
    spoken T.sections = spoken (T.expand.flatMap Piece.sections) := by
  induction T with
  | nil => rfl
  | cons p rest ih => rw [sections, expand, List.flatMap_cons, spoken_append, spoken_append, ih]
  | «include» gap quoted name file rest ihfile ihrest =>
    have hquote : spoken ((openingQuote quoted).map fun c => Section.lexeme .skip [c]) = [] := by
      refine spoken_eq_nil fun p hp => ?_
      obtain ⟨c, -, rfl⟩ := List.mem_map.mp hp
      rfl
    rw [sections, expand, List.flatMap_append, spoken_cons_of_isSilent rfl,
      spoken_cons_of_isSilent rfl, spoken_append, spoken_append, spoken_cons_of_isSilent rfl,
      spoken_append, hquote, List.nil_append, ihfile, ihrest]

/-- **Written texts are read back.** A text is written of pieces, and of files that it includes,
which are written in the same way and stored under their names, to any depth. The lexer returns the
tokens of the pieces in their order, with those of included files in the place where the file is
included, each with the documentation comment that belongs to it in that order; and it returns if
and only if comments and blocks fit into the buffer.

**Proof sketch.** For every kind of piece, one rule is taken, and it takes the piece as a whole. By
induction on the text its sections are those of the pieces, and sections between the files leave no
trace. -/
theorem yylex_text_returns_iff {files : ℕ → List Char → Option (List Char)} {T : SourceText}
    (hT : T.WellFormed) (hfiles : T.StoredIn files) (tokens : List Token) :
    (Lexer.yylex files).Returns (.running (.start T.text)) tokens ↔
      FitsFrom 0 (T.expand.flatMap Piece.sections) ∧
        tokens = tokensFrom [] (T.expand.flatMap Piece.sections) := by
  obtain ⟨m, hread⟩ := reads hT hfiles [] 0
  have hend : Reads files ⟨.initial, [[]], m⟩ [.fileEnd] ⟨.initial, [], m⟩ :=
    .single (List.cons_ne_nil _ _) rfl
  -- the end of the file leaves no trace either
  have hspoken : spoken (T.sections ++ [.fileEnd]) =
      spoken (T.expand.flatMap Piece.sections) := by
    rw [spoken_append, spoken_sections]
    exact List.append_nil _
  have hfits : FitsFrom 0 (T.sections ++ [.fileEnd]) ↔
      FitsFrom 0 (T.expand.flatMap Piece.sections) := by
    rw [← fitsFrom_spoken, hspoken, fitsFrom_spoken]
  have htokens : tokensFrom [] (T.sections ++ [.fileEnd]) =
      tokensFrom [] (T.expand.flatMap Piece.sections) := by
    rw [← tokensFrom_spoken, hspoken, tokensFrom_spoken]
  rw [← hfits, ← htokens]
  exact Lexer.returns_iff_of_reads (hread.append hend) tokens

/-- A comment without stars. -/
private lemma endsAt_of_notMem {body : List Char} (h : '*' ∉ body) : Piece.EndsAt body := by
  intro u v huv
  have hlast := congrArg List.reverse huv
  simp only [List.reverse_append, List.reverse_cons, List.reverse_nil, List.nil_append,
    List.append_assoc, List.cons_append] at hlast
  cases hv : v.reverse with
  | nil => simpa using hv
  | cons a x =>
    -- what comes before the last star has no star
    rw [hv, List.cons_append] at hlast
    obtain ⟨-, hlast⟩ := List.cons.inj hlast
    cases x with
    | nil =>
      obtain ⟨hstar, -⟩ := List.cons.inj hlast
      exact absurd hstar (by decide)
    | cons b x =>
      obtain ⟨-, hlast⟩ := List.cons.inj hlast
      have hmem : '*' ∈ body.reverse := by
        rw [hlast]
        simp
      exact absurd (List.mem_reverse.mp hmem) h

/-- A file that declares an event. -/
def eventFile : SourceText :=
  .cons (.word "event".toList) (.cons (.blank ' ') (.cons (.word "e".toList) (.cons (.mark ';') .nil)))

/-- A file with a documentation comment before it includes the other one. -/
def includingFile : SourceText :=
  .cons (.docComment " d ".toList) (.cons (.word "machine".toList) (.cons (.blank '\n')
    (.«include» [' '] true "f".toList eventFile (.cons (.word "m".toList) .nil))))

/-- The documentation comment goes to the event that the other file declares. -/
theorem yylex_includingFile_returns :
    (Lexer.yylex fun _ name => if name = "f".toList then some eventFile.text else none).Returns
      (.running (.start includingFile.text))
      [.keyword .machineKey, .keyword .eventKey, .id ['e'] (some [' ', 'd', ' ']), .char ';',
        .id ['m'] none] := by
  have hfile : eventFile.WellFormed := by
    simp only [eventFile, WellFormed, Piece.Followed]
    decide
  have hwell : includingFile.WellFormed := by
    refine ⟨endsAt_of_notMem (by decide), ?_⟩
    have hwords : (Piece.word "machine".toList).Followed (some '\n') ∧
        (Piece.blank '\n').Followed (some 'i') ∧ (Piece.word "m".toList).Followed none := by
      simp only [Piece.Followed]
      decide
    refine ⟨hwords.1, hwords.2.1, by decide, by decide, by decide, by decide, by decide, hfile,
      hwords.2.2, trivial⟩
  refine (yylex_text_returns_iff hwell ⟨fun _ => rfl, trivial, trivial⟩ _).mpr ⟨?_, rfl⟩
  have hdoc : (Section.docComment " d ".toList true).Fits 0 := by
    show " d ".toList.length + 1 ≤ 4096
    decide
  exact ⟨hdoc, trivial, trivial, trivial, trivial, trivial, trivial, trivial, trivial⟩

end SourceText

end FsmLang
