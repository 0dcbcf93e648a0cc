import Mathlib.Tactic
import FsmLang.Lexer
import FsmLang.Lexing.Sequences

set_option relaxedAutoImplicit false
set_option autoImplicit false

/-!
# Matches between the sections

Which rule is taken in the condition `INITIAL`, by the first characters of what is to be read: for
words, which are reserved or are identifiers, for numbers, single characters, the beginnings of
comments, `include` and the name of a file.

## Main definitions

* `reserved` — the words that have a rule of their own.
* `wordAction` — the action for a word.

## Main results

* `select_word` — a word that does not go on is taken as a whole.
* `select_blank` — characters that are skipped.
* `select_lineComment`, `select_beginInclude`, `select_newFile` — matches of any length.
-/

namespace FsmLang

open Lexing Lexing.Members

/-! ## The rules -/

/-- A character of a word, other than its first. -/
def isWordChar (c : Char) : Bool := isLetter c || isDigit c

/-- The texts that have a rule of their own. -/
def reserved : List (String × Action) :=
  [("data", .keyword .dataKey), ("translator", .keyword .translatorKey),
    ("translators", .keyword .translators), ("native", .beginNative), (";", .char),
    ("states", .keyword .states), ("events", .keyword .events), ("return", .keyword .«return»),
    ("actions", .keyword .actions), ("reentrant", .keyword .reentrant),
    ("machine", .keyword .machineKey), ("state", .keyword .stateKey), ("event", .keyword .eventKey),
    ("transition", .docKeyword .transitionKey), ("guard", .docKeyword .guardKey),
    ("when", .keyword .whenKey), ("otherwise", .keyword .otherwiseKey),
    ("action", .docKeyword .actionKey), ("returns", .keyword .returns),
    ("external", .keyword .«external»), ("on", .keyword .on), ("void", .keyword .void),
    ("parent", .docKeyword .parent), ("inhibits", .keyword .inhibits),
    ("submachines", .keyword .submachines), ("all", .keyword .all), ("entry", .keyword .entry),
    ("exit", .keyword .exit), ("struct", .keyword .structKey),
    ("sequence", .docKeyword .sequenceKey), ("start", .keyword .startKey), ("end", .keyword .endKey),
    ("union", .keyword .unionKey), ("::", .keyword .«namespace»), ("consuming", .keyword .consuming),
    ("implemented", .keyword .implemented), ("by", .keyword .«by»)]

/-- The action for a word: that of its own rule, or that of identifiers. -/
def wordAction (w : List Char) : Action :=
  ((reserved.find? fun x => decide (x.1.toList = w)).map Prod.snd).getD .id

/-- The rule for a text. -/
def reservedRule (x : String × Action) : Rule StartCondition Action Char :=
  ⟨[.initial], word x.1, x.2⟩

/-- The rules before those of the reserved words, in `INITIAL`. -/
def openingRules : List (Rule StartCondition Action Char) :=
  [⟨[.initial], word "/**", .beginDocCmnt⟩, ⟨[.initial], word "/*", .beginCmnt⟩,
    ⟨[.initial], .seq (word "//") (.star dot), .skip⟩,
    ⟨[.initial], .seq (word "include") (.seq (.star (oneOf " \t")) (.opt (word "\""))),
      .beginInclude⟩]

/-- Identifiers. -/
def idRule : Rule StartCondition Action Char :=
  ⟨[.initial], .seq (.one isLetter) (.star (.one isWordChar)), .id⟩

def numericStringRule : Rule StartCondition Action Char :=
  ⟨[.initial], .plus (.one isDigit), .numericString⟩

def newlineRule : Rule StartCondition Action Char := ⟨[.initial], newline, .skip⟩

/-- Anything else. -/
def otherRule : Rule StartCondition Action Char :=
  ⟨[.initial, .cmnt, .docCmnt, .native, .nativeBlck, .«include»], dot, .skip⟩

/-- Single characters. -/
def markRules : List (Rule StartCondition Action Char) :=
  [⟨[.initial], oneOf "]()\x7b\x7d=*", .char⟩, ⟨[.initial], oneOf "[", .char⟩,
    ⟨[.initial], word ",", .char⟩]

/-- The rules of the condition `INITIAL`. -/
private lemma initialRules :
    (lexerRules.filter fun r => decide (StartCondition.initial ∈ r.conds)) =
    openingRules ++ reserved.map reservedRule ++ markRules ++
      [idRule, numericStringRule, newlineRule, otherRule] := rfl

/-- The rules of the start condition for everything that is neither a comment nor a block. -/
lemma select_initial (s : List Char) : select lexerRules .initial s =
    select (openingRules ++ reserved.map reservedRule ++ markRules ++
      [idRule, numericStringRule, newlineRule, otherRule]) .initial s := by
  rw [select_filter, initialRules]

/-! ## Characters -/

/-- No letter is a digit. -/
lemma isDigit_eq_false_of_isLetter {c : Char} (h : isLetter c = true) : isDigit c = false := by
  simp only [isLetter, isDigit, decide_eq_true_eq, decide_eq_false_iff_not, Char.le_def,
    UInt32.le_iff_toNat_le, Char.ext_iff, UInt32.toNat_inj.symm] at h ⊢
  have ha : 'a'.val.toNat = 97 := rfl
  have hA : 'A'.val.toNat = 65 := rfl
  have hu : '_'.val.toNat = 95 := rfl
  have h9 : '9'.val.toNat = 57 := rfl
  omega

/-- A character of a word is none of the others. -/
lemma ne_of_isWordChar {c d : Char} (h : isWordChar c = true) (hd : isWordChar d = false) :
    c ≠ d := by
  rintro rfl
  rw [h] at hd
  cases hd

/-- Letters are characters of words. -/
lemma isWordChar_of_isLetter {c : Char} (h : isLetter c = true) : isWordChar c = true := by
  rw [isWordChar, h, Bool.true_or]

/-- So are digits. -/
private lemma isWordChar_of_isDigit {c : Char} (h : isDigit c = true) : isWordChar c = true := by
  rw [isWordChar, h, Bool.or_true]

/-! ## Lengths of matches -/

variable {c : Char} {t w rest : List Char}

/-- What a rule of the start condition matches is the longest match of its pattern. -/
lemma matched_initial (p : Pattern Char) (a : Action) (s : List Char) :
    (⟨[.initial], p, a⟩ : Rule StartCondition Action Char).matched .initial s =
      (p.longest s).getD 0 := rfl

/-- A text that is not at the beginning. -/
lemma matched_word_eq_zero {x : String} (a : Action) {s : List Char} (h : ¬ x.toList <+: s) :
    (⟨[.initial], word x, a⟩ : Rule StartCondition Action Char).matched .initial s = 0 := by
  rw [matched_initial, word, Pattern.longest_lit, if_neg h]
  rfl

/-- None of the rules at the beginning matches what begins with another character than theirs. -/
lemma matched_openingRules (hslash : c ≠ '/') (hi : c ≠ 'i') :
    ∀ r ∈ openingRules, r.matched .initial (c :: t) = 0 := by
  have hnot : ∀ (d : Char) (u : List Char), c ≠ d → ¬ d :: u <+: c :: t := fun d u hd h =>
    hd (List.cons_prefix_cons.mp h).1.symm
  have hline : ¬ "//".toList <+: c :: t := hnot _ _ hslash
  have hinclude : ¬ "include".toList <+: c :: t := hnot _ _ hi
  simp only [openingRules, List.forall_mem_cons]
  refine ⟨matched_word_eq_zero _ (hnot _ _ hslash),
    matched_word_eq_zero _ (hnot _ _ hslash), ?_, ?_, by simp⟩
  · rw [matched_initial, word, Pattern.longest_seq_lit, if_neg hline]
    rfl
  · rw [matched_initial, word, Pattern.longest_seq_lit, if_neg hinclude]
    rfl

/-- A rule for some characters matches no text that starts with another one. -/
lemma matched_oneOf {x : String} (a : Action) (h : c ∉ x.toList) :
    (⟨[.initial], oneOf x, a⟩ : Rule StartCondition Action Char).matched .initial (c :: t) = 0 := by
  rw [matched_initial, oneOf, Pattern.longest_one, decide_eq_false h]
  rfl

/-- The characters with rules of their own. -/
def marks : List Char := ";,]()\x7b\x7d=*[".toList

/-- A mark is no character of a word. -/
lemma isWordChar_of_mem_marks {c : Char} (h : c ∈ marks) : isWordChar c = false := by
  have hall : ∀ c ∈ marks, isWordChar c = false := by decide
  exact hall c h

/-- The rules for marks match no text that starts with another character. -/
lemma matched_markRules (h : c ∉ marks) : ∀ r ∈ markRules, r.matched .initial (c :: t) = 0 := by
  have hsub : ∀ x ∈ ["]()\x7b\x7d=*", "["], ∀ d ∈ x.toList, d ∈ marks := by decide
  have hcomma : ¬ ",".toList <+: c :: t := by
    intro hp
    obtain rfl : c = ',' := (List.cons_prefix_cons.mp hp).1.symm
    exact h (by decide)
  simp only [markRules, List.forall_mem_cons]
  refine ⟨matched_oneOf _ fun hc => h (hsub _ (by decide) c hc),
    matched_oneOf _ fun hc => h (hsub _ (by decide) c hc), ?_, by simp⟩
  exact matched_word_eq_zero _ hcomma

/-- No reserved text begins with a digit or a character that is skipped. -/
lemma matched_reserved (h : ∀ x ∈ reserved, ¬ x.1.toList <+: c :: t) :
    ∀ r ∈ reserved.map reservedRule, r.matched .initial (c :: t) = 0 := by
  intro r hr
  obtain ⟨x, hx, rfl⟩ := List.mem_map.mp hr
  exact matched_word_eq_zero _ (h x hx)

/-! ## Words -/

/-- A word that is longer than the characters before it would go on behind them. -/
lemma prefix_of_prefix_append {p : Char → Bool} {u : List Char} (hu : ∀ a ∈ u, p a = true)
    (hrest : ∀ a ∈ rest.head?, p a = false) (h : u <+: w ++ rest) : u <+: w := by
  rcases List.prefix_or_prefix_of_prefix h (List.prefix_append w rest) with hle | ⟨v, rfl⟩
  · exact hle
  · cases v with
    | nil => simp
    | cons a v =>
      obtain ⟨x, hx⟩ := List.prefix_append_right_inj w |>.mp h
      have hhead : rest.head? = some a := by
        rw [← hx]
        rfl
      have hpa := hrest a hhead
      rw [hu a (by simp)] at hpa
      cases hpa

/-- The texts are words, or begin with a character that is in no word. -/
private lemma reserved_spec : ∀ x ∈ reserved, (∀ a ∈ x.1.toList, isWordChar a = true) ∨
    ∀ a ∈ x.1.toList.head?, isWordChar a = false := by decide

/-- No reserved word is empty. -/
lemma reserved_ne_nil : ∀ x ∈ reserved, x.1.toList ≠ [] := by decide

/-- A reserved text at the beginning of a word. -/
private lemma prefix_of_reserved (hw : ∀ a ∈ w, isWordChar a = true) (hne : w ≠ [])
    (hrest : ∀ a ∈ rest.head?, isWordChar a = false) {x : String × Action} (hx : x ∈ reserved)
    (h : x.1.toList <+: w ++ rest) : x.1.toList <+: w := by
  rcases reserved_spec x hx with hall | hhead
  · exact prefix_of_prefix_append hall hrest h
  · obtain ⟨c, u, rfl⟩ := List.exists_cons_of_ne_nil hne
    obtain ⟨d, v, hd⟩ := List.exists_cons_of_ne_nil (reserved_ne_nil x hx)
    rw [hd] at h hhead
    obtain ⟨rfl, -⟩ := List.cons_prefix_cons.mp h
    have hc := hw d (by simp)
    rw [hhead d rfl] at hc
    cases hc

/-- The rule of a reserved word matches at most the word that the text starts with, and all of it
only if it is the reserved word. -/
lemma matched_reservedRule_le (hw : ∀ a ∈ w, isWordChar a = true) (hne : w ≠ [])
    (hrest : ∀ a ∈ rest.head?, isWordChar a = false) {x : String × Action} (hx : x ∈ reserved) :
    (reservedRule x).matched .initial (w ++ rest) ≤ w.length ∧
      ((reservedRule x).matched .initial (w ++ rest) = w.length → x.1.toList = w) := by
  rw [reservedRule, matched_initial, word, Pattern.longest_lit]
  split_ifs with h
  · have hstart := prefix_of_reserved hw hne hrest hx h
    exact ⟨hstart.length_le, hstart.eq_of_length⟩
  · refine ⟨Nat.zero_le _, fun hzero => absurd hzero ?_⟩
    have hpos := List.length_pos_of_ne_nil hne
    rw [Option.getD_none]
    omega

/-- The longest beginning of characters with a property ends where one without it follows. -/
lemma takeWhile_append_of_head {p : Char → Bool} (hw : ∀ a ∈ w, p a = true)
    (hrest : ∀ a ∈ rest.head?, p a = false) :
    (w ++ rest).takeWhile p = w ∧ (w ++ rest).dropWhile p = rest := by
  rw [List.takeWhile_append_of_pos hw, List.dropWhile_append_of_pos hw]
  cases rest with
  | nil => simp
  | cons a rest => simp [hrest a rfl]

/-- The rule for names matches the whole word. -/
lemma matched_idRule (hc : isLetter c = true) (hw : ∀ a ∈ w, isWordChar a = true)
    (hrest : ∀ a ∈ rest.head?, isWordChar a = false) :
    idRule.matched .initial (c :: (w ++ rest)) = (c :: w).length := by
  rw [idRule, matched_initial, Pattern.longest_seq_one, if_pos hc, Pattern.longest_star_one,
    (takeWhile_append_of_head hw hrest).1]
  rfl

/-- The rules after that of identifiers match less. -/
lemma matched_lastRules_le (s : List Char) (hc : isDigit c = false) :
    ∀ r ∈ [numericStringRule, newlineRule, otherRule], r.matched .initial (c :: s) ≤ 1 := by
  simp only [List.forall_mem_cons]
  refine ⟨?_, ?_, ?_, by simp⟩
  · rw [numericStringRule, matched_initial, Pattern.plus, Pattern.longest_seq_one, hc]
    exact Nat.zero_le _
  · rw [newlineRule, matched_initial, longest_newline]
    split_ifs
    · exact le_rfl
    · exact Nat.zero_le _
  · rw [otherRule, matched_of_mem _ _ (by decide), longest_dot]
    split_ifs
    · exact Nat.zero_le _
    · exact le_rfl

/-- The beginning of an `include` is less than a word that begins with the same letters. -/
private lemma matched_openingRules_lt (hc : isLetter c = true) (hw : ∀ a ∈ w, isWordChar a = true)
    (hrest : ∀ a ∈ rest.head?, isWordChar a = false) (hne : c :: w ≠ "include".toList) :
    ∀ r ∈ openingRules, r.matched .initial (c :: w ++ rest) < (c :: w).length := by
  have hslash : c ≠ '/' := ne_of_isWordChar (isWordChar_of_isLetter hc) (by decide)
  have hnot : ∀ u : List Char, ¬ '/' :: u <+: c :: w ++ rest := fun u h =>
    hslash (List.cons_prefix_cons.mp h).1.symm
  have hall : ∀ a ∈ c :: w, isWordChar a = true :=
    List.forall_mem_cons.mpr ⟨isWordChar_of_isLetter hc, hw⟩
  have hpos : 0 < (c :: w).length := Nat.succ_pos _
  have hdoc : ¬ "/**".toList <+: c :: w ++ rest := hnot _
  have hcmnt : ¬ "/*".toList <+: c :: w ++ rest := hnot _
  have hline : ¬ "//".toList <+: c :: w ++ rest := hnot _
  simp only [openingRules, List.forall_mem_cons]
  refine ⟨?_, ?_, ?_, ?_, by simp⟩
  · rw [matched_word_eq_zero _ hdoc]
    exact hpos
  · rw [matched_word_eq_zero _ hcmnt]
    exact hpos
  · rw [matched_initial, word, Pattern.longest_seq_lit, if_neg hline]
    exact hpos
  · rw [matched_initial, word, Pattern.longest_seq_lit]
    split_ifs with h
    · have hprefix : "include".toList <+: c :: w :=
        prefix_of_prefix_append (p := isWordChar) (by decide) hrest h
      obtain ⟨v, hv⟩ := hprefix
      cases v with
      | nil => exact absurd (hv.symm.trans (List.append_nil _)) hne
      | cons a v =>
        have ha : isWordChar a = true := hall a (by simp [← hv])
        have hblank : oneOf " \t" = .one fun c => decide (c ∈ " \t".toList) := rfl
        have ha' : a ∉ " \t".toList := fun hmem =>
          ne_of_isWordChar ha ((by decide : ∀ d ∈ " \t".toList, isWordChar d = false) a hmem) rfl
        have hquote : ¬ ['"'] <+: a :: (v ++ rest) := fun hp =>
          ne_of_isWordChar ha (by decide : isWordChar '"' = false)
            (List.cons_prefix_cons.mp hp).1.symm
        have hopt : (Pattern.opt (word "\"")).longest (a :: (v ++ rest)) = some 0 := by
          refine Pattern.longest_eq_some_iff.mpr
            ⟨[], a :: (v ++ rest), rfl, rfl, .inr (Pattern.mem_lang_empty.mpr rfl), ?_⟩
          rintro u' v' huv (hu' | hu')
          · obtain rfl := Pattern.mem_lang_lit.mp hu'
            exact absurd ⟨v', huv.symm⟩ hquote
          · rw [Pattern.mem_lang_empty.mp hu']
            exact le_rfl
        rw [← hv, List.append_assoc, List.drop_left, List.cons_append, hblank,
          Pattern.longest_seq_star_one (by
            rintro d u hd (hu | hu)
            · obtain ⟨rfl, -⟩ := List.cons.inj (Pattern.mem_lang_lit.mp hu)
              exact absurd hd (by decide)
            · cases Pattern.mem_lang_empty.mp hu),
          List.dropWhile_cons_of_neg (by simpa using ha'),
          List.takeWhile_cons_of_neg (by simpa using ha'), hopt]
        simp
    · exact hpos

/-- **Words.** A word is taken as a whole, if the text does not go on with a character of a word.
The rule is its own one, or that of identifiers. -/
theorem select_word (hc : isLetter c = true) (hw : ∀ a ∈ w, isWordChar a = true)
    (hrest : ∀ a ∈ rest.head?, isWordChar a = false) (hne : c :: w ≠ "include".toList) :
    ∃ r, select lexerRules .initial (c :: w ++ rest) = some (r, (c :: w).length) ∧
      r.action = wordAction (c :: w) := by
  have hall : ∀ a ∈ c :: w, isWordChar a = true :=
    List.forall_mem_cons.mpr ⟨isWordChar_of_isLetter hc, hw⟩
  have hpos : 0 < (c :: w).length := Nat.succ_pos _
  have hopening := matched_openingRules_lt hc hw hrest hne
  have hreserved := fun x (hx : x ∈ reserved) =>
    matched_reservedRule_le hall (List.cons_ne_nil c w) hrest hx
  have hid : idRule.matched .initial (c :: w ++ rest) = (c :: w).length :=
    matched_idRule hc hw hrest
  have hmark : c ∉ marks := fun h =>
    ne_of_isWordChar (isWordChar_of_isLetter hc) (isWordChar_of_mem_marks h) rfl
  have hmarks : ∀ r ∈ markRules, r.matched .initial (c :: w ++ rest) = 0 := matched_markRules hmark
  have hlast := matched_lastRules_le (w ++ rest) (isDigit_eq_false_of_isLetter hc)
  rw [select_initial]
  cases hfind : reserved.find? fun x => decide (x.1.toList = c :: w) with
  | some x =>
    obtain ⟨hx, before, after, hsplit, hbefore⟩ := List.find?_eq_some_iff_append.mp hfind
    have hxw : x.1.toList = c :: w := of_decide_eq_true hx
    refine ⟨reservedRule x, select_eq_some_iff.mpr ⟨openingRules ++ before.map reservedRule,
      after.map reservedRule ++ (markRules ++ [idRule, numericStringRule, newlineRule, otherRule]),
      by simp [hsplit], ?_, hpos, ?_, ?_⟩, by rw [wordAction, hfind]; rfl⟩
    · rw [reservedRule, matched_initial, word, Pattern.longest_lit, hxw,
        if_pos (List.prefix_append _ _)]
      rfl
    · intro r hr
      rcases List.mem_append.mp hr with hr | hr
      · exact hopening r hr
      · obtain ⟨y, hy, rfl⟩ := List.mem_map.mp hr
        obtain ⟨hle, heq⟩ := hreserved y (hsplit ▸ List.mem_append_left _ hy)
        refine lt_of_le_of_ne hle fun h => ?_
        have hyw := hbefore y hy
        rw [decide_eq_true (heq h)] at hyw
        cases hyw
    · intro r hr
      simp only [List.mem_append, List.mem_cons] at hr
      rcases hr with hr | hr | rfl | hr
      · obtain ⟨y, hy, rfl⟩ := List.mem_map.mp hr
        exact (hreserved y (hsplit ▸ by simp [hy])).1
      · rw [hmarks r hr]
        exact Nat.zero_le _
      · exact hid.le
      · exact (hlast r (by simpa using hr)).trans hpos
  | none =>
    refine ⟨idRule, select_eq_some_iff.mpr ⟨openingRules ++ reserved.map reservedRule ++ markRules,
      [numericStringRule, newlineRule, otherRule], by simp, hid, hpos, ?_, ?_⟩,
      by rw [wordAction, hfind]; rfl⟩
    · intro r hr
      simp only [List.mem_append] at hr
      rcases hr with (hr | hr) | hr
      · exact hopening r hr
      · obtain ⟨y, hy, rfl⟩ := List.mem_map.mp hr
        obtain ⟨hle, heq⟩ := hreserved y hy
        refine lt_of_le_of_ne hle fun h => ?_
        have hyw := List.find?_eq_none.mp hfind y hy
        exact hyw (decide_eq_true (heq h))
      · rw [hmarks r hr]
        exact hpos
    · exact fun r hr => (hlast r hr).trans hpos

/-! ## Other characters -/

/-- The characters with which reserved texts begin. -/
private lemma reserved_head : ∀ x ∈ reserved, ∀ a ∈ x.1.toList.head?,
    isLetter a = true ∨ a = ';' ∨ a = ':' := by decide

/-- No reserved text begins with another character. -/
lemma not_prefix_of_reserved (hletter : isLetter c = false) (hend : c ≠ ';')
    (hcolon : c = ':' → ∀ a ∈ t.head?, a ≠ ':') :
    ∀ x ∈ reserved, ¬ x.1.toList <+: c :: t := by
  have hscope : ∀ x ∈ reserved, x.1.toList.head? = some ':' → x.1.toList = [':', ':'] := by decide
  intro x hx h
  obtain ⟨d, u, hd⟩ := List.exists_cons_of_ne_nil (reserved_ne_nil x hx)
  have hhead := reserved_head x hx d (by rw [hd]; rfl)
  have hdc : d = c := by
    rw [hd] at h
    exact (List.cons_prefix_cons.mp h).1
  subst hdc
  rcases hhead with hl | he | hc
  · rw [hl] at hletter
    cases hletter
  · exact hend he
  · rw [hscope x hx (by rw [hd, hc]; rfl)] at h
    obtain ⟨-, hcons⟩ := List.cons_prefix_cons.mp h
    exact hcolon hc ':' ((singleton_prefix_iff ':' t).mp hcons) rfl

/-- The rules after those for the beginnings of comments match one character at most, unless a word
or a number or one of the marks begins there. -/
private lemma matched_le_one (hword : isWordChar c = false) (hmark : c ∉ marks)
    (hcolon : c = ':' → ∀ a ∈ t.head?, a ≠ ':') :
    ∀ r ∈ reserved.map reservedRule ++ markRules ++
      [idRule, numericStringRule, newlineRule, otherRule], r.matched .initial (c :: t) ≤ 1 := by
  obtain ⟨hletter, hdigit⟩ := Bool.or_eq_false_iff.mp hword
  have hend : c ≠ ';' := by
    rintro rfl
    exact hmark (by decide)
  intro r hr
  simp only [List.mem_append, List.mem_cons] at hr
  rcases hr with (hr | hr) | rfl | hr
  · rw [matched_reserved (not_prefix_of_reserved hletter hend hcolon) r hr]
    exact Nat.zero_le _
  · rw [matched_markRules hmark r hr]
    exact Nat.zero_le _
  · rw [idRule, matched_initial, Pattern.longest_seq_one, hletter]
    exact Nat.zero_le _
  · exact matched_lastRules_le t hdigit r (by simpa using hr)

/-- **Numbers.** -/
theorem select_number (hc : isDigit c = true) (hw : ∀ a ∈ w, isDigit a = true)
    (hrest : ∀ a ∈ rest.head?, isDigit a = false) :
    select lexerRules .initial (c :: w ++ rest) = some (numericStringRule, (c :: w).length) := by
  have hpos : 0 < (c :: w).length := Nat.succ_pos _
  have hword := isWordChar_of_isDigit hc
  have hletter : isLetter c = false := by
    by_contra h
    rw [isDigit_eq_false_of_isLetter (by simpa using h)] at hc
    cases hc
  have hmark : c ∉ marks := fun h => ne_of_isWordChar hword (isWordChar_of_mem_marks h) rfl
  have hopening : ∀ r ∈ openingRules, r.matched .initial (c :: w ++ rest) = 0 :=
    matched_openingRules (ne_of_isWordChar hword (by decide)) (by
      rintro rfl
      exact absurd hletter (by decide))
  have hcolon : c ≠ ':' := ne_of_isWordChar hword (by decide)
  have hreserved : ∀ r ∈ reserved.map reservedRule, r.matched .initial (c :: w ++ rest) = 0 :=
    matched_reserved (not_prefix_of_reserved hletter (ne_of_isWordChar hword (by decide))
      fun h => absurd h hcolon)
  have hmarks : ∀ r ∈ markRules, r.matched .initial (c :: w ++ rest) = 0 := matched_markRules hmark
  rw [select_initial]
  refine select_eq_some_iff.mpr ⟨openingRules ++ reserved.map reservedRule ++ markRules ++ [idRule],
    [newlineRule, otherRule], by simp, ?_, hpos, ?_, ?_⟩
  · rw [numericStringRule, matched_initial, Pattern.plus, List.cons_append, Pattern.longest_seq_one,
      if_pos hc, Pattern.longest_star_one, (takeWhile_append_of_head hw hrest).1]
    rfl
  · intro r hr
    simp only [List.mem_append, List.mem_singleton] at hr
    rcases hr with ((hr | hr) | hr) | rfl
    · rw [hopening r hr]
      exact hpos
    · rw [hreserved r hr]
      exact hpos
    · rw [hmarks r hr]
      exact hpos
    · rw [idRule, matched_initial, List.cons_append, Pattern.longest_seq_one, hletter]
      exact hpos
  · intro r hr
    rw [List.mem_cons, List.mem_singleton] at hr
    rcases hr with rfl | rfl
    · rw [newlineRule, matched_initial, List.cons_append, longest_newline,
        if_neg (ne_of_isWordChar hword (by decide))]
      exact Nat.zero_le _
    · rw [otherRule, matched_of_mem _ _ (by decide), List.cons_append, longest_dot,
        if_neg (ne_of_isWordChar hword (by decide))]
      exact hpos

/-- **Single characters.** -/
theorem select_mark (h : c ∈ marks) (t : List Char) :
    ∃ r, select lexerRules .initial (c :: t) = some (r, 1) ∧ r.action = .char := by
  have hall : ∀ c ∈ marks, c ≠ '/' ∧ c ≠ 'i' ∧ c ≠ '\n' ∧ isLetter c = false ∧ isDigit c = false := by
    decide
  obtain ⟨hslash, hi, hnl, hletter, hdigit⟩ := hall c h
  have hopening := matched_openingRules (t := t) hslash hi
  have hreserved : ∀ x ∈ reserved, (reservedRule x).matched .initial (c :: t) ≤ 1 ∧
      ((reservedRule x).matched .initial (c :: t) = 1 → x.2 = .char) := by
    have hone : ∀ x ∈ reserved, ∀ a ∈ x.1.toList.head?, a ∈ marks → x = (";", .char) := by decide
    intro x hx
    rw [reservedRule, matched_initial, word, Pattern.longest_lit]
    split_ifs with hprefix
    · obtain ⟨d, u, hd⟩ := List.exists_cons_of_ne_nil (reserved_ne_nil x hx)
      rw [hd] at hprefix
      obtain ⟨rfl, -⟩ := List.cons_prefix_cons.mp hprefix
      obtain rfl := hone x hx d (by rw [hd]; rfl) h
      exact ⟨le_rfl, fun _ => rfl⟩
    · exact ⟨Nat.zero_le _, fun hzero => absurd hzero (by decide)⟩
  have hmarks : ∀ r ∈ markRules, r.matched .initial (c :: t) ≤ 1 ∧ r.action = .char := by
    simp only [markRules, List.forall_mem_cons, matched_initial, oneOf, Pattern.longest_one, word,
      Pattern.longest_lit]
    refine ⟨⟨?_, trivial⟩, ⟨?_, trivial⟩, ⟨?_, trivial⟩, by simp⟩
    all_goals split_ifs <;> simp
  have hbegins : ∃ r ∈ openingRules ++ reserved.map reservedRule ++ markRules,
      r.matched .initial (c :: t) = 1 := by
    have hcases : ∀ c ∈ marks, c ∈ "]()\x7b\x7d=*".toList ∨ c ∈ "[".toList ∨ c = ',' ∨ c = ';' := by
      decide
    rcases hcases c h with hc | hc | rfl | rfl
    · refine ⟨⟨[.initial], oneOf "]()\x7b\x7d=*", .char⟩, by simp [markRules], ?_⟩
      rw [matched_initial, oneOf, Pattern.longest_one, decide_eq_true hc]
      rfl
    · refine ⟨⟨[.initial], oneOf "[", .char⟩, by simp [markRules], ?_⟩
      rw [matched_initial, oneOf, Pattern.longest_one, decide_eq_true hc]
      rfl
    · refine ⟨⟨[.initial], word ",", .char⟩, by simp [markRules], ?_⟩
      have hcomma : ",".toList <+: ',' :: t := List.cons_prefix_cons.mpr ⟨rfl, List.nil_prefix⟩
      rw [matched_initial, word, Pattern.longest_lit, if_pos hcomma]
      rfl
    · refine ⟨reservedRule (";", .char), ?_, ?_⟩
      · exact List.mem_append_left _ (List.mem_append_right _
          (List.mem_map_of_mem (by simp [reserved])))
      · have hend : ";".toList <+: ';' :: t := List.cons_prefix_cons.mpr ⟨rfl, List.nil_prefix⟩
        rw [reservedRule, matched_initial, word, Pattern.longest_lit, if_pos hend]
        rfl
  have hafter : ∀ r ∈ [idRule, numericStringRule, newlineRule, otherRule],
      r.matched .initial (c :: t) ≤ 1 := by
    refine List.forall_mem_cons.mpr ⟨?_, matched_lastRules_le t hdigit⟩
    rw [idRule, matched_initial, Pattern.longest_seq_one, hletter]
    exact Nat.zero_le _
  rw [select_initial]
  obtain ⟨r, hr, hselect, hmatched⟩ := exists_select_of_matched Nat.one_pos hbegins (by
    intro r hr
    simp only [List.mem_append, List.mem_map] at hr
    rcases hr with (hr | ⟨x, hx, rfl⟩) | hr
    · rw [hopening r hr]
      exact Nat.zero_le _
    · exact (hreserved x hx).1
    · exact (hmarks r hr).1) hafter
  refine ⟨r, hselect, ?_⟩
  simp only [List.mem_append, List.mem_map] at hr
  rcases hr with (hr | ⟨x, hx, rfl⟩) | hr
  · rw [hopening r hr] at hmatched
    cases hmatched
  · exact (hreserved x hx).2 hmatched
  · exact (hmarks r hr).2

/-- The mark between a machine and what it declares. -/
theorem select_namespace (t : List Char) : select lexerRules .initial (':' :: ':' :: t) =
    some (reservedRule ("::", .keyword .«namespace»), 2) := by
  cases t <;> rfl

/-- **Characters that are skipped.** They begin neither a word nor a comment. -/
theorem select_blank (hword : isWordChar c = false) (hmark : c ∉ marks)
    (hcolon : c = ':' → ∀ a ∈ t.head?, a ≠ ':')
    (hslash : c = '/' → ∀ a ∈ t.head?, a ≠ '/' ∧ a ≠ '*') :
    ∃ r, select lexerRules .initial (c :: t) = some (r, 1) ∧ r.action = .skip := by
  obtain ⟨hletter, hdigit⟩ := Bool.or_eq_false_iff.mp hword
  have hi : c ≠ 'i' := by
    rintro rfl
    exact absurd hletter (by decide)
  have hopening : ∀ r ∈ openingRules, r.matched .initial (c :: t) = 0 := by
    by_cases hc : c = '/'
    · subst hc
      have hnot : ∀ a (u : List Char), a = '/' ∨ a = '*' → ¬ '/' :: a :: u <+: '/' :: t := by
        rintro a u ha h
        obtain ⟨v, rfl⟩ := (List.cons_prefix_cons.mp h).2
        obtain ⟨hslash', hstar⟩ := hslash rfl a rfl
        exact ha.elim hslash' hstar
      have hline : ¬ "//".toList <+: '/' :: t := hnot _ _ (.inl rfl)
      have hinclude : ¬ "include".toList <+: '/' :: t := fun h =>
        absurd (List.cons_prefix_cons.mp h).1 (by decide)
      simp only [openingRules, List.forall_mem_cons]
      refine ⟨matched_word_eq_zero _ (hnot _ _ (.inr rfl)),
        matched_word_eq_zero _ (hnot _ _ (.inr rfl)), ?_, ?_, by simp⟩
      · rw [matched_initial, word, Pattern.longest_seq_lit, if_neg hline]
        rfl
      · rw [matched_initial, word, Pattern.longest_seq_lit, if_neg hinclude]
        rfl
    · exact matched_openingRules hc hi
  have hend : c ≠ ';' := by
    rintro rfl
    exact hmark (by decide)
  have hreserved := matched_reserved (not_prefix_of_reserved hletter hend hcolon)
  have hmarks := matched_markRules (t := t) hmark
  have hzero : ∀ r ∈ openingRules ++ reserved.map reservedRule ++ markRules ++
      [idRule, numericStringRule], r.matched .initial (c :: t) = 0 := by
    intro r hr
    simp only [List.mem_append, List.mem_cons, List.not_mem_nil, or_false] at hr
    rcases hr with ((hr | hr) | hr) | rfl | rfl
    · exact hopening r hr
    · exact hreserved r hr
    · exact hmarks r hr
    · rw [idRule, matched_initial, Pattern.longest_seq_one, hletter]
      rfl
    · rw [numericStringRule, matched_initial, Pattern.plus, Pattern.longest_seq_one, hdigit]
      rfl
  rw [select_initial]
  by_cases hnl : c = '\n'
  · refine ⟨newlineRule, select_eq_some_iff.mpr ⟨openingRules ++ reserved.map reservedRule ++
      markRules ++ [idRule, numericStringRule], [otherRule], by simp, ?_, Nat.one_pos, ?_, ?_⟩, rfl⟩
    · rw [newlineRule, matched_initial, longest_newline, if_pos hnl]
      rfl
    · exact fun r hr => (hzero r hr).trans_lt Nat.one_pos
    · intro r hr
      obtain rfl := List.mem_singleton.mp hr
      rw [otherRule, matched_of_mem _ _ (by decide), longest_dot, if_pos hnl]
      exact Nat.zero_le _
  · refine ⟨otherRule, select_eq_some_iff.mpr ⟨openingRules ++ reserved.map reservedRule ++
      markRules ++ [idRule, numericStringRule, newlineRule], [], by simp, ?_, Nat.one_pos, ?_,
      by simp⟩, rfl⟩
    · rw [otherRule, matched_of_mem _ _ (by decide), longest_dot, if_neg hnl]
      rfl
    · intro r hr
      have hsplit : openingRules ++ reserved.map reservedRule ++ markRules ++
          [idRule, numericStringRule, newlineRule] = openingRules ++ reserved.map reservedRule ++
            markRules ++ [idRule, numericStringRule] ++ [newlineRule] := by simp
      rw [hsplit, List.mem_append, List.mem_singleton] at hr
      rcases hr with hr | rfl
      · exact (hzero r hr).trans_lt Nat.one_pos
      · rw [newlineRule, matched_initial, longest_newline, if_neg hnl]
        exact Nat.one_pos

/-! ## Comments and files -/

/-- The rules after those for the beginnings of comments, where a comment begins. -/
lemma matched_slash_le : ∀ r ∈ reserved.map reservedRule ++ markRules ++
    [idRule, numericStringRule, newlineRule, otherRule], r.matched .initial ('/' :: t) ≤ 1 :=
  matched_le_one (by decide) (by decide) fun h => absurd h (by decide)

/-- A slash does not begin an inclusion. -/
lemma matched_beginInclude_slash :
    (⟨[.initial], .seq (word "include") (.seq (.star (oneOf " \t")) (.opt (word "\""))),
      .beginInclude⟩ : Rule StartCondition Action Char).matched .initial ('/' :: t) = 0 := by
  have hinclude : ¬ "include".toList <+: '/' :: t := fun h =>
    absurd (List.cons_prefix_cons.mp h).1 (by decide)
  rw [matched_initial, word, Pattern.longest_seq_lit, if_neg hinclude]
  rfl

/-- How much of a comment the rule for comments up to the end of a line matches. -/
lemma matched_lineComment (s : List Char) :
    (⟨[.initial], .seq (word "//") (.star dot), .skip⟩ :
      Rule StartCondition Action Char).matched .initial s =
        if "//".toList <+: s then ((s.drop 2).takeWhile fun c => decide (c ≠ '\n')).length + 2
        else 0 := by
  rw [matched_initial, word, Pattern.longest_seq_lit, dot, Pattern.longest_star_one]
  split_ifs <;> rfl

/-- **Comments up to the end of a line.** -/
theorem select_lineComment (hw : '\n' ∉ w) (hrest : ∀ a ∈ rest.head?, a = '\n') :
    ∃ r, select lexerRules .initial ('/' :: '/' :: (w ++ rest)) =
      some (r, ('/' :: '/' :: w).length) ∧ r.action = .skip := by
  have htake : (w ++ rest).takeWhile (fun c => decide (c ≠ '\n')) = w := by
    refine (takeWhile_append_of_head (fun a ha => ?_) fun a ha => ?_).1
    · exact decide_eq_true fun h => hw (h ▸ ha)
    · exact decide_eq_false fun h => h (hrest a ha)
  have hdoc : ¬ "/**".toList <+: '/' :: '/' :: (w ++ rest) := fun h =>
    absurd (List.cons_prefix_cons.mp (List.cons_prefix_cons.mp h).2).1 (by decide)
  have hcmnt : ¬ "/*".toList <+: '/' :: '/' :: (w ++ rest) := fun h =>
    absurd (List.cons_prefix_cons.mp (List.cons_prefix_cons.mp h).2).1 (by decide)
  have hline : "//".toList <+: '/' :: '/' :: (w ++ rest) := ⟨w ++ rest, rfl⟩
  rw [select_initial]
  refine ⟨⟨[.initial], .seq (word "//") (.star dot), .skip⟩, select_eq_some_iff.mpr
    ⟨[⟨[.initial], word "/**", .beginDocCmnt⟩, ⟨[.initial], word "/*", .beginCmnt⟩], _,
      rfl, ?_, Nat.succ_pos _, ?_, ?_⟩, rfl⟩
  · rw [matched_lineComment, if_pos hline]
    simp only [List.drop_succ_cons, List.drop_zero, htake, List.length_cons]
  · simp only [List.forall_mem_cons]
    refine ⟨?_, ?_, by simp⟩
    · rw [matched_word_eq_zero _ hdoc]
      exact Nat.succ_pos _
    · rw [matched_word_eq_zero _ hcmnt]
      exact Nat.succ_pos _
  · refine List.forall_mem_cons.mpr ⟨?_, fun r hr => (matched_slash_le r hr).trans (by simp)⟩
    rw [matched_beginInclude_slash]
    exact Nat.zero_le _

/-- **The beginning of a comment.** -/
theorem select_beginCmnt (ht : ∀ a ∈ t.head?, a ≠ '*') :
    select lexerRules .initial ('/' :: '*' :: t) =
      some (⟨[.initial], word "/*", .beginCmnt⟩, 2) := by
  have hdoc : ¬ "/**".toList <+: '/' :: '*' :: t := by
    intro h
    have hstar : ['*'] <+: t := (List.cons_prefix_cons.mp (List.cons_prefix_cons.mp h).2).2
    exact ht '*' ((singleton_prefix_iff '*' t).mp hstar) rfl
  have hcmnt : "/*".toList <+: '/' :: '*' :: t := ⟨t, rfl⟩
  have hline : ¬ "//".toList <+: '/' :: '*' :: t := fun h =>
    absurd (List.cons_prefix_cons.mp (List.cons_prefix_cons.mp h).2).1 (by decide)
  rw [select_initial]
  refine select_eq_some_iff.mpr ⟨[⟨[.initial], word "/**", .beginDocCmnt⟩], _, rfl, ?_,
    Nat.succ_pos _, ?_, ?_⟩
  · rw [matched_initial, word, Pattern.longest_lit, if_pos hcmnt]
    rfl
  · simp only [List.forall_mem_cons]
    refine ⟨?_, by simp⟩
    rw [matched_word_eq_zero _ hdoc]
    exact Nat.succ_pos _
  · refine List.forall_mem_cons.mpr ⟨?_, List.forall_mem_cons.mpr
      ⟨?_, fun r hr => (matched_slash_le r hr).trans (by simp)⟩⟩
    · rw [matched_lineComment, if_neg hline]
      exact Nat.zero_le _
    · rw [matched_beginInclude_slash]
      exact Nat.zero_le _

/-- **The beginning of a documentation comment.** -/
theorem select_beginDocCmnt (t : List Char) :
    select lexerRules .initial ('/' :: '*' :: '*' :: t) =
      some (⟨[.initial], word "/**", .beginDocCmnt⟩, 3) := by
  have hdoc : "/**".toList <+: '/' :: '*' :: '*' :: t := ⟨t, rfl⟩
  have hcmnt : "/*".toList <+: '/' :: '*' :: '*' :: t := ⟨'*' :: t, rfl⟩
  have hline : ¬ "//".toList <+: '/' :: '*' :: '*' :: t := fun h =>
    absurd (List.cons_prefix_cons.mp (List.cons_prefix_cons.mp h).2).1 (by decide)
  rw [select_initial]
  refine select_eq_some_iff.mpr ⟨[], _, rfl, ?_, Nat.succ_pos _, by simp, ?_⟩
  · rw [matched_initial, word, Pattern.longest_lit, if_pos hdoc]
    rfl
  · refine List.forall_mem_cons.mpr ⟨?_, List.forall_mem_cons.mpr ⟨?_, List.forall_mem_cons.mpr
      ⟨?_, fun r hr => (matched_slash_le r hr).trans (by simp)⟩⟩⟩
    · rw [matched_initial, word, Pattern.longest_lit, if_pos hcmnt]
      decide
    · rw [matched_lineComment, if_neg hline]
      exact Nat.zero_le _
    · rw [matched_beginInclude_slash]
      exact Nat.zero_le _

/-- The quote before the name of a file. -/
def openingQuote (quoted : Bool) : List Char := if quoted then ['"'] else []

/-- The quote of an inclusion is matched if it is there. -/
private lemma longest_openingQuote {quoted : Bool}
    (h : quoted = false → ∀ a ∈ rest.head?, a ≠ '"') :
    (Pattern.opt (word "\"")).longest (openingQuote quoted ++ rest) =
      some (openingQuote quoted).length := by
  cases quoted with
  | true =>
    refine Pattern.longest_eq_some_iff.mpr
      ⟨['"'], rest, rfl, rfl, .inl (Pattern.mem_lang_lit.mpr rfl), ?_⟩
    rintro u v - (hu | hu)
    · rw [Pattern.mem_lang_lit.mp hu]
      exact le_rfl
    · rw [Pattern.mem_lang_empty.mp hu]
      exact Nat.zero_le _
  | false =>
    refine Pattern.longest_eq_some_iff.mpr
      ⟨[], rest, rfl, rfl, .inr (Pattern.mem_lang_empty.mpr rfl), ?_⟩
    rintro u v huv (hu | hu)
    · obtain rfl := Pattern.mem_lang_lit.mp hu
      have hrest : rest = '"' :: v := huv
      exact absurd rfl (h rfl '"' (by rw [hrest]; rfl))
    · rw [Pattern.mem_lang_empty.mp hu]
      exact le_rfl

/-- **The beginning of an `include`**, with the blanks and the quote before the name of the file. -/
theorem select_beginInclude {gap : List Char} {quoted : Bool} (hgap : ∀ a ∈ gap, a ∈ " \t".toList)
    (hsome : quoted = false → gap ≠ [])
    (hrest : quoted = false → ∀ a ∈ rest.head?, a ≠ '"' ∧ a ∉ " \t".toList) :
    ∃ r, select lexerRules .initial ("include".toList ++ (gap ++ (openingQuote quoted ++ rest))) =
      some (r, ("include".toList ++ (gap ++ openingQuote quoted)).length) ∧
        r.action = .beginInclude := by
  have hhead : ∀ a ∈ (openingQuote quoted ++ rest).head?, a ∉ " \t".toList := by
    intro a ha
    cases quoted with
    | true =>
      obtain rfl := Option.some.inj ha
      decide
    | false => exact (hrest rfl a ha).2
  have hnext : ∀ a ∈ (gap ++ (openingQuote quoted ++ rest)).head?, isWordChar a = false := by
    intro a ha
    cases gap with
    | nil =>
      cases quoted with
      | true =>
        obtain rfl := Option.some.inj ha
        decide
      | false => exact absurd rfl (hsome rfl)
    | cons b gap =>
      obtain rfl := Option.some.inj ha
      exact (by decide : ∀ a ∈ " \t".toList, isWordChar a = false) _ (hgap b (by simp))
  have hinclude : "include".toList <+: "include".toList ++ (gap ++ (openingQuote quoted ++ rest)) :=
    List.prefix_append _ _
  have hmatched : (⟨[.initial], .seq (word "include") (.seq (.star (oneOf " \t"))
      (.opt (word "\""))), .beginInclude⟩ : Rule StartCondition Action Char).matched .initial
        ("include".toList ++ (gap ++ (openingQuote quoted ++ rest))) =
      ("include".toList ++ (gap ++ openingQuote quoted)).length := by
    obtain ⟨htake, hdrop⟩ := takeWhile_append_of_head
      (p := fun c => decide (c ∈ " \t".toList)) (fun a ha => decide_eq_true (hgap a ha))
      fun a ha => decide_eq_false (hhead a ha)
    rw [matched_initial, word, Pattern.longest_seq_lit, if_pos hinclude, List.drop_left, oneOf,
      Pattern.longest_seq_star_one, hdrop, htake,
      longest_openingQuote fun hq a ha => (hrest hq a ha).1]
    · simp only [Option.map_some, Option.getD_some, List.length_append]
      omega
    · rintro d u hd (hu | hu)
      · obtain ⟨rfl, -⟩ := List.cons.inj (Pattern.mem_lang_lit.mp hu)
        exact absurd hd (by decide)
      · cases Pattern.mem_lang_empty.mp hu
  have hpos : 0 < ("include".toList ++ (gap ++ openingQuote quoted)).length := by
    rw [List.length_append]
    exact Nat.add_pos_left (by decide) _
  have hle : "include".toList.length ≤
      ("include".toList ++ (gap ++ openingQuote quoted)).length := by
    rw [List.length_append]
    exact Nat.le_add_right _ _
  have hnot : ∀ u : List Char,
      ¬ '/' :: u <+: "include".toList ++ (gap ++ (openingQuote quoted ++ rest)) := fun u h =>
    absurd (List.cons_prefix_cons.mp h).1 (by decide)
  have hdoc : ¬ "/**".toList <+: "include".toList ++ (gap ++ (openingQuote quoted ++ rest)) := hnot _
  have hcmnt : ¬ "/*".toList <+: "include".toList ++ (gap ++ (openingQuote quoted ++ rest)) := hnot _
  have hline : ¬ "//".toList <+: "include".toList ++ (gap ++ (openingQuote quoted ++ rest)) := hnot _
  rw [select_initial]
  refine ⟨_, select_eq_some_iff.mpr ⟨openingRules.take 3, _, rfl, hmatched, hpos, ?_, ?_⟩, rfl⟩
  · simp only [openingRules, List.take_succ_cons, List.take_zero, List.forall_mem_cons]
    refine ⟨?_, ?_, ?_, by simp⟩
    · rw [matched_word_eq_zero _ hdoc]
      exact hpos
    · rw [matched_word_eq_zero _ hcmnt]
      exact hpos
    · rw [matched_lineComment, if_neg hline]
      exact hpos
  · intro r hr
    refine le_trans ?_ hle
    have hr' : r ∈ reserved.map reservedRule ++ markRules ++
        [idRule, numericStringRule, newlineRule, otherRule] := hr
    simp only [List.mem_append, List.mem_cons] at hr'
    rcases hr' with (hr | hr) | rfl | hr
    · obtain ⟨x, hx, rfl⟩ := List.mem_map.mp hr
      exact (matched_reservedRule_le (by decide) (by decide) hnext hx).1
    · have hmark := matched_markRules (c := 'i')
        (t := "nclude".toList ++ (gap ++ (openingQuote quoted ++ rest))) (by decide) r hr
      exact hmark.le.trans (Nat.zero_le _)
    · exact (matched_idRule (c := 'i') (w := "nclude".toList) (by decide) (by decide) hnext).le
    · have hlast := matched_lastRules_le (c := 'i')
        ("nclude".toList ++ (gap ++ (openingQuote quoted ++ rest))) (by decide) r (by simpa using hr)
      exact hlast.trans (by decide)

/-- **The name of a file.** -/
theorem select_newFile (hc : isSeparator c = false) (hw : ∀ a ∈ w, isSeparator a = false)
    (hrest : ∀ a ∈ rest.head?, isSeparator a = true) :
    ∃ r, select lexerRules .«include» (c :: w ++ rest) = some (r, (c :: w).length) ∧
      r.action = .newFile := by
  have hrules : (lexerRules.filter fun r => decide (StartCondition.«include» ∈ r.conds)) =
      [⟨[.«include»], .plus (.one fun c => !isSeparator c), .newFile⟩, otherRule] := rfl
  have hmatched : (⟨[.«include»], .plus (.one fun c => !isSeparator c), .newFile⟩ :
      Rule StartCondition Action Char).matched .«include» (c :: w ++ rest) = (c :: w).length := by
    have htake : (w ++ rest).takeWhile (fun c => !isSeparator c) = w :=
      (takeWhile_append_of_head (fun a ha => by rw [hw a ha]; rfl)
        fun a ha => by rw [hrest a ha]; rfl).1
    rw [matched_of_mem _ _ (by decide), Pattern.plus, List.cons_append, Pattern.longest_seq_one,
      Pattern.longest_star_one, htake, hc]
    rfl
  rw [select_filter, hrules]
  refine ⟨_, select_eq_some_iff.mpr ⟨[], [otherRule], rfl, hmatched, Nat.succ_pos _, by simp, ?_⟩,
    rfl⟩
  intro r hr
  obtain rfl := List.mem_singleton.mp hr
  rw [otherRule, matched_of_mem _ _ (by decide), List.cons_append, longest_dot]
  split_ifs
  · exact Nat.zero_le _
  · exact Nat.succ_pos _

/-! ## Before a block of native code -/

/-- Where a block of native code goes. -/
inductive NativePlace where
  | impl
  | implementation
  | prologue
  | epilogue
  deriving DecidableEq, Repr

def NativePlace.text : NativePlace → List Char
  | .impl => "impl".toList
  | .implementation => "implementation".toList
  | .prologue => "prologue".toList
  | .epilogue => "epilogue".toList

def NativePlace.keyword : NativePlace → Keyword
  | .impl => .implementationKey
  | .implementation => .implementationKey
  | .prologue => .prologueKey
  | .epilogue => .epilogueKey

/-- Blanks and ends of lines. -/
def isBlank (c : Char) : Bool := decide (c = ' ' ∨ c = '\t' ∨ c = '\n')

/-- Blanks before a block are skipped. -/
theorem select_native_blank (hc : isBlank c = true) (t : List Char) :
    ∃ r, select lexerRules .native (c :: t) = some (r, 1) ∧ r.action = .skip := by
  rcases of_decide_eq_true hc with rfl | rfl | rfl
  all_goals cases t <;> exact ⟨_, rfl, rfl⟩

/-- **The words before a block**, which are followed by a blank or the block. -/
theorem select_native_place (p : NativePlace) (hc : isBlank c = true ∨ c = '\x7b') (t : List Char) :
    ∃ r, select lexerRules .native (p.text ++ c :: t) = some (r, p.text.length) ∧
      r.action = .keyword p.keyword := by
  have hcases : c = ' ' ∨ c = '\t' ∨ c = '\n' ∨ c = '\x7b' := by
    rcases hc with hc | rfl
    · rcases of_decide_eq_true hc with rfl | rfl | rfl <;> simp
    · simp
  cases p
  all_goals
    rcases hcases with rfl | rfl | rfl | rfl
    all_goals exact ⟨_, rfl, rfl⟩

end FsmLang
