import FsmLang.Lexing.Patterns
import Mathlib.Tactic

set_option relaxedAutoImplicit false
set_option autoImplicit false

/-!
# Longest matches of sequences

The longest match depends on the language of a pattern only. For what scanners are made of (words,
characters of a class, runs of such characters) it is computed from the input.

## Main results

* `Pattern.longest_congr` — patterns of the same language.
* `Pattern.longest_star_one` — runs of characters.
* `Pattern.longest_seq_lit`, `Pattern.longest_seq_star_one` — what comes after a word or a run.
* `exists_select_of_matched` — a rule that is taken is among the first ones, if one of them matches
  as much as any rule.
-/

namespace Lexing

namespace Pattern

variable {α : Type*} {p q : Pattern α} {c : α → Bool} {a : α} {w s : List α}

/-- The longest match depends on the language only. -/
lemma longest_congr (h : p.lang = q.lang) (s : List α) : p.longest s = q.longest s := by
  ext n
  show p.longest s = some n ↔ q.longest s = some n
  rw [longest_eq_some_iff, longest_eq_some_iff, h]

/-- The words of a derivative. -/
lemma lang_deriv (p : Pattern α) (a : α) : (p.deriv a).lang = { w | a :: w ∈ p.lang } := by
  ext w
  exact mem_lang_deriv

/-- The empty pattern matches no character. -/
@[simp] lemma longest_empty (s : List α) : (empty : Pattern α).longest s = some 0 := by
  cases s <;> rfl

/-- A character of a class, and what comes after it. -/
lemma longest_seq_one (c : α → Bool) (p : Pattern α) (a : α) (s : List α) :
    (seq (one c) p).longest (a :: s) = if c a then (p.longest s).map (· + 1) else none := by
  have hnull : (seq (one c) p).nullable = false := rfl
  have hderiv : (seq (one c) p).deriv a = seq (if c a then empty else void) p := rfl
  rw [longest_cons, hnull, hderiv]
  simp only [Bool.false_eq_true, if_false, Option.or_none]
  split_ifs with hc
  · have hlang : (seq empty p).lang = p.lang := one_mul p.lang
    rw [longest_congr hlang]
  · rw [longest_eq_none_of_isVoid rfl]
    rfl

/-- A word, and what comes after it. -/
lemma longest_seq_lit [DecidableEq α] (w : List α) (p : Pattern α) (s : List α) :
    (seq (lit w) p).longest s =
      if w <+: s then (p.longest (s.drop w.length)).map (· + w.length) else none := by
  induction w generalizing s with
  | nil =>
    have hlang : (seq (lit []) p).lang = p.lang := one_mul p.lang
    rw [longest_congr hlang, if_pos List.nil_prefix, List.length_nil, List.drop_zero]
    cases p.longest s <;> rfl
  | cons b w ih =>
    have hlang : (seq (lit (b :: w)) p).lang =
        (seq (one fun a => decide (a = b)) (seq (lit w) p)).lang := mul_assoc _ _ _
    rw [longest_congr hlang]
    cases s with
    | nil =>
      rw [if_neg (by simp)]
      rfl
    | cons a s =>
      rw [longest_seq_one, ih, List.length_cons, List.drop_succ_cons]
      by_cases hab : a = b
      · subst hab
        simp only [List.cons_prefix_cons, true_and, decide_true, if_true]
        split_ifs with hw
        · rw [Option.map_map]
          rfl
        · rfl
      · simp only [List.cons_prefix_cons, Ne.symm hab, false_and, decide_eq_false hab,
          Bool.false_eq_true, if_false]

/-- **A run of characters, and what comes after it**, if that cannot begin with such a character. -/
lemma longest_seq_star_one (h : ∀ a w, c a = true → a :: w ∉ p.lang) (s : List α) :
    (seq (star (one c)) p).longest s =
      (p.longest (s.dropWhile c)).map (· + (s.takeWhile c).length) := by
  induction s with
  | nil => cases hp : p.nullable <;> simp [longest, nullable, hp]
  | cons a s ih =>
    have hnull : (seq (star (one c)) p).nullable = p.nullable := Bool.true_and _
    rw [longest_cons, hnull]
    cases hc : c a with
    | true =>
      -- the character belongs to the run
      have hlang : ((seq (star (one c)) p).deriv a).lang = (seq (star (one c)) p).lang := by
        rw [lang_deriv]
        ext w
        show a :: w ∈ (seq (star (one c)) p).lang ↔ w ∈ (seq (star (one c)) p).lang
        rw [mem_lang_seq, mem_lang_seq]
        constructor
        · rintro ⟨u, hu, v, hv, huv⟩
          cases u with
          | nil => exact absurd (show a :: w ∈ p.lang from huv ▸ hv) (h a w hc)
          | cons b u =>
            obtain ⟨rfl, rfl⟩ := List.cons.inj huv
            obtain ⟨x, y, ⟨d, -, hx⟩, hy, rfl⟩ := cons_mem_lang_star.mp hu
            obtain ⟨-, rfl⟩ := List.cons.inj hx
            exact ⟨y, hy, v, hv, rfl⟩
        · rintro ⟨u, hu, v, hv, rfl⟩
          exact ⟨a :: u, cons_mem_lang_star.mpr ⟨[], u, ⟨a, hc, rfl⟩, hu, rfl⟩, v, hv, rfl⟩
      rw [longest_congr hlang, ih, List.dropWhile_cons_of_pos hc, List.takeWhile_cons_of_pos hc,
        List.length_cons, Option.map_map]
      cases hp : p.longest (s.dropWhile c) with
      | none =>
        have hnot : p.nullable ≠ true := fun hp' =>
          longest_eq_none_iff.mp hp [] _ rfl (nullable_iff.mp hp')
        rw [if_neg hnot]
        rfl
      | some n => rfl
    | false =>
      -- the run is over
      have hlang : ((seq (star (one c)) p).deriv a).lang = (p.deriv a).lang := by
        rw [lang_deriv, lang_deriv]
        ext w
        show a :: w ∈ (seq (star (one c)) p).lang ↔ a :: w ∈ p.lang
        rw [mem_lang_seq]
        constructor
        · rintro ⟨u, hu, v, hv, huv⟩
          cases u with
          | nil => exact huv ▸ hv
          | cons b u =>
            obtain ⟨x, y, ⟨d, hd, hx⟩, -, -⟩ := cons_mem_lang_star.mp hu
            obtain ⟨rfl, -⟩ := List.cons.inj hx
            obtain ⟨rfl, -⟩ := List.cons.inj huv
            rw [hc] at hd
            cases hd
        · intro hw
          exact ⟨[], Language.nil_mem_kstar _, a :: w, hw, rfl⟩
      rw [longest_congr hlang, ← longest_cons, List.dropWhile_cons_of_neg (by simp [hc]),
        List.takeWhile_cons_of_neg (by simp [hc])]
      cases p.longest (a :: s) <;> rfl

/-- **A run of characters.** -/
@[simp] lemma longest_star_one (c : α → Bool) (s : List α) :
    (star (one c)).longest s = some (s.takeWhile c).length := by
  have hlang : (star (one c)).lang = (seq (star (one c)) empty).lang := (mul_one _).symm
  rw [longest_congr hlang, longest_seq_star_one (by simp), longest_empty, Option.map_some,
    Nat.zero_add]

end Pattern

namespace Members

variable {α : Type*} {P : α → Prop} [DecidablePred P]

/-- What holds of the members of a text is decided on the text, not on all characters. -/
scoped instance (priority := high) decidableForallMem (s : List α) : Decidable (∀ a ∈ s, P a) :=
  s.decidableBAll P

scoped instance (priority := high) decidableForallMemOption (o : Option α) :
    Decidable (∀ a ∈ o, P a) := o.decidableForallMem

end Members

/-- If one of the rules of a list matches as much as any rule, one of that list is taken. -/
lemma exists_select_of_matched {σ ι α : Type*} [DecidableEq σ] {before after : List (Rule σ ι α)}
    {cond : σ} {s : List α} {n : ℕ} (hn : 0 < n) (hr : ∃ r ∈ before, r.matched cond s = n)
    (hbefore : ∀ r ∈ before, r.matched cond s ≤ n) (hafter : ∀ r ∈ after, r.matched cond s ≤ n) :
    ∃ r ∈ before, select (before ++ after) cond s = some (r, n) ∧ r.matched cond s = n := by
  induction before with
  | nil => simp at hr
  | cons r before ih =>
    obtain ⟨hfirst, hrest⟩ := List.forall_mem_cons.mp hbefore
    by_cases hmatched : r.matched cond s = n
    · refine ⟨r, by simp, select_eq_some_iff.mpr ⟨[], before ++ after, rfl, hmatched, hn, by simp,
        ?_⟩, hmatched⟩
      intro r' hr'
      rcases List.mem_append.mp hr' with hr' | hr'
      · exact hrest r' hr'
      · exact hafter r' hr'
    · have hlt := lt_of_le_of_ne hfirst hmatched
      obtain ⟨r', hr', hselect, hmatched'⟩ := ih (by
        obtain ⟨r', hr', h⟩ := hr
        rcases List.mem_cons.mp hr' with rfl | hr'
        · exact absurd h hmatched
        · exact ⟨r', hr', h⟩) hrest
      obtain ⟨l, l', hsplit, hk, -, hl, hl'⟩ := select_eq_some_iff.mp hselect
      refine ⟨r', List.mem_cons_of_mem r hr', select_eq_some_iff.mpr ⟨r :: l, l', ?_, hk, hn, ?_,
        hl'⟩, hmatched'⟩
      · rw [List.cons_append, hsplit, List.cons_append]
      · exact List.forall_mem_cons.mpr ⟨hlt, hl⟩

end Lexing
