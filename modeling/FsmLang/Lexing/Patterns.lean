import Mathlib.Computability.Language
import Mathlib.Tactic

set_option relaxedAutoImplicit false
set_option autoImplicit false

/-!
# Scanners with start conditions

A scanner is given by a list of rules: start conditions in which the rule is active, a pattern, and
an action. In a start condition, the pattern that matches the longest part of the input decides, and
the first rule among those that match as much.

Patterns are regular expressions over classes of characters. The longest match is found by taking
derivatives, one for each character, until the pattern that is left has no word.

## Main definitions

* `Pattern`, `Pattern.lang` — patterns and their languages.
* `Pattern.longest` — the length of the longest match.
* `Rule`, `select` — rules, and the one that is taken.

## Main results

* `Pattern.longest_eq_some_iff` — the longest match is the longest prefix in the language.
* `select_eq_some_iff` — the rule that is taken, with the length of its match.
-/

namespace Lexing

/-! ## Patterns -/

/-- A regular expression. -/
inductive Pattern (α : Type*) where
  | void
  | empty
  | one (p : α → Bool)
  | seq (p q : Pattern α)
  | alt (p q : Pattern α)
  | star (p : Pattern α)

namespace Pattern

variable {α : Type*}

/-- The characters of a word, one after the other. -/
def lit [DecidableEq α] (w : List α) : Pattern α :=
  w.foldr (fun a p => .seq (.one fun b => decide (b = a)) p) .empty

/-- One or more times. -/
def plus (p : Pattern α) : Pattern α := .seq p (.star p)

/-- At most once. -/
def opt (p : Pattern α) : Pattern α := .alt p .empty

/-- The words that match. -/
def lang : Pattern α → Language α
  | .void => 0
  | .empty => 1
  | .one p => { w | ∃ a, p a = true ∧ w = [a] }
  | .seq p q => p.lang * q.lang
  | .alt p q => p.lang + q.lang
  | .star p => KStar.kstar p.lang

/-- The empty word matches. -/
def nullable : Pattern α → Bool
  | .void => false
  | .empty => true
  | .one _ => false
  | .seq p q => p.nullable && q.nullable
  | .alt p q => p.nullable || q.nullable
  | .star _ => true

/-- No word matches, as far as can be seen without looking at the classes. -/
def isVoid : Pattern α → Bool
  | .void => true
  | .empty => false
  | .one _ => false
  | .seq p q => p.isVoid || q.isVoid
  | .alt p q => p.isVoid && q.isVoid
  | .star _ => false

/-- What is left to match after a character. -/
def deriv : Pattern α → α → Pattern α
  | .void, _ => .void
  | .empty, _ => .void
  | .one p, a => if p a then .empty else .void
  | .seq p q, a =>
    if p.nullable then .alt (.seq (p.deriv a) q) (q.deriv a) else .seq (p.deriv a) q
  | .alt p q, a => .alt (p.deriv a) (q.deriv a)
  | .star p, a => .seq (p.deriv a) (.star p)

/-- The length of the longest match at the beginning of the input. -/
def longest : Pattern α → List α → Option ℕ
  | p, [] => if p.nullable then some 0 else none
  | p, a :: s =>
    match if (p.deriv a).isVoid then none else (p.deriv a).longest s with
    | some n => some (n + 1)
    | none => if p.nullable then some 0 else none

/-! ### Languages -/

variable {p q : Pattern α} {a : α} {w s : List α} {n : ℕ}

/-- No word matches the void pattern. -/
@[simp] lemma mem_lang_void : ¬ w ∈ (void : Pattern α).lang := Language.notMem_zero w

/-- The empty word matches the empty pattern. -/
@[simp] lemma mem_lang_empty : w ∈ (empty : Pattern α).lang ↔ w = [] := Language.mem_one w

/-- A character matches a class of characters. -/
@[simp] lemma mem_lang_one {c : α → Bool} : w ∈ (one c).lang ↔ ∃ a, c a = true ∧ w = [a] := Iff.rfl

/-- A sequence matches words in two parts. -/
lemma mem_lang_seq : w ∈ (seq p q).lang ↔ ∃ u ∈ p.lang, ∃ v ∈ q.lang, u ++ v = w := Iff.rfl

/-- An alternative matches what one of its parts matches. -/
@[simp] lemma mem_lang_alt : w ∈ (alt p q).lang ↔ w ∈ p.lang ∨ w ∈ q.lang := Iff.rfl

/-- A word of a star is empty, or begins with a word of the pattern that is not. -/
lemma cons_mem_lang_star : a :: w ∈ (star p).lang ↔
    ∃ u v, a :: u ∈ p.lang ∧ v ∈ (star p).lang ∧ w = u ++ v := by
  constructor
  · intro h
    obtain ⟨L, hflat, hL⟩ := Language.mem_kstar_iff_exists_nonempty.mp h
    cases L with
    | nil => cases hflat
    | cons x L =>
      obtain ⟨hx, hrest⟩ := List.forall_mem_cons.mp hL
      obtain ⟨b, u, rfl⟩ := List.exists_cons_of_ne_nil hx.2
      obtain ⟨rfl, hw⟩ := List.cons.inj hflat
      exact ⟨u, L.flatten, hx.1, Language.join_mem_kstar fun y hy => (hrest y hy).1, hw⟩
  · rintro ⟨u, v, hu, hv, rfl⟩
    obtain ⟨L, rfl, hL⟩ := Language.mem_kstar.mp hv
    have hflat : a :: (u ++ L.flatten) = ((a :: u) :: L).flatten := by simp
    rw [hflat]
    exact Language.join_mem_kstar (List.forall_mem_cons.mpr ⟨hu, hL⟩)

/-- A pattern is nullable if the empty word matches it. -/
lemma nullable_iff : p.nullable = true ↔ [] ∈ p.lang := by
  induction p with
  | void => simp [nullable]
  | empty => simp [nullable]
  | one c => simp [nullable]
  | seq p q ihp ihq => simp [nullable, mem_lang_seq, ihp, ihq]
  | alt p q ihp ihq => simp [nullable, ihp, ihq]
  | star p _ => exact ⟨fun _ => Language.nil_mem_kstar p.lang, fun _ => rfl⟩

/-- A pattern without words. -/
lemma notMem_lang_of_isVoid (h : p.isVoid = true) (w : List α) : w ∉ p.lang := by
  induction p generalizing w with
  | void => exact mem_lang_void
  | empty => cases h
  | one c => cases h
  | seq p q ihp ihq =>
    rintro ⟨u, hu, v, hv, -⟩
    rcases Bool.or_eq_true_iff.mp h with h | h
    · exact ihp h u hu
    · exact ihq h v hv
  | alt p q ihp ihq =>
    obtain ⟨hp, hq⟩ := Bool.and_eq_true_iff.mp h
    exact fun hw => hw.elim (ihp hp w) (ihq hq w)
  | star p _ => cases h

/-- **Derivatives.** What may follow a character. -/
lemma mem_lang_deriv : w ∈ (p.deriv a).lang ↔ a :: w ∈ p.lang := by
  induction p generalizing w with
  | void => simp [deriv]
  | empty => simp [deriv]
  | one c => cases hc : c a <;> simp [deriv, hc]
  | alt p q ihp ihq => simp [deriv, ihp, ihq]
  | seq p q ihp ihq =>
    have hsplit : a :: w ∈ (seq p q).lang ↔
        w ∈ (seq (p.deriv a) q).lang ∨ p.nullable = true ∧ w ∈ (q.deriv a).lang := by
      simp only [mem_lang_seq, ihp, ihq, nullable_iff]
      constructor
      · rintro ⟨u, hu, v, hv, huv⟩
        cases u with
        | nil => exact .inr ⟨hu, huv ▸ hv⟩
        | cons b u =>
          obtain ⟨rfl, rfl⟩ := List.cons.inj huv
          exact .inl ⟨u, hu, v, hv, rfl⟩
      · rintro (⟨u, hu, v, hv, rfl⟩ | ⟨hnil, hw⟩)
        · exact ⟨a :: u, hu, v, hv, rfl⟩
        · exact ⟨[], hnil, a :: w, hw, rfl⟩
    rw [hsplit, deriv]
    split_ifs with hnull
    · simp [hnull]
    · simp [hnull]
  | star p ih =>
    rw [deriv, cons_mem_lang_star]
    constructor
    · rintro ⟨u, hu, v, hv, rfl⟩
      exact ⟨u, v, ih.mp hu, hv, rfl⟩
    · rintro ⟨u, v, hu, hv, rfl⟩
      exact ⟨u, ih.mpr hu, v, hv, rfl⟩

/-! ### Longest matches -/

/-- A void pattern has no longest match. -/
lemma longest_eq_none_of_isVoid (h : p.isVoid = true) (s : List α) : p.longest s = none := by
  have hnull : p.nullable = false := by
    rw [← Bool.not_eq_true, nullable_iff]
    exact notMem_lang_of_isVoid h []
  have hderiv : ∀ {p : Pattern α} (a : α), p.isVoid = true → (p.deriv a).isVoid = true := by
    intro p a hp
    induction p with
    | void => rfl
    | empty => cases hp
    | one c => cases hp
    | seq p q ihp ihq =>
      have hseq : ((p.deriv a).isVoid || q.isVoid) = true := by
        rcases Bool.or_eq_true_iff.mp hp with hp | hq
        · rw [ihp hp, Bool.true_or]
        · rw [hq, Bool.or_true]
      rw [deriv]
      split_ifs with hnull
      · have hpnot : p.isVoid = false := by
          by_contra hp'
          exact notMem_lang_of_isVoid (by simpa using hp') [] (nullable_iff.mp hnull)
        rw [isVoid, hpnot, Bool.false_or] at hp
        simp only [isVoid, hseq, ihq hp, Bool.and_self]
      · exact hseq
    | alt p q ihp ihq =>
      obtain ⟨hp, hq⟩ := Bool.and_eq_true_iff.mp hp
      simp only [deriv, isVoid, ihp hp, ihq hq, Bool.and_self]
    | star p _ => cases hp
  cases s with
  | nil => simp [longest, hnull]
  | cons a s => simp [longest, hderiv a h, hnull]

/-- The longest match, without looking at void patterns. -/
lemma longest_cons (p : Pattern α) (a : α) (s : List α) : p.longest (a :: s) =
    (((p.deriv a).longest s).map (· + 1)).or (if p.nullable then some 0 else none) := by
  rw [longest]
  cases hvoid : (p.deriv a).isVoid with
  | true =>
    rw [longest_eq_none_of_isVoid hvoid]
    rfl
  | false => cases (p.deriv a).longest s <;> rfl

/-- No part at the beginning matches. -/
lemma longest_eq_none_iff : p.longest s = none ↔ ∀ u v, s = u ++ v → u ∉ p.lang := by
  induction s generalizing p with
  | nil =>
    rw [longest]
    constructor
    · intro h u v huv hu
      obtain ⟨rfl, rfl⟩ := List.append_eq_nil_iff.mp huv.symm
      rw [if_pos (nullable_iff.mpr hu)] at h
      cases h
    · intro h
      rw [if_neg fun hnull => h [] [] rfl (nullable_iff.mp hnull)]
  | cons a s ih =>
    rw [longest_cons, Option.or_eq_none_iff, Option.map_eq_none_iff, ih]
    constructor
    · rintro ⟨hrest, hnull⟩ u v huv hu
      cases u with
      | nil =>
        rw [if_pos (nullable_iff.mpr hu)] at hnull
        cases hnull
      | cons b u =>
        obtain ⟨rfl, hs⟩ := List.cons.inj huv
        exact hrest u v hs (mem_lang_deriv.mpr hu)
    · intro h
      refine ⟨fun u v huv hu => h (a :: u) v (by rw [huv]; rfl) (mem_lang_deriv.mp hu), ?_⟩
      rw [if_neg fun hnull => h [] (a :: s) rfl (nullable_iff.mp hnull)]

/-- **The longest match.** It is in the language, and no longer part at the beginning is. -/
theorem longest_eq_some_iff : p.longest s = some n ↔
    ∃ u v, s = u ++ v ∧ u.length = n ∧ u ∈ p.lang ∧
      ∀ u' v', s = u' ++ v' → u' ∈ p.lang → u'.length ≤ n := by
  induction s generalizing p n with
  | nil =>
    rw [longest]
    constructor
    · intro h
      split_ifs at h with hnull
      obtain rfl := Option.some.inj h
      refine ⟨[], [], rfl, rfl, nullable_iff.mp hnull, fun u' v' huv _ => ?_⟩
      obtain ⟨rfl, rfl⟩ := List.append_eq_nil_iff.mp huv.symm
      exact le_rfl
    · rintro ⟨u, v, huv, rfl, hu, -⟩
      obtain ⟨rfl, rfl⟩ := List.append_eq_nil_iff.mp huv.symm
      rw [if_pos (nullable_iff.mpr hu)]
      rfl
  | cons a s ih =>
    rw [longest_cons, Option.or_eq_some_iff]
    constructor
    · rintro (h | ⟨hnone, hnull⟩)
      · obtain ⟨k, hk, rfl⟩ := Option.map_eq_some_iff.mp h
        obtain ⟨u, v, rfl, rfl, hu, hmax⟩ := ih.mp hk
        refine ⟨a :: u, v, rfl, rfl, mem_lang_deriv.mp hu, fun u' v' huv hu' => ?_⟩
        cases u' with
        | nil => exact Nat.zero_le _
        | cons b u' =>
          obtain ⟨rfl, hs⟩ := List.cons.inj huv
          exact Nat.succ_le_succ (hmax u' v' hs (mem_lang_deriv.mpr hu'))
      · split_ifs at hnull with hnil
        obtain rfl := Option.some.inj hnull
        refine ⟨[], a :: s, rfl, rfl, nullable_iff.mp hnil, fun u' v' huv hu' => ?_⟩
        cases u' with
        | nil => exact le_rfl
        | cons b u' =>
          obtain ⟨rfl, hs⟩ := List.cons.inj huv
          exact absurd (mem_lang_deriv.mpr hu')
            (longest_eq_none_iff.mp (Option.map_eq_none_iff.mp hnone) u' v' hs)
    · rintro ⟨u, v, huv, rfl, hu, hmax⟩
      cases u with
      | nil =>
        refine .inr ⟨?_, by rw [if_pos (nullable_iff.mpr hu)]; rfl⟩
        rw [Option.map_eq_none_iff, longest_eq_none_iff]
        intro u' v' hs hu'
        have hlen := hmax (a :: u') v' (by rw [hs]; rfl) (mem_lang_deriv.mp hu')
        simp at hlen
      | cons b u =>
        obtain ⟨rfl, rfl⟩ := List.cons.inj huv
        refine .inl (Option.map_eq_some_iff.mpr ⟨u.length, ih.mpr ⟨u, v, rfl, rfl,
          mem_lang_deriv.mpr hu, fun u' v' hs hu' => ?_⟩, rfl⟩)
        exact Nat.le_of_succ_le_succ (hmax (a :: u') v' (by rw [hs]; rfl) (mem_lang_deriv.mp hu'))

/-- The match of a class. -/
@[simp] lemma longest_one (c : α → Bool) (a : α) (s : List α) :
    (one c).longest (a :: s) = if c a then some 1 else none := by
  cases hc : c a with
  | true =>
    refine longest_eq_some_iff.mpr ⟨[a], s, rfl, rfl, ⟨a, hc, rfl⟩, ?_⟩
    rintro u' v' - ⟨b, -, rfl⟩
    exact le_rfl
  | false =>
    refine longest_eq_none_iff.mpr ?_
    rintro u v huv ⟨b, hb, rfl⟩
    obtain ⟨rfl, -⟩ := List.cons.inj huv
    rw [hc] at hb
    cases hb

/-- A literal pattern matches its own word. -/
lemma mem_lang_lit [DecidableEq α] {w u : List α} : u ∈ (lit w).lang ↔ u = w := by
  induction w generalizing u with
  | nil => exact mem_lang_empty
  | cons a w ih =>
    constructor
    · rintro ⟨x, ⟨b, hb, rfl⟩, v, hv, rfl⟩
      obtain rfl := of_decide_eq_true hb
      obtain rfl := ih.mp hv
      rfl
    · rintro rfl
      exact ⟨[a], ⟨a, decide_eq_true rfl, rfl⟩, w, ih.mpr rfl, rfl⟩

/-- The match of a word. -/
@[simp] lemma longest_lit [DecidableEq α] (w s : List α) :
    (lit w).longest s = if w <+: s then some w.length else none := by
  split_ifs with hprefix
  · obtain ⟨v, rfl⟩ := hprefix
    refine longest_eq_some_iff.mpr ⟨w, v, rfl, rfl, mem_lang_lit.mpr rfl, ?_⟩
    intro u' v' _ hu'
    rw [mem_lang_lit.mp hu']
  · refine longest_eq_none_iff.mpr fun u v huv hu => hprefix ?_
    rw [← mem_lang_lit.mp hu, huv]
    exact List.prefix_append u v

end Pattern

/-! ## Rules -/

/-- A rule of a scanner. -/
structure Rule (σ ι α : Type*) where
  conds : List σ
  pattern : Pattern α
  action : ι

section Rules

variable {σ ι α : Type*} [DecidableEq σ]

/-- How much of the input the rule matches. Empty matches do not count. -/
def Rule.matched (r : Rule σ ι α) (cond : σ) (s : List α) : ℕ :=
  if cond ∈ r.conds then (r.pattern.longest s).getD 0 else 0

/-- The rule with the longest match, the first one of those, and the length of its match. -/
def select : List (Rule σ ι α) → σ → List α → Option (Rule σ ι α × ℕ)
  | [], _, _ => none
  | r :: rs, cond, s =>
    match select rs cond s with
    | none => if 0 < r.matched cond s then some (r, r.matched cond s) else none
    | some (r', n) => if n ≤ r.matched cond s then some (r, r.matched cond s) else some (r', n)

variable {rules : List (Rule σ ι α)} {cond : σ} {s : List α} {r : Rule σ ι α} {n : ℕ}

/-- No rule is selected exactly if none matches a character. -/
lemma select_eq_none_iff :
    select rules cond s = none ↔ ∀ r ∈ rules, r.matched cond s = 0 := by
  induction rules with
  | nil => simp [select]
  | cons r rs ih =>
    rw [select, List.forall_mem_cons, ← ih]
    cases select rs cond s with
    | none => simp
    | some rn =>
      simp only [reduceCtorEq, and_false, iff_false]
      split_ifs <;> simp

/-- **The rule that is taken.** It matches more than the rules before it, and no less than those
after it. -/
theorem select_eq_some_iff : select rules cond s = some (r, n) ↔
    ∃ before after, rules = before ++ r :: after ∧ r.matched cond s = n ∧ 0 < n ∧
      (∀ r' ∈ before, r'.matched cond s < n) ∧ ∀ r' ∈ after, r'.matched cond s ≤ n := by
  induction rules generalizing r n with
  | nil => simp [select]
  | cons r₁ rs ih =>
    constructor
    · intro h
      rw [select] at h
      cases hrest : select rs cond s with
      | none =>
        rw [hrest] at h
        dsimp only at h
        split_ifs at h with hpos
        obtain ⟨rfl, rfl⟩ := Prod.mk.inj (Option.some.inj h)
        refine ⟨[], rs, rfl, rfl, hpos, by simp, fun r' hr' => ?_⟩
        rw [select_eq_none_iff.mp hrest r' hr']
        exact Nat.zero_le _
      | some rn =>
        obtain ⟨r₂, k⟩ := rn
        rw [hrest] at h
        dsimp only at h
        obtain ⟨before, after, hrs, hk, hpos, hbefore, hafter⟩ := ih.mp hrest
        split_ifs at h with hle
        · obtain ⟨rfl, rfl⟩ := Prod.mk.inj (Option.some.inj h)
          refine ⟨[], rs, rfl, rfl, hpos.trans_le hle, by simp, fun r' hr' => ?_⟩
          rw [hrs, List.mem_append, List.mem_cons] at hr'
          rcases hr' with hr' | rfl | hr'
          · exact (hbefore r' hr').le.trans hle
          · exact hk.le.trans hle
          · exact (hafter r' hr').trans hle
        · obtain ⟨rfl, rfl⟩ := Prod.mk.inj (Option.some.inj h)
          refine ⟨r₁ :: before, after, by rw [hrs]; rfl, hk, hpos, ?_, hafter⟩
          exact List.forall_mem_cons.mpr ⟨not_le.mp hle, hbefore⟩
    · rintro ⟨before, after, hrules, rfl, hpos, hbefore, hafter⟩
      rw [select]
      cases before with
      | nil =>
        obtain ⟨rfl, rfl⟩ := List.cons.inj hrules
        cases hrest : select rs cond s with
        | none => simp [hpos]
        | some rn =>
          obtain ⟨r₂, k⟩ := rn
          obtain ⟨before, after, rfl, rfl, -⟩ := ih.mp hrest
          exact if_pos (hafter r₂ (by simp))
      | cons r₂ before =>
        obtain ⟨rfl, rfl⟩ := List.cons.inj hrules
        obtain ⟨hfirst, hbefore⟩ := List.forall_mem_cons.mp hbefore
        rw [ih.mpr ⟨before, after, rfl, rfl, hpos, hbefore, hafter⟩]
        exact if_neg (not_le.mpr hfirst)

/-- The rule that is taken is active, and its longest match is not empty. -/
lemma select_spec (h : select rules cond s = some (r, n)) :
    r ∈ rules ∧ cond ∈ r.conds ∧ 0 < n ∧ r.pattern.longest s = some n := by
  obtain ⟨before, after, rfl, hn, hpos, -, -⟩ := select_eq_some_iff.mp h
  rw [Rule.matched] at hn
  split_ifs at hn with hcond
  · refine ⟨by simp, hcond, hpos, ?_⟩
    cases hlongest : r.pattern.longest s with
    | none =>
      rw [hlongest] at hn
      exact absurd hn hpos.ne
    | some k =>
      rw [hlongest, Option.getD_some] at hn
      rw [hn]
  · omega

/-- Rules that are not active do not count. -/
lemma select_filter (rules : List (Rule σ ι α)) (cond : σ) (s : List α) :
    select rules cond s = select (rules.filter fun r => decide (cond ∈ r.conds)) cond s := by
  induction rules with
  | nil => rfl
  | cons r rs ih =>
    by_cases hcond : cond ∈ r.conds
    · rw [List.filter_cons_of_pos (by simpa using hcond), select, select, ih]
    · rw [List.filter_cons_of_neg (by simpa using hcond), ← ih, select]
      have hzero : r.matched cond s = 0 := if_neg hcond
      cases hrest : select rs cond s with
      | none => simp [hzero]
      | some rn =>
        obtain ⟨r', n⟩ := rn
        obtain ⟨-, -, -, -, hpos, -, -⟩ := select_eq_some_iff.mp hrest
        exact if_neg (by omega)

end Rules

end Lexing
