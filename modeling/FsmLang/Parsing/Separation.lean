import Mathlib.Data.List.Basic
import Mathlib.Logic.Function.Basic
import Mathlib.Tactic

set_option relaxedAutoImplicit false
set_option autoImplicit false

/-!
# Texts that are read back in one way

The phrases of a language are values that are printed as lists of tokens. A value is read back if no
other value is printed as the beginning of a text that starts with it. In general this needs that
what follows in the text is known to begin in a certain way: a list ends where no further member can
begin.

The rules are for values that are put together of others: optional parts and lists. They ask for
disjoint sets of first tokens where there is a choice.

## Main definitions

* `Begins` — how a text begins.
* `ReadsBack` — the value is read back, wherever it is followed by such a text.
* `Starts` — the tokens that a printed value starts with.

## Main results

* `ReadsBack.option`, `ReadsBack.flatMap` — the rules for optional parts and for lists.
* `Starts.begins_flatMap` — how a list of printed values begins.
-/

namespace Parsing

variable {τ α β : Type*}

/-- The text is empty or begins with one of the tokens. -/
def Begins (first : τ → Prop) (text : List τ) : Prop := ∀ c ∈ text.head?, first c

/-- A printed value is not empty and starts with one of the tokens. -/
def Starts (print : α → List τ) (first : τ → Prop) : Prop :=
  ∀ a, ∃ c text, print a = c :: text ∧ first c

/-- In a text that begins with `a`, and goes on as `next` has it, nothing else than `a` can be read,
and the rest of the text is the same. -/
def ReadsBack (print : α → List τ) (next : τ → Prop) (a : α) : Prop :=
  ∀ b r r', Begins next r → Begins next r' → print a ++ r = print b ++ r' → a = b ∧ r = r'

section Begins

variable {first next : τ → Prop} {c : τ} {text : List τ}

/-- The empty text begins with anything. -/
@[simp] lemma begins_nil : Begins first ([] : List τ) := by
  simp [Begins]

/-- A text begins with its first token. -/
@[simp] lemma begins_cons : Begins first (c :: text) ↔ first c := by
  simp [Begins]

/-- What may begin a text may be one of more. -/
lemma Begins.mono (h : Begins first text) (hn : ∀ c, first c → next c) : Begins next text :=
  fun c hc => hn c (h c hc)

/-- A printed value, and what follows. -/
lemma Starts.begins {print : α → List τ} (h : Starts print first) (a : α) :
    Begins first (print a ++ text) := by
  obtain ⟨c, rest, hprint, hc⟩ := h a
  rw [hprint, List.cons_append, begins_cons]
  exact hc

/-- A text does not begin with a printed value if it begins with other tokens. -/
lemma Starts.append_ne {print : α → List τ} (h : Starts print first) (htext : Begins next text)
    (hdisj : ∀ c, first c → ¬ next c) (a : α) (r : List τ) : print a ++ r ≠ text := by
  rintro rfl
  obtain ⟨c, rest, hprint, hc⟩ := h a
  rw [hprint, List.cons_append, begins_cons] at htext
  exact hdisj c hc htext

/-- A printer that prints something starts with what the text begins with. -/
lemma starts_of_begins {print : α → List τ} (hne : ∀ a, print a ≠ [])
    (h : ∀ a, Begins first (print a)) : Starts print first := by
  intro a
  have ha := h a
  cases hprint : print a with
  | nil => exact absurd hprint (hne a)
  | cons c rest =>
    rw [hprint, begins_cons] at ha
    exact ⟨c, rest, rfl, ha⟩

/-- A list of printed values, and what follows. -/
lemma Starts.begins_flatMap {print : α → List τ} (h : Starts print first)
    (hf : ∀ c, first c → next c) (htext : Begins next text) (l : List α) :
    Begins next (l.flatMap print ++ text) := by
  cases l with
  | nil => exact htext
  | cons a l =>
    rw [List.flatMap_cons, List.append_assoc]
    exact (h.begins a).mono hf

/-- An optional value, and what follows. -/
lemma Starts.begins_option {print : α → List τ} (h : Starts print first)
    (hf : ∀ c, first c → next c) (htext : Begins next text) (o : Option α) :
    Begins next (o.elim [] print ++ text) := by
  cases o with
  | none => exact htext
  | some a => exact (h.begins a).mono hf

end Begins

/-! ## Rules -/

section Rules

variable {print : α → List τ} {first next next' : τ → Prop}

/-- One token that tells the value. -/
lemma readsBack_singleton {g : α → τ} (hg : Function.Injective g) (a : α) :
    ReadsBack (fun a => [g a]) next a := by
  intro b r r' _ _ heq
  obtain ⟨hab, hr⟩ := List.cons.inj heq
  exact ⟨hg hab, hr⟩

/-- A number of equal tokens, before other ones. -/
lemma readsBack_replicate (c : τ) (n : ℕ) :
    ReadsBack (fun n => List.replicate n c) (fun c' => c' ≠ c) n := by
  intro m r r' hr hr' heq
  induction n generalizing m with
  | zero =>
    cases m with
    | zero => exact ⟨rfl, heq⟩
    | succ m =>
      rw [show r = c :: (List.replicate m c ++ r') from heq, begins_cons] at hr
      exact absurd rfl hr
  | succ n ih =>
    cases m with
    | zero =>
      rw [show r' = c :: (List.replicate n c ++ r) from heq.symm, begins_cons] at hr'
      exact absurd rfl hr'
    | succ m =>
      obtain ⟨rfl, hrest⟩ := ih m (List.cons.inj heq).2
      exact ⟨rfl, hrest⟩

/-- A value behind a fixed token. -/
lemma ReadsBack.cons {a : α} (h : ReadsBack print next a) (c : τ) :
    ReadsBack (fun a => c :: print a) next a :=
  fun b r r' hr hr' heq => h b r r' hr hr' (List.cons.inj heq).2

/-- An optional value: what follows must not look like one. -/
lemma ReadsBack.option (hstarts : Starts print first) (hdisj : ∀ c, first c → ¬ next c)
    {o : Option α} (h : ∀ a ∈ o, ReadsBack print next a) :
    ReadsBack (fun o : Option α => o.elim [] print) next o := by
  intro o' r r' hr hr' heq
  cases o with
  | none =>
    cases o' with
    | none => exact ⟨rfl, heq⟩
    | some b => exact absurd heq.symm (hstarts.append_ne hr hdisj b r')
  | some a =>
    cases o' with
    | none => exact absurd heq (hstarts.append_ne hr' hdisj a r)
    | some b =>
      obtain ⟨rfl, hrest⟩ := h a rfl b r r' hr hr' heq
      exact ⟨rfl, hrest⟩

/-- A list: each member may be followed by another one, and what follows the list must not look like
one. -/
lemma ReadsBack.flatMap (hstarts : Starts print first) (hdisj : ∀ c, first c → ¬ next c)
    {l : List α} (h : ∀ a ∈ l, ReadsBack print (fun c => first c ∨ next c) a) :
    ReadsBack (fun l : List α => l.flatMap print) next l := by
  have hbegins : ∀ (l : List α) (r : List τ), Begins next r →
      Begins (fun c => first c ∨ next c) (l.flatMap print ++ r) := fun l r hr =>
    hstarts.begins_flatMap (fun c hc => .inl hc) (hr.mono fun c hc => .inr hc) l
  induction l with
  | nil =>
    rintro (_ | ⟨b, l'⟩) r r' hr hr' heq
    · exact ⟨rfl, heq⟩
    · simp only [List.flatMap_cons, List.append_assoc] at heq
      exact absurd heq.symm (hstarts.append_ne hr hdisj b _)
  | cons a l ih =>
    rintro (_ | ⟨b, l'⟩) r r' hr hr' heq
    · simp only [List.flatMap_cons, List.append_assoc] at heq
      exact absurd heq (hstarts.append_ne hr' hdisj a _)
    · simp only [List.flatMap_cons, List.append_assoc] at heq
      obtain ⟨rfl, hrest⟩ := h a (by simp) b _ _ (hbegins l r hr) (hbegins l' r' hr') heq
      obtain ⟨rfl, hr⟩ := ih (fun a ha => h a (by simp [ha])) l' r r' hr hr' hrest
      exact ⟨rfl, hr⟩

end Rules

end Parsing
