import Mathlib.Data.List.Basic
import Mathlib.Tactic

set_option relaxedAutoImplicit false
set_option autoImplicit false

/-!
# Iteration with a callback

A list is walked from its head with a callback that may change the state and, by returning
`true`, ends the walk. Callbacks that walk over further lists nest: the inner walk's result
decides the outer callback's.

## Main definitions

* `iterate` — the walk, with the state it ends in and whether the callback ended it.
* `StepSpec` — what a callback does in terms of the items that the walk has dealt with so far.
* `iterateTest`, `iterateFilter` — walks with a callback that changes nothing but may fail to
  return, as one that follows a null pointer does.

## Main results

* `StepSpec.iterate` — a callback with a specification makes a walk with the same
  specification, so that specifications of nested walks compose.
-/

namespace CSemantics

variable {α β γ σ : Type*}

/-- Walk over a list, ending when the callback returns `true`. -/
def iterate (f : σ → α → σ × Bool) (s : σ) : List α → σ × Bool
  | [] => (s, false)
  | a :: as =>
    match f s a with
    | (s', true) => (s', true)
    | (s', false) => iterate f s' as

/-- Nothing is done for no elements. -/
@[simp] lemma iterate_nil (f : σ → α → σ × Bool) (s : σ) : iterate f s [] = (s, false) := rfl

/-- A callback that lets the walk go on. -/
lemma iterate_cons_of_false {f : σ → α → σ × Bool} {s : σ} {a : α} (h : (f s a).2 = false)
    (as : List α) : iterate f s (a :: as) = iterate f (f s a).1 as := by
  rw [iterate]
  rcases hf : f s a with ⟨s', b⟩
  obtain rfl : b = false := by simpa [hf] using h
  rfl

/-- A callback that ends the walk. -/
lemma iterate_cons_of_true {f : σ → α → σ × Bool} {s : σ} {a : α} (h : (f s a).2 = true)
    (as : List α) : iterate f s (a :: as) = ((f s a).1, true) := by
  rw [iterate]
  rcases hf : f s a with ⟨s', b⟩
  obtain rfl : b = true := by simpa [hf] using h
  rfl

/-- Either the walk goes on, in a state that fits the items dealt with so far and the new ones
`items`, or it ends in a failed state, and the items are bad however they continue. -/
structure StepSpec (Good : List β → σ → Prop) (Bad : List β → Prop) (Failed : σ → Prop)
    (done : List β) (items : List β) (r : σ × Bool) : Prop where
  good : r.2 = false → Good (done ++ items) r.1
  failed : r.2 = true → Failed r.1
  bad : r.2 = true → ∀ more, Bad (done ++ items ++ more)

/-- What a step is known to do, with more said about the state it leaves. -/
lemma StepSpec.of_good {Good Good' : List β → σ → Prop} {Bad : List β → Prop} {Failed : σ → Prop}
    {done items : List β} {r : σ × Bool} (h : StepSpec Good Bad Failed done items r)
    (hgood : r.2 = false → Good (done ++ items) r.1 → Good' (done ++ items) r.1) :
    StepSpec Good' Bad Failed done items r :=
  ⟨fun hr => hgood hr (h.good hr), h.failed, h.bad⟩

/-- **Walks keep specifications.** If the callback deals with the items `g a` of each element
`a`, the walk deals with the items of all of them. -/
theorem StepSpec.iterate {Good : List β → σ → Prop} {Bad : List β → Prop} {Failed : σ → Prop}
    {f : σ → α → σ × Bool} {g : α → List β} (as : List α)
    (hstep : ∀ a ∈ as, ∀ done s, Good done s → StepSpec Good Bad Failed done (g a) (f s a))
    (done : List β) (s : σ) (hs : Good done s) :
    StepSpec Good Bad Failed done (as.flatMap g) (CSemantics.iterate f s as) := by
  induction as generalizing done s with
  | nil => exact ⟨fun _ => by simpa using hs, by simp, by simp⟩
  | cons a as ih =>
    have ha := hstep a (by simp) done s hs
    have ih := ih fun a' ha' => hstep a' (List.mem_cons_of_mem a ha')
    cases hb : (f s a).2 with
    | true =>
      rw [iterate_cons_of_true hb]
      refine ⟨by simp, fun _ => ha.failed hb, ?_⟩
      intro _ more
      have := ha.bad hb (as.flatMap g ++ more)
      simpa using this
    | false =>
      rw [iterate_cons_of_false hb]
      have hrest := ih (done ++ g a) (f s a).1 (ha.good hb)
      refine ⟨?_, hrest.failed, ?_⟩
      · intro h
        simpa using hrest.good h
      · intro h more
        simpa using hrest.bad h more

/-! ## Callbacks that only test -/

/-- Walk over a list until the callback holds. -/
def iterateTest (f : α → Option Bool) : List α → Option Bool
  | [] => some false
  | a :: as => (f a).bind fun b => if b then some true else iterateTest f as

/-- Walk over a whole list, with the elements for which the callback holds. -/
def iterateFilter (f : α → Option Bool) : List α → Option (List α)
  | [] => some []
  | a :: as => (f a).bind fun b => (iterateFilter f as).map fun r => if b then a :: r else r

/-- A callback that returns. -/
lemma iterateTest_eq {f : α → Option Bool} {g : α → Bool} {as : List α}
    (h : ∀ a ∈ as, f a = some (g a)) : iterateTest f as = some (as.any g) := by
  induction as with
  | nil => rfl
  | cons a as ih =>
    have ih := ih fun b hb => h b (List.mem_cons_of_mem a hb)
    rw [iterateTest, h a (by simp), Option.bind_some, ih, List.any_cons]
    cases g a <;> simp

/-- A walk that returns has found what there is to be found. -/
lemma eq_any_of_iterateTest {f : α → Option Bool} {g : α → Bool} {as : List α}
    (h : ∀ a ∈ as, ∀ b, f a = some b → b = g a) {found : Bool}
    (hfound : iterateTest f as = some found) : found = as.any g := by
  induction as with
  | nil => exact (Option.some.inj hfound).symm
  | cons a as ih =>
    have ih := ih fun b hb => h b (List.mem_cons_of_mem a hb)
    rw [iterateTest, Option.bind_eq_some_iff] at hfound
    obtain ⟨b, hb, hrest⟩ := hfound
    rw [List.any_cons, ← h a (by simp) b hb]
    cases b with
    | true => simpa using hrest.symm
    | false => simpa using ih hrest

/-- A walk does not return if the callback does not, before it has held for an element. -/
lemma iterateTest_eq_none_iff {f : α → Option Bool} {as : List α} :
    iterateTest f as = none ↔
      ∃ l a r, as = l ++ a :: r ∧ f a = none ∧ ∀ b ∈ l, f b = some false := by
  induction as with
  | nil => simp [iterateTest]
  | cons a as ih =>
    rw [iterateTest]
    constructor
    · intro h
      match hfa : f a with
      | none => exact ⟨[], a, as, rfl, hfa, by simp⟩
      | some true => simp [hfa] at h
      | some false =>
        obtain ⟨l, c, r, rfl, hc, hl⟩ := ih.mp (by simpa [hfa] using h)
        exact ⟨a :: l, c, r, rfl, hc, List.forall_mem_cons.mpr ⟨hfa, hl⟩⟩
    · rintro ⟨l, c, r, heq, hc, hl⟩
      cases l with
      | nil =>
        obtain ⟨rfl, -⟩ := List.cons.inj heq
        simp [hc]
      | cons d l =>
        obtain ⟨rfl, rfl⟩ := List.cons.inj heq
        obtain ⟨hfa, hl⟩ := List.forall_mem_cons.mp hl
        simpa [hfa] using ih.mpr ⟨l, c, r, rfl, hc, hl⟩

/-- A filter that answers for every element keeps those it answers for. -/
lemma iterateFilter_eq {f : α → Option Bool} {g : α → Bool} {as : List α}
    (h : ∀ a ∈ as, f a = some (g a)) : iterateFilter f as = some (as.filter g) := by
  induction as with
  | nil => rfl
  | cons a as ih =>
    have ih := ih fun b hb => h b (List.mem_cons_of_mem a hb)
    rw [iterateFilter, h a (by simp), Option.bind_some, ih, Option.map_some, List.filter_cons]

/-- A walk over the whole list returns only if the callback does for every element. -/
lemma isSome_of_iterateFilter {f : α → Option Bool} {as : List α}
    (h : (iterateFilter f as).isSome = true) {a : α} (ha : a ∈ as) : (f a).isSome = true := by
  induction as with
  | nil => simp at ha
  | cons b as ih =>
    rw [iterateFilter, Option.isSome_bind] at h
    cases hb : f b with
    | none => simp [hb] at h
    | some c =>
      rcases List.mem_cons.mp ha with rfl | ha
      · simp [hb]
      · exact ih (by simpa [hb] using h) ha

end CSemantics
