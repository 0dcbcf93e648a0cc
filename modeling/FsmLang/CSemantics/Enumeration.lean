import Mathlib.Data.List.Nodup
import Mathlib.Data.Int.Basic
import Mathlib.Tactic

set_option relaxedAutoImplicit false
set_option autoImplicit false

/-!
# C enumerations

The meaning of the body of a C `enum`: a list of enumerators, each with or without an
initializer. An enumerator without one takes the value of the previous enumerator plus one
(the first takes zero); an initializer names an earlier enumerator or is a value known from
elsewhere. Declaring one name twice, or naming an enumerator that is not yet declared, does
not compile, and evaluation then gives `none`.

## Main definitions

* `EnumItem` — an enumerator and its initializer.
* `EnumScope` — the enumerators declared so far, in order, and the implicit next value.
* `EnumScope.declareAll` — the scope after a list of enumerators.

## Main results

* `EnumScope.declareAll_append` — evaluation splits at any point of the list.
* `EnumScope.declareAll_implicit` — a run of enumerators without initializers takes
  consecutive values.
* `EnumScope.declareAll_wellFormed` — no name is declared twice, so that an enumerator has
  one value (`EnumScope.valueOf_eq_some_iff`).
-/

namespace CSemantics

variable {ι : Type*}

/-- What stands after an enumerator's name: nothing, `= x` for an earlier enumerator `x`, or
`= v` for a value that does not depend on this enumeration. -/
inductive EnumInit (ι : Type*) where
  | implicit
  | sameAs (x : ι)
  | value (v : ℤ)
  deriving DecidableEq, Repr

/-- One enumerator of an enumeration's body. -/
structure EnumItem (ι : Type*) where
  name : ι
  init : EnumInit ι
  deriving DecidableEq, Repr

/-- The enumerators declared so far with their values, oldest first, and the value an
enumerator without initializer takes next. -/
@[ext] structure EnumScope (ι : Type*) where
  next : ℤ
  bound : List (ι × ℤ)
  deriving DecidableEq, Repr

/-- Consecutive values from `v` on for a list of names. -/
def numberFrom (v : ℤ) : List ι → List (ι × ℤ)
  | [] => []
  | x :: xs => (x, v) :: numberFrom (v + 1) xs

/-- The names of `numberFrom` are the names given. -/
@[simp] lemma numberFrom_map_fst (v : ℤ) (xs : List ι) :
    (numberFrom v xs).map Prod.fst = xs := by
  induction xs generalizing v with
  | nil => rfl
  | cons x xs ih => simp [numberFrom, ih]

/-- The values of `numberFrom` are consecutive. -/
lemma mem_numberFrom (v : ℤ) (xs : List ι) (x : ι) (w : ℤ) :
    (x, w) ∈ numberFrom v xs ↔ ∃ i : ℕ, xs[i]? = some x ∧ w = v + i := by
  induction xs generalizing v with
  | nil => simp [numberFrom]
  | cons y ys ih =>
    simp only [numberFrom, List.mem_cons, Prod.mk.injEq, ih]
    constructor
    · rintro (⟨rfl, rfl⟩ | ⟨i, hi, rfl⟩)
      · exact ⟨0, by simp, by simp⟩
      · exact ⟨i + 1, by simpa using hi, by push_cast; omega⟩
    · rintro ⟨i, hi, rfl⟩
      cases i with
      | zero => left; simpa [eq_comm] using hi
      | succ i => right; exact ⟨i, by simpa using hi, by push_cast; omega⟩

/-- `numberFrom` splits at any point of the list. -/
lemma numberFrom_append (v : ℤ) (xs ys : List ι) :
    numberFrom v (xs ++ ys) = numberFrom v xs ++ numberFrom (v + xs.length) ys := by
  induction xs generalizing v with
  | nil => simp [numberFrom]
  | cons x xs ih =>
    simp only [List.cons_append, numberFrom, ih, List.length_cons, Nat.cast_add, Nat.cast_one]
    rw [show v + 1 + (xs.length : ℤ) = v + (xs.length + 1) by omega]

namespace EnumScope

/-- No enumerator declared yet. -/
def empty : EnumScope ι := ⟨0, []⟩

/-- Bind one name: its value is `v`, and the next implicit value is `v + 1`. -/
def bind (s : EnumScope ι) (x : ι) (v : ℤ) : EnumScope ι := ⟨v + 1, s.bound ++ [(x, v)]⟩

variable [DecidableEq ι]

/-- The value of an enumerator that is in scope. -/
def valueOf (s : EnumScope ι) (x : ι) : Option ℤ := s.bound.lookup x

/-- The value an initializer stands for, if it compiles. -/
def initial (s : EnumScope ι) : EnumInit ι → Option ℤ
  | .implicit => some s.next
  | .sameAs x => s.valueOf x
  | .value v => some v

/-- Declare one enumerator; `none` when its name is taken or its initializer is unknown. -/
def declare (s : EnumScope ι) (item : EnumItem ι) : Option (EnumScope ι) :=
  if item.name ∈ s.bound.map Prod.fst then none
  else (s.initial item.init).map (s.bind item.name)

/-- The start of another enumeration in the same scope. -/
def restart (s : EnumScope ι) : EnumScope ι := ⟨0, s.bound⟩

/-- Declare a list of enumerators in order. -/
def declareAll (s : EnumScope ι) (items : List (EnumItem ι)) : Option (EnumScope ι) :=
  items.foldlM declare s

/-- A scope in which no name is declared twice. -/
def WellFormed (s : EnumScope ι) : Prop := (s.bound.map Prod.fst).Nodup

/-- No items are declared. -/
@[simp] lemma declareAll_nil (s : EnumScope ι) : s.declareAll [] = some s := rfl

/-- Items are declared one after the other. -/
@[simp] lemma declareAll_cons (s : EnumScope ι) (item : EnumItem ι) (items : List (EnumItem ι)) :
    s.declareAll (item :: items) = (s.declare item).bind (·.declareAll items) := rfl

/-- Evaluation splits at any point of the list. -/
lemma declareAll_append (s : EnumScope ι) (items items' : List (EnumItem ι)) :
    s.declareAll (items ++ items') = (s.declareAll items).bind (·.declareAll items') := by
  simp only [declareAll, List.foldlM_append]
  rfl

/-- Two evaluations one after the other. -/
lemma declareAll_append_of_eq_some {s t u : EnumScope ι} {items items' : List (EnumItem ι)}
    (h : s.declareAll items = some t) (h' : t.declareAll items' = some u) :
    s.declareAll (items ++ items') = some u := by
  rw [declareAll_append, h, Option.bind_some, h']

/-- A new name with a known initializer is declared with that value. -/
lemma declare_eq_some {s : EnumScope ι} {x : ι} {i : EnumInit ι} {v : ℤ}
    (hx : x ∉ s.bound.map Prod.fst) (hv : s.initial i = some v) :
    s.declare ⟨x, i⟩ = some (s.bind x v) := by
  rw [declare, if_neg hx, hv]
  rfl

/-- A new name without initializer takes the next value. -/
lemma declare_implicit {s : EnumScope ι} {x : ι} (hx : x ∉ s.bound.map Prod.fst) :
    s.declare ⟨x, .implicit⟩ = some (s.bind x s.next) :=
  declare_eq_some hx rfl

/-- A new name with an earlier one as initializer takes the value of that one. -/
lemma declare_sameAs {s : EnumScope ι} {x y : ι} {v : ℤ} (hy : s.valueOf y = some v)
    (hx : x ∉ s.bound.map Prod.fst) : s.declare ⟨x, .sameAs y⟩ = some (s.bind x v) :=
  declare_eq_some hx hy

/-- A run of new names without initializers takes consecutive values. -/
lemma declareAll_implicit {s : EnumScope ι} {xs : List ι}
    (hxs : (s.bound.map Prod.fst ++ xs).Nodup) :
    s.declareAll (xs.map fun x => ⟨x, .implicit⟩) =
      some ⟨s.next + xs.length, s.bound ++ numberFrom s.next xs⟩ := by
  induction xs generalizing s with
  | nil => simp [numberFrom]
  | cons x xs ih =>
    have hx : x ∉ s.bound.map Prod.fst := by
      intro hmem
      exact (List.nodup_append.mp hxs).2.2 x hmem x (by simp) rfl
    rw [List.map_cons, declareAll_cons, declare_eq_some hx rfl, Option.bind_some, ih]
    · simp only [bind, numberFrom, List.append_assoc, List.singleton_append, List.length_cons,
        Nat.cast_add, Nat.cast_one, Option.some.injEq, EnumScope.mk.injEq, and_true]
      omega
    · simpa [bind] using hxs

/-- Declaring an enumerator keeps the names distinct. -/
lemma declare_wellFormed {s t : EnumScope ι} {item : EnumItem ι} (hs : s.WellFormed)
    (h : s.declare item = some t) : t.WellFormed := by
  unfold declare at h
  split_ifs at h with hx
  obtain ⟨v, -, rfl⟩ := Option.map_eq_some_iff.mp h
  simp only [WellFormed, bind, List.map_append, List.map_cons, List.map_nil]
  refine List.nodup_append.mpr ⟨hs, by simp, ?_⟩
  rintro a ha b hb rfl
  rw [List.mem_singleton] at hb
  exact hx (hb ▸ ha)

/-- No enumeration that compiles declares a name twice. -/
lemma declareAll_wellFormed {s t : EnumScope ι} {items : List (EnumItem ι)} (hs : s.WellFormed)
    (h : s.declareAll items = some t) : t.WellFormed := by
  induction items generalizing s with
  | nil => simp only [declareAll_nil, Option.some.injEq] at h; exact h ▸ hs
  | cons item items ih =>
    obtain ⟨u, hu, ht⟩ := Option.bind_eq_some_iff.mp h
    exact ih (declare_wellFormed hs hu) ht

omit [DecidableEq ι] in
/-- The empty scope is well formed. -/
@[simp] lemma empty_wellFormed : (empty : EnumScope ι).WellFormed := by
  simp [WellFormed, empty]

/-- Declaring enumerators adds their names, in order, to those in scope. -/
lemma declareAll_eq_some {s t : EnumScope ι} {items : List (EnumItem ι)}
    (h : s.declareAll items = some t) :
    ∃ added, t.bound = s.bound ++ added ∧ added.map Prod.fst = items.map (·.name) := by
  induction items generalizing s with
  | nil =>
    obtain rfl := Option.some.inj h
    exact ⟨[], by simp, rfl⟩
  | cons item items ih =>
    obtain ⟨u, hu, ht⟩ := Option.bind_eq_some_iff.mp h
    unfold declare at hu
    split_ifs at hu with hx
    obtain ⟨v, -, rfl⟩ := Option.map_eq_some_iff.mp hu
    obtain ⟨added, hadded, hnames⟩ := ih ht
    exact ⟨(item.name, v) :: added, by simp [hadded, bind], by simp [hnames]⟩

/-- In a well-formed scope an enumerator has the value it was bound with. -/
lemma valueOf_eq_some_iff {s : EnumScope ι} (hs : s.WellFormed) {x : ι} {v : ℤ} :
    s.valueOf x = some v ↔ (x, v) ∈ s.bound := by
  rw [valueOf, List.lookup_eq_some_iff]
  constructor
  · rintro ⟨l, r, h, -⟩
    simp [h]
  · intro h
    obtain ⟨l, r, hlr⟩ := List.append_of_mem h
    refine ⟨l, r, hlr, ?_⟩
    rintro ⟨y, w⟩ hy
    have hnd : ((l ++ (x, v) :: r).map Prod.fst).Nodup := hlr ▸ hs
    rw [List.map_append, List.nodup_append] at hnd
    have hne : y ≠ x := hnd.2.2 y (List.mem_map_of_mem hy) x (by simp)
    exact bne_iff_ne.mpr hne.symm

/-- An enumerator that is declared with a value has it. -/
lemma valueOf_of_mem {s t : EnumScope ι} {items : List (EnumItem ι)} {x : ι} {v : ℤ}
    (hs : s.WellFormed) (h : s.declareAll items = some t) (hx : ⟨x, .value v⟩ ∈ items) :
    t.valueOf x = some v := by
  have ht := declareAll_wellFormed hs h
  rw [valueOf_eq_some_iff ht]
  induction items generalizing s with
  | nil => simp at hx
  | cons item items ih =>
    obtain ⟨u, hu, hut⟩ := Option.bind_eq_some_iff.mp h
    have hwf := declare_wellFormed hs hu
    rcases List.mem_cons.mp hx with hitem | hitem
    · subst hitem
      unfold declare at hu
      split_ifs at hu
      obtain rfl := Option.some.inj hu
      obtain ⟨added, hadded, -⟩ := declareAll_eq_some hut
      rw [hadded]
      simp [bind]
    · exact ih hwf hut hitem

/-- A new name, a second name for the same value, and a run of new names without initializers. -/
lemma declareAll_pair {s : EnumScope ι} {x y : ι} {zs : List ι}
    (hnd : (s.bound.map Prod.fst ++ x :: y :: zs).Nodup) :
    s.declareAll (⟨x, .implicit⟩ :: ⟨y, .sameAs x⟩ :: zs.map fun z => ⟨z, .implicit⟩) =
      some ⟨s.next + 1 + zs.length,
        s.bound ++ (x, s.next) :: (y, s.next) :: numberFrom (s.next + 1) zs⟩ := by
  have hs : s.WellFormed := (List.nodup_append.mp hnd).1
  have hx : x ∉ s.bound.map Prod.fst := fun h =>
    (List.nodup_append.mp hnd).2.2 x h x (by simp) rfl
  have hwf : (s.bind x s.next).WellFormed := declare_wellFormed hs (declare_implicit hx)
  have hval : (s.bind x s.next).valueOf x = some s.next :=
    (valueOf_eq_some_iff hwf).mpr (by simp [bind])
  have hy : y ∉ (s.bind x s.next).bound.map Prod.fst := by
    intro h
    have hnd' : ((s.bind x s.next).bound.map Prod.fst ++ y :: zs).Nodup := by
      simpa [bind] using hnd
    exact (List.nodup_append.mp hnd').2.2 y h y (by simp) rfl
  rw [declareAll_cons, declare_implicit hx, Option.bind_some, declareAll_cons,
    declare_sameAs hval hy, Option.bind_some, declareAll_implicit]
  · simp [bind]
  · simpa [bind] using hnd

/-- An enumeration compiles if its names are new and distinct and every initializer names an
enumerator of the scope or an earlier one. -/
lemma exists_declareAll {s : EnumScope ι} {items : List (EnumItem ι)}
    (hnd : (s.bound.map Prod.fst ++ items.map (·.name)).Nodup)
    (hinit : ∀ l item r y, items = l ++ item :: r → item.init = .sameAs y →
      y ∈ s.bound.map Prod.fst ++ l.map (·.name)) :
    ∃ t, s.declareAll items = some t ∧
      t.bound.map Prod.fst = s.bound.map Prod.fst ++ items.map (·.name) := by
  induction items generalizing s with
  | nil => exact ⟨s, rfl, by simp⟩
  | cons item items ih =>
    have hs : s.WellFormed := (List.nodup_append.mp hnd).1
    have hname : item.name ∉ s.bound.map Prod.fst := fun h =>
      (List.nodup_append.mp hnd).2.2 item.name h item.name (by simp) rfl
    obtain ⟨v, hv⟩ : ∃ v, s.initial item.init = some v := by
      cases hi : item.init with
      | implicit => exact ⟨s.next, rfl⟩
      | value v => exact ⟨v, rfl⟩
      | sameAs y =>
        have hy := hinit [] item items y rfl hi
        rw [List.map_nil, List.append_nil] at hy
        obtain ⟨⟨_, v⟩, hmem, rfl⟩ := List.mem_map.mp hy
        exact ⟨v, (valueOf_eq_some_iff hs).mpr hmem⟩
    have hdecl : s.declare item = some (s.bind item.name v) := declare_eq_some hname hv
    obtain ⟨t, ht, hnames⟩ := ih (s := s.bind item.name v) (by simpa [bind] using hnd) (by
      intro l item' r y h hy
      have := hinit (item :: l) item' r y (by rw [h]; rfl) hy
      simpa [bind] using this)
    refine ⟨t, ?_, ?_⟩
    · rw [declareAll_cons, hdecl, Option.bind_some, ht]
    · rw [hnames]
      simp [bind]

end EnumScope

end CSemantics
