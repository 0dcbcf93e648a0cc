import Mathlib.Data.List.Chain
import Mathlib.Tactic

set_option relaxedAutoImplicit false
set_option autoImplicit false

/-!
# Doubly linked lists as rings

A doubly linked list with pointers to its first and its last node is a ring: the record that
holds these two pointers is a node of its own, after the last node and before the first one. An
edit of the list changes the links at one place of the ring, wherever the place is.

## Main definitions

* `LinkRing` — nodes that are linked both ways, in a ring through a given node.
* `sentinel` — the links of the nodes and of the record, as one function.
* `walk` — a loop along the links, with a callback that may change them.

## Main results

* `LinkRing.replace` — other nodes between two places of a ring.
* `LinkRing.symm` — the ring read the other way around.
* `walk_of_invariant` — a loop whose callback lets it go on comes to all nodes.
* `walk_eq_find` — a loop whose callback only tests ends where the test holds first.
-/

namespace CSemantics

/-! ## Rings -/

section Rings

variable {ν : Type*} {next prev next' prev' : ν → ν} {b : ν}

/-- Nodes of which each is linked with the one that follows, both ways. -/
def Links (next prev : ν → ν) (l : List ν) : Prop :=
  List.IsChain (fun x y => next x = y ∧ prev y = x) l

/-- The nodes `qs` in a ring through `b`. -/
def LinkRing (next prev : ν → ν) (b : ν) (qs : List ν) : Prop := Links next prev (b :: (qs ++ [b]))

/-- Links in two parts that are joined. -/
lemma links_append {l r : List ν} :
    Links next prev (l ++ r) ↔ Links next prev l ∧ Links next prev r ∧
      ∀ x ∈ l.getLast?, ∀ y ∈ r.head?, next x = y ∧ prev y = x :=
  List.isChain_append

/-- Links, one node at a time. -/
@[simp] lemma links_cons_cons {x y : ν} {l : List ν} :
    Links next prev (x :: y :: l) ↔ (next x = y ∧ prev y = x) ∧ Links next prev (y :: l) :=
  List.isChain_cons_cons

/-- A single node needs no links. -/
@[simp] lemma links_singleton (x : ν) : Links next prev [x] := List.isChain_singleton x

/-- Links forward are read from all nodes but the last one, and links backward from all but the
first one. -/
lemma Links.congr {l : List ν} (h : Links next prev l)
    (hnext : ∀ x ∈ l.dropLast, next' x = next x) (hprev : ∀ y ∈ l.tail, prev' y = prev y) :
    Links next' prev' l := by
  induction l with
  | nil => exact List.isChain_nil
  | cons x l ih =>
    cases l with
    | nil => exact links_singleton x
    | cons y l =>
      rw [links_cons_cons] at h ⊢
      rw [List.dropLast_cons_cons] at hnext
      refine ⟨⟨?_, ?_⟩, ih h.2 (fun z hz => hnext z (List.mem_cons_of_mem x hz))
        fun z hz => hprev z (List.mem_cons_of_mem y hz)⟩
      · rw [hnext x List.mem_cons_self]
        exact h.1.1
      · rw [hprev y List.mem_cons_self]
        exact h.1.2

/-- A ring depends on the links of its nodes only. -/
lemma LinkRing.congr {qs : List ν} (h : LinkRing next prev b qs)
    (hnext : ∀ x ∈ b :: qs, next' x = next x) (hprev : ∀ x ∈ b :: qs, prev' x = prev x) :
    LinkRing next' prev' b qs := by
  refine Links.congr h ?_ ?_
  · intro x hx
    rw [← List.cons_append, List.dropLast_concat] at hx
    exact hnext x hx
  · intro y hy
    rw [List.tail_cons] at hy
    refine hprev y ?_
    simpa [or_comm] using hy

/-- The ring read the other way around. -/
lemma LinkRing.symm {qs : List ν} (h : LinkRing next prev b qs) :
    LinkRing prev next b qs.reverse := by
  have hrev : b :: (qs.reverse ++ [b]) = (b :: (qs ++ [b])).reverse := by simp
  unfold LinkRing Links
  rw [hrev, List.isChain_reverse]
  exact List.IsChain.imp (fun x y hxy => hxy.symm) h

/-- A ring in two parts that are joined on both sides. -/
lemma linkRing_append {l r : List ν} :
    LinkRing next prev b (l ++ r) ↔ Links next prev (b :: l) ∧ Links next prev (r ++ [b]) ∧
      ∀ x ∈ (b :: l).getLast?, ∀ y ∈ (r ++ [b]).head?, next x = y ∧ prev y = x := by
  rw [LinkRing, List.append_assoc, ← List.cons_append, links_append]

/-- The link forward of a node of a ring. -/
lemma LinkRing.next_eq {l r : List ν} {x y : ν} (h : LinkRing next prev b (l ++ r))
    (hx : (b :: l).getLast? = some x) (hy : (r ++ [b]).head? = some y) : next x = y :=
  ((linkRing_append.mp h).2.2 x hx y hy).1

/-- **Edits of a ring.** Let the links change that go forward from a node `x` and backward from a
node `y`, so that they lead to other nodes than before between `x` and `y`. -/
lemma LinkRing.replace {l qs qs' r : List ν} {x y : ν} (h : LinkRing next prev b (l ++ (qs ++ r)))
    (hnd : (b :: (l ++ r)).Nodup) (hx : (b :: l).getLast? = some x)
    (hy : (r ++ [b]).head? = some y) (hnext : ∀ z ∈ b :: (l ++ r), z ≠ x → next' z = next z)
    (hprev : ∀ z ∈ b :: (l ++ r), z ≠ y → prev' z = prev z)
    (hqs : Links next' prev' (x :: (qs' ++ [y]))) : LinkRing next' prev' b (l ++ (qs' ++ r)) := by
  obtain ⟨l', hl'⟩ := List.getLast?_eq_some_iff.mp hx
  obtain ⟨r', hr'⟩ : ∃ r', r ++ [b] = y :: r' := by
    cases r with
    | nil => exact ⟨[], by simpa using hy⟩
    | cons z r =>
      obtain rfl : z = y := by simpa using hy
      exact ⟨r ++ [b], rfl⟩
  have hleft := (linkRing_append.mp h).1
  have hright : Links next prev (r ++ [b]) := by
    rw [← List.append_assoc] at h
    exact (linkRing_append.mp h).2.1
  rw [List.nodup_cons, List.nodup_append] at hnd
  obtain ⟨hb, hl, hr, hlr⟩ := hnd
  have hbl : b ∉ l := fun hmem => hb (List.mem_append_left r hmem)
  have hbr : b ∉ r := fun hmem => hb (List.mem_append_right l hmem)
  have hxmem : x ∈ b :: l := hl' ▸ List.mem_append_right l' (List.mem_singleton_self x)
  have hymem : y ∈ r ++ [b] := hr' ▸ List.mem_cons_self
  -- the nodes before `x` and those after `y` keep their links
  have hleft' : Links next' prev' (b :: l) := by
    refine hleft.congr ?_ ?_
    · intro z hz
      rw [hl', List.dropLast_concat] at hz
      have hzmem : z ∈ b :: l := hl' ▸ List.mem_append_left [x] hz
      have hnodup : (l' ++ [x]).Nodup := hl' ▸ List.nodup_cons.mpr ⟨hbl, hl⟩
      refine hnext z ?_ ?_
      · rw [← List.cons_append]
        exact List.mem_append_left r hzmem
      · rintro rfl
        exact (List.nodup_append.mp hnodup).2.2 z hz z (List.mem_singleton_self z) rfl
    · intro z hz
      rw [List.tail_cons] at hz
      refine hprev z (List.mem_cons_of_mem b (List.mem_append_left r hz)) ?_
      rintro rfl
      rcases List.mem_append.mp hymem with hmem | hmem
      · exact hlr z hz z hmem rfl
      · exact hbl (List.mem_singleton.mp hmem ▸ hz)
  have hright' : Links next' prev' (r ++ [b]) := by
    refine hright.congr ?_ ?_
    · intro z hz
      rw [List.dropLast_concat] at hz
      refine hnext z (List.mem_cons_of_mem b (List.mem_append_right l hz)) ?_
      rintro rfl
      rcases List.mem_cons.mp hxmem with hmem | hmem
      · exact hbr (hmem ▸ hz)
      · exact hlr z hmem z hz rfl
    · intro z hz
      rw [hr', List.tail_cons] at hz
      have hzmem : z ∈ r ++ [b] := hr' ▸ List.mem_cons_of_mem y hz
      have hnodup : (y :: r').Nodup := by
        rw [← hr', List.nodup_append]
        refine ⟨hr, List.nodup_singleton b, ?_⟩
        intro u hu v hv huv
        rw [List.mem_singleton.mp hv] at huv
        exact hbr (huv ▸ hu)
      refine hprev z ?_ ?_
      · rcases List.mem_append.mp hzmem with hmem | hmem
        · exact List.mem_cons_of_mem b (List.mem_append_right l hmem)
        · rw [List.mem_singleton.mp hmem]
          exact List.mem_cons_self
      · rintro rfl
        exact (List.nodup_cons.mp hnodup).1 hz
  -- put together at `x` and at `y`
  have hform : b :: (l ++ (qs' ++ r) ++ [b]) = l' ++ (x :: (qs' ++ y :: r')) := by
    rw [List.append_assoc, List.append_assoc, hr', ← List.cons_append, hl']
    simp
  have hends : Links next' prev' (l' ++ (x :: (qs' ++ y :: r'))) := by
    unfold Links at hqs hleft' hright' ⊢
    rw [hl'] at hleft'
    rw [hr'] at hright'
    rw [List.isChain_split]
    refine ⟨hleft', ?_⟩
    rw [← List.cons_append, List.isChain_split]
    exact ⟨hqs, hright'⟩
  unfold LinkRing
  rw [hform]
  exact hends

end Rings

/-! ## The record as a node -/

section Sentinel

variable {κ : Type*}

/-- The links of the nodes, with the pointer `first` as the link of the record. -/
def sentinel (first : Option κ) (link : κ → Option κ) (p : Option κ) : Option κ :=
  p.elim first link

/-- The sentinel leads to the first node. -/
@[simp] lemma sentinel_none (first : Option κ) (link : κ → Option κ) :
    sentinel first link none = first := rfl

/-- A node leads where its link does. -/
@[simp] lemma sentinel_some (first : Option κ) (link : κ → Option κ) (a : κ) :
    sentinel first link (some a) = link a := rfl

/-- Only the record has the first link. -/
lemma sentinel_of_ne_none {first : Option κ} {link : κ → Option κ} (first' : Option κ)
    {p : Option κ} (h : p ≠ none) : sentinel first link p = sentinel first' link p := by
  cases p with
  | none => exact absurd rfl h
  | some a => rfl

/-- An update leaves the links of the other nodes as they are. -/
lemma sentinel_update_of_ne [DecidableEq κ] {first : Option κ} {link : κ → Option κ} {a : κ}
    {b : Option κ} {p : Option κ} (h : p ≠ some a) :
    sentinel first (Function.update link a b) p = sentinel first link p := by
  cases p with
  | none => rfl
  | some a' => exact Function.update_of_ne (fun ha => h (congrArg some ha)) b link

variable {head tail : Option κ} {next prev : κ → Option κ} {as : List κ}

/-- The record points to the first node. -/
lemma LinkRing.head_eq (h : LinkRing (sentinel head next) (sentinel tail prev) none (as.map some)) :
    head = as.head? := by
  have hring : LinkRing (sentinel head next) (sentinel tail prev) none ([] ++ as.map some) := h
  exact hring.next_eq (x := none) (y := as.head?) rfl (by cases as <;> simp)

/-- And to the last one. -/
lemma LinkRing.tail_eq (h : LinkRing (sentinel head next) (sentinel tail prev) none (as.map some)) :
    tail = as.getLast? := by
  have := h.symm
  rw [← List.map_reverse] at this
  rw [this.head_eq, List.head?_reverse]

/-- A node points to the one that follows. -/
lemma LinkRing.next_some {l r : List κ} {a : κ}
    (h : LinkRing (sentinel head next) (sentinel tail prev) none ((l ++ a :: r).map some)) :
    next a = r.head? := by
  have hform : (l ++ a :: r).map some = (l ++ [a]).map some ++ r.map some := by simp
  rw [hform] at h
  have := h.next_eq (x := some a) (y := r.head?) (by simp [List.getLast?_cons]) (by
    cases r <;> simp)
  exact this

/-- And to the one before it. -/
lemma LinkRing.prev_some {l r : List κ} {a : κ}
    (h : LinkRing (sentinel head next) (sentinel tail prev) none ((l ++ a :: r).map some)) :
    prev a = l.getLast? := by
  have := h.symm
  have hrev : (l ++ a :: r).reverse = r.reverse ++ a :: l.reverse := by simp
  rw [← List.map_reverse, hrev] at this
  rw [this.next_some, List.head?_reverse]

end Sentinel

/-! ## Walks -/

section Walks

variable {κ σ : Type*} {next : σ → κ → Option κ} {action : σ → κ → Option (σ × Bool)}

/-- A loop from a node along the links, which are read after the callback has come back. The
callback ends the loop by returning `true`. There are `fuel` passes at most. -/
def walk (next : σ → κ → Option κ) (action : σ → κ → Option (σ × Bool)) :
    ℕ → σ → Option κ → Option (σ × Option κ)
  | _, s, none => some (s, none)
  | 0, _, some _ => none
  | fuel + 1, s, some a =>
    (action s a).bind fun r =>
      if r.2 then some (r.1, some a) else walk next action fuel r.1 (next r.1 a)

/-- A walk that starts nowhere ends at once. -/
@[simp] lemma walk_none (fuel : ℕ) (s : σ) : walk next action fuel s none = some (s, none) := by
  cases fuel <;> rfl

/-- **Whole walks.** Under an invariant on the nodes that the loop has come to and on the state,
the callback comes back, lets the loop go on, and leaves a link to the node that follows. -/
lemma walk_of_invariant {I : List κ → σ → Prop} {as : List κ}
    (hstep : ∀ l a r s, as = l ++ a :: r → I l s →
      ∃ s', action s a = some (s', false) ∧ I (l ++ [a]) s' ∧ next s' a = r.head?)
    {s : σ} (hs : I [] s) {fuel : ℕ} (hfuel : as.length ≤ fuel) :
    ∃ s', walk next action fuel s as.head? = some (s', none) ∧ I as s' := by
  -- `l` has been dealt with, and `r` is still to come
  have hrest : ∀ (r l : List κ) (s : σ) (fuel : ℕ), as = l ++ r → I l s → r.length ≤ fuel →
      ∃ s', walk next action fuel s r.head? = some (s', none) ∧ I as s' := by
    intro r
    induction r with
    | nil =>
      intro l s fuel has hI _
      rw [List.append_nil] at has
      exact ⟨s, walk_none fuel s, has ▸ hI⟩
    | cons a r ih =>
      intro l s fuel has hI hlen
      obtain ⟨s', hact, hI', hnext⟩ := hstep l a r s has hI
      cases fuel with
      | zero => simp at hlen
      | succ fuel =>
        have hlen' : r.length ≤ fuel := by simpa using hlen
        obtain ⟨s'', hwalk, hI''⟩ := ih (l ++ [a]) s' fuel (by simp [has]) hI' hlen'
        refine ⟨s'', ?_, hI''⟩
        rw [List.head?_cons, walk, hact, Option.bind_some, if_neg (by simp), hnext]
        exact hwalk
  exact hrest as [] s fuel rfl hs hfuel

/-- **Searches.** A callback that only tests ends the loop at the first node for which the test
holds. -/
lemma walk_eq_find {test : κ → Bool} {as : List κ} {s : σ}
    (hact : ∀ a ∈ as, action s a = some (s, test a))
    (hnext : ∀ l a r, as = l ++ a :: r → next s a = r.head?) {fuel : ℕ}
    (hfuel : as.length ≤ fuel) : walk next action fuel s as.head? = some (s, as.find? test) := by
  have hrest : ∀ (r l : List κ) (fuel : ℕ), as = l ++ r → r.length ≤ fuel →
      walk next action fuel s r.head? = some (s, r.find? test) := by
    intro r
    induction r with
    | nil =>
      intro l fuel _ _
      exact walk_none fuel s
    | cons a r ih =>
      intro l fuel has hlen
      cases fuel with
      | zero => simp at hlen
      | succ fuel =>
        have hlen' : r.length ≤ fuel := by simpa using hlen
        have hmem : a ∈ as := by simp [has]
        rw [List.head?_cons, walk, hact a hmem, Option.bind_some, List.find?_cons]
        cases htest : test a with
        | true => simp
        | false =>
          rw [if_neg (by simp), hnext l a r has]
          exact ih (l ++ [a]) fuel (by simp [has]) hlen'
  exact hrest as [] fuel rfl hfuel

/-! ### Fuel -/

/-- What comes back comes back in the same way with more fuel. -/
def Extends {α : Type*} (x y : Option α) : Prop := ∀ r, x = some r → y = some r

/-- A result extends itself. -/
lemma Extends.refl {α : Type*} (x : Option α) : Extends x x := fun _ h => h

/-- Computations in sequence extend others if both parts do. -/
lemma Extends.bind {α β : Type*} {x y : Option α} {f g : α → Option β} (h : Extends x y)
    (hfg : ∀ a, Extends (f a) (g a)) : Extends (x.bind f) (y.bind g) := by
  intro r hr
  obtain ⟨a, ha, hfa⟩ := Option.bind_eq_some_iff.mp hr
  rw [h a ha, Option.bind_some]
  exact hfg a r hfa

/-- A function of a result extends that of the result. -/
lemma Extends.map {α β : Type*} {x y : Option α} (h : Extends x y) (f : α → β) :
    Extends (x.map f) (y.map f) := by
  intro r hr
  obtain ⟨a, ha, hfa⟩ := Option.map_eq_some_iff.mp hr
  rw [h a ha, Option.map_some, hfa]

/-- More fuel for the loop, and for what its callback does. -/
lemma walk_extends {action' : σ → κ → Option (σ × Bool)} {fuel fuel' : ℕ} (hle : fuel ≤ fuel')
    (hact : ∀ s a, Extends (action s a) (action' s a)) (s : σ) (p : Option κ) :
    Extends (walk next action fuel s p) (walk next action' fuel' s p) := by
  induction fuel generalizing fuel' s p with
  | zero =>
    cases p with
    | none =>
      rw [walk_none, walk_none]
      exact .refl _
    | some a =>
      intro r hr
      cases hr
  | succ fuel ih =>
    cases p with
    | none =>
      rw [walk_none, walk_none]
      exact .refl _
    | some a =>
      cases fuel' with
      | zero => omega
      | succ fuel' =>
        refine (hact s a).bind fun r => ?_
        split_ifs with hr
        · exact .refl _
        · exact ih (by omega) r.1 (next r.1 a)

end Walks

end CSemantics
