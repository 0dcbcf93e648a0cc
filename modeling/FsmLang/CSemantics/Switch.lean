import Mathlib.Data.List.Basic
import Mathlib.Tactic

set_option relaxedAutoImplicit false
set_option autoImplicit false

/-!
# Switch statements

The cases of a `switch` in the order in which they stand, ended by `default`. A case has its
labels and a body that ends with `break`, or no body of its own, and then falls through to the
next one.

A generator that prints a case for each element of a list may leave out a body that is the same
as the next element's. That is right if elements with one body are either all printed or none of
them.

## Main definitions

* `switchBody` — the body that is run for a value, or the default.
* `printCases` — the cases for the elements of a list, without repeated bodies.

## Main results

* `exists_switchBody` — without fall-through: the body of a case with the value.
* `switchBody_printCases` — an element's label leads to the element's body.
* `findSome?_printCases_of_getLast` — where a group of elements with one body leads to.
-/

namespace CSemantics

variable {α κ ι β : Type*}

/-- A case of a `switch`. -/
structure Case (κ β : Type*) where
  labels : List κ
  body : Option β

section Switch

variable [DecidableEq κ]

/-- The body that is run for the value `x`; without one it is the default. -/
def switchBody (cases : List (Case κ β)) (x : κ) : Option β :=
  (cases.dropWhile fun c => x ∉ c.labels).findSome? Case.body

/-- A label of the first case leads to the first body from there on. -/
lemma switchBody_cons_of_mem {c : Case κ β} {x : κ} (h : x ∈ c.labels) (cases : List (Case κ β)) :
    switchBody (c :: cases) x = (c :: cases).findSome? Case.body := by
  rw [switchBody, List.dropWhile_cons_of_neg (by simpa using h)]

/-- Another label leads past the first case. -/
lemma switchBody_cons_of_notMem {c : Case κ β} {x : κ} (h : x ∉ c.labels)
    (cases : List (Case κ β)) : switchBody (c :: cases) x = switchBody cases x := by
  rw [switchBody, List.dropWhile_cons_of_pos (by simpa using h), switchBody]

/-- A value without a case. -/
lemma switchBody_eq_none (cases : List (Case κ β)) (x : κ) (h : ∀ c ∈ cases, x ∉ c.labels) :
    switchBody cases x = none := by
  induction cases with
  | nil => rfl
  | cons c cases ih =>
    rw [switchBody_cons_of_notMem (h c (by simp))]
    exact ih fun d hd => h d (List.mem_cons_of_mem c hd)

/-- A value whose cases all have bodies of one kind. -/
lemma exists_switchBody (cases : List (Case κ β)) (x : κ) (P : β → Prop)
    (hmem : ∃ c ∈ cases, x ∈ c.labels)
    (hbody : ∀ c ∈ cases, x ∈ c.labels → ∃ b, c.body = some b ∧ P b) :
    ∃ b, switchBody cases x = some b ∧ P b := by
  induction cases with
  | nil => simp at hmem
  | cons c cases ih =>
    by_cases hx : x ∈ c.labels
    · obtain ⟨b, hb, hP⟩ := hbody c (by simp) hx
      refine ⟨b, ?_, hP⟩
      rw [switchBody_cons_of_mem hx, List.findSome?_cons_of_isSome]
      · exact hb
      · simp [hb]
    · rw [switchBody_cons_of_notMem hx]
      refine ih ?_ fun d hd => hbody d (List.mem_cons_of_mem c hd)
      obtain ⟨d, hd, hxd⟩ := hmem
      rcases List.mem_cons.mp hd with hdc | hd
      · exact absurd (hdc ▸ hxd) hx
      · exact ⟨d, hd, hxd⟩

end Switch

section Print

variable [DecidableEq ι]

/-- The cases printed for the elements of a list. The body is left out when the next element,
printed or not, has the same key. -/
def printCases (printed : α → Bool) (labels : α → List κ) (key : α → ι) (body : α → Option β) :
    List α → List (Case κ β)
  | [] => []
  | a :: as =>
    if printed a then
      ⟨labels a, if as.head?.map key = some (key a) then none else body a⟩ ::
        printCases printed labels key body as
    else printCases printed labels key body as

variable {printed : α → Bool} {labels : α → List κ} {key : α → ι} {body : α → Option β}

/-- What falls through reaches the element's own body. -/
lemma findSome?_printCases {a : α} {as : List α} {b : β} (ha : printed a = true)
    (hb : body a = some b)
    (halike : ∀ c ∈ a :: as, ∀ d ∈ a :: as, key c = key d →
      printed c = printed d ∧ body c = body d) :
    (printCases printed labels key body (a :: as)).findSome? Case.body = some b := by
  induction as generalizing a with
  | nil => simp [printCases, ha, hb]
  | cons d as ih =>
    rw [printCases, if_pos ha, List.findSome?_cons]
    by_cases hkey : key d = key a
    · obtain ⟨hprinted, hbody⟩ := halike d (by simp) a (by simp) hkey
      have hnone : (if (d :: as).head?.map key = some (key a) then none else body a) = none := by
        simp [hkey]
      rw [hnone]
      exact ih (hprinted.trans ha) (hbody.trans hb) fun c hc e he =>
        halike c (List.mem_cons_of_mem a hc) e (List.mem_cons_of_mem a he)
    · simp [hkey, hb]

/-- **Bodies that are left out.** If elements with one key are printed alike and have one body,
the label of a printed element leads to its body. -/
lemma switchBody_printCases [DecidableEq κ] {l : List α} {a : α} {x : κ} {b : β} (hmem : a ∈ l)
    (ha : printed a = true) (hx : x ∈ labels a) (hb : body a = some b)
    (hunique : ∀ c ∈ l, printed c = true → x ∈ labels c → c = a)
    (halike : ∀ c ∈ l, ∀ d ∈ l, key c = key d → printed c = printed d ∧ body c = body d) :
    switchBody (printCases printed labels key body l) x = some b := by
  induction l with
  | nil => simp at hmem
  | cons c l ih =>
    have hrest : a ∈ l → switchBody (printCases printed labels key body l) x = some b :=
      fun hal => ih hal (fun d hd => hunique d (List.mem_cons_of_mem c hd)) fun d hd e he =>
        halike d (List.mem_cons_of_mem c hd) e (List.mem_cons_of_mem c he)
    by_cases hc : printed c = true
    · by_cases hxc : x ∈ labels c
      · obtain rfl := hunique c (by simp) hc hxc
        have hfound : (printCases printed labels key body (c :: l)).findSome? Case.body = some b :=
          findSome?_printCases hc hb halike
        rw [printCases, if_pos hc] at hfound ⊢
        rw [switchBody_cons_of_mem (by exact hxc)]
        exact hfound
      · rw [printCases, if_pos hc, switchBody_cons_of_notMem (by exact hxc)]
        rcases List.mem_cons.mp hmem with hac | hal
        · exact absurd (hac ▸ hx) hxc
        · exact hrest hal
    · rw [printCases, if_neg hc]
      rcases List.mem_cons.mp hmem with hac | hal
      · exact absurd (hac ▸ ha) hc
      · exact hrest hal

/-- The labels that are printed. -/
lemma flatMap_labels_printCases (l : List α) :
    (printCases printed labels key body l).flatMap Case.labels =
      (l.filter printed).flatMap labels := by
  induction l with
  | nil => rfl
  | cons a l ih =>
    rw [printCases]
    by_cases ha : printed a = true
    · rw [if_pos ha, List.filter_cons_of_pos ha, List.flatMap_cons, List.flatMap_cons, ih]
    · rw [if_neg ha, List.filter_cons_of_neg ha, ih]

/-- What is run for the label of an element that is printed, if no element before has the label. -/
lemma switchBody_printCases_append [DecidableEq κ] {l₁ l₂ : List α} {a : α} {x : κ}
    (ha : printed a = true) (hx : x ∈ labels a) (hbefore : ∀ c ∈ l₁, x ∉ labels c) :
    switchBody (printCases printed labels key body (l₁ ++ a :: l₂)) x =
      (printCases printed labels key body (a :: l₂)).findSome? Case.body := by
  induction l₁ with
  | nil => rw [List.nil_append, printCases, if_pos ha, switchBody_cons_of_mem (by exact hx)]
  | cons c l₁ ih =>
    have hrest := ih fun d hd => hbefore d (List.mem_cons_of_mem c hd)
    rw [List.cons_append, printCases]
    by_cases hc : printed c = true
    · rw [if_pos hc, switchBody_cons_of_notMem (by exact hbefore c (by simp)), hrest]
    · rw [if_neg hc, hrest]

/-- What falls through has the body of an element that is printed. -/
lemma exists_of_findSome?_printCases {l : List α} {b : β}
    (h : (printCases printed labels key body l).findSome? Case.body = some b) :
    ∃ c ∈ l, body c = some b := by
  induction l with
  | nil => simp [printCases] at h
  | cons a l ih =>
    have hrest : (printCases printed labels key body l).findSome? Case.body = some b →
        ∃ c ∈ a :: l, body c = some b := by
      intro h
      obtain ⟨c, hc, hb⟩ := ih h
      exact ⟨c, List.mem_cons_of_mem a hc, hb⟩
    rw [printCases] at h
    by_cases ha : printed a = true
    · rw [if_pos ha, List.findSome?_cons] at h
      by_cases hkey : l.head?.map key = some (key a)
      · simp only [if_pos hkey] at h
        exact hrest h
      · simp only [if_neg hkey] at h
        cases hbody : body a with
        | none =>
          simp only [hbody] at h
          exact hrest h
        | some d =>
          simp only [hbody, Option.some.injEq] at h
          exact ⟨a, by simp, by rw [hbody, h]⟩
    · rw [if_neg ha] at h
      exact hrest h

section Group

variable {k : ι} {g l₂ : List α} (hg : ∀ c ∈ g, key c = k) (hl₂ : ∀ c ∈ l₂, key c ≠ k)

include hg in
/-- What falls through in a group of elements with one key comes to the last one. -/
lemma findSome?_printCases_group {d : α} (hlast : g.getLast? = some d) :
    (printCases printed labels key body (g ++ l₂)).findSome? Case.body =
      (printCases printed labels key body (d :: l₂)).findSome? Case.body := by
  induction g with
  | nil => simp at hlast
  | cons c g ih =>
    cases g with
    | nil =>
      obtain rfl : c = d := by simpa using hlast
      rfl
    | cons c' g =>
      have hrest := ih (fun e he => hg e (List.mem_cons_of_mem c he)) (by simpa using hlast)
      have hnext : (c' :: g ++ l₂).head?.map key = some (key c) := by
        simp [hg c (by simp), hg c' (by simp)]
      rw [List.cons_append, printCases, if_pos hnext]
      by_cases hc : printed c = true
      · rw [if_pos hc, List.findSome?_cons]
        exact hrest
      · rw [if_neg hc, hrest]

include hg hl₂ in
/-- In a group of elements with one key, what falls through reaches the body of the last one, if
that one is printed. -/
lemma findSome?_printCases_of_getLast {d : α} {b : β} (hlast : g.getLast? = some d)
    (hd : printed d = true) (hb : body d = some b) :
    (printCases printed labels key body (g ++ l₂)).findSome? Case.body = some b := by
  have hnext : l₂.head?.map key ≠ some (key d) := by
    cases l₂ with
    | nil => simp
    | cons e l₂ =>
      have hkey : key d = k := hg d (List.mem_of_getLast? hlast)
      simpa [hkey] using hl₂ e (by simp)
  rw [findSome?_printCases_group hg hlast, printCases, if_pos hd, if_neg hnext, hb]
  rfl

include hg in
/-- If it is not, what falls through leaves the group. -/
lemma findSome?_printCases_of_not_getLast {d : α} (hlast : g.getLast? = some d)
    (hd : printed d = false) :
    (printCases printed labels key body (g ++ l₂)).findSome? Case.body =
      (printCases printed labels key body l₂).findSome? Case.body := by
  rw [findSome?_printCases_group hg hlast, printCases, if_neg (by simp [hd])]

end Group

/-- The labels of the cases are those of elements that are printed. -/
lemma exists_of_mem_printCases {l : List α} {c : Case κ β}
    (h : c ∈ printCases printed labels key body l) :
    ∃ a ∈ l, printed a = true ∧ c.labels = labels a := by
  induction l with
  | nil => simp [printCases] at h
  | cons a l ih =>
    have hrest : c ∈ printCases printed labels key body l →
        ∃ d ∈ a :: l, printed d = true ∧ c.labels = labels d := by
      intro h
      obtain ⟨d, hd, hprinted, hlabels⟩ := ih h
      exact ⟨d, List.mem_cons_of_mem a hd, hprinted, hlabels⟩
    by_cases ha : printed a = true
    · rw [printCases, if_pos ha] at h
      rcases List.mem_cons.mp h with h | h
      · exact ⟨a, by simp, ha, by rw [h]⟩
      · exact hrest h
    · rw [printCases, if_neg ha] at h
      exact hrest h

end Print

/-! ## Bodies by what they are printed for -/

section Map

variable {γ : Type*}

/-- A case with another body. -/
def Case.map (g : β → γ) (c : Case κ β) : Case κ γ := ⟨c.labels, c.body.map g⟩

/-- What falls through, in cases with other bodies. -/
lemma findSome?_map_map (g : β → γ) (cases : List (Case κ β)) :
    (cases.map (Case.map g)).findSome? Case.body = (cases.findSome? Case.body).map g := by
  induction cases with
  | nil => rfl
  | cons c cases ih =>
    rw [List.map_cons, List.findSome?_cons, List.findSome?_cons, ih]
    cases h : c.body <;> simp [Case.map, h]

/-- A switch over cases with other bodies. -/
lemma switchBody_map [DecidableEq κ] (g : β → γ) (cases : List (Case κ β)) (x : κ) :
    switchBody (cases.map (Case.map g)) x = (switchBody cases x).map g := by
  induction cases with
  | nil => rfl
  | cons c cases ih =>
    by_cases hx : x ∈ c.labels
    · rw [switchBody_cons_of_mem hx, List.map_cons, switchBody_cons_of_mem (by exact hx),
        ← List.map_cons, findSome?_map_map]
    · rw [switchBody_cons_of_notMem hx, List.map_cons, switchBody_cons_of_notMem (by exact hx), ih]

/-- The cases printed with other bodies. -/
lemma printCases_map [DecidableEq ι] (printed : α → Bool) (labels : α → List κ) (key : α → ι)
    (body : α → Option β) (g : β → γ) (l : List α) :
    printCases printed labels key (fun a => (body a).map g) l =
      (printCases printed labels key body l).map (Case.map g) := by
  induction l with
  | nil => rfl
  | cons a l ih =>
    rw [printCases, printCases, ih]
    by_cases ha : printed a = true
    · rw [if_pos ha, if_pos ha, List.map_cons, Case.map]
      by_cases hkey : l.head?.map key = some (key a)
      · rw [if_pos hkey, if_pos hkey]
        rfl
      · rw [if_neg hkey, if_neg hkey]
    · rw [if_neg ha, if_neg ha]

/-- A body that a switch leads to is that of a case. -/
lemma exists_of_switchBody [DecidableEq κ] {cases : List (Case κ β)} {x : κ} {b : β}
    (h : switchBody cases x = some b) : ∃ c ∈ cases, c.body = some b := by
  obtain ⟨c, hc, hb⟩ := List.exists_of_findSome?_eq_some h
  exact ⟨c, (List.dropWhile_sublist _).subset hc, hb⟩

/-- A body that is printed is that of an element of the list. -/
lemma exists_body_of_mem_printCases [DecidableEq ι] {printed : α → Bool} {labels : α → List κ}
    {key : α → ι} {body : α → Option β} {l : List α} {c : Case κ β} {b : β}
    (h : c ∈ printCases printed labels key body l) (hb : c.body = some b) :
    ∃ a ∈ l, body a = some b := by
  induction l with
  | nil => simp [printCases] at h
  | cons a l ih =>
    have hrest : c ∈ printCases printed labels key body l → ∃ d ∈ a :: l, body d = some b := by
      intro h
      obtain ⟨d, hd, hbody⟩ := ih h
      exact ⟨d, List.mem_cons_of_mem a hd, hbody⟩
    rw [printCases] at h
    split_ifs at h with ha hkey
    · rcases List.mem_cons.mp h with rfl | h
      · cases hb
      · exact hrest h
    · rcases List.mem_cons.mp h with rfl | h
      · exact ⟨a, by simp, hb⟩
      · exact hrest h
    · exact hrest h

end Map

end CSemantics
