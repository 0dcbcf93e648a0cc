import Mathlib.Data.List.Basic
import Mathlib.Tactic

set_option relaxedAutoImplicit false
set_option autoImplicit false

/-!
# JSON texts

The texts of strings, arrays and objects, with the values they stand for: the JSON grammar without
numbers, literals, escapes in strings, and empty arrays and objects. A text of this grammar is a
JSON text.

A program often writes the elements of an array one by one, and keeps a flag that tells whether an
element is the first. `Listing` is what it has written at any time.

## Main definitions

* `Json` — values; `IsValue`, `IsElement`, `IsElements`, `IsMembers` — their texts.
* `Listing` — the text of an array up to some element.

## Main results

* `IsElements.append_singleton`, `Listing.element` — one more element.
-/

namespace Documents

/-- A JSON value. -/
inductive Json where
  | string (s : String)
  | array (values : List Json)
  | object (members : List (String × Json))

/-- White space. -/
def IsSpace (w : List Char) : Prop := ∀ c ∈ w, c = ' ' ∨ c = '\t' ∨ c = '\n' ∨ c = '\r'

/-- A character that stands for itself in a string. -/
def IsPlain (c : Char) : Prop := c ≠ '"' ∧ c ≠ '\\' ∧ ' ' ≤ c

instance : DecidablePred IsPlain := fun c =>
  inferInstanceAs (Decidable (c ≠ '"' ∧ c ≠ '\\' ∧ ' ' ≤ c))

/-- All characters stand for themselves. -/
def IsPlainText (s : String) : Prop := ∀ c ∈ s.toList, IsPlain c

instance : DecidablePred IsPlainText := fun s => List.decidableBAll IsPlain s.toList

/-- A string in quotes. -/
def quoted (s : String) : List Char := '"' :: (s.toList ++ ['"'])

/-- The text of a key, with space around it. -/
def IsKey (cs : List Char) (k : String) : Prop :=
  ∃ w w', IsSpace w ∧ IsSpace w' ∧ IsPlainText k ∧ cs = w ++ quoted k ++ w'

mutual

/-- The text of a value. -/
inductive IsValue : List Char → Json → Prop
  | string {s : String} (h : IsPlainText s) : IsValue (quoted s) (.string s)
  | array {cs : List Char} {vs : List Json} (h : IsElements cs vs) :
      IsValue ('[' :: (cs ++ [']'])) (.array vs)
  | object {cs : List Char} {ms : List (String × Json)} (h : IsMembers cs ms) :
      IsValue ('\x7b' :: (cs ++ ['\x7d'])) (.object ms)

/-- The text of a value, with space around it. -/
inductive IsElement : List Char → Json → Prop
  | mk {w cs w' : List Char} {v : Json} (hw : IsSpace w) (h : IsValue cs v) (hw' : IsSpace w') :
      IsElement (w ++ cs ++ w') v

/-- The text of the elements of an array. -/
inductive IsElements : List Char → List Json → Prop
  | last {cs : List Char} {v : Json} (h : IsElement cs v) : IsElements cs [v]
  | cons {cs rest : List Char} {v : Json} {vs : List Json} (h : IsElement cs v)
      (hrest : IsElements rest vs) : IsElements (cs ++ ',' :: rest) (v :: vs)

/-- The text of the members of an object. -/
inductive IsMembers : List Char → List (String × Json) → Prop
  | last {key cs : List Char} {k : String} {v : Json} (hk : IsKey key k) (h : IsElement cs v) :
      IsMembers (key ++ ':' :: cs) [(k, v)]
  | cons {key cs rest : List Char} {k : String} {v : Json} {ms : List (String × Json)}
      (hk : IsKey key k) (h : IsElement cs v) (hrest : IsMembers rest ms) :
      IsMembers (key ++ ':' :: (cs ++ ',' :: rest)) ((k, v) :: ms)

end

/-- The empty text is space. -/
lemma isSpace_nil : IsSpace [] := by simp [IsSpace]

/-- A blank is space. -/
lemma isSpace_blank : IsSpace [' '] := by simp [IsSpace]

/-- The end of a line is space. -/
lemma isSpace_newline : IsSpace ['\n'] := by simp [IsSpace]

/-- Space behind space is space. -/
lemma IsSpace.append {w w' : List Char} (h : IsSpace w) (h' : IsSpace w') : IsSpace (w ++ w') := by
  intro c hc
  rcases List.mem_append.mp hc with hc | hc
  · exact h c hc
  · exact h' c hc

/-- A value is an element. -/
lemma IsValue.element {cs : List Char} {v : Json} (h : IsValue cs v) : IsElement cs v := by
  simpa using IsElement.mk isSpace_nil h isSpace_nil

/-- Space before an element. -/
lemma IsElement.space_append {w cs : List Char} {v : Json} (h : IsElement cs v) (hw : IsSpace w) :
    IsElement (w ++ cs) v := by
  obtain ⟨hw₁, hv, hw₂⟩ := h
  simpa using IsElement.mk (hw.append hw₁) hv hw₂

/-- Space after an element. -/
lemma IsElement.append_space {w cs : List Char} {v : Json} (h : IsElement cs v) (hw : IsSpace w) :
    IsElement (cs ++ w) v := by
  obtain ⟨hw₁, hv, hw₂⟩ := h
  simpa using IsElement.mk hw₁ hv (hw₂.append hw)

/-- One more element. -/
lemma IsElements.append_singleton {cs cs' : List Char} {vs : List Json} {v : Json} :
    IsElements cs vs → IsElement cs' v → IsElements (cs ++ ',' :: cs') (vs ++ [v])
  | .last h, h' => .cons h (.last h')
  | .cons h hrest, h' => by
    have hmore := IsElements.cons h (hrest.append_singleton h')
    simpa using hmore

/-- Space after the elements. -/
lemma IsElements.append_space {cs w : List Char} {vs : List Json} :
    IsElements cs vs → IsSpace w → IsElements (cs ++ w) vs
  | .last h, hw => .last (h.append_space hw)
  | .cons h hrest, hw => by
    have hmore := IsElements.cons h (hrest.append_space hw)
    simpa using hmore

/-- The elements written so far, after the bracket that opens their array. Until the first there is
only space. -/
inductive Listing : Bool → List Char → List Json → Prop
  | nil {w : List Char} (hw : IsSpace w) : Listing true w []
  | elements {cs : List Char} {vs : List Json} (h : IsElements cs vs) : Listing false cs vs

/-- When there is an element, what has been written is a text of elements. -/
lemma Listing.isElements {first : Bool} {cs : List Char} {vs : List Json}
    (h : Listing first cs vs) (hne : vs ≠ []) : first = false ∧ IsElements cs vs := by
  cases h with
  | nil _ => exact absurd rfl hne
  | elements h => exact ⟨rfl, h⟩

/-- **One more element**, after some space or a comma. -/
lemma Listing.element {first : Bool} {inside cs w w' : List Char} {vs : List Json} {v : Json}
    (h : Listing first inside vs) (hv : IsElement cs v) (hw : IsSpace w) (hw' : IsSpace w') :
    Listing false (inside ++ ((if first then w else ',' :: w') ++ cs)) (vs ++ [v]) := by
  cases h with
  | nil hinside => exact .elements (.last ((hv.space_append hw).space_append hinside))
  | elements hinside =>
    exact .elements (hinside.append_singleton (hv.space_append hw'))

end Documents
