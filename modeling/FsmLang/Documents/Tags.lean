import Mathlib.Data.List.Basic
import Mathlib.Tactic

set_option relaxedAutoImplicit false
set_option autoImplicit false

/-!
# Tags

The tags of an XML text are what stands between `<` and `>`. Start and end tags are matched with a
stack of the names that are open. Attribute values in which these characters occur are not
considered.

## Main definitions

* `scanTags` — the tags of a text.
* `matchTag` — one tag; `TagsMatch` — the tags of a text are nested and match.

## Main results

* `scanTags_tag`, `scanTags_text` — reading a text piece by piece.
* `foldlM_matchTag_empty` — empty-element tags do not matter.
-/

namespace Documents

/-- Read a text outside a tag (`none`), or within one, of which some has been read. There is no
result if a tag does not end. -/
def scanTagsFrom : Option (List Char) → List Char → Option (List (List Char))
  | none, [] => some []
  | some _, [] => none
  | none, c :: cs => if c = '<' then scanTagsFrom (some []) cs else scanTagsFrom none cs
  | some t, c :: cs =>
    if c = '>' then (scanTagsFrom none cs).map (t :: ·)
    else if c = '<' then none
    else scanTagsFrom (some (t ++ [c])) cs

/-- The tags of a text, in their order. -/
def scanTags (cs : List Char) : Option (List (List Char)) := scanTagsFrom none cs

/-- The name in a start tag. -/
def tagName (t : List Char) : List Char := t.takeWhile fun c => c ≠ ' '

/-- An end tag. -/
def IsEndTag (t : List Char) : Prop := t.head? = some '/'

/-- The tag of an element without content. -/
def IsEmptyTag (t : List Char) : Prop := ¬ IsEndTag t ∧ t.getLast? = some '/'

instance : DecidablePred IsEndTag := fun t => inferInstanceAs (Decidable (t.head? = some '/'))

instance : DecidablePred IsEmptyTag := fun t =>
  inferInstanceAs (Decidable (¬ IsEndTag t ∧ t.getLast? = some '/'))

/-- One tag, with the names that are open before it and after it. There is no result for an end tag
of another name than the last that was opened. -/
def matchTag (opened : List (List Char)) (t : List Char) : Option (List (List Char)) :=
  if IsEndTag t then
    match opened with
    | [] => none
    | name :: rest => if t.tail = name then some rest else none
  else if IsEmptyTag t then some opened
  else some (tagName t :: opened)

/-- The tags of a text are properly nested, and start and end tags match. -/
def TagsMatch (cs : List Char) : Prop :=
  ∃ ts, scanTags cs = some ts ∧ ts.foldlM matchTag [] = some []

/-! ## Piece by piece -/

/-- No text has no tags. -/
lemma scanTags_nil : scanTags [] = some [] := rfl

/-- Text outside of tags. -/
lemma scanTags_text {u : List Char} (h : '<' ∉ u) (cs : List Char) :
    scanTags (u ++ cs) = scanTags cs := by
  induction u with
  | nil => rfl
  | cons c u ih =>
    rw [List.mem_cons, not_or] at h
    have hc : c ≠ '<' := Ne.symm h.1
    rw [List.cons_append, scanTags, scanTagsFrom, if_neg hc]
    exact ih h.2

/-- A tag. -/
lemma scanTags_tag {t : List Char} (h : '<' ∉ t) (h' : '>' ∉ t) (cs : List Char) :
    scanTags ('<' :: (t ++ '>' :: cs)) = (scanTags cs).map (t :: ·) := by
  have hrun : ∀ u v : List Char, '<' ∉ v → '>' ∉ v →
      scanTagsFrom (some u) (v ++ '>' :: cs) = (scanTags cs).map ((u ++ v) :: ·) := by
    intro u v
    induction v generalizing u with
    | nil => simp [scanTagsFrom, scanTags]
    | cons c v ih =>
      intro hv hv'
      rw [List.mem_cons, not_or] at hv hv'
      rw [List.cons_append, scanTagsFrom, if_neg (Ne.symm hv'.1), if_neg (Ne.symm hv.1),
        ih _ hv.2 hv'.2]
      simp
  rw [scanTags, scanTagsFrom, if_pos rfl, hrun [] t h h', List.nil_append]

/-- A tag on a line of its own. -/
lemma scanTags_line {t : List Char} (h : '<' ∉ t) (h' : '>' ∉ t) (cs : List Char) :
    scanTags ('<' :: (t ++ '>' :: '\n' :: cs)) = (scanTags cs).map (t :: ·) := by
  have hnewline : scanTags ('\n' :: cs) = scanTags cs := scanTags_text (u := ['\n']) (by decide) cs
  rw [scanTags_tag h h', hnewline]

/-- A start tag with attributes. -/
lemma matchTag_start {name attributes : List Char} (hname : ' ' ∉ name)
    (hend : name.head? ≠ some '/') (hempty : (name ++ ' ' :: attributes).getLast? ≠ some '/')
    (opened : List (List Char)) :
    matchTag opened (name ++ ' ' :: attributes) = some (name :: opened) := by
  have hnot : ¬ IsEndTag (name ++ ' ' :: attributes) := by
    cases name with
    | nil => simp [IsEndTag]
    | cons c name => simpa [IsEndTag] using hend
  have htag : tagName (name ++ ' ' :: attributes) = name := by
    have hall : ∀ c ∈ name, decide (c ≠ ' ') = true := fun c hc => by
      simpa using fun h : c = ' ' => hname (h ▸ hc)
    rw [tagName, List.takeWhile_append_of_pos hall]
    simp
  unfold matchTag
  rw [if_neg hnot, if_neg fun h => hempty h.2, htag]

/-- The empty-element tags after another tag. -/
lemma filter_isEmptyTag_cons {t : List Char} (h : ¬ IsEmptyTag t) (ts : List (List Char)) :
    (t :: ts).filter (fun t => IsEmptyTag t) = ts.filter fun t => IsEmptyTag t :=
  List.filter_cons_of_neg (by simpa using h)

/-- Empty-element tags leave open what is open. -/
lemma foldlM_matchTag_empty {ts : List (List Char)} (h : ∀ t ∈ ts, IsEmptyTag t)
    (opened : List (List Char)) : ts.foldlM matchTag opened = some opened := by
  induction ts with
  | nil => rfl
  | cons t ts ih =>
    have ht := h t List.mem_cons_self
    have hmatch : matchTag opened t = some opened := by
      unfold matchTag
      rw [if_neg ht.1, if_pos ht]
    rw [List.foldlM_cons, hmatch]
    exact ih fun u hu => h u (List.mem_cons_of_mem t hu)

/-- An element with nothing but empty elements inside: what its end tag leaves open depends on the
names only. -/
lemma foldlM_matchTag_element {start last name : List Char} {ts : List (List Char)}
    {opened : List (List Char)} (hstart : matchTag opened start = some (name :: opened))
    (h : ∀ t ∈ ts, IsEmptyTag t) (rest : List (List Char)) :
    (start :: (ts ++ [last]) ++ rest).foldlM matchTag opened =
      (matchTag (name :: opened) last).bind (rest.foldlM matchTag) := by
  rw [List.cons_append, List.foldlM_cons, hstart, Option.bind_eq_bind, Option.bind_some,
    List.append_assoc, List.foldlM_append, foldlM_matchTag_empty h, Option.bind_eq_bind,
    Option.bind_some, List.cons_append, List.foldlM_cons, List.nil_append, Option.bind_eq_bind]

end Documents
