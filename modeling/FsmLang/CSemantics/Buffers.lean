import Mathlib.Data.List.TakeWhile
import Mathlib.Tactic

set_option relaxedAutoImplicit false
set_option autoImplicit false

/-!
# Buffers

A buffer of a fixed size into which characters are stored one after the other, and which is then
ended and read as a string. Nothing stops a store behind the end of the buffer; such a store is
undefined.

## Main definitions

* `Buffer` — a buffer with the place of the next store.
* `Buffer.put`, `Buffer.putAll`, `Buffer.terminate` — stores.
* `Buffer.string` — what is read.

## Main results

* `Buffer.putAll_eq_none_iff` — stores stay inside if and only if there is room for all of them.
* `Buffer.exists_terminate` — what is read is what has been stored, as far as a null character.
-/

namespace CSemantics

/-- A buffer of `n` characters, and where the next one is stored. -/
structure Buffer (n : ℕ) where
  data : Vector Char n
  next : ℕ

/-- The characters of a string: those before the first null character. -/
def upToNull (cs : List Char) : List Char := cs.takeWhile fun c => decide (c ≠ '\x00')

/-- A text without null characters is read to its end. -/
lemma upToNull_eq_self_iff {cs : List Char} : upToNull cs = cs ↔ '\x00' ∉ cs := by
  rw [upToNull, List.takeWhile_eq_self_iff]
  simp only [ne_eq, decide_not, Bool.not_eq_true', decide_eq_false_iff_not]
  exact ⟨fun h hmem => h _ hmem rfl, fun h c hc hnull => h (hnull ▸ hc)⟩

namespace Buffer

variable {n : ℕ} {b b' : Buffer n} {c : Char} {cs : List Char}

/-- Store a character and go on to the next place. -/
def put (c : Char) (b : Buffer n) : Option (Buffer n) :=
  if h : b.next < n then some ⟨b.data.set b.next c h, b.next + 1⟩ else none

/-- Store characters one after the other. -/
def putAll : List Char → Buffer n → Option (Buffer n)
  | [], b => some b
  | c :: cs, b => (b.put c).bind (putAll cs)

/-- Store a null character. -/
def terminate (b : Buffer n) : Option (Buffer n) :=
  if h : b.next < n then some { b with data := b.data.set b.next '\x00' h } else none

/-- Go back to the beginning. -/
def rewind (b : Buffer n) : Buffer n := { b with next := 0 }

/-- What is before the next place. -/
def written (b : Buffer n) : List Char := b.data.toList.take b.next

/-- The string in the buffer. -/
def string (b : Buffer n) : List Char := upToNull b.data.toList

/-- Characters are put one after the other. -/
lemma putAll_cons (c : Char) (cs : List Char) (b : Buffer n) :
    b.putAll (c :: cs) = (b.put c).bind (putAll cs) := rfl

/-! ## Stores -/

/-- A character cannot be put into a full buffer. -/
lemma put_eq_none_iff : b.put c = none ↔ n ≤ b.next := by
  rw [put]
  split_ifs with h <;> simp [not_le.mpr, not_lt.mp, h]

/-- What a store does. -/
lemma put_eq_some (h : b.put c = some b') :
    b.next < n ∧ b'.next = b.next + 1 ∧ b'.written = b.written ++ [c] := by
  unfold put at h
  split_ifs at h with hlt
  obtain rfl := Option.some.inj h
  refine ⟨hlt, rfl, ?_⟩
  show (b.data.set b.next c hlt).toList.take (b.next + 1) = b.data.toList.take b.next ++ [c]
  have hlen : b.next < b.data.toList.length := by simpa using hlt
  rw [Vector.toList_set, List.take_add_one, List.take_set, List.set_eq_of_length_le (by simp),
    List.getElem?_set_self hlen]
  rfl

/-- What a run of stores does. -/
lemma putAll_eq_some (h : b.putAll cs = some b') :
    b'.next = b.next + cs.length ∧ b'.written = b.written ++ cs := by
  induction cs generalizing b with
  | nil =>
    obtain rfl := Option.some.inj h
    exact ⟨rfl, (List.append_nil _).symm⟩
  | cons c cs ih =>
    obtain ⟨b₁, hb₁, hb'⟩ := Option.bind_eq_some_iff.mp h
    obtain ⟨-, hnext, hwritten⟩ := put_eq_some hb₁
    obtain ⟨hnext', hwritten'⟩ := ih hb'
    refine ⟨?_, ?_⟩
    · rw [hnext', hnext, List.length_cons]
      omega
    · rw [hwritten', hwritten, List.append_assoc, List.singleton_append]

/-- **A run of stores** stays in the buffer if and only if there is room for all of them. -/
theorem putAll_eq_none_iff (h : b.next ≤ n) : b.putAll cs = none ↔ n < b.next + cs.length := by
  induction cs generalizing b with
  | nil =>
    simp only [putAll, List.length_nil, reduceCtorEq, false_iff]
    omega
  | cons c cs ih =>
    rw [putAll_cons, List.length_cons]
    cases hb : b.put c with
    | none =>
      have hfull := put_eq_none_iff.mp hb
      simp only [Option.bind_none, true_iff]
      omega
    | some b₁ =>
      obtain ⟨hlt, hnext, -⟩ := put_eq_some hb
      rw [Option.bind_some, ih (by omega), hnext]
      omega

/-- A run of stores for which there is room. -/
lemma exists_putAll (h : b.next + cs.length ≤ n) : ∃ b', b.putAll cs = some b' := by
  cases hb : b.putAll cs with
  | none =>
    have hlt := (putAll_eq_none_iff (by omega)).mp hb
    omega
  | some b' => exact ⟨b', rfl⟩

/-! ## Strings -/

/-- A full buffer cannot be terminated. -/
lemma terminate_eq_none_iff : b.terminate = none ↔ n ≤ b.next := by
  rw [terminate]
  split_ifs with h <;> simp [not_le.mpr, not_lt.mp, h]

/-- **The string in the buffer** is what has been stored, as far as a null character. -/
theorem exists_terminate (h : b.next < n) :
    ∃ b', b.terminate = some b' ∧ b'.next = b.next ∧ b'.string = upToNull b.written := by
  have hlen : b.next < b.data.toList.length := by simpa using h
  refine ⟨_, dif_pos h, rfl, ?_⟩
  show upToNull (b.data.set b.next '\x00' h).toList = upToNull (b.data.toList.take b.next)
  rw [upToNull, Vector.toList_set, List.set_eq_take_append_cons_drop, if_pos hlen,
    List.takeWhile_append, List.takeWhile_cons_of_neg (by simp), List.append_nil]
  split_ifs with hall
  · exact ((List.takeWhile_prefix _).eq_of_length hall).symm
  · rfl

end Buffer

end CSemantics
