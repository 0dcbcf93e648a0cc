import Mathlib.Tactic
import FsmLang.CSemantics.Buffers

set_option relaxedAutoImplicit false
set_option autoImplicit false

/-!
# Capitalized underbar notation

`hungarianToUnderbarCaps` writes a name in capitals, with underbars between its words, into memory
of its own; `streamHungarianToUnderbarCaps` writes it to a stream. The size of the memory is found
before the conversion: a character for each of the string and one more for each that may be a
capital. It is an `int`, which is too small for very long names.

`malloc` is a parameter. It returns null, or memory of the size that it is asked for; no object is
larger than half of what can be addressed.

## Main definitions

* `hungarianToUnderbarCaps`, `streamHungarianToUnderbarCaps` — the two functions.
* `CapsAgree` — the first one stays in its memory, and its string is what the other one writes.

## Main results

* `hungarianLoop_eq_putAll` — the loops write the same characters.
* `length_streamLoop_le` — there are no more of them than are counted.
* `capsAgree_iff` — the functions agree if and only if the size is right, or negative.
-/

namespace FsmLang

open CSemantics

/-! ## The two functions -/

/-- A `size_t` as an `int` of 32 bits. -/
def toInt (n : ℕ) : ℤ := Int.bmod n (2 ^ 32)

/-- An `int` as a `size_t` of 64 bits. -/
def toSize (i : ℤ) : ℕ := (i % 2 ^ 64).toNat

/-- `c & 0x20`, which capitals do not have. -/
def isLow (c : Char) : Bool := c.toNat &&& 0x20 != 0

/-- `isalpha(c) ? toupper(c) : c` -/
def toUpper (c : Char) : Char := if c.isAlpha then c.toUpper else c

/-- How many characters are counted once more. -/
def countHigh (cs : List Char) : ℕ := cs.countP fun c => !isLow c

/-- The loop that counts the memory. There is no `int` after the largest one. -/
def memorySize : List Char → ℤ → Option ℤ
  | [], i => some i
  | c :: cs, i =>
    if isLow c then memorySize cs i
    else if i = 2 ^ 31 - 1 then none
    else memorySize cs (i + 1)

/-- The loop that writes to memory, with whether the character is the first one, and
`consecutive`. -/
def hungarianLoop {n : ℕ} : Bool → Bool → List Char → Buffer n → Option (Buffer n)
  | _, _, [], cp2 => some cp2
  | first, consecutive, c :: cs, cp2 =>
    if c = '\\' then (cp2.put '_').bind (hungarianLoop false consecutive cs)
    else if !isLow c ∧ c ≠ '_' ∧ !first then
      if !consecutive then
        (cp2.put '_').bind fun cp2 => (cp2.put (toUpper c)).bind (hungarianLoop false true cs)
      else (cp2.put (toUpper c)).bind (hungarianLoop false consecutive cs)
    else (cp2.put (toUpper c)).bind (hungarianLoop false (!isLow c) cs)

/-- The string, or null; undefined behaviour is `none`. -/
def hungarianToUnderbarCaps (malloc : (n : ℕ) → Option (Vector Char n)) (str : List Char) :
    Option (Option (List Char)) :=
  (memorySize str (toInt (str.length + 1))).bind fun i =>
    match malloc (toSize i) with
    | none => some none
    | some cp =>
      ((hungarianLoop true false str ⟨cp, 0⟩).bind Buffer.terminate).map fun cp2 => some cp2.string

/-- The loop that writes to a stream. -/
def streamLoop : Bool → Bool → List Char → List Char → List Char
  | _, _, [], fout => fout
  | first, consecutive, c :: cs, fout =>
    if c = '\\' then streamLoop false consecutive cs (fout ++ ['_'])
    else if !isLow c ∧ c ≠ '_' ∧ !first then
      if !consecutive then streamLoop false true cs (fout ++ ['_'] ++ [toUpper c])
      else streamLoop false consecutive cs (fout ++ [toUpper c])
    else streamLoop false (!isLow c) cs (fout ++ [toUpper c])

/-- The stream after the conversion. -/
def streamHungarianToUnderbarCaps (fout str : List Char) : List Char :=
  streamLoop true false str fout

example : streamHungarianToUnderbarCaps [] "newMachine".toList = "NEW_MACHINE".toList := by decide

example : streamHungarianToUnderbarCaps [] "testFSM".toList = "TEST_FSM".toList := by decide

/-! ## What is written -/

/-- What is in the stream before does not matter. -/
lemma streamLoop_eq_append (first consecutive : Bool) (cs fout : List Char) :
    streamLoop first consecutive cs fout = fout ++ streamLoop first consecutive cs [] := by
  induction cs generalizing first consecutive fout with
  | nil => exact (List.append_nil fout).symm
  | cons c cs ih =>
    rw [streamLoop, streamLoop]
    split_ifs
    · rw [ih, ih false consecutive ([] ++ _)]
      simp
    · rw [ih, ih false true ([] ++ _ ++ _)]
      simp
    · rw [ih, ih false consecutive ([] ++ _)]
      simp
    · rw [ih, ih false (!isLow c) ([] ++ _)]
      simp

/-- **One conversion.** The loops write the same characters. -/
lemma hungarianLoop_eq_putAll {n : ℕ} (first consecutive : Bool) (cs : List Char)
    (cp2 : Buffer n) : hungarianLoop first consecutive cs cp2 =
      cp2.putAll (streamLoop first consecutive cs []) := by
  induction cs generalizing first consecutive cp2 with
  | nil => rfl
  | cons c cs ih =>
    rw [hungarianLoop, streamLoop]
    split_ifs
    · rw [streamLoop_eq_append, List.nil_append, List.singleton_append, Buffer.putAll_cons]
      congr 1
      funext b
      exact ih false consecutive b
    · rw [streamLoop_eq_append, List.nil_append, List.append_assoc, List.singleton_append,
        List.singleton_append, Buffer.putAll_cons]
      congr 1
      funext b
      rw [Buffer.putAll_cons]
      congr 1
      funext b'
      exact ih false true b'
    · rw [streamLoop_eq_append, List.nil_append, List.singleton_append, Buffer.putAll_cons]
      congr 1
      funext b
      exact ih false consecutive b
    · rw [streamLoop_eq_append, List.nil_append, List.singleton_append, Buffer.putAll_cons]
      congr 1
      funext b
      exact ih false (!isLow c) b

/-- **Room for underbars.** A character is written for each of the string, and one more at most
where the string may have a capital. -/
lemma length_streamLoop_le (first consecutive : Bool) (cs : List Char) :
    cs.length ≤ (streamLoop first consecutive cs []).length ∧
      (streamLoop first consecutive cs []).length ≤ cs.length + countHigh cs := by
  induction cs generalizing first consecutive with
  | nil => exact ⟨le_rfl, le_rfl⟩
  | cons c cs ih =>
    have hrest : countHigh cs ≤ countHigh (c :: cs) := (List.sublist_cons_self c cs).countP_le
    rw [streamLoop, List.length_cons]
    split_ifs with hescape hcapital hfirst
    · obtain ⟨hge, hle⟩ := ih false consecutive
      rw [streamLoop_eq_append, List.length_append]
      simp only [List.nil_append, List.length_singleton]
      omega
    · obtain ⟨hge, hle⟩ := ih false true
      have hcount : countHigh (c :: cs) = countHigh cs + 1 := List.countP_cons_of_pos hcapital.1
      rw [streamLoop_eq_append, List.length_append, hcount]
      simp only [List.nil_append, List.length_append, List.length_singleton]
      omega
    · obtain ⟨hge, hle⟩ := ih false consecutive
      rw [streamLoop_eq_append, List.length_append]
      simp only [List.nil_append, List.length_singleton]
      omega
    · obtain ⟨hge, hle⟩ := ih false (!isLow c)
      rw [streamLoop_eq_append, List.length_append]
      simp only [List.nil_append, List.length_singleton]
      omega

/-- Letters do not become null characters. -/
private lemma toUpper_ne_null {c : Char} (h : c ≠ '\x00') : toUpper c ≠ '\x00' := by
  have hletter : c.toUpper ≠ '\x00' := by
    intro hnull
    have hval := congrArg Char.val hnull
    unfold Char.toUpper at hval
    split at hval
    · next hlower =>
      have hge := UInt32.le_iff_toNat_le.mp hlower.1
      have hle := UInt32.le_iff_toNat_le.mp hlower.2
      have hsum := congrArg UInt32.toNat hval
      simp [UInt32.toNat_add] at hge hle hsum
      omega
    · exact h (Char.ext hval)
  rw [toUpper]
  split_ifs with hc
  · exact hletter
  · exact h

/-- No null character is written for a string. -/
private lemma null_notMem_streamLoop {cs : List Char} (h : '\x00' ∉ cs) (first consecutive : Bool) :
    '\x00' ∉ streamLoop first consecutive cs [] := by
  induction cs generalizing first consecutive with
  | nil => exact h
  | cons c cs ih =>
    rw [List.mem_cons, not_or] at h
    have hupper : '\x00' ≠ toUpper c := (toUpper_ne_null (Ne.symm h.1)).symm
    have hrest := ih h.2
    rw [streamLoop]
    split_ifs <;> rw [streamLoop_eq_append] <;> simp [hrest, hupper]

/-! ## The size of the memory -/

/-- What is counted, if it is an `int`. -/
lemma memorySize_eq (cs : List Char) {i : ℤ} (h : i < 2 ^ 31) : memorySize cs i =
    if i + countHigh cs < 2 ^ 31 then some (i + countHigh cs) else none := by
  induction cs generalizing i with
  | nil =>
    have hzero : i + countHigh [] = i := add_zero i
    rw [memorySize, hzero, if_pos h]
  | cons c cs ih =>
    rw [memorySize]
    cases hlow : isLow c with
    | true =>
      have hcount : countHigh (c :: cs) = countHigh cs := List.countP_cons_of_neg (by simp [hlow])
      rw [if_pos rfl, hcount, ih h]
    | false =>
      have hcount : countHigh (c :: cs) = countHigh cs + 1 :=
        List.countP_cons_of_pos (by simp [hlow])
      rw [if_neg Bool.false_ne_true, hcount, Nat.cast_add_one]
      by_cases hmax : i = 2 ^ 31 - 1
      · rw [if_pos hmax, if_neg (by omega)]
      · rw [if_neg hmax, ih (by omega), add_assoc, add_comm 1]

/-- A small number is its own value as an `int`. -/
lemma toInt_of_lt {n : ℕ} (h : n < 2 ^ 31) : toInt n = n :=
  Int.bmod_eq_of_le (by omega) (by omega)

/-- An `int` lies between its bounds. -/
lemma toInt_bounds (n : ℕ) : -2 ^ 31 ≤ toInt n ∧ toInt n < 2 ^ 31 := by
  have hge := Int.le_bmod (x := n) (m := 2 ^ 32) (by norm_num)
  have hlt := Int.bmod_lt (x := n) (m := 2 ^ 32) (by norm_num)
  norm_num at hge hlt
  exact ⟨hge, hlt⟩

/-- A length that fits into an `int` is its own value as a `size_t`. -/
lemma toSize_of_nonneg {i : ℤ} (h : 0 ≤ i) (hlt : i < 2 ^ 31) : toSize i = i.toNat := by
  rw [toSize, Int.emod_eq_of_lt h (by omega)]

/-- Negative sizes are too large for any object. -/
private lemma le_toSize_of_neg {i : ℤ} (h : i < 0) (hge : -2 ^ 31 ≤ i) : 2 ^ 63 ≤ toSize i := by
  unfold toSize
  omega

/-! ## Agreement -/

/-- Whatever memory there is, the function stays inside the memory that it has asked for, and the
string that it returns, if any, is what is written to a stream. -/
def CapsAgree (str : List Char) : Prop :=
  ∀ malloc : (n : ℕ) → Option (Vector Char n), (∀ n, 2 ^ 63 ≤ n → malloc n = none) →
    ∃ r, hungarianToUnderbarCaps malloc str = some r ∧
      ∀ s, r = some s → s = streamHungarianToUnderbarCaps [] str

/-- The function where there is memory. -/
lemma hungarianToUnderbarCaps_of_some {malloc : (n : ℕ) → Option (Vector Char n)} {str : List Char}
    {i : ℤ} {cp : Vector Char (toSize i)} (hsize : memorySize str (toInt (str.length + 1)) = some i)
    (hcp : malloc (toSize i) = some cp) : hungarianToUnderbarCaps malloc str =
      (((⟨cp, 0⟩ : Buffer (toSize i)).putAll (streamHungarianToUnderbarCaps [] str)).bind
        Buffer.terminate).map fun cp2 => some cp2.string := by
  simp only [hungarianToUnderbarCaps, hsize, Option.bind_some, hcp, hungarianLoop_eq_putAll]
  rfl

/-- The function where there is none. -/
lemma hungarianToUnderbarCaps_of_none {malloc : (n : ℕ) → Option (Vector Char n)} {str : List Char}
    {i : ℤ} (hsize : memorySize str (toInt (str.length + 1)) = some i)
    (hcp : malloc (toSize i) = none) : hungarianToUnderbarCaps malloc str = some none := by
  simp only [hungarianToUnderbarCaps, hsize, Option.bind_some, hcp]

/-- A size that is right is enough for what is written. -/
private lemma capsAgree_of_lt {str : List Char} (hstr : '\x00' ∉ str)
    (h : str.length + 1 + countHigh str < 2 ^ 31) : CapsAgree str := by
  intro malloc hmalloc
  have hint : toInt (str.length + 1) = (str.length + 1 : ℕ) := toInt_of_lt (by omega)
  have hsize : memorySize str (toInt (str.length + 1)) =
      some ((str.length + 1 + countHigh str : ℕ) : ℤ) := by
    rw [memorySize_eq str (toInt_bounds _).2, hint, ← Nat.cast_add, if_pos (by omega)]
  have hroom : toSize ((str.length + 1 + countHigh str : ℕ) : ℤ) =
      str.length + 1 + countHigh str := by
    rw [toSize_of_nonneg (by omega) (by omega), Int.toNat_natCast]
  cases hcp : malloc (toSize ((str.length + 1 + countHigh str : ℕ) : ℤ)) with
  | none => exact ⟨none, hungarianToUnderbarCaps_of_none hsize hcp, fun s hs => by cases hs⟩
  | some cp =>
    rw [hungarianToUnderbarCaps_of_some hsize hcp]
    obtain ⟨-, hle⟩ := length_streamLoop_le true false str
    have hle' : (streamHungarianToUnderbarCaps [] str).length ≤ str.length + countHigh str := hle
    have hlt : 0 + (streamHungarianToUnderbarCaps [] str).length <
        toSize ((str.length + 1 + countHigh str : ℕ) : ℤ) := by
      omega
    obtain ⟨b, hb⟩ := Buffer.exists_putAll (b := ⟨cp, 0⟩) hlt.le
    obtain ⟨hnext, hwritten⟩ := Buffer.putAll_eq_some hb
    rw [← hnext] at hlt
    obtain ⟨b', hb', -, hstring⟩ := Buffer.exists_terminate hlt
    rw [hb, Option.bind_some, hb']
    refine ⟨some b'.string, rfl, ?_⟩
    rintro _ ⟨⟩
    rw [hstring, hwritten]
    exact upToNull_eq_self_iff.mpr (null_notMem_streamLoop hstr true false)

/-- A size that is negative is not granted. -/
private lemma capsAgree_of_neg {str : List Char} (h : toInt (str.length + 1) + countHigh str < 0) :
    CapsAgree str := by
  intro malloc hmalloc
  have hsize : memorySize str (toInt (str.length + 1)) =
      some (toInt (str.length + 1) + countHigh str) := by
    rw [memorySize_eq str (toInt_bounds _).2, if_pos (by omega)]
  have hge := (toInt_bounds (str.length + 1)).1
  have hcp := hmalloc _ (le_toSize_of_neg h (by omega))
  exact ⟨none, hungarianToUnderbarCaps_of_none hsize hcp, fun s hs => by cases hs⟩

/-- Memory for every object that is not too large. -/
def ampleMalloc (n : ℕ) : Option (Vector Char n) :=
  if n < 2 ^ 63 then some (.replicate n '\x00') else none

/-- **The size has to be right.** Otherwise counting it comes to the end of the `int`, or the memory
is too small for the string. -/
lemma lt_or_neg_of_capsAgree {str : List Char} (h : CapsAgree str) :
    str.length + 1 + countHigh str < 2 ^ 31 ∨ toInt (str.length + 1) + countHigh str < 0 := by
  by_contra hcond
  rw [not_or, not_lt, not_lt] at hcond
  obtain ⟨hbig, hnonneg⟩ := hcond
  obtain ⟨r, hr, -⟩ := h ampleMalloc fun n hn => if_neg (not_lt.mpr hn)
  have hsize := memorySize_eq str (toInt_bounds (str.length + 1)).2
  by_cases hlt : toInt (str.length + 1) + countHigh str < 2 ^ 31
  · rw [if_pos hlt] at hsize
    have hroom := toSize_of_nonneg hnonneg hlt
    have hgranted : toSize (toInt (str.length + 1) + countHigh str) < 2 ^ 63 := by
      rw [hroom]
      omega
    have hcp : ampleMalloc (toSize (toInt (str.length + 1) + countHigh str)) =
        some (.replicate _ '\x00') := if_pos hgranted
    rw [hungarianToUnderbarCaps_of_some hsize hcp, Option.map_eq_some_iff] at hr
    obtain ⟨b', hb', -⟩ := hr
    obtain ⟨b, hb, hend⟩ := Option.bind_eq_some_iff.mp hb'
    have hfits : b.next < toSize (toInt (str.length + 1) + countHigh str) := by
      by_contra hfull
      rw [Buffer.terminate_eq_none_iff.mpr (not_lt.mp hfull)] at hend
      cases hend
    obtain ⟨hnext, -⟩ := Buffer.putAll_eq_some hb
    have hge : str.length ≤ (streamHungarianToUnderbarCaps [] str).length :=
      (length_streamLoop_le true false str).1
    rw [hnext, hroom] at hfits
    -- so the string is short, and its length is the same as an `int`
    have hint : toInt (str.length + 1) = (str.length + 1 : ℕ) := toInt_of_lt (by
      dsimp only at hfits
      omega)
    rw [hint] at hlt
    omega
  · rw [if_neg hlt] at hsize
    rw [hungarianToUnderbarCaps, hsize] at hr
    cases hr

/-- **Two conversions.** The string is what is written to a stream, and stays in its memory, if and
only if the size of the memory as an `int` is right, or negative, so that there is none. -/
theorem capsAgree_iff (str : List Char) (hstr : '\x00' ∉ str) : CapsAgree str ↔
    str.length + 1 + countHigh str < 2 ^ 31 ∨ toInt (str.length + 1) + countHigh str < 0 :=
  ⟨lt_or_neg_of_capsAgree, fun h => h.elim (capsAgree_of_lt hstr) capsAgree_of_neg⟩

/-- A name with capitals, digits and underbars. -/
theorem capsAgree_name : CapsAgree "_my2ndFSM_Name".toList :=
  (capsAgree_iff _ (by decide)).mpr (.inl (by decide))

/-- The size of the memory for `2 ^ 30` capitals is not an `int`. -/
theorem not_capsAgree_capitals : ¬ CapsAgree (List.replicate (2 ^ 30) 'A') := by
  intro h
  have hlength : (List.replicate (2 ^ 30) 'A').length = 2 ^ 30 := List.length_replicate
  have hcount : countHigh (List.replicate (2 ^ 30) 'A') = 2 ^ 30 := by
    rw [countHigh, List.countP_replicate, if_pos (by decide)]
  have hcond := lt_or_neg_of_capsAgree h
  rw [hlength, hcount, toInt_of_lt (by norm_num)] at hcond
  norm_num at hcond

end FsmLang
