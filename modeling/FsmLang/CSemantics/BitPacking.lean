import Mathlib.Data.Nat.Size
import Mathlib.Data.Int.ModEq
import Mathlib.Tactic

set_option relaxedAutoImplicit false
set_option autoImplicit false

/-!
# Packing two numbers into one word

`(E << k) | S` in a word of `w` bits, for a key `E` and an index `S` below some bound `m`.
The packing tells all pairs apart exactly when the index fits in the word, no shifted key has a
bit where an index can have one, and the keys differ in the bits that the shift keeps.

## Main definitions

* `pack` — the packed word.

## Main results

* `pack_injective_iff` — when packing is injective, for any family of keys.
-/

namespace CSemantics

/-- `(E << k) | S` in a word of `w` bits. -/
def pack (w k : ℕ) (E S : ℤ) : BitVec w := BitVec.ofInt w E <<< k ||| BitVec.ofInt w S

/-- The shifted key, as a number. -/
lemma toNat_ofInt_shiftLeft (w k : ℕ) (E : ℤ) :
    ((BitVec.ofInt w E <<< k).toNat : ℤ) = E * 2 ^ k % 2 ^ w := by
  rw [BitVec.toNat_shiftLeft, BitVec.toNat_ofInt, Nat.shiftLeft_eq]
  push_cast
  rw [Int.toNat_of_nonneg (Int.emod_nonneg _ (by positivity))]
  exact (Int.mod_modEq E (2 ^ w)).mul_right (2 ^ k)

/-- Two keys are shifted to the same number when they agree modulo the bits that are kept. -/
lemma ofInt_shiftLeft_eq_iff {w k : ℕ} (hk : k ≤ w) (E E' : ℤ) :
    BitVec.ofInt w E <<< k = BitVec.ofInt w E' <<< k ↔ E ≡ E' [ZMOD 2 ^ (w - k)] := by
  have hw : (2 : ℤ) ^ w = 2 ^ (w - k) * 2 ^ k := by
    rw [← pow_add, Nat.sub_add_cancel hk]
  rw [← BitVec.toNat_inj, ← Int.natCast_inj, toNat_ofInt_shiftLeft, toNat_ofInt_shiftLeft, hw]
  exact Int.ModEq.mul_right_cancel_iff' (by positivity)

/-- A shifted key is a multiple of a power of two that fits in the word when the key times the
shift is. -/
lemma two_pow_dvd_shiftLeft_iff {w k t : ℕ} (ht : t ≤ w) (E : ℤ) :
    2 ^ t ∣ (BitVec.ofInt w E <<< k).toNat ↔ (2 : ℤ) ^ t ∣ E * 2 ^ k := by
  rw [← Int.natCast_dvd_natCast, toNat_ofInt_shiftLeft]
  push_cast
  rw [Int.dvd_iff_emod_eq_zero, Int.dvd_iff_emod_eq_zero,
    Int.emod_emod_of_dvd _ (pow_dvd_pow 2 ht)]

/-- An index that fits in the word is itself. -/
lemma toNat_ofInt_natCast {w S : ℕ} (hS : S < 2 ^ w) :
    (BitVec.ofInt w (S : ℤ)).toNat = S := by
  rw [BitVec.toNat_ofInt, ← Int.natCast_mod, Int.toNat_natCast, Nat.mod_eq_of_lt hS]

/-- A key whose shift ends in `t` zeros and an index of `t` bits are added. -/
lemma toNat_pack {w k t : ℕ} {E : ℤ} {S : ℕ} (ht : t ≤ w) (hS : S < 2 ^ t)
    (hE : 2 ^ t ∣ (BitVec.ofInt w E <<< k).toNat) :
    (pack w k E S).toNat = (BitVec.ofInt w E <<< k).toNat + S := by
  obtain ⟨a, ha⟩ := hE
  have hSw : S < 2 ^ w := hS.trans_le (Nat.pow_le_pow_right (by omega) ht)
  rw [pack, BitVec.toNat_or, toNat_ofInt_natCast hSw, ha, Nat.two_pow_add_eq_or_of_lt hS]

/-- A key with a bit that an index can have swallows that bit. -/
lemma pack_eq_of_testBit {w k j : ℕ} {E : ℤ} (hj : (BitVec.ofInt w E <<< k).toNat.testBit j) :
    pack w k E ((2 ^ j : ℕ) : ℤ) = pack w k E 0 := by
  have hjw : j < w := by
    by_contra h
    rw [Nat.testBit_lt_two_pow] at hj
    · simp at hj
    · exact (BitVec.isLt _).trans_le (Nat.pow_le_pow_right (by omega) (by omega))
  have hzero : (BitVec.ofInt w 0).toNat = 0 := by simp
  apply BitVec.eq_of_toNat_eq
  rw [pack, pack, BitVec.toNat_or, BitVec.toNat_or, hzero,
    toNat_ofInt_natCast (Nat.pow_lt_pow_right (by omega) hjw)]
  generalize (BitVec.ofInt w E <<< k).toNat = f at hj
  apply Nat.eq_of_testBit_eq
  intro i
  rw [Nat.testBit_or, Nat.testBit_or, Nat.testBit_two_pow, Nat.zero_testBit, Bool.or_false]
  by_cases hij : j = i
  · subst hij
    simp [hj]
  · simp [hij]

/-- **When packing is injective.** For keys `V i` and indices below `m`.

**Proof sketch.** With `t` the number of bits of the largest index, a shifted key with a bit
below `t` swallows that bit of the index, so all shifted keys are multiples of `2 ^ t`. Then
the packed word is a sum, and both parts can be read off. -/
theorem pack_injective_iff {ι : Type*} [Nonempty ι] {w k m : ℕ} (hk : k ≤ w) (hm : 0 < m)
    (V : ι → ℤ) :
    (∀ i j, ∀ a < m, ∀ b < m, pack w k (V i) (a : ℕ) = pack w k (V j) (b : ℕ) →
        i = j ∧ a = b) ↔
      m ≤ 2 ^ w ∧ (∀ i, (2 : ℤ) ^ (m - 1).size ∣ V i * 2 ^ k) ∧
        ∀ i j, V i ≡ V j [ZMOD 2 ^ (w - k)] → i = j := by
  set t := (m - 1).size with ht
  have hlt : ∀ a < m, a < 2 ^ t := fun a ha =>
    (Nat.le_sub_one_of_lt ha).trans_lt (Nat.lt_size_self (m - 1))
  have htw : m ≤ 2 ^ w → t ≤ w := fun h => Nat.size_le.mpr (by omega)
  constructor
  · intro hinj
    obtain ⟨i₀⟩ := ‹Nonempty ι›
    have hfits : m ≤ 2 ^ w := by
      by_contra h
      have hzero : BitVec.ofInt w ((2 ^ w : ℕ) : ℤ) = BitVec.ofInt w 0 := by
        apply BitVec.eq_of_toNat_eq
        simp
      have := (hinj i₀ i₀ (2 ^ w) (by omega) 0 hm (by rw [pack, hzero]; rfl)).2
      have := Nat.two_pow_pos w
      omega
    refine ⟨hfits, ?_, ?_⟩
    · intro i
      rw [← two_pow_dvd_shiftLeft_iff (htw hfits), Nat.dvd_iff_mod_eq_zero]
      by_contra hne
      obtain ⟨j, hj⟩ := Nat.exists_testBit_of_ne_zero hne
      rw [Nat.testBit_mod_two_pow, Bool.and_eq_true, decide_eq_true_iff] at hj
      -- the index with only this bit is packed like the index zero
      have hjm : 2 ^ j ≤ m - 1 := Nat.lt_size.mp hj.1
      have := (hinj i i (2 ^ j) (by omega) 0 hm (pack_eq_of_testBit hj.2)).2
      have := Nat.two_pow_pos j
      omega
    · intro i j hij
      have hshift := (ofInt_shiftLeft_eq_iff hk (V i) (V j)).mpr hij
      exact (hinj i j 0 hm 0 hm (by rw [pack, pack, hshift])).1
  · rintro ⟨hfits, hdvd, hkeys⟩ i j a ha b hb h
    have hi := (two_pow_dvd_shiftLeft_iff (htw hfits) _).mpr (hdvd i)
    have hj := (two_pow_dvd_shiftLeft_iff (htw hfits) _).mpr (hdvd j)
    have hsum := congrArg BitVec.toNat h
    rw [toNat_pack (htw hfits) (hlt a ha) hi, toNat_pack (htw hfits) (hlt b hb) hj] at hsum
    -- the index is the sum modulo `2 ^ t`
    have hab : a = b := by
      have hmod := congrArg (· % 2 ^ t) hsum
      simp only [Nat.add_mod, Nat.mod_eq_zero_of_dvd hi, Nat.mod_eq_zero_of_dvd hj, Nat.zero_add,
        Nat.mod_eq_of_lt (hlt a ha), Nat.mod_eq_of_lt (hlt b hb)] at hmod
      exact hmod
    refine ⟨hkeys i j ((ofInt_shiftLeft_eq_iff hk (V i) (V j)).mp ?_), hab⟩
    apply BitVec.eq_of_toNat_eq
    omega

end CSemantics
