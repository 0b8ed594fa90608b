import Mathlib.Data.Nat.Bitwise

/-!
# Bit fields of a machine word

A field of a word is read with a mask and written with a shift and an `or`.
Both are awkward to reason about bit by bit and easy to reason about as
division, remainder and sum, so these lemmas move every such expression to
the natural number the word denotes. After them `omega` does the rest.
-/

namespace Pisces.Lib

/-- A mask of `b` ones from bit `s` on keeps exactly the field there. -/
theorem nat_and_field (n s b : Nat) :
    n &&& ((2 ^ b - 1) <<< s) = n / 2 ^ s % 2 ^ b * 2 ^ s := by
  apply Nat.eq_of_testBit_eq
  intro i
  rw [Nat.testBit_and, Nat.testBit_shiftLeft, Nat.testBit_mul_two_pow,
    Nat.testBit_mod_two_pow, Nat.testBit_two_pow_sub_one, Nat.testBit_div_two_pow]
  by_cases h : s ≤ i
  · simp [h, Bool.and_comm]
  · simp [h]

/-- The same for a word and a mask known by its value. -/
theorem toNat_and_field {w : Nat} (v m : BitVec w) {s b : Nat}
    (hm : m.toNat = (2 ^ b - 1) <<< s) :
    (v &&& m).toNat = v.toNat / 2 ^ s % 2 ^ b * 2 ^ s := by
  rw [BitVec.toNat_and, hm, nat_and_field]

/-- Or-ing a value below bit `s` into a multiple of `2 ^ s` adds it. -/
theorem nat_or_eq_add {n m s : Nat} (hn : n % 2 ^ s = 0) (hm : m < 2 ^ s) :
    n ||| m = n + m := by
  obtain ⟨k, rfl⟩ := Nat.dvd_of_mod_eq_zero hn
  rw [Nat.two_pow_add_eq_or_of_lt hm]

/-- An arithmetic shift differs from a logical one only above the word's own
bits, so a mask that keeps no more than those cannot tell them apart. -/
theorem sshiftRight_and_mask {w : Nat} (v m : BitVec w) {s b : Nat}
    (hm : m.toNat = 2 ^ b - 1) (hb : s + b ≤ w) :
    v.sshiftRight s &&& m = v >>> s &&& m := by
  apply BitVec.eq_of_getLsbD_eq
  intro i hi
  rw [BitVec.getLsbD_and, BitVec.getLsbD_and]
  have hbit : m.getLsbD i = decide (i < b) := by
    rw [BitVec.getLsbD, hm, Nat.testBit_two_pow_sub_one]
  by_cases hib : i < b
  · rw [BitVec.getLsbD_sshiftRight, BitVec.getLsbD_ushiftRight]
    have hlt : s + i < w := by omega
    have hnot : ¬ w ≤ i := by omega
    simp [hlt, hnot]
  · rw [hbit, decide_eq_false hib, Bool.and_false, Bool.and_false]

/-- Flipping the two low bits of a word that ends in `01` steps it to `10`. -/
theorem nat_xor_three {n : Nat} (h : n % 4 = 1) : n ^^^ 3 = n + 1 := by
  apply Nat.eq_of_testBit_eq
  intro i
  rw [Nat.testBit_xor]
  match i with
  | 0 => simp only [Nat.testBit_zero]; grind
  | 1 => simp only [Nat.testBit_succ, Nat.testBit_zero]; grind
  | i + 2 =>
      have h3 : Nat.testBit 3 (i + 2) = false := by
        rw [Nat.testBit_succ, Nat.testBit_succ]; simp
      rw [h3, Bool.xor_false, Nat.testBit_succ, Nat.testBit_succ, Nat.testBit_succ,
        Nat.testBit_succ]
      congr 1
      omega

end Pisces.Lib
