import Gem5.Base.IntMath
import Gem5.Lib.BitSlice

open Lib.BitSlice BitVec

namespace Gem5

/-- `mask(nbits)` for an `int`. The hardware reduces the count of the shift
modulo the width, also where it is negative. -/
def maskInt (nbits : Int) : BitVec 64 := if nbits = 64 then -1 else shl 1 (nbits % 64).toNat - 1

/-- `bits(val, first, last)` of a 64-bit word. -/
def bits (val : BitVec 64) (first last : Int) : BitVec 64 :=
  shr val (last % 64).toNat &&& maskInt (first - last + 1)

/-- `insertBits(val, first, last, bit_val)` on 64-bit words. -/
def insertBits (val : BitVec 64) (first last : Int) (bit_val : BitVec 64) : BitVec 64 :=
  let bmask := shl (maskInt (first - last + 1)) (last % 64).toNat
  (shl bit_val (last % 64).toNat &&& bmask) ||| (val &&& ~~~bmask)

theorem shr_toNat {val : BitVec 64} (h : count < 64) : (shr val count).toNat = val.toNat / 2 ^ count := by
  rw [shr, Nat.mod_eq_of_lt h, toNat_ushiftRight, Nat.shiftRight_eq_div_pow]

theorem maskInt_toNat {nbits : Nat} (h : nbits ≤ 64) : (maskInt nbits).toNat = 2 ^ nbits - 1 := by
  rcases Nat.lt_or_eq_of_le h with hlt | rfl
  · have hcount : ((nbits : Int) % 64).toNat = nbits := by omega
    have hpow : 2 ^ nbits < 2 ^ 64 := Nat.pow_lt_pow_right (by decide) hlt
    have hone : (shl (1 : BitVec 64) nbits).toNat = 2 ^ nbits := by
      rw [shl, Nat.mod_eq_of_lt hlt, toNat_shiftLeft, Nat.shiftLeft_eq]
      change 1 * 2 ^ nbits % 2 ^ 64 = 2 ^ nbits
      rw [Nat.one_mul, Nat.mod_eq_of_lt hpow]
    rw [maskInt, if_neg (by omega), hcount, toNat_sub_of_le, hone]
    · rfl
    · rw [le_def, hone]
      exact Nat.one_le_two_pow
  · rfl

/-- A field that lies within the word is the slice of its bits. -/
theorem bits_toNat {val : BitVec 64} {first last : Int} {low len : Nat} (hlast : last = low)
    (hfirst : first + 1 = low + len) (hlow : low < 64) (hlen : len ≤ 64) :
    (bits val first last).toNat = slice val.toNat low len := by
  have hcount : (last % 64).toNat = low := by omega
  rw [bits, toNat_and, hcount, shr_toNat hlow, show first - last + 1 = (len : Int) by omega,
    maskInt_toNat hlen, Nat.and_two_pow_sub_one_eq_mod, slice]

/-- Whatever field is asked for, it has no more bits than that. -/
theorem bits_toNat_lt {val : BitVec 64} {first last : Int} {len : Nat} (hlen : first - last + 1 = len)
    (h : len ≤ 64) : (bits val first last).toNat < 2 ^ len := by
  have hle : (bits val first last).toNat ≤ 2 ^ len - 1 := by
    rw [bits, toNat_and, hlen, maskInt_toNat h]
    exact Nat.and_le_right
  have hpos := Nat.two_pow_pos len
  omega

/-- Inserting at the bottom replaces the low bits. -/
theorem insertBits_zero_toNat {val bit_val : BitVec 64} {first : Int} {len : Nat} (hfirst : first + 1 = len)
    (hlen : len ≤ 64) :
    (insertBits val first 0 bit_val).toNat = val.toNat / 2 ^ len * 2 ^ len + bit_val.toNat % 2 ^ len := by
  have hmask : ∀ i, (maskInt len).getLsbD i = decide (i < len) := by
    intro i
    rw [getLsbD, maskInt_toNat hlen, Nat.testBit_two_pow_sub_one]
  rw [insertBits, show first - 0 + 1 = (len : Int) by omega]
  simp only [shl, Int.zero_emod, Int.toNat_zero, Nat.zero_mod, shiftLeft_zero]
  apply Nat.eq_of_testBit_eq
  intro i
  rw [Nat.mul_comm, Nat.testBit_two_pow_mul_add _ (Nat.mod_lt _ (Nat.two_pow_pos len)), testBit_toNat,
    getLsbD_or, getLsbD_and, getLsbD_and, getLsbD_not, hmask]
  by_cases hi : i < len
  · rw [if_pos hi, Nat.testBit_mod_two_pow]
    simp [hi, testBit_toNat]
  rw [if_neg hi, Nat.testBit_div_two_pow, show i - len + len = i by omega, testBit_toNat]
  by_cases hw : i < 64
  · simp [hi, hw]
  · rw [getLsbD_of_ge val i (by omega)]
    simp [hi, hw]

end Gem5
