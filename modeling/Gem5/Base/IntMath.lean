import Gem5.Lib.ShiftRegister
import Mathlib.Tactic.IntervalCases
import Mathlib.Tactic.Ring

open Lib.ShiftRegister BitVec

namespace Gem5

/-- The 32-bit `unsigned`. -/
abbrev Unsigned : Type := BitVec 32

/-- The 64-bit `Addr`. -/
abbrev Addr : Type := BitVec 64

abbrev ThreadID : Type := Nat

/-- Sequence numbers are 64-bit in the source and never reused within a run. -/
abbrev InstSeqNum : Type := Nat

/-- `value << count`. A count of at least the width is undefined in C++; the
hardware reduces it modulo the width, and so does the model. -/
def shl {w : Nat} (value : BitVec w) (count : Nat) : BitVec w := value <<< (count % w)

/-- `value >> count` on an unsigned word, with the count reduced as in `shl`. -/
def shr {w : Nat} (value : BitVec w) (count : Nat) : BitVec w := value >>> (count % w)

def leastSigBit (n : Unsigned) : Unsigned := n &&& ~~~(n - 1)

def isPowerOf2 (n : Unsigned) : Bool := n ≠ 0 && leastSigBit n == n

/-- One halving step of `floorLog2`: when the high part selected by `high` is
not empty, move it down and count the shift. -/
def floorLog2Step (high : Unsigned) (count : Nat) (state : Nat × Unsigned) : Nat × Unsigned :=
  if state.2 &&& high ≠ 0 then (state.1 + count, state.2 >>> count) else state

def floorLog2 (x : Unsigned) : Nat :=
  let state := floorLog2Step 0xffff0000 16 (0, x)
  let state := floorLog2Step 0x0000ff00 8 state
  let state := floorLog2Step 0x000000f0 4 state
  let state := floorLog2Step 0x0000000c 2 state
  if state.2 &&& 0x00000002 ≠ 0 then state.1 + 1 else state.1

/-- `floorLog2Step` on the 64-bit `unsigned long`. -/
def floorLog2StepLong (high : Addr) (count : Nat) (state : Nat × Addr) : Nat × Addr :=
  if state.2 &&& high ≠ 0 then (state.1 + count, state.2 >>> count) else state

/-- `floorLog2(unsigned long)`. -/
def floorLog2Long (x : Addr) : Nat :=
  let state := floorLog2StepLong 0xffffffff00000000 32 (0, x)
  let state := floorLog2StepLong 0x00000000ffff0000 16 state
  let state := floorLog2StepLong 0x000000000000ff00 8 state
  let state := floorLog2StepLong 0x00000000000000f0 4 state
  let state := floorLog2StepLong 0x000000000000000c 2 state
  if state.2 &&& 0x0000000000000002 ≠ 0 then state.1 + 1 else state.1

/-- `isPowerOf2` on the 64-bit `unsigned long`. -/
def isPowerOf2Long (n : Addr) : Bool := n ≠ 0 && n &&& ~~~(n - 1) == n

def ceilLog2 (n : Unsigned) : Nat := if n = 1 then 0 else floorLog2 (n - 1) + 1

/-- `mask(nbits)` of bitfield.hh. -/
def mask (nbits : Nat) : BitVec 64 := if nbits = 64 then -1 else shl 1 nbits - 1

/-- `mask(nbits)` stored in an `unsigned`. -/
def mask32 (nbits : Nat) : Unsigned := (mask nbits).setWidth 32

theorem and_not_eq_self_iff {w : Nat} {n m : BitVec w} : n &&& ~~~m = n ↔ n &&& m = 0 := by
  constructor
  · intro h
    rw [← h, BitVec.and_assoc]
    apply eq_of_getLsbD_eq
    intro i hi
    simp
  · intro h
    apply eq_of_getLsbD_eq
    intro i hi
    have hbit := congrArg (fun v => getLsbD v i) h
    simp only [getLsbD_and, getLsbD_not, getLsbD_zero, ofNat_eq_ofNat] at hbit ⊢
    cases hn : n.getLsbD i <;> cases hm : m.getLsbD i <;> simp_all

/-- A word that is its own least significant bit is a power of two. -/
theorem and_not_sub_one_iff {w : Nat} {n : BitVec w} (hne : n ≠ 0) : n &&& ~~~(n - 1) = n ↔ ∃ k, n.toNat = 2 ^ k := by
  have hpos : n.toNat ≠ 0 := fun hzero => hne (eq_of_toNat_eq (by simpa using hzero))
  have hone : (1 : BitVec w).toNat = 1 := by
    apply Nat.mod_eq_of_lt
    apply Nat.one_lt_two_pow
    rintro rfl
    exact hne of_length_zero
  have hsub : (n - 1).toNat = n.toNat - 1 := by
    rw [toNat_sub_of_le, hone]
    rw [le_def, hone]
    omega
  rw [and_not_eq_self_iff]
  refine Iff.trans ?_ (Nat.and_sub_one_eq_zero_iff_isPowerOfTwo hpos)
  rw [← hsub, ← toNat_and]
  constructor
  · intro h
    rw [h]
    simp
  · intro h
    exact eq_of_toNat_eq (by simpa using h)

variable {n : Unsigned}

theorem isPowerOf2_iff : isPowerOf2 n = true ↔ ∃ k < 32, n.toNat = 2 ^ k := by
  rw [isPowerOf2, leastSigBit, Bool.and_eq_true, decide_eq_true_eq, beq_iff_eq]
  constructor
  · rintro ⟨hne, hbit⟩
    obtain ⟨k, hk⟩ := (and_not_sub_one_iff hne).mp hbit
    exact ⟨k, (Nat.pow_lt_pow_iff_right (by decide)).mp (hk ▸ n.isLt), hk⟩
  · rintro ⟨k, -, hk⟩
    have hne : n ≠ 0 := by
      rintro rfl
      exact absurd hk (Nat.ne_of_lt (Nat.two_pow_pos k))
    exact ⟨hne, (and_not_sub_one_iff hne).mpr ⟨k, hk⟩⟩

theorem isPowerOf2_pos (h : isPowerOf2 n = true) : 0 < n.toNat := by
  obtain ⟨k, -, hk⟩ := isPowerOf2_iff.mp h
  rw [hk]
  exact Nat.two_pow_pos k

theorem isPowerOf2_lt (h : isPowerOf2 n = true) : n.toNat < 2 ^ 32 - 1 := by
  obtain ⟨k, hlt, hk⟩ := isPowerOf2_iff.mp h
  rw [hk]
  have := Nat.pow_le_pow_right (by decide : 0 < 2) (by omega : k ≤ 31)
  omega

theorem floorLog2_of_pow (hk : k < 32) (h : n.toNat = 2 ^ k) : floorLog2 n = k := by
  have heq : n = BitVec.ofNat 32 (2 ^ k) := by
    rw [← h, ofNat_toNat, setWidth_eq]
  subst heq
  clear h
  interval_cases k <;> decide

theorem floorLog2Step_fst_le (high : Unsigned) (count : Nat) (state : Nat × Unsigned) :
    (floorLog2Step high count state).1 ≤ state.1 + count := by
  unfold floorLog2Step
  split <;> simp

theorem floorLog2_le (x : Unsigned) : floorLog2 x ≤ 31 := by
  have h₁ := floorLog2Step_fst_le 0xffff0000 16 (0, x)
  have h₂ := floorLog2Step_fst_le 0x0000ff00 8 (floorLog2Step 0xffff0000 16 (0, x))
  have h₃ := floorLog2Step_fst_le 0x000000f0 4 (floorLog2Step 0x0000ff00 8 (floorLog2Step 0xffff0000 16 (0, x)))
  have h₄ := floorLog2Step_fst_le 0x0000000c 2 (floorLog2Step 0x000000f0 4
    (floorLog2Step 0x0000ff00 8 (floorLog2Step 0xffff0000 16 (0, x))))
  simp only [floorLog2]
  simp only at h₁
  split <;> omega

theorem ceilLog2_le (n : Unsigned) : ceilLog2 n ≤ 32 := by
  have := floorLog2_le (n - 1)
  unfold ceilLog2
  split <;> omega

/-- The logarithm is exact on the sizes the constructors accept. -/
theorem ceilLog2_of_isPowerOf2 (h : isPowerOf2 n = true) : n.toNat = 2 ^ ceilLog2 n := by
  obtain ⟨k, hk, hn⟩ := isPowerOf2_iff.mp h
  have heq : n = BitVec.ofNat 32 (2 ^ k) := eq_of_toNat_eq (by simp [hn]; omega)
  subst heq
  clear hn h
  interval_cases k <;> decide

theorem ceilLog2_le_of_isPowerOf2 (h : isPowerOf2 n = true) : ceilLog2 n ≤ 31 := by
  have hlt := n.isLt
  rw [ceilLog2_of_isPowerOf2 h] at hlt
  have := (Nat.pow_lt_pow_iff_right (by decide : 1 < 2)).mp hlt
  omega

theorem mask32_isLowMask (h : nbits ≤ 32) : IsLowMask (mask32 nbits) nbits := by
  intro i
  have hpow : 2 ^ nbits < 2 ^ 64 := Nat.pow_lt_pow_right (by decide) (by omega)
  have hone : (1#64 <<< nbits).toNat = 2 ^ nbits := by
    rw [toNat_shiftLeft, Nat.shiftLeft_eq, toNat_ofNat, Nat.one_mod, Nat.one_mul, Nat.mod_eq_of_lt hpow]
  have hval : (1#64 <<< nbits - 1#64).toNat = 2 ^ nbits - 1 := by
    rw [toNat_sub_of_le, hone]
    · rfl
    · rw [le_def, hone]
      exact Nat.one_le_two_pow
  have hmask : mask nbits = 1#64 <<< nbits - 1#64 := by
    unfold mask shl
    rw [if_neg (by omega), Nat.mod_eq_of_lt (by omega)]
    rfl
  rw [mask32, hmask, getLsbD_setWidth, getLsbD, hval, Nat.testBit_two_pow_sub_one]
  simp [Bool.and_comm]

theorem mask32_toNat (h : nbits ≤ 32) : (mask32 nbits).toNat = 2 ^ nbits - 1 := by
  have hlow := mask32_isLowMask h
  apply Nat.eq_of_testBit_eq
  intro i
  have hbit := hlow i
  rw [getLsbD] at hbit
  rw [hbit, Nat.testBit_two_pow_sub_one]
  congr 1
  simp only [eq_iff_iff]
  omega

variable {size : Unsigned}

/-- Masking a table index with `mask(ceilLog2(size))` keeps it inside a table
whose size is a power of two. -/
theorem and_mask32_lt (h : isPowerOf2 size = true) (value : Unsigned) :
    (value &&& mask32 (ceilLog2 size)).toNat < size.toNat := by
  have hpow := ceilLog2_of_isPowerOf2 h
  have hpos := isPowerOf2_pos h
  have hle : (value &&& mask32 (ceilLog2 size)).toNat ≤ (mask32 (ceilLog2 size)).toNat := by
    rw [toNat_and]
    exact Nat.and_le_right
  rw [mask32_toNat (ceilLog2_le size), ← hpow] at hle
  omega

theorem toNat_pos_of_ne_zero (h : n ≠ 0) : 0 < n.toNat := by
  by_contra hzero
  exact h (eq_of_toNat_eq (by simpa using hzero))

theorem toNat_pred (h : n ≠ 0) : (n - 1).toNat = n.toNat - 1 :=
  toNat_sub_of_le (le_def.mpr (toNat_pos_of_ne_zero h))

/-- Masking a table index with `size - 1` keeps it inside any non-empty table. -/
theorem and_pred_lt (h : size ≠ 0) (value : Unsigned) : (value &&& (size - 1)).toNat < size.toNat := by
  have hpos := toNat_pos_of_ne_zero h
  have hsub := toNat_pred h
  have hle : (value &&& (size - 1)).toNat ≤ (size - 1).toNat := by
    rw [toNat_and]
    exact Nat.and_le_right
  omega

theorem ne_zero_of_isPowerOf2 (h : isPowerOf2 n = true) : n ≠ 0 := by
  rintro rfl
  exact absurd (isPowerOf2_pos h) (by decide)

/-- A register that the mask of a table fits into has a bit for each bit of the
index. -/
theorem ceilLog2_le_of_pred_le (h : isPowerOf2 size = true) (hbits : nbits ≤ 32) (hle : size - 1 ≤ mask32 nbits) :
    ceilLog2 size ≤ nbits := by
  have hnat := le_def.mp hle
  rw [toNat_pred (ne_zero_of_isPowerOf2 h), mask32_toNat hbits, ceilLog2_of_isPowerOf2 h] at hnat
  have hone : 1 ≤ 2 ^ nbits := Nat.one_le_two_pow
  exact (Nat.pow_le_pow_iff_right (by decide : 1 < 2)).mp (by omega)

end Gem5
