import Gem5.Base.IntMath
import Gem5.Pred.SatCounter

open BitVec

namespace Gem5

/-- `invalidPredictorIndex`, the `int` -1 compared with an `unsigned`. -/
def invalidPredictorIndex : Unsigned := -1

/-- `calcLocHistIdx`: the low order bits after removing the instruction offset. -/
def calcLocHistIdx (instShiftAmt localHistoryTableSize : Unsigned) (branch_addr : Addr) : Unsigned :=
  (shr branch_addr instShiftAmt.toNat &&& (localHistoryTableSize - 1).setWidth 64).setWidth 32

/-- The gshare hash of an address with a history register, truncated to `mask`. -/
def gshareIdx (instShiftAmt mask history : Unsigned) (branch_addr : Addr) : Unsigned :=
  ((shr branch_addr instShiftAmt.toNat ^^^ history.setWidth 64) &&& mask.setWidth 64).setWidth 32

/-- The threshold `(ULL(1) << (bits - 1)) - 1` of a counter of `bits` bits. -/
def ctrThreshold (bits : Unsigned) : Unsigned := (shl 1#64 (bits - 1).toNat - 1).setWidth 32

/-- The threshold `(ULL(1) << 2*(bits - 1)) - 1` of a second choice counter. -/
def ctrThreshold2 (bits : Unsigned) : Unsigned := (shl 1#64 (2 * (bits - 1)).toNat - 1).setWidth 32

/-- A local history with one more outcome. It is truncated only where it is
used. -/
def shiftLocal (history : Unsigned) (taken : Bool) : Unsigned :=
  history <<< 1 ||| (ofBool taken).setWidth 32

theorem and_setWidth (value : Addr) (mask : Unsigned) :
    (value &&& mask.setWidth 64).setWidth 32 = value.setWidth 32 &&& mask := by
  apply eq_of_getLsbD_eq
  intro i hi
  simp [hi, show i < 64 by omega]

theorem calcLocHistIdx_lt (h : localHistoryTableSize ≠ 0) (instShiftAmt : Unsigned) (branch_addr : Addr) :
    (calcLocHistIdx instShiftAmt localHistoryTableSize branch_addr).toNat < localHistoryTableSize.toNat := by
  rw [calcLocHistIdx, and_setWidth]
  exact and_pred_lt h _

theorem gshareIdx_eq (instShiftAmt mask history : Unsigned) (branch_addr : Addr) :
    gshareIdx instShiftAmt mask history branch_addr =
      ((shr branch_addr instShiftAmt.toNat).setWidth 32 ^^^ history) &&& mask := by
  rw [gshareIdx, and_setWidth]
  congr 1
  apply eq_of_getLsbD_eq
  intro i hi
  simp [hi, show i < 64 by omega]

theorem xor_and_eq_iff (hash first second mask : BitVec w) :
    (hash ^^^ first) &&& mask = (hash ^^^ second) &&& mask ↔ first &&& mask = second &&& mask := by
  simp only [eq_of_getLsbD_eq_iff, getLsbD_and, getLsbD_xor]
  refine forall_congr' fun i => forall_congr' fun _ => ?_
  cases hash.getLsbD i <;> cases first.getLsbD i <;> cases second.getLsbD i <;> cases mask.getLsbD i <;> decide

/-- The hash of one address under two histories selects the same entry exactly
when the histories agree under the mask. -/
theorem gshareIdx_eq_iff (instShiftAmt mask first second : Unsigned) (branch_addr : Addr) :
    gshareIdx instShiftAmt mask first branch_addr = gshareIdx instShiftAmt mask second branch_addr ↔
      first &&& mask = second &&& mask := by
  rw [gshareIdx_eq, gshareIdx_eq, xor_and_eq_iff]

theorem gshareIdx_lt (h : size ≠ 0) (instShiftAmt history : Unsigned) (branch_addr : Addr) :
    (gshareIdx instShiftAmt (size - 1) history branch_addr).toNat < size.toNat := by
  rw [gshareIdx_eq]
  exact and_pred_lt h _

/-- A second choice counter of `bits2` bits saturates below its threshold. -/
theorem maxVal_le_ctrThreshold2 {bits : Unsigned} (hbits : bits ≤ 8) (hbits2 : bits2 ≤ 8) (h : bits2 ≤ 2 * (bits - 1)) :
    (SatCounter.setBits bits2.toNat).maxVal ≤ (ctrThreshold2 bits).toNat := by
  have hsmall : ∀ a b : Fin 9, BitVec.ofNat 32 b ≤ 2 * (BitVec.ofNat 32 a - 1) →
      (SatCounter.setBits b).maxVal ≤ (ctrThreshold2 (BitVec.ofNat 32 a)).toNat := by
    decide
  have ha : bits.toNat < 9 := Nat.lt_succ_of_le (le_def.mp hbits)
  have hb : bits2.toNat < 9 := Nat.lt_succ_of_le (le_def.mp hbits2)
  have hcase := hsmall ⟨bits.toNat, ha⟩ ⟨bits2.toNat, hb⟩
  simp only [ofNat_toNat, setWidth_eq] at hcase
  exact hcase h

theorem le_two_mul_pred {bits : Unsigned} (hlow : 2 ≤ bits) (hhigh : bits ≤ 8) : bits ≤ 2 * (bits - 1) := by
  have hsmall : ∀ a : Fin 9, 2 ≤ a.val → BitVec.ofNat 32 a ≤ 2 * (BitVec.ofNat 32 a - 1) := by decide
  have hcase := hsmall ⟨bits.toNat, Nat.lt_succ_of_le (le_def.mp hhigh)⟩ (le_def.mp hlow)
  simpa only [ofNat_toNat, setWidth_eq] using hcase

/-- No index below a table size that is a power of two is mistaken for the
invalid one. -/
theorem ne_invalidPredictorIndex_of_lt (h : isPowerOf2 size = true) (hlt : index.toNat < size.toNat) :
    index ≠ invalidPredictorIndex := by
  have hsize := isPowerOf2_lt h
  rintro rfl
  have hval : invalidPredictorIndex.toNat = 2 ^ 32 - 1 := by decide
  omega

end Gem5
