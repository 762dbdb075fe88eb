import Gem5.Lib.ShiftRegister

open BitVec

namespace Lib.FoldedHistory

open ShiftRegister

variable {w : Nat}

/-- The word with the outcome at one position. -/
def bit (outcome : Bool) (position : Nat) : BitVec w := (ofBool outcome).setWidth w <<< position

/-- The newest `length` outcomes folded into `width` bits: the XOR of them, each
at its age modulo the width. -/
def fold (width : Nat) (outcomes : List Bool) : Nat → BitVec w
  | 0 => 0
  | length + 1 => fold width outcomes length ^^^ bit (outcomes.getD length false) (length % width)

/-- One step of a folded register: it is rotated within its width, the newest
outcome enters at the bottom and the leaving one is cancelled at `outpoint`. -/
def foldStep (mask : BitVec w) (width outpoint : Nat) (register : BitVec w) (newest leaving : Bool) : BitVec w :=
  let register := register <<< 1 ||| bit newest 0
  let register := register ^^^ bit leaving outpoint
  let register := register ^^^ register >>> width
  register &&& mask

/-- The rotation alone. -/
def rotate (mask : BitVec w) (width : Nat) (register : BitVec w) : BitVec w :=
  foldStep mask width 0 register false false

/-- No bit of the word is at or above `width`. -/
def Fits (width : Nat) (register : BitVec w) : Prop := ∀ i, width ≤ i → register.getLsbD i = false

theorem getLsbD_bit (outcome : Bool) (position i : Nat) :
    (bit outcome position : BitVec w).getLsbD i = (outcome && decide (i = position ∧ i < w)) := by
  cases outcome with
  | false => simp [bit]
  | true =>
    by_cases hi : i < w
    · rcases Nat.lt_trichotomy i position with hlt | rfl | hgt
      · simp [bit, hi, hlt, Nat.ne_of_lt hlt]
      · simp [bit, hi]
      · have hne : i - position ≠ 0 := by omega
        simp [bit, hi, hne, Nat.ne_of_gt hgt]
    · simp [hi, getLsbD_of_ge _ i (Nat.le_of_not_lt hi)]

theorem fits_bit (h : position < width) (outcome : Bool) : Fits width (bit outcome position : BitVec w) := by
  intro i hi
  rw [getLsbD_bit]
  simp only [Bool.and_eq_false_iff, decide_eq_false_iff_not]
  omega

theorem Fits.xor (h₁ : Fits width first) (h₂ : Fits width second) : Fits width (first ^^^ second) := by
  intro i hi
  rw [getLsbD_xor, h₁ i hi, h₂ i hi]
  rfl

theorem xor_cancel_right (first second : BitVec w) : first ^^^ second ^^^ second = first := by
  rw [BitVec.xor_assoc, BitVec.xor_self, xor_zero]

theorem fits_zero (width : Nat) : Fits width (0 : BitVec w) := by
  intro i _
  simp

theorem fits_fold (h : 0 < width) (outcomes : List Bool) (length : Nat) :
    Fits width (fold width outcomes length : BitVec w) := by
  induction length with
  | zero => exact fits_zero width
  | succ length ih => exact ih.xor (fits_bit (Nat.mod_lt length h) _)

/-- Only the newest `length` outcomes count. -/
theorem fold_congr (h : ∀ j < length, first.getD j false = second.getD j false) :
    (fold width first length : BitVec w) = fold width second length := by
  induction length with
  | zero => rfl
  | succ length ih =>
    rw [fold, fold, h length (Nat.lt_succ_self length), ih]
    intro j hj
    exact h j (Nat.lt_succ_of_lt hj)

section

variable {mask : BitVec w} {width : Nat} (hmask : IsLowMask mask width)

include hmask

theorem fits_foldStep (outpoint : Nat) (register : BitVec w) (newest leaving : Bool) :
    Fits width (foldStep mask width outpoint register newest leaving) := by
  intro i hi
  have hbit : mask.getLsbD i = false := by
    rw [hmask i, decide_eq_false_iff_not]
    omega
  rw [foldStep, getLsbD_and, hbit, Bool.and_false]

variable (hwidth : width < w) {outpoint : Nat} (houtpoint : outpoint < width)

include hwidth houtpoint

theorem getLsbD_foldStep (hfits : Fits width register) (newest leaving : Bool) (i : Nat) :
    (foldStep mask width outpoint register newest leaving).getLsbD i = (decide (i < width) &&
        ((if i = 0 then newest ^^ register.getLsbD (width - 1) else register.getLsbD (i - 1)) ^^
          (leaving && decide (i = outpoint)))) := by
  by_cases hi : i < width
  · have hbit : mask.getLsbD i = true := hmask.getLsbD_true (Nat.le_of_lt hwidth) hi
    have hw : i < w := by omega
    simp only [foldStep, getLsbD_and, getLsbD_xor, getLsbD_ushiftRight, getLsbD_or,
      getLsbD_shiftLeft, getLsbD_bit, hbit, hi, hw, decide_true, Bool.and_true, Bool.true_and, and_true]
    cases i with
    | zero =>
      -- The bit shifted out of the register comes back in at the bottom.
      have hne : ¬width = outpoint := by omega
      have hzero : ¬width = 0 := by omega
      have hone : ¬width < 1 := by omega
      simp [hwidth, hne, hzero, hone]
      cases newest <;> cases leaving <;> cases register.getLsbD (width - 1) <;> simp
    | succ j =>
      have hshifted : register.getLsbD (width + j) = false := hfits _ (by omega)
      have hne : ¬width + (j + 1) = outpoint := by omega
      simp [hshifted, hne]
  · rw [fits_foldStep hmask outpoint register newest leaving i (Nat.le_of_not_lt hi)]
    simp [hi]

end

section

variable {mask : BitVec w} {width : Nat} (hmask : IsLowMask mask width) (hpos : 0 < width) (hwidth : width < w)

include hmask hpos hwidth

theorem getLsbD_rotate (hfits : Fits width register) (i : Nat) : (rotate mask width register).getLsbD i =
      (decide (i < width) && if i = 0 then register.getLsbD (width - 1) else register.getLsbD (i - 1)) := by
  rw [rotate, getLsbD_foldStep hmask hwidth hpos hfits]
  simp

theorem foldStep_eq_rotate (houtpoint : outpoint < width) (hfits : Fits width register) (newest leaving : Bool) :
    foldStep mask width outpoint register newest leaving =
      rotate mask width register ^^^ bit newest 0 ^^^ bit leaving outpoint := by
  apply eq_of_getLsbD_eq
  intro i hi
  rw [getLsbD_foldStep hmask hwidth houtpoint hfits, getLsbD_xor, getLsbD_xor,
    getLsbD_rotate hmask hpos hwidth hfits, getLsbD_bit, getLsbD_bit]
  by_cases hlow : i < width
  · by_cases hzero : i = 0
    · subst hzero
      simp only [hi, hpos, decide_true, Bool.true_and, and_true, if_true, Bool.and_true]
      rw [Bool.xor_comm newest]
    · simp [hi, hlow, hzero]
  · have hzero : i ≠ 0 := by omega
    have hout : i ≠ outpoint := by omega
    simp [hlow, hzero, hout]

theorem rotate_xor (h₁ : Fits width first) (h₂ : Fits width second) :
    rotate mask width (first ^^^ second) = rotate mask width first ^^^ rotate mask width second := by
  apply eq_of_getLsbD_eq
  intro i _
  rw [getLsbD_xor, getLsbD_rotate hmask hpos hwidth (h₁.xor h₂), getLsbD_rotate hmask hpos hwidth h₁,
    getLsbD_rotate hmask hpos hwidth h₂]
  by_cases hzero : i = 0
  · subst hzero
    simp [hpos]
  · by_cases hlow : i < width <;> simp [hzero, hlow]

theorem rotate_bit (h : position < width) (outcome : Bool) :
    rotate mask width (bit outcome position) = bit outcome ((position + 1) % width) := by
  apply eq_of_getLsbD_eq
  intro i hi
  rw [getLsbD_rotate hmask hpos hwidth (fits_bit h outcome), getLsbD_bit, getLsbD_bit, getLsbD_bit]
  have hnext : (position + 1) % width = if position + 1 = width then 0 else position + 1 := by
    split
    · rename_i heq
      rw [heq, Nat.mod_self]
    · exact Nat.mod_eq_of_lt (by omega)
  rw [hnext]
  cases outcome with
  | false => simp
  | true =>
    split <;> split <;> simp only [Bool.true_and] <;> rw [← Bool.decide_and] <;> congr 1 <;>
      simp only [eq_iff_iff] <;> omega

theorem rotate_zero : rotate mask width (0 : BitVec w) = 0 := by
  apply eq_of_getLsbD_eq
  intro i _
  rw [getLsbD_rotate hmask hpos hwidth (fits_zero width)]
  simp

/-- The fold of the history with a new outcome, by one rotation. -/
theorem fold_cons (newest : Bool) (outcomes : List Bool) (length : Nat) :
    (fold width (newest :: outcomes) length : BitVec w) =
      rotate mask width (fold width outcomes length) ^^^ bit newest 0 ^^^
        bit ((newest :: outcomes).getD length false) (length % width) := by
  induction length with
  | zero =>
    rw [fold, fold, rotate_zero hmask hpos hwidth, List.getD_cons_zero, Nat.zero_mod, BitVec.xor_assoc,
      BitVec.xor_self]
    simp
  | succ length ih =>
    -- The outcome that leaves a history of `length` outcomes stays in one that is longer.
    have hrotated : rotate mask width (fold width outcomes (length + 1) : BitVec w) =
        rotate mask width (fold width outcomes length) ^^^
          bit (outcomes.getD length false) ((length + 1) % width) := by
      have hlt := Nat.mod_lt length hpos
      rw [fold, rotate_xor hmask hpos hwidth (fits_fold hpos outcomes length) (fits_bit hlt _),
        rotate_bit hmask hpos hwidth hlt, Nat.mod_add_mod]
    rw [fold, ih, hrotated, List.getD_cons_succ, xor_cancel_right, BitVec.xor_assoc (rotate mask width _),
      BitVec.xor_comm (bit _ _) (bit newest 0), ← BitVec.xor_assoc, xor_cancel_right]

/-- A step rotates what the register differs by from the fold of the history. -/
theorem foldStep_xor_fold (hfits : Fits width register) (newest : Bool) (outcomes : List Bool) (length : Nat) :
    foldStep mask width (length % width) register newest ((newest :: outcomes).getD length false) ^^^
        fold width (newest :: outcomes) length = rotate mask width (register ^^^ fold width outcomes length) := by
  rw [foldStep_eq_rotate hmask hpos hwidth (Nat.mod_lt length hpos) hfits, fold_cons hmask hpos hwidth,
    rotate_xor hmask hpos hwidth hfits (fits_fold hpos outcomes length)]
  apply eq_of_getLsbD_eq
  intro i _
  simp only [getLsbD_xor]
  cases (rotate mask width register).getLsbD i <;> cases (rotate mask width (fold width outcomes length)).getLsbD i <;>
    cases (bit newest 0 : BitVec w).getLsbD i <;>
    cases (bit ((newest :: outcomes).getD length false) (length % width) : BitVec w).getLsbD i <;> rfl

end

end Lib.FoldedHistory
