import Mathlib.Data.Nat.Bitwise

open BitVec Function

namespace Lib.ShiftRegister

variable {w : Nat}

/-- Shifts one outcome into the register and truncates it to `mask`. -/
def shiftIn (mask register : BitVec w) (outcome : Bool) : BitVec w :=
  (register <<< 1 ||| (ofBool outcome).setWidth w) &&& mask

/-- Overwrites the newest outcome of the register with `false`. -/
def clearNewest (mask register : BitVec w) : BitVec w :=
  register &&& (mask &&& ~~~1#w)

/-- `mask` selects exactly the low `bits` bits of a word. -/
def IsLowMask (mask : BitVec w) (bits : Nat) : Prop :=
  ∀ i, mask.getLsbD i = decide (i < bits ∧ i < w)

/-- The low `bits` bits of the register are the outcomes, newest in bit 0.
Before the first outcome the register is zero. -/
def Records (bits : Nat) (register : BitVec w) (outcomes : List Bool) : Prop :=
  ∀ i < bits, register.getLsbD i = outcomes.getD i false

/-- Two registers have the same low `bits` bits. -/
def AgreeBelow (bits : Nat) (first second : BitVec w) : Prop :=
  ∀ i < bits, first.getLsbD i = second.getLsbD i

theorem shiftIn_le (mask register : BitVec w) (outcome : Bool) : shiftIn mask register outcome ≤ mask := by
  rw [le_def, shiftIn, toNat_and]
  exact Nat.and_le_right

theorem clearNewest_le (mask register : BitVec w) : clearNewest mask register ≤ mask := by
  rw [le_def, clearNewest, toNat_and, toNat_and]
  exact Nat.le_trans Nat.and_le_right Nat.and_le_left

theorem getLsbD_shiftIn (mask register : BitVec w) (outcome : Bool) (i : Nat) :
    (shiftIn mask register outcome).getLsbD i =
      (mask.getLsbD i && if i = 0 then outcome else register.getLsbD (i - 1)) := by
  by_cases hi : i < w
  · cases i with
    | zero => simp [shiftIn, hi, Bool.and_comm]
    | succ j =>
      have hj : j < w := by omega
      simp [shiftIn, hi, hj, Bool.and_comm]
  · have hmask : mask.getLsbD i = false := getLsbD_of_ge mask i (by omega)
    simp [shiftIn, hmask]

theorem getLsbD_clearNewest (mask register : BitVec w) (i : Nat) : (clearNewest mask register).getLsbD i =
      (mask.getLsbD i && if i = 0 then false else register.getLsbD i) := by
  by_cases hi : i < w
  · by_cases hzero : i = 0
    · simp [clearNewest, hzero]
    · simp [clearNewest, hi, hzero, Bool.and_comm]
  · have hmask : mask.getLsbD i = false := getLsbD_of_ge mask i (by omega)
    simp [clearNewest, hmask]

variable {mask : BitVec w} {bits : Nat}

theorem IsLowMask.getLsbD_true (hmask : IsLowMask mask bits) (hbits : bits ≤ w) (hi : i < bits) :
    mask.getLsbD i = true := by
  rw [hmask i]
  exact decide_eq_true ⟨hi, by omega⟩

variable {register : BitVec w} {outcomes : List Bool}

theorem Records.shiftIn (h : Records bits register outcomes) (hmask : IsLowMask mask bits) (hbits : bits ≤ w)
    (outcome : Bool) : Records bits (shiftIn mask register outcome) (outcome :: outcomes) := by
  intro i hi
  rw [getLsbD_shiftIn, hmask.getLsbD_true hbits hi]
  cases i with
  | zero => simp
  | succ j => simpa using h j (by omega)

theorem Records.clearNewest (h : Records bits register (outcome :: outcomes)) (hmask : IsLowMask mask bits)
    (hbits : bits ≤ w) : Records bits (clearNewest mask register) (false :: outcomes) := by
  intro i hi
  rw [getLsbD_clearNewest, hmask.getLsbD_true hbits hi]
  cases i with
  | zero => simp
  | succ j => simpa using h (j + 1) hi

/-- A register that was not shifted records the new outcome exactly when all of
its low bits already equal that outcome. -/
theorem Records.cons_iff (h : Records bits register outcomes) (outcome : Bool) :
    Records bits register (outcome :: outcomes) ↔ ∀ i < bits, register.getLsbD i = outcome := by
  constructor
  · intro hcons i
    induction i with
    | zero => intro hi; simpa using hcons 0 hi
    | succ j ih =>
      intro hi
      have hshifted : register.getLsbD (j + 1) = outcomes.getD j false := by
        simpa using hcons (j + 1) hi
      rw [hshifted, ← h j (by omega)]
      exact ih (by omega)
  · intro hall i hi
    cases i with
    | zero => simpa using hall 0 hi
    | succ j =>
      have hsame := h j (by omega)
      rw [hall j (by omega)] at hsame
      rw [List.getD_cons_succ, ← hsame]
      exact hall (j + 1) hi

theorem records_zero (bits : Nat) : Records bits (0#w) [] := by
  intro i _
  simp

theorem AgreeBelow.refl (bits : Nat) (register : BitVec w) : AgreeBelow bits register register :=
  fun _ _ => rfl

variable {first second mask₁ mask₂ : BitVec w}

theorem AgreeBelow.shiftIn (h : AgreeBelow bits first second) (hmask : AgreeBelow bits mask₁ mask₂)
    (outcome : Bool) : AgreeBelow bits (shiftIn mask₁ first outcome) (shiftIn mask₂ second outcome) := by
  intro i hi
  rw [getLsbD_shiftIn, getLsbD_shiftIn, hmask i hi]
  cases i with
  | zero => rfl
  | succ j => simp [h j (by omega)]

theorem AgreeBelow.clearNewest (h : AgreeBelow bits first second) (hmask : AgreeBelow bits mask₁ mask₂) :
    AgreeBelow bits (clearNewest mask₁ first) (clearNewest mask₂ second) := by
  intro i hi
  rw [getLsbD_clearNewest, getLsbD_clearNewest, hmask i hi, h i hi]

/-- Registers that agree pairwise still do when two of them are set to values
that agree. -/
theorem AgreeBelow.update {I : Type} [DecidableEq I] {first second : I → BitVec w}
    (h : ∀ j, AgreeBelow bits (first j) (second j)) (i : I) (hxy : AgreeBelow bits x y) (j : I) :
    AgreeBelow bits (update first i x j) (update second i y j) := by
  by_cases hj : j = i
  · subst hj
    simpa using hxy
  · simpa [hj] using h j

theorem IsLowMask.agreeBelow (h₁ : IsLowMask mask₁ bits₁) (h₂ : IsLowMask mask₂ bits₂) (hle₁ : bits ≤ bits₁)
    (hle₂ : bits ≤ bits₂) : AgreeBelow bits mask₁ mask₂ := by
  intro i hi
  rw [h₁ i, h₂ i]
  congr 1
  simp only [eq_iff_iff]
  omega

/-- A word that is at most a low mask has no bits outside of it. -/
theorem IsLowMask.getLsbD_of_le (hmask : IsLowMask mask bits) (hle : value ≤ mask) (hi : bits ≤ i) :
    value.getLsbD i = false := by
  have hbound : mask.toNat < 2 ^ bits := by
    apply Nat.lt_pow_two_of_testBit
    intro j hj
    have hbit := hmask j
    rw [getLsbD] at hbit
    rw [hbit]
    simp
    omega
  rw [getLsbD]
  apply Nat.testBit_lt_two_pow
  calc value.toNat ≤ mask.toNat := by simpa [le_def] using hle
    _ < 2 ^ bits := hbound
    _ ≤ 2 ^ i := Nat.pow_le_pow_right (by decide) hi

/-- Registers that agree on the bits of a low mask are not told apart by any
smaller mask. -/
theorem AgreeBelow.and_eq (h : AgreeBelow bits first second) (hmask : IsLowMask mask bits) (hle : small ≤ mask) :
    first &&& small = second &&& small := by
  apply eq_of_getLsbD_eq
  intro i _
  rw [getLsbD_and, getLsbD_and]
  by_cases hi : i < bits
  · rw [h i hi]
  · simp [hmask.getLsbD_of_le hle (by omega : bits ≤ i)]

/-- The register after `count` outcomes, all of them `true`. -/
theorem IsLowMask.iterate_shiftIn_true (hmask : IsLowMask mask bits) (register : BitVec w) (hcount : bits ≤ count) :
    (fun r => shiftIn mask r true)^[count] register = mask ∨ count = 0 := by
  have hbits : ∀ n i, i < n → i < bits → i < w →
      ((fun r => shiftIn mask r true)^[n] register).getLsbD i = true := by
    intro n
    induction n with
    | zero => intro i hi; omega
    | succ n ih =>
      intro i hi hb hw
      rw [iterate_succ_apply', getLsbD_shiftIn, hmask i]
      cases i with
      | zero => simp [hb, hw]
      | succ j => simpa [hb, hw] using ih j (by omega) (by omega) (by omega)
  cases count with
  | zero => exact .inr rfl
  | succ count =>
    left
    apply eq_of_getLsbD_eq
    intro i hw
    by_cases hb : i < bits
    · rw [hbits (count + 1) i (by omega) hb hw, hmask i]
      simp [hb, hw]
    · rw [iterate_succ_apply', getLsbD_shiftIn, hmask i]
      simp [hb]

end Lib.ShiftRegister
