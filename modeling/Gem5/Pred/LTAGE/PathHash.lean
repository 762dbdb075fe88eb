import Gem5.Base.Bitfield
import Gem5.Pred.LTAGE.Folding

open BitVec

namespace Gem5.LTAGE.Params

/-- The counts of the shifts in `F` and in `gindex`, each with the width of the word
that is shifted. -/
def shiftCounts (p : Params) (size : Int) (bank : Nat) : List (Int × Nat) :=
  let tableSize := p.tagTableSizes bank
  [(size, 64), (tableSize, 64), (tableSize, 32), (bank, 32), (tableSize - bank, 32), (|tableSize - bank| + 1, 64)]

/-- What `F` is to compute from the last bits `a` of the path history: the bits above
the lowest `width` ones are rotated, added without carry, and the sum is rotated. -/
def rotatedHash (width a bank : Nat) : BitVec width :=
  (BitVec.ofNat width a ^^^ (BitVec.ofNat width (a / 2 ^ width)).rotateLeft bank).rotateLeft bank

/-- Masking a sign-extended word with fewer than 32 bits. -/
theorem toNat_and_lowBits (value : BitVec 32) {bits : Nat} (hbits : bits < 32) :
    (value.signExtend 64 &&& lowBits bits).toNat = value.toNat % 2 ^ bits := by
  have hmask : lowBits bits = maskInt bits := by
    rw [maskInt, if_neg (by omega)]
    rfl
  have hdvd : 2 ^ bits ∣ 2 ^ 64 - 2 ^ 32 := Nat.dvd_sub (Nat.pow_dvd_pow 2 (by omega)) (Nat.pow_dvd_pow 2 (by omega))
  have hvalue : value.toNat % 2 ^ 64 = value.toNat := Nat.mod_eq_of_lt (Nat.lt_trans value.isLt (by decide))
  rw [toNat_and, hmask, maskInt_toNat (by omega), Nat.and_two_pow_sub_one_eq_mod, toNat_signExtend,
    toNat_setWidth, hvalue]
  split
  · rw [Nat.add_mod, Nat.mod_eq_zero_of_dvd hdvd, Nat.add_zero, Nat.mod_mod]
  · rfl

/-- A nonnegative word that is shifted to the right and sign-extended. -/
theorem toNat_sarInt {value : BitVec 32} (hvalue : value.toNat < 2 ^ 31) {count : Nat} (hcount : count < 32) :
    (sarInt value count).toNat = value.toNat / 2 ^ count := by
  have hmsb : value.msb = false := msb_eq_false_iff_two_mul_lt.mpr (by omega)
  rw [sarInt, toNat_emod_natCast hcount, sshiftRight_eq_of_msb_false hmsb, toNat_ushiftRight,
    Nat.shiftRight_eq_div_pow]

/-- One of the two rotations in `F`. -/
theorem toNat_rotate {value : BitVec 32} {width count : Nat} (hvalue : value.toNat < 2 ^ width) (hwidth : width < 32)
    (hpos : 0 < count) (hcount : count ≤ width) : ((((shlInt value count).signExtend 64 &&& lowBits width) +
        (sarInt value ((width : Int) - count)).signExtend 64).setWidth 32).toNat =
      ((BitVec.ofNat width value.toNat).rotateLeft count).toNat := by
  have hpow : 2 ^ width ≤ 2 ^ 31 := Nat.pow_le_pow_right (by decide) (by omega)
  have hhigh : (sarInt value ((width : Int) - count)).toNat = value.toNat / 2 ^ (width - count) := by
    rw [← Int.natCast_sub hcount]
    exact toNat_sarInt (by omega) (by omega)
  have hlt : value.toNat / 2 ^ (width - count) < 2 ^ count := by
    rw [Nat.div_lt_iff_lt_mul (Nat.two_pow_pos _), ← Nat.pow_add, Nat.add_sub_cancel' hcount]
    exact hvalue
  have hsplit : 2 ^ width = 2 ^ count * 2 ^ (width - count) := by rw [← Nat.pow_add, Nat.add_sub_cancel' hcount]
  have hlow : (shlInt value count).toNat % 2 ^ width = 2 ^ count * (value.toNat % 2 ^ (width - count)) := by
    rw [shlInt_natCast _ (by omega), toNat_shiftLeft, Nat.shiftLeft_eq,
      Nat.mod_mod_of_dvd _ (Nat.pow_dvd_pow 2 (by omega)), Nat.mul_comm, hsplit, Nat.mul_mod_mul_left]
  have hsum : 2 ^ count * (value.toNat % 2 ^ (width - count)) + value.toNat / 2 ^ (width - count) < 2 ^ width := by
    have hmod := Nat.mod_lt value.toNat (Nat.two_pow_pos (width - count))
    calc _ < 2 ^ count * (value.toNat % 2 ^ (width - count)) + 2 ^ count := Nat.add_lt_add_left hlt _
      _ = 2 ^ count * (value.toNat % 2 ^ (width - count) + 1) := by ring
      _ ≤ 2 ^ width := hsplit ▸ Nat.mul_le_mul_left _ hmod
  have hmsb : (sarInt value ((width : Int) - count)).msb = false := by
    have hle := Nat.div_le_self value.toNat (2 ^ (width - count))
    exact msb_eq_false_iff_two_mul_lt.mpr (by omega)
  rw [toNat_setWidth, toNat_add, toNat_and_lowBits _ hwidth, hlow,
    signExtend_eq_setWidth_of_msb_false hmsb, toNat_setWidth_of_le (by decide), hhigh, Nat.mod_eq_of_lt (by omega),
    Nat.mod_eq_of_lt (by omega), toNat_rotateLeft, toNat_ofNat, Nat.mod_eq_of_lt hvalue]
  rcases hcount.eq_or_lt with rfl | hcount
  · simp [Nat.mod_one, Nat.mod_eq_of_lt hvalue, Nat.div_eq_of_lt hvalue, Nat.shiftRight_eq_div_pow]
  · rw [Nat.mod_eq_of_lt hcount, Nat.shiftLeft_eq, Nat.shiftRight_eq_div_pow, Nat.mul_comm value.toNat, hsplit,
      Nat.mul_mod_mul_left, Nat.two_pow_add_eq_or_of_lt hlt]

/-- `F` of a table whose width is at least the number of the bank. -/
theorem toNat_F {p : Params} {width size bank : Nat} (hwidth : p.tagTableSizes bank = width) (hlt : width < 32)
    (hsize : size ≤ 2 * width) (hsize' : size < 32) (hpos : 0 < bank) (hbank : bank ≤ width) (A : BitVec 32) :
    (p.F A size bank).toNat = (rotatedHash width (A.toNat % 2 ^ size) bank).toNat := by
  have hpow : 2 ^ size ≤ 2 ^ 31 := Nat.pow_le_pow_right (by decide) (by omega)
  have hcut : ∀ (value : BitVec 32) (bits : Nat), bits < 32 →
      ((value.signExtend 64 &&& lowBits bits).setWidth 32).toNat = value.toNat % 2 ^ bits := by
    intro value bits hbits
    rw [toNat_setWidth, toNat_and_lowBits value hbits, Nat.mod_eq_of_lt]
    exact Nat.lt_of_le_of_lt (Nat.mod_le _ _) value.isLt
  simp only [F, hwidth, rotatedHash]
  generalize ha : (A.signExtend 64 &&& lowBits size).setWidth 32 = a
  have hvalue : a.toNat = A.toNat % 2 ^ size := by rw [← ha, hcut A size hsize']
  have hsmall : a.toNat < 2 ^ size := hvalue ▸ Nat.mod_lt _ (Nat.two_pow_pos size)
  have hrest : (sarInt a width).toNat = a.toNat / 2 ^ width := toNat_sarInt (by omega) hlt
  have hfits : (sarInt a width).toNat < 2 ^ width := by
    rw [hrest, Nat.div_lt_iff_lt_mul (Nat.two_pow_pos width), ← Nat.pow_add]
    exact Nat.lt_of_lt_of_le hsmall (Nat.pow_le_pow_right (by decide) (by omega))
  have hrotated := toNat_rotate hfits hlt hpos hbank
  rw [toNat_rotate ?_ hlt hpos hbank, toNat_xor, hcut a width hlt, hrotated, hrest, ← hvalue]
  · congr 2
    apply eq_of_toNat_eq
    rw [toNat_ofNat, toNat_xor, toNat_ofNat, Nat.mod_eq_of_lt]
    exact Nat.xor_lt_two_pow (Nat.mod_lt _ (Nat.two_pow_pos width)) (isLt _)
  · rw [toNat_xor, hcut a width hlt, hrotated]
    exact Nat.xor_lt_two_pow (Nat.mod_lt _ (Nat.two_pow_pos width)) (isLt _)

/-- The sizes of the tables are within 2 of each other. -/
theorem tagTableSizes_eq {p : Params} (hlow : 2 ≤ p.logSizeTagTables.toNat) (hhigh : p.logSizeTagTables.toNat ≤ 31)
    (bank : Nat) :
    ∃ width : Nat, p.tagTableSizes bank = width ∧ p.logSizeTagTables.toNat - 2 ≤ width ∧
      width ≤ p.logSizeTagTables.toNat := by
  have hsub : ∀ n : Nat, n ≤ 2 →
    (p.logSizeTagTables - BitVec.ofNat 32 n).toInt = (p.logSizeTagTables.toNat - n : Nat) := by
    intro n hn
    rw [toInt_eq_toNat_of_lt] <;> interval_cases n <;> bv_omega
  unfold tagTableSizes
  split
  · exact ⟨_, hsub 1 (by decide), by omega, by omega⟩
  split
  · exact ⟨_, by simpa using hsub 0 (by decide), by omega, by omega⟩
  · split
    · exact ⟨_, hsub 1 (by decide), by omega, by omega⟩
    · exact ⟨_, hsub 2 (by decide), by omega, by omega⟩

/-- All shifts of `F` and `gindex` are within the width of their word, and `F` is the
rotated hash and below the size of the table, for all 12 banks, exactly when the
smallest tables have at least `2 ^ 12` entries and the largest fewer than `2 ^ 32`. -/
theorem F_rotates_iff (p : Params) : (∀ bank, 1 ≤ bank → bank ≤ 12 → ∀ size : Nat, size ≤ 16 →
      (∀ shift ∈ p.shiftCounts size bank, 0 ≤ shift.1 ∧ shift.1 < shift.2) ∧
        ∀ A : BitVec 32, (p.F A size bank).toNat =
          (rotatedHash (p.tagTableSizes bank).toNat (A.toNat % 2 ^ size) bank).toNat ∧
          (p.F A size bank).toNat < 2 ^ (p.tagTableSizes bank).toNat) ↔
      14 ≤ p.logSizeTagTables.toNat ∧ p.logSizeTagTables.toNat ≤ 31 := by
  constructor
  · intro h
    have hwide := (h 3 (by decide) (by decide) 0 (by decide)).1 (p.tagTableSizes 3, 32) (by simp [shiftCounts])
    have hlast := (h 12 (by decide) (by decide) 0 (by decide)).1 (p.tagTableSizes 12 - (12 : Nat), 32)
      (by simp [shiftCounts])
    rw [show p.tagTableSizes 3 = p.logSizeTagTables.toInt from rfl, toInt_eq_toNat_cond] at hwide
    rw [show p.tagTableSizes 12 = (p.logSizeTagTables - 2).toInt from rfl, toInt_eq_toNat_cond, toNat_sub] at hlast
    simp only [ofNat_eq_ofNat, toNat_ofNat] at hwide hlast
    omega
  · rintro ⟨hlow, hhigh⟩ bank hpos hbank size hsize
    obtain ⟨width, hwidth, hge, hle⟩ := tagTableSizes_eq (by omega) hhigh bank
    have hF := toNat_F hwidth (by omega) (by omega : size ≤ 2 * width) (by omega) hpos (by omega)
    refine ⟨?_, fun A => ?_⟩
    · simp only [shiftCounts, hwidth, List.forall_mem_cons, List.not_mem_nil, false_imp_iff, implies_true, and_true]
      rw [abs_of_nonneg (by omega)]
      omega
    · rw [hwidth, Int.toNat_natCast]
      exact ⟨hF A, hF A ▸ isLt _⟩

/-- With tables of `2 ^ 11` entries, the default, `F` shifts by -3 for the last bank. -/
theorem F_shifts_by_negative_count :
    (-3, 32) ∈ shiftCounts
      { smallParams with logSizeTagTables := 11, nHistoryTables := 12, nHistoryTables_le := by decide } 16 12 := by
  decide

end Gem5.LTAGE.Params
