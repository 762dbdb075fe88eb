import Mathlib.Data.Nat.Bitwise

namespace Lib.BitSlice

/-- The `len` bits of `n` from bit `low` on. -/
def slice (n low len : Nat) : Nat := n / 2 ^ low % 2 ^ len

/-- `n` without these bits: those above them move down. -/
def cut (n low len : Nat) : Nat := n / 2 ^ (low + len) * 2 ^ low + n % 2 ^ low

/-- Puts the bits `s` back where `cut` took them out. -/
def join (c s low len : Nat) : Nat := (c / 2 ^ low * 2 ^ len + s) * 2 ^ low + c % 2 ^ low

variable {n c s low len : Nat}

theorem slice_lt (n low len : Nat) : slice n low len < 2 ^ len := Nat.mod_lt _ (Nat.two_pow_pos len)

theorem cut_div (n low len : Nat) : cut n low len / 2 ^ low = n / 2 ^ (low + len) := by
  rw [cut, Nat.add_comm, Nat.add_mul_div_right _ _ (Nat.two_pow_pos low),
    Nat.div_eq_of_lt (Nat.mod_lt _ (Nat.two_pow_pos low)), Nat.zero_add]

theorem cut_mod (n low len : Nat) : cut n low len % 2 ^ low = n % 2 ^ low := by
  rw [cut, Nat.mul_add_mod_self_right, Nat.mod_mod]

theorem join_div (c s low len : Nat) : join c s low len / 2 ^ low = c / 2 ^ low * 2 ^ len + s := by
  rw [join, Nat.add_comm, Nat.add_mul_div_right _ _ (Nat.two_pow_pos low),
    Nat.div_eq_of_lt (Nat.mod_lt _ (Nat.two_pow_pos low)), Nat.zero_add]

theorem join_mod (c s low len : Nat) : join c s low len % 2 ^ low = c % 2 ^ low := by
  rw [join, Nat.mul_add_mod_self_right, Nat.mod_mod]

theorem join_cut_slice (n low len : Nat) : join (cut n low len) (slice n low len) low len = n := by
  rw [join, cut_div, cut_mod, slice, Nat.pow_add, ← Nat.div_div_eq_div_mul, Nat.div_add_mod', Nat.div_add_mod']

theorem slice_join (h : s < 2 ^ len) : slice (join c s low len) low len = s := by
  rw [slice, join_div, Nat.mul_add_mod_self_right, Nat.mod_eq_of_lt h]

theorem cut_join (h : s < 2 ^ len) : cut (join c s low len) low len = c := by
  rw [cut, Nat.pow_add, ← Nat.div_div_eq_div_mul, join_div, join_mod, Nat.add_comm (_ * _) s,
    Nat.add_mul_div_right _ _ (Nat.two_pow_pos len), Nat.div_eq_of_lt h, Nat.zero_add, Nat.div_add_mod']

/-- The bits below the slice are where they were. -/
theorem slice_cut_of_le (h : low' + len' ≤ low) : slice (cut n low len) low' len' = slice n low' len' := by
  have hmod : ∀ m, slice m low' len' = slice (m % 2 ^ low) low' len' := by
    intro m
    have hsplit : 2 ^ low = 2 ^ low' * 2 ^ (low - low') := by rw [← Nat.pow_add]; congr 1; omega
    rw [slice, slice, hsplit, Nat.mod_mul_right_div_self, Nat.mod_mod_of_dvd _ (Nat.pow_dvd_pow 2 (by omega))]
  rw [hmod (cut n low len), cut_mod, ← hmod]

/-- The bits above the slice have moved down. -/
theorem slice_cut_of_ge (h : low ≤ low') : slice (cut n low len) low' len' = slice n (low' + len) len' := by
  have hcut : cut n low len / 2 ^ low' = n / 2 ^ (low' + len) := by
    rw [show low' = low + (low' - low) by omega, Nat.pow_add, ← Nat.div_div_eq_div_mul, cut_div,
      Nat.div_div_eq_div_mul, ← Nat.pow_add]
    congr 2
    omega
  rw [slice, slice, hcut]

/-- Cutting bits out keeps the order relative to the numbers that have none of
the bits below or in the slice. -/
theorem cut_lt_iff : cut n low len < bound * 2 ^ low ↔ n < bound * 2 ^ (low + len) := by
  rw [← Nat.div_lt_iff_lt_mul (Nat.two_pow_pos low), cut_div, Nat.div_lt_iff_lt_mul (Nat.two_pow_pos _)]

theorem le_cut_iff : bound * 2 ^ low ≤ cut n low len ↔ bound * 2 ^ (low + len) ≤ n := by
  rw [← Nat.not_lt, cut_lt_iff, Nat.not_lt]

theorem cut_mul (bound low len : Nat) : cut (bound * 2 ^ (low + len)) low len = bound * 2 ^ low := by
  have hmod : bound * 2 ^ (low + len) % 2 ^ low = 0 :=
    Nat.mod_eq_zero_of_dvd (Dvd.dvd.mul_left (Nat.pow_dvd_pow 2 (by omega)) bound)
  rw [cut, Nat.mul_div_cancel _ (Nat.two_pow_pos _), hmod, Nat.add_zero]

end Lib.BitSlice
