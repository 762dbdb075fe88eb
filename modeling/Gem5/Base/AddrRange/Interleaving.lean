import Gem5.Base.AddrRange

open Lib.BitSlice BitVec List

namespace Gem5

/-- The ranges that share one interleaved range, a range for every value that the
interleaving bits can have. The hash bits, if there are any, are other bits
of the address; the range starts and ends with a whole period of the
interleaving, and may be empty. -/
structure InterleavedGroup where
  start : Addr
  end_ : Addr
  intlvHighBit : BitVec 8
  xorHighBit : BitVec 8
  intlvBits : BitVec 8
  bounded : start.toNat ≤ end_.toNat + 1
  matches_fit : intlvBits.toNat ≤ 8
  low_nonneg : intlvBits.toNat ≤ intlvHighBit.toNat + 1
  hash_disjoint : xorHighBit ≠ 0 → xorHighBit.toNat < 64 ∧ intlvBits.toNat ≤ xorHighBit.toNat + 1 ∧
    (intlvHighBit.toNat + intlvBits.toNat ≤ xorHighBit.toNat ∨
      xorHighBit.toNat + intlvBits.toNat ≤ intlvHighBit.toNat)
  start_aligned : 2 ^ (intlvHighBit.toNat + 1) ∣ start.toNat
  length_aligned : 2 ^ (intlvHighBit.toNat + 1) ∣ end_.toNat + 1 - start.toNat

namespace InterleavedGroup

variable (g : InterleavedGroup) {a : Addr}

/-- The number of ranges. -/
abbrev stripes : Nat := 2 ^ g.intlvBits.toNat

theorem stripes_le : g.stripes ≤ 256 := Nat.pow_le_pow_right (by decide : 0 < 2) g.matches_fit

theorem toNat_match (h : m < g.stripes) : (BitVec.ofNat 8 m).toNat = m := by
  have hle := g.stripes_le
  rw [toNat_ofNat, Nat.mod_eq_of_lt (by omega)]

theorem sanityChecks_member (m : Fin g.stripes) :
    AddrRange.sanityChecks g.intlvHighBit g.xorHighBit g.intlvBits (BitVec.ofNat 8 m) = .ok () := by
  have hle := g.stripes_le
  have hfits := g.matches_fit
  have hm := m.isLt
  have hone : (shl (1 : BitVec 64) g.intlvBits.toNat).toNat = g.stripes := by
    rw [shl, Nat.mod_eq_of_lt (by omega), toNat_shiftLeft, Nat.shiftLeft_eq]
    change 1 * g.stripes % 2 ^ 64 = _
    rw [Nat.one_mul, Nat.mod_eq_of_lt (by omega)]
  have hmatch : (g.intlvBits ≠ 0 &&
      shl (1 : BitVec 64) g.intlvBits.toNat ≤ (BitVec.ofNat 8 m).setWidth 64) = false := by
    rw [Bool.and_eq_false_iff, decide_eq_false_iff_not (p := shl _ _ ≤ _), le_def, hone,
      toNat_setWidth, g.toNat_match hm, Nat.mod_eq_of_lt (by omega)]
    exact .inr (by omega)
  rw [AddrRange.sanityChecks, hmatch]
  change (if _ then _ else _) = _
  by_cases hhash : g.intlvBits ≠ 0 ∧ g.xorHighBit ≠ 0
  · obtain ⟨-, -, hdisjoint⟩ := g.hash_disjoint hhash.2
    have hbits : 0 < g.intlvBits.toNat := by
      by_contra hzero
      exact hhash.1 (eq_of_toNat_eq (by simpa using hzero))
    have hne : g.xorHighBit ≠ g.intlvHighBit := by
      intro heq
      rw [heq] at hdisjoint
      omega
    rw [if_pos hhash, if_neg hne]
    split
    · rename_i hgt
      rw [gt_iff_lt, lt_def] at hgt
      rw [Lib.Result.fatalIf_eq_ok_iff, decide_eq_false_iff_not]
      omega
    rename_i hngt
    rw [gt_iff_lt, lt_def] at hngt
    rw [Lib.Result.fatalIf_eq_ok_iff, decide_eq_false_iff_not]
    omega
  · rw [if_neg hhash]

/-- The range of a match value. -/
def member (m : Fin g.stripes) : AddrRange where
  start := g.start
  end_ := g.end_
  intlvHighBit := g.intlvHighBit
  xorHighBit := g.xorHighBit
  intlvBits := g.intlvBits
  intlvMatch := BitVec.ofNat 8 m
  checked := g.sanityChecks_member m

/-- The match value of the range that contains an address, and the offset of the
address in that range. -/
def place (a : Addr) : Option (Fin g.stripes × Addr) :=
  (List.finRange g.stripes).findSome? fun m =>
    if (g.member m).contains a then some (m, (g.member m).getOffset a) else none

/-- The lowest interleaving bit. -/
def low : Nat := g.intlvHighBit.toNat + 1 - g.intlvBits.toNat

/-- The address without the interleaving bits. -/
def compact (a : Addr) : Nat := cut a.toNat g.low g.intlvBits.toNat

/-- The hash bits, which the compacted address still has. -/
def hash (c : Nat) : Nat :=
  if g.xorHighBit = 0 then 0
  else if g.intlvHighBit.toNat + g.intlvBits.toNat ≤ g.xorHighBit.toNat then
    slice c (g.xorHighBit.toNat + 1 - g.intlvBits.toNat - g.intlvBits.toNat) g.intlvBits.toNat
  else slice c (g.xorHighBit.toNat + 1 - g.intlvBits.toNat) g.intlvBits.toNat

def select (a : Addr) : Nat := slice a.toNat g.low g.intlvBits.toNat ^^^ g.hash (g.compact a)

theorem hash_lt (c : Nat) : g.hash c < g.stripes := by
  unfold hash
  split
  · exact Nat.two_pow_pos _
  · split <;> exact slice_lt ..

theorem select_lt (a : Addr) : g.select a < g.stripes := Nat.xor_lt_two_pow (slice_lt ..) (g.hash_lt _)

theorem low_add : g.low + g.intlvBits.toNat = g.intlvHighBit.toNat + 1 := by
  have := g.low_nonneg
  unfold low
  omega

theorem highBit_lt : g.intlvHighBit.toNat < 64 := by
  by_contra hge
  have hpow := Nat.pow_lt_pow_right (by decide : 1 < 2) (by omega : 64 < g.intlvHighBit.toNat + 1)
  have hstart := g.start.isLt
  have hend := g.end_.isLt
  have hzero : g.start.toNat = 0 := Nat.eq_zero_of_dvd_of_lt g.start_aligned (by omega)
  have hlength := Nat.eq_zero_of_dvd_of_lt g.length_aligned (by omega)
  omega

/-- The hash bits are untouched by the compaction. -/
theorem slice_xor (h : g.xorHighBit ≠ 0) (a : Addr) :
    slice a.toNat (g.xorHighBit.toNat + 1 - g.intlvBits.toNat) g.intlvBits.toNat = g.hash (g.compact a) := by
  obtain ⟨-, hlow, hdisjoint⟩ := g.hash_disjoint h
  have hadd := g.low_add
  rw [hash, if_neg h]
  by_cases habove : g.intlvHighBit.toNat + g.intlvBits.toNat ≤ g.xorHighBit.toNat
  · rw [if_pos habove, compact, slice_cut_of_ge (by omega)]
    congr 1
    omega
  · rw [if_neg habove, compact, slice_cut_of_le (by omega)]

theorem selected_toNat (h : g.intlvBits ≠ 0) (a : Addr) :
    (AddrRange.selected g.intlvHighBit g.xorHighBit g.intlvBits a).toNat = g.select a := by
  have hadd := g.low_add
  have hhigh := g.highBit_lt
  have hbits : 0 < g.intlvBits.toNat := by
    by_contra hzero
    exact h (eq_of_toNat_eq (by simpa using hzero))
  have hfield : (bits a g.intlvHighBit.toNat (g.intlvHighBit.toNat - g.intlvBits.toNat + 1)).toNat =
      slice a.toNat g.low g.intlvBits.toNat := bits_toNat (by omega) (by omega) (by omega) (by omega)
  by_cases hxor : g.xorHighBit = 0
  · simp only [AddrRange.selected, if_pos hxor, hfield, select, hash, Nat.xor_zero]
  obtain ⟨hx, hlow, -⟩ := g.hash_disjoint hxor
  have hhash : (bits a g.xorHighBit.toNat (g.xorHighBit.toNat - g.intlvBits.toNat + 1)).toNat =
      slice a.toNat (g.xorHighBit.toNat + 1 - g.intlvBits.toNat) g.intlvBits.toNat :=
    bits_toNat (by omega) (by omega) (by omega) (by omega)
  simp only [AddrRange.selected, if_neg hxor, toNat_xor, hfield, hhash, g.slice_xor hxor, select]

theorem contains_member (m : Fin g.stripes) :
    (g.member m).contains a = true ↔ (g.start ≤ a ∧ a ≤ g.end_) ∧ g.select a = m := by
  have hm := m.isLt
  by_cases hbits : g.intlvBits = 0
  · -- Without interleaving bits there is one range, and every address selects it.
    have hone : g.stripes = 1 := by rw [stripes, hbits]; rfl
    have hselect := g.select_lt a
    rw [AddrRange.contains_iff_of_plain (by simp [AddrRange.interleaved, member, hbits])]
    change g.start ≤ a ∧ a ≤ g.end_ ↔ _
    constructor
    · intro h
      exact ⟨h, by omega⟩
    · intro h
      exact h.1
  · have hle := g.stripes_le
    have hintlv : (g.member m).interleaved = true := decide_eq_true hbits
    rw [AddrRange.contains_iff_of_interleaved hintlv, ← toNat_inj, toNat_setWidth]
    change (_ ∧ (AddrRange.selected g.intlvHighBit g.xorHighBit g.intlvBits a).toNat =
      (BitVec.ofNat 8 m).toNat % 2 ^ 64) ↔ _
    rw [g.selected_toNat hbits, g.toNat_match hm, Nat.mod_eq_of_lt (by omega)]
    rfl

theorem removeIntlvBits_member (m : Fin g.stripes) (a : Addr) :
    ((g.member m).removeIntlvBits a).toNat = g.compact a := by
  have hadd := g.low_add
  have hhigh := g.highBit_lt
  have hfits := g.matches_fit
  change (insertBits (shr a g.intlvBits.toNat) (g.intlvHighBit.toNat - g.intlvBits.toNat + 1 - 1) 0 a).toNat = _
  rw [insertBits_zero_toNat (by omega : _ + 1 = (g.low : Int)) (by omega), shr_toNat (by omega),
    Nat.div_div_eq_div_mul, ← Nat.pow_add, Nat.add_comm g.intlvBits.toNat, compact, cut]

theorem compact_of_not_interleaved (h : g.intlvBits = 0) (a : Addr) : g.compact a = a.toNat := by
  rw [compact, h, cut]
  exact Nat.div_add_mod' ..

/-- The bounds of the range and their compacted values, counted in periods of the
interleaving. -/
theorem exists_periods : ∃ first periods, (g.start.toNat = first * 2 ^ (g.low + g.intlvBits.toNat) ∧
      g.end_.toNat + 1 = (first + periods) * 2 ^ (g.low + g.intlvBits.toNat)) ∧ g.compact g.start = first * 2 ^ g.low ∧
    g.compact g.start + (g.end_.toNat + 1 - g.start.toNat) / g.stripes = (first + periods) * 2 ^ g.low := by
  obtain ⟨first, hfirst⟩ := g.start_aligned
  obtain ⟨periods, hperiods⟩ := g.length_aligned
  have hbounded := g.bounded
  rw [← g.low_add, Nat.mul_comm] at hfirst hperiods
  have hstart : g.compact g.start = first * 2 ^ g.low := by rw [compact, hfirst, cut_mul]
  refine ⟨first, periods, ⟨hfirst, ?_⟩, hstart, ?_⟩
  · rw [Nat.add_mul, ← hfirst, ← hperiods]
    omega
  · rw [hstart, hperiods, Nat.pow_add, ← Nat.mul_assoc, Nat.mul_div_cancel _ (Nat.two_pow_pos _), ← Nat.add_mul]

/-- The addresses of the range are those that compact to its compacted bounds. -/
theorem inRange_iff : (g.start ≤ a ∧ a ≤ g.end_) ↔ g.compact g.start ≤ g.compact a ∧
        g.compact a < g.compact g.start + (g.end_.toNat + 1 - g.start.toNat) / g.stripes := by
  obtain ⟨first, periods, ⟨hfirst, hend⟩, hstart, hlast⟩ := g.exists_periods
  rw [hlast, hstart, compact, le_cut_iff, cut_lt_iff, ← hfirst, ← hend, le_def, le_def]
  omega

theorem getOffset_member (m : Fin g.stripes) (h : g.start ≤ a ∧ a ≤ g.end_) :
    ((g.member m).getOffset a).toNat = g.compact a - g.compact g.start := by
  have hin : (!(decide ((g.member m).start ≤ a) && decide (a ≤ (g.member m).end_))) = false := by
    simp [member, h]
  have hle := (g.inRange_iff.mp h).1
  simp only [AddrRange.getOffset, hin, Bool.false_eq_true, if_false]
  cases hintlv : (g.member m).interleaved with
  | true =>
    have hstart := g.removeIntlvBits_member m g.start
    have ha := g.removeIntlvBits_member m a
    have hsub : (g.member m).removeIntlvBits g.start ≤ (g.member m).removeIntlvBits a := by
      rw [le_def, ha, hstart]
      exact hle
    rw [if_pos rfl]
    change ((g.member m).removeIntlvBits a - (g.member m).removeIntlvBits g.start).toNat = _
    rw [toNat_sub_of_le hsub, ha, hstart]
  | false =>
    have hbits : g.intlvBits = 0 := not_not.mp (of_decide_eq_false hintlv)
    rw [if_neg Bool.false_ne_true, g.compact_of_not_interleaved hbits, g.compact_of_not_interleaved hbits]
    exact toNat_sub_of_le h.1

/-- The sizes add up to the length of the range, unless the range is the whole
address space and its length wraps around to 0. -/
theorem size_toNat (h : ¬ (g.start = 0 ∧ g.end_ = MaxAddr)) (m : Fin g.stripes) :
    (g.member m).size.toNat = (g.end_.toNat + 1 - g.start.toNat) / g.stripes := by
  have hfits := g.matches_fit
  have hbounded := g.bounded
  have hstart := g.start.isLt
  have hend := g.end_.isLt
  have hlt : g.end_.toNat + 1 - g.start.toNat < 2 ^ 64 := by
    by_contra hge
    refine h ⟨eq_of_toNat_eq ?_, eq_of_toNat_eq ?_⟩
    · change g.start.toNat = 0
      omega
    · change g.end_.toNat = 2 ^ 64 - 1
      omega
  have hlength : (g.end_ - g.start + 1).toNat = g.end_.toNat + 1 - g.start.toNat := by
    rw [toNat_add, toNat_sub]
    change ((2 ^ 64 - g.start.toNat + g.end_.toNat) % 2 ^ 64 + 1) % 2 ^ 64 = _
    omega
  change (shr (g.end_ - g.start + 1) g.intlvBits.toNat).toNat = _
  rw [shr_toNat (by omega), hlength]

/-- Every address of the range is in one of the ranges only. -/
theorem exists_unique_member (h : g.start ≤ a ∧ a ≤ g.end_) : ∃! m, (g.member m).contains a = true := by
  refine ⟨⟨g.select a, g.select_lt a⟩, (g.contains_member _).mpr ⟨h, rfl⟩, ?_⟩
  intro m hm
  exact Fin.ext ((g.contains_member m).mp hm).2.symm

theorem place_eq_some_iff :
    g.place a = some (m, offset) ↔ (g.member m).contains a = true ∧ (g.member m).getOffset a = offset := by
  constructor
  · intro h
    obtain ⟨m', -, hm'⟩ := exists_of_findSome?_eq_some h
    split at hm'
    · rename_i hcontains
      cases hm'
      exact ⟨hcontains, rfl⟩
    · cases hm'
  · rintro ⟨hcontains, rfl⟩
    cases hplace : g.place a with
    | none =>
      have hnone := findSome?_eq_none_iff.mp hplace m (mem_finRange m)
      rw [if_pos hcontains] at hnone
      cases hnone
    | some found =>
      obtain ⟨m', -, hm'⟩ := exists_of_findSome?_eq_some hplace
      split at hm'
      · rename_i hcontains'
        obtain rfl : m' = m :=
          (g.exists_unique_member (AddrRange.inRange_of_contains hcontains)).unique hcontains' hcontains
        exact hm'.symm
      · cases hm'

/-- The address at an offset of a range is found by putting the interleaving bits
back that the match value and the hash bits call for. -/
theorem exists_at_offset (m : Fin g.stripes) (h : offset < (g.end_.toNat + 1 - g.start.toNat) / g.stripes) :
    ∃ a, (g.start ≤ a ∧ a ≤ g.end_) ∧ g.select a = m ∧ g.compact a = g.compact g.start + offset := by
  let c := g.compact g.start + offset
  let s := (m : Nat) ^^^ g.hash c
  have hs : s < g.stripes := Nat.xor_lt_two_pow m.isLt (g.hash_lt c)
  let n := join c s g.low g.intlvBits.toNat
  have hcut : cut n g.low g.intlvBits.toNat = c := cut_join hs
  have hslice : slice n g.low g.intlvBits.toNat = s := slice_join hs
  have hn : n < 2 ^ 64 := by
    obtain ⟨first, periods, ⟨-, hend⟩, -, hlast⟩ := g.exists_periods
    have hmax := g.end_.isLt
    have hlt := cut_lt_iff.mp (hcut.trans_lt ((Nat.add_lt_add_left h _).trans_eq hlast))
    omega
  have hval : (BitVec.ofNat 64 n).toNat = n := by rw [toNat_ofNat, Nat.mod_eq_of_lt hn]
  have hcompact : g.compact (BitVec.ofNat 64 n) = c := by rw [compact, hval, hcut]
  refine ⟨BitVec.ofNat 64 n, g.inRange_iff.mpr ?_, ?_, hcompact⟩
  · rw [hcompact]
    exact ⟨Nat.le_add_right .., Nat.add_lt_add_left h _⟩
  · rw [select, hval, hslice, hcompact, Nat.xor_assoc, Nat.xor_self, Nat.xor_zero]

/-- What an address selects and what is left of it determine it. -/
theorem eq_of_select_of_compact (hselect : g.select a = g.select b) (hcompact : g.compact a = g.compact b) : a = b := by
  have hslice : slice a.toNat g.low g.intlvBits.toNat = slice b.toNat g.low g.intlvBits.toNat := by
    rw [select, select, hcompact] at hselect
    exact Nat.xor_left_injective hselect
  apply eq_of_toNat_eq
  rw [← join_cut_slice a.toNat g.low g.intlvBits.toNat, ← join_cut_slice b.toNat g.low g.intlvBits.toNat, hslice]
  congr 1

theorem size_of_whole (hstart : g.start = 0) (hend : g.end_ = MaxAddr) (m : Fin g.stripes) : (g.member m).size = 0 := by
  change shr (g.end_ - g.start + 1) g.intlvBits.toNat = 0
  rw [hstart, hend, show (MaxAddr - 0 + 1 : Addr) = 0#64 from rfl, shr, zero_ushiftRight]
  rfl

/-- The ranges of a group divide its addresses among them, each into the offsets
0 to `size() - 1`, exactly when the group is not the whole address space. -/
theorem place_bijOn_iff : ((∀ a, g.start ≤ a → a ≤ g.end_ → ∃! m, (g.member m).contains a = true) ∧
      Set.BijOn g.place {a | g.start ≤ a ∧ a ≤ g.end_}
        {p | ∃ m offset, p = some (m, offset) ∧ offset < (g.member m).size}) ↔
    ¬ (g.start = 0 ∧ g.end_ = MaxAddr) := by
  constructor
  · rintro ⟨-, hbij⟩ ⟨hstart, hend⟩
    -- The size has wrapped around, so that there is no offset at all.
    have hzero : g.start ≤ g.start ∧ g.start ≤ g.end_ := by
      rw [hstart, hend]
      decide
    obtain ⟨m, offset, -, hlt⟩ := hbij.mapsTo hzero
    rw [g.size_of_whole hstart hend m] at hlt
    exact absurd hlt BitVec.not_lt_zero
  · intro hwhole
    have hsize := g.size_toNat hwhole
    refine ⟨fun a hstart hend => g.exists_unique_member ⟨hstart, hend⟩, ?_, ?_, ?_⟩
    · intro a ha
      obtain ⟨m, hm, -⟩ := g.exists_unique_member ha
      refine ⟨m, _, g.place_eq_some_iff.mpr ⟨hm, rfl⟩, ?_⟩
      have hlt := (g.inRange_iff.mp ha).2
      rw [lt_def, hsize, g.getOffset_member m ha]
      have hle := (g.inRange_iff.mp ha).1
      omega
    · intro a ha b hb heq
      obtain ⟨m, hm, -⟩ := g.exists_unique_member ha
      have hplace := g.place_eq_some_iff.mpr ⟨hm, rfl⟩
      rw [heq] at hplace
      obtain ⟨hmb, hoffset⟩ := g.place_eq_some_iff.mp hplace
      have hselect := ((g.contains_member m).mp hm).2.trans ((g.contains_member m).mp hmb).2.symm
      apply g.eq_of_select_of_compact hselect
      have hnat := congrArg BitVec.toNat hoffset
      rw [g.getOffset_member m ha, g.getOffset_member m hb] at hnat
      have hlea := (g.inRange_iff.mp ha).1
      have hleb := (g.inRange_iff.mp hb).1
      omega
    · rintro p ⟨m, offset, rfl, hlt⟩
      rw [lt_def, hsize] at hlt
      obtain ⟨a, ha, hselect, hcompact⟩ := g.exists_at_offset m hlt
      refine ⟨a, ha, g.place_eq_some_iff.mpr ⟨(g.contains_member m).mpr ⟨ha, hselect⟩, ?_⟩⟩
      apply eq_of_toNat_eq
      rw [g.getOffset_member m ha, hcompact, Nat.add_sub_cancel_left]

/-- A megabyte, divided among four ranges in blocks of 64 bytes with a hash. -/
def hashedMegabyte : InterleavedGroup where
  start := 0x100000
  end_ := 0x1fffff
  intlvHighBit := 7
  xorHighBit := 13
  intlvBits := 2
  bounded := by decide
  matches_fit := by decide
  low_nonneg := by decide
  hash_disjoint := by decide
  start_aligned := by decide
  length_aligned := by decide

/-- The interleaving bits of the address are 1, and the hash bits are 2. -/
theorem hashedMegabyte_bijOn : hashedMegabyte.place 0x102040 = some (3, 0x800) ∧
      Set.BijOn hashedMegabyte.place {a | hashedMegabyte.start ≤ a ∧ a ≤ hashedMegabyte.end_}
        {p | ∃ m offset, p = some (m, offset) ∧ offset < (hashedMegabyte.member m).size} :=
  ⟨by decide, (hashedMegabyte.place_bijOn_iff.mpr (by decide)).2⟩

/-- The whole address space, divided between two ranges in blocks of 64 bytes. -/
def allMemory : InterleavedGroup where
  start := 0
  end_ := MaxAddr
  intlvHighBit := 6
  xorHighBit := 0
  intlvBits := 1
  bounded := by decide
  matches_fit := by decide
  low_nonneg := by decide
  hash_disjoint := fun h => absurd rfl h
  start_aligned := by decide
  length_aligned := by decide

theorem allMemory_not_bijOn : (∀ m, (allMemory.member m).size = 0) ∧ allMemory.place 0x40 = some (1, 0) ∧
      ¬ Set.BijOn allMemory.place {a | allMemory.start ≤ a ∧ a ≤ allMemory.end_}
        {p | ∃ m offset, p = some (m, offset) ∧ offset < (allMemory.member m).size} := by
  have hsize : ∀ m, (allMemory.member m).size = 0 := by decide
  have hplace : allMemory.place 0x40 = some (1, 0) := by decide
  refine ⟨hsize, hplace, ?_⟩
  intro hbij
  have hin : allMemory.start ≤ 0x40 ∧ 0x40 ≤ allMemory.end_ := by decide
  obtain ⟨m, offset, -, hlt⟩ := hbij.mapsTo hin
  rw [hsize] at hlt
  exact absurd hlt BitVec.not_lt_zero

end InterleavedGroup

end Gem5
