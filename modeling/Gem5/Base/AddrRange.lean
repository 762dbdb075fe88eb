import Gem5.Base.Bitfield
import Gem5.Lib.Result

open Lib

namespace Gem5

/-- The largest address. -/
def MaxAddr : Addr := -1

namespace AddrRange

/-- The sanity checks of the constructor. -/
def sanityChecks (intlvHighBit xorHighBit intlvBits intlvMatch : BitVec 8) : Except String Unit := do
  Result.fatalIf (intlvBits ≠ 0 && shl (1 : BitVec 64) intlvBits.toNat ≤ intlvMatch.setWidth 64)
    ("Match value " ++ toString intlvMatch.toNat ++ " does not fit in " ++ toString intlvBits.toNat ++
      " interleaving bits\n")
  -- The XOR bits are ignored if not interleaving.
  if intlvBits ≠ 0 ∧ xorHighBit ≠ 0 then
    if xorHighBit = intlvHighBit then .error "XOR and interleave high bit must be different\n"
    else if xorHighBit > intlvHighBit then
      Result.fatalIf (xorHighBit.toNat - intlvHighBit.toNat < intlvBits.toNat)
        ("XOR and interleave high bit must be at least " ++ toString intlvBits.toNat ++ " bits apart\n")
    else
      Result.fatalIf (intlvHighBit.toNat - xorHighBit.toNat < intlvBits.toNat)
        ("Interleave and XOR high bit must be at least " ++ toString intlvBits.toNat ++ " bits apart\n")
  else .ok ()

theorem sanityChecks_plain : sanityChecks 0 0 0 0 = .ok () := rfl

end AddrRange

/-- A range of addresses, both bounds included, or the part of it that the
interleaving bits of the address select. A range exists only if it passes the
checks of its constructor. -/
structure AddrRange where
  start : Addr
  end_ : Addr
  intlvHighBit : BitVec 8
  xorHighBit : BitVec 8
  intlvBits : BitVec 8
  intlvMatch : BitVec 8
  checked : AddrRange.sanityChecks intlvHighBit xorHighBit intlvBits intlvMatch = .ok ()
  deriving DecidableEq

namespace AddrRange

/-- The constructor `AddrRange(_start, _end)`. -/
def plain (start end_ : Addr) : AddrRange := ⟨start, end_, 0, 0, 0, 0, sanityChecks_plain⟩

/-- `RangeSize(start, size)`. -/
def RangeSize (start size : Addr) : AddrRange := plain start (start + size - 1)

variable (r : AddrRange)

def interleaved : Bool := r.intlvBits ≠ 0

def hashed : Bool := r.interleaved && r.xorHighBit ≠ 0

def size : Addr := shr (r.end_ - r.start + 1) r.intlvBits.toNat

def valid : Bool := r.start ≤ r.end_

def mergesWith (self r : AddrRange) : Bool :=
  r.start == self.start && r.end_ == self.end_ && r.intlvHighBit == self.intlvHighBit &&
    r.xorHighBit == self.xorHighBit && r.intlvBits == self.intlvBits

def contains (a : Addr) : Bool :=
  let in_range := decide (r.start ≤ a) && decide (a ≤ r.end_)
  if !r.interleaved then in_range
  else if in_range then
    if !r.hashed then
      bits a r.intlvHighBit.toNat (r.intlvHighBit.toNat - r.intlvBits.toNat + 1) == r.intlvMatch.setWidth 64
    else
      (bits a r.intlvHighBit.toNat (r.intlvHighBit.toNat - r.intlvBits.toNat + 1) ^^^
        bits a r.xorHighBit.toNat (r.xorHighBit.toNat - r.intlvBits.toNat + 1)) == r.intlvMatch.setWidth 64
  else false

/-- Whether the ranges have an address in common, decided in the cases the code
cares about. It panics in the others. -/
def intersects (self r : AddrRange) : Result Bool :=
  if self.start > r.end_ ∨ self.end_ < r.start then .ok false
  else if !self.interleaved && !r.interleaved then .ok true
  else if r.size = 1 then .ok (self.contains r.start)
  else if self.mergesWith r then .ok (self.intlvMatch == r.intlvMatch)
  else .error .assertion

def removeIntlvBits (a : Addr) : Addr :=
  let intlv_low_bit : Int := r.intlvHighBit.toNat - r.intlvBits.toNat + 1
  insertBits (shr a r.intlvBits.toNat) (intlv_low_bit - 1) 0 a

def getOffset (a : Addr) : Addr :=
  let in_range := decide (r.start ≤ a) && decide (a ≤ r.end_)
  if !in_range then MaxAddr
  else if r.interleaved then r.removeIntlvBits a - r.removeIntlvBits r.start
  else a - r.start

/-- `operator<`, by the start address and then by the match value. -/
def lt (self r : AddrRange) : Bool :=
  if self.start ≠ r.start then self.start < r.start else self.intlvMatch < r.intlvMatch

/-- What the interleaving bits of an address are, after hashing. -/
def selected (intlvHighBit xorHighBit intlvBits : BitVec 8) (a : Addr) : Addr :=
  let field := bits a intlvHighBit.toNat (intlvHighBit.toNat - intlvBits.toNat + 1)
  if xorHighBit = 0 then field else field ^^^ bits a xorHighBit.toNat (xorHighBit.toNat - intlvBits.toNat + 1)

variable {r s : AddrRange} {a : Addr}

theorem contains_iff_of_plain (h : r.interleaved = false) : r.contains a = true ↔ r.start ≤ a ∧ a ≤ r.end_ := by
  simp [contains, h]

theorem contains_iff_of_interleaved (h : r.interleaved = true) : r.contains a = true ↔ (r.start ≤ a ∧ a ≤ r.end_) ∧
        selected r.intlvHighBit r.xorHighBit r.intlvBits a = r.intlvMatch.setWidth 64 := by
  by_cases hrange : r.start ≤ a ∧ a ≤ r.end_
  · by_cases hhash : r.xorHighBit = 0#8
    · simp [contains, hashed, selected, h, hrange, hhash]
    · simp [contains, hashed, selected, h, hrange, hhash]
  · have hout : (decide (r.start ≤ a) && decide (a ≤ r.end_)) = false := by simpa using hrange
    simp [contains, h, hout, hrange]

theorem inRange_of_contains (h : r.contains a = true) : r.start ≤ a ∧ a ≤ r.end_ := by
  cases hintlv : r.interleaved with
  | false => exact (contains_iff_of_plain hintlv).mp h
  | true => exact ((contains_iff_of_interleaved hintlv).mp h).1

theorem mergesWith_iff : s.mergesWith r = true ↔
      (r.start = s.start ∧ r.end_ = s.end_) ∧ r.intlvHighBit = s.intlvHighBit ∧ r.xorHighBit = s.xorHighBit ∧
        r.intlvBits = s.intlvBits := by
  simp [mergesWith, and_assoc]

theorem outside_iff : (s.start > bound ∨ s.end_ < a) ↔ ¬ (s.start ≤ bound ∧ a ≤ s.end_) := by
  simp only [gt_iff_lt, BitVec.le_def, BitVec.lt_def]
  omega

/-- Between plain ranges the test is exact. -/
theorem intersects_of_plain (hs : s.interleaved = false) (hr : r.interleaved = false) :
    s.intersects r = .ok (decide (s.start ≤ r.end_ ∧ r.start ≤ s.end_)) := by
  unfold intersects
  by_cases h : s.start ≤ r.end_ ∧ r.start ≤ s.end_
  · rw [if_neg (by simpa only [outside_iff, not_not] using h)]
    simp [hs, hr, h]
  · rw [if_pos (outside_iff.mpr h), decide_eq_false h]

/-- Valid plain ranges intersect where an address is in both. -/
theorem exists_common_iff (hs : s.interleaved = false) (hr : r.interleaved = false) (hsv : s.valid = true)
    (hrv : r.valid = true) :
    (∃ a, s.contains a = true ∧ r.contains a = true) ↔ s.start ≤ r.end_ ∧ r.start ≤ s.end_ := by
  simp only [contains_iff_of_plain hs, contains_iff_of_plain hr, valid, decide_eq_true_eq, BitVec.le_def] at *
  constructor
  · rintro ⟨a, ⟨hsa, has⟩, hra, har⟩
    omega
  · rintro ⟨hsr, hrs⟩
    rcases Nat.le_total s.start.toNat r.start.toNat with hle | hle
    · exact ⟨r.start, ⟨hle, hrs⟩, le_rfl, hrv⟩
    · exact ⟨s.start, ⟨le_rfl, hsv⟩, hle, hsr⟩

@[simp] theorem plain_start (a b : Addr) : (plain a b).start = a := rfl

@[simp] theorem plain_end (a b : Addr) : (plain a b).end_ = b := rfl

@[simp] theorem plain_interleaved (a b : Addr) : (plain a b).interleaved = false := rfl

theorem RangeSize_one (a : Addr) : RangeSize a 1 = plain a a := by
  rw [RangeSize, BitVec.add_sub_cancel]

theorem plain_size_self (a : Addr) : (plain a a).size = 1 := by
  simp [size, plain, shr]

/-- A range of one address intersects the ranges that contain it. -/
theorem intersects_RangeSize_one (s : AddrRange) (a : Addr) : s.intersects (RangeSize a 1) = .ok (s.contains a) := by
  rw [RangeSize_one]
  cases hintlv : s.interleaved with
  | false =>
    rw [intersects_of_plain hintlv (plain_interleaved a a), plain_start, plain_end]
    congr 1
    rw [Bool.eq_iff_iff, contains_iff_of_plain hintlv, decide_eq_true_iff]
  | true =>
    by_cases hrange : s.start ≤ a ∧ a ≤ s.end_
    · simp [intersects, hintlv, outside_iff, hrange, plain_size_self]
    have hout : s.contains a = false := by
      rw [Bool.eq_false_iff]
      intro hcontains
      exact hrange (inRange_of_contains hcontains)
    simp [intersects, outside_iff, hrange, hout]

theorem lt_iff : s.lt r = true ↔ s.start < r.start ∨ (s.start = r.start ∧ s.intlvMatch < r.intlvMatch) := by
  unfold lt
  by_cases h : s.start = r.start
  · simp [h]
  · simp [h]

theorem lt_trans (hrs : r.lt s = true) (hst : s.lt t = true) : r.lt t = true := by
  rw [lt_iff] at *
  simp only [BitVec.lt_def, ← BitVec.toNat_inj] at *
  omega

theorem lt_irrefl (r : AddrRange) : r.lt r = false := by
  simp [lt]

end AddrRange

end Gem5
