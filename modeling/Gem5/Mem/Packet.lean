import Gem5.Base.IntMath
import Gem5.Lib.Range
import Gem5.Mem.MemCmd

open Lib Result Vector Table
open BitVec hiding not_or and_self

namespace Gem5

abbrev Byte : Type := BitVec 8

/-- A packet, with the fields that functional accesses use. -/
structure Packet where
  cmd : MemCmd
  addr : Addr
  isSecure : Bool
  size : Unsigned
  data : Vector Byte size.toNat
  /-- The bytes found so far; `none` while the vector `bytesValid` is empty. -/
  bytesValid : Option (Vector Bool size.toNat)

/-- The value that a packet is checked against: the arguments `addr`, `is_secure`,
`size` (an `int`) and `_data` of `checkFunctional`. -/
structure Buffer where
  addr : Addr
  isSecure : Bool
  size : BitVec 32
  data : Vector Byte size.toInt.toNat

/-- An `Addr` stored in an `int`. -/
def toInt32 (value : Addr) : Int := (value.setWidth 32).toInt

namespace Packet

/-- `func_offset`, `val_offset` and `overlap_size`. -/
structure Overlap where
  func_offset : Int
  val_offset : Int
  overlap_size : Int

/-- The offsets and the number of bytes to copy in case of partial overlap. -/
def overlap (func_start func_end val_start val_end : Addr) (size : BitVec 32) : Result Overlap :=
  if val_start < func_start ∧ val_end ≤ func_end then
    .ok ⟨0, toInt32 (func_start - val_start), toInt32 (val_end - func_start)⟩
  else if val_start ≥ func_start ∧ val_end > func_end then
    .ok ⟨toInt32 (val_start - func_start), 0, toInt32 (func_end - val_start)⟩
  else if val_start ≥ func_start ∧ val_end ≤ func_end then
    .ok ⟨toInt32 (val_start - func_start), 0, size.toInt⟩
  else if val_start < func_start ∧ val_end > func_end then
    .ok ⟨0, toInt32 (func_start - val_start), toInt32 (func_end - func_start)⟩
  else .error .assertion

variable (p : Packet)

/-- The part of a read that follows for a partial overlap: the bytes are copied
and marked, and the other ones are tested before and after them. -/
def readPartial (b : Buffer) (o : Overlap) : Result (Bool × Packet) := do
  let data ← Table.memcpy p.data o.func_offset b.data o.val_offset o.overlap_size
  let bytesValid := p.bytesValid.getD (Vector.replicate _ false)
  let all_bytes_valid ← Table.test bytesValid 0 o.func_offset.toNat true
  let bytesValid ← Table.fill bytesValid true o.func_offset.toNat o.overlap_size.toNat
  let i := o.func_offset.toNat + o.overlap_size.toNat
  let all_bytes_valid ← Table.test bytesValid i (p.size.toNat - i) all_bytes_valid
  .ok (all_bytes_valid, { p with data := data, bytesValid := some bytesValid })

/-- The read of a packet whose bytes are all in the buffer. -/
def readAll (b : Buffer) (offset : Int) : Result (Bool × Packet) := do
  let data ← Table.memcpy p.data 0 b.data offset p.size.toNat
  .ok (true, { p with data := data, bytesValid := some (p.bytesValid.getD (Vector.replicate _ true)) })

/-- `(min(func_end, val_end) - start) + 1`. -/
def untilEnd (func_end val_end start : Addr) : Addr :=
  (if func_end ≤ val_end then func_end else val_end) - start + 1

/-- The write of a packet into the buffer. -/
def write (b : Buffer) (func_end val_end : Addr) (offset : Int) : Result Buffer := do
  let data ←
    if offset ≥ 0 then Table.memcpy b.data offset p.data 0 (untilEnd func_end val_end p.addr).toNat
    else Table.memcpy b.data 0 p.data (-offset) (untilEnd func_end val_end b.addr).toNat
  .ok { b with data := data }

def func_end : Addr := p.addr + p.size.setWidth 64 - 1

def val_end (b : Buffer) : Addr := b.addr + b.size.signExtend 64 - 1

/-- `checkFunctional` with a buffer that has data; without data it returns false on
every path and changes nothing. The answer is returned with the packet and the
buffer as the call leaves them. -/
def checkFunctional (b : Buffer) : Result (Bool × Packet × Buffer) :=
  if b.isSecure ≠ p.isSecure ∨ p.addr > val_end b ∨ b.addr > p.func_end then .ok (false, p, b)
  -- `assert(!_data)`
  else if p.cmd.isPrint then .error .assertion
  else if p.cmd.isRead then do
    let (done, p) ←
      if p.addr ≥ b.addr ∧ p.func_end ≤ val_end b then p.readAll b (toInt32 (p.addr - b.addr))
      else do
        let o ← overlap p.addr p.func_end b.addr (val_end b) b.size
        p.readPartial b o
    .ok (done, p, b)
  else if p.cmd.isWrite then do
    let b ← p.write b p.func_end (val_end b) (toInt32 (p.addr - b.addr))
    .ok (false, p, b)
  else .error .assertion

/-- The first address of the packet. -/
def start : Nat := p.addr.toNat

/-- The first address past the packet. -/
def stop : Nat := p.addr.toNat + p.size.toNat

/-- The packet has a byte at the address. -/
def Covers (a : Nat) : Prop := p.start ≤ a ∧ a < p.stop

instance (p : Packet) (a : Nat) : Decidable (p.Covers a) := inferInstanceAs (Decidable (_ ∧ _))

/-- The byte of the packet at the address. -/
def byteAt (a : Nat) : Option Byte :=
  if p.start ≤ a then p.data[a - p.start]? else none

/-- The byte at the address is marked valid. -/
def ValidAt (a : Nat) : Prop :=
  p.start ≤ a ∧ (p.bytesValid.getD (Vector.replicate _ false))[a - p.start]? = some true

instance (p : Packet) (a : Nat) : Decidable (p.ValidAt a) := inferInstanceAs (Decidable (_ ∧ _))

end Packet

namespace Buffer

def start (b : Buffer) : Nat := b.addr.toNat

def stop (b : Buffer) : Nat := b.addr.toNat + b.size.toInt.toNat

def Covers (b : Buffer) (a : Nat) : Prop := b.start ≤ a ∧ a < b.stop

instance (b : Buffer) (a : Nat) : Decidable (b.Covers a) := inferInstanceAs (Decidable (_ ∧ _))

def byteAt (b : Buffer) (a : Nat) : Option Byte :=
  if b.start ≤ a then b.data[a - b.start]? else none

end Buffer

namespace Packet

/-- What callers of `checkFunctional` provide: neither range is empty or wraps
around, and both are in the same address space. -/
structure Functional (p : Packet) (b : Buffer) : Prop where
  size_pos : 1 ≤ p.size.toNat
  buffer_pos : 1 ≤ b.size.toInt
  no_wrap : p.stop ≤ 2 ^ 64
  buffer_no_wrap : b.stop ≤ 2 ^ 64
  secure : b.isSecure = p.isSecure

variable {p p' : Packet} {b b' : Buffer}

/-- The distance of two addresses, up to a multiple of 2 ^ 32, in the range of an `int`. -/
theorem toInt32_sub (x y : Addr) :
    ∃ k : Int, toInt32 (x - y) = x.toNat - y.toNat + 2 ^ 32 * k ∧ -2 ^ 31 ≤ toInt32 (x - y) ∧
      toInt32 (x - y) < 2 ^ 31 := by
  refine ⟨(toInt32 (x - y) - (x.toNat - y.toNat)) / 2 ^ 32, ?_⟩
  have hx := x.isLt
  have hy := y.isLt
  simp only [toInt32, toInt_eq_toNat_cond, toNat_setWidth, toNat_sub]
  split <;> omega

section
variable {x y : Addr}

theorem toInt32_sub_of_le (hle : y.toNat ≤ x.toNat) (hlt : x.toNat < y.toNat + 2 ^ 31) :
    toInt32 (x - y) = (x.toNat - y.toNat : Nat) := by
  obtain ⟨k, hsub, hrange⟩ := toInt32_sub x y
  omega

theorem toInt32_sub_neg (hle : y.toNat + 2 ^ 31 ≤ x.toNat) (hlt : x.toNat < y.toNat + 2 ^ 32) :
    toInt32 (x - y) < 0 := by
  obtain ⟨k, hsub, hrange⟩ := toInt32_sub x y
  omega

theorem toInt32_sub_of_lt (hlt : x.toNat < y.toNat) (hle : y.toNat ≤ x.toNat + 2 ^ 31) :
    toInt32 (x - y) = -(y.toNat - x.toNat : Nat) := by
  obtain ⟨k, hsub, hrange⟩ := toInt32_sub x y
  omega

/-- A distance of more than 2 GB downwards becomes a distance upwards. -/
theorem toInt32_sub_of_far (hlt : x.toNat + 2 ^ 31 < y.toNat) (hle : y.toNat < x.toNat + 2 ^ 32) :
    0 ≤ toInt32 (x - y) := by
  obtain ⟨k, hsub, hrange⟩ := toInt32_sub x y
  omega

end

theorem packet_lt (p : Packet) : p.stop < p.start + 2 ^ 32 := by
  have hsize := p.size.isLt
  simp only [stop, start]
  omega

namespace Functional

variable (h : p.Functional b)
include h

theorem func_end : p.func_end.toNat + 1 = p.stop := by
  have hsize := p.size.isLt
  have haddr := p.addr.isLt
  have hpos := h.size_pos
  have hwrap := h.no_wrap
  have hone : (1 : Addr).toNat = 1 := rfl
  simp only [stop, Packet.func_end, toNat_sub, toNat_add, toNat_setWidth, hone] at hwrap ⊢
  omega

theorem buffer_size : b.size.toInt = b.size.toNat ∧ b.size.toNat < 2 ^ 31 := by
  have hpos := h.buffer_pos
  have hsize := b.size.isLt
  rw [toInt_eq_toNat_cond] at hpos ⊢
  split at hpos <;> omega

theorem val_end : (val_end b).toNat + 1 = b.stop := by
  obtain ⟨hint, hlt⟩ := h.buffer_size
  have hsize := b.size.isLt
  have haddr := b.addr.isLt
  have hpos := h.buffer_pos
  have hwrap := h.buffer_no_wrap
  have hmsb : b.size.msb = false := by
    rw [msb_eq_decide]
    simp only [decide_eq_false_iff_not]
    omega
  have hone : (1 : Addr).toNat = 1 := rfl
  rw [Packet.val_end, signExtend_eq_setWidth_of_msb_false hmsb]
  simp only [Buffer.stop, toNat_sub, toNat_add, toNat_setWidth, hone] at hwrap ⊢
  omega

theorem checkFunctional_of_disjoint (hdisjoint : p.stop ≤ b.start ∨ b.stop ≤ p.start) :
    p.checkFunctional b = .ok (false, p, b) := by
  have hfunc := h.func_end
  have hval := h.val_end
  refine if_pos (.inr ?_)
  simp only [gt_iff_lt, lt_def]
  change (Packet.val_end b).toNat < p.start ∨ p.func_end.toNat < b.start
  omega

/-- The first test fails when the ranges intersect. -/
theorem not_disjoint (hstart : b.start < p.stop) (hstop : p.start < b.stop) :
    ¬ (b.isSecure ≠ p.isSecure ∨ p.addr > Packet.val_end b ∨ b.addr > p.func_end) := by
  have hfunc := h.func_end
  have hval := h.val_end
  simp only [gt_iff_lt, lt_def, h.secure]
  change ¬ (p.isSecure ≠ p.isSecure ∨ (Packet.val_end b).toNat < p.start ∨ p.func_end.toNat < b.start)
  simp only [ne_eq, not_true_eq_false, false_or, not_or]
  omega

/-- The reach of `size`, which is an `int`. -/
theorem buffer_lt : b.stop < b.start + 2 ^ 31 := by
  obtain ⟨hint, hlt⟩ := h.buffer_size
  simp only [Buffer.stop, Buffer.start]
  omega

theorem checkFunctional_read (hread : p.cmd.isRead = true) (hstart : b.start < p.stop) (hstop : p.start < b.stop) :
    p.checkFunctional b = (if b.start ≤ p.start ∧ p.stop ≤ b.stop then p.readAll b (p.start - b.start : Nat)
        else overlap p.addr p.func_end b.addr (Packet.val_end b) b.size >>= p.readPartial b).map
        fun answer => (answer.1, answer.2, b) := by
  have hfunc := h.func_end
  have hval := h.val_end
  have hlt := h.buffer_lt
  have hprint : p.cmd.isPrint = false := MemCmd.isPrint_of_isRead hread
  have hcovers : (p.addr ≥ b.addr ∧ p.func_end ≤ Packet.val_end b) ↔ b.start ≤ p.start ∧ p.stop ≤ b.stop := by
    simp only [ge_iff_le, le_def]
    change b.start ≤ p.start ∧ _ ↔ _
    omega
  rw [checkFunctional, if_neg (h.not_disjoint hstart hstop), hprint, hread]
  simp only [Bool.false_eq_true, if_false, if_true, hcovers]
  by_cases hall : b.start ≤ p.start ∧ p.stop ≤ b.stop
  · have hoffset : toInt32 (p.addr - b.addr) = (p.start - b.start : Nat) :=
      toInt32_sub_of_le hall.1 (hstop.trans h.buffer_lt)
    simp only [if_pos hall, hoffset]
    cases p.readAll b (p.start - b.start : Nat) <;> rfl
  simp only [if_neg hall]
  cases overlap p.addr p.func_end b.addr (Packet.val_end b) b.size with
  | error fault => rfl
  | ok o =>
    simp only [Bind.bind, Except.bind]
    cases p.readPartial b o <;> rfl

/-- The buffer reaches into the packet from below. -/
theorem overlap_below (hstart : b.start < p.start) (hstop : p.start < b.stop) (hend : b.stop ≤ p.stop) :
    overlap p.addr p.func_end b.addr (Packet.val_end b) b.size =
      .ok ⟨(0 : Nat), (p.start - b.start : Nat), (b.stop - 1 - p.start : Nat)⟩ := by
  have hfunc := h.func_end
  have hval := h.val_end
  have hlt := h.buffer_lt
  have hfirst : b.addr < p.addr ∧ Packet.val_end b ≤ p.func_end := by
    simp only [lt_def, le_def]
    exact ⟨hstart, by omega⟩
  have hval_offset : toInt32 (p.addr - b.addr) = (p.start - b.start : Nat) :=
    toInt32_sub_of_le (Nat.le_of_lt hstart) (hstop.trans hlt)
  have hoverlap : toInt32 (Packet.val_end b - p.addr) = ((Packet.val_end b).toNat - p.start : Nat) :=
    toInt32_sub_of_le (by change p.start ≤ _; omega) (by change _ < p.start + 2 ^ 31; omega)
  rw [overlap, if_pos hfirst, hval_offset, hoverlap, ← hval]
  rfl

/-- The buffer reaches out of the packet above. -/
theorem overlap_above (hstart : p.start ≤ b.start) (hend : p.stop < b.stop) :
    overlap p.addr p.func_end b.addr (Packet.val_end b) b.size =
      .ok ⟨toInt32 (b.addr - p.addr), 0, toInt32 (p.func_end - b.addr)⟩ := by
  have hfunc := h.func_end
  have hval := h.val_end
  have hfirst : ¬ (b.addr < p.addr ∧ Packet.val_end b ≤ p.func_end) := by
    simp only [lt_def, le_def]
    change ¬ (b.start < p.start ∧ _)
    omega
  have hsecond : b.addr ≥ p.addr ∧ Packet.val_end b > p.func_end := by
    simp only [ge_iff_le, gt_iff_lt, lt_def, le_def]
    exact ⟨hstart, by omega⟩
  rw [overlap, if_neg hfirst, if_pos hsecond]

/-- The buffer lies inside the packet. -/
theorem overlap_inside (hstart : p.start ≤ b.start) (hend : b.stop ≤ p.stop) :
    overlap p.addr p.func_end b.addr (Packet.val_end b) b.size = .ok ⟨toInt32 (b.addr - p.addr), 0, b.size.toInt⟩ := by
  have hfunc := h.func_end
  have hval := h.val_end
  have hfirst : ¬ (b.addr < p.addr ∧ Packet.val_end b ≤ p.func_end) := by
    simp only [lt_def, le_def]
    change ¬ (b.start < p.start ∧ _)
    omega
  have hsecond : ¬ (b.addr ≥ p.addr ∧ Packet.val_end b > p.func_end) := by
    simp only [ge_iff_le, gt_iff_lt, lt_def, le_def]
    omega
  have hthird : b.addr ≥ p.addr ∧ Packet.val_end b ≤ p.func_end := by
    simp only [ge_iff_le, le_def]
    exact ⟨hstart, by omega⟩
  rw [overlap, if_neg hfirst, if_neg hsecond, if_pos hthird]

end Functional

theorem readPartial_of_neg (h : o.func_offset < 0) : p.readPartial b o = .error .outOfRange :=
  bind_of_error (memcpy_of_neg p.data b.data h) _

/-- The bytes from address `lo` up to, but without, `hi` have been copied into the
packet and marked, and `done` tells whether all are marked now. -/
structure Copied (p : Packet) (b : Buffer) (lo hi : Nat) (done : Bool) (p' : Packet) : Prop where
  same : p'.cmd = p.cmd ∧ p'.addr = p.addr ∧ p'.isSecure = p.isSecure ∧ p'.size = p.size
  bytes : ∀ a, p'.byteAt a = if lo ≤ a ∧ a < hi then b.byteAt a else p.byteAt a
  valid : ∀ a, p'.ValidAt a ↔ p.ValidAt a ∨ lo ≤ a ∧ a < hi
  done : done = true ↔ ∀ a, p.Covers a → p'.ValidAt a

theorem byteAt_mk (p : Packet) (data : Vector Byte p.size.toNat) (valid : Option (Vector Bool p.size.toNat)) (a : Nat) :
    byteAt { p with data := data, bytesValid := valid } a = if p.start ≤ a then data[a - p.start]? else none := rfl

theorem validAt_mk (p : Packet) (data : Vector Byte p.size.toNat) (valid : Vector Bool p.size.toNat) (a : Nat) :
    ValidAt { p with data := data, bytesValid := some valid } a ↔ p.start ≤ a ∧ valid[a - p.start]? = some true :=
      Iff.rfl

/-- The bytes of a table seen at addresses, after a range of them was copied. -/
theorem getElem?_copied {A : Type} {n m : Nat} {dest after : Vector A n} {src : Vector A m} {f v c base base' a : Nat}
    (hcopy : ∀ i, after[i]? = if f ≤ i ∧ i < f + c then src[v + (i - f)]? else dest[i]?) (halign : base' + v = base + f)
    (ha : base ≤ a) : after[a - base]? =
      if base + f ≤ a ∧ a < base + f + c then (if base' ≤ a then src[a - base']? else none) else dest[a - base]? := by
  rw [hcopy]
  by_cases hrange : f ≤ a - base ∧ a - base < f + c
  · rw [if_pos hrange, if_pos (by omega), if_pos (by omega)]
    congr 1
    omega
  · rw [if_neg hrange, if_neg (by omega)]

theorem readPartial_spec {f v c : Nat} (hf : f + c ≤ p.size.toNat) (hv : v + c ≤ b.size.toInt.toNat)
    (halign : b.start + v = p.start + f) :
    ∃ done p', p.readPartial b ⟨f, v, c⟩ = .ok (done, p') ∧ Copied p b (p.start + f) (p.start + f + c) done p' := by
  obtain ⟨data, hcopy, hdata⟩ := memcpy_of_lt p.data b.data hf hv
  obtain ⟨before, htest, hbefore⟩ := test_of_le (p.bytesValid.getD (replicate _ false)) true
    (by omega : 0 + f ≤ p.size.toNat)
  obtain ⟨valid, hfill, hvalid⟩ := fill_of_le (p.bytesValid.getD (replicate _ false)) true hf
  obtain ⟨done, hrest, hdone⟩ := test_of_le valid before (by omega : f + c + (p.size.toNat - (f + c)) ≤ p.size.toNat)
  refine ⟨done, { p with data := data, bytesValid := some valid }, ?_, ⟨⟨rfl, rfl, rfl, rfl⟩, ?_, ?_, ?_⟩⟩
  · simp only [readPartial, Int.toNat_natCast]
    rw [bind_of_ok hcopy, bind_of_ok htest, bind_of_ok hfill, bind_of_ok hrest]
  · intro a
    rw [byteAt_mk]
    by_cases ha : p.start ≤ a
    · rw [if_pos ha, byteAt, if_pos ha]
      exact getElem?_copied hdata halign ha
    · rw [if_neg ha, if_neg (by omega), byteAt, if_neg ha]
  · intro a
    rw [validAt_mk, ValidAt]
    by_cases ha : p.start ≤ a
    · simp only [ha, true_and, hvalid]
      by_cases hrange : f ≤ a - p.start ∧ a - p.start < f + c
      · simp only [if_pos hrange, true_iff]
        exact .inr (by omega)
      · simp only [if_neg hrange, iff_self_or]
        exact fun hother => absurd hother (by omega)
    · simp only [ha, false_and, false_or, false_iff]
      omega
  · rw [hdone, hbefore]
    constructor
    · rintro ⟨⟨-, hfirst⟩, hlast⟩ a ⟨hle, hlt⟩
      have hstop : p.stop = p.start + p.size.toNat := rfl
      refine ⟨hle, ?_⟩
      change valid[a - p.start]? = some true
      by_cases hend : f + c ≤ a - p.start
      · exact hlast _ hend (by omega)
      rw [hvalid]
      by_cases hrange : f ≤ a - p.start ∧ a - p.start < f + c
      · rw [if_pos hrange]
      · rw [if_neg hrange]
        exact hfirst _ (by omega) (by omega)
    · intro hall
      have hstop : p.stop = p.start + p.size.toNat := rfl
      have hat : ∀ i, i < p.size.toNat → valid[i]? = some true := by
        intro i hi
        have hvalidAt : valid[p.start + i - p.start]? = some true := (hall (p.start + i) ⟨by omega, by omega⟩).2
        rwa [Nat.add_sub_cancel_left] at hvalidAt
      refine ⟨⟨rfl, fun i _ hlt => ?_⟩, fun i hle hlt => hat i (by omega)⟩
      have hi := hat i (by omega)
      rwa [hvalid, if_neg (by omega)] at hi

/-- A read copies the bytes of the buffer on the intersection of the two ranges.
If the buffer does not have all bytes of the packet, it also marks them valid
and tells whether all bytes are valid. -/
structure ReadExact (p : Packet) (b : Buffer) (done : Bool) (p' : Packet) : Prop where
  same : p'.cmd = p.cmd ∧ p'.addr = p.addr ∧ p'.isSecure = p.isSecure ∧ p'.size = p.size
  bytes : ∀ a, p'.byteAt a = if p.Covers a ∧ b.Covers a then b.byteAt a else p.byteAt a
  valid : (∃ a, p.Covers a ∧ ¬ b.Covers a) → ∀ a, p'.ValidAt a ↔ p.ValidAt a ∨ p.Covers a ∧ b.Covers a
  done : (∃ a, p.Covers a ∧ ¬ b.Covers a) → (done = true ↔ ∀ a, p.Covers a → p'.ValidAt a)

/-- A write changes the bytes of the buffer on the intersection of the two ranges. -/
structure WriteExact (p : Packet) (b b' : Buffer) : Prop where
  same : b'.addr = b.addr ∧ b'.isSecure = b.isSecure ∧ b'.size = b.size
  bytes : ∀ a, b'.byteAt a = if p.Covers a ∧ b.Covers a then p.byteAt a else b.byteAt a

/-- The last address of the intersection. -/
def lastCommon (p : Packet) (b : Buffer) : Nat := min p.stop b.stop - 1

/-- The packets and buffers that a read handles: the ranges are disjoint and the
packet is not complete yet, or the buffer has all bytes of the packet, or it
starts within the reach of an `int` and either lies inside the packet or has
nothing to add at the last common byte. -/
def ReadFits (p : Packet) (b : Buffer) : Prop :=
  (p.stop ≤ b.start ∨ b.stop ≤ p.start) ∧ (∃ a, p.Covers a ∧ ¬ p.ValidAt a) ∨
  b.start ≤ p.start ∧ p.stop ≤ b.stop ∨
  b.start < p.stop ∧ p.start < b.stop ∧ b.start < p.start + 2 ^ 31 ∧
    (p.start ≤ b.start ∧ b.stop ≤ p.stop ∨
      p.byteAt (lastCommon p b) = b.byteAt (lastCommon p b) ∧ p.ValidAt (lastCommon p b))

/-- The packets and buffers that a write handles: the ranges are disjoint, or the
buffer starts within the reach of an `int`. -/
def WriteFits (p : Packet) (b : Buffer) : Prop :=
  (p.stop ≤ b.start ∨ b.stop ≤ p.start) ∨ b.start ≤ p.start + 2 ^ 31

/-- Copying the whole intersection is what a read has to do. -/
theorem Copied.readExact {lo hi : Nat} {done : Bool} (h : Copied p b lo hi done p')
    (hcommon : ∀ a, p.Covers a ∧ b.Covers a ↔ lo ≤ a ∧ a < hi) : ReadExact p b done p' where
  same := h.same
  bytes a := by
    rw [h.bytes a]
    simp only [hcommon a]
  valid _ a := by rw [h.valid a, hcommon a]
  done _ := h.done

/-- Copying all but the last byte of the intersection is enough exactly when that
byte is there already. -/
theorem Copied.readExact_iff {lo hi : Nat} {done : Bool} (h : Copied p b lo hi done p')
    (hcommon : ∀ a, p.Covers a ∧ b.Covers a ↔ lo ≤ a ∧ a < hi + 1) (hle : lo ≤ hi)
    (hmore : ∃ a, p.Covers a ∧ ¬ b.Covers a) : ReadExact p b done p' ↔ p.byteAt hi = b.byteAt hi ∧ p.ValidAt hi := by
  have hlast : p.Covers hi ∧ b.Covers hi := (hcommon hi).mpr ⟨hle, by omega⟩
  constructor
  · intro hexact
    constructor
    · have hbytes := hexact.bytes hi
      rw [h.bytes hi, if_neg (by omega), if_pos hlast] at hbytes
      exact hbytes
    · have hvalid := (hexact.valid hmore hi).mpr (.inr hlast)
      rcases (h.valid hi).mp hvalid with hvalid | hcopied
      · exact hvalid
      · exact absurd hcopied.2 (by omega)
  · rintro ⟨hbyte, hvalid⟩
    refine ⟨h.same, fun a => ?_, fun _ a => ?_, fun _ => h.done⟩
    · rw [h.bytes a]
      by_cases ha : a = hi
      · subst ha
        rw [if_neg (by omega), if_pos hlast, hbyte]
      · by_cases hcopied : lo ≤ a ∧ a < hi
        · rw [if_pos hcopied, if_pos ((hcommon a).mpr (by omega))]
        · rw [if_neg hcopied, if_neg (mt (hcommon a).mp (by omega))]
    · rw [h.valid a, hcommon a]
      by_cases ha : a = hi
      · subst ha
        simp only [hvalid, true_or]
      · constructor
        · exact fun hor => hor.imp_right fun hcopied => by omega
        · exact fun hor => hor.imp_right fun hcopied => by omega

theorem readAll_spec (hle : b.start ≤ p.start) (hstop : p.stop ≤ b.stop) :
    ∃ p', p.readAll b (p.start - b.start : Nat) = .ok (true, p') ∧ ReadExact p b true p' := by
  have hsize : p.stop = p.start + p.size.toNat := rfl
  have hbsize : b.stop = b.start + b.size.toInt.toNat := rfl
  obtain ⟨data, hcopy, hdata⟩ := memcpy_of_lt p.data b.data (by omega : 0 + p.size.toNat ≤ p.size.toNat)
    (by omega : p.start - b.start + p.size.toNat ≤ b.size.toInt.toNat)
  have hcovered : ¬ ∃ a, p.Covers a ∧ ¬ b.Covers a := by
    rintro ⟨a, ⟨hfrom, hto⟩, hnot⟩
    exact hnot ⟨by omega, by omega⟩
  refine ⟨{ p with data := data, bytesValid := some (p.bytesValid.getD (replicate _ true)) },
    bind_of_ok hcopy _, ⟨⟨rfl, rfl, rfl, rfl⟩, fun a => ?_, fun hmore => absurd hmore hcovered,
    fun hmore => absurd hmore hcovered⟩⟩
  rw [byteAt_mk]
  by_cases ha : p.start ≤ a
  · rw [if_pos ha, getElem?_copied hdata (by omega : b.start + (p.start - b.start) = p.start + 0) ha, byteAt, if_pos ha]
    by_cases hlt : a < p.stop
    · have hfrom : b.start ≤ a := by omega
      rw [if_pos (by omega), if_pos hfrom, if_pos ⟨⟨ha, hlt⟩, hfrom, by omega⟩, Buffer.byteAt, if_pos hfrom]
    · rw [if_neg (by omega), if_neg fun hboth => hlt hboth.1.2]
  · rw [if_neg ha, if_neg fun hboth => ha hboth.1.1, byteAt, if_neg ha]

/-- Copying `c` bytes of the packet from offset `v` on to offset `f` of the buffer,
where the two offsets are the same address. -/
theorem write_spec {f v c : Nat} (hf : f + c ≤ b.size.toInt.toNat) (hv : v + c ≤ p.size.toNat)
    (halign : p.start + v = b.start + f)
    (hcommon : ∀ a, p.Covers a ∧ b.Covers a ↔ b.start + f ≤ a ∧ a < b.start + f + c) :
    ∃ data, memcpy b.data f p.data v c = .ok data ∧ WriteExact p b { b with data := data } := by
  obtain ⟨data, hcopy, hdata⟩ := memcpy_of_lt b.data p.data hf hv
  refine ⟨data, hcopy, ⟨rfl, rfl, rfl⟩, fun a => ?_⟩
  change (if b.start ≤ a then data[a - b.start]? else none) = _
  by_cases ha : b.start ≤ a
  · rw [if_pos ha, getElem?_copied hdata halign ha]
    simp only [hcommon a, byteAt, Buffer.byteAt, if_pos ha]
  · rw [if_neg ha, if_neg fun hboth => ha hboth.2.1, Buffer.byteAt, if_neg ha]

section

variable (h : p.Functional b)
include h

/-- The outcome of a read that ends in `readPartial`. -/
theorem exists_readExact_iff (hread : p.cmd.isRead = true) (hstart : b.start < p.stop)
    (hstop : p.start < b.stop) (hnot : ¬ (b.start ≤ p.start ∧ p.stop ≤ b.stop))
    (hoverlap : overlap p.addr p.func_end b.addr (val_end b) b.size = .ok o)
    (hcopy : p.readPartial b o = .ok (done, p')) :
    (∃ done p', p.checkFunctional b = .ok (done, p', b) ∧ ReadExact p b done p') ↔ ReadExact p b done p' := by
  have hcheck : p.checkFunctional b = .ok (done, p', b) := by
    rw [h.checkFunctional_read hread hstart hstop, if_neg hnot, bind_of_ok hoverlap, hcopy]
    rfl
  constructor
  · rintro ⟨done', p'', heq, hexact⟩
    rw [hcheck] at heq
    cases heq
    exact hexact
  · exact fun hexact => ⟨done, p', hcheck, hexact⟩

theorem not_readExact_of_far (hread : p.cmd.isRead = true) (hstart : b.start < p.stop)
    (hstop : p.start < b.stop) (hnot : ¬ (b.start ≤ p.start ∧ p.stop ≤ b.stop))
    (hoverlap : overlap p.addr p.func_end b.addr (val_end b) b.size = .ok o) (hneg : o.func_offset < 0) :
    ¬ ∃ done p', p.checkFunctional b = .ok (done, p', b) ∧ ReadExact p b done p' := by
  rintro ⟨done, p', hcheck, -⟩
  rw [h.checkFunctional_read hread hstart hstop, if_neg hnot, bind_of_ok hoverlap, readPartial_of_neg hneg] at hcheck
  cases hcheck

/-- A disjoint buffer leaves the packet as it is and the answer is false. -/
theorem readExact_iff_of_disjoint (hdisjoint : p.stop ≤ b.start ∨ b.stop ≤ p.start) :
    (∃ done p', p.checkFunctional b = .ok (done, p', b) ∧ ReadExact p b done p') ↔ ∃ a, p.Covers a ∧ ¬ p.ValidAt a := by
  have hcheck := h.checkFunctional_of_disjoint hdisjoint
  have hcommon : ∀ a, ¬ (p.Covers a ∧ b.Covers a) := by
    rintro a ⟨⟨hfrom, hto⟩, hbfrom, hbto⟩
    omega
  have hmore : ∃ a, p.Covers a ∧ ¬ b.Covers a := by
    have hpos := h.size_pos
    have hfirst : p.Covers p.start := ⟨Nat.le_refl _, by simp only [stop, start]; omega⟩
    exact ⟨p.start, hfirst, fun hcovers => hcommon p.start ⟨hfirst, hcovers⟩⟩
  constructor
  · rintro ⟨done, p', heq, hexact⟩
    rw [hcheck] at heq
    cases heq
    by_contra hnone
    have hdone := (hexact.done hmore).mpr fun a hcovers => by
      by_contra hvalid
      exact hnone ⟨a, hcovers, hvalid⟩
    cases hdone
  · rintro ⟨a, hcovers, hvalid⟩
    refine ⟨false, p, hcheck, ⟨rfl, rfl, rfl, rfl⟩, fun a => ?_, fun _ a => ?_, fun _ => ?_⟩
    · rw [if_neg (hcommon a)]
    · simp only [hcommon a, or_false]
    · exact iff_of_false (by decide) fun hall => hvalid (hall a hcovers)

section

variable (hread : p.cmd.isRead = true)
include hread

/-- A buffer that ends inside the packet and starts before it: its last byte is
neither copied nor marked. -/
theorem readExact_iff_of_below (hstart : b.start < p.start) (hstop : p.start < b.stop) (hend : b.stop < p.stop) :
    (∃ done p', p.checkFunctional b = .ok (done, p', b) ∧ ReadExact p b done p') ↔
      p.byteAt (b.stop - 1) = b.byteAt (b.stop - 1) ∧ p.ValidAt (b.stop - 1) := by
  have hbsize : b.stop = b.start + b.size.toInt.toNat := rfl
  have hsize : p.stop = p.start + p.size.toNat := rfl
  obtain ⟨done, p', hpartial, hcopied⟩ := readPartial_spec (p := p) (b := b) (f := 0) (v := p.start - b.start)
    (c := b.stop - 1 - p.start) (by omega) (by omega) (by omega)
  rw [exists_readExact_iff h hread (by omega) hstop (by omega) (h.overlap_below hstart hstop (by omega)) hpartial]
  have hlast : p.start + 0 + (b.stop - 1 - p.start) = b.stop - 1 := by omega
  rw [hlast] at hcopied
  refine hcopied.readExact_iff (fun a => ?_) (by omega) ⟨b.stop, ⟨by omega, hend⟩, fun hcovers => ?_⟩
  · simp only [Covers, Buffer.Covers]
    omega
  · exact absurd hcovers.2 (by omega)

/-- A buffer that starts inside the packet and ends after it: the last byte of the
packet is neither copied nor marked. -/
theorem readExact_iff_of_above (hstart : p.start < b.start) (hmeet : b.start < p.stop) (hend : p.stop < b.stop) :
    (∃ done p', p.checkFunctional b = .ok (done, p', b) ∧ ReadExact p b done p') ↔
      b.start < p.start + 2 ^ 31 ∧ p.byteAt (p.stop - 1) = b.byteAt (p.stop - 1) ∧ p.ValidAt (p.stop - 1) := by
  have hbsize : b.stop = b.start + b.size.toInt.toNat := rfl
  have hsize : p.stop = p.start + p.size.toNat := rfl
  have hfunc := h.func_end
  have hreach := packet_lt p
  have hoverlap := h.overlap_above (Nat.le_of_lt hstart) hend
  by_cases hnear : b.start < p.start + 2 ^ 31
  · have hfunc_offset : toInt32 (b.addr - p.addr) = (b.start - p.start : Nat) :=
      toInt32_sub_of_le (Nat.le_of_lt hstart) hnear
    have hcount : toInt32 (p.func_end - b.addr) = (p.func_end.toNat - b.start : Nat) :=
      toInt32_sub_of_le (by change b.start ≤ _; omega)
        (by have := h.buffer_lt; change _ < b.start + 2 ^ 31; omega)
    rw [hfunc_offset, hcount] at hoverlap
    obtain ⟨done, p', hpartial, hcopied⟩ := readPartial_spec (p := p) (b := b) (f := b.start - p.start) (v := 0)
      (c := p.func_end.toNat - b.start) (by omega) (by omega) (by omega)
    rw [exists_readExact_iff h hread hmeet (by omega) (by omega) hoverlap hpartial]
    have hlo : p.start + (b.start - p.start) = b.start := by omega
    have hlast : b.start + (p.func_end.toNat - b.start) = p.stop - 1 := by omega
    rw [hlo, hlast] at hcopied
    simp only [hnear, true_and]
    refine hcopied.readExact_iff (fun a => ?_) (by omega) ⟨p.start, ⟨by omega, by omega⟩, fun hcovers => ?_⟩
    · simp only [Covers, Buffer.Covers]
      omega
    · exact absurd hcovers.1 (by omega)
  · refine iff_of_false ?_ fun hboth => hnear hboth.1
    refine not_readExact_of_far h hread hmeet (by omega) (by omega) hoverlap ?_
    exact toInt32_sub_neg (Nat.not_lt.mp hnear) (hmeet.trans hreach)

/-- A buffer inside the packet is read, if it starts within the reach of an `int`. -/
theorem readExact_iff_of_inside (hstart : p.start ≤ b.start)
    (hend : b.stop ≤ p.stop) (hnot : ¬ (b.start ≤ p.start ∧ p.stop ≤ b.stop)) :
    (∃ done p', p.checkFunctional b = .ok (done, p', b) ∧ ReadExact p b done p') ↔ b.start < p.start + 2 ^ 31 := by
  have hbsize : b.stop = b.start + b.size.toInt.toNat := rfl
  have hsize : p.stop = p.start + p.size.toNat := rfl
  have hbpos := h.buffer_pos
  have hreach := packet_lt p
  have hoverlap := h.overlap_inside hstart hend
  by_cases hnear : b.start < p.start + 2 ^ 31
  · have hfunc_offset : toInt32 (b.addr - p.addr) = (b.start - p.start : Nat) :=
      toInt32_sub_of_le hstart hnear
    have hcount : b.size.toInt = (b.size.toInt.toNat : Nat) := by omega
    rw [hfunc_offset, hcount] at hoverlap
    obtain ⟨done, p', hpartial, hcopied⟩ := readPartial_spec (p := p) (b := b) (f := b.start - p.start) (v := 0)
      (c := b.size.toInt.toNat) (by omega) (by omega) (by omega)
    rw [exists_readExact_iff h hread (by omega) (by omega) hnot hoverlap hpartial]
    refine iff_of_true (hcopied.readExact fun a => ?_) hnear
    simp only [Covers, Buffer.Covers]
    omega
  · refine iff_of_false ?_ hnear
    refine not_readExact_of_far h hread (by omega) (by omega) hnot hoverlap ?_
    exact toInt32_sub_neg (Nat.not_lt.mp hnear) (by change b.start < p.start + 2 ^ 32; omega)

theorem readExact_iff_readFits :
    (∃ done p', p.checkFunctional b = .ok (done, p', b) ∧ ReadExact p b done p') ↔ ReadFits p b := by
  have hbsize : b.stop = b.start + b.size.toInt.toNat := rfl
  have hsize : p.stop = p.start + p.size.toNat := rfl
  have hpos := h.size_pos
  have hbpos := h.buffer_pos
  have hreach := h.buffer_lt
  unfold ReadFits
  by_cases hdisjoint : p.stop ≤ b.start ∨ b.stop ≤ p.start
  · rw [readExact_iff_of_disjoint h hdisjoint]
    constructor
    · exact fun hvalid => .inl ⟨hdisjoint, hvalid⟩
    · rintro (⟨-, hvalid⟩ | hall | ⟨hstart, hstop, -⟩)
      · exact hvalid
      · omega
      · omega
  have hstart : b.start < p.stop := by omega
  have hstop : p.start < b.stop := by omega
  by_cases hall : b.start ≤ p.start ∧ p.stop ≤ b.stop
  · obtain ⟨p', hreadAll, hexact⟩ := readAll_spec hall.1 hall.2
    refine iff_of_true ⟨true, p', ?_, hexact⟩ (.inr (.inl hall))
    rw [h.checkFunctional_read hread hstart hstop, if_pos hall, hreadAll]
    rfl
  simp only [hdisjoint, hall, hstart, hstop, false_and, false_or, true_and]
  by_cases hinside : p.start ≤ b.start ∧ b.stop ≤ p.stop
  · rw [readExact_iff_of_inside h hread hinside.1 hinside.2 hall]
    simp only [hinside, and_self, true_or, and_true]
  simp only [hinside, false_or]
  by_cases hbelow : b.start < p.start
  · have hlast : lastCommon p b = b.stop - 1 := by
      rw [lastCommon, Nat.min_eq_right (by omega)]
    rw [readExact_iff_of_below h hread hbelow hstop (by omega), hlast]
    constructor
    · exact fun hbyte => ⟨by omega, hbyte⟩
    · exact fun hboth => hboth.2
  · have hlast : lastCommon p b = p.stop - 1 := by
      rw [lastCommon, Nat.min_eq_left (by omega)]
    rw [readExact_iff_of_above h hread (by omega) hstart (by omega), hlast]

end

/-- The answers of a write that does not fault. -/
theorem exists_writeExact_iff (hread : p.cmd.isRead = false) (hwrite : p.cmd.isWrite = true)
    (hstart : b.start < p.stop) (hstop : p.start < b.stop) :
    (∃ done b', p.checkFunctional b = .ok (done, p, b') ∧ WriteExact p b b') ↔
      ∃ b', p.write b p.func_end (val_end b) (toInt32 (p.addr - b.addr)) = .ok b' ∧ WriteExact p b b' := by
  rw [checkFunctional, if_neg (h.not_disjoint hstart hstop), MemCmd.isPrint_of_isWrite hwrite, hread, hwrite]
  simp only [Bool.false_eq_true, if_false, if_true, bind_eq_ok_iff]
  constructor
  · rintro ⟨done, b', ⟨after, hafter, heq⟩, hexact⟩
    cases heq
    exact ⟨b', hafter, hexact⟩
  · rintro ⟨b', hafter, hexact⟩
    exact ⟨false, b', ⟨b', hafter, rfl⟩, hexact⟩

theorem untilEnd_toNat {start : Addr} (hp : start.toNat < p.stop) (hb : start.toNat < b.stop)
    (hlt : min p.stop b.stop < start.toNat + 2 ^ 32) :
    (untilEnd p.func_end (val_end b) start).toNat = min p.stop b.stop - start.toNat := by
  have hfunc := h.func_end
  have hval := h.val_end
  have hfuncLt := p.func_end.isLt
  have hvalLt := (val_end b).isLt
  have hone : (1 : Addr).toNat = 1 := rfl
  rw [untilEnd, toNat_add, hone]
  by_cases hle : p.func_end.toNat ≤ (val_end b).toNat
  · rw [if_pos (le_def.mpr hle), toNat_sub, Nat.min_eq_left (by omega)]
    omega
  · rw [if_neg (mt le_def.mp hle), toNat_sub, Nat.min_eq_right (by omega)]
    omega

theorem writeExact_iff_writeFits (hread : p.cmd.isRead = false) (hwrite : p.cmd.isWrite = true) :
    (∃ done b', p.checkFunctional b = .ok (done, p, b') ∧ WriteExact p b b') ↔ WriteFits p b := by
  have hbsize : b.stop = b.start + b.size.toInt.toNat := rfl
  have hsize : p.stop = p.start + p.size.toNat := rfl
  have hpos := h.size_pos
  have hbpos := h.buffer_pos
  have hreach := h.buffer_lt
  have hpreach := packet_lt p
  unfold WriteFits
  by_cases hdisjoint : p.stop ≤ b.start ∨ b.stop ≤ p.start
  · refine iff_of_true ⟨false, b, h.checkFunctional_of_disjoint hdisjoint, ⟨rfl, rfl, rfl⟩, fun a => ?_⟩
      (.inl hdisjoint)
    rw [if_neg]
    rintro ⟨⟨hfrom, hto⟩, hbfrom, hbto⟩
    omega
  have hstart : b.start < p.stop := by omega
  have hstop : p.start < b.stop := by omega
  simp only [hdisjoint, false_or]
  rw [exists_writeExact_iff h hread hwrite hstart hstop]
  by_cases hle : b.start ≤ p.start
  · have hoffset : toInt32 (p.addr - b.addr) = (p.start - b.start : Nat) :=
      toInt32_sub_of_le hle (hstop.trans hreach)
    have hcount : (untilEnd p.func_end (val_end b) p.addr).toNat = min p.stop b.stop - p.start :=
      untilEnd_toNat h (by change p.start < p.stop; omega) hstop (by change _ < p.start + 2 ^ 32; omega)
    obtain ⟨data, hcopy, hexact⟩ := write_spec (p := p) (b := b) (f := p.start - b.start) (v := 0)
      (c := min p.stop b.stop - p.start) (by omega) (by omega) (by omega)
      (fun a => by simp only [Covers, Buffer.Covers]; omega)
    refine iff_of_true ⟨_, ?_, hexact⟩ (by omega)
    rw [write, hoffset, if_pos (by omega), hcount]
    exact bind_of_ok hcopy _
  by_cases hnear : b.start ≤ p.start + 2 ^ 31
  · have hoffset : toInt32 (p.addr - b.addr) = -(b.start - p.start : Nat) :=
      toInt32_sub_of_lt (by change p.start < b.start; omega) hnear
    have hcount : (untilEnd p.func_end (val_end b) b.addr).toNat = min p.stop b.stop - b.start :=
      untilEnd_toNat h hstart (by change b.start < b.stop; omega) (by change _ < b.start + 2 ^ 32; omega)
    obtain ⟨data, hcopy, hexact⟩ := write_spec (p := p) (b := b) (f := 0) (v := b.start - p.start)
      (c := min p.stop b.stop - b.start) (by omega) (by omega) (by omega)
      (fun a => by simp only [Covers, Buffer.Covers]; omega)
    refine iff_of_true ⟨_, ?_, hexact⟩ hnear
    rw [write, hoffset, if_neg (by omega), hcount, Int.neg_neg]
    exact bind_of_ok hcopy _
  · refine iff_of_false ?_ hnear
    rintro ⟨b', hafter, -⟩
    have hoffset : 0 ≤ toInt32 (p.addr - b.addr) := toInt32_sub_of_far (Nat.not_le.mp hnear) (hstart.trans hpreach)
    have hcount : (untilEnd p.func_end (val_end b) p.addr).toNat = min p.stop b.stop - p.start :=
      untilEnd_toNat h (by change p.start < p.stop; omega) hstop (by change _ < p.start + 2 ^ 32; omega)
    rw [write, if_pos hoffset, hcount, bind_of_error (memcpy_of_gt b.data p.data (by omega))] at hafter
    cases hafter

end

/-- One functional call copies, marks and answers as it should exactly for the
packets and buffers that fit. -/
theorem checkFunctional_exact_iff (h : p.Functional b) : (p.cmd.isRead = true →
      ((∃ done p', p.checkFunctional b = .ok (done, p', b) ∧ ReadExact p b done p') ↔ ReadFits p b)) ∧
    (p.cmd.isRead = false → p.cmd.isWrite = true →
      ((∃ done b', p.checkFunctional b = .ok (done, p, b') ∧ WriteExact p b b') ↔ WriteFits p b)) :=
  ⟨readExact_iff_readFits h, writeExact_iff_writeFits h⟩

/-- A read of 4 bytes at address 0x1000, with no byte found yet. -/
def read4 : Packet := ⟨.ReadReq, 0x1000, false, 4, #v[0, 0, 0, 0], none⟩

/-- Four bytes written two bytes below it. -/
def below4 : Buffer := ⟨0xffe, false, 4, #v[1, 2, 3, 4]⟩

/-- Two bytes inside it. -/
def inside2 : Buffer := ⟨0x1001, false, 2, #v[5, 6]⟩

theorem checkFunctional_exact_iff_inside : ∃ done p', read4.checkFunctional inside2 = .ok (done, p', inside2) ∧
    ReadExact read4 inside2 done p' :=
  ((checkFunctional_exact_iff (p := read4) (b := inside2)
    ⟨by decide, by decide, by decide, by decide, rfl⟩).1 rfl).mpr (.inr (.inr (by decide)))

/-- The two ranges share the bytes at 0x1000 and 0x1001. Only the first is copied and
marked valid. -/
theorem checkFunctional_loses_byte :
    ∃ p', read4.checkFunctional below4 = .ok (false, p', below4) ∧ read4.Covers 0x1001 ∧ below4.Covers 0x1001 ∧
      below4.byteAt 0x1001 = some 4 ∧ p'.byteAt 0x1001 = some 0 ∧ ¬ p'.ValidAt 0x1001 ∧
      ¬ ReadExact read4 below4 false p' := by
  obtain ⟨p', hcheck, hbyte, hvalid⟩ : ∃ p', read4.checkFunctional below4 = .ok (false, p', below4) ∧
      p'.byteAt 0x1001 = some 0 ∧ ¬ p'.ValidAt 0x1001 := ⟨_, rfl, rfl, by decide⟩
  refine ⟨p', hcheck, by decide, by decide, rfl, hbyte, hvalid, fun hexact => ?_⟩
  have hbytes := hexact.bytes 0x1001
  rw [hbyte, if_pos (by decide)] at hbytes
  cases hbytes

end Packet

end Gem5
