import Gem5.Base.IntMath
import Gem5.Lib.Result

open Lib Result BitVec

namespace Gem5

/-- `roundUp` of intmath.hh on an address. -/
def roundUp (val : Addr) (align : Unsigned) : Addr :=
  let mask := align.setWidth 64 - 1
  (val + mask) &&& ~~~mask

/-- `std::min` on sizes. -/
def minSize (a b : Unsigned) : Unsigned := if b < a then b else a

structure ChunkGenerator where
  curAddr : Addr
  nextAddr : Addr
  curSize : Unsigned
  sizeLeft : Unsigned
  startAddr : Addr
  chunkSize : Unsigned

namespace ChunkGenerator

/-- Where the first chunk ends, which is the start of the next block even if
the region starts at a block. -/
def firstEnd (startAddr : Addr) (totalSize chunkSize : Unsigned) : Addr :=
  if chunkSize = 0 then startAddr + totalSize.setWidth 64
  else
    let nextAddr := roundUp startAddr chunkSize
    if startAddr = nextAddr then nextAddr + chunkSize.setWidth 64 else nextAddr

def construct (startAddr : Addr) (totalSize chunkSize : Unsigned) : Result ChunkGenerator := do
  require (chunkSize = 0 || isPowerOf2 chunkSize)
  let nextAddr := firstEnd startAddr totalSize chunkSize
  let left_in_chunk := (nextAddr - startAddr).setWidth 32
  let curSize := minSize totalSize left_in_chunk
  .ok ⟨startAddr, nextAddr, curSize, totalSize - curSize, startAddr, chunkSize⟩

def complete (g : ChunkGenerator) : Unsigned := (g.curAddr - g.startAddr).setWidth 32

def done (g : ChunkGenerator) : Bool := g.curSize = 0

def last (g : ChunkGenerator) : Bool := g.sizeLeft = 0

def next (g : ChunkGenerator) : ChunkGenerator :=
  if g.sizeLeft = 0 then { g with curSize := 0 }
  else
    let curSize := minSize g.sizeLeft g.chunkSize
    { g with
      curAddr := g.nextAddr
      curSize := curSize
      sizeLeft := g.sizeLeft - curSize
      nextAddr := g.nextAddr + curSize.setWidth 64 }

/-- The generator as it stands at each of its chunks, if it is done before the
fuel is used up. -/
def chunks : Nat → ChunkGenerator → Option (List ChunkGenerator)
  | 0, _ => none
  | fuel + 1, g => if g.done then some [] else (chunks fuel g.next).map (g :: ·)

/-- The chunks cover a region of `total` bytes from `start` on, of which `passed`
bytes have been passed: they are not empty, follow one another, stay within
one block each, and are all there is when the generator says so. -/
def Tiles (start : Addr) (total : Nat) (chunkSize : Unsigned) : Nat → List ChunkGenerator → Prop
  | passed, [] => passed = total
  | passed, g :: later =>
    g.curAddr = start + BitVec.ofNat 64 passed ∧ 0 < g.curSize.toNat ∧ g.complete.toNat = passed ∧
    (chunkSize ≠ 0 → g.curAddr.toNat % chunkSize.toNat + g.curSize.toNat ≤ chunkSize.toNat) ∧
    (g.last = true ↔ later = []) ∧ Tiles start total chunkSize (passed + g.curSize.toNat) later

variable {g : ChunkGenerator} {total chunkSize : Unsigned}

/-- Clearing the low bits of a word takes off what is beyond a multiple. -/
theorem and_not_mask (x : Addr) (hm : m.toNat = 2 ^ k - 1) : x &&& ~~~m = x - BitVec.ofNat 64 (x.toNat % 2 ^ k) := by
  have hsplit : (x &&& ~~~m) + (x &&& m) = x := by
    rw [add_eq_or_of_and_eq_zero, ← and_or_distrib_left, BitVec.or_comm, or_not_self, and_allOnes]
    apply eq_of_getLsbD_eq
    intro i hi
    simp +contextual
  have hlow : x &&& m = BitVec.ofNat 64 (x.toNat % 2 ^ k) := by
    apply eq_of_toNat_eq
    rw [toNat_and, hm, Nat.and_two_pow_sub_one_eq_mod, toNat_ofNat]
    exact (Nat.mod_eq_of_lt ((Nat.mod_le _ _).trans_lt x.isLt)).symm
  rw [← hlow, eq_sub_iff_add_eq, hsplit]

/-- The first block boundary at or behind an address. -/
theorem exists_roundUp (hpow : isPowerOf2 chunkSize = true) (start : Addr) :
    ∃ d < chunkSize.toNat, roundUp start chunkSize = start + BitVec.ofNat 64 d ∧
      (start.toNat + d) % chunkSize.toNat = 0 := by
  obtain ⟨k, hk, hsize⟩ := isPowerOf2_iff.mp hpow
  have hpos := isPowerOf2_pos hpow
  have hmask : (chunkSize.setWidth 64 - 1).toNat = chunkSize.toNat - 1 := by
    rw [toNat_sub_of_le] <;> simp [le_def] <;> omega
  have hlow : (start + (chunkSize.setWidth 64 - 1)).toNat % 2 ^ k = (start.toNat + (chunkSize.toNat - 1)) % 2 ^ k := by
    rw [toNat_add, hmask, Nat.mod_mod_of_dvd _ (Nat.pow_dvd_pow 2 (by omega))]
  have hbeyond := Nat.mod_lt (start.toNat + (chunkSize.toNat - 1)) hpos
  have hdvd := Nat.dvd_sub_mod (n := chunkSize.toNat) (start.toNat + (chunkSize.toNat - 1))
  rw [roundUp, and_not_mask _ (hmask.trans (by rw [hsize])), hlow, ← hsize]
  generalize (start.toNat + (chunkSize.toNat - 1)) % chunkSize.toNat = beyond at hbeyond hdvd ⊢
  refine ⟨chunkSize.toNat - 1 - beyond, by omega, ?_, ?_⟩
  · rw [sub_eq_iff_eq_add, BitVec.add_assoc, ← ofNat_add, Nat.sub_add_cancel (by omega), ← hmask,
      ofNat_toNat, setWidth_eq]
  · rw [← Nat.add_sub_assoc (by omega)]
    exact Nat.mod_eq_zero_of_dvd hdvd

/-- The first chunk of a region reaches up to the next block boundary. -/
theorem exists_firstEnd (hpow : isPowerOf2 chunkSize = true) (start : Addr) (total : Unsigned) :
    ∃ d, 0 < d ∧ start.toNat % chunkSize.toNat + d = chunkSize.toNat ∧
      firstEnd start total chunkSize = start + BitVec.ofNat 64 d := by
  obtain ⟨d, hd, hup, haligned⟩ := exists_roundUp hpow start
  have hpos := isPowerOf2_pos hpow
  have hmod := Nat.mod_lt start.toNat hpos
  rw [firstEnd, if_neg (ne_zero_of_isPowerOf2 hpow), hup]
  by_cases hzero : d = 0
  · rw [hzero, Nat.add_zero] at haligned
    rw [hzero]
    exact ⟨chunkSize.toNat, hpos, by omega, by simp⟩
  refine ⟨d, by omega, ?_, if_neg fun hsame => ?_⟩
  · rw [← Nat.mod_add_mod] at haligned
    exact Nat.eq_of_dvd_of_lt_two_mul (by omega) (Nat.dvd_of_mod_eq_zero haligned) (by omega)
  · have hlt := isPowerOf2_lt hpow
    have hsame := congrArg BitVec.toNat hsame
    rw [toNat_add, toNat_ofNat] at hsame
    omega

theorem toNat_minSize (a b : Unsigned) : (minSize a b).toNat = min a.toNat b.toNat := by
  rw [minSize]
  split
  · next h => exact (Nat.min_eq_right (lt_def.mp h).le).symm
  · next h => exact (Nat.min_eq_left (Nat.le_of_not_lt h)).symm

theorem toNat_sub_minSize (a b : Unsigned) : (a - minSize a b).toNat = a.toNat - min a.toNat b.toNat := by
  rw [toNat_sub_of_le, toNat_minSize]
  rw [le_def, toNat_minSize]
  exact Nat.min_le_left _ _

/-- The generator stands at a chunk, `passed` bytes into the region. If bytes
remain behind the chunk, it ends at a block. -/
structure At (g : ChunkGenerator) (start : Addr) (total chunkSize : Unsigned) (passed : Nat) : Prop where
  startAddr : g.startAddr = start
  chunk : g.chunkSize = chunkSize
  curAddr : g.curAddr = start + BitVec.ofNat 64 passed
  rest : passed + g.curSize.toNat + g.sizeLeft.toNat = total.toNat
  within : chunkSize ≠ 0 → g.curAddr.toNat % chunkSize.toNat + g.curSize.toNat ≤ chunkSize.toNat
  more : g.sizeLeft.toNat ≠ 0 → isPowerOf2 chunkSize = true ∧ 0 < g.curSize.toNat ∧
    g.nextAddr = g.curAddr + BitVec.ofNat 64 g.curSize.toNat ∧ g.nextAddr.toNat % chunkSize.toNat = 0

theorem dvd_of_isPowerOf2 (h : isPowerOf2 chunkSize = true) : chunkSize.toNat ∣ 2 ^ 64 := by
  obtain ⟨k, hk, hsize⟩ := isPowerOf2_iff.mp h
  rw [hsize]
  exact Nat.pow_dvd_pow 2 (by omega)

theorem toNat_add_sub (start : Addr) (h : n < 2 ^ 32) :
    ((start + BitVec.ofNat 64 n - start).setWidth 32).toNat = n := by
  rw [BitVec.add_comm, add_sub_cancel, setWidth_ofNat_of_le (by decide), toNat_ofNat, Nat.mod_eq_of_lt h]

theorem At.construct (start : Addr) (total : Unsigned) (hsize : chunkSize = 0 ∨ isPowerOf2 chunkSize = true) :
    ∃ g, construct start total chunkSize = .ok g ∧ g.At start total chunkSize 0 := by
  refine ⟨_, bind_of_ok (require_of_true (by simpa using hsize)) _, rfl, rfl, (BitVec.add_zero start).symm,
    ?_, ?_, ?_⟩ <;>
    simp only [toNat_sub_minSize, toNat_minSize]
  · omega
  · intro hne
    obtain ⟨d, hpos, hd, hend⟩ := exists_firstEnd (hsize.resolve_left hne) start total
    rw [hend, toNat_add_sub start (by omega)]
    omega
  · intro hmore
    have hne : chunkSize ≠ 0 := by
      rintro rfl
      apply hmore
      rw [firstEnd, if_pos rfl, ← ofNat_toNat 64, toNat_add_sub start total.isLt, Nat.min_self, Nat.sub_self]
    have hpow := hsize.resolve_left hne
    obtain ⟨d, hpos, hd, hend⟩ := exists_firstEnd hpow start total
    rw [hend, toNat_add_sub start (by omega)] at hmore ⊢
    rw [Nat.min_eq_right (by omega)]
    refine ⟨hpow, hpos, rfl, ?_⟩
    rw [toNat_add, Nat.mod_mod_of_dvd _ (dvd_of_isPowerOf2 hpow), toNat_ofNat,
      Nat.mod_eq_of_lt (by omega : d < 2 ^ 64), ← Nat.mod_add_mod, hd, Nat.mod_self]

theorem At.next (h : g.At start total chunkSize passed) (hmore : g.sizeLeft.toNat ≠ 0) :
    g.next.At start total chunkSize (passed + g.curSize.toNat) := by
  obtain ⟨hpow, hpos, hnext, haligned⟩ := h.more hmore
  have hchunk := isPowerOf2_pos hpow
  have hrest := h.rest
  rw [ChunkGenerator.next, if_neg (fun hzero => hmore (by rw [hzero]; rfl)), h.chunk]
  refine ⟨h.startAddr, rfl, ?_, ?_, fun _ => ?_, ?_⟩
  · rw [hnext, h.curAddr, BitVec.add_assoc, ofNat_add]
  · simp only [toNat_sub_minSize, toNat_minSize]
    omega
  · simp only [haligned, toNat_minSize]
    omega
  · simp only [toNat_sub_minSize, toNat_minSize]
    intro hmore
    rw [← ofNat_toNat, toNat_minSize, Nat.min_eq_right (by omega)]
    refine ⟨hpow, hchunk, rfl, ?_⟩
    rw [toNat_add, Nat.mod_mod_of_dvd _ (dvd_of_isPowerOf2 hpow), toNat_ofNat,
      Nat.mod_eq_of_lt (by omega : _ < 2 ^ 64), Nat.add_mod_right, haligned]

theorem At.tiles (h : g.At start total chunkSize passed) (hfuel : total.toNat - passed < fuel) :
    ∃ gs, chunks fuel g = some gs ∧ Tiles start total.toNat chunkSize passed gs := by
  induction fuel generalizing g passed with
  | zero => cases hfuel
  | succ fuel ih =>
    have hrest := h.rest
    by_cases hdone : g.done = true
    · have hcur : g.curSize.toNat = 0 := by rw [of_decide_eq_true hdone]; rfl
      have hleft : g.sizeLeft.toNat = 0 := by
        by_contra hmore
        exact absurd hcur (h.more hmore).2.1.ne'
      refine ⟨[], by rw [chunks, if_pos hdone], ?_⟩
      change passed = _
      omega
    have hcur : 0 < g.curSize.toNat := Nat.pos_of_ne_zero fun hzero =>
      hdone (decide_eq_true (eq_of_toNat_eq hzero))
    have hcomplete : g.complete.toNat = passed := by
      rw [complete, h.startAddr, h.curAddr, toNat_add_sub]
      omega
    rw [chunks, if_neg hdone]
    by_cases hlast : g.sizeLeft.toNat = 0
    · have hlast : g.sizeLeft = 0 := eq_of_toNat_eq hlast
      have hend : chunks fuel g.next = some [] := by
        obtain ⟨fuel, rfl⟩ := Nat.exists_eq_succ_of_ne_zero (by omega : fuel ≠ 0)
        rw [chunks, ChunkGenerator.next, if_pos hlast]
        rfl
      refine ⟨[g], by rw [hend]; rfl, h.curAddr, hcur, hcomplete, h.within, ?_, ?_⟩
      · simpa [last] using hlast
      · change passed + _ = _
        omega
    · have hnext := h.next hlast
      obtain ⟨later, hlater, htiles⟩ := ih hnext (by omega)
      refine ⟨g :: later, by rw [hlater]; rfl, h.curAddr, hcur, hcomplete, h.within, ?_, htiles⟩
      have hlater : later ≠ [] := by
        rintro rfl
        have : passed + g.curSize.toNat = total.toNat := htiles
        omega
      simp only [hlater, iff_false]
      intro hzero
      exact hlast (by rw [of_decide_eq_true hzero]; rfl)

/-- Whatever the region, its chunks cover it one after another, each within one
block. -/
theorem exists_chunks_tile (start : Addr) (total chunkSize : Unsigned)
    (hsize : chunkSize = 0 ∨ ∃ k, chunkSize.toNat = 2 ^ k) :
    ∃ g gs, construct start total chunkSize = .ok g ∧ chunks (total.toNat + 1) g = some gs ∧
      Tiles start total.toNat chunkSize 0 gs := by
  have hpow : chunkSize = 0 ∨ isPowerOf2 chunkSize = true := hsize.imp_right fun ⟨k, hk⟩ =>
    isPowerOf2_iff.mpr ⟨k, (Nat.pow_lt_pow_iff_right (by decide)).mp (hk ▸ chunkSize.isLt), hk⟩
  obtain ⟨g, hg, hat⟩ := At.construct start total hpow
  obtain ⟨gs, hgs, htiles⟩ := hat.tiles (Nat.lt_succ_self _)
  exact ⟨g, gs, hg, hgs, htiles⟩

theorem exists_chunks_tile_of_wrapping_region :
    ∃ g gs, construct 0xfffffffffffffff9 20 8 = .ok g ∧ chunks 21 g = some gs ∧ Tiles 0xfffffffffffffff9 20 8 0 gs :=
  exists_chunks_tile 0xfffffffffffffff9 20 8 (.inr ⟨3, rfl⟩)

end ChunkGenerator

end Gem5
