import Gem5.Base.IntMath

namespace Gem5

namespace CacheBlkStatusBits

def BlkValid : Unsigned := 0x01
def BlkReadable : Unsigned := 0x04
def BlkSecure : Unsigned := 0x40

end CacheBlkStatusBits

open CacheBlkStatusBits

/-- A cache block, with the fields that the tag stores use. -/
structure CacheBlk where
  tag : Addr
  status : Unsigned
  whenReady : Nat
  isTouched : Bool
  refCount : Nat
  srcMasterId : Nat
  deriving DecidableEq, Repr

namespace CacheBlk

/-- `Request::invldMasterId`. -/
def invldMasterId : Nat := 0xffff

/-- `CacheBlk()`. -/
def construct : CacheBlk := ⟨0, 0, 0, false, 0, invldMasterId⟩

variable (blk : CacheBlk)

def isValid : Bool := blk.status &&& BlkValid != 0

def isSecure : Bool := blk.status &&& BlkSecure != 0

def invalidate : CacheBlk := { blk with status := 0, isTouched := false }

/-- What the cache does with the status of a block that has been filled, where
`status` are the bits that it sets besides. -/
def markValid (is_secure : Bool) (status : Unsigned) : CacheBlk :=
  { blk with status := blk.status ||| (if is_secure then BlkSecure else 0) ||| (BlkValid ||| BlkReadable) ||| status }

@[simp] theorem isValid_invalidate : blk.invalidate.isValid = false := by
  simp [isValid, invalidate]

@[simp] theorem isValid_markValid (is_secure : Bool) (status : Unsigned) :
    (blk.markValid is_secure status).isValid = true := by
  simp only [isValid, markValid, bne_iff_ne, ne_eq]
  intro h
  have hbit := congrArg (fun word => BitVec.getLsbD word 0) h
  simp [BlkValid, BlkReadable] at hbit

/-- The latency of a hit at time `curTick`: a block that is not ready yet is waited
for, if that takes longer than the access. -/
def hitLatency (ticksToCycles : Nat → Nat) (accessLatency curTick : Nat) : Nat :=
  if blk.whenReady > curTick && ticksToCycles (blk.whenReady - curTick) > accessLatency then
    ticksToCycles (blk.whenReady - curTick) + accessLatency
  else accessLatency

end CacheBlk

end Gem5
