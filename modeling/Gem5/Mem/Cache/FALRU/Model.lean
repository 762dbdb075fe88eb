import Gem5.Lib.Run
import Gem5.Mem.Cache.Blk

open Lib Result

namespace Gem5

/-- A block of the fully associative cache, without the fields that it only writes.
A pointer to a block is its index in `blks`, or `none` if it is null. -/
structure FALRUBlk extends CacheBlk where
  prev : Option Nat
  next : Option Nat
  inCache : BitVec 32
  deriving DecidableEq, Repr

/-- The fully associative tag store, without its statistics. -/
structure FALRU where
  blkSize : Unsigned
  lookupLatency : Nat
  accessLatency : Nat
  numCaches : Nat
  cacheMask : BitVec 32
  numBlocks : Nat
  cacheBoundaries : Nat → Option Nat
  blks : Nat → FALRUBlk
  head : Nat
  tail : Nat
  tagHash : Addr → Option Nat

namespace FALRU

/-- `1 << i`, an `int`. -/
def bit (i : Nat) : BitVec 32 := 1#32 <<< i

section Construct

/-- The variables of the loop in the constructor. -/
structure Setup where
  cacheBoundaries : Nat → Option Nat
  blks : Nat → FALRUBlk
  index : Nat
  j : Nat
  flags : BitVec 32

def Setup.modifyBlk (s : Setup) (blk : Nat) (f : FALRUBlk → FALRUBlk) : Setup :=
  { s with blks := fun i => if i = blk then f (s.blks i) else s.blks i }

/-- The blocks and the variables before the loop. What the constructor has not set
yet is uninitialised. -/
def Setup.start (cacheMask : BitVec 32) (numBlocks index : Nat) : Setup :=
  let s : Setup := ⟨fun _ => none, fun _ => ⟨.construct, none, none, 0⟩, index, 0, cacheMask⟩
  let s := s.modifyBlk 0 fun blk => { blk with prev := none, next := some 1, inCache := cacheMask }
  s.modifyBlk (numBlocks - 1) fun blk =>
    { blk with prev := some ((numBlocks + 2 ^ 32 - 2) % 2 ^ 32), next := none, inCache := 0 }

/-- The block that ends the range of a cache size becomes its boundary. -/
def Setup.mark (numCaches : Nat) (s : Setup) (i : Nat) : Result Setup :=
  if i + 1 = s.index then
    if s.j < numCaches then
      .ok { s with
        cacheBoundaries := fun j => if j = s.j then some i else s.cacheBoundaries j
        flags := s.flags &&& ~~~bit s.j
        j := s.j + 1
        index := s.index * 2 }
    else .error .outOfRange
  else .ok s

/-- One pass of the loop. -/
def Setup.pass (numCaches : Nat) (s : Setup) (i : Nat) : Result Setup := do
  let s ← (s.modifyBlk i fun blk => { blk with inCache := s.flags }).mark numCaches i
  .ok (s.modifyBlk i fun blk => { blk with prev := some (i - 1), next := some (i + 1) })

/-- The blocks of a cache of `2 ^ 17` bytes, `size / blkSize` for the smallest
size. -/
def smallest (blkSize : Unsigned) : Nat := 2 ^ 17 / blkSize.toNat

def construct (size blkSize : Unsigned) (lookupLatency accessLatency : Nat) : Result FALRU := do
  require (isPowerOf2 blkSize)
  require (isPowerOf2 size)
  -- below 128 KB `numCaches` wraps around and that many pointers cannot be allocated
  require (17 ≤ floorLog2 size)
  let numCaches := floorLog2 size - 17
  let cacheMask : BitVec 32 := if numCaches > 0 then ((1#64 <<< numCaches) - 1).setWidth 32 else 0
  let numBlocks := (size / blkSize).toNat
  -- a block larger than the cache leaves no block for `head`
  require (0 < numBlocks)
  let s ← (List.range' 1 (numBlocks - 2)).foldlM (Setup.pass numCaches)
    (Setup.start cacheMask numBlocks (smallest blkSize))
  require (s.j == numCaches)
  require (s.index == numBlocks)
  .ok
    { blkSize := blkSize
      lookupLatency := lookupLatency
      accessLatency := accessLatency
      numCaches := numCaches
      cacheMask := cacheMask
      numBlocks := numBlocks
      cacheBoundaries := s.cacheBoundaries
      blks := s.blks
      head := 0
      tail := numBlocks - 1
      tagHash := fun _ => none }

end Construct

variable (t : FALRU)

def blkAlign (addr : Addr) : Addr := addr &&& ~~~(t.blkSize - 1).setWidth 64

def modifyBlk (blk : Nat) (f : FALRUBlk → FALRUBlk) : FALRU :=
  { t with blks := fun i => if i = blk then f (t.blks i) else t.blks i }

def setBoundary (i : Nat) (blk : Option Nat) : FALRU :=
  { t with cacheBoundaries := fun j => if j = i then blk else t.cacheBoundaries j }

/-- The block behind a pointer. -/
def deref : Option Nat → Result Nat
  | some blk => if blk < t.numBlocks then .ok blk else .error .dangling
  | none => .error .dangling

def hashLookup (addr : Addr) : Option Nat := t.tagHash addr

/-- One pass of the loop of `moveToHead`. -/
def shiftBoundary (blk : Nat) (updateMask : BitVec 32) (t : FALRU) (i : Nat) : Result FALRU :=
  if bit i &&& updateMask ≠ 0 then do
    let boundary ← t.deref (t.cacheBoundaries i)
    let t := t.modifyBlk boundary fun b => { b with inCache := b.inCache &&& ~~~bit i }
    .ok (t.setBoundary i (t.blks boundary).prev)
  else if t.cacheBoundaries i = some blk then .ok (t.setBoundary i (t.blks blk).prev)
  else .ok t

/-- Taking a block that is not the head out of the list. -/
def unlink (blk : Nat) : Result FALRU :=
  if blk = t.tail then do
    require ((t.blks blk).next == none)
    let tail ← t.deref (t.blks blk).prev
    .ok { t.modifyBlk tail fun b => { b with next := none } with tail := tail }
  else do
    let prev ← t.deref (t.blks blk).prev
    let next ← t.deref (t.blks blk).next
    let t := t.modifyBlk prev fun b => { b with next := (t.blks blk).next }
    .ok (t.modifyBlk next fun b => { b with prev := (t.blks blk).prev })

/-- Putting an unlinked block before the head. -/
def linkHead (blk : Nat) : FALRU :=
  let t := t.modifyBlk blk fun b => { b with next := some t.head, prev := none }
  { t.modifyBlk t.head fun b => { b with prev := some blk } with head := blk }

def moveToHead (blk : Nat) : Result FALRU := do
  let updateMask := (t.blks blk).inCache ^^^ t.cacheMask
  let t ← (List.range t.numCaches).foldlM (shiftBoundary blk updateMask) t
  let t := t.modifyBlk blk fun b => { b with inCache := t.cacheMask }
  if blk ≠ t.head then do
    let t ← t.unlink blk
    .ok (t.linkHead blk)
  else .ok t

/-- What a hit does with the list. -/
def touch (blk : Nat) : Result FALRU := if blk ≠ t.head then t.moveToHead blk else .ok t

/-- `accessBlock`, with the latency and the `inCache` flags that are its output
arguments. -/
def accessBlock (ticksToCycles : Nat → Nat) (addr : Addr) (curTick : Nat) :
    Result (Option Nat × Nat × BitVec 32 × FALRU) :=
  match t.hashLookup (t.blkAlign addr) with
  | none => .ok (none, t.lookupLatency, 0, t)
  | some blk =>
    if (t.blks blk).isValid then do
      let lat := (t.blks blk).hitLatency ticksToCycles t.accessLatency curTick
      require ((t.blks blk).tag == t.blkAlign addr)
      let t' ← t.touch blk
      .ok (some blk, lat, (t.blks blk).inCache, t')
    else .ok (none, t.lookupLatency, 0, t)

def findBlock (addr : Addr) : Result (Option Nat) :=
  match t.hashLookup (t.blkAlign addr) with
  | none => .ok none
  | some blk =>
    if (t.blks blk).isValid then do
      require ((t.blks blk).tag == t.blkAlign addr)
      .ok (some blk)
    else .ok none

/-- `tagHash.erase(tag)` followed by `tagHash[addr] = blk`. -/
def rehash (tag addr : Addr) (blk : Nat) : FALRU :=
  { t with tagHash := fun a => if a = addr then some blk else if a = tag then none else t.tagHash a }

def findVictim (addr : Addr) : Result (Nat × FALRU) := do
  let blk := t.tail
  require ((t.blks blk).inCache == 0)
  let t ← t.moveToHead blk
  .ok (blk, t.rehash (t.blks blk).tag (t.blkAlign addr) blk)

/-- `insertBlock` does nothing. -/
def insertBlock (_blk : Nat) : FALRU := t

/-- Changing the fields that all cache blocks have. -/
def modifyCacheBlk (blk : Nat) (f : CacheBlk → CacheBlk) : FALRU :=
  t.modifyBlk blk fun b => { b with toCacheBlk := f b.toCacheBlk }

/-- The allocation of a block by `Cache::handleFill`. -/
def fill (addr : Addr) (is_secure : Bool) (status : Unsigned) : Result (Nat × FALRU) := do
  let (blk, t) ← t.findVictim addr
  let t := t.insertBlock blk
  require !(t.blks blk).isValid
  .ok (blk, t.modifyCacheBlk blk fun b => b.markValid is_secure status)

/-- The allocation of a block for a writeback by `Cache::access`, which assigns the
status. -/
def writeback (addr : Addr) (is_secure : Bool) (status : Unsigned) : Result (Nat × FALRU) := do
  let (blk, t) ← t.findVictim addr
  let t := t.insertBlock blk
  .ok (blk, t.modifyCacheBlk blk fun b => { b with status := 0 }.markValid is_secure status)

/-- `Cache::invalidateBlock`. `FALRU::invalidate` only counts. -/
def invalidateBlock (blk : Nat) : Result FALRU :=
  if blk < t.numBlocks then .ok (t.modifyCacheBlk blk CacheBlk.invalidate) else .error .dangling

/-- The loop of `check`, which ends at a null pointer. -/
def checkLoop (t : FALRU) : Nat → Option Nat → Nat → Nat → Nat → BitVec 32 → Result Bool
  | _, none, _, _, _, _ => .ok true
  | 0, some _, _, _, _, _ => .error .outOfRange
  | fuel + 1, some blk, tot_size, boundary, j, flags => do
    let blk ← t.deref (some blk)
    let tot_size := tot_size + t.blkSize.toNat
    if (t.blks blk).inCache ≠ flags then .ok false
    else if tot_size = boundary ∧ blk ≠ t.tail then
      if t.numCaches ≤ j then .error .outOfRange
      else if t.cacheBoundaries j ≠ some blk then .ok false
      else t.checkLoop fuel (t.blks blk).next tot_size (boundary * 2) (j + 1) (flags &&& ~~~bit j)
    else t.checkLoop fuel (t.blks blk).next tot_size boundary j flags

/-- `check`. The list has `numBlocks` blocks. The sizes are at most `2 ^ 31`, so that
two of them are equal as an `int` exactly when they are equal. -/
def check : Result Bool := t.checkLoop t.numBlocks (some t.head) 0 (2 ^ 17) 0 t.cacheMask

variable {t}

/-- The calls of the cache on its tag store. -/
inductive Call where
  | accessBlock (addr : Addr) (curTick : Nat)
  | findVictim (addr : Addr)
  | fill (addr : Addr) (is_secure : Bool) (status : Unsigned)
  | writeback (addr : Addr) (is_secure : Bool) (status : Unsigned)
  | invalidateBlock (blk : Nat)
  deriving DecidableEq, Repr

/-- The tag store serving calls. The answer is the block returned. -/
def machine (ticksToCycles : Nat → Nat) : Machine FALRU Call (Option Nat) where
  step t
    | .accessBlock addr curTick =>
      (t.accessBlock ticksToCycles addr curTick).map fun answer => (answer.1, answer.2.2.2)
    | .findVictim addr => (t.findVictim addr).map fun answer => (some answer.1, answer.2)
    | .fill addr is_secure status => (t.fill addr is_secure status).map fun answer => (some answer.1, answer.2)
    | .writeback addr is_secure status => (t.writeback addr is_secure status).map fun answer =>
        (some answer.1, answer.2)
    | .invalidateBlock blk => (t.invalidateBlock blk).map (none, ·)

end FALRU

end Gem5
