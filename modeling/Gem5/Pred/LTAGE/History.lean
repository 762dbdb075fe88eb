import Gem5.Base.IntMath
import Gem5.Lib.RollingBuffer

open Lib

namespace Gem5.LTAGE

/-- The parameters of `LTAGE` that its code reads. The lengths of the histories
are there in place of the powers, in floating point, by which the constructor
computes them. The tag widths and the table sizes are set for 12 banks, and
there are no more. -/
structure Params where
  logSizeBiMP : Unsigned
  logSizeTagTables : Unsigned
  logSizeLoopPred : Unsigned
  nHistoryTables : Nat
  tagTableCounterBits : Unsigned
  histBufferSize : Unsigned
  maxHist : Unsigned
  minTagWidth : Unsigned
  histLengths : Nat → Nat
  nHistoryTables_le : nHistoryTables ≤ 12

namespace Params

/-- `tagWidths`, an array of `int`. -/
def tagWidths (p : Params) : Nat → Int
  | 1 | 2 => p.minTagWidth.toInt
  | 3 | 4 => (p.minTagWidth + 1).toInt
  | 5 => (p.minTagWidth + 2).toInt
  | 6 => (p.minTagWidth + 3).toInt
  | 7 => (p.minTagWidth + 4).toInt
  | 8 | 9 => (p.minTagWidth + 5).toInt
  | 10 => (p.minTagWidth + 6).toInt
  | 11 => (p.minTagWidth + 7).toInt
  | _ => (p.minTagWidth + 8).toInt

/-- `tagTableSizes`, the logarithms of the sizes, an array of `int`. -/
def tagTableSizes (p : Params) (bank : Nat) : Int :=
  if bank ≤ 2 then (p.logSizeTagTables - 1).toInt
  else if bank ≤ 6 then p.logSizeTagTables.toInt
  else if bank ≤ 10 then (p.logSizeTagTables - 1).toInt
  else (p.logSizeTagTables - 2).toInt

end Params

/-- `value << count` for an `int` count, which the hardware reduces modulo the
width also where it is negative. -/
def shlInt {w : Nat} (value : BitVec w) (count : Int) : BitVec w := shl value (count % w).toNat

/-- `value >> count` on an unsigned word. -/
def shrInt {w : Nat} (value : BitVec w) (count : Int) : BitVec w := shr value (count % w).toNat

/-- `value >> count` on a signed word. -/
def sarInt {w : Nat} (value : BitVec w) (count : Int) : BitVec w := value.sshiftRight (count % w).toNat

/-- An outcome as a word. -/
def word {w : Nat} (outcome : Bool) : BitVec w := (BitVec.ofBool outcome).setWidth w

structure FoldedHistory where
  comp : Unsigned
  compLength : Int
  origLength : Nat
  outpoint : Int
  deriving DecidableEq

namespace FoldedHistory

def init (original_length : Nat) (compressed_length : Int) : FoldedHistory where
  comp := 0
  compLength := compressed_length
  origLength := original_length
  outpoint := (original_length : Int).tmod compressed_length

/-- What `update` makes of the newest outcome and of the one that leaves. -/
def shift (newest leaving : Bool) (f : FoldedHistory) : FoldedHistory :=
  let comp := f.comp <<< 1 ||| word newest
  let comp := comp ^^^ shlInt (word leaving) f.outpoint
  let comp := comp ^^^ shrInt comp f.compLength
  let comp := comp &&& (shlInt (1 : BitVec 64) f.compLength - 1).setWidth 32
  { f with comp }

/-- `update(&tab[h])`. -/
def update {size : Nat} (tab : Vector Bool size) (h : Nat) (f : FoldedHistory) : Result FoldedHistory := do
  let newest ← Table.read tab h
  let leaving ← Table.read tab (h + f.origLength)
  .ok (f.shift newest leaving)

end FoldedHistory

/-- The speculative histories of a thread. An outcome is 0 or 1 in the source.
The pointer `gHist` into `globalHistory` is an index here, and entry `i` of the
arrays of folded histories is the one of bank `i + 1`. -/
structure ThreadHistory (p : Params) where
  pathHist : BitVec 32
  globalHistory : Vector Bool p.histBufferSize.toNat
  gHist : Nat
  ptGhist : Nat
  computeIndices : Vector FoldedHistory p.nHistoryTables
  computeTags0 : Vector FoldedHistory p.nHistoryTables
  computeTags1 : Vector FoldedHistory p.nHistoryTables

def ThreadHistory.initial (p : Params) : ThreadHistory p where
  pathHist := 0
  globalHistory := .replicate _ false
  gHist := 0
  ptGhist := 0
  computeIndices := .ofFn fun i => .init (p.histLengths (i + 1)) (p.tagTableSizes (i + 1))
  computeTags0 := .ofFn fun i => .init (p.histLengths (i + 1)) (p.tagWidths (i + 1))
  computeTags1 := .ofFn fun i => .init (p.histLengths (i + 1)) (p.tagWidths (i + 1) - 1)

/-- The part of a `BranchInfo` that saves the histories. -/
structure SavedHistory (p : Params) where
  pathHist : BitVec 32
  ptGhist : Nat
  ci : Vector Unsigned p.nHistoryTables
  ct0 : Vector Unsigned p.nHistoryTables
  ct1 : Vector Unsigned p.nHistoryTables

def SavedHistory.initial (p : Params) : SavedHistory p where
  pathHist := 0
  ptGhist := 0
  ci := .replicate _ 0
  ct0 := .replicate _ 0
  ct1 := .replicate _ 0

/-- `updateGHist`, which returns the pointer, the buffer and the position. -/
def updateGHist (p : Params) (h : Nat) (dir : Bool) (tab : Vector Bool p.histBufferSize.toNat) (pt : Nat) :
    Result (Nat × Vector Bool p.histBufferSize.toNat × Nat) := do
  let (h, tab, pt) ← (if pt = 0 then do
      let tab ← Table.copy tab 0 (p.histBufferSize - p.maxHist).toNat p.maxHist.toNat
      .ok ((p.histBufferSize - p.maxHist).toNat, tab, (p.histBufferSize - p.maxHist).toNat)
    else .ok (h, tab, pt) : Result (Nat × Vector Bool p.histBufferSize.toNat × Nat))
  if h = 0 then .error .outOfRange
  else do
    let tab ← Table.write tab (h - 1) dir
    .ok (h - 1, tab, pt - 1)

namespace ThreadHistory

variable {p : Params}

variable (tHist : ThreadHistory p)

/-- The folded histories of all banks take the outcome at `gHist`. -/
def updateFolded : Result (ThreadHistory p) := do
  let computeIndices ← tHist.computeIndices.mapM (FoldedHistory.update tHist.globalHistory tHist.gHist)
  let computeTags0 ← tHist.computeTags0.mapM (FoldedHistory.update tHist.globalHistory tHist.gHist)
  let computeTags1 ← tHist.computeTags1.mapM (FoldedHistory.update tHist.globalHistory tHist.gHist)
  .ok { tHist with computeIndices, computeTags0, computeTags1 }

/-- The folded histories of all banks get their saved values back. -/
def restore (saved : SavedHistory p) : ThreadHistory p :=
  { tHist with
    computeIndices := tHist.computeIndices.zipWith (fun f comp => { f with comp }) saved.ci
    computeTags0 := tHist.computeTags0.zipWith (fun f comp => { f with comp }) saved.ct0
    computeTags1 := tHist.computeTags1.zipWith (fun f comp => { f with comp }) saved.ct1 }

/-- The loop by which `squash` and `btbUpdate` recompute the folded histories from
the saved values and the outcome at `gHist`. -/
def refold (saved : SavedHistory p) : Result (ThreadHistory p) :=
  updateFolded (tHist.restore saved)

/-- `updateHistories`, with what it saves in the `BranchInfo`. -/
def updateHistories (branch_pc : Addr) (taken : Bool) : Result (SavedHistory p × ThreadHistory p) := do
  let pathbit := (branch_pc &&& 1) != 0
  let (gHist, globalHistory, ptGhist) ← updateGHist p tHist.gHist taken tHist.globalHistory tHist.ptGhist
  let pathHist := ((tHist.pathHist <<< 1) + word pathbit) &&& 0xffff
  let saved : SavedHistory p :=
    { pathHist, ptGhist
      ci := tHist.computeIndices.map FoldedHistory.comp
      ct0 := tHist.computeTags0.map FoldedHistory.comp
      ct1 := tHist.computeTags1.map FoldedHistory.comp }
  let tHist ← updateFolded { tHist with pathHist, globalHistory, gHist, ptGhist }
  .ok (saved, tHist)

/-- What `squash(tid, taken, bp_history)` does to the histories. -/
def squash (taken : Bool) (saved : SavedHistory p) : Result (ThreadHistory p) := do
  let globalHistory ← Table.write tHist.globalHistory saved.ptGhist taken
  refold
    { tHist with pathHist := saved.pathHist, ptGhist := saved.ptGhist, gHist := saved.ptGhist, globalHistory } saved

def btbUpdate (saved : SavedHistory p) : Result (ThreadHistory p) := do
  Result.require (tHist.gHist == tHist.ptGhist)
  let globalHistory ← Table.write tHist.globalHistory tHist.gHist false
  refold { tHist with globalHistory } saved

end ThreadHistory

end Gem5.LTAGE
