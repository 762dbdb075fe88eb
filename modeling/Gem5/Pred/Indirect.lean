import Gem5.Base.ISA
import Gem5.Lib.Result

open Lib Result

namespace Gem5.IndirectPredictor

structure Params where
  hashGHR : Bool
  hashTargets : Bool
  numSets : Unsigned
  numWays : Unsigned
  tagBits : Unsigned
  pathLength : Unsigned
  instShift : Unsigned
  deriving DecidableEq

structure IPredEntry (PC : Type) where
  tag : Addr
  target : PC
  deriving DecidableEq

structure HistoryEntry where
  pcAddr : Addr
  targetAddr : Addr
  seqNum : InstSeqNum
  deriving DecidableEq, Repr

/-- `pathHist` is kept in the order of the source, oldest entry first. -/
structure ThreadInfo where
  pathHist : List HistoryEntry
  headHistEntry : Nat
  deriving DecidableEq, Repr

structure State (p : Params) (PC : Type) where
  targetCache : Vector (Vector (IPredEntry PC) p.numWays.toNat) p.numSets.toNat
  threadInfo : ThreadID → ThreadInfo

variable {PC Inst : Type}

def State.initial (isa : ISA PC Inst) (p : Params) : State p PC where
  targetCache := Vector.replicate p.numSets.toNat (Vector.replicate p.numWays.toNat ⟨0, isa.pcState 0⟩)
  threadInfo := fun _ => ⟨[], 0⟩

def construct (isa : ISA PC Inst) (p : Params) : Except String (State p PC) := do
  Result.fatalIf (!isPowerOf2 p.numSets) "Indirect predictor requires power of 2 number of sets"
  .ok (.initial isa p)

/-- The loop of `getSetIndex` over the newest entries, which come first here.
`position` counts them from 0. -/
def hashPath (p : Params) (hash_shift : Nat) : Nat → List HistoryEntry → Addr → Addr
  | _, [], hash => hash
  | position, entry :: older, hash =>
    if position < p.pathLength.toNat then
      hashPath p hash_shift (position + 1) older
        (hash ^^^ shr entry.targetAddr (p.instShift.toNat + position * hash_shift))
    else hash

variable (p : Params)

/-- The set of a branch under a global history and a path history. -/
def getSetIndex (pathHist : List HistoryEntry) (br_addr : Addr) (ghr : Unsigned) : Result Addr := do
  let hash := shr br_addr p.instShift.toNat
  let hash := if p.hashGHR then hash ^^^ ghr.setWidth 64 else hash
  let hash ← (if p.hashTargets then
      if p.pathLength = 0 then .error .divisionByZero
      else .ok (hashPath p (floorLog2 p.numSets / p.pathLength.toNat) 0 pathHist.reverse hash)
    else .ok hash : Result Addr)
  .ok (hash &&& (p.numSets - 1).setWidth 64)

def getTag (br_addr : Addr) : Addr :=
  shr br_addr p.instShift.toNat &&& (shl (1 : Unsigned) p.tagBits.toNat - 1).setWidth 64

variable (ipred : State p PC)

/-- The set that `lookup` and `recordTarget` work on. -/
def readSet (set_index : Addr) : Result (Vector (IPredEntry PC) p.numWays.toNat) := do
  Result.require (set_index.toNat < p.numSets.toNat)
  Table.read ipred.targetCache set_index.toNat

/-- The first way that holds the tag. -/
def findWay {numWays : Nat} (iset : Vector (IPredEntry PC) numWays) (tag : Addr) : Option (Fin numWays) :=
  iset.findFinIdx? fun way => way.tag == tag

def lookup (br_addr : Addr) (ghr : Unsigned) (tid : ThreadID) : Result (Option PC) := do
  let set_index ← getSetIndex p (ipred.threadInfo tid).pathHist br_addr ghr
  let iset ← readSet p ipred set_index
  .ok ((findWay iset (getTag p br_addr)).map fun way => iset[way].target)

/-- The predictor with another path history of one thread. -/
def State.setThreadInfo {p : Params} (ipred : State p PC) (tid : ThreadID) (info : ThreadInfo) : State p PC :=
  { ipred with threadInfo := Function.update ipred.threadInfo tid info }

def recordIndirect (br_addr tgt_addr : Addr) (seq_num : InstSeqNum) (tid : ThreadID) : State p PC :=
  let info := ipred.threadInfo tid
  ipred.setThreadInfo tid { info with pathHist := info.pathHist ++ [⟨br_addr, tgt_addr, seq_num⟩] }

def commit (seq_num : InstSeqNum) (tid : ThreadID) : State p PC :=
  let info := ipred.threadInfo tid
  match info.pathHist[info.headHistEntry]? with
  | none => ipred
  | some head =>
    if head.seqNum ≤ seq_num then
      if info.headHistEntry ≥ p.pathLength.toNat then
        ipred.setThreadInfo tid { info with pathHist := info.pathHist.tail }
      else
        ipred.setThreadInfo tid { info with headHistEntry := info.headHistEntry + 1 }
    else ipred

def squash (seq_num : InstSeqNum) (tid : ThreadID) : State p PC :=
  let info := ipred.threadInfo tid
  ipred.setThreadInfo tid { info with pathHist := info.pathHist.takeWhile fun entry => entry.seqNum ≤ seq_num }

variable {p} {ipred}

/-- Writes the target into the way that holds the tag, or into the way that
`rand()` selects. -/
def replaceWay {numWays : Nat} (iset : Vector (IPredEntry PC) numWays) (tag : Addr) (target : PC)
    (rand : Nat) : Result (Vector (IPredEntry PC) numWays) :=
  match findWay iset tag with
  | some way => .ok (iset.set way ⟨tag, target⟩ way.isLt)
  | none =>
    if numWays = 0 then .error .divisionByZero
    else Table.write iset (rand % numWays) ⟨tag, target⟩

/-- The newest path entry gets its target; its set is computed with the entry
itself left out. -/
def recordTarget (isa : ISA PC Inst) (p : Params) (ipred : State p PC) (ghr : Unsigned) (target : PC)
    (tid : ThreadID) (rand : Nat) : Result (State p PC) := do
  let info := ipred.threadInfo tid
  match info.pathHist.getLast? with
  | none => .error .dangling
  | some hist_entry =>
    let older := info.pathHist.dropLast
    let set_index ← getSetIndex p older hist_entry.pcAddr ghr
    let ipred := ipred.setThreadInfo tid
      { info with pathHist := older ++ [{ hist_entry with targetAddr := isa.instAddr target }] }
    let iset ← readSet p ipred set_index
    let iset ← replaceWay iset (getTag p hist_entry.pcAddr) target rand
    let targetCache ← Table.write ipred.targetCache set_index.toNat iset
    .ok { ipred with targetCache }

theorem construct_eq_ok_iff : construct isa p = .ok ipred ↔ isPowerOf2 p.numSets = true ∧ ipred = .initial isa p := by
  simp only [construct, bind_eq_ok_iff, fatalIf_eq_ok_iff, Bool.not_eq_false', exists_const]
  apply and_congr_right
  intro _
  rw [Except.ok.injEq, eq_comm]

theorem readSet_eq_ok_iff : readSet p ipred set_index = .ok iset ↔
    Table.read ipred.targetCache set_index.toNat = .ok iset := by
  simp only [readSet, bind_eq_ok_iff, require_eq_ok_iff, decide_eq_true_eq, exists_const, and_iff_right_iff_imp]
  exact fun hread => (Table.read_eq_ok_iff.mp hread).fst

theorem replaceWay_ok {iset iset' : Vector (IPredEntry PC) numWays}
    (h : replaceWay iset tag target rand = .ok iset') :
    ∃ way, Table.write iset way ⟨tag, target⟩ = .ok iset' := by
  unfold replaceWay at h
  split at h
  next way _ =>
    cases h
    exact ⟨way, Table.write_eq_ok_iff.mpr ⟨way.isLt, rfl⟩⟩
  split at h
  · cases h
  · exact ⟨_, h⟩

end Gem5.IndirectPredictor
