import Gem5.Base.ISA
import Gem5.Lib.Result

open Lib Result

namespace Gem5.DefaultBTB

structure Params where
  numEntries : Unsigned
  tagBits : Unsigned
  instShiftAmt : Unsigned
  numThreads : Unsigned
  deriving DecidableEq

namespace Params

variable (p : Params)

def log2NumThreads : Nat := floorLog2 p.numThreads

def idxMask : Unsigned := p.numEntries - 1

def tagMask : Unsigned := shl 1 p.tagBits.toNat - 1

def tagShiftAmt : Unsigned := p.instShiftAmt + BitVec.ofNat 32 (floorLog2 p.numEntries)

end Params

structure BTBEntry (PC : Type) where
  tag : Addr
  target : PC
  tid : ThreadID
  valid : Bool
  deriving DecidableEq

variable {PC Inst : Type}

variable (p : Params)

/-- The vector `btb`. -/
abbrev State (PC : Type) : Type := Vector (BTBEntry PC) p.numEntries.toNat

/-- The source leaves `tid` of a fresh entry uninitialised. It is only compared
in valid entries. -/
def State.initial (isa : ISA PC Inst) (p : Params) : State p PC :=
  Vector.replicate p.numEntries.toNat ⟨0, isa.pcState 0, 0, false⟩

def construct (isa : ISA PC Inst) (p : Params) : Except String (State p PC) := do
  Result.fatalIf (!isPowerOf2 p.numEntries) "BTB entries is not a power of 2!"
  .ok (.initial isa p)

/-- The thread number is shifted as a signed 32-bit integer. -/
def getIndex (instPC : Addr) (tid : ThreadID) : Unsigned :=
  let count := p.tagShiftAmt - p.instShiftAmt - BitVec.ofNat 32 p.log2NumThreads
  ((shr instPC p.instShiftAmt.toNat ^^^ (shl (BitVec.ofNat 32 tid) count.toNat).signExtend 64) &&&
    p.idxMask.setWidth 64).setWidth 32

def getTag (instPC : Addr) : Addr :=
  shr instPC p.tagShiftAmt.toNat &&& p.tagMask.setWidth 64

/-- The entry of an address, read where the source reads it: after the
assertion that the index is in range. -/
def readEntry (btb : State p PC) (instPC : Addr) (tid : ThreadID) : Result (BTBEntry PC) := do
  Result.require (getIndex p instPC tid < p.numEntries)
  Table.read btb (getIndex p instPC tid).toNat

/-- The test that `valid` and `lookup` share. -/
def hits (entry : BTBEntry PC) (instPC : Addr) (tid : ThreadID) : Bool :=
  entry.valid && getTag p instPC == entry.tag && entry.tid == tid

def valid (btb : State p PC) (instPC : Addr) (tid : ThreadID) : Result Bool := do
  let entry ← readEntry p btb instPC tid
  .ok (hits p entry instPC tid)

def lookup (isa : ISA PC Inst) (p : Params) (btb : State p PC) (instPC : Addr) (tid : ThreadID) : Result PC := do
  let entry ← readEntry p btb instPC tid
  .ok (if hits p entry instPC tid then entry.target else isa.pcState 0)

def update (btb : State p PC) (instPC : Addr) (target : PC) (tid : ThreadID) : Result (State p PC) := do
  Result.require (getIndex p instPC tid < p.numEntries)
  Table.write btb (getIndex p instPC tid).toNat ⟨getTag p instPC, target, tid, true⟩

variable {p}

theorem construct_eq_ok_iff : construct isa p = .ok btb ↔ isPowerOf2 p.numEntries = true ∧ btb = .initial isa p := by
  simp only [construct, bind_eq_ok_iff, fatalIf_eq_ok_iff, Bool.not_eq_false', exists_const]
  apply and_congr_right
  intro _
  rw [Except.ok.injEq, eq_comm]

end Gem5.DefaultBTB
