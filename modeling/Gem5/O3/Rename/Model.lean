import Gem5.Base.IntMath
import Gem5.Lib.Run
import Gem5.O3.Registers

open Lib Result

namespace Gem5.O3.Rename

/-- An entry of the history buffer. -/
structure RenameHistory where
  instSeqNum : InstSeqNum
  archReg : RegId
  newPhysReg : PhysRegIdPtr
  prevPhysReg : PhysRegIdPtr

/-- What the rename stage of one thread works on. The free lists are queues, next
register first; an entry of the rename map of a class is found under the class
and its index in the map; the newest entry of the history buffer comes first. -/
structure State where
  freeList : RegClass → List PhysRegId
  renameMap : RegClass × Nat → PhysRegIdPtr
  historyBuffer : List RenameHistory

variable (isa : TheISA) (p : Params) (st : State)

/-- The size of the rename map of a class. -/
def mapSize : RegClass → Nat
  | .IntRegClass => isa.NumIntRegs
  | .FloatRegClass => isa.NumFloatRegs
  | .VecRegClass => isa.NumVecRegs
  | .VecElemClass => isa.NumVecRegs * isa.NumVecElemPerVecReg
  | .CCRegClass => isa.NumCCRegs
  | .MiscRegClass => 0

/-- The argument `_zeroReg` with which the rename map of a class is initialized. -/
def initZeroReg : RegClass → Nat
  | .IntRegClass => isa.ZeroReg
  | .FloatRegClass => if isa.isAlpha then isa.ZeroReg else isa.NumFloatRegs + 1
  | _ => 2 ^ 16 - 1

/-- `zeroReg` of the rename map of a class. Whatever the class is, it is an
integer register. -/
def zeroReg (c : RegClass) : RegId :=
  .scalar .IntRegClass (initZeroReg isa c) RegClass.int_ne_vecElem

/-- The stage after the processor has taken a physical register off the free
lists for every architectural register, in order. -/
def State.initial : State where
  freeList c := if inUse p c then (PhysRegFile.getRegIds isa p c).drop (mapSize isa c) else []
  renameMap key := if inUse p key.1 ∧
    key.2 < mapSize isa key.1 then (PhysRegFile.getRegIds isa p key.1)[key.2]? else none
  historyBuffer := []

def construct : Result State := do
  require (p.numPhysIntRegs ≥ isa.NumIntRegs)
  require (p.numPhysFloatRegs ≥ isa.NumFloatRegs)
  require (p.numPhysVecRegs ≥ isa.NumVecRegs)
  require (p.numPhysCCRegs ≥ isa.NumCCRegs)
  .ok (State.initial isa p)

/-- `SimpleFreeList::getReg`. -/
def getReg : List PhysRegId → Result (PhysRegId × List PhysRegId)
  | [] => .error .assertion
  | free_reg :: rest => .ok (free_reg, rest)

/-- `UnifiedFreeList::addReg`. -/
def addReg : PhysRegIdPtr → Result State
  | none => .error .dangling
  | some freed_reg => do
    -- There is no free list for misc registers.
    require (freed_reg.regClass != .MiscRegClass)
    .ok { st with freeList :=
      Function.update st.freeList freed_reg.regClass (st.freeList freed_reg.regClass ++ [freed_reg]) }

/-- The new and the previous physical register of a destination. -/
abbrev RenameInfo : Type := PhysRegIdPtr × PhysRegIdPtr

/-- `SimpleRenameMap::rename` of the map of a class. -/
def SimpleRenameMap.rename (c : RegClass) (st : State) (arch_reg : RegId) : Result (RenameInfo × State) :=
  if arch_reg.index < mapSize isa c then
    let prev_reg := st.renameMap (c, arch_reg.index)
    if arch_reg ≠ zeroReg isa c then do
      let (renamed_reg, rest) ← getReg (st.freeList c)
      .ok ((some renamed_reg, prev_reg), { st with
        freeList := Function.update st.freeList c rest
        renameMap := Function.update st.renameMap (c, arch_reg.index) (some renamed_reg) })
    else
      match prev_reg with
      | none => .error .dangling
      | some prev => do
        require (prev.isZeroReg isa)
        .ok ((prev_reg, prev_reg), st)
  else .error .outOfRange

/-- `SimpleRenameMap::setEntry` of the map of a class. -/
def SimpleRenameMap.setEntry (c : RegClass) (st : State) (arch_reg : RegId)
    (phys_reg : PhysRegIdPtr) : Result State := do
  require (arch_reg.flatIndex isa ≤ mapSize isa c)
  if arch_reg.flatIndex isa < mapSize isa c then
    .ok { st with renameMap := Function.update st.renameMap (c, arch_reg.flatIndex isa) phys_reg }
  else .error .outOfRange

/-- The asserts of the unified map on the vector mode. -/
def checkMode : RegClass → Result Unit
  | .VecRegClass => require (p.vecMode == .Full)
  | .VecElemClass => require (p.vecMode == .Elem)
  | _ => .ok ()

/-- `PhysRegFile::getMiscRegId`. -/
def getMiscRegId (reg_idx : Nat) : Result PhysRegId :=
  if reg_idx < isa.NumMiscRegs then .ok (.scalar .MiscRegClass reg_idx RegClass.misc_ne_vecElem)
  else .error .outOfRange

/-- `UnifiedRenameMap::rename`. Misc registers keep their mapping. -/
def rename (isa : TheISA) (p : Params) (st : State) (arch_reg : RegId) : Result (RenameInfo × State) :=
  if arch_reg.regClass = .MiscRegClass then do
    let phys_reg ← getMiscRegId isa (arch_reg.flatIndex isa)
    .ok ((some phys_reg, some phys_reg), st)
  else do
    checkMode p arch_reg.regClass
    SimpleRenameMap.rename isa arch_reg.regClass st arch_reg

/-- `UnifiedRenameMap::setEntry`. -/
def setEntry (isa : TheISA) (p : Params) (st : State) (arch_reg : RegId) (phys_reg : PhysRegIdPtr) : Result State :=
  if arch_reg.regClass = .MiscRegClass then do
    let fixed ← getMiscRegId isa (arch_reg.flatIndex isa)
    require (phys_reg == some fixed)
    .ok st
  else
    match phys_reg with
    | none => .error .dangling
    | some phys => do
      require (phys.regClass == arch_reg.regClass)
      checkMode p arch_reg.regClass
      SimpleRenameMap.setEntry isa arch_reg.regClass st arch_reg phys_reg

/-- An iteration of the loop of `renameDestRegs`, for a flattened destination. -/
def renameDestReg (seqNum : InstSeqNum) (st : State) (dest_reg : RegId) : Result (RenameInfo × State) := do
  let (info, st) ← rename isa p st dest_reg
  .ok (info, { st with historyBuffer := ⟨seqNum, dest_reg, info.1, info.2⟩ :: st.historyBuffer })

def renameDestRegs (isa : TheISA) (p : Params) (seqNum : InstSeqNum) :
    State → List RegId → Result (List RenameInfo × State)
  | st, [] => .ok ([], st)
  | st, dest_reg :: rest => do
    let (info, st) ← renameDestReg isa p seqNum st dest_reg
    let (infos, st) ← renameDestRegs isa p seqNum st rest
    .ok (info :: infos, st)

/-- Undoes one rename, if it changed the mapping. -/
def undoRename (entry : RenameHistory) : Result State :=
  if entry.newPhysReg ≠ entry.prevPhysReg then do
    let st ← setEntry isa p st entry.archReg entry.prevPhysReg
    addReg st entry.newPhysReg
  else .ok st

/-- The loop of `doSquash`, from the front of the history buffer. It returns what
it leaves in the buffer. -/
def undoNewest (isa : TheISA) (p : Params) (squashed_seq_num : InstSeqNum) :
    List RenameHistory → State → Result (List RenameHistory × State)
  | [], st => .ok ([], st)
  | entry :: older, st =>
    if entry.instSeqNum > squashed_seq_num then do
      let st ← undoRename isa p st entry
      undoNewest isa p squashed_seq_num older st
    else .ok (entry :: older, st)

def doSquash (squashed_seq_num : InstSeqNum) : Result State := do
  let (historyBuffer, st) ← undoNewest isa p squashed_seq_num st.historyBuffer st
  .ok { st with historyBuffer }

/-- Frees the previous register of a committed rename, if it changed the
mapping. -/
def freePrev (entry : RenameHistory) : Result State :=
  if entry.newPhysReg ≠ entry.prevPhysReg then addReg st entry.prevPhysReg else .ok st

/-- The loop of `removeFromHistory`, from the back of the history buffer. -/
def commitOldest (inst_seq_num : InstSeqNum) : List RenameHistory → State → Result (List RenameHistory × State)
  | [], st => .ok ([], st)
  | entry :: younger, st =>
    if entry.instSeqNum ≤ inst_seq_num then do
      let st ← freePrev st entry
      commitOldest inst_seq_num younger st
    else .ok (entry :: younger, st)

def removeFromHistory (inst_seq_num : InstSeqNum) : Result State := do
  let (rest, st) ← commitOldest inst_seq_num st.historyBuffer.reverse st
  .ok { st with historyBuffer := rest.reverse }

/-- The calls made for one thread. -/
inductive Op where
  | renameDestRegs (seqNum : InstSeqNum) (dest_regs : List RegId)
  | doSquash (squashed_seq_num : InstSeqNum)
  | removeFromHistory (inst_seq_num : InstSeqNum)

/-- The stage, which answers with the registers of the destinations. -/
def machine : Machine State Op (List RenameInfo) where
  step
    | st, .renameDestRegs seqNum dest_regs => renameDestRegs isa p seqNum st dest_regs
    | st, .doSquash squashed_seq_num => do
      let st ← doSquash isa p st squashed_seq_num
      .ok ([], st)
    | st, .removeFromHistory inst_seq_num => do
      let st ← removeFromHistory st inst_seq_num
      .ok ([], st)

/-- `ISA::flattenRegId`, where the index of a register of a class depends on the
state of the processor. The instruction set that renames by elements builds the
flattened register from its class and index, which panics for a vector element. -/
def flattenRegId (flatten : RegClass → Nat → Nat) (reg : RegId) : Result RegId :=
  if h : reg.regClass ≠ .VecElemClass then .ok (.scalar reg.regClass (flatten reg.regClass reg.index) h)
  else if p.vecMode = .Elem then .error .assertion
  else .ok reg

/-- `renameDestRegs` for the destinations of an instruction. -/
def renameInst (flatten : RegClass → Nat → Nat) (seqNum : InstSeqNum) (st : State)
    (dest_regs : List RegId) : Result (List RenameInfo × State) := do
  let flat_dest_regids ← dest_regs.mapM (flattenRegId p flatten)
  renameDestRegs isa p seqNum st flat_dest_regids

/-- The calls made for one thread, with the destinations as the instructions have
them. -/
inductive InstOp where
  | renameInst (flatten : RegClass → Nat → Nat) (seqNum : InstSeqNum) (dest_regs : List RegId)
  | doSquash (squashed_seq_num : InstSeqNum)
  | removeFromHistory (inst_seq_num : InstSeqNum)

def instMachine : Machine State InstOp (List RenameInfo) where
  step
    | st, .renameInst flatten seqNum dest_regs => renameInst isa p flatten seqNum st dest_regs
    | st, .doSquash squashed_seq_num => (machine isa p).step st (.doSquash squashed_seq_num)
    | st, .removeFromHistory inst_seq_num => (machine isa p).step st (.removeFromHistory inst_seq_num)

end Gem5.O3.Rename
