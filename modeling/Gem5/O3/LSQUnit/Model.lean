import Gem5.Base.IntMath
import Gem5.Lib.Circular
import Gem5.Lib.Loop
import Gem5.Lib.Run

open Lib Result

namespace Gem5.O3

/-- The parameters of a load/store queue unit. A shift by the width of an address
or more is undefined in C++. -/
structure LSQParams where
  depCheckShift : Nat
  checkLoads : Bool
  cacheStorePorts : Nat
  needsTSO : Bool
  cacheBlockMask : Addr
  hasUnalignedMemAcc : Bool
  shift_lt : depCheckShift < 64

/-- What the unit reads of a memory request. A split request comes with its two
halves, `sreqLow` and `sreqHigh`. -/
structure Request where
  vaddr : Addr
  size : Nat
  isStrictlyOrdered : Bool
  isLLSC : Bool
  isMmappedIpr : Bool
  isCacheBlockZero : Bool
  split : Bool

/-- What a load is given when it is inserted: its number, its place in the load
queue, and the place of the next store, with `none` for -1. -/
structure LoadTag (l m : Nat) where
  seqNum : InstSeqNum
  lqIdx : Fin (l + 1)
  sqIdx : Option (Fin (m + 1))
  deriving DecidableEq

structure LoadInst (l m : Nat) where
  tag : LoadTag l m
  effAddr : Addr
  effSize : BitVec 8
  effAddrValid : Bool
  strictlyOrdered : Bool
  physEffAddrLow : Addr
  physEffAddrHigh : Addr
  isExecuted : Bool
  hitExternalSnoop : Bool
  possibleLoadViolation : Bool
  /-- The load has the fault `ReExec`. -/
  reExec : Bool
  /-- The buffer `memData` is allocated. -/
  memData : Bool

/-- A load that has not executed. -/
def LoadInst.construct {l m : Nat} (tag : LoadTag l m) : LoadInst l m where
  tag := tag
  effAddr := 0
  effSize := 0
  effAddrValid := false
  strictlyOrdered := false
  physEffAddrLow := 0
  physEffAddrHigh := 0
  isExecuted := false
  hitExternalSnoop := false
  possibleLoadViolation := false
  reExec := false
  memData := false

structure StoreInst (l : Nat) where
  seqNum : InstSeqNum
  lqIdx : Fin (l + 1)
  isStoreConditional : Bool
  isDataPrefetch : Bool
  effAddr : Addr
  effSize : BitVec 8
  effAddrValid : Bool
  strictlyOrdered : Bool
  memData : Bool

/-- A store that has not executed. -/
def StoreInst.construct {l : Nat} (seqNum : InstSeqNum) (lqIdx : Fin (l + 1))
    (isStoreConditional isDataPrefetch : Bool) :
    StoreInst l where
  seqNum := seqNum
  lqIdx := lqIdx
  isStoreConditional := isStoreConditional
  isDataPrefetch := isDataPrefetch
  effAddr := 0
  effSize := 0
  effAddrValid := false
  strictlyOrdered := false
  memData := false

structure SQEntry (l : Nat) where
  inst : Option (StoreInst l)
  req : Option Request
  size : BitVec 8
  isSplit : Bool
  canWB : Bool
  committed : Bool
  completed : Bool
  isAllZeros : Bool
  data : Fin 16 → BitVec 8

/-- `SQEntry()`, and `SQEntry(inst)`. -/
def SQEntry.construct {l : Nat} (inst : Option (StoreInst l)) : SQEntry l where
  inst := inst
  req := none
  size := 0
  isSplit := false
  canWB := false
  committed := false
  completed := false
  isAllZeros := false
  data _ := 0

/-- A packet of a store that waits to be sent again: the only one, or the first
or the second one of a split store. While the first one waits the sender state
has `pktToSend` set, and the second one as its `pendingPacket`. -/
inductive StorePkt where
  | whole | first | second
  deriving DecidableEq, Repr

/-- The calls of the unit to the stage that owns it. -/
inductive IEWCall where
  | rescheduleMemInst (seqNum : InstSeqNum)
  | replayMemInst (seqNum : InstSeqNum)
  | blockMemInst (seqNum : InstSeqNum)
  | instToCommit (seqNum : InstSeqNum)
  deriving DecidableEq, Repr

/-- A unit for `l` loads and `m` stores. Both queues have one slot more. -/
structure LSQUnit (l m : Nat) where
  loadQueue : Fin (l + 1) → Option (LoadInst l m)
  storeQueue : Fin (m + 1) → SQEntry l
  loads : Int
  stores : Int
  storesToWB : Int
  loadHead : Fin (l + 1)
  loadTail : Fin (l + 1)
  storeHead : Fin (m + 1)
  storeWBIdx : Fin (m + 1)
  storeTail : Fin (m + 1)
  usedStorePorts : Nat
  stalled : Bool
  stallingStoreIsn : InstSeqNum
  stallingLoadIdx : Fin (l + 1)
  isStoreBlocked : Bool
  retryPkt : Option StorePkt
  /-- The second packet of a split store is `pendingPkt`. -/
  hasPendingPkt : Bool
  storeInFlight : Bool
  /-- The number of the violator. -/
  memDepViolator : Option InstSeqNum
  /-- The calls made, newest first. -/
  iewCalls : List IEWCall

namespace LSQUnit

variable {l m : Nat}

/-- The constructor and `init`. -/
def construct (l m : Nat) : LSQUnit l m where
  loadQueue _ := none
  storeQueue _ := .construct none
  loads := 0
  stores := 0
  storesToWB := 0
  loadHead := ⟨0, Nat.succ_pos l⟩
  loadTail := ⟨0, Nat.succ_pos l⟩
  storeHead := ⟨0, Nat.succ_pos m⟩
  storeWBIdx := ⟨0, Nat.succ_pos m⟩
  storeTail := ⟨0, Nat.succ_pos m⟩
  usedStorePorts := 0
  stalled := false
  stallingStoreIsn := 0
  stallingLoadIdx := ⟨0, Nat.succ_pos l⟩
  isStoreBlocked := false
  retryPkt := none
  hasPendingPkt := false
  storeInFlight := false
  memDepViolator := none
  iewCalls := []

def incrLdIdx (load_idx : Fin (l + 1)) : Fin (l + 1) := Circular.succ load_idx

def decrLdIdx (load_idx : Fin (l + 1)) : Fin (l + 1) := Circular.pred load_idx

def incrStIdx (store_idx : Fin (m + 1)) : Fin (m + 1) := Circular.succ store_idx

def decrStIdx (store_idx : Fin (m + 1)) : Fin (m + 1) := Circular.pred store_idx

variable (p : LSQParams) (s : LSQUnit l m) (req : Request)

def lqFull : Bool := s.loads ≥ l

def sqFull : Bool := s.stores ≥ m

def setLoad (load_idx : Fin (l + 1)) (load : Option (LoadInst l m)) : LSQUnit l m :=
  { s with loadQueue := Function.update s.loadQueue load_idx load }

@[simp]
theorem loadQueue_setLoad (load_idx : Fin (l + 1)) (load : Option (LoadInst l m)) :
    (s.setLoad load_idx load).loadQueue = Function.update s.loadQueue load_idx load := rfl

def setStore (store_idx : Fin (m + 1)) (entry : SQEntry l) : LSQUnit l m :=
  { s with storeQueue := Function.update s.storeQueue store_idx entry }

@[simp]
theorem storeQueue_setStore (store_idx : Fin (m + 1)) (entry : SQEntry l) :
    (s.setStore store_idx entry).storeQueue = Function.update s.storeQueue store_idx entry := rfl

/-- The store can be written back. -/
def setCanWB (store_idx : Fin (m + 1)) : LSQUnit l m :=
  { s.setStore store_idx { s.storeQueue store_idx with canWB := true } with storesToWB := s.storesToWB + 1 }

/-- The store needs no writeback any more. -/
def setCompleted (store_idx : Fin (m + 1)) : LSQUnit l m :=
  { s.setStore store_idx { s.storeQueue store_idx with completed := true } with storesToWB := s.storesToWB - 1 }

def call (c : IEWCall) : LSQUnit l m := { s with iewCalls := c :: s.iewCalls }

def insertLoad (seqNum : InstSeqNum) : Result (LSQUnit l m) := do
  require (incrLdIdx s.loadTail ≠ s.loadHead)
  require (s.loads < l + 1)
  let load_inst : LoadInst l m := .construct ⟨seqNum, s.loadTail, if s.stores = 0 then none else some s.storeTail⟩
  .ok { s.setLoad s.loadTail (some load_inst) with
    loadTail := incrLdIdx s.loadTail
    loads := s.loads + 1 }

def insertStore (seqNum : InstSeqNum) (isStoreConditional isDataPrefetch : Bool) : Result (LSQUnit l m) := do
  require (incrStIdx s.storeTail ≠ s.storeHead)
  require (s.stores < m + 1)
  let store_inst : StoreInst l := .construct seqNum s.loadTail isStoreConditional isDataPrefetch
  .ok { s.setStore s.storeTail (.construct (some store_inst)) with
    storeTail := incrStIdx s.storeTail
    stores := s.stores + 1 }

def getMemDepViolator : LSQUnit l m := { s with memDepViolator := none }

/-- The loop of `checkSnoop`, from the load at `load_idx` on. -/
def snoopLoads (p : LSQParams) (invalidate_addr : Addr) :
    Nat → Bool → Fin (l + 1) → LSQUnit l m → Result (LSQUnit l m)
  | 0, _, _, _ => .error .assertion
  | fuel + 1, force_squash, load_idx, s =>
    if load_idx = s.loadTail then .ok s
    else
      match s.loadQueue load_idx with
      | none => .error .dangling
      | some ld_inst =>
        if !ld_inst.effAddrValid || ld_inst.strictlyOrdered then
          snoopLoads p invalidate_addr fuel force_squash (incrLdIdx load_idx) s
        else if ld_inst.physEffAddrLow &&& p.cacheBlockMask = invalidate_addr ∨
            ld_inst.physEffAddrHigh &&& p.cacheBlockMask = invalidate_addr ∨ force_squash then
          let force_squash := p.needsTSO || force_squash
          let ld_inst :=
            if ld_inst.possibleLoadViolation || force_squash then { ld_inst with reExec := true }
            else { ld_inst with hitExternalSnoop := true }
          snoopLoads p invalidate_addr fuel force_squash (incrLdIdx load_idx) (s.setLoad load_idx (some ld_inst))
        else snoopLoads p invalidate_addr fuel force_squash (incrLdIdx load_idx) s

/-- `checkSnoop`. The first load of the queue is passed over. -/
def checkSnoop (addr : Addr) : Result (LSQUnit l m) :=
  if s.loadHead = s.loadTail then .ok s
  else snoopLoads p (addr &&& p.cacheBlockMask) (l + 2) false (incrLdIdx s.loadHead) s

/-- What `checkViolations` reads of the instruction that is checked. -/
structure Checked where
  isLoad : Bool
  effAddr : Addr
  effSize : BitVec 8

variable (effAddr : Addr) (youngest_inst : InstSeqNum)

/-- The first and the last block that an access touches. -/
def firstBlock : Addr := shr effAddr p.depCheckShift

def lastBlock (effSize : BitVec 8) : Addr :=
  shr (effAddr + effSize.setWidth 64 - 1) p.depCheckShift

/-- The loop of `checkViolations`, from the load at `load_idx` on. It answers
whether there is a fault. -/
def checkViolationsFrom (p : LSQParams) (inst : Checked) :
    Nat → Fin (l + 1) → LSQUnit l m → Result (Bool × LSQUnit l m)
  | 0, _, _ => .error .assertion
  | fuel + 1, load_idx, s =>
    if load_idx = s.loadTail then .ok (false, s)
    else
      match s.loadQueue load_idx with
      | none => .error .dangling
      | some ld_inst =>
        if !ld_inst.effAddrValid || ld_inst.strictlyOrdered then
          checkViolationsFrom p inst fuel (incrLdIdx load_idx) s
        else if lastBlock p inst.effAddr inst.effSize ≥ firstBlock p ld_inst.effAddr ∧
            firstBlock p inst.effAddr ≤ lastBlock p ld_inst.effAddr ld_inst.effSize then
          if inst.isLoad then
            if ld_inst.hitExternalSnoop && s.memDepViolator.all fun violator => ld_inst.tag.seqNum < violator then
              .ok (true, { s with memDepViolator := some ld_inst.tag.seqNum })
            else
              checkViolationsFrom p inst fuel (incrLdIdx load_idx)
                (s.setLoad load_idx (some { ld_inst with possibleLoadViolation := true }))
          else if s.memDepViolator.any fun violator => ld_inst.tag.seqNum > violator then .ok (false, s)
          else .ok (true, { s with memDepViolator := some ld_inst.tag.seqNum })
        else checkViolationsFrom p inst fuel (incrLdIdx load_idx) s

def checkViolations (load_idx : Fin (l + 1)) (inst : Checked) : Result (Bool × LSQUnit l m) :=
  checkViolationsFrom p inst (l + 2) load_idx s

/-- What becomes of a load in `read`. -/
inductive ReadResult where
  | strictlyOrdered
  | mmappedIpr
  | forwarded (memData : List (BitVec 8))
  | rescheduled
  | memory (successful_load : Bool)
  deriving DecidableEq

/-- How the walk over the older stores ends. -/
inductive StoreScan (m : Nat) where
  | forward (store_idx : Fin (m + 1))
  | mismatch (store_idx : Fin (m + 1))
  | noMatch
  deriving DecidableEq

/-- The four tests of `read` on a request and a store. -/
def storeHasLowerLimit : Bool := req.vaddr ≥ effAddr

def storeHasUpperLimit (store_size : BitVec 8) : Bool :=
  req.vaddr + BitVec.ofNat 64 req.size ≤ effAddr + store_size.setWidth 64

def lowerLoadHasStorePart (store_size : BitVec 8) : Bool :=
  req.vaddr < effAddr + store_size.setWidth 64

def upperLoadHasStorePart : Bool :=
  req.vaddr + BitVec.ofNat 64 req.size > effAddr

/-- The store has all of the data and the load can take it. -/
def canForward (store_size : BitVec 8) : Bool :=
  storeHasLowerLimit req effAddr && storeHasUpperLimit req effAddr store_size && !req.isLLSC

/-- The partial case of `read`. -/
def mismatches (store_size : BitVec 8) : Bool :=
  (!req.isLLSC &&
    ((storeHasLowerLimit req effAddr && lowerLoadHasStorePart req effAddr store_size) ||
     (storeHasUpperLimit req effAddr store_size && upperLoadHasStorePart req effAddr) ||
     (lowerLoadHasStorePart req effAddr store_size && upperLoadHasStorePart req effAddr))) ||
  (req.isLLSC &&
    ((storeHasLowerLimit req effAddr || upperLoadHasStorePart req effAddr) &&
     (storeHasUpperLimit req effAddr store_size || lowerLoadHasStorePart req effAddr store_size)))

/-- The loop of `read`, from the slot after the next store on. -/
def scanStores (s : LSQUnit l m) (req : Request) : Nat → Fin (m + 1) → Result (StoreScan m)
  | 0, _ => .error .assertion
  | fuel + 1, store_idx =>
    if store_idx = s.storeWBIdx then .ok .noMatch
    else
      let store_idx := decrStIdx store_idx
      let entry := s.storeQueue store_idx
      match entry.inst with
      | none => .error .assertion
      | some inst =>
        if entry.size = 0 then scanStores s req fuel store_idx
        else if inst.strictlyOrdered then scanStores s req fuel store_idx
        else do
          require inst.effAddrValid
          if canForward req inst.effAddr entry.size then .ok (.forward store_idx)
          else if mismatches req inst.effAddr entry.size then do
            -- `panic("Should not check one of these")`
            require (!entry.completed)
            .ok (.mismatch store_idx)
          else scanStores s req fuel store_idx

/-- The walk of `read` over the stores before `sqIdx`. -/
def olderStore : Option (Fin (m + 1)) → Result (StoreScan m)
  | none => .ok .noMatch
  | some store_idx => s.scanStores req (m + 2) store_idx

/-- The bytes of the store that a load reads, from `shift_amt` on. -/
def storeBytes (entry : SQEntry l) (shift_amt size : Nat) : Result (List (BitVec 8)) :=
  if entry.isAllZeros then .ok (List.replicate size 0)
  else (List.range size).mapM fun k =>
    if h : shift_amt + k < 16 then .ok (entry.data ⟨shift_amt + k, h⟩) else .error .outOfRange

/-- The next answer of the environment: whether the cache takes a packet, or
whether a store conditional may write. -/
def ask (answers : List Bool) : Bool × List Bool := (answers.headD false, answers.tail)

/-- A load that the store at `store_idx` has only a part of waits for that store,
if it is the oldest load that has to wait. -/
def stallLoad (load_idx : Fin (l + 1)) (seqNum storeIsn : InstSeqNum) : Result (LSQUnit l m) :=
  if !s.stalled then .ok { s with stalled := true, stallingStoreIsn := storeIsn, stallingLoadIdx := load_idx }
  else
    match s.loadQueue s.stallingLoadIdx with
    | none => .error .dangling
    | some other =>
      if seqNum < other.tag.seqNum then
        .ok { s with stalled := true, stallingStoreIsn := storeIsn, stallingLoadIdx := load_idx }
      else .ok s

/-- What `read` does at the end of its walk over the older stores. -/
def finishRead (load_idx : Fin (l + 1)) (load_inst : LoadInst l m)
    (answers : List Bool) : StoreScan m → Result (ReadResult × LSQUnit l m)
  | .forward store_idx =>
    match (s.storeQueue store_idx).inst with
    | none => .error .assertion
    | some inst => do
      let memData ← storeBytes (s.storeQueue store_idx) (req.vaddr - inst.effAddr).toNat req.size
      .ok (.forwarded memData, s.setLoad load_idx (some { load_inst with memData := true }))
  | .mismatch store_idx =>
    match (s.storeQueue store_idx).inst with
    | none => .error .assertion
    | some inst => do
      let s ← s.stallLoad load_idx load_inst.tag.seqNum inst.seqNum
      .ok (.rescheduled, s.call (.rescheduleMemInst load_inst.tag.seqNum))
  | .noMatch =>
    let s := s.setLoad load_idx (some { load_inst with memData := true })
    let successful_load := (ask answers).1 && (!req.split || (ask (ask answers).2).1)
    .ok (.memory successful_load,
      if successful_load then s else s.call (.blockMemInst load_inst.tag.seqNum))

def read (load_idx : Fin (l + 1)) (isAtCommit : Bool) (answers : List Bool) : Result (ReadResult × LSQUnit l m) :=
  match s.loadQueue load_idx with
  | none => .error .assertion
  | some load_inst => do
    require (!load_inst.isExecuted)
    if req.isStrictlyOrdered && (load_idx ≠ s.loadHead || !isAtCommit) then
      .ok (.strictlyOrdered, s.call (.rescheduleMemInst load_inst.tag.seqNum))
    else do
      require (!(req.isLLSC && req.split))
      if req.isMmappedIpr then do
        require (!load_inst.memData)
        .ok (.mmappedIpr, s.setLoad load_idx (some { load_inst with memData := true }))
      else do
        let scan ← s.olderStore req load_inst.tag.sqIdx
        s.finishRead req load_idx load_inst answers scan

/-- What a finished translation leaves in the instruction. -/
structure Translation where
  strictlyOrdered : Bool
  physEffAddrLow : Addr
  physEffAddrHigh : Addr

/-- What `initiateAcc` of a load does: whether the translation finishes in the
call, is delayed or faults, the predicate, and the request that is read. -/
structure LoadAcc where
  translation : Option Translation
  delayed : Bool
  fault : Bool
  predicate : Bool
  hasRequest : Bool
  isAtCommit : Bool
  req : Option Request
  answers : List Bool

/-- `finishTranslation` of a load, if the translation finishes. -/
def finishLoadTranslation (load_idx : Fin (l + 1)) : Option Translation → Result (LSQUnit l m)
  | none => .ok s
  | some t =>
    match s.loadQueue load_idx with
    | none => .error .dangling
    | some inst =>
      .ok (s.setLoad load_idx (some { inst with
        strictlyOrdered := t.strictlyOrdered
        physEffAddrLow := t.physEffAddrLow
        physEffAddrHigh := t.physEffAddrHigh }))

/-- `initiateAcc` of a load. It answers whether there is a fault, and what became
of the read. -/
def initiateLoad (load_idx : Fin (l + 1)) (acc : LoadAcc) : Result (Bool × Option ReadResult × LSQUnit l m) := do
  let s ← s.finishLoadTranslation load_idx acc.translation
  match s.loadQueue load_idx with
  | none => .error .dangling
  | some inst =>
    if acc.fault then .ok (true, none, s.setLoad load_idx (some { inst with isExecuted := true }))
    else
      match acc.req with
      | none => .ok (false, none, s)
      | some req => do
        let inst := { inst with effAddr := req.vaddr, effSize := BitVec.ofNat 8 req.size, effAddrValid := true }
        let (result, s) ← (s.setLoad load_idx (some inst)).read req load_idx acc.isAtCommit acc.answers
        .ok (result = .strictlyOrdered, some result, s)

def executeLoad (load_idx : Fin (l + 1)) (acc : LoadAcc) : Result (Option ReadResult × LSQUnit l m) := do
  let (load_fault, result, s) ← s.initiateLoad load_idx acc
  if acc.delayed && !load_fault then .ok (result, s)
  else
    match s.loadQueue load_idx with
    | none => .error .dangling
    | some inst =>
      if load_fault || !acc.predicate then
        let inst :=
          if !(acc.hasRequest && inst.strictlyOrdered) || acc.isAtCommit then { inst with isExecuted := true } else inst
        .ok (result, (s.setLoad load_idx (some inst)).call (.instToCommit inst.tag.seqNum))
      else do
        require inst.effAddrValid
        if p.checkLoads then do
          let (_, s) ← s.checkViolations p (incrLdIdx load_idx) ⟨true, inst.effAddr, inst.effSize⟩
          .ok (result, s)
        else .ok (result, s)

/-- What `initiateAcc` of a store does. -/
structure StoreAcc where
  translation : Option Translation
  delayed : Bool
  fault : Bool
  predicate : Bool
  write : Option (Request × (Fin 16 → BitVec 8))

/-- `finishTranslation` of a store. -/
def finishStoreTranslation (store_idx : Fin (m + 1)) : Option Translation → Result (LSQUnit l m)
  | none => .ok s
  | some t =>
    match (s.storeQueue store_idx).inst with
    | none => .error .dangling
    | some inst =>
      .ok (s.setStore store_idx { s.storeQueue store_idx with
        inst := some { inst with strictlyOrdered := t.strictlyOrdered } })

/-- `write`, with what the instruction records of the access just before. -/
def write (data : Fin 16 → BitVec 8) (store_idx : Fin (m + 1)) : Result (LSQUnit l m) :=
  let entry := s.storeQueue store_idx
  match entry.inst with
  | none => .error .assertion
  | some inst => do
    require (req.size ≤ 16 || req.isCacheBlockZero)
    .ok (s.setStore store_idx { entry with
      inst := some { inst with
        effAddr := req.vaddr
        effSize := BitVec.ofNat 8 req.size
        effAddrValid := true }
      req := some req
      size := BitVec.ofNat 8 req.size
      isAllZeros := req.isCacheBlockZero
      isSplit := entry.isSplit || (p.hasUnalignedMemAcc && req.split)
      data := fun i => if !req.isCacheBlockZero && i.val < req.size then data i else entry.data i })

/-- `initiateAcc` of a store. -/
def initiateStore (store_idx : Fin (m + 1)) (acc : StoreAcc) : Result (LSQUnit l m) := do
  let s ← s.finishStoreTranslation store_idx acc.translation
  match acc.write with
  | none => .ok s
  | some (req, data) => if acc.fault then .ok s else s.write p req data store_idx

/-- The rest of `executeStore`, once the access is initiated. It answers whether
there is a fault. -/
def finishStore (store_idx : Fin (m + 1)) (acc : StoreAcc) : Result (Bool × LSQUnit l m) :=
  let entry := s.storeQueue store_idx
  if acc.delayed && !acc.fault then .ok (false, s)
  else if entry.size = 0 then .ok (acc.fault, s)
  else if !acc.predicate then .ok (acc.fault, s)
  else
    match entry.inst with
    | none => .error .dangling
    | some inst => do
      require (!acc.fault)
      -- A store conditional that did not fault can be written back before it commits.
      let s := if inst.isStoreConditional then s.setCanWB store_idx else s
      s.checkViolations p inst.lqIdx ⟨false, inst.effAddr, inst.effSize⟩

def executeStore (store_idx : Fin (m + 1)) (acc : StoreAcc) : Result (Bool × LSQUnit l m) := do
  require (s.stores ≠ 0)
  let s ← s.initiateStore p store_idx acc
  s.finishStore p store_idx acc

/-- `writeback` of a load whose data has come. -/
def writeback (load_idx : Fin (l + 1)) : Result (LSQUnit l m) :=
  match s.loadQueue load_idx with
  | none => .error .dangling
  | some inst =>
    .ok ((s.setLoad load_idx (some { inst with isExecuted := true })).call (.instToCommit inst.tag.seqNum))

def commitLoad : LSQUnit l m :=
  { s.setLoad s.loadHead none with
    loadHead := incrLdIdx s.loadHead
    loads := s.loads - 1 }

def commitLoadsBody (s : LSQUnit l m) : Result (Option (LSQUnit l m)) :=
  if s.loads = 0 then .ok none
  else
    match s.loadQueue s.loadHead with
    | none => .error .dangling
    | some inst => if inst.tag.seqNum ≤ youngest_inst then .ok (some s.commitLoad) else .ok none

def commitLoads : Result (LSQUnit l m) := do
  require (s.loads = 0 || (s.loadQueue s.loadHead).isSome)
  loop (commitLoadsBody youngest_inst) (l + 2) s

def commitStoresBody :
    LSQUnit l m × Fin (m + 1) → Result (Option (LSQUnit l m × Fin (m + 1)))
  | (s, store_idx) =>
    if store_idx = s.storeTail then .ok none
    else
      let entry := s.storeQueue store_idx
      match entry.inst with
      | none => .error .assertion
      | some inst =>
        if entry.canWB then .ok (some (s, incrStIdx store_idx))
        else if inst.seqNum > youngest_inst then .ok none
        else .ok (some (s.setCanWB store_idx, incrStIdx store_idx))

def commitStores : Result (LSQUnit l m) := do
  require (s.stores = 0 || (s.storeQueue s.storeHead).inst.isSome)
  let (s, _) ← loop (commitStoresBody youngest_inst) (m + 2) (s, s.storeHead)
  .ok s

/-- Replays the stalling load when the store is the one it waits for. -/
def unstall (storeIsn : InstSeqNum) : Result (LSQUnit l m) :=
  if s.stalled && storeIsn = s.stallingStoreIsn then
    match s.loadQueue s.stallingLoadIdx with
    | none => .error .dangling
    | some inst => .ok ({ s with stalled := false, stallingStoreIsn := 0 }.call (.replayMemInst inst.tag.seqNum))
  else .ok s

def storePostSend : Result (LSQUnit l m) :=
  match (s.storeQueue s.storeWBIdx).inst with
  | none => .error .dangling
  | some inst => do
    let s ← s.unstall inst.seqNum
    .ok { s with
      storeInFlight := p.needsTSO || s.storeInFlight
      storeWBIdx := incrStIdx s.storeWBIdx }

/-- `storePostSend`, if the packet was sent. -/
def storePostSendIf (sent : Bool) : Result (LSQUnit l m) :=
  if sent then s.storePostSend p else .ok s

/-- The slot at the head becomes free. -/
def retireHead : LSQUnit l m :=
  { s with storeHead := incrStIdx s.storeHead, stores := s.stores - 1 }

def retireBody : Result (Option (LSQUnit l m)) :=
  if (s.storeQueue s.storeHead).completed && s.storeHead ≠ s.storeTail then .ok (some s.retireHead) else .ok none

/-- The completed stores at the head leave, if the store is the oldest one. -/
def retireFrom (store_idx : Fin (m + 1)) : Result (LSQUnit l m) :=
  if store_idx = s.storeHead then loop retireBody (m + 2) s.retireHead else .ok s

def completeStore (store_idx : Fin (m + 1)) : Result (LSQUnit l m) :=
  match (s.storeQueue store_idx).inst with
  | none => .error .assertion
  | some inst => do
    let s ← (s.setCompleted store_idx).retireFrom store_idx
    let s ← s.unstall inst.seqNum
    .ok { s with storeInFlight := !p.needsTSO && s.storeInFlight }

/-- Sends a packet of a store. It answers whether the cache took it. -/
def sendStore (data_pkt : StorePkt) (answers : List Bool) : Result (Bool × LSQUnit l m × List Bool) :=
  if (ask answers).1 then .ok (true, s, (ask answers).2)
  else do
    require s.retryPkt.isNone
    .ok (false, { s with isStoreBlocked := true, retryPkt := some data_pkt }, (ask answers).2)

/-- `writebackPendingStore`, which is called where accesses can be split. -/
def writebackPendingStore (answers : List Bool) : Result (LSQUnit l m × List Bool) :=
  if p.hasUnalignedMemAcc && s.hasPendingPkt then do
    let (sent, s, answers) ← s.sendStore .second answers
    let s ← s.storePostSendIf p sent
    .ok ({ s with hasPendingPkt := false }, answers)
  else .ok (s, answers)

/-- The store at `storeWBIdx` needs no packet any more. -/
def completeAndPass : Result (LSQUnit l m) := do
  let s ← s.completeStore p s.storeWBIdx
  .ok { s with storeWBIdx := incrStIdx s.storeWBIdx }

/-- Sends the packets of the store at `storeWBIdx`. -/
def sendPackets (split : Bool) (answers : List Bool) : Result (LSQUnit l m × List Bool) := do
  let (sent, s, answers) ← s.sendStore (if split then .first else .whole) answers
  if !sent then .ok (s, answers)
  else if !split then do
    let s ← s.storePostSend p
    .ok (s, answers)
  else if s.usedStorePorts < p.cacheStorePorts then do
    let (sent, s, answers) ← { s with usedStorePorts := s.usedStorePorts + 1 }.sendStore .second answers
    let s ← s.storePostSendIf p sent
    .ok (s, answers)
  else do
    require (!s.hasPendingPkt)
    .ok ({ s with hasPendingPkt := true }, answers)

/-- The store at `storeWBIdx` is on its way, with its data in a packet. -/
def setCommitted (inst : StoreInst l) : LSQUnit l m :=
  s.setStore s.storeWBIdx
    { s.storeQueue s.storeWBIdx with committed := true, inst := some { inst with memData := true } }

/-- Writes back the store at `storeWBIdx`, which has data. -/
def writebackStore (inst : StoreInst l) (answers : List Bool) : Result (LSQUnit l m × List Bool) :=
  let entry := s.storeQueue s.storeWBIdx
  match entry.req with
  | none => .error .assertion
  | some req => do
    let split := p.hasUnalignedMemAcc && entry.isSplit
    require (!entry.committed)
    require (!split || req.split)
    require (!inst.memData)
    let s := s.setCommitted inst
    require (!(inst.isStoreConditional && entry.isSplit))
    if inst.isStoreConditional && !(ask answers).1 then do
      -- The store conditional failed.
      let s ← s.completeAndPass p
      .ok (s, (ask answers).2)
    else do
      let answers := if inst.isStoreConditional then (ask answers).2 else answers
      if req.isMmappedIpr then do
        require (!inst.isStoreConditional)
        let s ← s.completeAndPass p
        .ok (s, answers)
      else s.sendPackets p split answers

def writebackStoresBody : LSQUnit l m × List Bool → Result (Option (LSQUnit l m × List Bool))
  | (s, answers) =>
    let entry := s.storeQueue s.storeWBIdx
    match entry.inst with
    | none => .ok none
    | some inst =>
      if !(s.storesToWB > 0 && s.storeWBIdx ≠ s.storeTail && entry.canWB && (!p.needsTSO || !s.storeInFlight) &&
          s.usedStorePorts < p.cacheStorePorts) then .ok none
      else if s.isStoreBlocked then .ok none
      else if entry.size = 0 then do
        let s ← s.completeAndPass p
        .ok (some (s, answers))
      else
        let s := { s with usedStorePorts := s.usedStorePorts + 1 }
        if inst.isDataPrefetch then .ok (some ({ s with storeWBIdx := incrStIdx s.storeWBIdx }, answers))
        else do
          let next ← s.writebackStore p inst answers
          .ok (some next)

/-- `writebackStores`. A pass of the loop moves `storeWBIdx` on, or it is the last
but one: the cache is blocked or there is no port left. -/
def writebackStores (answers : List Bool) : Result (LSQUnit l m) := do
  let (s, answers) ← s.writebackPendingStore p answers
  let (s, _) ← loop (writebackStoresBody p) (m + 3) (s, answers)
  require (s.stores ≥ 0 && s.storesToWB ≥ 0)
  .ok { s with usedStorePorts := 0 }

/-- Takes the youngest load out of the queue. -/
def squashLoad (load_idx : Fin (l + 1)) : LSQUnit l m :=
  let s :=
    if s.stalled && load_idx = s.stallingLoadIdx then
      { s with stalled := false, stallingStoreIsn := 0, stallingLoadIdx := ⟨0, Nat.succ_pos l⟩ }
    else s
  { s.setLoad load_idx none with loads := s.loads - 1, loadTail := load_idx }

/-- Takes the youngest store out of the queue. -/
def squashStore (store_idx : Fin (m + 1)) : LSQUnit l m :=
  { s.setStore store_idx { s.storeQueue store_idx with inst := none, canWB := false, req := none } with
    stores := s.stores - 1
    storeTail := store_idx }

def squashLoadsBody (squashed_num : InstSeqNum) :
    LSQUnit l m × Fin (l + 1) → Result (Option (LSQUnit l m × Fin (l + 1)))
  | (s, load_idx) =>
    if s.loads = 0 then .ok none
    else
      match s.loadQueue load_idx with
      | none => .error .dangling
      | some inst =>
        if inst.tag.seqNum > squashed_num then .ok (some (s.squashLoad load_idx, decrLdIdx load_idx))
        else .ok none

def squashStoresBody (squashed_num : InstSeqNum) :
    LSQUnit l m × Fin (m + 1) → Result (Option (LSQUnit l m × Fin (m + 1)))
  | (s, store_idx) =>
    if s.stores = 0 then .ok none
    else
      let entry := s.storeQueue store_idx
      match entry.inst with
      | none => .error .dangling
      | some inst =>
        if inst.seqNum > squashed_num then
          -- Instructions marked as can WB are already committed.
          if entry.canWB then .ok none
          else do
            -- `panic("Is stalled should have been cleared by stalling load!")`
            require (!(s.stalled && inst.seqNum = s.stallingStoreIsn))
            .ok (some (s.squashStore store_idx, decrStIdx store_idx))
        else .ok none

def squash (squashed_num : InstSeqNum) : Result (LSQUnit l m) := do
  let (s, _) ← loop (squashLoadsBody squashed_num) (l + 2) (s, decrLdIdx s.loadTail)
  let s := if s.memDepViolator.any fun violator => squashed_num < violator then { s with memDepViolator := none } else s
  let (s, _) ← loop (squashStoresBody squashed_num) (m + 2) (s, decrStIdx s.storeTail)
  .ok s

/-- `recvRetry`. The store is not finished unless the packet is its last one. -/
def recvRetry (answers : List Bool) : Result (LSQUnit l m) :=
  if !s.isStoreBlocked then .ok s
  else
    match s.retryPkt with
    | none => .error .assertion
    | some retryPkt =>
      if !(ask answers).1 then .ok s
      else if retryPkt = .first then do
        let (sent, s, _) ← { s with retryPkt := none, isStoreBlocked := false }.sendStore .second (ask answers).2
        s.storePostSendIf p sent
      else do
        let s ← s.storePostSend p
        .ok { s with retryPkt := none, isStoreBlocked := false }

/-- The calls of the unit. An instruction is named by its slot. -/
inductive Op (l m : Nat) where
  | insertLoad (seqNum : InstSeqNum)
  | insertStore (seqNum : InstSeqNum) (isStoreConditional isDataPrefetch : Bool)
  | finishLoadTranslation (load_idx : Fin (l + 1)) (t : Translation)
  | finishStoreTranslation (store_idx : Fin (m + 1)) (t : Translation)
  | executeLoad (load_idx : Fin (l + 1)) (acc : LoadAcc)
  | executeStore (store_idx : Fin (m + 1)) (acc : StoreAcc)
  | writeback (load_idx : Fin (l + 1))
  | checkSnoop (addr : Addr)
  | getMemDepViolator
  | commitLoads (youngest_inst : InstSeqNum)
  | commitStores (youngest_inst : InstSeqNum)
  | writebackStores (answers : List Bool)
  | recvRetry (answers : List Bool)
  | completeStore (store_idx : Fin (m + 1))
  | squash (squashed_num : InstSeqNum)
  | tick

/-- What a call answers. -/
inductive Answer where
  | done
  | read (result : Option ReadResult)
  | fault (store_fault : Bool)

def step : Op l m → Result (Answer × LSQUnit l m)
  | .insertLoad seqNum => (s.insertLoad seqNum).map (Answer.done, ·)
  | .insertStore seqNum isStoreConditional isDataPrefetch =>
    (s.insertStore seqNum isStoreConditional isDataPrefetch).map (Answer.done, ·)
  | .finishLoadTranslation load_idx t => (s.finishLoadTranslation load_idx (some t)).map (Answer.done, ·)
  | .finishStoreTranslation store_idx t => (s.finishStoreTranslation store_idx (some t)).map (Answer.done, ·)
  | .executeLoad load_idx acc => (s.executeLoad p load_idx acc).map fun (result, s) => (Answer.read result, s)
  | .executeStore store_idx acc => (s.executeStore p store_idx acc).map fun (fault, s) => (Answer.fault fault, s)
  | .writeback load_idx => (s.writeback load_idx).map (Answer.done, ·)
  | .checkSnoop addr => (s.checkSnoop p addr).map (Answer.done, ·)
  | .getMemDepViolator => .ok (.done, s.getMemDepViolator)
  | .commitLoads youngest_inst => (s.commitLoads youngest_inst).map (Answer.done, ·)
  | .commitStores youngest_inst => (s.commitStores youngest_inst).map (Answer.done, ·)
  | .writebackStores answers => (s.writebackStores p answers).map (Answer.done, ·)
  | .recvRetry answers => (s.recvRetry p answers).map (Answer.done, ·)
  | .completeStore store_idx => (s.completeStore p store_idx).map (Answer.done, ·)
  | .squash squashed_num => (s.squash squashed_num).map (Answer.done, ·)
  | .tick => .ok (.done, { s with usedStorePorts := 0 })

def machine (l m : Nat) : Machine (LSQUnit l m) (Op l m) Answer := ⟨step p⟩

end LSQUnit

end Gem5.O3
