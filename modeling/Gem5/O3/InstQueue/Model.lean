import Gem5.Base.IntMath
import Gem5.Lib.Loop
import Gem5.Lib.NodeList
import Gem5.Lib.PriorityQueue
import Gem5.Lib.Run

open Lib Function

namespace Gem5.O3

inductive OpClass where
  | No_OpClass | IntAlu | IntMult | IntDiv | FloatAdd | FloatCmp | FloatCvt | FloatMult | FloatMultAcc | FloatDiv
  | FloatMisc | FloatSqrt | SimdAdd | SimdAddAcc | SimdAlu | SimdCmp | SimdCvt | SimdMisc | SimdMult | SimdMultAcc
  | SimdShift | SimdShiftAcc | SimdSqrt | SimdFloatAdd | SimdFloatAlu | SimdFloatCmp | SimdFloatCvt | SimdFloatDiv
  | SimdFloatMisc | SimdFloatMult | SimdFloatMultAcc | SimdFloatSqrt | MemRead | MemWrite | FloatMemRead
  | FloatMemWrite | IprAccess | InstPrefetch
  deriving DecidableEq, Repr

/-- What the instruction queue reads of an instruction, apart from what changes
while it is in the queue. -/
structure IQInst where
  seqNum : InstSeqNum
  opClass : OpClass
  threadNumber : ThreadID
  isMemRef : Bool
  deriving DecidableEq, Repr

/-- The functional units, in a state `F`. -/
structure FUPool (F : Type) where
  getUnit : F → OpClass → Int × F
  getOpLatency : OpClass → Nat
  isPipelined : OpClass → Bool
  freeUnitNextCycle : F → Int → F

/-- What `getUnit` answers when no unit has the capability. -/
def FUPool.NoCapableFU : Int := -2

/-- What `getUnit` answers when every unit with the capability is busy. -/
def FUPool.NoFreeFU : Int := -1

structure ListOrderEntry where
  queueType : OpClass
  oldestInst : InstSeqNum
  deriving DecidableEq, Repr

/-- The ready lists of the instruction queue, with the lists of memory
instructions that wait to be retried. -/
structure InstQueue (pq : PriorityQueue IQInst IQInst.seqNum) (F : Type) where
  readyInsts : OpClass → pq.Queue
  listOrder : NodeList ListOrderEntry
  queueOnList : OpClass → Bool
  readyIt : OpClass → Option Nat
  deferredMemInsts : List IQInst
  blockedMemInsts : List IQInst
  retryMemInsts : List IQInst
  instsToExecute : List IQInst
  fuPool : F
  freeEntries : Unsigned
  count : ThreadID → Unsigned
  wbOutstanding : Int

namespace InstQueue

variable {pq : PriorityQueue IQInst IQInst.seqNum} {F : Type}

/-- `resetState`. -/
def construct (pq : PriorityQueue IQInst IQInst.seqNum) (fuPool : F) (numEntries : Unsigned) : InstQueue pq F where
  readyInsts _ := pq.empty
  listOrder := .empty
  queueOnList _ := false
  readyIt _ := none
  deferredMemInsts := []
  blockedMemInsts := []
  retryMemInsts := []
  instsToExecute := []
  fuPool := fuPool
  freeEntries := numEntries
  count _ := 0
  wbOutstanding := 0

variable (s : InstQueue pq F) (pool : FUPool F)

def addToOrderList (op_class : OpClass) : Result (InstQueue pq F) :=
  match pq.top (s.readyInsts op_class) with
  | none => .error .assertion
  | some top => do
    let queue_entry : ListOrderEntry := ⟨op_class, top.seqNum⟩
    let list_it := s.listOrder.find s.listOrder.begin_ fun entry => entry.oldestInst > queue_entry.oldestInst
    let (it, listOrder) ← s.listOrder.insert list_it queue_entry
    .ok { s with
      listOrder
      readyIt := update s.readyIt op_class (some it)
      queueOnList := update s.queueOnList op_class true }

/-- Puts the class of the entry into the list again, at the place of its next
instruction. The entry itself stays. -/
def moveToYoungerInst (list_order_it : Nat) : Result (InstQueue pq F) := do
  let entry ← s.listOrder.get list_order_it
  let op_class := entry.queueType
  let next_it ← s.listOrder.succ list_order_it
  match pq.top (s.readyInsts op_class) with
  | none => .error .dangling
  | some top => do
    let queue_entry : ListOrderEntry := ⟨op_class, top.seqNum⟩
    let next_it := s.listOrder.find next_it fun entry => !decide (entry.oldestInst < queue_entry.oldestInst)
    let (it, listOrder) ← s.listOrder.insert next_it queue_entry
    .ok { s with listOrder, readyIt := update s.readyIt op_class (some it) }

def setReady (op_class : OpClass) (queue : pq.Queue) : InstQueue pq F :=
  { s with readyInsts := update s.readyInsts op_class queue }

/-- Adds an instruction to its ready list, the same way in `addReadyMemInst` and in
`addIfReady`. The order list changes if the queue is not on it, or has an
older instruction than last time. -/
def addReady (inst : IQInst) : Result (InstQueue pq F) := do
  let op_class := inst.opClass
  let s := s.setReady op_class (pq.push (s.readyInsts op_class) inst)
  if !s.queueOnList op_class then s.addToOrderList op_class
  else
    match pq.top (s.readyInsts op_class), s.readyIt op_class with
    | some top, some it => do
      let entry ← s.listOrder.get it
      if top.seqNum < entry.oldestInst then do
        let listOrder ← s.listOrder.erase it
        addToOrderList { s with listOrder } op_class
      else .ok s
    | _, _ => .error .dangling

def addReadyMemInst (ready_inst : IQInst) : Result (InstQueue pq F) := s.addReady ready_inst

/-- A memory instruction is passed to the memory dependence unit, which calls
`addReadyMemInst` when it is ready. -/
def addIfReady (inst : IQInst) (readyToIssue : Bool) : Result (Option IQInst × InstQueue pq F) :=
  if readyToIssue then
    if inst.isMemRef then .ok (some inst, s)
    else do
      let s ← s.addReady inst
      .ok (none, s)
  else .ok (none, s)

def deferMemInst (deferred_inst : IQInst) : InstQueue pq F :=
  { s with deferredMemInsts := s.deferredMemInsts ++ [deferred_inst] }

def blockMemInst (blocked_inst : IQInst) : InstQueue pq F :=
  { s with blockedMemInsts := s.blockedMemInsts ++ [blocked_inst] }

def cacheUnblocked : InstQueue pq F :=
  { s with retryMemInsts := s.retryMemInsts ++ s.blockedMemInsts, blockedMemInsts := [] }

/-- The marks of the instructions while `scheduleReadyInsts` runs. -/
structure Marks where
  isSquashed : IQInst → Bool
  translationCompleted : IQInst → Bool

def getDeferredMemInstToExecute (marks : Marks) (s : InstQueue pq F) : Option IQInst × InstQueue pq F :=
  let ready := fun inst => marks.translationCompleted inst || marks.isSquashed inst
  (s.deferredMemInsts.find? ready, { s with deferredMemInsts := s.deferredMemInsts.eraseP ready })

def getBlockedMemInstToExecute : Option IQInst × InstQueue pq F :=
  (s.retryMemInsts.head?, { s with retryMemInsts := s.retryMemInsts.tail })

/-- Adds what `getMemInst` takes from a list until it takes nothing. -/
def addMemInsts (getMemInst : InstQueue pq F → Option IQInst × InstQueue pq F) (s : InstQueue pq F) :
    Result (Option (InstQueue pq F)) :=
  match getMemInst s with
  | (none, _) => .ok none
  | (some mem_inst, s) => do
    let s ← s.addReadyMemInst mem_inst
    .ok (some s)

/-- What `scheduleReadyInsts` does with an instruction. -/
inductive Outcome where
  | squashed
  /-- Executed in this cycle on the unit, if there is one. -/
  | executed (idx : Int)
  /-- Completes on the unit after the latency, when the unit is freed if it is not
      pipelined. -/
  | scheduled (idx : Int) (op_latency : Nat) (freeFU : Bool)
  | fuBusy
  deriving DecidableEq, Repr

/-- The state at the head of the loop of `scheduleReadyInsts`, with what the loop
has considered so far, last first. -/
structure Issue (pq : PriorityQueue IQInst IQInst.seqNum) (F : Type) where
  queue : InstQueue pq F
  total_issued : Nat
  order_it : Option Nat
  considered : List (IQInst × Outcome)

/-- Pops the instruction on top, puts the class where its next instruction
belongs, erases its entry and increments the iterator. -/
def popReady (order_it : Nat) (op_class : OpClass) : Result (Option Nat × InstQueue pq F) := do
  let s := s.setReady op_class (pq.pop (s.readyInsts op_class))
  let s ←
    if (pq.top (s.readyInsts op_class)).isSome then s.moveToYoungerInst order_it
    else .ok { s with
      readyIt := update s.readyIt op_class none
      queueOnList := update s.queueOnList op_class false }
  let next_it ← s.listOrder.succ order_it
  let listOrder ← s.listOrder.erase order_it
  .ok (next_it, { s with listOrder })

/-- Looks for a unit; an instruction without a class does not need one. -/
def getUnit (pool : FUPool F) (s : InstQueue pq F) (op_class : OpClass) : Int × InstQueue pq F :=
  if op_class ≠ .No_OpClass then
    let (idx, fuPool) := pool.getUnit s.fuPool op_class
    (idx, { s with fuPool })
  else (FUPool.NoCapableFU, s)

def opLatency (op_class : OpClass) (idx : Int) : Nat :=
  if op_class ≠ .No_OpClass ∧ idx > FUPool.NoFreeFU then pool.getOpLatency op_class else 1

/-- Memory instructions can not be freed from the queue until they complete. -/
def freeEntry (issuing_inst : IQInst) : InstQueue pq F :=
  if issuing_inst.isMemRef then s
  else { s with
    freeEntries := s.freeEntries + 1
    count := update s.count issuing_inst.threadNumber (s.count issuing_inst.threadNumber - 1) }

/-- Hands an instruction that has its unit to execution. -/
def sendToExecute (s : InstQueue pq F) (issuing_inst : IQInst) (op_class : OpClass) (idx : Int)
    (op_latency : Nat) : Outcome × InstQueue pq F :=
  if op_latency = 1 then
    (.executed idx, { s with
      instsToExecute := s.instsToExecute ++ [issuing_inst]
      fuPool := if idx ≥ 0 then pool.freeUnitNextCycle s.fuPool idx else s.fuPool })
  else
    let pipelined := pool.isPipelined op_class
    (.scheduled idx op_latency (!pipelined), { s with
      wbOutstanding := s.wbOutstanding + 1
      fuPool := if pipelined then pool.freeUnitNextCycle s.fuPool idx else s.fuPool })

/-- An iteration of the loop of `scheduleReadyInsts`. -/
def issueNext (totalWidth : Nat) (marks : Marks) (l : Issue pq F) : Result (Option (Issue pq F)) :=
  match l.order_it with
  | none => .ok none
  | some order_it =>
    if ¬ l.total_issued < totalWidth then .ok none
    else do
      let s := l.queue
      let entry ← s.listOrder.get order_it
      let op_class := entry.queueType
      match pq.top (s.readyInsts op_class) with
      | none => .error .assertion
      | some issuing_inst => do
        Result.require (issuing_inst.seqNum = entry.oldestInst)
        if marks.isSquashed issuing_inst then do
          let (next_it, s) ← s.popReady order_it op_class
          .ok (some ⟨s, l.total_issued, next_it, (issuing_inst, .squashed) :: l.considered⟩)
        else do
          let (idx, s) := getUnit pool s op_class
          if idx ≠ FUPool.NoFreeFU then do
            let (outcome, s) := sendToExecute pool s issuing_inst op_class idx (opLatency pool op_class idx)
            let (next_it, s) ← s.popReady order_it op_class
            let s := s.freeEntry issuing_inst
            .ok (some ⟨s, l.total_issued + 1, next_it, (issuing_inst, outcome) :: l.considered⟩)
          else do
            let next_it ← s.listOrder.succ order_it
            .ok (some ⟨s, l.total_issued, next_it, (issuing_inst, .fuBusy) :: l.considered⟩)

/-- The number of instructions and of entries on the order list, which bounds the
iterations of the loop. -/
def pending (nodes : List (Nat × ListOrderEntry)) : Nat :=
  (nodes.map fun node => pq.size (s.readyInsts node.2.queueType) + 1).sum

/-- The start of `scheduleReadyInsts`, up to its loop. -/
def scheduleStart (marks : Marks) (s : InstQueue pq F) : Result (Issue pq F) := do
  let s ← loop (addMemInsts (getDeferredMemInstToExecute marks)) (s.deferredMemInsts.length + 1) s
  -- See if any cache blocked instructions are able to be executed
  let s ← loop (addMemInsts getBlockedMemInstToExecute) (s.retryMemInsts.length + 1) s
  .ok ⟨s, 0, s.listOrder.begin_, []⟩

/-- Returns what was considered, in that order. -/
def scheduleReadyInsts (totalWidth : Nat) (marks : Marks) (s : InstQueue pq F) :
    Result (List (IQInst × Outcome) × InstQueue pq F) := do
  let l ← s.scheduleStart marks
  let l ← loop (issueNext pool totalWidth marks) (l.queue.pending l.queue.listOrder.nodes + 1) l
  .ok (l.considered.reverse, l.queue)

/-- The calls that change the ready lists, or what they are filled from. -/
inductive Op (F : Type) where
  | addIfReady (inst : IQInst) (readyToIssue : Bool)
  | addReadyMemInst (ready_inst : IQInst)
  | deferMemInst (deferred_inst : IQInst)
  | blockMemInst (blocked_inst : IQInst)
  | cacheUnblocked
  | scheduleReadyInsts (marks : Marks)
  /-- Functional units are freed. -/
  | setFUPool (fuPool : F)

/-- The queue, which answers what `scheduleReadyInsts` has considered. -/
def machine (totalWidth : Nat) : Machine (InstQueue pq F) (Op F) (List (IQInst × Outcome)) where
  step
    | s, .addIfReady inst readyToIssue => do
      let (_, s) ← s.addIfReady inst readyToIssue
      .ok ([], s)
    | s, .addReadyMemInst ready_inst => do
      let s ← s.addReadyMemInst ready_inst
      .ok ([], s)
    | s, .deferMemInst deferred_inst => .ok ([], s.deferMemInst deferred_inst)
    | s, .blockMemInst blocked_inst => .ok ([], s.blockMemInst blocked_inst)
    | s, .cacheUnblocked => .ok ([], s.cacheUnblocked)
    | s, .scheduleReadyInsts marks => scheduleReadyInsts pool totalWidth marks s
    | s, .setFUPool fuPool => .ok ([], { s with fuPool })

end InstQueue

end Gem5.O3
