import Gem5.Base.IntMath
import Gem5.Lib.Heap
import Gem5.Lib.Run

open Lib

namespace Gem5.O3

/-- What the memory dependence unit reads of an instruction. -/
structure MemInst where
  seqNum : InstSeqNum
  instAddr : Addr
  isLoad : Bool
  isStore : Bool
  isMemBarrier : Bool
  isWriteBarrier : Bool
  /-- The registers are ready when the instruction is inserted. -/
  readyToIssue : Bool
  deriving DecidableEq, Repr

/-- A `MemDepEntry`. The dependents are pointers to entries. -/
structure MemDepEntry where
  inst : MemInst
  dependInsts : List Nat := []
  regsReady : Bool := false
  memDepReady : Bool := false
  squashed : Bool := false

/-- What the unit uses of the memory dependence predictor. -/
structure MemDepPred (P : Type) where
  checkInst : P → Addr → InstSeqNum
  insertStore : P → Addr → InstSeqNum → P
  violation : P → Addr → Addr → P
  issued : P → Addr → InstSeqNum → Bool → P
  squash : P → InstSeqNum → P

/-- What the unit tells the instruction queue and the instruction. -/
inductive MemDepEffect where
  | addReadyMemInst (inst : InstSeqNum)
  | clearCanIssue (inst : InstSeqNum)
  deriving DecidableEq, Repr

/-- The memory dependence unit of one thread. An entry is held by the hash map and
by the entries it depends on; the newest instruction of the list comes first. -/
structure MemDepUnit (P : Type) where
  entries : Heap MemDepEntry
  memDepHash : InstSeqNum → Option Nat
  instList : List MemInst
  instsToReplay : List MemInst
  depPred : P
  loadBarrier : Bool
  loadBarrierSN : InstSeqNum
  storeBarrier : Bool
  storeBarrierSN : InstSeqNum

namespace MemDepUnit

variable {P : Type}

def construct (depPred : P) : MemDepUnit P where
  entries := .empty
  memDepHash _ := none
  instList := []
  instsToReplay := []
  depPred := depPred
  loadBarrier := false
  loadBarrierSN := 0
  storeBarrier := false
  storeBarrierSN := 0

variable (pred : MemDepPred P) (s : MemDepUnit P) (inst : MemInst)

/-- Makes the entry of an instruction, under the name `entries.next`, and adds it to
the hash map and to the list. -/
def newEntry : MemDepUnit P :=
  { s with
    entries := s.entries.alloc { inst }
    memDepHash :=
      if (s.memDepHash inst.seqNum).isSome then s.memDepHash
      else Function.update s.memDepHash inst.seqNum (some s.entries.next)
    instList := inst :: s.instList }

def modifyEntry (entry : Nat) (f : MemDepEntry → MemDepEntry) : MemDepUnit P :=
  { s with entries := s.entries.modify entry f }

def findInHash : Result Nat :=
  match s.memDepHash inst.seqNum with
  | some entry => .ok entry
  | none => .error .assertion

def moveToReady (woken_inst_entry : Nat) : Result (List MemDepEffect) := do
  let entry ← s.entries.get woken_inst_entry
  Result.require (!entry.squashed)
  .ok [.addReadyMemInst entry.inst.seqNum]

/-- The end of `insert` and of `insertNonSpec`. -/
def insertInPredictor : Result (MemDepUnit P) :=
  if inst.isStore then .ok { s with depPred := pred.insertStore s.depPred inst.instAddr inst.seqNum }
  else if inst.isLoad then .ok s
  else .error .assertion

/-- The barrier or the store that the instruction has to wait for, or 0. -/
def producingStore : InstSeqNum :=
  if inst.isLoad && s.loadBarrier then s.loadBarrierSN
  else if inst.isStore && s.storeBarrier then s.storeBarrierSN
  else pred.checkInst s.depPred inst.instAddr

def insert : Result (List MemDepEffect × MemDepUnit P) := do
  let inst_entry := s.entries.next
  let s := s.newEntry inst
  let producing_store := producingStore pred s inst
  let store_entry := if producing_store ≠ 0 then s.memDepHash producing_store else none
  match store_entry with
  | none =>
    let s := s.modifyEntry inst_entry fun entry => { entry with memDepReady := true }
    if inst.readyToIssue then do
      let s := s.modifyEntry inst_entry fun entry => { entry with regsReady := true }
      let effects ← s.moveToReady inst_entry
      let s ← insertInPredictor pred s inst
      .ok (effects, s)
    else do
      let s ← insertInPredictor pred s inst
      .ok ([], s)
  | some store_entry => do
    let s := s.modifyEntry inst_entry fun entry => { entry with regsReady := inst.readyToIssue }
    let s := s.modifyEntry store_entry fun entry => { entry with dependInsts := entry.dependInsts ++ [inst_entry] }
    let s ← insertInPredictor pred s inst
    .ok ([.clearCanIssue inst.seqNum], s)

def insertNonSpec : Result (MemDepUnit P) :=
  insertInPredictor pred (s.newEntry inst) inst

def insertBarrier (barr_inst : MemInst) : MemDepUnit P :=
  let barr_sn := barr_inst.seqNum
  -- Memory barriers block loads and stores, write barriers only stores.
  let s :=
    if barr_inst.isMemBarrier then
      { s with loadBarrier := true, loadBarrierSN := barr_sn, storeBarrier := true, storeBarrierSN := barr_sn }
    else if barr_inst.isWriteBarrier then { s with storeBarrier := true, storeBarrierSN := barr_sn }
    else s
  s.newEntry barr_inst

def regsReady (s : MemDepUnit P) (inst : MemInst) : Result (List MemDepEffect × MemDepUnit P) := do
  let inst_entry ← s.findInHash inst
  let s := s.modifyEntry inst_entry fun entry => { entry with regsReady := true }
  let entry ← s.entries.get inst_entry
  if entry.memDepReady then do
    let effects ← s.moveToReady inst_entry
    .ok (effects, s)
  else .ok ([], s)

def nonSpecInstReady : Result (List MemDepEffect) := do
  let inst_entry ← s.findInHash inst
  s.moveToReady inst_entry

def reschedule : MemDepUnit P :=
  { s with instsToReplay := s.instsToReplay ++ [inst] }

/-- Replays all waiting memory operations. -/
def replay : Result (List MemDepEffect × MemDepUnit P) := do
  let effects ← s.instsToReplay.mapM fun temp_inst => do
    let inst_entry ← s.findInHash temp_inst
    s.moveToReady inst_entry
  .ok (effects.flatten, { s with instsToReplay := [] })

/-- Removes the instruction from the hash and from the list, where its sequence
number occurs once. -/
def completed : Result (MemDepUnit P) := do
  let _ ← s.findInHash inst
  .ok { s with
    instList := s.instList.filter fun other => other.seqNum ≠ inst.seqNum
    memDepHash := Function.update s.memDepHash inst.seqNum none }

/-- An iteration of the loop of `wakeDependents`. -/
def wake (woken_inst : Nat) : Result (List MemDepEffect × MemDepUnit P) := do
  let entry ← s.entries.get woken_inst
  if entry.regsReady && !entry.squashed then do
    let effects ← s.moveToReady woken_inst
    .ok (effects, s)
  else .ok ([], s.modifyEntry woken_inst fun entry => { entry with memDepReady := true })

/-- The loop of `wakeDependents`. -/
def wakeAll : List Nat → MemDepUnit P → Result (List MemDepEffect × MemDepUnit P)
  | [], s => .ok ([], s)
  | woken_inst :: rest, s => do
    let (effects, s) ← s.wake woken_inst
    let (later, s) ← wakeAll rest s
    .ok (effects ++ later, s)

def wakeDependents : Result (List MemDepEffect × MemDepUnit P) :=
  -- Only stores and barriers have dependents.
  if !inst.isStore && !inst.isMemBarrier && !inst.isWriteBarrier then .ok ([], s)
  else do
    let inst_entry ← s.findInHash inst
    let entry ← s.entries.get inst_entry
    let (effects, s) ← wakeAll entry.dependInsts s
    .ok (effects, s.modifyEntry inst_entry fun entry => { entry with dependInsts := [] })

def completeBarrier : Result (List MemDepEffect × MemDepUnit P) := do
  let (effects, s) ← s.wakeDependents inst
  let s ← s.completed inst
  let barr_sn := inst.seqNum
  if inst.isMemBarrier then
    .ok (effects, { s with
      loadBarrier := s.loadBarrier && s.loadBarrierSN != barr_sn
      storeBarrier := s.storeBarrier && s.storeBarrierSN != barr_sn })
  else if inst.isWriteBarrier then
    .ok (effects, { s with storeBarrier := s.storeBarrier && s.storeBarrierSN != barr_sn })
  else .ok (effects, s)

/-- The loop of `squash`, from the back of the list. -/
def squashNewest (squashed_num : InstSeqNum) : List MemInst → MemDepUnit P → Result (MemDepUnit P)
  | [], s => .ok { s with instList := [] }
  | inst :: older, s =>
    if inst.seqNum > squashed_num then do
      let entry ← s.findInHash inst
      let s := s.modifyEntry entry fun entry => { entry with squashed := true }
      squashNewest squashed_num older { s with
        loadBarrier := s.loadBarrier && inst.seqNum != s.loadBarrierSN
        storeBarrier := s.storeBarrier && inst.seqNum != s.storeBarrierSN
        memDepHash := Function.update s.memDepHash inst.seqNum none }
    else .ok { s with instList := inst :: older }

def squash (pred : MemDepPred P) (s : MemDepUnit P) (squashed_num : InstSeqNum) : Result (MemDepUnit P) := do
  let s := { s with instsToReplay := s.instsToReplay.filter fun inst => inst.seqNum ≤ squashed_num }
  let s ← squashNewest squashed_num s.instList s
  .ok { s with depPred := pred.squash s.depPred squashed_num }

def violation (pred : MemDepPred P) (s : MemDepUnit P) (store_inst violating_load : MemInst) : MemDepUnit P :=
  { s with depPred := pred.violation s.depPred store_inst.instAddr violating_load.instAddr }

def issue : MemDepUnit P :=
  { s with depPred := pred.issued s.depPred inst.instAddr inst.seqNum inst.isStore }

/-- The calls made for the thread. -/
inductive Op where
  | insert (inst : MemInst)
  | insertNonSpec (inst : MemInst)
  | insertBarrier (barr_inst : MemInst)
  | regsReady (inst : MemInst)
  | nonSpecInstReady (inst : MemInst)
  | reschedule (inst : MemInst)
  | replay
  | completed (inst : MemInst)
  | wakeDependents (inst : MemInst)
  | completeBarrier (inst : MemInst)
  | squash (squashed_num : InstSeqNum)
  | violation (store_inst violating_load : MemInst)
  | issue (inst : MemInst)

/-- The unit, which answers with what it tells the instruction queue. -/
def machine : Machine (MemDepUnit P) Op (List MemDepEffect) where
  step
    | s, .insert inst => insert pred s inst
    | s, .insertNonSpec inst => do
      let s ← insertNonSpec pred s inst
      .ok ([], s)
    | s, .insertBarrier barr_inst => .ok ([], s.insertBarrier barr_inst)
    | s, .regsReady inst => s.regsReady inst
    | s, .nonSpecInstReady inst => do
      let effects ← s.nonSpecInstReady inst
      .ok (effects, s)
    | s, .reschedule inst => .ok ([], s.reschedule inst)
    | s, .replay => s.replay
    | s, .completed inst => do
      let s ← s.completed inst
      .ok ([], s)
    | s, .wakeDependents inst => s.wakeDependents inst
    | s, .completeBarrier inst => s.completeBarrier inst
    | s, .squash squashed_num => do
      let s ← squash pred s squashed_num
      .ok ([], s)
    | s, .violation store_inst violating_load => .ok ([], violation pred s store_inst violating_load)
    | s, .issue inst => .ok ([], issue pred s inst)

end MemDepUnit

end Gem5.O3
