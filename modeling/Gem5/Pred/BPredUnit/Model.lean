import Gem5.Lib.Run
import Gem5.Pred.BTB
import Gem5.Pred.DirectionPredictor
import Gem5.Pred.Indirect
import Gem5.Pred.RAS

open Lib

namespace Gem5.BPredUnit

structure Params where
  numThreads : Unsigned
  BTBEntries : Unsigned
  BTBTagSize : Unsigned
  RASSize : Unsigned
  instShiftAmt : Unsigned
  useIndirect : Bool
  indirectHashGHR : Bool
  indirectHashTargets : Bool
  indirectSets : Unsigned
  indirectWays : Unsigned
  indirectTagSize : Unsigned
  indirectPathLength : Unsigned
  deriving DecidableEq

def Params.btb (p : Params) : DefaultBTB.Params :=
  ⟨p.BTBEntries, p.BTBTagSize, p.instShiftAmt, p.numThreads⟩

def Params.iPred (p : Params) : IndirectPredictor.Params :=
  ⟨p.indirectHashGHR, p.indirectHashTargets, p.indirectSets, p.indirectWays, p.indirectTagSize,
    p.indirectPathLength, p.instShiftAmt⟩

/-- The record of a branch in flight. -/
structure PredictorHistory (H PC : Type) where
  seqNum : InstSeqNum
  pc : Addr
  bpHistory : H
  RASTarget : PC
  RASIndex : Nat
  predTaken : Bool
  usedRAS : Bool
  pushedRAS : Bool
  wasCall : Bool
  wasReturn : Bool
  wasIndirect : Bool

/-- The unit with its direction predictor. The front of `predHist`, the
youngest branch of the thread, comes first. -/
structure State (p : Params) (S H PC : Type) where
  predictor : S
  predHist : ThreadID → List (PredictorHistory H PC)
  BTB : DefaultBTB.State p.btb PC
  RAS : ThreadID → ReturnAddrStack PC p.RASSize.toNat
  iPred : IndirectPredictor.State p.iPred PC

variable {S H PC Inst : Type} {p : Params}

namespace State

def initial (isa : ISA PC Inst) (p : Params) (predictor : S) : State p S H PC where
  predictor
  predHist := fun _ => []
  BTB := .initial isa p.btb
  RAS := fun _ => .initial isa p.RASSize.toNat
  iPred := .initial isa p.iPred

def setPredHist (u : State p S H PC) (tid : ThreadID) (hist : List (PredictorHistory H PC)) : State p S H PC :=
  { u with predHist := Function.update u.predHist tid hist }

def setRAS (u : State p S H PC) (tid : ThreadID) (ras : ReturnAddrStack PC p.RASSize.toNat) : State p S H PC :=
  { u with RAS := Function.update u.RAS tid ras }

end State

def construct (isa : ISA PC Inst) (p : Params) (predictor : S) : Except String (State p S H PC) := do
  let BTB ← DefaultBTB.construct isa p.btb
  let iPred ← IndirectPredictor.construct isa p.iPred
  .ok { State.initial isa p predictor with BTB, iPred }

section

variable (d : DirectionPredictor S H) (isa : ISA PC Inst) (u : State p S H PC) (inst : Inst)
  (front : PredictorHistory H PC)

/-- The call on the direction predictor with which `predict` starts. -/
def direction (pc : PC) (tid : ThreadID) : Result (Bool × H × S) :=
  if isa.isUncondCtrl inst then do
    let (bp_history, s) ← d.uncondBranch u.predictor tid (isa.instAddr pc)
    .ok (true, bp_history, s)
  else d.lookup u.predictor tid (isa.instAddr pc)

/-- What `predict` has settled before it queues the record. -/
structure Prediction (p : Params) (S H PC : Type) where
  pred_taken : Bool
  target : PC
  record : PredictorHistory H PC
  unit : State p S H PC

def predictReturn (pc : PC) (tid : ThreadID) (record : PredictorHistory H PC) : Result (Prediction p S H PC) := do
  let rasTop ← (u.RAS tid).top
  .ok {
    pred_taken := true
    target := isa.buildRetPC pc rasTop
    record := { record with
      wasReturn := true, usedRAS := true, RASIndex := (u.RAS tid).topIdx, RASTarget := rasTop }
    unit := u.setRAS tid (u.RAS tid).pop }

def pushCall (pc : PC) (tid : ThreadID)
    (record : PredictorHistory H PC) : Result (PredictorHistory H PC × State p S H PC) :=
  if isa.isCall inst then do
    let ras ← (u.RAS tid).push pc
    .ok ({ record with pushedRAS := true, wasCall := true }, u.setRAS tid ras)
  else .ok (record, u)

/-- A conditional call without a target is taken off the stack again. -/
def popMissedCall (tid : ThreadID) (record : PredictorHistory H PC) : PredictorHistory H PC × State p S H PC :=
  if isa.isCall inst && !isa.isUncondCtrl inst then
    ({ record with pushedRAS := false }, u.setRAS tid (u.RAS tid).pop)
  else (record, u)

def missBTB (pc : PC) (tid : ThreadID)
    (record : PredictorHistory H PC) : Result (PredictorHistory H PC × State p S H PC) :=
  if !isa.isCall inst && !isa.isReturn inst then do
    let s ← d.btbUpdate u.predictor tid (isa.instAddr pc) record.bpHistory
    .ok (record, { u with predictor := s })
  else .ok (popMissedCall isa u inst tid record)

def predictDirect (pc : PC) (tid : ThreadID) (record : PredictorHistory H PC) : Result (Prediction p S H PC) := do
  let found ← DefaultBTB.valid p.btb u.BTB (isa.instAddr pc) tid
  if found then do
    let target ← DefaultBTB.lookup isa p.btb u.BTB (isa.instAddr pc) tid
    .ok ⟨true, target, record, u⟩
  else do
    let (record, u) ← missBTB d isa u inst pc tid record
    .ok ⟨false, isa.advancePC pc inst, record, u⟩

/-- The lookup of `predict` in the indirect predictor. -/
def lookupIndirect (pc : PC) (tid : ThreadID) (bp_history : H) : Result (Option PC) := do
  let ghr ← d.getGHR u.predictor tid bp_history
  IndirectPredictor.lookup p.iPred u.iPred (isa.instAddr pc) ghr tid

def recordIndirect (u : State p S H PC) (pc target : PC) (seqNum : InstSeqNum) (tid : ThreadID) : State p S H PC :=
  { u with
    iPred := IndirectPredictor.recordIndirect p.iPred u.iPred (isa.instAddr pc) (isa.instAddr target) seqNum tid }

def predictIndirect (pc : PC) (tid : ThreadID) (record : PredictorHistory H PC) : Result (Prediction p S H PC) := do
  let record := { record with wasIndirect := true }
  let found ← lookupIndirect d isa u pc tid record.bpHistory
  match found with
  | some target => .ok ⟨true, target, record, recordIndirect isa u pc target record.seqNum tid⟩
  | none =>
    let (record, u) := popMissedCall isa u inst tid record
    let target := isa.advancePC pc inst
    .ok ⟨false, target, record, recordIndirect isa u pc target record.seqNum tid⟩

/-- Whether the target comes from the BTB. -/
def usesBTB (p : Params) (inst : Inst) : Bool := isa.isDirectCtrl inst || !p.useIndirect

/-- The branch of `predict` for a direction of taken. -/
def predictTaken (pc : PC) (tid : ThreadID) (record : PredictorHistory H PC) : Result (Prediction p S H PC) :=
  if isa.isReturn inst then predictReturn isa u pc tid record
  else do
    let (record, u) ← pushCall isa u inst pc tid record
    if usesBTB isa p inst then predictDirect d isa u inst pc tid record
    else predictIndirect d isa u inst pc tid record

/-- The part of `predict` that finds the target, by the direction just
predicted. -/
def predictTarget (pc : PC) (tid : ThreadID) (record : PredictorHistory H PC) : Result (Prediction p S H PC) :=
  if record.predTaken then predictTaken d isa u inst pc tid record
  else .ok ⟨false, isa.advancePC pc inst, { record with wasReturn := isa.isReturn inst }, u⟩

/-- The record is created with the direction of the predictor, before the
target is looked up. -/
def newRecord (pc : PC) (seqNum : InstSeqNum) (pred_taken : Bool) (bp_history : H) :
    PredictorHistory H PC where
  seqNum
  pc := isa.instAddr pc
  bpHistory := bp_history
  RASTarget := isa.pcState 0
  RASIndex := 0
  predTaken := pred_taken
  usedRAS := false
  pushedRAS := false
  wasCall := false
  wasReturn := false
  wasIndirect := false

def predict (seqNum : InstSeqNum) (pc : PC) (tid : ThreadID) : Result (Bool × PC × State p S H PC) := do
  let (pred_taken, bp_history, s) ← direction d isa u inst pc tid
  let record := newRecord isa pc seqNum pred_taken bp_history
  let ⟨pred_taken, target, record, u⟩ ← predictTarget d isa { u with predictor := s } inst pc tid record
  .ok (pred_taken, target, u.setPredHist tid (record :: u.predHist tid))

/-- A commit-time call `update(tid, pc, taken, bpHistory, false)` on the
direction predictor, with the branch it is made for. -/
structure CommitCall where
  seqNum : InstSeqNum
  pc : Addr
  taken : Bool
  deriving DecidableEq, Repr

/-- The loop of `update`, from the back of `predHist`. It returns the calls it
makes and what it leaves in the queue. -/
def commitOldest (done_sn : InstSeqNum) (tid : ThreadID) :
    List (PredictorHistory H PC) → S → Result (List CommitCall × List (PredictorHistory H PC) × S)
  | [], s => .ok ([], [], s)
  | back :: younger, s =>
    if back.seqNum ≤ done_sn then do
      let s ← d.update s tid back.pc back.predTaken back.bpHistory false
      let (calls, rest, s) ← commitOldest done_sn tid younger s
      .ok (⟨back.seqNum, back.pc, back.predTaken⟩ :: calls, rest, s)
    else .ok ([], back :: younger, s)

def update (done_sn : InstSeqNum) (tid : ThreadID) : Result (List CommitCall × State p S H PC) := do
  let iPred := IndirectPredictor.commit p.iPred u.iPred done_sn tid
  let (calls, rest, s) ← commitOldest d done_sn tid (u.predHist tid).reverse u.predictor
  .ok (calls, { u with iPred, predictor := s }.setPredHist tid rest.reverse)

/-- Undoes what a squashed branch did to the return address stack. -/
def undoRAS {numEntries : Nat} (ras : ReturnAddrStack PC numEntries) (record : PredictorHistory H PC) :
    Result (ReturnAddrStack PC numEntries) :=
  if record.usedRAS then ras.restore record.RASIndex record.RASTarget
  else if record.wasCall && record.pushedRAS then .ok ras.pop
  else .ok ras

/-- The loop of `squash`, from the front of `predHist`. It returns what it
leaves in the queue. -/
def squashYoungest (squashed_sn : InstSeqNum) (tid : ThreadID) :
    List (PredictorHistory H PC) → State p S H PC → Result (List (PredictorHistory H PC) × State p S H PC)
  | [], u => .ok ([], u)
  | front :: older, u =>
    if front.seqNum > squashed_sn then do
      let ras ← undoRAS (u.RAS tid) front
      let s ← d.squash u.predictor tid front.bpHistory
      squashYoungest squashed_sn tid older ({ u with predictor := s }.setRAS tid ras)
    else .ok (front :: older, u)

/-- `squash(squashed_sn, tid)`. -/
def squash (u : State p S H PC) (squashed_sn : InstSeqNum) (tid : ThreadID) : Result (State p S H PC) := do
  let iPred := IndirectPredictor.squash p.iPred u.iPred squashed_sn tid
  let (rest, u) ← squashYoungest d squashed_sn tid (u.predHist tid) { u with iPred }
  .ok (u.setPredHist tid rest)

/-- Stores the target of a mispredicted branch where it is looked up. -/
def storeTarget (ghr : Unsigned) (corrTarget : PC) (tid : ThreadID) (rand : Nat) : Result (State p S H PC) :=
  if front.wasIndirect then do
    let iPred ← IndirectPredictor.recordTarget isa p.iPred u.iPred ghr corrTarget tid rand
    .ok { u with iPred }
  else do
    let BTB ← DefaultBTB.update p.btb u.BTB front.pc corrTarget tid
    .ok { u with BTB }

/-- The fix-up of a mispredicted branch that is taken. A return that was not
predicted through the stack still has to pop it. -/
def correctTaken (ghr : Unsigned) (corrTarget : PC)
    (tid : ThreadID) (rand : Nat) : Result (PredictorHistory H PC × State p S H PC) := do
  let missedReturn := front.wasReturn && !front.usedRAS
  let u := if missedReturn then u.setRAS tid (u.RAS tid).pop else u
  let front := if missedReturn then { front with usedRAS := true } else front
  let u ← storeTarget isa u front ghr corrTarget tid rand
  .ok (front, u)

/-- The fix-up of a mispredicted branch that is not taken. -/
def correctNotTaken (tid : ThreadID) : Result (PredictorHistory H PC × State p S H PC) := do
  let ras ← undoRAS (u.RAS tid) front
  let front := if front.usedRAS then { front with usedRAS := false }
    else if front.wasCall && front.pushedRAS then { front with pushedRAS := false }
    else front
  .ok (front, u.setRAS tid ras)

/-- The second half of the mispredict `squash`, which corrects the branch that
is left at the front. -/
def correctFront (corrTarget : PC)
    (actually_taken : Bool) (tid : ThreadID) (rand : Nat) :
    Result (PredictorHistory H PC × State p S H PC) := do
  let ghr ← d.getGHR u.predictor tid front.bpHistory
  let front := { front with predTaken := actually_taken }
  let s ← d.update u.predictor tid front.pc actually_taken front.bpHistory true
  let u := { u with predictor := s }
  if actually_taken then correctTaken isa u front ghr corrTarget tid rand
  else correctNotTaken u front tid

/-- `squash(squashed_sn, corrTarget, actually_taken, tid)`. The value that
`rand()` gives, when an indirect target is allocated, is an input. -/
def squashMispredicted (squashed_sn : InstSeqNum) (corrTarget : PC)
    (actually_taken : Bool) (tid : ThreadID) (rand : Nat) : Result (State p S H PC) := do
  let u ← squash d u squashed_sn tid
  match u.predHist tid with
  | [] => .ok u
  | front :: older => do
    Result.require (front.seqNum == squashed_sn)
    let (front, u) ← correctFront d isa u front corrTarget actually_taken tid rand
    .ok (u.setPredHist tid (front :: older))

end

/-- The calls that the pipeline makes on the unit for one thread. -/
inductive Op (PC Inst : Type) where
  | predict (inst : Inst) (seqNum : InstSeqNum) (pc : PC)
  | update (done_sn : InstSeqNum)
  | squash (squashed_sn : InstSeqNum)
  | squashMispredicted (squashed_sn : InstSeqNum) (corrTarget : PC) (actually_taken : Bool) (rand : Nat)

inductive Answer (PC : Type) where
  | predicted (pred_taken : Bool) (target : PC)
  | committed (calls : List CommitCall)
  | squashed
  deriving DecidableEq, Repr

def machine (d : DirectionPredictor S H) (isa : ISA PC Inst) (p : Params) (tid : ThreadID) :
    Machine (State p S H PC) (Op PC Inst) (Answer PC) where
  step
    | u, .predict inst seqNum pc => do
      let (pred_taken, target, u) ← predict d isa u inst seqNum pc tid
      .ok (.predicted pred_taken target, u)
    | u, .update done_sn => do
      let (calls, u) ← update d u done_sn tid
      .ok (.committed calls, u)
    | u, .squash squashed_sn => do
      let u ← squash d u squashed_sn tid
      .ok (.squashed, u)
    | u, .squashMispredicted squashed_sn corrTarget actually_taken rand => do
      let u ← squashMispredicted d isa u squashed_sn corrTarget actually_taken tid rand
      .ok (.squashed, u)

/-- A small unit. -/
def smallParams : Params where
  numThreads := 1
  BTBEntries := 2
  BTBTagSize := 4
  RASSize := 2
  instShiftAmt := 2
  useIndirect := true
  indirectHashGHR := true
  indirectHashTargets := true
  indirectSets := 2
  indirectWays := 1
  indirectTagSize := 4
  indirectPathLength := 1

/-- A conditional branch with a direct target. -/
def conditionalBranch : StaticInst := ⟨false, true, false, false⟩

/-- An unconditional jump with a direct target. -/
def directJump : StaticInst := ⟨true, true, false, false⟩

/-- A call with a direct target. -/
def directCall : StaticInst := ⟨true, true, true, false⟩

def unconditionalReturn : StaticInst := ⟨true, false, false, true⟩

end Gem5.BPredUnit
