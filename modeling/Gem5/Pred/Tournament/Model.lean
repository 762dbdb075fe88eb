import Gem5.Pred.DirectionPredictor
import Gem5.Pred.History

open Lib Lib.ShiftRegister Result

namespace Gem5.TournamentBP

/-- The parameters of `TournamentBP` that its code reads. -/
structure Params where
  localPredictorSize : Unsigned
  localCtrBits : Unsigned
  localHistoryTableSize : Unsigned
  globalPredictorSize : Unsigned
  globalCtrBits : Unsigned
  choicePredictorSize : Unsigned
  choiceCtrBits : Unsigned
  instShiftAmt : Unsigned
  deriving DecidableEq

namespace Params

variable (p : Params)

def localHistoryBits : Nat := ceilLog2 p.localPredictorSize

def globalHistoryBits : Nat :=
  if ceilLog2 p.globalPredictorSize > ceilLog2 p.choicePredictorSize then
    ceilLog2 p.globalPredictorSize
  else ceilLog2 p.choicePredictorSize

def localPredictorMask : Unsigned := mask32 p.localHistoryBits

def globalHistoryMask : Unsigned := p.globalPredictorSize - 1

def choiceHistoryMask : Unsigned := p.choicePredictorSize - 1

def historyRegisterMask : Unsigned := mask32 p.globalHistoryBits

def localThreshold : Unsigned := ctrThreshold p.localCtrBits

def globalThreshold : Unsigned := ctrThreshold p.globalCtrBits

def choiceThreshold : Unsigned := ctrThreshold p.choiceCtrBits

def calcLocHistIdx (branch_addr : Addr) : Unsigned :=
  Gem5.calcLocHistIdx p.instShiftAmt p.localHistoryTableSize branch_addr

end Params

/-- The fields of a predictor object that its methods change. -/
structure State (p : Params) where
  localCtrs : Vector SatCounter p.localPredictorSize.toNat
  localHistoryTable : Vector Unsigned p.localHistoryTableSize.toNat
  globalCtrs : Vector SatCounter p.globalPredictorSize.toNat
  globalHistory : ThreadID → Unsigned
  choiceCtrs : Vector SatCounter p.choicePredictorSize.toNat
  atLeastOneCorrectExpertOnMispredict : Nat

structure BPHistory where
  globalHistory : Unsigned
  localHistoryIdx : Unsigned
  localHistory : Unsigned
  localPredTaken : Bool
  globalPredTaken : Bool
  globalUsed : Bool
  deriving DecidableEq

variable (p : Params) (s : State p) (tid : ThreadID)

/-- The object as the constructor leaves it. -/
def State.initial : State p where
  localCtrs := .replicate _ (.setBits p.localCtrBits.toNat)
  localHistoryTable := .replicate _ 0
  globalCtrs := .replicate _ (.setBits p.globalCtrBits.toNat)
  globalHistory := fun _ => 0
  choiceCtrs := .replicate _ (.setBits p.choiceCtrBits.toNat)
  atLeastOneCorrectExpertOnMispredict := 0

def construct : Except String (State p) := do
  fatalIf (!isPowerOf2 p.localPredictorSize) "Invalid local predictor size!\n"
  fatalIf (!isPowerOf2 p.globalPredictorSize) "Invalid global predictor size!\n"
  fatalIf (!isPowerOf2 p.localHistoryTableSize) "Invalid local history table size!\n"
  fatalIf (!isPowerOf2 p.choicePredictorSize) "Invalid choice predictor size!\n"
  fatalIf (p.globalHistoryMask > p.historyRegisterMask)
    "Global predictor too large for global history bits!\n"
  fatalIf (p.choiceHistoryMask > p.historyRegisterMask)
    "Choice predictor too large for global history bits!\n"
  .ok (State.initial p)

/-- `updateGlobalHistTaken` and `updateGlobalHistNotTaken`. -/
def updateGlobalHist (taken : Bool) : State p :=
  { s with globalHistory :=
      Function.update s.globalHistory tid (shiftIn p.historyRegisterMask (s.globalHistory tid) taken) }

def btbUpdate (branch_addr : Addr) : Result (State p) := do
  let local_history_idx := p.calcLocHistIdx branch_addr
  let localHistoryTable ← Table.modify s.localHistoryTable local_history_idx.toNat (clearNewest p.localPredictorMask)
  .ok { s with
    globalHistory := Function.update s.globalHistory tid
      (clearNewest p.historyRegisterMask (s.globalHistory tid))
    localHistoryTable }

/-- `lookup`. Whichever predictor is chosen, both histories are shifted by the
direction that is returned. -/
def lookup (branch_addr : Addr) : Result (Bool × BPHistory × State p) := do
  let local_history_idx := p.calcLocHistIdx branch_addr
  let local_history ← Table.read s.localHistoryTable local_history_idx.toNat
  let local_predictor_idx := local_history &&& p.localPredictorMask
  let local_ctr ← Table.read s.localCtrs local_predictor_idx.toNat
  let local_prediction : Bool := local_ctr.read > p.localThreshold.toNat
  let global_ctr ← Table.read s.globalCtrs (s.globalHistory tid &&& p.globalHistoryMask).toNat
  let global_prediction : Bool := p.globalThreshold.toNat < global_ctr.read
  let choice_ctr ← Table.read s.choiceCtrs (s.globalHistory tid &&& p.choiceHistoryMask).toNat
  let choice_prediction : Bool := p.choiceThreshold.toNat < choice_ctr.read
  let history : BPHistory :=
    { globalHistory := s.globalHistory tid
      localHistoryIdx := local_history_idx
      localHistory := local_predictor_idx
      localPredTaken := local_prediction
      globalPredTaken := global_prediction
      globalUsed := choice_prediction }
  require (local_history_idx < p.localHistoryTableSize)
  let taken := if choice_prediction then global_prediction else local_prediction
  -- updateLocalHistTaken or updateLocalHistNotTaken
  let localHistoryTable ← Table.modify s.localHistoryTable local_history_idx.toNat
    (fun local_history => shiftLocal local_history taken)
  .ok (taken, history, { updateGlobalHist p s tid taken with localHistoryTable })

def uncondBranch : BPHistory × State p :=
  ({ globalHistory := s.globalHistory tid
     localHistoryIdx := invalidPredictorIndex
     localHistory := invalidPredictorIndex
     localPredTaken := true
     globalPredTaken := true
     globalUsed := true },
    updateGlobalHist p s tid true)

/-- `updateAdditionalStats`, which `update` calls for corrections and commits
alike. -/
def updateAdditionalStats (taken : Bool) (history : BPHistory) : State p :=
  let prediction := if history.globalUsed then history.globalPredTaken else history.localPredTaken
  let mispredict := !(taken == prediction)
  let otherCorrect := (history.globalUsed && history.localPredTaken == taken) ||
    (!history.globalUsed && history.globalPredTaken == taken)
  { s with atLeastOneCorrectExpertOnMispredict :=
      s.atLeastOneCorrectExpertOnMispredict + (mispredict && otherCorrect).toNat }

/-- `update` with `squashed` set: the histories are restored and updated again. -/
def updateSquashed (local_history_idx : Unsigned) (taken : Bool) (history : BPHistory) : Result (State p) := do
  let old_local_pred_valid := history.localHistory ≠ invalidPredictorIndex
  let localHistoryTable ← Table.writeIf old_local_pred_valid s.localHistoryTable
    local_history_idx.toNat (shiftLocal history.localHistory taken)
  .ok { s with
    globalHistory := Function.update s.globalHistory tid
      (shiftIn p.historyRegisterMask history.globalHistory taken)
    localHistoryTable }

/-- `update` at commit: the choice, global and local counters. -/
def updateCommitted (taken : Bool) (history : BPHistory) : Result (State p) := do
  let old_local_pred_valid := history.localHistory ≠ invalidPredictorIndex
  let old_local_pred_index := history.localHistory &&& p.localPredictorMask
  require (old_local_pred_index < p.localPredictorSize)
  let choice_predictor_idx := history.globalHistory &&& p.choiceHistoryMask
  let choiceCtrs ← Table.modifyIf
    (history.localPredTaken ≠ history.globalPredTaken ∧ old_local_pred_valid) s.choiceCtrs
    choice_predictor_idx.toNat
    (SatCounter.trainChoice history.localPredTaken history.globalPredTaken taken)
  let global_predictor_idx := history.globalHistory &&& p.globalHistoryMask
  let globalCtrs ← Table.modify s.globalCtrs global_predictor_idx.toNat (SatCounter.train taken)
  let localCtrs ← Table.modifyIf old_local_pred_valid s.localCtrs old_local_pred_index.toNat (SatCounter.train taken)
  .ok { s with choiceCtrs, globalCtrs, localCtrs }

def update (branch_addr : Addr) (taken : Bool) (history : BPHistory) (squashed : Bool) : Result (State p) := do
  let local_history_idx := p.calcLocHistIdx branch_addr
  require (local_history_idx < p.localHistoryTableSize)
  let s := updateAdditionalStats p s taken history
  if squashed then updateSquashed p s tid local_history_idx taken history
  else updateCommitted p s taken history

def squash (history : BPHistory) : Result (State p) := do
  let localHistoryTable ← Table.writeIf (history.localHistoryIdx ≠ invalidPredictorIndex)
    s.localHistoryTable history.localHistoryIdx.toNat history.localHistory
  .ok { s with
    globalHistory := Function.update s.globalHistory tid history.globalHistory
    localHistoryTable }

/-- `TournamentBP` behind the interface of `BPredUnit`. -/
def predictor : DirectionPredictor (State p) BPHistory where
  lookup := lookup p
  uncondBranch s tid _ := .ok (uncondBranch p s tid)
  btbUpdate s tid branch_addr _ := btbUpdate p s tid branch_addr
  update := update p
  squash := squash p
  getGHR _ _ history := .ok history.globalHistory

def smallParams : Params where
  localPredictorSize := 2
  localCtrBits := 2
  localHistoryTableSize := 2
  globalPredictorSize := 2
  globalCtrBits := 2
  choicePredictorSize := 2
  choiceCtrBits := 2
  instShiftAmt := 2

end Gem5.TournamentBP
