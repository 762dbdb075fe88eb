import Gem5.Pred.Tournament.Model

open Lib Lib.ShiftRegister Result

namespace Gem5.TriTournamentBP

/-- The parameters of `TriTournamentBP` that its code reads. -/
structure Params where
  localPredictorSize : Unsigned
  localCtrBits : Unsigned
  localHistoryTableSize : Unsigned
  localPredictorSize2 : Unsigned
  localCtrBits2 : Unsigned
  localHistoryTableSize2 : Unsigned
  globalPredictorSize : Unsigned
  globalCtrBits : Unsigned
  choicePredictorSize : Unsigned
  choiceCtrBits : Unsigned
  choicePredictorSize2 : Unsigned
  choiceCtrBits2 : Unsigned
  instShiftAmt : Unsigned
  deriving DecidableEq

namespace Params

variable (p : Params)

def localHistoryBits : Nat := ceilLog2 p.localPredictorSize

def localHistoryBits2 : Nat := ceilLog2 p.localPredictorSize2

/-- The width of the history register, which the second choice table does not
enter. -/
def globalHistoryBits : Nat :=
  if ceilLog2 p.globalPredictorSize > ceilLog2 p.choicePredictorSize then
    ceilLog2 p.globalPredictorSize
  else ceilLog2 p.choicePredictorSize

def localPredictorMask : Unsigned := mask32 p.localHistoryBits

def localPredictorMask2 : Unsigned := mask32 p.localHistoryBits2

def globalHistoryMask : Unsigned := p.globalPredictorSize - 1

def choiceHistoryMask : Unsigned := p.choicePredictorSize - 1

def choiceHistoryMask2 : Unsigned := p.choicePredictorSize2 - 1

def historyRegisterMask : Unsigned := mask32 p.globalHistoryBits

def localThreshold : Unsigned := ctrThreshold p.localCtrBits

def localThreshold2 : Unsigned := ctrThreshold p.localCtrBits2

def globalThreshold : Unsigned := ctrThreshold p.globalCtrBits

def choiceThreshold : Unsigned := ctrThreshold p.choiceCtrBits

/-- `(ULL(1) << 2*(choiceCtrBits - 1)) - 1`, from the width of the first choice
counters. -/
def choiceThreshold2 : Unsigned := ctrThreshold2 p.choiceCtrBits

def calcLocHistIdx (branch_addr : Addr) : Unsigned :=
  Gem5.calcLocHistIdx p.instShiftAmt p.localHistoryTableSize branch_addr

def calcLocHistIdx2 (branch_addr : Addr) : Unsigned :=
  Gem5.calcLocHistIdx p.instShiftAmt p.localHistoryTableSize2 branch_addr

end Params

/-- The fields of a predictor object that its methods change. -/
structure State (p : Params) where
  localCtrs : Vector SatCounter p.localPredictorSize.toNat
  localHistoryTable : Vector Unsigned p.localHistoryTableSize.toNat
  localCtrs2 : Vector SatCounter p.localPredictorSize2.toNat
  localHistoryTable2 : Vector Unsigned p.localHistoryTableSize2.toNat
  globalCtrs : Vector SatCounter p.globalPredictorSize.toNat
  globalHistory : ThreadID → Unsigned
  choiceCtrs : Vector SatCounter p.choicePredictorSize.toNat
  choiceCtrs2 : Vector SatCounter p.choicePredictorSize2.toNat
  atLeastOneCorrectExpertOnMispredict : Nat

structure BPHistory where
  globalHistory : Unsigned
  localHistoryIdx : Unsigned
  localHistory : Unsigned
  localHistoryIdx2 : Unsigned
  localHistory2 : Unsigned
  localPredTaken : Bool
  localPredTaken2 : Bool
  globalPredTaken : Bool
  globalUsed : Bool
  local2Used : Bool
  deriving DecidableEq

variable (p : Params) (s : State p) (tid : ThreadID)

/-- The object as the constructor leaves it. -/
def State.initial : State p where
  localCtrs := .replicate _ (.setBits p.localCtrBits.toNat)
  localHistoryTable := .replicate _ 0
  localCtrs2 := .replicate _ (.setBits p.localCtrBits2.toNat)
  localHistoryTable2 := .replicate _ 0
  globalCtrs := .replicate _ (.setBits p.globalCtrBits.toNat)
  globalHistory := fun _ => 0
  choiceCtrs := .replicate _ (.setBits p.choiceCtrBits.toNat)
  choiceCtrs2 := .replicate _ (.setBits p.choiceCtrBits2.toNat)
  atLeastOneCorrectExpertOnMispredict := 0

/-- The constructor. The size of the second choice table is only checked through
its mask. -/
def construct : Except String (State p) := do
  fatalIf (!isPowerOf2 p.localPredictorSize) "Invalid local predictor size!\n"
  fatalIf (!isPowerOf2 p.localPredictorSize2) "Invalid local predictor size!\n"
  fatalIf (!isPowerOf2 p.globalPredictorSize) "Invalid global predictor size!\n"
  fatalIf (!isPowerOf2 p.localHistoryTableSize) "Invalid local history table size!\n"
  fatalIf (!isPowerOf2 p.localHistoryTableSize2) "Invalid second local history table size!\n"
  fatalIf (!isPowerOf2 p.choicePredictorSize) "Invalid choice predictor size!\n"
  fatalIf (p.globalHistoryMask > p.historyRegisterMask)
    "Global predictor too large for global history bits!\n"
  fatalIf (p.choiceHistoryMask > p.historyRegisterMask)
    "Choice predictor too large for global history bits!\n"
  fatalIf (p.choiceHistoryMask2 > p.historyRegisterMask)
    "Choice predictor too large for global history bits!\n"
  .ok (State.initial p)

/-- `updateGlobalHistTaken` and `updateGlobalHistNotTaken`. -/
def updateGlobalHist (taken : Bool) : State p :=
  { s with globalHistory :=
      Function.update s.globalHistory tid (shiftIn p.historyRegisterMask (s.globalHistory tid) taken) }

def btbUpdate (branch_addr : Addr) : Result (State p) := do
  let local_history_idx := p.calcLocHistIdx branch_addr
  let local_history_idx2 := p.calcLocHistIdx2 branch_addr
  let localHistoryTable ← Table.modify s.localHistoryTable local_history_idx.toNat (clearNewest p.localPredictorMask)
  let localHistoryTable2 ← Table.modify s.localHistoryTable2 local_history_idx2.toNat
    (clearNewest p.localPredictorMask2)
  .ok { s with
    globalHistory := Function.update s.globalHistory tid
      (clearNewest p.historyRegisterMask (s.globalHistory tid))
    localHistoryTable
    localHistoryTable2 }

/-- `lookup`. Whichever predictor is chosen, all histories are shifted by the
direction that is returned. -/
def lookup (branch_addr : Addr) : Result (Bool × BPHistory × State p) := do
  let local_history_idx := p.calcLocHistIdx branch_addr
  let local_history ← Table.read s.localHistoryTable local_history_idx.toNat
  let local_predictor_idx := local_history &&& p.localPredictorMask
  let local_ctr ← Table.read s.localCtrs local_predictor_idx.toNat
  let local_prediction : Bool := local_ctr.read > p.localThreshold.toNat
  let local_history_idx2 := p.calcLocHistIdx2 branch_addr
  let local_history2 ← Table.read s.localHistoryTable2 local_history_idx2.toNat
  let local_predictor_idx2 := local_history2 &&& p.localPredictorMask2
  let local_ctr2 ← Table.read s.localCtrs2 local_predictor_idx2.toNat
  let local_prediction2 : Bool := local_ctr2.read > p.localThreshold2.toNat
  let global_ctr ← Table.read s.globalCtrs (s.globalHistory tid &&& p.globalHistoryMask).toNat
  let global_prediction : Bool := p.globalThreshold.toNat < global_ctr.read
  let choice_ctr ← Table.read s.choiceCtrs (s.globalHistory tid &&& p.choiceHistoryMask).toNat
  let choice_prediction : Bool := p.choiceThreshold.toNat < choice_ctr.read
  let choice_ctr2 ← Table.read s.choiceCtrs2 (s.globalHistory tid &&& p.choiceHistoryMask2).toNat
  let choice_prediction2 : Bool := p.choiceThreshold2.toNat < choice_ctr2.read
  let history : BPHistory :=
    { globalHistory := s.globalHistory tid
      localHistoryIdx := local_history_idx
      localHistory := local_predictor_idx
      localHistoryIdx2 := local_history_idx2
      localHistory2 := local_predictor_idx2
      localPredTaken := local_prediction
      localPredTaken2 := local_prediction2
      globalPredTaken := global_prediction
      globalUsed := choice_prediction
      local2Used := choice_prediction2 }
  require (local_history_idx < p.localHistoryTableSize)
  let taken :=
    if choice_prediction2 then local_prediction2
    else if choice_prediction then global_prediction else local_prediction
  let localHistoryTable ← Table.modify s.localHistoryTable local_history_idx.toNat
    (fun local_history => shiftLocal local_history taken)
  let localHistoryTable2 ← Table.modify s.localHistoryTable2 local_history_idx2.toNat
    (fun local_history => shiftLocal local_history taken)
  .ok (taken, history, { updateGlobalHist p s tid taken with localHistoryTable, localHistoryTable2 })

def uncondBranch : BPHistory × State p :=
  ({ globalHistory := s.globalHistory tid
     localHistoryIdx := invalidPredictorIndex
     localHistory := invalidPredictorIndex
     localHistoryIdx2 := invalidPredictorIndex
     localHistory2 := invalidPredictorIndex
     localPredTaken := true
     localPredTaken2 := true
     globalPredTaken := true
     globalUsed := true
     local2Used := false },
    updateGlobalHist p s tid true)

/-- `updateAdditionalStats`, which `update` calls for corrections and commits
alike. -/
def updateAdditionalStats (taken : Bool) (history : BPHistory) : State p :=
  let prediction := if history.globalUsed then history.globalPredTaken else history.localPredTaken
  let prediction := if history.local2Used then history.localPredTaken2 else prediction
  let mispredict := !(taken == prediction)
  let otherCorrect :=
    (!history.local2Used && ((history.globalUsed && history.localPredTaken == taken) ||
      (!history.globalUsed && history.globalPredTaken == taken))) ||
    (history.local2Used && history.localPredTaken2 == taken)
  { s with atLeastOneCorrectExpertOnMispredict :=
      s.atLeastOneCorrectExpertOnMispredict + (mispredict && otherCorrect).toNat }

/-- `update` with `squashed` set: the histories are restored and updated again. -/
def updateSquashed
    (local_history_idx local_history_idx2 : Unsigned) (taken : Bool) (history : BPHistory) :
    Result (State p) := do
  let old_local_pred_valid := history.localHistory ≠ invalidPredictorIndex
  let old_local_pred_valid2 := history.localHistory2 ≠ invalidPredictorIndex
  let localHistoryTable ← Table.writeIf old_local_pred_valid s.localHistoryTable
    local_history_idx.toNat (shiftLocal history.localHistory taken)
  let localHistoryTable2 ← Table.writeIf old_local_pred_valid2 s.localHistoryTable2
    local_history_idx2.toNat (shiftLocal history.localHistory2 taken)
  .ok { s with
    globalHistory := Function.update s.globalHistory tid
      (shiftIn p.historyRegisterMask history.globalHistory taken)
    localHistoryTable
    localHistoryTable2 }

/-- Whether a commit with outcome `taken` moves a counter of the second choice
table: the second local prediction differed from the one it would have
replaced, and one of the three predictions was right. -/
def BPHistory.trainsChoice2 (history : BPHistory) (taken : Bool) : Bool :=
  ((history.globalUsed && history.localPredTaken2 != history.globalPredTaken) ||
    (!history.globalUsed && history.localPredTaken2 != history.localPredTaken)) &&
  history.localHistory2 != invalidPredictorIndex &&
  (history.localPredTaken2 == taken || (history.globalPredTaken == taken || history.localPredTaken == taken))

/-- `update` at commit: the choice, global and local counters. The second choice
table is indexed with the mask of the first. -/
def updateCommitted (taken : Bool) (history : BPHistory) : Result (State p) := do
  let old_local_pred_valid := history.localHistory ≠ invalidPredictorIndex
  let old_local_pred_valid2 := history.localHistory2 ≠ invalidPredictorIndex
  let old_local_pred_index := history.localHistory &&& p.localPredictorMask
  require (old_local_pred_index < p.localPredictorSize)
  let old_local_pred_index2 := history.localHistory2 &&& p.localPredictorMask2
  require (old_local_pred_index2 < p.localPredictorSize2)
  let choice_predictor_idx := history.globalHistory &&& p.choiceHistoryMask
  let choiceCtrs ← Table.modifyIf
    (history.localPredTaken ≠ history.globalPredTaken ∧ old_local_pred_valid) s.choiceCtrs
    choice_predictor_idx.toNat
    (SatCounter.trainChoice history.localPredTaken history.globalPredTaken taken)
  let choice_predictor_idx2 := history.globalHistory &&& p.choiceHistoryMask
  let choiceCtrs2 ← Table.modifyIf (history.trainsChoice2 taken) s.choiceCtrs2
    choice_predictor_idx2.toNat (SatCounter.train (history.localPredTaken2 == taken))
  let global_predictor_idx := history.globalHistory &&& p.globalHistoryMask
  let globalCtrs ← Table.modify s.globalCtrs global_predictor_idx.toNat (SatCounter.train taken)
  let localCtrs ← Table.modifyIf old_local_pred_valid s.localCtrs old_local_pred_index.toNat (SatCounter.train taken)
  let localCtrs2 ← Table.modifyIf old_local_pred_valid2 s.localCtrs2 old_local_pred_index2.toNat
    (SatCounter.train taken)
  .ok { s with choiceCtrs, choiceCtrs2, globalCtrs, localCtrs, localCtrs2 }

def update (branch_addr : Addr) (taken : Bool) (history : BPHistory) (squashed : Bool) : Result (State p) := do
  let local_history_idx := p.calcLocHistIdx branch_addr
  require (local_history_idx < p.localHistoryTableSize)
  let local_history_idx2 := p.calcLocHistIdx2 branch_addr
  require (local_history_idx2 < p.localHistoryTableSize2)
  let s := updateAdditionalStats p s taken history
  if squashed then updateSquashed p s tid local_history_idx local_history_idx2 taken history
  else updateCommitted p s taken history

def squash (history : BPHistory) : Result (State p) := do
  let localHistoryTable ← Table.writeIf (history.localHistoryIdx ≠ invalidPredictorIndex)
    s.localHistoryTable history.localHistoryIdx.toNat history.localHistory
  let localHistoryTable2 ← Table.writeIf (history.localHistoryIdx2 ≠ invalidPredictorIndex)
    s.localHistoryTable2 history.localHistoryIdx2.toNat history.localHistory2
  .ok { s with
    globalHistory := Function.update s.globalHistory tid history.globalHistory
    localHistoryTable
    localHistoryTable2 }

/-- `TriTournamentBP` behind the interface of `BPredUnit`. -/
def predictor : DirectionPredictor (State p) BPHistory where
  lookup := lookup p
  uncondBranch s tid _ := .ok (uncondBranch p s tid)
  btbUpdate s tid branch_addr _ := btbUpdate p s tid branch_addr
  update := update p
  squash := squash p
  getGHR _ _ history := .ok history.globalHistory

end Gem5.TriTournamentBP
