import Gem5.Pred.Tournament.Model

open Lib Lib.ShiftRegister Result

namespace Gem5.GTriTournamentBP

/-- The parameters of `GTriTournamentBP` that its code reads. -/
structure Params where
  localPredictorSize : Unsigned
  localCtrBits : Unsigned
  localHistoryTableSize : Unsigned
  globalPredictorSize : Unsigned
  globalCtrBits : Unsigned
  globalPredictorSize2 : Unsigned
  globalCtrBits2 : Unsigned
  choicePredictorSize : Unsigned
  choiceCtrBits : Unsigned
  choicePredictorSize2 : Unsigned
  choiceCtrBits2 : Unsigned
  instShiftAmt : Unsigned
  deriving DecidableEq

/-- The nested conditionals that give the width of both history registers, from
the size of a global and of the two choice tables. -/
def historyBits (global choice choice2 : Unsigned) : Nat :=
  if ceilLog2 global > ceilLog2 choice then
    if ceilLog2 global > ceilLog2 choice2 then ceilLog2 global else ceilLog2 choice2
  else if ceilLog2 global > ceilLog2 choice2 then ceilLog2 global else ceilLog2 choice

namespace Params

variable (p : Params)

def localHistoryBits : Nat := ceilLog2 p.localPredictorSize

def globalHistoryBits : Nat :=
  historyBits p.globalPredictorSize p.choicePredictorSize p.choicePredictorSize2

def globalHistoryBits2 : Nat :=
  historyBits p.globalPredictorSize2 p.choicePredictorSize p.choicePredictorSize2

def localPredictorMask : Unsigned := mask32 p.localHistoryBits

def globalHistoryMask : Unsigned := p.globalPredictorSize - 1

def globalHistoryMask2 : Unsigned := p.globalPredictorSize2 - 1

def choiceHistoryMask : Unsigned := p.choicePredictorSize - 1

def choiceHistoryMask2 : Unsigned := p.choicePredictorSize2 - 1

def historyRegisterMask : Unsigned := mask32 p.globalHistoryBits

def historyRegisterMask2 : Unsigned := mask32 p.globalHistoryBits2

def localThreshold : Unsigned := ctrThreshold p.localCtrBits

def globalThreshold : Unsigned := ctrThreshold p.globalCtrBits

def globalThreshold2 : Unsigned := ctrThreshold p.globalCtrBits2

def choiceThreshold : Unsigned := ctrThreshold p.choiceCtrBits

def choiceThreshold2 : Unsigned := ctrThreshold2 p.choiceCtrBits2

def calcLocHistIdx (branch_addr : Addr) : Unsigned :=
  Gem5.calcLocHistIdx p.instShiftAmt p.localHistoryTableSize branch_addr

/-- The entry of the gshare table that `lookup` reads. -/
def gshareReadIdx (history2 : Unsigned) (branch_addr : Addr) : Unsigned :=
  gshareIdx p.instShiftAmt p.globalHistoryMask2 history2 branch_addr

end Params

/-- The fields of a predictor object that its methods change. `globalCtrs2` is
the gshare table. -/
structure State (p : Params) where
  localCtrs : Vector SatCounter p.localPredictorSize.toNat
  localHistoryTable : Vector Unsigned p.localHistoryTableSize.toNat
  globalCtrs : Vector SatCounter p.globalPredictorSize.toNat
  globalCtrs2 : Vector SatCounter p.globalPredictorSize2.toNat
  globalHistory : ThreadID → Unsigned
  globalHistory2 : ThreadID → Unsigned
  choiceCtrs : Vector SatCounter p.choicePredictorSize.toNat
  choiceCtrs2 : Vector SatCounter p.choicePredictorSize2.toNat
  atLeastOneCorrectExpertOnMispredict : Nat

structure BPHistory where
  globalHistory : Unsigned
  globalHistory2 : Unsigned
  localHistoryIdx : Unsigned
  localHistory : Unsigned
  localPredTaken : Bool
  globalPredTaken : Bool
  globalUsed : Bool
  globalPredTaken2 : Bool
  globalUsed2 : Bool
  deriving DecidableEq

variable (p : Params) (s : State p) (tid : ThreadID)

/-- The object as the constructor leaves it. -/
def State.initial : State p where
  localCtrs := .replicate _ (.setBits p.localCtrBits.toNat)
  localHistoryTable := .replicate _ 0
  globalCtrs := .replicate _ (.setBits p.globalCtrBits.toNat)
  globalCtrs2 := .replicate _ (.setBits p.globalCtrBits2.toNat)
  globalHistory := fun _ => 0
  globalHistory2 := fun _ => 0
  choiceCtrs := .replicate _ (.setBits p.choiceCtrBits.toNat)
  choiceCtrs2 := .replicate _ (.setBits p.choiceCtrBits2.toNat)
  atLeastOneCorrectExpertOnMispredict := 0

/-- The constructor. It tests the sizes of the first global and choice tables
twice and those of the second ones never. -/
def construct : Except String (State p) := do
  fatalIf (!isPowerOf2 p.localPredictorSize) "Invalid local predictor size!\n"
  fatalIf (!isPowerOf2 p.globalPredictorSize || !isPowerOf2 p.globalPredictorSize)
    "Invalid global predictor size!\n"
  fatalIf (!isPowerOf2 p.localHistoryTableSize) "Invalid local history table size!\n"
  fatalIf (!isPowerOf2 p.choicePredictorSize || !isPowerOf2 p.choicePredictorSize)
    "Invalid choice predictor size!\n"
  fatalIf (p.globalHistoryMask > p.historyRegisterMask)
    "Global predictor too large for global history bits!\n"
  fatalIf (p.globalHistoryMask2 > p.historyRegisterMask2)
    "Global predictor too large for global history bits!\n"
  fatalIf (p.choiceHistoryMask > p.historyRegisterMask)
    "Choice predictor too large for global history bits!\n"
  fatalIf (p.choiceHistoryMask2 > p.historyRegisterMask)
    "Choice predictor too large for global history bits!\n"
  fatalIf (p.choiceHistoryMask > p.historyRegisterMask2)
    "Choice predictor too large for global history bits!\n"
  fatalIf (p.choiceHistoryMask2 > p.historyRegisterMask2)
    "Choice predictor too large for global history bits!\n"
  .ok (State.initial p)

/-- `updateGlobalHistTaken` with `updateGlobalHist2Taken`, and
`updateGlobalHistNotTaken` with `updateGlobalHist2NotTaken`. -/
def updateGlobalHists (taken : Bool) : State p :=
  { s with
    globalHistory :=
      Function.update s.globalHistory tid (shiftIn p.historyRegisterMask (s.globalHistory tid) taken)
    globalHistory2 :=
      Function.update s.globalHistory2 tid (shiftIn p.historyRegisterMask2 (s.globalHistory2 tid) taken) }

def btbUpdate (branch_addr : Addr) : Result (State p) := do
  let local_history_idx := p.calcLocHistIdx branch_addr
  let localHistoryTable ← Table.modify s.localHistoryTable local_history_idx.toNat (clearNewest p.localPredictorMask)
  .ok { s with
    globalHistory := Function.update s.globalHistory tid
      (clearNewest p.historyRegisterMask (s.globalHistory tid))
    globalHistory2 := Function.update s.globalHistory2 tid
      (clearNewest p.historyRegisterMask2 (s.globalHistory2 tid))
    localHistoryTable }

/-- `lookup`. Whichever predictor is chosen, all histories are shifted by the
direction that is returned. -/
def lookup (branch_addr : Addr) : Result (Bool × BPHistory × State p) := do
  let local_history_idx := p.calcLocHistIdx branch_addr
  let local_history ← Table.read s.localHistoryTable local_history_idx.toNat
  let local_predictor_idx := local_history &&& p.localPredictorMask
  let local_ctr ← Table.read s.localCtrs local_predictor_idx.toNat
  let local_prediction : Bool := local_ctr.read > p.localThreshold.toNat
  let global_ctr ← Table.read s.globalCtrs (s.globalHistory tid &&& p.globalHistoryMask).toNat
  let global_prediction : Bool := p.globalThreshold.toNat < global_ctr.read
  let global_ctr2 ← Table.read s.globalCtrs2 (p.gshareReadIdx (s.globalHistory2 tid) branch_addr).toNat
  let global_prediction2 : Bool := p.globalThreshold2.toNat < global_ctr2.read
  let choice_ctr ← Table.read s.choiceCtrs (s.globalHistory tid &&& p.choiceHistoryMask).toNat
  let choice_prediction : Bool := p.choiceThreshold.toNat < choice_ctr.read
  let choice_ctr2 ← Table.read s.choiceCtrs2 (s.globalHistory tid &&& p.choiceHistoryMask2).toNat
  let choice_prediction2 : Bool := p.choiceThreshold2.toNat < choice_ctr2.read
  let history : BPHistory :=
    { globalHistory := s.globalHistory tid
      globalHistory2 := s.globalHistory2 tid
      localHistoryIdx := local_history_idx
      localHistory := local_predictor_idx
      localPredTaken := local_prediction
      globalPredTaken := global_prediction
      globalUsed := choice_prediction
      globalPredTaken2 := global_prediction2
      globalUsed2 := choice_prediction2 }
  require (local_history_idx < p.localHistoryTableSize)
  let taken :=
    if !choice_prediction2 then
      if choice_prediction then global_prediction else local_prediction
    else global_prediction2
  let localHistoryTable ← Table.modify s.localHistoryTable local_history_idx.toNat
    (fun local_history => shiftLocal local_history taken)
  .ok (taken, history, { updateGlobalHists p s tid taken with localHistoryTable })

def uncondBranch : BPHistory × State p :=
  ({ globalHistory := s.globalHistory tid
     globalHistory2 := s.globalHistory2 tid
     localHistoryIdx := invalidPredictorIndex
     localHistory := invalidPredictorIndex
     localPredTaken := true
     globalPredTaken := true
     globalUsed := true
     globalPredTaken2 := true
     globalUsed2 := true },
    updateGlobalHists p s tid true)

/-- `updateAdditionalStats`, which `update` calls for corrections and commits
alike. -/
def updateAdditionalStats (taken : Bool) (history : BPHistory) : State p :=
  let prediction := if history.globalUsed then history.globalPredTaken else history.localPredTaken
  let prediction := if history.globalUsed2 then history.globalPredTaken2 else prediction
  let mispredict := !(taken == prediction)
  let someCorrect := history.localPredTaken == taken || history.globalPredTaken == taken ||
    history.globalPredTaken2 == taken
  { s with atLeastOneCorrectExpertOnMispredict :=
      s.atLeastOneCorrectExpertOnMispredict + (mispredict && someCorrect).toNat }

/-- `update` with `squashed` set: the histories are restored and updated again. -/
def updateSquashed (local_history_idx : Unsigned) (taken : Bool) (history : BPHistory) : Result (State p) := do
  let old_local_pred_valid := history.localHistory ≠ invalidPredictorIndex
  let localHistoryTable ← Table.writeIf old_local_pred_valid s.localHistoryTable
    local_history_idx.toNat (shiftLocal history.localHistory taken)
  .ok { s with
    globalHistory := Function.update s.globalHistory tid
      (shiftIn p.historyRegisterMask history.globalHistory taken)
    globalHistory2 := Function.update s.globalHistory2 tid
      (shiftIn p.historyRegisterMask2 history.globalHistory2 taken)
    localHistoryTable }

/-- Whether a commit with outcome `taken` moves a counter of the second choice
table. A chosen global prediction is not compared with the gshare one. -/
def BPHistory.trainsChoice2 (history : BPHistory) (taken : Bool) : Bool :=
  ((history.globalUsed && !history.globalPredTaken2) ||
    (!history.globalUsed && history.localPredTaken != history.globalPredTaken2)) &&
  (history.globalPredTaken2 == taken || (history.globalPredTaken == taken || history.localPredTaken == taken))

/-- `update` at commit: the choice, global, gshare and local counters. The gshare
table is indexed without the address. -/
def updateCommitted (taken : Bool) (history : BPHistory) : Result (State p) := do
  let old_local_pred_valid := history.localHistory ≠ invalidPredictorIndex
  let old_local_pred_index := history.localHistory &&& p.localPredictorMask
  require (old_local_pred_index < p.localPredictorSize)
  let choice_predictor_idx := history.globalHistory &&& p.choiceHistoryMask
  let choiceCtrs ← Table.modifyIf
    (history.localPredTaken ≠ history.globalPredTaken ∧ old_local_pred_valid) s.choiceCtrs
    choice_predictor_idx.toNat
    (SatCounter.trainChoice history.localPredTaken history.globalPredTaken taken)
  let choice_predictor_idx2 := history.globalHistory2 &&& p.choiceHistoryMask2
  let choiceCtrs2 ← Table.modifyIf (history.trainsChoice2 taken) s.choiceCtrs2
    choice_predictor_idx2.toNat (SatCounter.train (history.globalPredTaken2 == taken))
  let global_predictor_idx := history.globalHistory &&& p.globalHistoryMask
  let global_predictor_idx2 := history.globalHistory2 &&& p.globalHistoryMask2
  let globalCtrs ← Table.modify s.globalCtrs global_predictor_idx.toNat (SatCounter.train taken)
  let globalCtrs2 ← Table.modify s.globalCtrs2 global_predictor_idx2.toNat (SatCounter.train taken)
  let localCtrs ← Table.modifyIf old_local_pred_valid s.localCtrs old_local_pred_index.toNat (SatCounter.train taken)
  .ok { s with choiceCtrs, choiceCtrs2, globalCtrs, globalCtrs2, localCtrs }

def update (branch_addr : Addr) (taken : Bool) (history : BPHistory) (squashed : Bool) : Result (State p) := do
  let local_history_idx := p.calcLocHistIdx branch_addr
  require (local_history_idx < p.localHistoryTableSize)
  let s := updateAdditionalStats p s taken history
  if squashed then updateSquashed p s tid local_history_idx taken history
  else updateCommitted p s taken history

def squash (history : BPHistory) : Result (State p) := do
  let localHistoryTable ← Table.writeIf (history.localHistoryIdx ≠ invalidPredictorIndex)
    s.localHistoryTable history.localHistoryIdx.toNat history.localHistory
  .ok { s with
    globalHistory := Function.update s.globalHistory tid history.globalHistory
    globalHistory2 := Function.update s.globalHistory2 tid history.globalHistory2
    localHistoryTable }

/-- `GTriTournamentBP` behind the interface of `BPredUnit`. -/
def predictor : DirectionPredictor (State p) BPHistory where
  lookup := lookup p
  uncondBranch s tid _ := .ok (uncondBranch p s tid)
  btbUpdate s tid branch_addr _ := btbUpdate p s tid branch_addr
  update := update p
  squash := squash p
  getGHR _ _ history := .ok history.globalHistory

end Gem5.GTriTournamentBP
