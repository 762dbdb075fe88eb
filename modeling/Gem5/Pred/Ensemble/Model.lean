import Gem5.Pred.DirectionPredictor
import Gem5.Pred.Ensemble.Voting
import Gem5.Pred.History

open Lib Lib.ShiftRegister Result
open Gem5.Ensemble

namespace Gem5.EnsembleBP

def MAX_WEIGHT_SUM : Nat := 12

def WEIGHT_COUNTER_SIZE : Nat := 4

/-- The parameters of `EnsembleBP` that its code reads. -/
structure Params where
  localPredictorSize : Unsigned
  localCtrBits : Unsigned
  localHistoryTableSize : Unsigned
  globalPredictorSize : Unsigned
  globalCtrBits : Unsigned
  gsharePredictorSize : Unsigned
  gshareCtrBits : Unsigned
  instShiftAmt : Unsigned
  deriving DecidableEq

namespace Params

variable (p : Params)

def localHistoryBits : Nat := ceilLog2 p.localPredictorSize

def globalHistoryBits : Nat := ceilLog2 p.globalPredictorSize

def localPredictorMask : Unsigned := mask32 p.localHistoryBits

def globalHistoryMask : Unsigned := p.globalPredictorSize - 1

def historyRegisterMask : Unsigned := mask32 p.globalHistoryBits

def localThreshold : Unsigned := ctrThreshold p.localCtrBits

def globalThreshold : Unsigned := ctrThreshold p.globalCtrBits

def gshareThreshold : Unsigned := ctrThreshold p.gshareCtrBits

def calcLocHistIdx (branch_addr : Addr) : Unsigned :=
  Gem5.calcLocHistIdx p.instShiftAmt p.localHistoryTableSize branch_addr

/-- `gshare_predictor_idx`, which is masked for the global table. -/
def gsharePredictorIdx (history : Unsigned) (branch_addr : Addr) : Unsigned :=
  gshareIdx p.instShiftAmt p.globalHistoryMask history branch_addr

end Params

/-- The fields of a predictor object that its methods change. -/
structure State (p : Params) where
  localCtrs : Vector SatCounter p.localPredictorSize.toNat
  localHistoryTable : Vector Unsigned p.localHistoryTableSize.toNat
  globalCtrs : Vector SatCounter p.globalPredictorSize.toNat
  globalHistory : ThreadID → Unsigned
  gshareCtrs : Vector SatCounter p.gsharePredictorSize.toNat
  localWeight : SatCounter
  globalWeight : SatCounter
  gshareWeight : SatCounter
  stats : ExpertStats

structure BPHistory where
  globalHistory : Unsigned
  localHistoryIdx : Unsigned
  localHistory : Unsigned
  localPredTaken : Bool
  globalPredTaken : Bool
  gsharePredTaken : Bool
  finalPrediction : Bool
  deriving DecidableEq

def BPHistory.votes (h : BPHistory) : Experts Bool :=
  ⟨h.gsharePredTaken, h.globalPredTaken, h.localPredTaken⟩

namespace State

variable {p : Params}

def weights (s : State p) : Experts SatCounter := ⟨s.gshareWeight, s.globalWeight, s.localWeight⟩

def setWeights (s : State p) (w : Experts SatCounter) : State p :=
  { s with gshareWeight := w.gshare, globalWeight := w.global, localWeight := w.third }

/-- The object as the constructor leaves it. -/
def initial (p : Params) : State p where
  localCtrs := .replicate _ (.setBits p.localCtrBits.toNat)
  localHistoryTable := .replicate _ 0
  globalCtrs := .replicate _ (.setBits p.globalCtrBits.toNat)
  globalHistory := fun _ => 0
  gshareCtrs := .replicate _ (.setBits p.gshareCtrBits.toNat)
  localWeight := .setBits WEIGHT_COUNTER_SIZE
  globalWeight := .setBits WEIGHT_COUNTER_SIZE
  gshareWeight := .setBits WEIGHT_COUNTER_SIZE
  stats := {}

end State

variable (p : Params) (s : State p) (tid : ThreadID)

/-- The constructor. A fatal error ends the simulation with its message. -/
def construct : Except String (State p) := do
  fatalIf (!isPowerOf2 p.localPredictorSize) "Invalid local predictor size!\n"
  fatalIf (!isPowerOf2 p.globalPredictorSize) "Invalid global predictor size!\n"
  fatalIf (!isPowerOf2 p.gsharePredictorSize) "Invalid global predictor size!\n"
  fatalIf (!isPowerOf2 p.localHistoryTableSize) "Invalid local history table size!\n"
  fatalIf (p.globalHistoryMask > p.historyRegisterMask)
    "Global predictor too large for global history bits!\n"
  .ok (State.initial p)

def updateGlobalHistTaken : State p :=
  { s with globalHistory :=
      Function.update s.globalHistory tid (shiftIn p.historyRegisterMask (s.globalHistory tid) true) }

def btbUpdate (branch_addr : Addr) : Result (State p) := do
  let local_history_idx := p.calcLocHistIdx branch_addr
  let localHistoryTable ← Table.modify s.localHistoryTable local_history_idx.toNat (clearNewest p.localPredictorMask)
  .ok { s with
    globalHistory := Function.update s.globalHistory tid
      (clearNewest p.historyRegisterMask (s.globalHistory tid))
    localHistoryTable }

/-- The table reads of `lookup`: the local predictor index and the votes of the
three experts. -/
def readExperts (branch_addr : Addr) : Result (Unsigned × Experts Bool) := do
  let local_history_idx := p.calcLocHistIdx branch_addr
  let local_history ← Table.read s.localHistoryTable local_history_idx.toNat
  let local_predictor_idx := local_history &&& p.localPredictorMask
  let local_ctr ← Table.read s.localCtrs local_predictor_idx.toNat
  let global_ctr ← Table.read s.globalCtrs (s.globalHistory tid &&& p.globalHistoryMask).toNat
  let gshare_predictor_idx := p.gsharePredictorIdx (s.globalHistory tid) branch_addr
  let gshare_ctr ← Table.read s.gshareCtrs gshare_predictor_idx.toNat
  require (gshare_predictor_idx < p.globalPredictorSize)
  .ok (local_predictor_idx,
    { gshare := p.gshareThreshold.toNat < gshare_ctr.read
      global := p.globalThreshold.toNat < global_ctr.read
      third := local_ctr.read > p.localThreshold.toNat })

/-- The histories are left as they are; only the verdict is computed. -/
def lookup (branch_addr : Addr) : Result (Bool × BPHistory × State p) := do
  let local_history_idx := p.calcLocHistIdx branch_addr
  let (local_predictor_idx, votes) ← readExperts p s tid branch_addr
  require (local_history_idx < p.localHistoryTableSize)
  let history : BPHistory :=
    { globalHistory := s.globalHistory tid
      localHistoryIdx := local_history_idx
      localHistory := local_predictor_idx
      localPredTaken := votes.third
      globalPredTaken := votes.global
      gsharePredTaken := votes.gshare
      finalPrediction := verdict votes s.weights }
  .ok (history.finalPrediction, history, s)

def uncondBranch : BPHistory × State p :=
  ({ globalHistory := s.globalHistory tid
     localHistoryIdx := invalidPredictorIndex
     localHistory := invalidPredictorIndex
     localPredTaken := true
     globalPredTaken := true
     gsharePredTaken := true
     finalPrediction := true },
    updateGlobalHistTaken p s tid)

/-- `update` with `squashed` set: the histories are restored and updated again. -/
def updateSquashed (local_history_idx : Unsigned) (taken : Bool) (history : BPHistory) : Result (State p) := do
  let old_local_pred_valid := history.localHistory ≠ invalidPredictorIndex
  let localHistoryTable ← Table.writeIf old_local_pred_valid s.localHistoryTable
    local_history_idx.toNat (shiftLocal history.localHistory taken)
  .ok { s with
    globalHistory := Function.update s.globalHistory tid
      (shiftIn p.historyRegisterMask history.globalHistory taken)
    localHistoryTable }

/-- `update` at commit: statistics, weights and counters. The gshare index is
formed with the history register as it is now. -/
def updateCommitted (branch_addr : Addr) (taken : Bool) (history : BPHistory) : Result (State p) := do
  let old_local_pred_valid := history.localHistory ≠ invalidPredictorIndex
  let old_local_pred_index := history.localHistory &&& p.localPredictorMask
  require (old_local_pred_index < p.localPredictorSize)
  let global_predictor_idx := history.globalHistory &&& p.globalHistoryMask
  let gshare_predictor_idx := p.gsharePredictorIdx (s.globalHistory tid) branch_addr
  let stats := updateAdditionalStats taken history.finalPrediction history.localPredTaken
    history.votes s.weights s.stats
  let weights := learn MAX_WEIGHT_SUM history.finalPrediction taken history.votes s.weights
  let globalCtrs ← Table.modify s.globalCtrs global_predictor_idx.toNat (SatCounter.train taken)
  let gshareCtrs ← Table.modify s.gshareCtrs gshare_predictor_idx.toNat (SatCounter.train taken)
  let localCtrs ← Table.modifyIf old_local_pred_valid s.localCtrs old_local_pred_index.toNat (SatCounter.train taken)
  .ok ({ s with globalCtrs, gshareCtrs, localCtrs, stats }.setWeights weights)

def update (branch_addr : Addr) (taken : Bool) (history : BPHistory) (squashed : Bool) : Result (State p) := do
  let local_history_idx := p.calcLocHistIdx branch_addr
  require (local_history_idx < p.localHistoryTableSize)
  if squashed then updateSquashed p s tid local_history_idx taken history
  else updateCommitted p s tid branch_addr taken history

def squash (history : BPHistory) : Result (State p) := do
  let localHistoryTable ← Table.writeIf (history.localHistoryIdx ≠ invalidPredictorIndex)
    s.localHistoryTable history.localHistoryIdx.toNat history.localHistory
  .ok { s with
    globalHistory := Function.update s.globalHistory tid history.globalHistory
    localHistoryTable }

/-- `EnsembleBP` behind the interface of `BPredUnit`. -/
def predictor : DirectionPredictor (State p) BPHistory where
  lookup := lookup p
  uncondBranch s tid _ := .ok (uncondBranch p s tid)
  btbUpdate s tid branch_addr _ := btbUpdate p s tid branch_addr
  update := update p
  squash := squash p
  getGHR _ _ history := .ok history.globalHistory

end Gem5.EnsembleBP
