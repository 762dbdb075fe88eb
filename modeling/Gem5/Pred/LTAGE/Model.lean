import Gem5.Pred.DirectionPredictor
import Gem5.Pred.LTAGE.History

open Lib

namespace Gem5.LTAGE

/-- An entry of the loop predictor. -/
structure LoopEntry where
  numIter : BitVec 16
  currentIter : BitVec 16
  currentIterSpec : BitVec 16
  confidence : BitVec 8
  tag : BitVec 16
  age : BitVec 8
  dir : Bool
  deriving DecidableEq

structure BimodalEntry where
  pred : BitVec 8
  hyst : BitVec 8
  deriving DecidableEq

/-- An entry of a tagged table. The counters `ctr` and `u` are signed. -/
structure TageEntry where
  ctr : BitVec 8
  tag : BitVec 16
  u : BitVec 8
  deriving DecidableEq

def LoopEntry.initial : LoopEntry := ⟨0, 0, 0, 0, 0, 0, false⟩

def BimodalEntry.initial : BimodalEntry := ⟨0, 1⟩

def TageEntry.initial : TageEntry := ⟨0, 0, 0⟩

namespace Params

variable (p : Params)

def btableSize : Nat := (shl (1 : BitVec 64) p.logSizeBiMP.toNat).toNat

def ltableSize : Nat := (shl (1 : BitVec 64) p.logSizeLoopPred.toNat).toNat

def gtableSize (bank : Nat) : Nat := (shlInt (1 : BitVec 32) (p.tagTableSizes bank)).toNat

/-- `(ULL(1) << bits) - 1`. -/
def lowBits (bits : Int) : BitVec 64 := shlInt 1 bits - 1

def bindex (pc_in : Addr) : BitVec 32 := (pc_in &&& (shl 1 p.logSizeBiMP.toNat - 1)).setWidth 32

def lindex (pc_in : Addr) : BitVec 32 :=
  ((pc_in &&& (shl 1 (p.logSizeLoopPred - 2).toNat - 1)) <<< 2).setWidth 32

/-- `F`, in the arithmetic of `int`. -/
def F (A : BitVec 32) (size : Int) (bank : Nat) : BitVec 32 :=
  let tableSize := p.tagTableSizes bank
  let A := (A.signExtend 64 &&& lowBits size).setWidth 32
  let A1 := (A.signExtend 64 &&& lowBits tableSize).setWidth 32
  let A2 := sarInt A tableSize
  let A2 := (((shlInt A2 bank).signExtend 64 &&& lowBits tableSize) +
    (sarInt A2 (tableSize - bank)).signExtend 64).setWidth 32
  let A := A1 ^^^ A2
  (((shlInt A bank).signExtend 64 &&& lowBits tableSize) + (sarInt A (tableSize - bank)).signExtend 64).setWidth 32

/-- `gindex` with the folded history and the path history that it reads. -/
def gindex (comp : Unsigned) (pathHist : BitVec 32) (pc : Addr) (bank : Nat) : BitVec 32 :=
  let hlen : Nat := if p.histLengths bank > 16 then 16 else p.histLengths bank
  let index : BitVec 32 :=
    (pc ^^^ shrInt pc (|p.tagTableSizes bank - bank| + 1) ^^^ comp.setWidth 64 ^^^
      (p.F pathHist hlen bank).signExtend 64).setWidth 32
  (index.signExtend 64 &&& lowBits (p.tagTableSizes bank)).setWidth 32

/-- `gtag` with the folded histories that it reads. -/
def gtag (comp0 comp1 : Unsigned) (pc : Addr) (bank : Nat) : BitVec 16 :=
  let tag : BitVec 32 := (pc ^^^ comp0.setWidth 64 ^^^ (comp1 <<< 1).setWidth 64).setWidth 32
  (tag.signExtend 64 &&& lowBits (p.tagWidths bank)).setWidth 16

end Params

/-- The fields of a predictor object that its methods change. `random_mt` has the
numbers that the generator is going to draw. -/
structure State (p : Params) where
  btable : Vector BimodalEntry p.btableSize
  gtable : (bank : Nat) → Vector TageEntry (p.gtableSize bank)
  ltable : Vector LoopEntry p.ltableSize
  threadHistory : ThreadID → ThreadHistory p
  loopUseCounter : BitVec 8
  useAltPredForNewlyAllocated : BitVec 8
  tCounter : BitVec 32
  random_mt : Nat → BitVec 32

/-- What is recorded about a branch. The entries of bank `i + 1` are those at `i`;
the arrays are not set for unconditional branches. -/
structure BranchInfo (p : Params) where
  saved : SavedHistory p
  hitBank : Nat
  hitBankIndex : BitVec 32
  altBank : Nat
  altBankIndex : BitVec 32
  bimodalIndex : BitVec 32
  loopTag : BitVec 32
  currentIter : BitVec 16
  tagePred : Bool
  altTaken : Bool
  loopPred : Bool
  loopPredValid : Bool
  loopIndex : BitVec 32
  loopHit : Int
  condBranch : Bool
  longestMatchPred : Bool
  pseudoNewAlloc : Bool
  tableIndices : Vector (BitVec 32) p.nHistoryTables
  tableTags : Vector (BitVec 16) p.nHistoryTables

def logTick : Nat := 19

def State.initial (p : Params) (random_mt : Nat → BitVec 32) : State p where
  btable := .replicate _ .initial
  gtable _ := .replicate _ .initial
  ltable := .replicate _ .initial
  threadHistory _ := .initial p
  loopUseCounter := 0
  useAltPredForNewlyAllocated := 0
  tCounter := shl 1 (logTick - 1)
  random_mt := random_mt

/-- The constructor. The initialization of the folded histories divides by their
compressed lengths. -/
def construct (p : Params) (random_mt : Nat → BitVec 32) : Result (State p) := do
  Result.require (p.histBufferSize > p.maxHist * 2)
  if ∀ i < p.nHistoryTables, p.tagTableSizes (i + 1) ≠ 0 ∧ p.tagWidths (i + 1) ≠ 0 ∧ p.tagWidths (i + 1) - 1 ≠ 0 then
    .ok (.initial p random_mt)
  else .error .divisionByZero

/-- A `BranchInfo` as `predict` creates it. -/
def BranchInfo.initial (p : Params) (condBranch : Bool) : BranchInfo p where
  saved := .initial p
  hitBank := 0
  hitBankIndex := 0
  altBank := 0
  altBankIndex := 0
  bimodalIndex := 0
  loopTag := 0
  currentIter := 0
  tagePred := false
  altTaken := false
  loopPred := false
  loopPredValid := false
  loopIndex := 0
  loopHit := -1
  condBranch := condBranch
  longestMatchPred := false
  pseudoNewAlloc := false
  tableIndices := .replicate _ 0
  tableTags := .replicate _ 0

namespace State

variable {p : Params}

def setHistory (s : State p) (tid : ThreadID) (tHist : ThreadHistory p) : State p :=
  { s with threadHistory := Function.update s.threadHistory tid tHist }

/-- `gtable[bank][index]`. -/
def entry (s : State p) (bank : Nat) (index : BitVec 32) : Result TageEntry :=
  Table.read (s.gtable bank) index.toNat

def modifyEntry (s : State p) (bank : Nat) (index : BitVec 32) (f : TageEntry → TageEntry) : Result (State p) := do
  let table ← Table.modify (s.gtable bank) index.toNat f
  .ok { s with gtable := Function.update s.gtable bank table }

/-- The next number of the generator. -/
def draw (s : State p) : BitVec 32 × State p :=
  (s.random_mt 0, { s with random_mt := fun count => s.random_mt (count + 1) })

end State

/-- `ctrUpdate` of a signed counter of `nbits` bits. -/
def ctrUpdate (ctr : BitVec 8) (taken : Bool) (nbits : Unsigned) : Result (BitVec 8) := do
  Result.require (nbits ≤ 8)
  let bound : BitVec 32 := shl 1 (nbits - 1).toNat
  .ok (if taken then if ctr.toInt < (bound - 1).toInt then ctr + 1 else ctr
    else if ctr.toInt > (-bound).toInt then ctr - 1 else ctr)

section

variable (p : Params) (s : State p)

variable (tid : ThreadID) (bi : BranchInfo p)

def getBimodePred : Result Bool := do
  let entry ← Table.read s.btable bi.bimodalIndex.toNat
  .ok (entry.pred > 0)

def baseUpdate (taken : Bool) (bi : BranchInfo p) : Result (State p) := do
  let btable ← Table.modify s.btable bi.bimodalIndex.toNat fun entry =>
    let inter := entry.pred.toNat * 2 + entry.hyst.toNat
    let inter := if taken then if inter < 3 then inter + 1 else inter else inter - 1
    ⟨.ofNat 8 (inter / 2), .ofNat 8 (inter % 2)⟩
  .ok { s with btable }

/-- The loop of `getLoop` over the entries of a set, from entry `i` on. -/
def findLoop (loopIndex loopTag : BitVec 32) : List Nat → Result (Option (Nat × LoopEntry))
  | [] => .ok none
  | i :: later => do
    let entry ← Table.read s.ltable (loopIndex.toNat + i)
    if entry.tag.setWidth 32 = loopTag then .ok (some (i, entry)) else findLoop loopIndex loopTag later

/-- `getLoop`, which returns the prediction and fills in the `BranchInfo`. -/
def getLoop (pc : Addr) (bi : BranchInfo p) : Result (Bool × BranchInfo p) := do
  let loopIndex := p.lindex pc
  let loopTag : BitVec 32 := (shr pc (p.logSizeLoopPred - 2).toNat).setWidth 32
  let bi := { bi with loopHit := -1, loopPredValid := false, loopIndex, loopTag }
  match ← findLoop p s loopIndex loopTag [0, 1, 2, 3] with
  | none => .ok (false, bi)
  | some (i, entry) =>
    .ok (if entry.currentIterSpec.toNat + 1 = entry.numIter.toNat then !entry.dir else entry.dir,
      { bi with loopHit := i, loopPredValid := entry.confidence ≥ 3, currentIter := entry.currentIterSpec })

/-- `specLoopUpdate`, which works on the first entry of the set, whichever one
was hit. -/
def specLoopUpdate (pc : Addr) (taken : Bool) (bi : BranchInfo p) : Result (State p) :=
  if bi.loopHit ≥ 0 then do
    let ltable ← Table.modify s.ltable (p.lindex pc).toNat fun entry =>
      { entry with currentIterSpec := if taken ≠ entry.dir then 0 else entry.currentIterSpec + 1 }
    .ok { s with ltable }
  else .ok s

/-- What `loopUpdate` makes of the entry of a hit. -/
def LoopEntry.loopUpdate (entry : LoopEntry) (taken loopPredValid loopPred tagePred : Bool) : LoopEntry :=
  if loopPredValid ∧ taken ≠ loopPred then
    { entry with numIter := 0, age := 0, confidence := 0, currentIter := 0 }
  else
    let entry := if loopPredValid ∧ loopPred ≠ tagePred ∧
      entry.age < 7 then { entry with age := entry.age + 1 } else entry
    let entry := { entry with currentIter := entry.currentIter + 1 }
    let entry :=
      if entry.currentIter > entry.numIter then
        if entry.numIter ≠ 0 then { entry with numIter := 0, age := 0, confidence := 0 }
        else { entry with confidence := 0 }
      else entry
    if taken ≠ entry.dir then
      let entry :=
        if entry.currentIter = entry.numIter then
          let entry := if entry.confidence < 7 then { entry with confidence := entry.confidence + 1 } else entry
          if entry.numIter < 3 then { entry with dir := taken, numIter := 0, age := 0, confidence := 0 } else entry
        else if entry.numIter = 0 then { entry with confidence := 0, numIter := entry.currentIter }
        else { entry with numIter := 0, age := 0, confidence := 0 }
      { entry with currentIter := 0 }
    else entry

/-- The loop of `loopUpdate` that allocates an entry, from the `i`-th try on. -/
def allocateLoop (taken : Bool) (bi : BranchInfo p) (nrand : BitVec 32) :
    List Nat → Vector LoopEntry p.ltableSize → Result (Vector LoopEntry p.ltableSize)
  | [], ltable => .ok ltable
  | i :: later, ltable => do
    let loop_hit := (nrand + BitVec.ofNat 32 i) &&& 3
    let idx := bi.loopIndex.toNat + loop_hit.toNat
    let entry ← Table.read ltable idx
    if entry.age = 0 then
      Table.write ltable idx { entry with
        dir := !taken, tag := bi.loopTag.setWidth 16, numIter := 0, age := 7, confidence := 0, currentIter := 1 }
    else do
      let ltable ← Table.write ltable idx { entry with age := entry.age - 1 }
      allocateLoop taken bi nrand later ltable

def loopUpdate (taken : Bool) (bi : BranchInfo p) : Result (State p) :=
  if bi.loopHit ≥ 0 then do
    let ltable ← Table.modify s.ltable (bi.loopIndex.toNat + bi.loopHit.toNat) fun entry =>
      entry.loopUpdate taken bi.loopPredValid bi.loopPred bi.tagePred
    .ok { s with ltable }
  else if taken then do
    let (nrand, s) := s.draw
    let ltable ← allocateLoop p taken bi nrand [0, 1, 2, 3] s.ltable
    .ok { s with ltable }
  else .ok s

/-- The longest bank from the given one down that holds the tag of the branch,
0 if none does. -/
def findBank (bi : BranchInfo p) : Nat → Result Nat
  | 0 => .ok 0
  | i + 1 => do
    let index ← Table.read bi.tableIndices i
    let tag ← Table.read bi.tableTags i
    let entry ← s.entry (i + 1) index
    if entry.tag = tag then .ok (i + 1) else findBank bi i

/-- `tableIndices[bank]`, which is not set where there is no bank. -/
def bankIndex : Nat → Result (BitVec 32)
  | 0 => .ok 0
  | i + 1 => Table.read bi.tableIndices i

/-- `abs(2 * ctr + 1) <= 1`: the counter of a newly allocated entry is weak. -/
def weak (ctr : BitVec 8) : Bool := |2 * ctr.toInt + 1| ≤ 1

/-- The TAGE prediction of `predict`. -/
def tagePredict (pc : Addr) (bi : BranchInfo p) : Result (BranchInfo p) := do
  let tHist := s.threadHistory tid
  let bi := { bi with
    tableIndices := .ofFn fun i => p.gindex tHist.computeIndices[i].comp tHist.pathHist pc (i + 1)
    tableTags := .ofFn fun i => p.gtag tHist.computeTags0[i].comp tHist.computeTags1[i].comp pc (i + 1)
    bimodalIndex := p.bindex pc }
  let hitBank ← findBank p s bi p.nHistoryTables
  let hitBankIndex ← bankIndex p bi hitBank
  let altBank ← findBank p s bi (hitBank - 1)
  let altBankIndex ← bankIndex p bi altBank
  let bi := { bi with hitBank, hitBankIndex, altBank, altBankIndex }
  if hitBank > 0 then do
    let altTaken ← (if altBank > 0 then do
        let entry ← s.entry altBank altBankIndex
        .ok (entry.ctr.toInt ≥ 0)
      else getBimodePred p s bi : Result Bool)
    let entry ← s.entry hitBank hitBankIndex
    let longestMatchPred : Bool := entry.ctr.toInt ≥ 0
    let tagePred := if s.useAltPredForNewlyAllocated.toInt < 0 ∨
      weak entry.ctr = false then longestMatchPred else altTaken
    .ok { bi with altTaken, longestMatchPred, pseudoNewAlloc := weak entry.ctr, tagePred }
  else do
    let altTaken ← getBimodePred p s bi
    .ok { bi with altTaken, tagePred := altTaken, longestMatchPred := altTaken }

/-- `predict`, which returns the prediction and the `BranchInfo`. -/
def predict (branch_pc : Addr) (cond_branch : Bool) : Result (Bool × BranchInfo p × State p) := do
  let bi := BranchInfo.initial p cond_branch
  let (pred_taken, bi) ← (if cond_branch then do
      let bi ← tagePredict p s tid branch_pc bi
      let (loopPred, bi) ← getLoop p s branch_pc bi
      let bi := { bi with loopPred }
      .ok (if s.loopUseCounter.toInt ≥ 0 ∧ bi.loopPredValid then bi.loopPred else bi.tagePred, bi)
    else .ok (true, bi) : Result (Bool × BranchInfo p))
  let s ← specLoopUpdate p s branch_pc pred_taken bi
  .ok (pred_taken, bi, s)

/-- The smallest `u` of the entries of the branch in the banks above `hitBank`,
from the given one down, if it is below `min`. -/
def minUseful (bi : BranchInfo p) : Nat → BitVec 8 → Result (BitVec 8)
  | 0, min => .ok min
  | i + 1, min =>
    if i + 1 > bi.hitBank then do
      let index ← Table.read bi.tableIndices i
      let entry ← s.entry (i + 1) index
      minUseful bi i (if entry.u.toInt < min.toInt then entry.u else min)
    else .ok min

/-- The loop of `update` that allocates entries, over the given banks. It goes on
after the first one. -/
def allocate (taken : Bool) (bi : BranchInfo p) : List Nat → State p → Result (State p)
  | [], s => .ok s
  | bank :: later, s => do
    let index ← bankIndex p bi bank
    let tag ← Table.read bi.tableTags (bank - 1)
    let s ← s.modifyEntry bank index fun entry =>
      if entry.u = 0 then { entry with tag, ctr := if taken then 0 else -1, u := 0 } else entry
    allocate taken bi later s

/-- The bank from which on `update` allocates, chosen among the next three. -/
def firstBank (nrand : BitVec 32) : Nat :=
  let Y := nrand.signExtend 64 &&& Params.lowBits (p.nHistoryTables - bi.hitBank - 1)
  bi.hitBank + 1 + (if Y &&& 1 ≠ 0 then if Y &&& 2 ≠ 0 then 2 else 1 else 0)

/-- The allocation in `update` after a misprediction. -/
def allocateEntries (taken : Bool) (bi : BranchInfo p) (nrand : BitVec 32) : Result (State p) := do
  let min ← minUseful p s bi p.nHistoryTables 1
  let X := firstBank p bi nrand
  let s ← (if min.toInt > 0 then do
      let index ← bankIndex p bi X
      s.modifyEntry X index fun entry => { entry with u := 0 }
    else .ok s : Result (State p))
  allocate p taken bi (List.range' X (p.nHistoryTables + 1 - X)) s

/-- The periodic reset of the `u` counters. -/
def resetUseful : State p :=
  let s := { s with tCounter := s.tCounter + 1 }
  if s.tCounter.signExtend 64 &&& (shl 1 logTick - 1) = 0 then
    { s with gtable := fun bank =>
        if 1 ≤ bank ∧ bank ≤ p.nHistoryTables then
          (s.gtable bank).map fun entry => { entry with u := entry.u.sshiftRight 1 }
        else s.gtable bank }
  else s

/-- Training of the counters that provided the prediction. -/
def trainProviders (taken longest_match_pred : Bool) (bi : BranchInfo p) : Result (State p) :=
  if bi.hitBank > 0 then do
    let entry ← s.entry bi.hitBank bi.hitBankIndex
    let ctr ← ctrUpdate entry.ctr taken p.tagTableCounterBits
    let s ← s.modifyEntry bi.hitBank bi.hitBankIndex fun entry => { entry with ctr }
    let s ← (if entry.u = 0 then
        if bi.altBank > 0 then do
          let entry ← s.entry bi.altBank bi.altBankIndex
          let ctr ← ctrUpdate entry.ctr taken p.tagTableCounterBits
          s.modifyEntry bi.altBank bi.altBankIndex fun entry => { entry with ctr }
        else baseUpdate p s taken bi
      else .ok s : Result (State p))
    if longest_match_pred ≠ bi.altTaken ∧ longest_match_pred = taken then
      s.modifyEntry bi.hitBank bi.hitBankIndex fun entry =>
        if entry.u.toInt < 1 then { entry with u := entry.u + 1 } else entry
    else .ok s
  else baseUpdate p s taken bi

/-- `update` at commit for a conditional branch. -/
def updateTables (taken : Bool) (bi : BranchInfo p) (nrand : BitVec 32) : Result (State p) := do
  let s ← loopUpdate p s taken bi
  let loopUseCounter ← (if bi.loopPredValid ∧ bi.tagePred ≠ bi.loopPred then
      ctrUpdate s.loopUseCounter (bi.loopPred == taken) 7
    else .ok s.loopUseCounter : Result (BitVec 8))
  let s := { s with loopUseCounter }
  let longest_match_pred := bi.hitBank > 0 && bi.longestMatchPred
  let newAlloc := bi.hitBank > 0 && bi.pseudoNewAlloc
  let alloc := bi.tagePred ≠ taken ∧ bi.hitBank < p.nHistoryTables ∧ ¬(newAlloc ∧ longest_match_pred = taken)
  let useAltPredForNewlyAllocated ← (if newAlloc ∧ longest_match_pred ≠ bi.altTaken then
      ctrUpdate s.useAltPredForNewlyAllocated (bi.altTaken == taken) 4
    else .ok s.useAltPredForNewlyAllocated : Result (BitVec 8))
  let s := { s with useAltPredForNewlyAllocated }
  let s ← (if alloc then allocateEntries p s taken bi nrand else .ok s : Result (State p))
  trainProviders p (resetUseful p s) taken longest_match_pred bi

/-- The loop predictor gets the iteration back that it had before the branch. -/
def restoreIter : Result (State p) :=
  if bi.condBranch ∧ bi.loopHit ≥ 0 then do
    let ltable ← Table.modify s.ltable (bi.loopIndex.toNat + bi.loopHit.toNat) fun entry =>
      { entry with currentIterSpec := bi.currentIter }
    .ok { s with ltable }
  else .ok s

def lookup (branch_pc : Addr) : Result (Bool × BranchInfo p × State p) := do
  let (retval, bi, s) ← predict p s tid branch_pc true
  let (saved, tHist) ← (s.threadHistory tid).updateHistories branch_pc retval
  Result.require (tHist.gHist == tHist.ptGhist)
  .ok (retval, { bi with saved }, s.setHistory tid tHist)

def uncondBranch (br_pc : Addr) : Result (BranchInfo p × State p) := do
  let (_, bi, s) ← predict p s tid br_pc false
  let (saved, tHist) ← (s.threadHistory tid).updateHistories br_pc true
  Result.require (tHist.gHist == tHist.ptGhist)
  .ok ({ bi with saved }, s.setHistory tid tHist)

def btbUpdate (tid : ThreadID) (bi : BranchInfo p) : Result (State p) := do
  let tHist ← (s.threadHistory tid).btbUpdate bi.saved
  .ok (s.setHistory tid tHist)

/-- `squash(tid, taken, bp_history)`, by which `update` corrects a branch. -/
def squashTaken (taken : Bool) (bi : BranchInfo p) : Result (State p) := do
  let tHist ← (s.threadHistory tid).squash taken bi.saved
  restoreIter p (s.setHistory tid tHist) bi

def update (taken : Bool) (bi : BranchInfo p) (squashed : Bool) : Result (State p) :=
  if squashed then squashTaken p s tid taken bi
  else
    let (nrand, s) := s.draw
    if bi.condBranch then updateTables p s taken bi (nrand &&& 3) else .ok s

/-- `getGHR`, from the position in the `BranchInfo` on. It asserts that each
outcome is inside of the buffer. -/
def getGHR : Result Unsigned :=
  (List.range 32).foldlM (fun val i => do
    let gh_offset := bi.saved.ptGhist + i
    Result.require (gh_offset < p.histBufferSize.toNat)
    let outcome ← Table.read (s.threadHistory tid).globalHistory gh_offset
    .ok (val ||| word outcome <<< i)) 0

end

/-- `LTAGE` behind the interface of `BPredUnit`. -/
def predictor (p : Params) : DirectionPredictor (State p) (BranchInfo p) where
  lookup := lookup p
  uncondBranch := uncondBranch p
  btbUpdate s tid _ bi := btbUpdate p s tid bi
  update s tid _ taken bi squashed := update p s tid taken bi squashed
  squash s _ bi := restoreIter p s bi
  getGHR s tid bi := getGHR p s tid bi

/-- One bank, with a history of one outcome in a buffer of four. -/
def smallParams : Params where
  logSizeBiMP := 1
  logSizeTagTables := 3
  logSizeLoopPred := 2
  nHistoryTables := 1
  tagTableCounterBits := 3
  histBufferSize := 4
  maxHist := 1
  minTagWidth := 3
  histLengths _ := 1
  nHistoryTables_le := by decide

end Gem5.LTAGE
