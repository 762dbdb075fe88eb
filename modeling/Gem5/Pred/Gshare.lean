import Gem5.Pred.Calls
import Gem5.Pred.History

open Lib Lib.ShiftRegister Result BitVec

namespace Gem5

namespace Gshare

/-- The parameters of `Gshare` that its code reads. -/
structure Params where
  choicePredictorSize : Unsigned
  choiceCtrBits : Unsigned
  globalPredictorSize : Unsigned
  globalCtrBits : Unsigned
  instShiftAmt : Unsigned

namespace Params

variable (p : Params)

def globalHistoryBits : Nat := ceilLog2 p.globalPredictorSize

def historyRegisterMask : Unsigned := mask32 p.globalHistoryBits

def globalHistoryMask : Unsigned := p.globalPredictorSize - 1

/-- `choiceThreshold`, `takenThreshold` and `notTakenThreshold`. All three are
computed from the width of the choice counters. -/
def threshold : Unsigned := ctrThreshold p.choiceCtrBits

def choiceHistoryIdx (branchAddr : Addr) : Unsigned :=
  calcLocHistIdx p.instShiftAmt p.choicePredictorSize branchAddr

def globalHistoryIdx (globalHistoryReg : Unsigned) (branchAddr : Addr) : Unsigned :=
  gshareIdx p.instShiftAmt p.globalHistoryMask globalHistoryReg branchAddr

end Params

/-- The fields of a predictor object that its methods change. -/
structure State (p : Params) where
  choiceCounters : Vector SatCounter p.choicePredictorSize.toNat
  takenCounters : Vector SatCounter p.globalPredictorSize.toNat
  notTakenCounters : Vector SatCounter p.globalPredictorSize.toNat
  globalHistoryReg : ThreadID → Unsigned

structure BPHistory where
  globalHistoryReg : Unsigned
  takenUsed : Bool
  takenPred : Bool
  notTakenPred : Bool
  finalPred : Bool

/-- The object as the constructor leaves it. -/
def State.initial (p : Params) : State p where
  choiceCounters := .replicate _ (.setBits p.choiceCtrBits.toNat)
  takenCounters := .replicate _ (.setBits p.globalCtrBits.toNat)
  notTakenCounters := .replicate _ (.setBits p.globalCtrBits.toNat)
  globalHistoryReg := fun _ => 0

def construct (p : Params) : Except String (State p) := do
  fatalIf (!isPowerOf2 p.choicePredictorSize) "Invalid choice predictor size.\n"
  fatalIf (!isPowerOf2 p.globalPredictorSize) "Invalid global history predictor size.\n"
  .ok (State.initial p)

variable {p : Params} (s : State p) (tid : ThreadID)

def State.setReg (value : Unsigned) : State p :=
  { s with globalHistoryReg := Function.update s.globalHistoryReg tid value }

def updateGlobalHistReg (taken : Bool) : State p :=
  s.setReg tid (shiftIn p.historyRegisterMask (s.globalHistoryReg tid) taken)

def uncondBranch : BPHistory × State p :=
  ({ globalHistoryReg := s.globalHistoryReg tid
     takenUsed := true
     takenPred := true
     notTakenPred := true
     finalPred := true },
    updateGlobalHistReg s tid true)

def squash (history : BPHistory) : State p :=
  s.setReg tid history.globalHistoryReg

/-- The choice counter of the address selects one of the two direction tables,
which are read at the same hashed index. -/
def lookup (branchAddr : Addr) : Result (Bool × BPHistory × State p) := do
  let choiceHistoryIdx := p.choiceHistoryIdx branchAddr
  let globalHistoryIdx := p.globalHistoryIdx (s.globalHistoryReg tid) branchAddr
  require (choiceHistoryIdx < p.choicePredictorSize)
  require (globalHistoryIdx < p.globalPredictorSize)
  let choice ← Table.read s.choiceCounters choiceHistoryIdx.toNat
  let taken ← Table.read s.takenCounters globalHistoryIdx.toNat
  let notTaken ← Table.read s.notTakenCounters globalHistoryIdx.toNat
  let choicePrediction : Bool := choice.read > p.threshold.toNat
  let takenGHBPrediction : Bool := taken.read > p.threshold.toNat
  let notTakenGHBPrediction : Bool := notTaken.read > p.threshold.toNat
  let finalPrediction := if choicePrediction then takenGHBPrediction else notTakenGHBPrediction
  let history : BPHistory :=
    { globalHistoryReg := s.globalHistoryReg tid
      takenUsed := choicePrediction
      takenPred := takenGHBPrediction
      notTakenPred := notTakenGHBPrediction
      finalPred := finalPrediction }
  .ok (finalPrediction, history, updateGlobalHistReg s tid finalPrediction)

def btbUpdate : State p :=
  s.setReg tid (clearNewest p.historyRegisterMask (s.globalHistoryReg tid))

/-- `update` at commit. The choice counter is not trained when the table it did
not stand for predicted the branch correctly. -/
def updateCommitted (branchAddr : Addr) (taken : Bool) (history : BPHistory) : Result (State p) := do
  let choiceHistoryIdx := p.choiceHistoryIdx branchAddr
  let globalHistoryIdx := p.globalHistoryIdx history.globalHistoryReg branchAddr
  require (choiceHistoryIdx < p.choicePredictorSize)
  require (globalHistoryIdx < p.globalPredictorSize)
  let takenCounters ← Table.modifyIf (history.takenUsed = true) s.takenCounters globalHistoryIdx.toNat
    (SatCounter.train taken)
  let notTakenCounters ← Table.modifyIf (history.takenUsed = false) s.notTakenCounters globalHistoryIdx.toNat
    (SatCounter.train taken)
  let choiceCounters ← Table.modifyIf (history.finalPred ≠ taken ∨ history.finalPred = history.takenUsed)
    s.choiceCounters choiceHistoryIdx.toNat (SatCounter.train taken)
  .ok { s with choiceCounters, takenCounters, notTakenCounters }

/-- A correction shifts the saved register without truncating it. -/
def update (branchAddr : Addr) (taken : Bool) (history : BPHistory) (squashed : Bool) : Result (State p) :=
  if squashed then .ok (s.setReg tid (shiftLocal history.globalHistoryReg taken))
  else updateCommitted s branchAddr taken history

variable {s} {tid}

/-- `Gshare` behind the interface of `BPredUnit`. -/
def predictor (p : Params) : DirectionPredictor (State p) BPHistory where
  lookup := lookup
  uncondBranch s tid _ := .ok (uncondBranch s tid)
  btbUpdate s tid _ _ := .ok (btbUpdate s tid)
  update := update
  squash s tid history := .ok (squash s tid history)
  getGHR _ _ history := .ok history.globalHistoryReg

end Gshare

/-- `BiModeBP`, of which `Gshare` is a copy. -/
def BiModeBP.predictor (p : Gshare.Params) : DirectionPredictor (Gshare.State p) Gshare.BPHistory := Gshare.predictor p

/-- `Yags`, another copy of it. -/
def Yags.predictor (p : Gshare.Params) : DirectionPredictor (Gshare.State p) Gshare.BPHistory := Gshare.predictor p

namespace Gshare

/-- The registers do not exceed their mask, and what `getGHR` hands to the
indirect predictor has no further significant bits. -/
def WithinMask {p : Params} (d : DirectionPredictor (State p) BPHistory) (m : Calls.State (State p) BPHistory) : Prop :=
  (∀ tid, m.predictor.globalHistoryReg tid ≤ p.historyRegisterMask) ∧
    m.histories.All fun h => ∀ tid, ∃ ghr, d.getGHR m.predictor tid h = .ok ghr ∧
      ghr.toNat < 2 ^ p.globalHistoryBits

/-- The guard under which a correction stays within the mask: one more outcome
fits behind those of the saved register. -/
def RoomToShift (p : Params) (m : Calls.State (State p) BPHistory) : Call → Prop
  | .update _ _ taken name true =>
    ∀ h, m.histories.get name = .ok h → 2 * h.globalHistoryReg.toNat + taken.toNat < 2 ^ p.globalHistoryBits
  | _ => True

theorem WithinMask.saved {m : Calls.State (State p) BPHistory} (h : WithinMask (predictor p) m)
    (hget : m.histories.get name = .ok history) :
    history.globalHistoryReg.toNat < 2 ^ p.globalHistoryBits := by
  obtain ⟨_, hghr, hlt⟩ := h.2 name history (Heap.get_eq_ok_iff.mp hget) 0
  cases hghr
  exact hlt

theorem shiftLocal_toNat (h : history.toNat < 2 ^ 31) (taken : Bool) :
    (shiftLocal history taken).toNat = 2 * history.toNat + taken.toNat := by
  have hbit : taken.toNat < 2 ^ 1 := Bool.toNat_lt taken
  simp only [shiftLocal, toNat_or, toNat_shiftLeft, toNat_setWidth, toNat_ofBool]
  rw [Nat.mod_eq_of_lt (by omega : taken.toNat < 2 ^ 32), Nat.shiftLeft_eq,
    Nat.mod_eq_of_lt (by omega : history.toNat * 2 ^ 1 < 2 ^ 32), ← Nat.shiftLeft_eq,
    ← Nat.shiftLeft_add_eq_or_of_lt hbit, Nat.shiftLeft_eq]
  omega

section Step

variable {p : Params} (hp : isPowerOf2 p.globalPredictorSize = true)
include hp

theorem le_mask_iff (value : Unsigned) : value ≤ p.historyRegisterMask ↔ value.toNat < 2 ^ p.globalHistoryBits := by
  have hbits : p.globalHistoryBits ≤ 31 := ceilLog2_le_of_isPowerOf2 hp
  have hpos := Nat.two_pow_pos p.globalHistoryBits
  rw [le_def, Params.historyRegisterMask, mask32_toNat (by omega)]
  omega

theorem withinMask_setReg_iff (h : WithinMask (predictor p) m) (tid : ThreadID) (value : Unsigned) :
    (∀ other, (m.predictor.setReg tid value).globalHistoryReg other ≤ p.historyRegisterMask) ↔
      value.toNat < 2 ^ p.globalHistoryBits := by
  rw [← le_mask_iff hp]
  constructor
  · intro hall
    simpa [State.setReg] using hall tid
  · intro hle other
    by_cases hother : other = tid
    · simpa [State.setReg, hother] using hle
    · simpa [State.setReg, hother] using h.1 other

theorem withinMask_step (m : Calls.State (State p) BPHistory) (c : Call) (o : Option Bool)
    (m' : Calls.State (State p) BPHistory) (h : WithinMask (predictor p) m)
    (hstep : (Calls.machine (predictor p)).step m c = .ok (o, m')) :
    WithinMask (predictor p) m' ↔ RoomToShift p m c := by
  have hset := withinMask_setReg_iff hp h
  have hreg : ∀ tid, (m.predictor.globalHistoryReg tid).toNat < 2 ^ p.globalHistoryBits :=
    fun tid => (le_mask_iff hp _).mp (h.1 tid)
  have hshift : ∀ tid taken, ∀ other,
      (updateGlobalHistReg m.predictor tid taken).globalHistoryReg other ≤ p.historyRegisterMask :=
    fun tid taken => (hset tid _).mpr ((le_mask_iff hp _).mp (shiftIn_le _ _ _))
  cases Calls.step_iff.mp hstep with
  | @lookup tid pc taken history s hcall =>
    refine iff_of_true ?_ trivial
    simp only [predictor, lookup, bind_eq_ok_iff] at hcall
    obtain ⟨-, -, -, -, choice, -, ctr, -, ctr', -, hdone⟩ := hcall
    cases hdone
    exact ⟨hshift tid _, h.2.alloc fun _ => ⟨_, rfl, hreg tid⟩⟩
  | @uncondBranch tid pc history s hcall =>
    cases hcall
    exact iff_of_true ⟨hshift tid true, h.2.alloc fun _ => ⟨_, rfl, hreg tid⟩⟩ trivial
  | @btbUpdate tid pc name history s hget hcall =>
    cases hcall
    exact iff_of_true ⟨(hset tid _).mpr ((le_mask_iff hp _).mp (clearNewest_le _ _)), h.2⟩ trivial
  | @update tid pc taken name squashed history s hget hcall =>
    cases squashed with
    | true =>
      cases hcall
      have hbits : p.globalHistoryBits ≤ 31 := ceilLog2_le_of_isPowerOf2 hp
      have hsaved : history.globalHistoryReg.toNat < 2 ^ 31 :=
        Nat.lt_of_lt_of_le (h.saved hget) (Nat.pow_le_pow_right (by decide) hbits)
      have hroom : RoomToShift p m (.update tid pc taken name true) ↔
          (shiftLocal history.globalHistoryReg taken).toNat < 2 ^ p.globalHistoryBits := by
        rw [shiftLocal_toNat hsaved]
        simp [RoomToShift, hget]
      rw [hroom, ← hset tid]
      exact ⟨fun hwithin => hwithin.1, fun hall => ⟨hall, h.2⟩⟩
    | false =>
      refine iff_of_true ?_ trivial
      simp only [predictor, update, updateCommitted, Bool.false_eq_true, if_false, bind_eq_ok_iff] at hcall
      obtain ⟨-, -, -, -, taken', -, notTaken, -, choice, -, hdone⟩ := hcall
      cases hdone
      exact ⟨h.1, h.2.free name⟩
  | @squash tid name history s hget hcall =>
    cases hcall
    exact iff_of_true ⟨(hset tid _).mpr (h.saved hget), h.2.free name⟩ trivial

end Step

/-- In every run of calls in any order on an accepted configuration of one of the
three predictors, the registers stay within their mask in every state exactly
when every correction finds the oldest bit of the register it restores
unused. -/
theorem globalHistoryReg_le_mask_iff (p : Params) (s : State p) (hs : construct p = .ok s)
    (d : DirectionPredictor (State p) BPHistory)
    (hd : d ∈ [Gshare.predictor p, BiModeBP.predictor p, Yags.predictor p]) (calls : List Call)
    (answers : List (Option Bool)) (last : Calls.State (State p) BPHistory)
    (hrun : (Calls.machine d).run (Calls.start s) calls = .ok (answers, last)) :
    (Calls.machine d).StatesAll (WithinMask d) (Calls.start s) calls ↔
      (Calls.machine d).StepsAll (RoomToShift p) (Calls.start s) calls := by
  obtain ⟨rfl, hp⟩ : s = State.initial p ∧ isPowerOf2 p.globalPredictorSize = true := by
    simp only [construct, bind_eq_ok_iff, fatalIf_eq_ok_iff, Bool.not_eq_false'] at hs
    obtain ⟨-, -, -, hp, hdone⟩ := hs
    cases hdone
    exact ⟨rfl, hp⟩
  have hsame : d = Gshare.predictor p := by simpa [BiModeBP.predictor, Yags.predictor] using hd
  subst hsame
  refine Machine.statesAll_iff_stepsAll (I := fun _ => True)
    (fun m c o m' _ h hstep => ⟨trivial, withinMask_step hp m c o m' h hstep⟩) trivial
    ⟨fun _ => BitVec.le_def.mpr (Nat.zero_le _), .empty _⟩ hrun

/-- Two bits of history. -/
def smallParams : Params where
  choicePredictorSize := 4
  choiceCtrBits := 2
  globalPredictorSize := 4
  globalCtrBits := 2
  instShiftAmt := 2

theorem globalHistoryReg_le_mask_of_first_correction :
    (Calls.machine (BiModeBP.predictor smallParams)).StatesAll (WithinMask (BiModeBP.predictor smallParams))
      (Calls.start (State.initial smallParams)) [.lookup 0 0, .update 0 0 true 0 true, .update 0 0 true 0 false] := by
  refine (globalHistoryReg_le_mask_iff smallParams _ rfl _ (by simp) _ _ _ rfl).mpr ?_
  refine ⟨trivial, fun _ _ h => ⟨?_, fun _ _ _ => ⟨trivial, fun _ _ _ => trivial⟩⟩⟩
  cases h
  intro h hget
  cases hget
  decide

/-- After two jumps the register is full. Correcting the branch behind them
shifts a third bit into it, and the history of the next jump hands it on. -/
theorem correction_exceeds_mask :
    ∃ s answers last, construct smallParams = .ok s ∧ (Calls.machine (predictor smallParams)).run (Calls.start s)
        [.uncondBranch 0 0, .uncondBranch 0 0, .lookup 0 0, .update 0 0 true 2 true, .uncondBranch 0 0] =
          .ok (answers, last) ∧ smallParams.historyRegisterMask = 3 ∧
      last.histories.get 3 >>= (predictor smallParams).getGHR last.predictor 0 = .ok 7 :=
  ⟨_, _, _, rfl, rfl, rfl, rfl⟩

end Gshare

end Gem5
