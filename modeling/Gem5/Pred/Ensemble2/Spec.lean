import Gem5.Pred.Ensemble2.Model

open Lib Result Lib.ShiftRegister BitVec Table
open Gem5.Ensemble

namespace Gem5.EnsembleBP2

/-- The parameter sets on which no `fatal` of the constructor is reached. -/
structure Accepted (p : Params) : Prop where
  localPredictorSize : isPowerOf2 p.localPredictorSize = true
  globalPredictorSize : isPowerOf2 p.globalPredictorSize = true
  gsharePredictorSize : isPowerOf2 p.gsharePredictorSize = true
  localHistoryTableSize : isPowerOf2 p.localHistoryTableSize = true
  globalHistoryMask : p.globalHistoryMask ≤ p.historyRegisterMask
  choiceHistoryMask : p.choiceHistoryMask ≤ p.historyRegisterMask

theorem construct_eq_ok_iff : construct p = .ok s ↔ Accepted p ∧ s = State.initial p := by
  simp only [construct, bind_eq_ok_iff, fatalIf_eq_ok_iff, Except.ok.injEq,
    Bool.not_eq_false', gt_iff_lt, decide_eq_false_iff_not, BitVec.not_lt]
  constructor
  · rintro ⟨-, h₁, -, h₂, -, h₃, -, h₄, -, h₅, -, h₆, rfl⟩
    exact ⟨⟨h₁, h₂, h₃, h₄, h₅, h₆⟩, rfl⟩
  · rintro ⟨⟨h₁, h₂, h₃, h₄, h₅, h₆⟩, rfl⟩
    exact ⟨(), h₁, (), h₂, (), h₃, (), h₄, (), h₅, (), h₆, rfl⟩

/-- A small accepted parameter set. -/
def smallParams : Params where
  localPredictorSize := 2
  localCtrBits := 2
  localHistoryTableSize := 2
  globalPredictorSize := 2
  globalCtrBits := 2
  gsharePredictorSize := 2
  gshareCtrBits := 2
  choicePredictorSize := 2
  choiceCtrBits := 2
  instShiftAmt := 2

namespace Params

variable {p : Params}

theorem globalHistoryBits_le (p : Params) : p.globalHistoryBits ≤ 32 := by
  unfold globalHistoryBits
  split <;> exact ceilLog2_le _

theorem historyRegisterMask_isLowMask (p : Params) : IsLowMask p.historyRegisterMask p.globalHistoryBits :=
  mask32_isLowMask p.globalHistoryBits_le

theorem calcLocHistIdx_lt (hp : Accepted p) (branch_addr : Addr) :
    (p.calcLocHistIdx branch_addr).toNat < p.localHistoryTableSize.toNat :=
  Gem5.calcLocHistIdx_lt (ne_zero_of_isPowerOf2 hp.localHistoryTableSize) _ _

theorem localPredictorIdx_lt (hp : Accepted p) (history : Unsigned) :
    (history &&& p.localPredictorMask).toNat < p.localPredictorSize.toNat :=
  and_mask32_lt hp.localPredictorSize history

theorem globalPredictorIdx_lt (hp : Accepted p) (history : Unsigned) :
    (history &&& p.globalHistoryMask).toNat < p.globalPredictorSize.toNat :=
  and_pred_lt (ne_zero_of_isPowerOf2 hp.globalPredictorSize) history

theorem choicePredictorIdx_lt (h : p.choicePredictorSize ≠ 0) (history : Unsigned) :
    (history &&& p.choiceHistoryMask).toNat < p.choicePredictorSize.toNat :=
  and_pred_lt h history

theorem gsharePredictorIdx_lt (hp : Accepted p) (history : Unsigned) (branch_addr : Addr) :
    (p.gsharePredictorIdx history branch_addr).toNat < p.globalPredictorSize.toNat :=
  gshareIdx_lt (ne_zero_of_isPowerOf2 hp.globalPredictorSize) _ _ _

/-- A local history that was masked by `lookup` is never the invalid one. -/
theorem localPredictorIdx_valid (hp : Accepted p) (history : Unsigned) :
    history &&& p.localPredictorMask ≠ invalidPredictorIndex :=
  ne_invalidPredictorIndex_of_lt hp.localPredictorSize (localPredictorIdx_lt hp history)

end Params

section Methods

variable {p : Params} {s s' : State p} {tid : ThreadID} {branch_addr : Addr} {taken : Bool}
  {h : BPHistory}

/-- What `lookup` stores for the branch. -/
def lookupHistory (p : Params) (s : State p) (tid : ThreadID) (branch_addr : Addr)
    (local_predictor_idx : Unsigned) (local_prediction : Bool) (votes : Experts Bool) : BPHistory where
  globalHistory := s.globalHistory tid
  localHistoryIdx := p.calcLocHistIdx branch_addr
  localHistory := local_predictor_idx
  localPredTaken := local_prediction
  globalPredTaken := votes.global
  tournamentPredTaken := votes.third
  gsharePredTaken := votes.gshare
  finalPrediction := verdict votes s.weights

theorem lookup_eq_ok_iff : lookup p s tid branch_addr = .ok (taken, h, s') ↔ ∃ idx local_prediction votes,
        readExperts p s tid branch_addr = .ok (idx, local_prediction, votes) ∧
        p.calcLocHistIdx branch_addr < p.localHistoryTableSize ∧
        h = lookupHistory p s tid branch_addr idx local_prediction votes ∧
        taken = verdict votes s.weights ∧ s' = s := by
  simp only [lookup, bind_eq_ok_iff, require_eq_ok_iff, decide_eq_true_eq]
  constructor
  · rintro ⟨⟨idx, local_prediction, votes⟩, hread, -, hlt, hdone⟩
    cases hdone
    exact ⟨idx, local_prediction, votes, hread, hlt, rfl, rfl, rfl⟩
  · rintro ⟨idx, local_prediction, votes, hread, hlt, rfl, rfl, rfl⟩
    exact ⟨(idx, local_prediction, votes), hread, (), hlt, rfl⟩

end Methods

/-- A history object names an entry of the local history table, or none. -/
def BPHistory.InTable (p : Params) (h : BPHistory) : Prop :=
  h.localHistoryIdx ≠ invalidPredictorIndex → h.localHistoryIdx.toNat < p.localHistoryTableSize.toNat

theorem inTable_preserved {p : Params} (hp : Accepted p) :
    (predictor p).Preserves (fun _ => True) (BPHistory.InTable p) where
  lookup _ h := by
    obtain ⟨idx, local_prediction, votes, -, -, rfl, -, -⟩ := lookup_eq_ok_iff.mp h
    exact ⟨trivial, fun _ => Params.calcLocHistIdx_lt hp _⟩
  uncondBranch _ h := by
    cases h
    exact ⟨trivial, fun hvalid => absurd rfl hvalid⟩
  btbUpdate _ _ _ := trivial
  update _ _ _ := trivial
  squash _ _ _ := trivial

/-- No method faults once the gshare table is at least as large as the global
one, for which its index is masked, and the choice table is not empty. -/
theorem predictor_total {p : Params} (hp : Accepted p)
    (hsize : p.globalPredictorSize ≤ p.gsharePredictorSize) (hchoice : p.choicePredictorSize ≠ 0) :
    (predictor p).Total (fun _ => True) (BPHistory.InTable p) (fun _ _ => True) where
  lookup {s} tid pc _ := by
    have hidx := Params.calcLocHistIdx_lt hp pc
    have hgshare := Params.gsharePredictorIdx_lt hp (s.globalHistory tid) pc
    exact ⟨_, _, _, lookup_eq_ok_iff.mpr ⟨_, _, _, bind₅_eq_ok_iff.mpr ⟨_, _, _, _, _,
      read_of_lt _ hidx, read_of_lt _ (Params.localPredictorIdx_lt hp _),
      read_of_lt _ (Params.globalPredictorIdx_lt hp _),
      read_of_lt _ (Params.choicePredictorIdx_lt hchoice _), require_of_lt hgshare,
      bind_of_ok (read_of_lt _ (Nat.lt_of_lt_of_le hgshare (le_def.mp hsize))) _⟩, lt_def.mpr hidx, rfl, rfl, rfl⟩⟩
  uncondBranch tid pc _ := ⟨_, _, rfl⟩
  btbUpdate tid pc _ _ :=
    ⟨_, bind_of_ok (modify_of_lt _ (Params.calcLocHistIdx_lt hp pc) _) _⟩
  update {s h} tid pc taken squashed _ hh _ := by
    have hidx := Params.calcLocHistIdx_lt hp pc
    cases squashed with
    | true => exact ⟨_, bind_eq_ok_iff.mpr ⟨(), require_of_lt hidx, bind_of_ok (writeIf_of_lt hidx) _⟩⟩
    | false =>
      have hlocal := Params.localPredictorIdx_lt hp h.localHistory
      have hgshare := Params.gsharePredictorIdx_lt hp (s.globalHistory tid) pc
      exact ⟨_, bind₅_eq_ok_iff.mpr ⟨_, _, _, _, _, require_of_lt hidx,
        require_of_lt hlocal, modifyIf_of_lt (and_pred_lt hchoice _),
        modify_of_lt _ (Params.globalPredictorIdx_lt hp _) _,
        modify_of_lt _ (Nat.lt_of_lt_of_le hgshare (le_def.mp hsize)) _,
        bind_of_ok (modifyIf_of_lt hlocal) _⟩⟩
  squash tid _ hh :=
    ⟨_, bind_of_ok (exists_writeIf (by simpa [BPHistory.InTable] using hh)).choose_spec _⟩

end Gem5.EnsembleBP2
