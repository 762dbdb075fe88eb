import Gem5.Pred.Tournament.Model

open Lib Result Lib.ShiftRegister Table

namespace Gem5.TournamentBP

/-- The parameter sets on which no `fatal` of the constructor is reached. -/
structure Accepted (p : Params) : Prop where
  localPredictorSize : isPowerOf2 p.localPredictorSize = true
  globalPredictorSize : isPowerOf2 p.globalPredictorSize = true
  localHistoryTableSize : isPowerOf2 p.localHistoryTableSize = true
  choicePredictorSize : isPowerOf2 p.choicePredictorSize = true
  globalHistoryMask : p.globalHistoryMask ≤ p.historyRegisterMask
  choiceHistoryMask : p.choiceHistoryMask ≤ p.historyRegisterMask

theorem construct_eq_ok_iff : construct p = .ok s ↔ Accepted p ∧ s = State.initial p := by
  simp only [construct, bind_eq_ok_iff, fatalIf_eq_ok_iff, Except.ok.injEq,
    Bool.not_eq_false', gt_iff_lt, decide_eq_false_iff_not, BitVec.not_lt]
  constructor
  · rintro ⟨-, h₁, -, h₂, -, h₃, -, h₄, -, h₅, -, h₆, rfl⟩
    exact ⟨⟨h₁, h₂, h₃, h₄, h₅, h₆⟩, rfl⟩
  · rintro ⟨⟨h₁, h₂, h₃, h₄, h₅, h₆⟩, rfl⟩
    exact ⟨(), h₁, (), h₂, (), h₃, (), h₄, (), h₅, (), h₆, rfl⟩

namespace Params

variable {p : Params}

theorem globalHistoryBits_le (p : Params) : p.globalHistoryBits ≤ 32 := by
  unfold globalHistoryBits
  split <;> exact ceilLog2_le _

theorem historyRegisterMask_isLowMask (p : Params) : IsLowMask p.historyRegisterMask p.globalHistoryBits :=
  mask32_isLowMask p.globalHistoryBits_le

variable (hp : Accepted p)
include hp

theorem calcLocHistIdx_lt (branch_addr : Addr) : (p.calcLocHistIdx branch_addr).toNat < p.localHistoryTableSize.toNat :=
  Gem5.calcLocHistIdx_lt (ne_zero_of_isPowerOf2 hp.localHistoryTableSize) _ _

variable (history : Unsigned)
include history

theorem localPredictorIdx_lt : (history &&& p.localPredictorMask).toNat < p.localPredictorSize.toNat :=
  and_mask32_lt hp.localPredictorSize history

theorem globalPredictorIdx_lt : (history &&& p.globalHistoryMask).toNat < p.globalPredictorSize.toNat :=
  and_pred_lt (ne_zero_of_isPowerOf2 hp.globalPredictorSize) history

theorem choicePredictorIdx_lt : (history &&& p.choiceHistoryMask).toNat < p.choicePredictorSize.toNat :=
  and_pred_lt (ne_zero_of_isPowerOf2 hp.choicePredictorSize) history

end Params

/-- A history object names an entry of the local history table, or none. -/
def BPHistory.InTable (p : Params) (h : BPHistory) : Prop :=
  h.localHistoryIdx ≠ invalidPredictorIndex → h.localHistoryIdx.toNat < p.localHistoryTableSize.toNat

/-- No method of an accepted predictor faults. -/
theorem predictor_total {p : Params} (hp : Accepted p) :
    (predictor p).Total (fun _ => True) (BPHistory.InTable p) (fun _ _ => True) where
  lookup {s} tid pc _ := by
    have hidx := Params.calcLocHistIdx_lt hp pc
    exact ⟨_, _, _, bind₃_eq_ok_iff.mpr ⟨_, _, _, read_of_lt _ hidx,
      read_of_lt _ (Params.localPredictorIdx_lt hp _), read_of_lt _ (Params.globalPredictorIdx_lt hp _),
      bind₃_eq_ok_iff.mpr ⟨_, _, _, read_of_lt _ (Params.choicePredictorIdx_lt hp _),
        require_of_lt hidx, modify_of_lt _ hidx _, rfl⟩⟩⟩
  uncondBranch tid pc _ := ⟨_, _, rfl⟩
  btbUpdate tid pc _ _ :=
    ⟨_, bind_of_ok (modify_of_lt _ (Params.calcLocHistIdx_lt hp pc) _) _⟩
  update {s h} tid pc taken squashed _ hh _ := by
    have hidx := Params.calcLocHistIdx_lt hp pc
    cases squashed with
    | true =>
      exact ⟨_, bind_eq_ok_iff.mpr ⟨(), require_of_lt hidx, bind_of_ok (writeIf_of_lt hidx) _⟩⟩
    | false =>
      have hlocal := Params.localPredictorIdx_lt hp h.localHistory
      exact ⟨_, bind₅_eq_ok_iff.mpr ⟨_, _, _, _, _, require_of_lt hidx,
        require_of_lt hlocal, modifyIf_of_lt (Params.choicePredictorIdx_lt hp _),
        modify_of_lt _ (Params.globalPredictorIdx_lt hp _) _, modifyIf_of_lt hlocal, rfl⟩⟩
  squash tid _ hh :=
    ⟨_, bind_of_ok (exists_writeIf (by simpa [BPHistory.InTable] using hh)).choose_spec _⟩

end Gem5.TournamentBP
