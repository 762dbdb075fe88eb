import Gem5.Pred.GTriTournament.Model

open Lib Result Lib.ShiftRegister Table

namespace Gem5.GTriTournamentBP

/-- The parameter sets on which no `fatal` of the constructor is reached. -/
structure Accepted (p : Params) : Prop where
  localPredictorSize : isPowerOf2 p.localPredictorSize = true
  globalPredictorSize : isPowerOf2 p.globalPredictorSize = true
  localHistoryTableSize : isPowerOf2 p.localHistoryTableSize = true
  choicePredictorSize : isPowerOf2 p.choicePredictorSize = true
  globalHistoryMask : p.globalHistoryMask ≤ p.historyRegisterMask
  globalHistoryMask2 : p.globalHistoryMask2 ≤ p.historyRegisterMask2
  choiceHistoryMask : p.choiceHistoryMask ≤ p.historyRegisterMask
  choiceHistoryMask2 : p.choiceHistoryMask2 ≤ p.historyRegisterMask
  choiceHistoryMask_register2 : p.choiceHistoryMask ≤ p.historyRegisterMask2
  choiceHistoryMask2_register2 : p.choiceHistoryMask2 ≤ p.historyRegisterMask2

theorem construct_eq_ok_iff : construct p = .ok s ↔ Accepted p ∧ s = State.initial p := by
  simp only [construct, bind_eq_ok_iff, fatalIf_eq_ok_iff, Except.ok.injEq, Bool.or_self,
    Bool.not_eq_false', gt_iff_lt, decide_eq_false_iff_not, BitVec.not_lt]
  constructor
  · rintro ⟨-, h₁, -, h₂, -, h₃, -, h₄, -, h₅, -, h₆, -, h₇, -, h₈, -, h₉, -, h₁₀, rfl⟩
    exact ⟨⟨h₁, h₂, h₃, h₄, h₅, h₆, h₇, h₈, h₉, h₁₀⟩, rfl⟩
  · rintro ⟨⟨h₁, h₂, h₃, h₄, h₅, h₆, h₇, h₈, h₉, h₁₀⟩, rfl⟩
    exact ⟨(), h₁, (), h₂, (), h₃, (), h₄, (), h₅, (), h₆, (), h₇, (), h₈, (), h₉, (), h₁₀, rfl⟩

theorem historyBits_le (global choice choice2 : Unsigned) : historyBits global choice choice2 ≤ 32 := by
  have := ceilLog2_le global
  have := ceilLog2_le choice
  have := ceilLog2_le choice2
  unfold historyBits
  split_ifs <;> assumption

namespace Params

variable {p : Params}

theorem historyRegisterMask_isLowMask (p : Params) : IsLowMask p.historyRegisterMask p.globalHistoryBits :=
  mask32_isLowMask (historyBits_le _ _ _)

theorem historyRegisterMask2_isLowMask (p : Params) : IsLowMask p.historyRegisterMask2 p.globalHistoryBits2 :=
  mask32_isLowMask (historyBits_le _ _ _)

theorem calcLocHistIdx_lt (hp : Accepted p) (branch_addr : Addr) :
    (p.calcLocHistIdx branch_addr).toNat < p.localHistoryTableSize.toNat :=
  Gem5.calcLocHistIdx_lt (ne_zero_of_isPowerOf2 hp.localHistoryTableSize) _ _

theorem localPredictorIdx_lt (hp : Accepted p) (history : Unsigned) :
    (history &&& p.localPredictorMask).toNat < p.localPredictorSize.toNat :=
  and_mask32_lt hp.localPredictorSize history

theorem globalPredictorIdx_lt (hp : Accepted p) (history : Unsigned) :
    (history &&& p.globalHistoryMask).toNat < p.globalPredictorSize.toNat :=
  and_pred_lt (ne_zero_of_isPowerOf2 hp.globalPredictorSize) history

theorem choicePredictorIdx_lt (hp : Accepted p) (history : Unsigned) :
    (history &&& p.choiceHistoryMask).toNat < p.choicePredictorSize.toNat :=
  and_pred_lt (ne_zero_of_isPowerOf2 hp.choicePredictorSize) history

theorem gshareReadIdx_lt (h : p.globalPredictorSize2 ≠ 0) (history2 : Unsigned) (branch_addr : Addr) :
    (p.gshareReadIdx history2 branch_addr).toNat < p.globalPredictorSize2.toNat :=
  gshareIdx_lt h _ _ _

end Params

/-- A history object names an entry of the local history table, or none. -/
def BPHistory.InTable (p : Params) (h : BPHistory) : Prop :=
  h.localHistoryIdx ≠ invalidPredictorIndex → h.localHistoryIdx.toNat < p.localHistoryTableSize.toNat

theorem inTable_preserved {p : Params} (hp : Accepted p) :
    (predictor p).Preserves (fun _ => True) (BPHistory.InTable p) where
  lookup _ h := by
    obtain ⟨_, _, _, _, _, -, -, -, -, -, h⟩ := bind₅_eq_ok_iff.mp h
    obtain ⟨_, _, _, -, -, -, ⟨⟩⟩ := bind_ok₃ h
    exact ⟨trivial, fun _ => Params.calcLocHistIdx_lt hp _⟩
  uncondBranch _ h := by
    cases h
    exact ⟨trivial, fun hvalid => absurd rfl hvalid⟩
  btbUpdate _ _ _ := trivial
  update _ _ _ := trivial
  squash _ _ _ := trivial

/-- No method faults once the two tables whose sizes the constructor does not
check are not empty. -/
theorem predictor_total {p : Params} (hp : Accepted p) (hglobal : p.globalPredictorSize2 ≠ 0)
    (hchoice : p.choicePredictorSize2 ≠ 0) :
    (predictor p).Total (fun _ => True) (BPHistory.InTable p) (fun _ _ => True) where
  lookup {s} tid pc _ := by
    have hidx := Params.calcLocHistIdx_lt hp pc
    exact ⟨_, _, _, bind₅_eq_ok_iff.mpr ⟨_, _, _, _, _, read_of_lt _ hidx,
      read_of_lt _ (Params.localPredictorIdx_lt hp _),
      read_of_lt _ (Params.globalPredictorIdx_lt hp _),
      read_of_lt _ (Params.gshareReadIdx_lt hglobal _ pc),
      read_of_lt _ (Params.choicePredictorIdx_lt hp _),
      bind₃_eq_ok_iff.mpr ⟨_, _, _, read_of_lt _ (and_pred_lt hchoice _),
        require_of_lt hidx, modify_of_lt _ hidx _, rfl⟩⟩⟩
  uncondBranch tid pc _ := ⟨_, _, rfl⟩
  btbUpdate tid pc _ _ :=
    ⟨_, bind_of_ok (modify_of_lt _ (Params.calcLocHistIdx_lt hp pc) _) _⟩
  update {s h} tid pc taken squashed _ hh _ := by
    have hidx := Params.calcLocHistIdx_lt hp pc
    cases squashed with
    | true =>
      exact ⟨_, bind_eq_ok_iff.mpr ⟨(), require_of_lt hidx, bind_of_ok (writeIf_of_lt hidx) _⟩⟩
    | false =>
      have hlocal := Params.localPredictorIdx_lt hp h.localHistory
      exact ⟨_, bind₅_eq_ok_iff.mpr ⟨_, _, _, _, _, require_of_lt hidx,
        require_of_lt hlocal, modifyIf_of_lt (Params.choicePredictorIdx_lt hp _),
        modifyIf_of_lt (and_pred_lt hchoice _), modify_of_lt _ (Params.globalPredictorIdx_lt hp _) _,
        bind_eq_ok_iff.mpr ⟨_, modify_of_lt _ (and_pred_lt hglobal _) _, bind_of_ok (modifyIf_of_lt hlocal) _⟩⟩⟩
  squash tid _ hh :=
    ⟨_, bind_of_ok (exists_writeIf (by simpa [BPHistory.InTable] using hh)).choose_spec _⟩

end Gem5.GTriTournamentBP
