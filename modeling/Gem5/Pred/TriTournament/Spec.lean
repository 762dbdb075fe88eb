import Gem5.Pred.TriTournament.Model

open Lib Result BitVec Table

namespace Gem5.TriTournamentBP

/-- The parameter sets on which no `fatal` of the constructor is reached. -/
structure Accepted (p : Params) : Prop where
  localPredictorSize : isPowerOf2 p.localPredictorSize = true
  localPredictorSize2 : isPowerOf2 p.localPredictorSize2 = true
  globalPredictorSize : isPowerOf2 p.globalPredictorSize = true
  localHistoryTableSize : isPowerOf2 p.localHistoryTableSize = true
  localHistoryTableSize2 : isPowerOf2 p.localHistoryTableSize2 = true
  choicePredictorSize : isPowerOf2 p.choicePredictorSize = true
  globalHistoryMask : p.globalHistoryMask ≤ p.historyRegisterMask
  choiceHistoryMask : p.choiceHistoryMask ≤ p.historyRegisterMask
  choiceHistoryMask2 : p.choiceHistoryMask2 ≤ p.historyRegisterMask

theorem construct_eq_ok_iff : construct p = .ok s ↔ Accepted p ∧ s = State.initial p := by
  simp only [construct, bind_eq_ok_iff, fatalIf_eq_ok_iff, Except.ok.injEq,
    Bool.not_eq_false', gt_iff_lt, decide_eq_false_iff_not, BitVec.not_lt]
  constructor
  · rintro ⟨-, h₁, -, h₂, -, h₃, -, h₄, -, h₅, -, h₆, -, h₇, -, h₈, -, h₉, rfl⟩
    exact ⟨⟨h₁, h₂, h₃, h₄, h₅, h₆, h₇, h₈, h₉⟩, rfl⟩
  · rintro ⟨⟨h₁, h₂, h₃, h₄, h₅, h₆, h₇, h₈, h₉⟩, rfl⟩
    exact ⟨(), h₁, (), h₂, (), h₃, (), h₄, (), h₅, (), h₆, (), h₇, (), h₈, (), h₉, rfl⟩

namespace Params

variable {p : Params} (hp : Accepted p)
include hp

theorem calcLocHistIdx_lt (branch_addr : Addr) : (p.calcLocHistIdx branch_addr).toNat < p.localHistoryTableSize.toNat :=
  Gem5.calcLocHistIdx_lt (ne_zero_of_isPowerOf2 hp.localHistoryTableSize) _ _

theorem calcLocHistIdx2_lt (branch_addr : Addr) :
    (p.calcLocHistIdx2 branch_addr).toNat < p.localHistoryTableSize2.toNat :=
  Gem5.calcLocHistIdx_lt (ne_zero_of_isPowerOf2 hp.localHistoryTableSize2) _ _

section

variable (history : Unsigned)
include history

theorem localPredictorIdx_lt : (history &&& p.localPredictorMask).toNat < p.localPredictorSize.toNat :=
  and_mask32_lt hp.localPredictorSize history

theorem localPredictorIdx2_lt : (history &&& p.localPredictorMask2).toNat < p.localPredictorSize2.toNat :=
  and_mask32_lt hp.localPredictorSize2 history

theorem globalPredictorIdx_lt : (history &&& p.globalHistoryMask).toNat < p.globalPredictorSize.toNat :=
  and_pred_lt (ne_zero_of_isPowerOf2 hp.globalPredictorSize) history

theorem choicePredictorIdx_lt : (history &&& p.choiceHistoryMask).toNat < p.choicePredictorSize.toNat :=
  and_pred_lt (ne_zero_of_isPowerOf2 hp.choicePredictorSize) history

end

/-- The register of an accepted predictor is too narrow for an empty second
choice table, whose mask has all bits. -/
theorem choicePredictorSize2_ne_zero : p.choicePredictorSize2 ≠ 0 := by
  intro hzero
  have hbits : p.globalHistoryBits ≤ 31 := by
    unfold globalHistoryBits
    split
    · exact ceilLog2_le_of_isPowerOf2 hp.globalPredictorSize
    · exact ceilLog2_le_of_isPowerOf2 hp.choicePredictorSize
  have hle := le_def.mp hp.choiceHistoryMask2
  rw [choiceHistoryMask2, hzero, historyRegisterMask, mask32_toNat (by omega)] at hle
  have hall : (0 - 1 : Unsigned).toNat = 2 ^ 32 - 1 := by decide
  have hpow := Nat.pow_le_pow_right (by decide : 0 < 2) hbits
  omega

theorem choicePredictorIdx2_lt (history : Unsigned) :
    (history &&& p.choiceHistoryMask2).toNat < p.choicePredictorSize2.toNat :=
  and_pred_lt (choicePredictorSize2_ne_zero hp) history

end Params

/-- A history object names entries of the local history tables, or none. -/
def BPHistory.InTables (p : Params) (h : BPHistory) : Prop :=
  (h.localHistoryIdx ≠ invalidPredictorIndex → h.localHistoryIdx.toNat < p.localHistoryTableSize.toNat) ∧
    (h.localHistoryIdx2 ≠ invalidPredictorIndex →
      h.localHistoryIdx2.toNat < p.localHistoryTableSize2.toNat)

/-- A commit that moves a counter of the second choice table finds it inside. -/
def Choice2IndexFits (p : Params) (taken : Bool) (h : BPHistory) : Prop :=
  h.trainsChoice2 taken = true →
    (h.globalHistory &&& p.choiceHistoryMask).toNat < p.choicePredictorSize2.toNat

/-- A second choice table that is at least as large as the first one is never
trained past its end. -/
theorem choice2IndexFits_of_le (hp : Accepted p) (hle : p.choicePredictorSize ≤ p.choicePredictorSize2) (taken : Bool)
    (h : BPHistory) : Choice2IndexFits p taken h := by
  intro _
  exact Nat.lt_of_lt_of_le (Params.choicePredictorIdx_lt hp _) (le_def.mp hle)

theorem inTables_preserved {p : Params} (hp : Accepted p) :
    (predictor p).Preserves (fun _ => True) (BPHistory.InTables p) where
  lookup _ h := by
    obtain ⟨_, _, _, _, _, -, -, -, -, -, h⟩ := bind₅_eq_ok_iff.mp h
    obtain ⟨_, _, _, _, _, -, -, -, -, -, ⟨⟩⟩ := bind₅_eq_ok_iff.mp h
    exact ⟨trivial, fun _ => Params.calcLocHistIdx_lt hp _, fun _ => Params.calcLocHistIdx2_lt hp _⟩
  uncondBranch _ h := by
    cases h
    exact ⟨trivial, fun hvalid => absurd rfl hvalid, fun hvalid => absurd rfl hvalid⟩
  btbUpdate _ _ _ := trivial
  update _ _ _ := trivial
  squash _ _ _ := trivial

/-- No method faults, except for a commit that trains the second choice table
past its end. -/
theorem predictor_total {p : Params} (hp : Accepted p) :
    (predictor p).Total (fun _ => True) (BPHistory.InTables p) (Choice2IndexFits p) where
  lookup {s} tid pc _ := by
    have hidx := Params.calcLocHistIdx_lt hp pc
    have hidx2 := Params.calcLocHistIdx2_lt hp pc
    exact ⟨_, _, _, bind₅_eq_ok_iff.mpr ⟨_, _, _, _, _, read_of_lt _ hidx,
      read_of_lt _ (Params.localPredictorIdx_lt hp _), read_of_lt _ hidx2,
      read_of_lt _ (Params.localPredictorIdx2_lt hp _),
      read_of_lt _ (Params.globalPredictorIdx_lt hp _), bind₅_eq_ok_iff.mpr ⟨_, _, _, _, _,
        read_of_lt _ (Params.choicePredictorIdx_lt hp _), read_of_lt _ (Params.choicePredictorIdx2_lt hp _),
        require_of_lt hidx, modify_of_lt _ hidx _, modify_of_lt _ hidx2 _, rfl⟩⟩⟩
  uncondBranch tid pc _ := ⟨_, _, rfl⟩
  btbUpdate tid pc _ _ :=
    ⟨_, bind_eq_ok_iff.mpr ⟨_, modify_of_lt _ (Params.calcLocHistIdx_lt hp pc) _,
      bind_of_ok (modify_of_lt _ (Params.calcLocHistIdx2_lt hp pc) _) _⟩⟩
  update {s h} tid pc taken squashed _ hh hguard := by
    have hidx := Params.calcLocHistIdx_lt hp pc
    have hidx2 := Params.calcLocHistIdx2_lt hp pc
    cases squashed with
    | true =>
      exact ⟨_, bind_eq_ok_iff.mpr ⟨(), require_of_lt hidx,
        bind_eq_ok_iff.mpr ⟨(), require_of_lt hidx2,
          bind_eq_ok_iff.mpr ⟨_, writeIf_of_lt hidx, bind_of_ok (writeIf_of_lt hidx2) _⟩⟩⟩⟩
    | false =>
      have hlocal := Params.localPredictorIdx_lt hp h.localHistory
      have hlocal2 := Params.localPredictorIdx2_lt hp h.localHistory2
      exact ⟨_, bind₅_eq_ok_iff.mpr ⟨_, _, _, _, _, require_of_lt hidx,
        require_of_lt hidx2, require_of_lt hlocal,
        require_of_lt hlocal2, modifyIf_of_lt (Params.choicePredictorIdx_lt hp _),
        bind₃_eq_ok_iff.mpr ⟨_, _, _, (exists_modifyIf (hguard rfl)).choose_spec,
          modify_of_lt _ (Params.globalPredictorIdx_lt hp _) _, modifyIf_of_lt hlocal,
          bind_of_ok (modifyIf_of_lt hlocal2) _⟩⟩⟩
  squash tid _ hh :=
    ⟨_, bind_eq_ok_iff.mpr ⟨_, (exists_writeIf (by simpa using hh.1)).choose_spec,
      bind_of_ok (exists_writeIf (by simpa using hh.2)).choose_spec _⟩⟩

end Gem5.TriTournamentBP
