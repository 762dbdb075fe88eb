import Gem5.Pred.BPredUnit.Sequence
import Gem5.Pred.Tournament.Spec

open Lib Result Lib.ShiftRegister BitVec Table

namespace Gem5.TournamentBP

open BPredUnit (Fetched Predicts PredictorHistory predictAll tellsMiss)

variable {q : Params}

/-- The part of an entry of the local history table that `lookup` uses. -/
def State.localHistory (s : State q) (i : Fin q.localHistoryTableSize.toNat) : Unsigned :=
  s.localHistoryTable[i] &&& q.localPredictorMask

/-- A local history whose newest outcome is turned into not taken. -/
def cleared (local_history : Unsigned) : Unsigned := local_history &&& ~~~1#32

theorem cleared_cleared (local_history : Unsigned) : cleared (cleared local_history) = cleared local_history := by
  rw [cleared, cleared, BitVec.and_assoc, BitVec.and_self]

theorem cleared_eq_self_iff : cleared local_history = local_history ↔ local_history.getLsbD 0 = false := by
  rw [eq_of_getLsbD_eq_iff]
  simp only [cleared, getLsbD_and, getLsbD_not]
  constructor
  · intro h
    simpa using h 0 (by decide)
  · intro h i hi
    cases i with
    | zero => rw [h, Bool.false_and]
    | succ i => simp [hi]

theorem clearNewest_and (mask local_history : Unsigned) :
    clearNewest mask local_history &&& mask = cleared (local_history &&& mask) := by
  apply eq_of_getLsbD_eq
  intro i _
  simp only [clearNewest, cleared, getLsbD_and]
  cases local_history.getLsbD i <;> cases mask.getLsbD i <;> simp

section

variable {s s' : State q} {tid : ThreadID} {branch_addr : Addr} {taken : Bool} {history : BPHistory}

theorem State.localHistory_set (hindex : index < q.localHistoryTableSize.toNat)
    (htable : s'.localHistoryTable = s.localHistoryTable.set index value) (i : Fin q.localHistoryTableSize.toNat) :
    s'.localHistory i = if index = i then value &&& q.localPredictorMask else s.localHistory i := by
  simp only [State.localHistory, htable, Fin.getElem_fin, Vector.getElem_set]
  split <;> rfl

theorem State.localHistory_and (s : State q) (i : Fin q.localHistoryTableSize.toNat) :
    s.localHistory i &&& q.localPredictorMask = s.localHistory i := by
  rw [State.localHistory, BitVec.and_assoc, BitVec.and_self]

/-- A lookup saves the entry of its branch and changes no other. -/
theorem lookup_localHistory (h : lookup q s tid branch_addr = .ok (taken, history, s')) :
    history.localHistoryIdx = q.calcLocHistIdx branch_addr ∧ ∀ i : Fin q.localHistoryTableSize.toNat,
        if (q.calcLocHistIdx branch_addr).toNat = i then history.localHistory = s.localHistory i
        else s'.localHistory i = s.localHistory i := by
  obtain ⟨_, _, _, hread, -, -, h⟩ := bind_ok₃ h
  obtain ⟨_, _, table, -, -, hmodify, ⟨⟩⟩ := bind_ok₃ h
  obtain ⟨hindex, rfl⟩ := read_eq_ok_iff.mp hread
  obtain ⟨-, rfl⟩ := modify_eq_ok_iff.mp hmodify
  refine ⟨rfl, ?_⟩
  intro i
  split
  · rename_i heq
    simp only [State.localHistory, Fin.getElem_fin, heq]
  · rename_i hne
    rw [State.localHistory_set (s := s) hindex rfl i, if_neg hne]

theorem btbUpdate_localHistory (h : btbUpdate q s tid branch_addr = .ok s') (i : Fin q.localHistoryTableSize.toNat) :
    s'.localHistory i =
      if (q.calcLocHistIdx branch_addr).toNat = i then cleared (s.localHistory i) else s.localHistory i := by
  obtain ⟨table, hmodify, ⟨⟩⟩ := bind_ok h
  obtain ⟨hindex, rfl⟩ := modify_eq_ok_iff.mp hmodify
  rw [State.localHistory_set (s := s) hindex rfl i]
  split
  · rename_i heq
    simp only [State.localHistory, Fin.getElem_fin, ← heq]
    exact clearNewest_and q.localPredictorMask _
  · rfl

/-- Squashing a conditional branch writes the saved entry back. -/
theorem squash_localHistory (h : squash q s tid history = .ok s') (i : Fin q.localHistoryTableSize.toNat) :
    s'.localHistory i = if history.localHistoryIdx ≠ invalidPredictorIndex ∧ history.localHistoryIdx.toNat = i then
        history.localHistory &&& q.localPredictorMask else s.localHistory i := by
  obtain ⟨table, hwrite, ⟨⟩⟩ := bind_ok h
  by_cases hvalid : history.localHistoryIdx ≠ invalidPredictorIndex
  · rw [writeIf, if_pos (decide_eq_true hvalid)] at hwrite
    obtain ⟨hindex, rfl⟩ := write_eq_ok_iff.mp hwrite
    rw [State.localHistory_set (s := s) hindex rfl i]
    simp only [ne_eq, hvalid, not_false_eq_true, true_and]
  rw [writeIf, if_neg (by simpa using hvalid)] at hwrite
  cases hwrite
  rw [if_neg (fun hboth => hvalid hboth.1)]
  rfl

end

variable {PC Inst : Type} {p : BPredUnit.Params}

/-- Whether a sequence of branches loses the newest outcome in the entry `i` of
the local history table: an unconditional branch at that entry misses the BTB,
and no conditional branch before it has saved the entry. -/
def losesOutcome (q : Params) (isa : ISA PC Inst) {S H : Type} (u : BPredUnit.State p S H PC) (tid : ThreadID)
    (i : Nat) : List (Fetched PC Inst) → Bool
  | [] => false
  | b :: later =>
    if (q.calcLocHistIdx (isa.instAddr b.pc)).toNat = i then
      isa.isUncondCtrl b.inst &&
        (tellsMiss isa u b.inst b.pc tid true == .ok true || losesOutcome q isa u tid i later)
    else losesOutcome q isa u tid i later

section

variable {isa : ISA PC Inst} {tid : ThreadID} {u v : BPredUnit.State p (State q) BPHistory PC}

theorem losesOutcome_congr (hBTB : v.BTB = u.BTB) (i : Nat) (branches : List (Fetched PC Inst)) :
    losesOutcome q isa v tid i branches = losesOutcome q isa u tid i branches := by
  induction branches with
  | nil => rfl
  | cons b later ih => simp only [losesOutcome, tellsMiss, hBTB, ih]

/-- What predicting an unconditional branch does to the local histories. It
saves none of them. -/
theorem effect_localHistory_of_uncond {b : Fetched PC Inst} {record : PredictorHistory BPHistory PC}
    (h : BPredUnit.Effect (predictor q) isa u b.inst b.seqNum b.pc tid record s v)
    (huncond : isa.isUncondCtrl b.inst = true) : record.bpHistory.localHistoryIdx = invalidPredictorIndex ∧
      ∀ i : Fin q.localHistoryTableSize.toNat, v.predictor.localHistory i =
        if (q.calcLocHistIdx (isa.instAddr b.pc)).toNat = i ∧
          (tellsMiss isa u b.inst b.pc tid true == .ok true) = true then cleared (u.predictor.localHistory i)
        else u.predictor.localHistory i := by
  obtain ⟨htaken, hcall⟩ := BPredUnit.direction_of_uncond huncond h.direction
  obtain ⟨hhistory, rfl⟩ := Prod.mk.inj (Except.ok.inj hcall)
  refine ⟨hhistory ▸ rfl, ?_⟩
  intro i
  obtain ⟨told, htells, htold⟩ := h.told
  rw [htaken] at htells
  rw [htells]
  cases told with
  | true =>
    rw [btbUpdate_localHistory htold i]
    simp only [beq_self_eq_true, and_true]
    rfl
  | false =>
    rw [if_neg (fun hboth => absurd hboth.2 (by decide)), ← Except.ok.inj htold]
    rfl

/-- Predicting a conditional branch saves the one local history that it
changes. -/
theorem effect_localHistory_of_cond {b : Fetched PC Inst} {record : PredictorHistory BPHistory PC}
    (h : BPredUnit.Effect (predictor q) isa u b.inst b.seqNum b.pc tid record s v)
    (hcond : isa.isUncondCtrl b.inst = false) :
    record.bpHistory.localHistoryIdx = q.calcLocHistIdx (isa.instAddr b.pc) ∧ ∀ i : Fin q.localHistoryTableSize.toNat,
        if (q.calcLocHistIdx (isa.instAddr b.pc)).toNat = i then
          record.bpHistory.localHistory = u.predictor.localHistory i
        else v.predictor.localHistory i = u.predictor.localHistory i := by
  obtain ⟨hidx, hsaved⟩ := lookup_localHistory (BPredUnit.direction_of_cond hcond h.direction)
  refine ⟨hidx, ?_⟩
  intro i
  have hsaved := hsaved i
  split at hsaved
  · rename_i heq
    rw [if_pos heq]
    exact hsaved
  rename_i hne
  rw [if_neg hne, ← hsaved]
  obtain ⟨told, -, htold⟩ := h.told
  cases told with
  | true =>
    have hupdate := btbUpdate_localHistory htold i
    rw [if_neg hne] at hupdate
    exact hupdate
  | false => rw [← Except.ok.inj htold]

/-- Squashing a sequence of predictions gives each local history back, up to the
outcome that the sequence loses. -/
theorem squash_all_localHistory (hq : Accepted q) (h : Predicts (predictor q) isa tid u branches records v)
    (hsquash : records.reverse.foldlM (fun s record => squash q s tid record.bpHistory) v.predictor = .ok s)
    (i : Fin q.localHistoryTableSize.toNat) : s.localHistory i =
      if losesOutcome q isa u tid i branches then cleared (u.predictor.localHistory i)
      else u.predictor.localHistory i := by
  induction h generalizing s with
  | nil u =>
    cases hsquash
    rfl
  | @cons u u₁ v b later record records s₁ first rest ih =>
    -- The first branch is undone last, after the others gave back what it left.
    rw [List.reverse_cons, List.foldlM_append] at hsquash
    obtain ⟨s₂, hlater, hfirst⟩ := bind_ok hsquash
    rw [List.foldlM_cons] at hfirst
    obtain ⟨s₃, hfirst, hdone⟩ := bind_ok hfirst
    cases hdone
    have hrest := ih hlater
    rw [losesOutcome_congr first.BTB] at hrest
    have hundo := squash_localHistory hfirst i
    rw [losesOutcome]
    cases huncond : isa.isUncondCtrl b.inst with
    | true =>
      obtain ⟨hidx, hchanged⟩ := effect_localHistory_of_uncond first huncond
      rw [if_neg (fun hboth => hboth.1 hidx)] at hundo
      rw [hundo, hrest, hchanged i]
      by_cases heq : (q.calcLocHistIdx (isa.instAddr b.pc)).toNat = i
      · cases tellsMiss isa u b.inst b.pc tid true == .ok true <;>
          cases losesOutcome q isa u tid i later <;> simp [heq, cleared_cleared]
      · simp only [heq, false_and, if_false]
    | false =>
      obtain ⟨hidx, hsaved⟩ := effect_localHistory_of_cond first huncond
      have hvalid : record.bpHistory.localHistoryIdx ≠ invalidPredictorIndex := by
        rw [hidx]
        exact ne_invalidPredictorIndex_of_lt hq.localHistoryTableSize (Params.calcLocHistIdx_lt hq _)
      have hsaved := hsaved i
      rw [hundo]
      by_cases heq : (q.calcLocHistIdx (isa.instAddr b.pc)).toNat = i
      · rw [if_pos heq] at hsaved
        rw [if_pos ⟨hvalid, hidx ▸ heq⟩, if_pos heq, Bool.false_and, if_neg Bool.false_ne_true, hsaved,
          State.localHistory_and]
      · rw [if_neg heq] at hsaved
        rw [if_neg (fun hboth => heq (hidx ▸ hboth.2)), if_neg heq, hrest, hsaved]

end

/-- Squashing a sequence of predictions restores the local histories exactly when
every outcome that the sequence loses was not taken. -/
theorem squash_restores_local_histories_iff (q : Params) (s : State q) (hs : construct q = .ok s) (isa : ISA PC Inst)
    (p : BPredUnit.Params) (tid : ThreadID) (u v w : BPredUnit.State p (State q) BPHistory PC)
    (branches : List (Fetched PC Inst)) (sn : InstSeqNum)
    (hold : ∀ record ∈ u.predHist tid, record.seqNum ≤ sn) (hnew : ∀ b ∈ branches, sn < b.seqNum)
    (hpredict : predictAll (predictor q) isa tid u branches = .ok v)
    (hsquash : BPredUnit.squash (predictor q) v sn tid = .ok w) :
    (∀ i, w.predictor.localHistory i = u.predictor.localHistory i) ↔
      ∀ i : Fin q.localHistoryTableSize.toNat, losesOutcome q isa u tid i branches = true →
        (u.predictor.localHistory i).getLsbD 0 = false := by
  obtain ⟨hq, -⟩ := construct_eq_ok_iff.mp hs
  obtain ⟨records, hrecords⟩ := BPredUnit.predicts_of_predictAll hpredict
  obtain ⟨ras, s', -, hundone, rfl⟩ := BPredUnit.squash_effect hsquash
  rw [(hrecords.squash_all hold hnew).1] at hundone
  apply forall_congr'
  intro i
  have hlocal := squash_all_localHistory hq hrecords hundone i
  rw [hlocal]
  by_cases hloses : losesOutcome q isa u tid i branches = true
  · rw [if_pos hloses, cleared_eq_self_iff]
    exact ⟨fun h _ => h, fun h => h hloses⟩
  · rw [if_neg hloses]
    exact ⟨fun _ h => absurd h hloses, fun _ => rfl⟩

/-- A taken branch that is corrected and committed leaves its outcome in entry 0. -/
def takenRun : List (BPredUnit.Op SimplePCState StaticInst) :=
  [.predict BPredUnit.conditionalBranch 1 (.set 0), .squashMispredicted 1 (.set 64) true 0, .update 1]

/-- A conditional branch saves the entry before a jump at the same entry misses
the BTB. -/
theorem squash_restores_local_histories_saved_first : ∃ answers u v w,
      (BPredUnit.machine (predictor smallParams) alpha BPredUnit.smallParams 0).run
        (.initial alpha BPredUnit.smallParams (.initial smallParams)) takenRun = .ok (answers, u) ∧
      u.predictor.localHistory ⟨0, by decide⟩ = 1 ∧ predictAll (predictor smallParams) alpha 0 u
        [⟨BPredUnit.conditionalBranch, 2, .set 0⟩, ⟨BPredUnit.directJump, 3, .set 8⟩] = .ok v ∧
      BPredUnit.squash (predictor smallParams) v 1 0 = .ok w ∧
      ∀ i, w.predictor.localHistory i = u.predictor.localHistory i := by
  refine ⟨?answers, ?u, ?v, ?w, ?run, ?one, ?predict, ?squash,
    (squash_restores_local_histories_iff smallParams _ rfl alpha
    BPredUnit.smallParams 0 ?u ?v ?w _ 1 ?queue ?young ?predict ?squash).mpr ?kept⟩
  case run | one | predict | squash => rfl
  case queue => exact fun _ h => (by cases h)
  case young => exact List.forall_mem_cons.mpr ⟨by decide, List.forall_mem_singleton.mpr (by decide)⟩
  case kept => exact fun i hlost => absurd hlost (by revert i; decide)

/-- A jump at the same entry misses the BTB and is squashed: the outcome is
lost. -/
theorem squashed_jump_loses_local_outcome : ∃ answers u v w,
      (BPredUnit.machine (predictor smallParams) alpha BPredUnit.smallParams 0).run
        (.initial alpha BPredUnit.smallParams (.initial smallParams)) takenRun = .ok (answers, u) ∧
      predictAll (predictor smallParams) alpha 0 u [⟨BPredUnit.directJump, 2, .set 8⟩] = .ok v ∧
      BPredUnit.squash (predictor smallParams) v 1 0 = .ok w ∧
      w.predHist 0 = u.predHist 0 ∧ u.predictor.localHistory ⟨0, by decide⟩ = 1 ∧
        w.predictor.localHistory ⟨0, by decide⟩ = 0 :=
  ⟨_, _, _, _, rfl, rfl, rfl, rfl, rfl, rfl⟩

end Gem5.TournamentBP
