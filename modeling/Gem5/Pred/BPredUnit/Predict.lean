import Gem5.Pred.BPredUnit.Model

open Lib Result Function

namespace Gem5.BPredUnit

variable {S H PC Inst : Type} {p : Params}

variable {u : State p S H PC}

theorem construct_eq_ok_iff : construct isa p s = .ok u ↔
      isPowerOf2 p.BTBEntries = true ∧ isPowerOf2 p.indirectSets = true ∧ u = .initial isa p s := by
  simp only [construct, bind_eq_ok_iff, DefaultBTB.construct_eq_ok_iff, IndirectPredictor.construct_eq_ok_iff]
  constructor
  · rintro ⟨_, ⟨hbtb, rfl⟩, _, ⟨hsets, rfl⟩, hdone⟩
    cases hdone
    exact ⟨hbtb, hsets, rfl⟩
  · rintro ⟨hbtb, hsets, rfl⟩
    exact ⟨_, ⟨hbtb, rfl⟩, _, ⟨hsets, rfl⟩, rfl⟩

theorem State.setPredHist_self (u : State p S H PC) (tid : ThreadID) (hist : List (PredictorHistory H PC)) :
    (u.setPredHist tid hist).predHist tid = hist :=
  update_self ..

theorem State.setRAS_self (u : State p S H PC) (tid : ThreadID) (ras : ReturnAddrStack PC p.RASSize.toNat) :
    (u.setRAS tid ras).RAS tid = ras :=
  update_self ..

theorem State.setRAS_eq_self (u : State p S H PC) (tid : ThreadID) : u.setRAS tid (u.RAS tid) = u := by
  rw [State.setRAS, update_eq_self]

section Predict

variable {d : DirectionPredictor S H} {isa : ISA PC Inst}

section

variable {u : State p S H PC} {inst : Inst} {pc : PC} {tid : ThreadID} {taken : Bool} {bp_history : H} {s : S}

theorem direction_eq_ok_iff : direction d isa u inst pc tid = .ok (taken, bp_history, s) ↔
      isa.isUncondCtrl inst = true ∧ taken = true ∧
        d.uncondBranch u.predictor tid (isa.instAddr pc) = .ok (bp_history, s) ∨ isa.isUncondCtrl inst = false ∧
        d.lookup u.predictor tid (isa.instAddr pc) = .ok (taken, bp_history, s) := by
  cases huncond : isa.isUncondCtrl inst with
  | true =>
    simp only [direction, huncond, if_true, bind_eq_ok_iff, true_and, Bool.true_eq_false, false_and, or_false]
    constructor
    · rintro ⟨⟨bp_history', s'⟩, hcall, hdone⟩
      cases hdone
      exact ⟨rfl, hcall⟩
    · rintro ⟨rfl, hcall⟩
      exact ⟨_, hcall, rfl⟩
  | false => simp [direction, huncond]

theorem direction_of_uncond (huncond : isa.isUncondCtrl inst = true)
    (h : direction d isa u inst pc tid = .ok (taken, bp_history, s)) :
    taken = true ∧ d.uncondBranch u.predictor tid (isa.instAddr pc) = .ok (bp_history, s) := by
  simpa [huncond] using direction_eq_ok_iff.mp h

theorem direction_of_cond (hcond : isa.isUncondCtrl inst = false)
    (h : direction d isa u inst pc tid = .ok (taken, bp_history, s)) :
    d.lookup u.predictor tid (isa.instAddr pc) = .ok (taken, bp_history, s) := by
  simpa [hcond] using direction_eq_ok_iff.mp h

end

/-- Whether a target is found for a branch whose direction is taken. A return
always has one, from the return address stack. -/
def targetFound (d : DirectionPredictor S H) (isa : ISA PC Inst) (u : State p S H PC) (inst : Inst) (pc : PC)
    (tid : ThreadID) (bp_history : H) : Result Bool :=
  if isa.isReturn inst then .ok true
  else if usesBTB isa p inst then DefaultBTB.valid p.btb u.BTB (isa.instAddr pc) tid
  else (lookupIndirect d isa u pc tid bp_history).map Option.isSome

/-- The direction of the branch is taken and no target is found for it. -/
def targetMiss (d : DirectionPredictor S H) (isa : ISA PC Inst) (u : State p S H PC) (inst : Inst) (pc : PC)
    (tid : ThreadID) : Result Bool := do
  let (taken, bp_history, s) ← direction d isa u inst pc tid
  if taken then do
    let found ← targetFound d isa { u with predictor := s } inst pc tid bp_history
    .ok !found
  else .ok false

/-- What finding a target leaves of the record and of the unit: the identity
and the direction of the branch, and the queue of branches in flight. -/
structure Kept (record : PredictorHistory H PC) (u : State p S H PC) (record' : PredictorHistory H PC)
    (u' : State p S H PC) : Prop where
  seqNum : record'.seqNum = record.seqNum
  pc : record'.pc = record.pc
  bpHistory : record'.bpHistory = record.bpHistory
  predTaken : record'.predTaken = record.predTaken
  predHist : u'.predHist = u.predHist

theorem Kept.refl (record : PredictorHistory H PC) (u : State p S H PC) : Kept record u record u :=
  ⟨rfl, rfl, rfl, rfl, rfl⟩

theorem Kept.trans (h₁ : Kept r₁ u₁ r₂ u₂) (h₂ : Kept r₂ u₂ r₃ u₃) : Kept r₁ u₁ r₃ u₃ :=
  ⟨h₂.seqNum.trans h₁.seqNum, h₂.pc.trans h₁.pc, h₂.bpHistory.trans h₁.bpHistory,
    h₂.predTaken.trans h₁.predTaken, h₂.predHist.trans h₁.predHist⟩

/-- The predictor is told of a BTB miss, or left alone. -/
def ToldOfMiss (d : DirectionPredictor S H) (tid : ThreadID) (pc : Addr) (bp_history : H) (s s' : S) : Prop :=
  s' = s ∨ d.btbUpdate s tid pc bp_history = .ok s'

end Predict

end Gem5.BPredUnit
