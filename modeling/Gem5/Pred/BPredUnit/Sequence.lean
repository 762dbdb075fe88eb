import Gem5.Pred.BPredUnit.Retire

open Lib Function List

namespace Gem5.BPredUnit

variable {S H PC Inst : Type} {p : Params}

/-- A branch as the fetch stage hands it to `predict`. -/
structure Fetched (PC Inst : Type) where
  inst : Inst
  seqNum : InstSeqNum
  pc : PC

section

variable (d : DirectionPredictor S H) (isa : ISA PC Inst) (tid : ThreadID)

/-- Predicts the branches one after the other. -/
def predictAll : State p S H PC → List (Fetched PC Inst) → Result (State p S H PC)
  | u, [] => .ok u
  | u, b :: later => do
    let (_, _, u) ← predict d isa u b.inst b.seqNum b.pc tid
    predictAll u later

/-- Predicting the branches one after the other takes the unit from the first
state to the last, and queues the records. -/
inductive Predicts : State p S H PC → List (Fetched PC Inst) → List (PredictorHistory H PC) →
    State p S H PC → Prop where
  | nil (u : State p S H PC) : Predicts u [] [] u
  | cons {u u₁ v : State p S H PC} {b : Fetched PC Inst} {later : List (Fetched PC Inst)}
      {record : PredictorHistory H PC} {records : List (PredictorHistory H PC)} {s : S}
      (first : Effect d isa u b.inst b.seqNum b.pc tid record s u₁) (rest : Predicts u₁ later records v) :
      Predicts u (b :: later) (record :: records) v

end

section

variable {d : DirectionPredictor S H} {isa : ISA PC Inst} {tid : ThreadID}

theorem predicts_of_predictAll (h : predictAll d isa tid u branches = .ok v) :
    ∃ records, Predicts d isa tid u branches records v := by
  induction branches generalizing u with
  | nil =>
    cases h
    exact ⟨[], .nil _⟩
  | cons b later ih =>
    obtain ⟨⟨taken, target, u₁⟩, hfirst, hlater⟩ := Result.bind_ok h
    obtain ⟨record, s, -, heffect, -⟩ := predict_effect hfirst
    obtain ⟨records, hrest⟩ := ih hlater
    exact ⟨record :: records, .cons heffect hrest⟩

section

variable {u v : State p S H PC} {branches : List (Fetched PC Inst)} {records : List (PredictorHistory H PC)}
  (h : Predicts d isa tid u branches records v)

include h

/-- The records are queued in front of the older ones. -/
theorem Predicts.predHist : v.predHist = Function.update u.predHist tid (records.reverse ++ u.predHist tid) := by
  induction h with
  | nil u => rw [reverse_nil, nil_append, update_eq_self]
  | cons first _ ih =>
    rw [ih, first.predHist, update_idem, update_self, reverse_cons, append_assoc, singleton_append]

theorem Predicts.seqNums : records.map PredictorHistory.seqNum = branches.map Fetched.seqNum := by
  induction h with
  | nil u => rfl
  | cons first _ ih => rw [map_cons, map_cons, ih, first.record_seqNum]

variable {sn : InstSeqNum} (hold : ∀ record ∈ u.predHist tid, record.seqNum ≤ sn)
  (hnew : ∀ b ∈ branches, sn < b.seqNum)

include hold hnew

/-- A squash to a branch before the sequence removes exactly the sequence. -/
theorem Predicts.squash_all : v.squashing sn tid = records.reverse ∧
      (v.predHist tid).dropWhile (fun record => record.seqNum > sn) = u.predHist tid := by
  have hyounger : ∀ record ∈ records.reverse, decide (record.seqNum > sn) = true := by
    intro record hmem
    have hseq : record.seqNum ∈ branches.map Fetched.seqNum := by
      rw [← h.seqNums]
      exact mem_map_of_mem (mem_reverse.mp hmem)
    obtain ⟨b, hb, hsn⟩ := mem_map.mp hseq
    rw [decide_eq_true_eq, ← hsn]
    exact hnew b hb
  have hhist : v.predHist tid = records.reverse ++ u.predHist tid := by
    rw [h.predHist, update_self]
  have hstop : (u.predHist tid).takeWhile (fun record => decide (record.seqNum > sn)) = [] ∧
      (u.predHist tid).dropWhile (fun record => decide (record.seqNum > sn)) = u.predHist tid := by
    cases hqueue : u.predHist tid with
    | nil => exact ⟨rfl, rfl⟩
    | cons front older =>
      have hfront : ¬front.seqNum > sn := Nat.not_lt.mpr (hold front (hqueue ▸ mem_cons_self))
      simp [hfront]
  rw [State.squashing, hhist, takeWhile_append_of_pos hyounger, dropWhile_append_of_pos hyounger, hstop.1,
    hstop.2, append_nil]
  exact ⟨rfl, rfl⟩

end

end

end Gem5.BPredUnit
