import Gem5.Pred.BPredUnit.Log
import Gem5.Pred.BPredUnit.Threads

open Lib List Function

namespace Gem5.BPredUnit

variable {S H PC Inst : Type} {p : Params}

/-- How the pipeline numbers the branches of a thread: in the order in which it
predicts them. -/
def Fresh : State p S H PC × Log p S H PC Inst → Op PC Inst → Prop
  | (_, log), .predict _ seqNum _ => ∀ call ∈ log, ∀ sn, call.2.1.predicts sn = true → sn < seqNum
  | _, _ => True

/-- A branch is predicted by a call of the log. -/
def Predicted (log : Log p S H PC Inst) (sn : InstSeqNum) : Prop :=
  ∃ call ∈ log, call.2.1.predicts sn = true

theorem Predicted.cons (h : Predicted log sn) (call : State p S H PC × Op PC Inst × Answer PC) :
    Predicted (call :: log) sn := by
  obtain ⟨other, hmem, hpredicts⟩ := h
  exact ⟨other, mem_cons_of_mem _ hmem, hpredicts⟩

theorem Fresh.lt (h : Fresh (u, log) (.predict inst seqNum pc)) (hsn : Predicted log sn) : sn < seqNum := by
  obtain ⟨call, hmem, hpredicts⟩ := hsn
  exact h call hmem sn hpredicts

/-- The branches in flight are queued in the order of their sequence numbers,
and the log has the calls that predicted them. -/
structure Ordered (tid : ThreadID) (state : State p S H PC × Log p S H PC Inst) : Prop where
  decreasing : Decreasing (state.1.predHist tid)
  predicted : ∀ record ∈ state.1.predHist tid, Predicted state.2 record.seqNum

theorem Ordered.initial (isa : ISA PC Inst) (s : S) (tid : ThreadID) :
    Ordered tid ((State.initial isa p s, []) : State p S H PC × Log p S H PC Inst) :=
  ⟨List.Pairwise.nil, nofun⟩

section

variable {d : DirectionPredictor S H} {isa : ISA PC Inst} {tid : ThreadID} {u u' : State p S H PC}
  {log : Log p S H PC Inst}

/-- Calls that leave branches of the queue only. -/
theorem Ordered.sublist (h : Ordered tid (u, log)) (call : State p S H PC × Op PC Inst × Answer PC)
    (hsub : ((u'.predHist tid).map PredictorHistory.seqNum).Sublist
      ((u.predHist tid).map PredictorHistory.seqNum)) : Ordered tid (u', call :: log) := by
  constructor
  · exact decreasing_iff.mpr ((decreasing_iff.mp h.decreasing).sublist hsub)
  · intro record hmem
    obtain ⟨old, hold, hsn⟩ := mem_map.mp (hsub.subset (mem_map_of_mem hmem))
    rw [← hsn]
    exact (h.predicted old hold).cons call

/-- The new branch is the youngest. -/
theorem Ordered.lt_fresh (h : Ordered tid (u, log)) (hop : Fresh (u, log) (.predict inst seqNum pc)) :
    ∀ record ∈ u.predHist tid, record.seqNum < seqNum := by
  intro record hmem
  exact hop.lt (h.predicted record hmem)

theorem Ordered.squash (h : Ordered tid (u, log)) (call : State p S H PC × Op PC Inst × Answer PC)
    (hsquash : squash d u squashed_sn tid = .ok u') : Ordered tid (u', call :: log) :=
  h.sublist call ((squash_sublist hsquash).map _)

theorem Ordered.step (h : Ordered tid state) (hop : Fresh state op)
    (hstep : (machine d isa p tid).logged.step state op = .ok (answer, state')) : Ordered tid state' := by
  obtain ⟨u, log⟩ := state
  obtain ⟨u', hcall, rfl⟩ := Machine.logged_step_eq_ok_iff.mp hstep
  cases step_iff.mp hcall with
  | predict hpredict =>
    obtain ⟨record, s, -, heffect, -⟩ := predict_effect hpredict
    have hsn := heffect.record_seqNum
    constructor
    · rw [heffect.queue]
      refine pairwise_cons.mpr ⟨?_, h.decreasing⟩
      rw [hsn]
      exact h.lt_fresh hop
    · rw [heffect.queue]
      exact forall_mem_cons.mpr
        ⟨⟨_, mem_cons_self, by simp [Op.predicts, hsn]⟩, fun other hold => (h.predicted other hold).cons _⟩
  | update hupdate => exact h.sublist _ ((update_sublist hupdate).map _)
  | squash hsquash => exact h.squash _ hsquash
  | squashMispredicted =>
    refine h.sublist _ ?_
    rw [(step_predHist hcall).2]
    exact dropWhile_sublist _

/-- The calls of a thread whose sequence numbers increase are fresh. -/
theorem stepsAll_fresh (hlog : ∀ sn, Predicted log sn → ∀ later ∈ predictedBy tid (ops.map (Prod.mk tid)), sn < later)
    (hops : (predictedBy tid (ops.map (Prod.mk tid))).Pairwise (· < ·)) :
    (machine d isa p tid).logged.StepsAll Fresh (u, log) ops := by
  induction ops generalizing u log with
  | nil => trivial
  | cons op ops ih =>
    have hsub : (predictedBy tid (ops.map (Prod.mk tid))).Sublist
        (predictedBy tid ((op :: ops).map (Prod.mk tid))) := (sublist_cons_self ..).filterMap _
    constructor
    · cases op with
      | predict inst seqNum pc =>
        intro call hmem sn hpredicts
        exact hlog sn ⟨call, hmem, hpredicts⟩ seqNum (by simp [predictedBy])
      | _ => trivial
    · intro answer state hstep
      obtain ⟨u', -, rfl⟩ := Machine.logged_step_eq_ok_iff.mp hstep
      refine ih ?_ (hops.sublist hsub)
      rintro sn ⟨call, hmem, hpredicts⟩ later hlater
      rcases mem_cons.mp hmem with rfl | hold
      · cases op with
        | predict inst seqNum pc =>
          have hcons : predictedBy tid ((.predict inst seqNum pc :: ops).map (Prod.mk tid)) =
              seqNum :: predictedBy tid (ops.map (Prod.mk tid)) := by simp [predictedBy]
          rw [hcons] at hops
          rw [← beq_iff_eq.mp hpredicts]
          exact (pairwise_cons.mp hops).1 later hlater
        | _ => cases hpredicts
      · exact hlog sn ⟨call, hold, hpredicts⟩ later (hsub.subset hlater)

/-- What is left at the front after a squash to a branch in flight is the
branch. -/
theorem Decreasing.dropWhile_eq_cons {queue : List (PredictorHistory H PC)} (h : Decreasing queue)
    {record : PredictorHistory H PC} (hmem : record ∈ queue) :
    ∃ older, (queue.dropWhile fun r => r.seqNum > record.seqNum) = record :: older := by
  obtain ⟨younger, older, rfl⟩ := append_of_mem hmem
  have hyounger : ∀ r ∈ younger, decide (r.seqNum > record.seqNum) = true := by
    intro r hr
    exact decide_eq_true ((pairwise_append.mp h).2.2 r hr record mem_cons_self)
  exact ⟨older, by rw [dropWhile_append_of_pos hyounger, dropWhile_cons_of_neg (by simp)]⟩

section

variable (h : Ordered tid (u, log))

include h

theorem Ordered.predHist_update (hupdate : update d u done_sn tid = .ok (calls, u')) :
    u'.predHist tid = (u.predHist tid).filter fun record => record.seqNum > done_sn := by
  rw [(update_spec hupdate).2, update_self, h.decreasing.dropWhile_older]

theorem Ordered.predHist_squash (hsquash : BPredUnit.squash d u squashed_sn tid = .ok u') :
    u'.predHist tid = (u.predHist tid).filter fun record => record.seqNum ≤ squashed_sn := by
  rw [squash_spec hsquash, update_self, h.decreasing.dropWhile_younger]

variable {record : PredictorHistory H PC} (hmem : record ∈ u.predHist tid)

include hmem

theorem Ordered.front_of_squash (hsquash : BPredUnit.squash d u record.seqNum tid = .ok u') :
    ∃ older, u'.predHist tid = record :: older := by
  rw [squash_spec hsquash, update_self]
  exact h.decreasing.dropWhile_eq_cons hmem

/-- A mispredict squash of a branch in flight corrects the branch. -/
theorem Ordered.corrects_front
    (hsquash : squashMispredicted d isa u record.seqNum corrTarget actually_taken tid rand = .ok u') :
    ∃ left front' older fixed, BPredUnit.squash d u record.seqNum tid = .ok left ∧
      correctFront d isa left record corrTarget actually_taken tid rand = .ok (front', fixed) ∧
      u' = fixed.setPredHist tid (front' :: older) := by
  obtain ⟨left, hleft, hcase⟩ := squashMispredicted_eq_ok_iff.mp hsquash
  obtain ⟨older, hqueue⟩ := h.front_of_squash hmem hleft
  rw [hqueue] at hcase
  rcases hcase with ⟨hempty, -⟩ | ⟨front, older', front', fixed, hfront, -, hfix, hu'⟩
  · cases hempty
  · cases hfront
    exact ⟨left, front', older, fixed, hleft, hfix, hu'⟩

end

end

end Gem5.BPredUnit
