import Gem5.Pred.BPredUnit.Retire

open Lib List

namespace Gem5.BPredUnit

variable {S H PC Inst : Type} {p : Params}

/-- The calls made so far, newest first, each with the unit before it. -/
abbrev Log (p : Params) (S H PC Inst : Type) : Type := List (State p S H PC × Op PC Inst × Answer PC)

def Op.predicts (op : Op PC Inst) (sn : InstSeqNum) : Bool :=
  match op with
  | .predict _ seqNum _ => seqNum == sn
  | _ => false

def Op.corrects (op : Op PC Inst) (sn : InstSeqNum) : Bool :=
  match op with
  | .squashMispredicted squashed_sn _ _ _ => squashed_sn == sn
  | _ => false

/-- The call that predicted a branch. -/
def prediction (log : Log p S H PC Inst) (sn : InstSeqNum) : Option (State p S H PC × Op PC Inst × Answer PC) :=
  log.find? fun call => call.2.1.predicts sn

/-- The branch received a mispredict squash after it was predicted. -/
def corrected (log : Log p S H PC Inst) (sn : InstSeqNum) : Bool :=
  (log.takeWhile fun call => !call.2.1.predicts sn).any fun call => call.2.1.corrects sn

section

variable {log : Log p S H PC Inst} {call : State p S H PC × Op PC Inst × Answer PC} {sn : InstSeqNum}

theorem prediction_cons_of_predicts (h : call.2.1.predicts sn = true) : prediction (call :: log) sn = some call := by
  simp only [prediction, find?_cons, h]

theorem prediction_cons_of_other (h : call.2.1.predicts sn = false) :
    prediction (call :: log) sn = prediction log sn := by
  simp only [prediction, find?_cons, h]

theorem corrected_cons_of_predicts (h : call.2.1.predicts sn = true) : corrected (call :: log) sn = false := by
  rw [corrected, takeWhile_cons_of_neg (by simp [h]), any_nil]

theorem corrected_cons_of_other (h : call.2.1.predicts sn = false) :
    corrected (call :: log) sn = (call.2.1.corrects sn || corrected log sn) := by
  rw [corrected, takeWhile_cons_of_pos (by simp [h]), any_cons, corrected]

end

section

variable (d : DirectionPredictor S H) (isa : ISA PC Inst) (tid : ThreadID) (actual : InstSeqNum → Bool)

/-- How the pipeline drives the unit. Sequence numbers increase, a mispredict
squash carries the actual direction of the branch it is for, and a branch is
not committed before it received one if `predict` returned the wrong
direction. -/
def Disciplined : State p S H PC × Log p S H PC Inst → Op PC Inst → Prop
  | (_, log), .predict _ seqNum _ =>
    ∀ call ∈ log, ∀ sn, call.2.1.predicts sn = true → sn < seqNum
  | _, .squash _ => True
  | (u, _), .squashMispredicted squashed_sn _ actually_taken _ =>
    ∀ record ∈ u.predHist tid, record.seqNum = squashed_sn → actually_taken = actual squashed_sn
  | (u, log), .update done_sn =>
    ∀ record ∈ u.committing done_sn tid, ∀ v inst pc pred_taken target,
      prediction log record.seqNum =
        some (v, .predict inst record.seqNum pc, .predicted pred_taken target) →
      pred_taken ≠ actual record.seqNum → corrected log record.seqNum = true

/-- What the log says about a branch in flight: how it was predicted, and where
the direction in its record comes from. -/
def Accounted (log : Log p S H PC Inst) (record : PredictorHistory H PC) : Prop :=
  ∃ v inst pc pred_taken target missed,
    prediction log record.seqNum =
      some (v, .predict inst record.seqNum pc, .predicted pred_taken target) ∧
    targetMiss d isa v inst pc tid = .ok missed ∧
    (corrected log record.seqNum = true → record.predTaken = actual record.seqNum) ∧
    (corrected log record.seqNum = false →
      pred_taken = (record.predTaken && !missed) ∧ (missed = true → record.predTaken = true))

/-- The branches in flight are queued in the order of their sequence numbers
and accounted for. -/
structure Tracked (state : State p S H PC × Log p S H PC Inst) : Prop where
  ordered : (state.1.predHist tid).Pairwise fun younger older => older.seqNum < younger.seqNum
  accounted : ∀ record ∈ state.1.predHist tid, Accounted d isa tid actual state.2 record

end

section

variable {d : DirectionPredictor S H} {isa : ISA PC Inst} {tid : ThreadID} {actual : InstSeqNum → Bool}
  {log : Log p S H PC Inst}

/-- Calls that neither predict nor correct a branch do not change its account. -/
theorem Accounted.cons (h : Accounted d isa tid actual log record)
    (hpredicts : call.2.1.predicts record.seqNum = false) (hcorrects : call.2.1.corrects record.seqNum = false) :
    Accounted d isa tid actual (call :: log) record := by
  obtain ⟨v, inst, pc, pred_taken, target, missed, hprediction, hmissed, haccount⟩ := h
  refine ⟨v, inst, pc, pred_taken, target, missed, ?_, hmissed, ?_⟩
  · rw [prediction_cons_of_other hpredicts, hprediction]
  · rw [corrected_cons_of_other hpredicts, hcorrects, Bool.false_or]
    exact haccount

theorem Accounted.exists_call (h : Accounted d isa tid actual log record) :
    ∃ call ∈ log, call.2.1.predicts record.seqNum = true := by
  obtain ⟨v, inst, pc, pred_taken, target, missed, hprediction, -⟩ := h
  exact ⟨_, mem_of_find?_eq_some hprediction, beq_self_eq_true _⟩

/-- Dropping branches keeps the queue tracked. -/
theorem Tracked.sublist (h : Tracked d isa tid actual (u, log)) (hsub : (u'.predHist tid).Sublist (u.predHist tid))
    (hpredicts : ∀ sn, call.2.1.predicts sn = false) (hcorrects : ∀ sn, call.2.1.corrects sn = false) :
    Tracked d isa tid actual (u', call :: log) := by
  refine ⟨h.ordered.sublist hsub, ?_⟩
  intro record hmem
  exact (h.accounted record (hsub.subset hmem)).cons (hpredicts _) (hcorrects _)

theorem Tracked.predict (h : Tracked d isa tid actual (u, log))
    (hfresh : ∀ call ∈ log, ∀ sn, call.2.1.predicts sn = true → sn < seqNum)
    (hpredict : predict d isa u inst seqNum pc tid = .ok (pred_taken, target, u')) : Tracked d isa tid actual
      (u', (u, .predict inst seqNum pc, .predicted pred_taken target) :: log) := by
  obtain ⟨record, s, missed, heffect, hmissed, htaken, hoverruled⟩ := predict_effect hpredict
  have hqueue := heffect.queue
  have hsn := heffect.record_seqNum
  have holder : ∀ older ∈ u.predHist tid, older.seqNum < seqNum := by
    intro older hmem
    obtain ⟨call, hcall, hpredicts⟩ := (h.accounted older hmem).exists_call
    exact hfresh call hcall older.seqNum hpredicts
  constructor
  · rw [hqueue, pairwise_cons]
    refine ⟨?_, h.ordered⟩
    intro older hmem
    rw [hsn]
    exact holder older hmem
  · rw [hqueue]
    intro other hmem
    rcases mem_cons.mp hmem with rfl | hold
    · -- The new record: nothing can have corrected it yet.
      have hpredicts : (Op.predict inst seqNum pc).predicts other.seqNum = true := by
        simp [Op.predicts, hsn]
      refine ⟨u, inst, pc, pred_taken, target, missed, ?_, hmissed, ?_, ?_⟩
      · rw [prediction_cons_of_predicts hpredicts, hsn]
      · rw [corrected_cons_of_predicts hpredicts]
        intro hcorrected
        cases hcorrected
      · intro _
        exact ⟨htaken, hoverruled⟩
    · apply (h.accounted other hold).cons
      · exact beq_eq_false_iff_ne.mpr (Nat.ne_of_gt (holder other hold))
      · rfl

theorem Tracked.squashMispredicted (h : Tracked d isa tid actual (u, log))
    (hactual : ∀ record ∈ u.predHist tid, record.seqNum = squashed_sn → actually_taken = actual squashed_sn)
    (hsquash : squashMispredicted d isa u squashed_sn corrTarget actually_taken tid rand = .ok u') :
    Tracked d isa tid actual
      (u', (u, .squashMispredicted squashed_sn corrTarget actually_taken rand, answer) :: log) := by
  rcases squashMispredicted_spec hsquash with hempty | ⟨front, older, front', hleft, hqueue, hsn, hsn', htaken⟩
  · constructor
    · rw [hempty]
      exact List.Pairwise.nil
    · rw [hempty]
      intro record hmem
      cases hmem
  · have hsub : (front :: older).Sublist (u.predHist tid) := by
      rw [← hleft]
      exact dropWhile_sublist _
    have hordered := h.ordered.sublist hsub
    rw [pairwise_cons] at hordered
    constructor
    · rw [hqueue, pairwise_cons, hsn', ← hsn]
      exact hordered
    · rw [hqueue]
      intro record hmem
      rcases mem_cons.mp hmem with rfl | hold
      · -- The corrected record keeps its prediction and now holds the actual direction.
        obtain ⟨v, inst, pc, pred_taken, target, missed, hprediction, hmissed, -⟩ :=
          h.accounted front (hsub.subset mem_cons_self)
        rw [hsn, ← hsn'] at hprediction
        refine ⟨v, inst, pc, pred_taken, target, missed, ?_, hmissed, ?_, ?_⟩
        · rw [prediction_cons_of_other rfl, hprediction]
        · intro _
          rw [htaken, hactual front (hsub.subset mem_cons_self) hsn, hsn']
        · rw [corrected_cons_of_other rfl]
          simp [Op.corrects, hsn']
      · apply (h.accounted record (hsub.subset (mem_cons_of_mem _ hold))).cons
        · rfl
        · have hlt := hordered.1 record hold
          rw [hsn] at hlt
          exact beq_eq_false_iff_ne.mpr (Nat.ne_of_gt hlt)

theorem Tracked.step (h : Tracked d isa tid actual state) (hop : Disciplined tid actual state op)
    (hstep : (machine d isa p tid).logged.step state op = .ok (answer, state')) : Tracked d isa tid actual state' := by
  obtain ⟨u, log⟩ := state
  obtain ⟨u', hcall, rfl⟩ := Machine.logged_step_eq_ok_iff.mp hstep
  cases step_iff.mp hcall with
  | predict hpredict => exact h.predict hop hpredict
  | update hupdate => exact h.sublist (update_sublist hupdate) (fun _ => rfl) (fun _ => rfl)
  | squash hsquash => exact h.sublist (squash_sublist hsquash) (fun _ => rfl) (fun _ => rfl)
  | squashMispredicted hsquash => exact h.squashMispredicted hop hsquash

end

end Gem5.BPredUnit
