import Gem5.Pred.BPredUnit.Log
import Gem5.Pred.Ensemble.Spec

open Lib List

namespace Gem5.BPredUnit

variable {S H PC Inst : Type} {p : Params}

section

variable (d : DirectionPredictor S H) (isa : ISA PC Inst) (tid : ThreadID) (actual : InstSeqNum → Bool)

/-- Every call that a commit makes on the direction predictor passes the actual
direction of its branch. -/
def CommitsActual : State p S H PC × Log p S H PC Inst → Op PC Inst → Prop
  | (u, _), .update done_sn => ∀ calls u', update d u done_sn tid = .ok (calls, u') →
    ∀ call ∈ calls, call.taken = actual call.seqNum
  | _, _ => True

/-- The branch is not taken, its direction was overruled for want of a target,
and it received no mispredict squash. -/
def OverruledRightly (log : Log p S H PC Inst) (sn : InstSeqNum) : Prop :=
  actual sn = false ∧ corrected log sn = false ∧
    ∃ v inst pc answer, prediction log sn = some (v, .predict inst sn pc, answer) ∧
      targetMiss d isa v inst pc tid = .ok true

/-- No branch that commits was overruled rightly. -/
def CommitsNoneOverruledRightly : State p S H PC × Log p S H PC Inst → Op PC Inst → Prop
  | (u, log), .update done_sn =>
    ∀ record ∈ u.committing done_sn tid, ¬OverruledRightly d isa tid actual log record.seqNum
  | _, _ => True

end

section

variable {d : DirectionPredictor S H} {isa : ISA PC Inst} {tid : ThreadID} {actual : InstSeqNum → Bool}
  {log : Log p S H PC Inst}

/-- The direction in the record of a branch that may commit is the actual one
unless the branch was overruled rightly. -/
theorem Accounted.predTaken_iff (h : Accounted d isa tid actual log record) (hcorrected : ∀ v inst pc pred_taken target,
      prediction log record.seqNum = some (v, .predict inst record.seqNum pc, .predicted pred_taken target) →
      pred_taken ≠ actual record.seqNum → corrected log record.seqNum = true) :
    record.predTaken = actual record.seqNum ↔ ¬OverruledRightly d isa tid actual log record.seqNum := by
  obtain ⟨v, inst, pc, pred_taken, target, missed, hprediction, hmissed, hyes, hno⟩ := h
  by_cases hcase : corrected log record.seqNum = true
  · refine ⟨?_, fun _ => hyes hcase⟩
    rintro - ⟨-, hfalse, -⟩
    rw [hcase] at hfalse
    cases hfalse
  rw [Bool.not_eq_true] at hcase
  obtain ⟨htaken, hoverruled⟩ := hno hcase
  have hreturned : pred_taken = actual record.seqNum := by
    by_contra hne
    have := hcorrected v inst pc pred_taken target hprediction hne
    rw [hcase] at this
    cases this
  cases missed with
  | false =>
    rw [Bool.not_false, Bool.and_true] at htaken
    refine ⟨?_, fun _ => htaken.symm.trans hreturned⟩
    rintro - ⟨-, -, v', inst', pc', answer, hprediction', hmissed'⟩
    rw [hprediction] at hprediction'
    cases hprediction'
    rw [hmissed] at hmissed'
    cases hmissed'
  | true =>
    -- The record says taken and `predict` returned not taken.
    rw [Bool.not_true, Bool.and_false] at htaken
    have hactual : actual record.seqNum = false := hreturned.symm.trans htaken
    rw [hoverruled rfl, hactual]
    constructor
    · nofun
    · intro hnot
      exact absurd ⟨hactual, hcase, v, inst, pc, _, hprediction, hmissed⟩ hnot

theorem commitsActual_iff (h : Tracked d isa tid actual state) (hop : Disciplined tid actual state op)
    (hstep : (machine d isa p tid).logged.step state op = .ok (answer, state')) :
    CommitsActual d tid actual state op ↔ CommitsNoneOverruledRightly d isa tid actual state op := by
  obtain ⟨u, log⟩ := state
  obtain ⟨u', hcall, rfl⟩ := Machine.logged_step_eq_ok_iff.mp hstep
  cases step_iff.mp hcall with
  | @update done_sn calls hupdate =>
    have hcalls := (update_spec hupdate).1
    have hrecord : ∀ record ∈ u.committing done_sn tid, record.predTaken = actual record.seqNum ↔
        ¬OverruledRightly d isa tid actual log record.seqNum := by
      intro record hmem
      have hqueued : record ∈ u.predHist tid := by
        rw [← mem_reverse]
        exact (takeWhile_sublist _).subset hmem
      exact (h.accounted record hqueued).predTaken_iff (hop record hmem)
    constructor
    · intro hall record hmem
      rw [← hrecord record hmem]
      apply hall calls u' hupdate record.commitCall
      rw [hcalls]
      exact mem_map_of_mem hmem
    · intro hnone calls' v' hupdate' call hmem
      rw [hupdate] at hupdate'
      cases hupdate'
      rw [hcalls] at hmem
      obtain ⟨record, hrec, rfl⟩ := mem_map.mp hmem
      exact (hrecord record hrec).mpr (hnone record hrec)
  | _ => exact Iff.rfl

end

/-- In every run of the unit that keeps the discipline, over any direction
predictor, the commits pass the actual directions of their branches exactly
when they commit no branch that was overruled rightly. -/
theorem commits_pass_actual_direction_iff (d : DirectionPredictor S H) (isa : ISA PC Inst) (p : Params)
    (tid : ThreadID) (s : S) (u : State p S H PC) (hu : construct isa p s = .ok u)
    (actual : InstSeqNum → Bool) (ops : List (Op PC Inst)) (answers : List (Answer PC))
    (final : State p S H PC × Log p S H PC Inst)
    (hrun : (machine d isa p tid).logged.run (u, []) ops = .ok (answers, final))
    (hops : (machine d isa p tid).logged.StepsAll (Disciplined tid actual) (u, []) ops) :
    (machine d isa p tid).logged.StepsAll (CommitsActual d tid actual) (u, []) ops ↔
      (machine d isa p tid).logged.StepsAll (CommitsNoneOverruledRightly d isa tid actual) (u, []) ops := by
  obtain ⟨-, -, rfl⟩ := construct_eq_ok_iff.mp hu
  refine Machine.stepsAll_congr_of_guard (I := Tracked d isa tid actual) ?_ ?_ hops hrun
  · intro state op answer state' h hop hstep
    exact ⟨commitsActual_iff h hop hstep, h.step hop hstep⟩
  · refine ⟨List.Pairwise.nil, ?_⟩
    intro record hmem
    cases hmem

/-- A taken branch, first predicted without a target and corrected. -/
theorem corrected_branch_commits_actual_direction :
    (machine (EnsembleBP.predictor EnsembleBP.smallParams) alpha smallParams 0).logged.StepsAll
      (CommitsActual (EnsembleBP.predictor EnsembleBP.smallParams) 0 fun _ => true)
      (State.initial alpha smallParams (EnsembleBP.State.initial EnsembleBP.smallParams), [])
      [.predict conditionalBranch 1 (.set 0), .squashMispredicted 1 (.set 64) true 0, .update 1] := by
  refine (commits_pass_actual_direction_iff _ alpha smallParams 0 _ _ rfl (fun _ => true) _ _ _ rfl ?_).mpr ?_
  · refine ⟨nofun, ?_⟩
    intro answer state hpredict
    obtain ⟨u, -, rfl⟩ := Machine.logged_step_eq_ok_iff.mp hpredict
    refine ⟨fun _ _ _ => rfl, ?_⟩
    intro answer' state' hsquash
    obtain ⟨u', -, rfl⟩ := Machine.logged_step_eq_ok_iff.mp hsquash
    refine ⟨?_, fun _ _ _ => trivial⟩
    intro record _ v inst pc pred_taken target hprediction _
    rcases List.mem_cons.mp (List.mem_of_find?_eq_some hprediction) with hlast | hfirst
    · cases hlast
    have hcall := List.mem_singleton.mp hfirst
    simp only [Prod.mk.injEq, Op.predict.injEq] at hcall
    rw [hcall.2.1.2.1]
    rfl
  · apply Machine.stepsAll_of_forall
    rintro ⟨u, log⟩ op
    cases op with
    | update done_sn =>
      rintro record - ⟨hfalse, -⟩
      cases hfalse
    | _ => trivial

/-- The first prediction of a branch that is not taken is overruled rightly, so
nothing corrects it, and its commit passes taken. -/
theorem overruled_branch_commits_as_taken :
    ∃ u answers final, construct alpha smallParams (EnsembleBP.State.initial EnsembleBP.smallParams) = .ok u ∧
      (machine (EnsembleBP.predictor EnsembleBP.smallParams) alpha smallParams 0).logged.run (u, [])
        [.predict conditionalBranch 1 (.set 0), .update 1] = .ok (answers, final) ∧
      answers = [.predicted false (.set 4), .committed [⟨1, 0, true⟩]] ∧
      (machine (EnsembleBP.predictor EnsembleBP.smallParams) alpha smallParams 0).logged.StepsAll
        (Disciplined 0 fun _ => false) (u, []) [.predict conditionalBranch 1 (.set 0), .update 1] ∧
      ¬(machine (EnsembleBP.predictor EnsembleBP.smallParams) alpha smallParams 0).logged.StepsAll
        (CommitsActual (EnsembleBP.predictor EnsembleBP.smallParams) 0 fun _ => false) (u, [])
        [.predict conditionalBranch 1 (.set 0), .update 1] := by
  refine ⟨_, _, _, rfl, rfl, rfl, ?_, ?_⟩
  · refine ⟨nofun, ?_⟩
    intro answer state hpredict
    cases hpredict
    refine ⟨?_, fun _ _ _ => trivial⟩
    intro record _ v inst pc pred_taken target hprediction hne
    have hcall := List.mem_singleton.mp (List.mem_of_find?_eq_some hprediction)
    simp only [Prod.mk.injEq, Answer.predicted.injEq] at hcall
    exact absurd hcall.2.2.1 hne
  · rintro ⟨-, hall⟩
    have hcommit := (hall _ _ rfl).1 [⟨1, 0, true⟩] _ rfl _ (List.mem_singleton_self _)
    cases hcommit

end Gem5.BPredUnit
