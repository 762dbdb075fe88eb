import Gem5.Pred.BPredUnit.Checkpoint
import Gem5.Pred.BPredUnit.Refinement
import Gem5.Pred.Tournament.Spec

open Lib Result Lib.ShiftRegister Function
open Gem5.BPredUnit (Answer Checkpoints Checkpointed Fresh Log Op Squashable prediction settledView)

namespace Gem5.TournamentBP

variable {PC Inst : Type}

/-- Every history object saves the register of its thread. -/
theorem predictor_checkpoints (p : Params) (tid : ThreadID) :
    Checkpoints (predictor p) tid (fun s => s.globalHistory tid) BPHistory.globalHistory
      (shiftIn p.historyRegisterMask) where
  lookup hcall := by
    obtain ⟨_, _, _, -, -, -, hcall⟩ := bind_ok₃ hcall
    obtain ⟨_, _, _, -, -, -, ⟨⟩⟩ := bind_ok₃ hcall
    rfl
  uncondBranch hcall := by
    cases hcall
    rfl
  commit hcall := by
    obtain ⟨_, _, _, _, _, -, -, -, -, -, ⟨⟩⟩ := bind₅_eq_ok_iff.mp hcall
    rfl
  correct hcall := by
    obtain ⟨-, _, -, -, ⟨⟩⟩ := bind_ok₂ hcall
    exact update_self ..
  squash hcall := by
    obtain ⟨_, -, ⟨⟩⟩ := bind_ok hcall
    exact update_self ..

theorem forall_update_le {registers : ThreadID → Unsigned} {mask value : Unsigned} {tid : ThreadID}
    (h : ∀ t, registers t ≤ mask) (hvalue : value ≤ mask) : ∀ t, Function.update registers tid value t ≤ mask := by
  intro t
  by_cases ht : t = tid
  · subst ht
    rw [update_self]
    exact hvalue
  · rw [update_of_ne ht]
    exact h t

/-- The registers of all threads stay within the mask, and so do the values
saved of them. -/
theorem predictor_preserves_masked (p : Params) :
    (predictor p).Preserves (fun s => ∀ tid, s.globalHistory tid ≤ p.historyRegisterMask)
      (fun h => h.globalHistory ≤ p.historyRegisterMask) where
  lookup {s tid _ _ _ _} hs hcall := by
    obtain ⟨_, _, _, -, -, -, hcall⟩ := bind_ok₃ hcall
    obtain ⟨_, _, _, -, -, -, ⟨⟩⟩ := bind_ok₃ hcall
    exact ⟨forall_update_le hs (shiftIn_le ..), hs tid⟩
  uncondBranch {s tid _ _ _} hs hcall := by
    cases hcall
    exact ⟨forall_update_le hs (shiftIn_le ..), hs tid⟩
  btbUpdate hs _ hcall := by
    obtain ⟨_, -, ⟨⟩⟩ := bind_ok hcall
    exact forall_update_le hs (clearNewest_le ..)
  update {_ _ _ _ _ squashed _} hs _ hcall := by
    cases squashed with
    | true =>
      obtain ⟨-, _, -, -, ⟨⟩⟩ := bind_ok₂ hcall
      exact forall_update_le hs (shiftIn_le ..)
    | false =>
      obtain ⟨_, _, _, _, _, -, -, -, -, -, ⟨⟩⟩ := bind₅_eq_ok_iff.mp hcall
      exact hs
  squash hs hh hcall := by
    obtain ⟨_, -, ⟨⟩⟩ := bind_ok hcall
    exact forall_update_le hs hh

/-- The register of a thread in every run of the unit. A squash to a branch that
is in flight, or that committed last, gives it the value it had right after
the last call that predicted or corrected the branch; the correction of a
branch in flight shifts the actual direction into the value it had before the
branch was predicted; commits leave it alone, and it never leaves its mask. -/
theorem globalHistory_repaired (q : Params) (s : State q) (hs : construct q = .ok s) (isa : ISA PC Inst)
    (p : BPredUnit.Params) (tid : ThreadID) (start u : BPredUnit.State p (State q) BPHistory PC)
    (hstart : BPredUnit.construct isa p s = .ok start) (ops : List (Op PC Inst)) (answers : List (Answer PC))
    (log : Log p (State q) BPHistory PC Inst)
    (hops : (BPredUnit.machine (predictor q) isa p tid).logged.StepsAll Fresh (start, []) ops)
    (hrun : (BPredUnit.machine (predictor q) isa p tid).logged.run (start, []) ops = .ok (answers, (u, log))) :
    (∀ sn w, Squashable tid (u, log) sn → BPredUnit.squash (predictor q) u sn tid = .ok w →
        settledView (fun s => s.globalHistory tid) (u, log) sn = some (w.predictor.globalHistory tid)) ∧
      (∀ record ∈ u.predHist tid, ∀ corrTarget taken rand w,
        BPredUnit.squashMispredicted (predictor q) isa u record.seqNum corrTarget taken tid rand = .ok w →
        ∃ call, prediction log record.seqNum = some call ∧ w.predictor.globalHistory tid =
          shiftIn q.historyRegisterMask (call.1.predictor.globalHistory tid) taken) ∧
      (∀ done_sn calls w, BPredUnit.update (predictor q) u done_sn tid = .ok (calls, w) →
        w.predictor.globalHistory tid = u.predictor.globalHistory tid) ∧
      u.predictor.globalHistory tid ≤ q.historyRegisterMask := by
  obtain ⟨-, rfl⟩ := construct_eq_ok_iff.mp hs
  obtain ⟨-, -, rfl⟩ := BPredUnit.construct_eq_ok_iff.mp hstart
  have hd := predictor_checkpoints q tid
  have hpoint : Checkpointed tid (fun s : State q => s.globalHistory tid) BPHistory.globalHistory (u, log) :=
    Machine.run_invariant (fun _ _ _ _ h hop hstep => h.step hd hop hstep) (.initial isa _) hops hrun
  refine ⟨?_, ?_, ?_, ?_⟩
  · intro sn w hsn hsquash
    exact hpoint.view_squash hd hsn hsquash
  · intro record hmem corrTarget taken rand w hsquash
    exact hpoint.view_correct hd hmem hsquash
  · intro done_sn calls w hupdate
    exact hd.view_update hupdate
  · obtain ⟨m, hreach, habstracts⟩ :=
      BPredUnit.reaches_inFlight (Machine.Reaches.start.run (Machine.run_of_logged_run hrun))
    have hmasked := (InFlight.reaches_holds (predictor_preserves_masked q)
      (fun _ => BitVec.le_def.mpr (Nat.zero_le _)) hreach).1
    rw [habstracts.predictor] at hmasked
    exact hmasked tid

/-- The unit of the examples below, over a small predictor. -/
def smallUnit : BPredUnit.State BPredUnit.smallParams (State smallParams) BPHistory SimplePCState :=
  .initial alpha BPredUnit.smallParams (.initial smallParams)

/-- A branch that is corrected, with a younger one in flight. -/
def correctedRun : List (Op SimplePCState StaticInst) :=
  [.predict BPredUnit.conditionalBranch 1 (.set 0), .squashMispredicted 1 (.set 64) true 0,
    .predict BPredUnit.conditionalBranch 2 (.set 64)]

/-- A squash to a corrected branch gives the corrected register. -/
theorem globalHistory_repaired_after_correction : ∃ answers u log w,
      (BPredUnit.machine (predictor smallParams) alpha BPredUnit.smallParams 0).logged.run
        (smallUnit, []) correctedRun =
        .ok (answers, (u, log)) ∧ BPredUnit.squash (predictor smallParams) u 1 0 = .ok w ∧
      settledView (fun s => s.globalHistory 0) (u, log) 1 = some (w.predictor.globalHistory 0) := by
  refine ⟨?answers, ?u, ?log, ?w, ?run, ?squash,
    (globalHistory_repaired smallParams _ rfl alpha BPredUnit.smallParams 0 _ ?u rfl
    correctedRun ?answers ?log ?fresh ?run).1 1 ?w (.inl ?flight) ?squash⟩
  case run | squash => rfl
  case fresh => exact BPredUnit.stepsAll_fresh nofun (by decide)
  exact ⟨_, .tail _ (.head _), rfl⟩

/-- A branch is predicted not taken, which leaves 0 in the register, and then
corrected. The squash of a younger branch does not bring the 0 back. -/
theorem squash_does_not_restore_the_predicted_register : ∃ answers v log answers' u log' w,
      (BPredUnit.machine (predictor smallParams) alpha BPredUnit.smallParams 0).logged.run (smallUnit, [])
        [.predict BPredUnit.conditionalBranch 1 (.set 0)] = .ok (answers, (v, log)) ∧ v.predictor.globalHistory 0 = 0 ∧
      (BPredUnit.machine (predictor smallParams) alpha BPredUnit.smallParams 0).logged.run
        (smallUnit, []) correctedRun =
        .ok (answers', (u, log')) ∧
      (BPredUnit.machine (predictor smallParams) alpha BPredUnit.smallParams 0).logged.StepsAll Fresh (smallUnit, [])
        correctedRun ∧ (u.predHist 0).map BPredUnit.PredictorHistory.seqNum = [2, 1] ∧
      BPredUnit.squash (predictor smallParams) u 1 0 = .ok w ∧ w.predictor.globalHistory 0 = 1 :=
  ⟨_, _, _, _, _, _, _, rfl, rfl, rfl, BPredUnit.stepsAll_fresh nofun (by decide), rfl, rfl, rfl⟩

end Gem5.TournamentBP
