import Gem5.Pred.Ensemble.Weights

open Lib
open Gem5.Ensemble

namespace Gem5.Ensemble

/-- The counters split `mispredicts` mispredictions by how many experts were
right. -/
def ExpertStats.Split (stats : ExpertStats) (mispredicts : Nat) : Prop :=
  stats.oneCorrectExpert + stats.twoCorrectExpert + stats.threeCorrectExpert =
      stats.atLeastOneCorrectExpertOnMispredict ∧
    stats.threeCorrectExpert = 0 ∧
    stats.allExpertsWrong + stats.atLeastOneCorrectExpertOnMispredict = mispredicts

/-- A commit keeps the split exactly when it does not count a verdict as
mispredicted that was against three right experts. -/
theorem ExpertStats.Split.update_iff (h : stats.Split mispredicts) (taken finalPrediction : Bool)
    (votes : Experts Bool) (weights : Experts SatCounter) :
    (updateAdditionalStats taken finalPrediction votes.third votes weights stats).Split
        (mispredicts + (finalPrediction != taken).toNat) ↔ (Unanimous taken votes → finalPrediction = taken) := by
  obtain ⟨gshare, global, third⟩ := votes
  obtain ⟨hsum, hthree, htotal⟩ := h
  simp only [Split, updateAdditionalStats, Unanimous, Experts.mk.injEq]
  cases taken <;> cases finalPrediction <;> cases gshare <;> cases global <;> cases third <;> simp <;> omega

end Gem5.Ensemble

namespace Gem5.EnsembleBP

/-- A committed update whose recorded final prediction is not the outcome. -/
def mispredicted {p : Params} : Session p × Call × Option Bool → Bool
  | (m, .update _ _ taken name false, _) =>
    match m.histories.get name with
    | .ok h => h.finalPrediction != taken
    | .error _ => false
  | _ => false

/-- The guard under which a commit does not count a verdict against three right
experts. -/
def VerdictNotAgainstAll (p : Params) (m : Session p × List (Session p × Call × Option Bool)) (c : Call) : Prop :=
  Calls.CommitGuard (fun taken h => Unanimous taken h.votes → h.finalPrediction = taken) m.1 c

/-- In every run the statistics split the mispredicted commits, of which the log
of the run has all, by the number of right experts, in every state exactly
when no commit finds that its verdict was wrong while all experts were right. -/
theorem stats_split_iff (p : Params) (s : State p) (hs : construct p = .ok s) (calls : List Call)
    (answers : List (Option Bool)) (last : Session p × List (Session p × Call × Option Bool))
    (hrun : (Calls.machine (predictor p)).logged.run (Calls.start s, []) calls = .ok (answers, last)) :
    (Calls.machine (predictor p)).logged.StatesAll
        (fun m => m.1.predictor.stats.Split (m.2.countP mispredicted)) (Calls.start s, []) calls ↔
      (Calls.machine (predictor p)).logged.StepsAll (VerdictNotAgainstAll p) (Calls.start s, []) calls := by
  obtain ⟨-, rfl⟩ := construct_eq_ok_iff.mp hs
  refine Machine.statesAll_iff_stepsAll (I := fun _ => True) ?_ trivial ⟨rfl, rfl, rfl⟩ hrun
  rintro ⟨m, log⟩ c o next - hsplit hstep
  obtain ⟨m', hcall, rfl⟩ := Machine.logged_step_eq_ok_iff.mp hstep
  refine ⟨trivial, ?_⟩
  simp only [List.countP_cons]
  rcases weights_of_step hcall with ⟨⟨-, hsame⟩, hother⟩ | ⟨tid, pc, taken, name, h, rfl, hget, -, hstats⟩
  · rw [hsame]
    have hnot : mispredicted (m, c, o) = false := by
      unfold mispredicted
      split
      next heq =>
        cases heq
        exact absurd rfl (hother _ _ _ _)
      · rfl
    exact iff_of_true (by simpa [hnot] using hsplit) (Calls.CommitGuard.of_ne hother)
  · have hcount : (if mispredicted (m, .update tid pc taken name false, o) = true then 1 else 0) =
        (h.finalPrediction != taken).toNat := by
      simp only [mispredicted, hget]
      cases h.finalPrediction != taken <;> rfl
    have hguard : VerdictNotAgainstAll p (m, log) (.update tid pc taken name false) ↔
        (Unanimous taken h.votes → h.finalPrediction = taken) := by
      simp [VerdictNotAgainstAll, Calls.CommitGuard, hget]
    rw [hstats, hcount, hguard]
    exact hsplit.update_iff taken h.finalPrediction h.votes _

/-- A branch that was taken twice, which the tie break predicted, is not taken the
third time, against the three votes. -/
theorem stats_split_of_trained_branch : (Calls.machine (predictor smallParams)).logged.StatesAll
      (fun m => m.1.predictor.stats.Split (m.2.countP mispredicted)) (Calls.start (State.initial smallParams), [])
      [.lookup 0 0, .update 0 0 true 0 false, .lookup 0 0, .update 0 0 true 1 false, .lookup 0 0,
        .update 0 0 false 2 false] := by
  refine (stats_split_iff smallParams _ rfl _ _ _ rfl).mpr ?_
  refine ⟨trivial, fun _ _ h₁ => ⟨?_, fun _ _ h₂ => ⟨trivial, fun _ _ h₃ => ⟨?_, fun _ _ h₄ =>
    ⟨trivial, fun _ _ h₅ => ⟨?_, fun _ _ _ => trivial⟩⟩⟩⟩⟩⟩
  · cases h₁
    intro h hget
    cases hget
    exact fun _ => rfl
  · cases h₁
    cases h₂
    cases h₃
    intro h hget
    cases hget
    exact fun _ => rfl
  · cases h₁
    cases h₂
    cases h₃
    cases h₄
    cases h₅
    intro h hget
    cases hget
    intro hall
    cases hall

/-- A fresh predictor breaks the tie of its three votes for not taken towards
taken. When the branch is not taken, all experts were right, and the commit is
counted as one with all experts wrong, with three right and with at least one
right. -/
theorem fresh_misprediction_counted_twice : ∃ s answers last, construct smallParams = .ok s ∧
      (Calls.machine (predictor smallParams)).logged.run (Calls.start s, []) [.lookup 0 0, .update 0 0 false 0 false] =
        .ok (answers, last) ∧ last.2.countP mispredicted = 1 ∧ last.1.predictor.stats =
        { atLeastOneCorrectExpertOnMispredict := 1, allExpertsWrong := 1, threeCorrectExpert := 1 } :=
  ⟨_, _, _, rfl, rfl, rfl, rfl⟩

end Gem5.EnsembleBP
