import Gem5.Pred.Ensemble.Learning
import Gem5.Pred.Ensemble.Verdict

open Lib Result
open Gem5.Ensemble

namespace Gem5.EnsembleBP

/-- The weights are counters of `WEIGHT_COUNTER_SIZE` bits. -/
def WeightsInFourBits {p : Params} (s : State p) : Prop := maxVals s.weights = ⟨15, 15, 15⟩

/-- A call leaves the weights and the statistics alone unless it is an `update`
at commit, which makes the weights learn and counts the experts. -/
theorem weights_of_step (hstep : (Calls.machine (predictor p)).step m c = .ok (o, m')) :
    (m'.predictor.weights = m.predictor.weights ∧ m'.predictor.stats = m.predictor.stats) ∧
        (∀ tid branch_addr taken name, c ≠ .update tid branch_addr taken name false) ∨
      ∃ tid branch_addr taken name h, c = .update tid branch_addr taken name false ∧ m.histories.get name = .ok h ∧
        m'.predictor.weights = learn MAX_WEIGHT_SUM h.finalPrediction taken h.votes m.predictor.weights ∧
        m'.predictor.stats = updateAdditionalStats taken h.finalPrediction h.localPredTaken h.votes
          m.predictor.weights m.predictor.stats := by
  cases Calls.step_iff.mp hstep with
  | lookup hcall =>
    obtain ⟨idx, votes, -, -, -, -, rfl⟩ := lookup_eq_ok_iff.mp hcall
    exact .inl ⟨⟨rfl, rfl⟩, by simp⟩
  | uncondBranch hcall =>
    cases hcall
    exact .inl ⟨⟨rfl, rfl⟩, by simp⟩
  | btbUpdate _ hcall =>
    obtain ⟨table, -, ⟨⟩⟩ := bind_ok hcall
    exact .inl ⟨⟨rfl, rfl⟩, by simp⟩
  | @update tid pc taken name squashed h _ hget hcall =>
    cases squashed with
    | true =>
      obtain ⟨-, table, -, -, ⟨⟩⟩ := bind_ok₂ hcall
      exact .inl ⟨⟨rfl, rfl⟩, by simp⟩
    | false =>
      obtain ⟨_, _, _, _, _, -, -, -, -, -, ⟨⟩⟩ := bind₅_eq_ok_iff.mp hcall
      exact .inr ⟨tid, pc, taken, name, h, rfl, hget, rfl, rfl⟩
  | squash _ hcall =>
    obtain ⟨table, -, ⟨⟩⟩ := bind_ok hcall
    exact .inl ⟨⟨rfl, rfl⟩, by simp⟩

/-- The guard under which a call keeps the weights within their maximum sum. -/
def Rebalances (p : Params) (m : Session p) (c : Call) : Prop :=
  Calls.CommitGuard (fun taken h =>
    CanRebalance MAX_WEIGHT_SUM h.finalPrediction taken h.votes m.predictor.weights) m c

theorem weightSum_step (m : Session p) (c : Call) (o : Option Bool) (m' : Session p)
    (hbits : WeightsInFourBits m.predictor) (hsum : weightSum m.predictor.weights ≤ MAX_WEIGHT_SUM)
    (hstep : (Calls.machine (predictor p)).step m c = .ok (o, m')) : WeightsInFourBits m'.predictor ∧
      (weightSum m'.predictor.weights ≤ MAX_WEIGHT_SUM ↔ Rebalances p m c) := by
  rcases weights_of_step hstep with ⟨⟨hsame, -⟩, hother⟩ | ⟨tid, pc, taken, name, h, rfl, hget, hlearn, -⟩
  · refine ⟨by rw [WeightsInFourBits, hsame]; exact hbits, iff_of_true (hsame ▸ hsum) (.of_ne hother)⟩
  · have hmax : maxVals m.predictor.weights = ⟨15, 15, 15⟩ := hbits
    have hguard : Rebalances p m (.update tid pc taken name false) ↔
        CanRebalance MAX_WEIGHT_SUM h.finalPrediction taken h.votes m.predictor.weights := by
      simp [Rebalances, Calls.CommitGuard, hget]
    rw [WeightsInFourBits, hlearn, learn_maxVals, hmax, hguard]
    simp only [maxVals, Experts.mk.injEq] at hmax
    obtain ⟨hgshare, hglobal, hthird⟩ := hmax
    exact ⟨rfl, weightSum_learn_le_iff hsum (by simp [hgshare, MAX_WEIGHT_SUM])
      (by simp [hglobal, MAX_WEIGHT_SUM]) (by simp [hthird, MAX_WEIGHT_SUM]) _ _ _⟩

/-- For every sequence of calls, the three weights stay within
`MAX_WEIGHT_SUM` in every state exactly when at every commit the opposing
experts can pay for what the contributors gain beyond it. -/
theorem weightSum_le_max_iff (p : Params) (s : State p) (hs : construct p = .ok s)
    (calls : List Call) (answers : List (Option Bool)) (m : Session p)
    (hrun : (Calls.machine (predictor p)).run (Calls.start s) calls = .ok (answers, m)) :
    (Calls.machine (predictor p)).StatesAll
        (fun m => weightSum m.predictor.weights ≤ MAX_WEIGHT_SUM) (Calls.start s) calls ↔
      (Calls.machine (predictor p)).StepsAll (Rebalances p) (Calls.start s) calls := by
  obtain ⟨-, rfl⟩ := construct_eq_ok_iff.mp hs
  have hbits : WeightsInFourBits (Calls.start (State.initial p) : Session p).predictor := rfl
  have hsum : weightSum (Calls.start (State.initial p) : Session p).predictor.weights ≤ MAX_WEIGHT_SUM :=
    Nat.zero_le _
  exact Machine.statesAll_iff_stepsAll (I := fun m : Session p => WeightsInFourBits m.predictor)
    weightSum_step hbits hsum hrun

theorem weightSum_le_max_of_taken_branch : (Calls.machine (predictor smallParams)).StatesAll
      (fun m => weightSum m.predictor.weights ≤ MAX_WEIGHT_SUM) (Calls.start (State.initial smallParams))
      [.lookup 0 0, .update 0 0 true 0 false, .lookup 0 4, .squash 0 1] := by
  refine (weightSum_le_max_iff smallParams _ rfl _ _ _ rfl).mpr ?_
  refine ⟨trivial, fun _ _ h₁ => ⟨?_, fun _ _ _ => ⟨trivial, fun _ _ _ => ⟨trivial, fun _ _ _ => trivial⟩⟩⟩⟩
  cases h₁
  intro h hget
  cases hget
  decide

/-- A taken and a not-taken branch that only the gshare predictor tells apart.
Each round of it is one prediction and one commit. -/
def alternatingBranches : List Call :=
  [.lookup 0 0, .update 0 0 true 0 false, .lookup 0 0, .update 0 0 true 1 false,
    .lookup 0 4, .update 0 4 false 2 true, .update 0 4 false 2 false,
    .lookup 0 0, .update 0 0 true 3 false, .lookup 0 4, .update 0 4 false 4 false,
    .lookup 0 0, .update 0 0 true 5 false, .lookup 0 4, .update 0 4 false 6 false,
    .lookup 0 0, .update 0 0 true 7 false, .lookup 0 4, .update 0 4 false 8 false,
    .lookup 0 0, .update 0 0 true 9 false]

/-- The gshare predictor keeps being right on its own, and the other experts
have no weight left to give back. -/
theorem alternatingBranches_exceed_max : ∃ s answers m, construct smallParams = .ok s ∧
      (Calls.machine (predictor smallParams)).run (Calls.start s) alternatingBranches = .ok (answers, m) ∧
      weightSum m.predictor.weights = 14 := by
  have hrun : ((Calls.machine (predictor smallParams)).run (Calls.start (State.initial smallParams))
      alternatingBranches).map (fun r => weightSum r.2.predictor.weights) = .ok 14 := by
    decide +kernel
  obtain ⟨⟨answers, m⟩, hrun, hsum⟩ := map_ok hrun
  exact ⟨State.initial smallParams, answers, m, rfl, hrun, hsum⟩

end Gem5.EnsembleBP
