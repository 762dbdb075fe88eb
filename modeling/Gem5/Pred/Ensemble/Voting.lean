import Gem5.Pred.SatCounter
import Mathlib.Algebra.Order.Group.Int

namespace Gem5.Ensemble

/-- One item for each expert of an ensemble: gshare, global, and a third one,
which is the local predictor in `EnsembleBP` and the tournament of the local
and the global predictor in `EnsembleBP2`. -/
structure Experts (A : Type) where
  gshare : A
  global : A
  third : A
  deriving DecidableEq

namespace Experts

variable {A B C : Type}

def zipWith (f : A → B → C) (a : Experts A) (b : Experts B) : Experts C :=
  ⟨f a.gshare b.gshare, f a.global b.global, f a.third b.third⟩

def Forall₂ (R : A → B → Prop) (a : Experts A) (b : Experts B) : Prop :=
  R a.gshare b.gshare ∧ R a.global b.global ∧ R a.third b.third

def sum (a : Experts Nat) : Nat := a.gshare + a.global + a.third

end Experts

/-- The statistics of bpred_unit.hh that the ensembles and tournaments count. -/
structure ExpertStats where
  atLeastOneCorrectExpertOnMispredict : Nat := 0
  allExpertsWrong : Nat := 0
  allExpertsRight : Nat := 0
  lowWeightExpertsWon : Nat := 0
  oneCorrectExpert : Nat := 0
  twoCorrectExpert : Nat := 0
  threeCorrectExpert : Nat := 0
  deriving DecidableEq

/-- The signed weight with which one expert enters the verdict. -/
def ballot (vote : Bool) (weight : SatCounter) : Int := if vote then weight.read else -weight.read

/-- The weighted sum `accumulation` of `lookup`. -/
def accumulation (votes : Experts Bool) (weights : Experts SatCounter) : Int :=
  ballot votes.global weights.global + ballot votes.third weights.third +
    ballot votes.gshare weights.gshare

/-- `finalPrediction`, with ties counted as taken. -/
def verdict (votes : Experts Bool) (weights : Experts SatCounter) : Bool :=
  accumulation votes weights ≥ 0

/-- The experts that voted for the final prediction. -/
def contributors (finalPrediction : Bool) (votes : Experts Bool) : Experts Bool :=
  ⟨finalPrediction == votes.gshare, finalPrediction == votes.global, finalPrediction == votes.third⟩

def contributorCount (contributed : Experts Bool) : Nat :=
  contributed.gshare.toNat + contributed.global.toNat + contributed.third.toNat

def learningRate (contributorCount : Nat) : Nat :=
  if contributorCount = 1 then 2 else if contributorCount = 2 then 1 else 0

def adjustmentRate (contributorCount : Nat) : Nat :=
  if contributorCount = 1 then 1 else if contributorCount = 2 then 2 else 0

/-- Learning: a contributor gains weight when the ensemble was right and loses
it otherwise. -/
def learnExpert (correct : Bool) (rate : Nat) (contributed : Bool) (weight : SatCounter) : SatCounter :=
  if contributed then
    if correct then SatCounter.increment^[rate] weight else SatCounter.decrement^[rate] weight
  else weight

/-- Adjustment: an expert that opposed the verdict loses weight when the
ensemble was right and gains it otherwise. -/
def adjustExpert (correct : Bool) (rate : Nat) (contributed : Bool) (weight : SatCounter) : SatCounter :=
  if contributed then weight
  else if correct then SatCounter.decrement^[rate] weight else SatCounter.increment^[rate] weight

def weightSum (weights : Experts SatCounter) : Nat :=
  weights.gshare.read + weights.global.read + weights.third.read

/-- The learning and adjustment part of `update`. The adjustment is made only
while the learned weights exceed `maxWeightSum`. -/
def learn (maxWeightSum : Nat) (finalPrediction taken : Bool) (votes : Experts Bool)
    (weights : Experts SatCounter) : Experts SatCounter :=
  let contributed := contributors finalPrediction votes
  let count := contributorCount contributed
  let correct := finalPrediction == taken
  let learned := contributed.zipWith (learnExpert correct (learningRate count)) weights
  if weightSum learned > maxWeightSum then
    contributed.zipWith (adjustExpert correct (adjustmentRate count)) learned
  else learned

/-- Whether the expert of the highest weight was outvoted by the two others. -/
def highestWeightOutvoted (contributed : Experts Bool) (weights : Experts SatCounter) : Bool :=
  (!contributed.gshare && contributed.global && contributed.third &&
      weights.gshare.read > weights.global.read && weights.gshare.read > weights.third.read) ||
    (contributed.gshare && !contributed.global && contributed.third &&
      weights.global.read > weights.gshare.read && weights.global.read > weights.third.read) ||
    (contributed.gshare && contributed.global && !contributed.third &&
      weights.third.read > weights.gshare.read && weights.third.read > weights.global.read)

/-- `updateAdditionalStats` of the two ensembles. Both compare the votes of
the local, global and gshare predictors for unanimity and for a correct expert,
and count the correct ones among their own three experts. -/
def updateAdditionalStats (taken finalPrediction localPredTaken : Bool) (votes : Experts Bool)
    (weights : Experts SatCounter) (stats : ExpertStats) : ExpertStats :=
  let mispredict := !(taken == finalPrediction)
  let numCorrect := (votes.third == taken).toNat + (votes.global == taken).toNat + (votes.gshare == taken).toNat
  let contributed := contributors finalPrediction votes
  let unanimous := localPredTaken == votes.global && votes.global == votes.gshare
  let someCorrect := localPredTaken == taken || votes.global == taken || votes.gshare == taken
  { lowWeightExpertsWon := stats.lowWeightExpertsWon +
      (highestWeightOutvoted contributed weights).toNat
    allExpertsWrong := stats.allExpertsWrong + (unanimous && mispredict).toNat
    allExpertsRight := stats.allExpertsRight + (unanimous && !mispredict).toNat
    atLeastOneCorrectExpertOnMispredict := stats.atLeastOneCorrectExpertOnMispredict +
      (mispredict && someCorrect).toNat
    oneCorrectExpert := stats.oneCorrectExpert + (mispredict && numCorrect == 1).toNat
    twoCorrectExpert := stats.twoCorrectExpert + (mispredict && numCorrect == 2).toNat
    threeCorrectExpert := stats.threeCorrectExpert + (mispredict && numCorrect == 3).toNat }

/-- The final prediction is the vote of at least one expert. -/
def FollowsAnExpert (finalPrediction : Bool) (votes : Experts Bool) : Prop :=
  finalPrediction = votes.gshare ∨ finalPrediction = votes.global ∨ finalPrediction = votes.third

def Unanimous (vote : Bool) (votes : Experts Bool) : Prop := votes = ⟨vote, vote, vote⟩

theorem ballot_true (weight : SatCounter) : ballot true weight = weight.read := rfl

theorem ballot_false (weight : SatCounter) : ballot false weight = -weight.read := rfl

/-- A unanimous vote is followed, except that three experts without any weight
cannot vote a branch not taken. -/
theorem verdict_of_unanimous (h : Unanimous vote votes) (weights : Experts SatCounter) :
    verdict votes weights = vote ↔ ¬(vote = false ∧ weightSum weights = 0) := by
  subst h
  cases vote with
  | true =>
    simp only [verdict, accumulation, ballot_true, ge_iff_le, decide_eq_true_eq, Bool.true_eq_false,
      false_and, not_false_eq_true, iff_true]
    omega
  | false =>
    simp only [verdict, accumulation, ballot_false, weightSum, ge_iff_le, decide_eq_false_iff_not, true_and]
    omega

/-- The tie break is the only way to a verdict that no expert voted for. -/
theorem verdict_followsAnExpert_iff (votes : Experts Bool) (weights : Experts SatCounter) :
    FollowsAnExpert (verdict votes weights) votes ↔ ¬(Unanimous false votes ∧ weightSum weights = 0) := by
  obtain ⟨gshare, global, third⟩ := votes
  by_cases hall : global = gshare ∧ third = gshare
  · obtain ⟨rfl, rfl⟩ := hall
    have hsame : FollowsAnExpert (verdict ⟨third, third, third⟩ weights) ⟨third, third, third⟩ ↔
        verdict ⟨third, third, third⟩ weights = third := by
      simp [FollowsAnExpert]
    rw [hsame, verdict_of_unanimous rfl]
    simp [Unanimous]
  · have hsplit : ∀ final : Bool, FollowsAnExpert final ⟨gshare, global, third⟩ := by
      revert hall
      unfold FollowsAnExpert
      cases gshare <;> cases global <;> cases third <;> simp
    refine iff_of_true (hsplit _) ?_
    rintro ⟨hnone, -⟩
    cases hnone
    exact hall ⟨rfl, rfl⟩

theorem contributorCount_ne_zero_iff (finalPrediction : Bool) (votes : Experts Bool) :
    contributorCount (contributors finalPrediction votes) ≠ 0 ↔ FollowsAnExpert finalPrediction votes := by
  obtain ⟨gshare, global, third⟩ := votes
  unfold contributorCount contributors FollowsAnExpert
  cases finalPrediction <;> cases gshare <;> cases global <;> cases third <;> decide

end Gem5.Ensemble
