import Gem5.Pred.Ensemble.Voting

namespace Gem5.Ensemble

theorem learnExpert_read (correct : Bool) (rate : Nat) (contributed : Bool) (weight : SatCounter) :
    (learnExpert correct rate contributed weight).read = if contributed then
        if correct then min (weight.read + rate) weight.maxVal else weight.read - rate else weight.read := by
  unfold learnExpert
  cases contributed <;> cases correct <;> simp [SatCounter.iterate_increment_read, SatCounter.iterate_decrement_read]

theorem adjustExpert_read (correct : Bool) (rate : Nat) (contributed : Bool) (weight : SatCounter) :
    (adjustExpert correct rate contributed weight).read = if contributed then weight.read
      else if correct then weight.read - rate else min (weight.read + rate) weight.maxVal := by
  unfold adjustExpert
  cases contributed <;> cases correct <;> simp [SatCounter.iterate_increment_read, SatCounter.iterate_decrement_read]

theorem learnExpert_maxVal (correct : Bool) (rate : Nat) (contributed : Bool) (weight : SatCounter) :
    (learnExpert correct rate contributed weight).maxVal = weight.maxVal := by
  unfold learnExpert
  cases contributed <;> cases correct <;>
    simp [SatCounter.iterate_increment_maxVal, SatCounter.iterate_decrement_maxVal]

theorem adjustExpert_maxVal (correct : Bool) (rate : Nat) (contributed : Bool) (weight : SatCounter) :
    (adjustExpert correct rate contributed weight).maxVal = weight.maxVal := by
  unfold adjustExpert
  cases contributed <;> cases correct <;>
    simp [SatCounter.iterate_increment_maxVal, SatCounter.iterate_decrement_maxVal]

/-- The maximum of each weight counter. -/
def maxVals (weights : Experts SatCounter) : Experts Nat :=
  ⟨weights.gshare.maxVal, weights.global.maxVal, weights.third.maxVal⟩

theorem learn_maxVals (maxWeightSum : Nat) (finalPrediction taken : Bool) (votes : Experts Bool)
    (weights : Experts SatCounter) :
    maxVals (learn maxWeightSum finalPrediction taken votes weights) = maxVals weights := by
  simp only [learn]
  split <;> simp [maxVals, Experts.zipWith, learnExpert_maxVal, adjustExpert_maxVal]

/-- The weight that one adjustment can take from an expert that opposed a
correct verdict. -/
def takenBack (rate : Nat) (contributed : Bool) (weight : SatCounter) : Nat :=
  if contributed then 0 else min weight.read rate

/-- The experts that opposed a correct verdict hold enough weight to pay for
what the contributors gain beyond `maxWeightSum`. A verdict that was wrong,
or that all three or none of the experts voted for, asks for nothing. -/
def CanRebalance (maxWeightSum : Nat) (finalPrediction taken : Bool) (votes : Experts Bool)
    (weights : Experts SatCounter) : Prop :=
  let contributed := contributors finalPrediction votes
  let count := contributorCount contributed
  finalPrediction = taken → count = 1 ∨ count = 2 →
    weightSum weights + 2 ≤
      maxWeightSum + (contributed.zipWith (takenBack (adjustmentRate count)) weights).sum

instance (maxWeightSum : Nat) (finalPrediction taken : Bool) (votes : Experts Bool)
    (weights : Experts SatCounter) :
    Decidable (CanRebalance maxWeightSum finalPrediction taken votes weights) :=
  inferInstanceAs (Decidable (_ = _ → _ ∨ _ → _ ≤ _))

theorem adjustExpert_read_add_takenBack (rate : Nat) (contributed : Bool) (weight : SatCounter) :
    (adjustExpert true rate contributed weight).read + takenBack rate contributed weight = weight.read := by
  rw [adjustExpert_read, takenBack]
  cases contributed with
  | true => rfl
  | false =>
    simp only [Bool.false_eq_true, if_false, if_true]
    omega

/-- Learning does not touch the experts that an adjustment takes from. -/
theorem takenBack_learnExpert (correct : Bool) (learning adjustment : Nat) (contributed : Bool) (weight : SatCounter) :
    takenBack adjustment contributed (learnExpert correct learning contributed weight) =
      takenBack adjustment contributed weight := by
  cases contributed <;> rfl

theorem learnExpert_read_le_of_wrong (rate : Nat) (contributed : Bool) (weight : SatCounter) :
    (learnExpert false rate contributed weight).read ≤ weight.read := by
  rw [learnExpert_read]
  cases contributed <;> simp

theorem learnExpert_zero_read (correct contributed : Bool) (weight : SatCounter) :
    (learnExpert correct 0 contributed weight).read = weight.read := by
  have := weight.read_le_maxVal
  rw [learnExpert_read]
  cases contributed <;> cases correct <;> simp [this]

variable {weights : Experts SatCounter}

/-- A correct verdict of one or two experts adds two to the sum of the weights,
as long as no counter saturates. -/
theorem weightSum_learnExpert_of_correct (hsum : weightSum weights ≤ bound)
    (hgshare : bound + 2 ≤ weights.gshare.maxVal) (hglobal : bound + 2 ≤ weights.global.maxVal)
    (hthird : bound + 2 ≤ weights.third.maxVal)
    (hcount : contributorCount contributed = 1 ∨ contributorCount contributed = 2) : weightSum (contributed.zipWith
      (learnExpert true (learningRate (contributorCount contributed))) weights) = weightSum weights + 2 := by
  obtain ⟨a, b, c⟩ := contributed
  simp only [weightSum] at hsum
  simp only [weightSum, Experts.zipWith, learnExpert_read]
  revert hcount
  -- the learning rate is 2 for a single contributor and 1 for each of two
  cases a <;> cases b <;> cases c <;> simp [contributorCount, learningRate] <;> omega

/-- One commit keeps the sum of the weights within the maximum exactly when the
opposing experts can pay. No counter saturates at its own maximum as long as
that leaves room for one learning step above the maximum sum. -/
theorem weightSum_learn_le_iff (hsum : weightSum weights ≤ maxWeightSum)
    (hgshare : maxWeightSum + 2 ≤ weights.gshare.maxVal) (hglobal : maxWeightSum + 2 ≤ weights.global.maxVal)
    (hthird : maxWeightSum + 2 ≤ weights.third.maxVal) (finalPrediction taken : Bool) (votes : Experts Bool) :
    weightSum (learn maxWeightSum finalPrediction taken votes weights) ≤ maxWeightSum ↔
      CanRebalance maxWeightSum finalPrediction taken votes weights := by
  simp only [learn, CanRebalance]
  generalize contributors finalPrediction votes = contributed
  by_cases hcorrect : finalPrediction = taken
  · subst hcorrect
    simp only [beq_self_eq_true, forall_const]
    by_cases hcount : contributorCount contributed = 1 ∨ contributorCount contributed = 2
    · have hlearned := weightSum_learnExpert_of_correct hsum hgshare hglobal hthird hcount
      simp only [hcount, forall_const]
      split
      · have h₁ := adjustExpert_read_add_takenBack (adjustmentRate (contributorCount contributed))
          contributed.gshare (learnExpert true (learningRate (contributorCount contributed))
            contributed.gshare weights.gshare)
        have h₂ := adjustExpert_read_add_takenBack (adjustmentRate (contributorCount contributed))
          contributed.global (learnExpert true (learningRate (contributorCount contributed))
            contributed.global weights.global)
        have h₃ := adjustExpert_read_add_takenBack (adjustmentRate (contributorCount contributed))
          contributed.third (learnExpert true (learningRate (contributorCount contributed))
            contributed.third weights.third)
        rw [takenBack_learnExpert] at h₁ h₂ h₃
        simp only [weightSum, Experts.zipWith, Experts.sum] at hlearned ⊢
        omega
      · omega
    · have hrate : learningRate (contributorCount contributed) = 0 := by
        unfold learningRate
        split_ifs <;> tauto
      have hsame : weightSum (contributed.zipWith (learnExpert true 0) weights) = weightSum weights := by
        simp [weightSum, Experts.zipWith, learnExpert_zero_read]
      simp only [hcount, false_imp_iff, iff_true, hrate]
      rw [if_neg (by omega)]
      exact hsame.trans_le hsum
  · have hbeq : (finalPrediction == taken) = false := beq_eq_false_iff_ne.mpr hcorrect
    have hless : ∀ rate, weightSum (contributed.zipWith (learnExpert false rate) weights) ≤
        weightSum weights := by
      intro rate
      have h₁ := learnExpert_read_le_of_wrong rate contributed.gshare weights.gshare
      have h₂ := learnExpert_read_le_of_wrong rate contributed.global weights.global
      have h₃ := learnExpert_read_le_of_wrong rate contributed.third weights.third
      simp only [weightSum, Experts.zipWith]
      omega
    simp only [hbeq, hcorrect, false_imp_iff, iff_true]
    have hle := (hless (learningRate (contributorCount contributed))).trans hsum
    rw [if_neg (by omega)]
    exact hle

/-- Every expert either votes taken or has no weight to vote not taken with. -/
def Unopposed (votes : Experts Bool) (weights : Experts SatCounter) : Prop :=
  votes.Forall₂ (fun vote weight => vote = true ∨ weight.read = 0) weights

variable {weight : SatCounter}

theorem ballot_nonneg (h : vote = true ∨ weight.read = 0) : 0 ≤ ballot vote weight := by
  unfold ballot
  split <;> simp_all

variable {votes : Experts Bool}

theorem verdict_of_unopposed (h : Unopposed votes weights) : verdict votes weights = true := by
  obtain ⟨hgshare, hglobal, hthird⟩ := h
  have h₁ := ballot_nonneg hgshare
  have h₂ := ballot_nonneg hglobal
  have h₃ := ballot_nonneg hthird
  simp only [verdict, accumulation, ge_iff_le, decide_eq_true_eq]
  omega

theorem Unopposed.mono (h : Unopposed votes weights)
    (hle : votes.Forall₂ (fun vote vote' => vote = true → vote' = true) votes') : Unopposed votes' weights := by
  obtain ⟨h₁, h₂, h₃⟩ := h
  obtain ⟨hle₁, hle₂, hle₃⟩ := hle
  exact ⟨h₁.imp_left hle₁, h₂.imp_left hle₂, h₃.imp_left hle₃⟩

theorem unopposed_of_weightSum (h : weightSum weights = 0) (votes : Experts Bool) : Unopposed votes weights := by
  simp only [weightSum] at h
  exact ⟨.inr (by omega), .inr (by omega), .inr (by omega)⟩

theorem learnExpert_unopposed (rate : Nat) (h : vote = true ∨ weight.read = 0) :
    vote = true ∨ (learnExpert true rate (true == vote) weight).read = 0 := by
  cases vote with
  | true => exact .inl rfl
  | false => exact .inr (by simpa [learnExpert_read] using h)

theorem adjustExpert_unopposed (rate : Nat) (h : vote = true ∨ weight.read = 0) :
    vote = true ∨ (adjustExpert true rate (true == vote) weight).read = 0 := by
  cases vote with
  | true => exact .inl rfl
  | false => exact .inr (by simp_all [adjustExpert_read])

/-- A taken branch that was predicted taken gives no weight to the experts that
voted not taken. -/
theorem Unopposed.learn (h : Unopposed votes weights) (maxWeightSum : Nat) :
    Unopposed votes (learn maxWeightSum true true votes weights) := by
  obtain ⟨h₁, h₂, h₃⟩ := h
  simp only [Ensemble.learn, beq_self_eq_true]
  generalize learningRate _ = learning
  generalize adjustmentRate _ = adjustment
  split
  · exact ⟨adjustExpert_unopposed _ (learnExpert_unopposed _ h₁),
      adjustExpert_unopposed _ (learnExpert_unopposed _ h₂),
      adjustExpert_unopposed _ (learnExpert_unopposed _ h₃)⟩
  · exact ⟨learnExpert_unopposed _ h₁, learnExpert_unopposed _ h₂, learnExpert_unopposed _ h₃⟩

/-- Without a contributor there is nothing to learn from. -/
theorem learn_of_unanimous_against (h : Unanimous (!finalPrediction) votes) (hsum : weightSum weights ≤ maxWeightSum)
    (taken : Bool) : learn maxWeightSum finalPrediction taken votes weights = weights := by
  subst h
  have hnone : contributors finalPrediction ⟨!finalPrediction, !finalPrediction, !finalPrediction⟩ =
      ⟨false, false, false⟩ := by
    cases finalPrediction <;> rfl
  simp only [learn, hnone, Experts.zipWith, learnExpert, Bool.false_eq_true, if_false]
  exact if_neg (Nat.not_lt.mpr hsum)

end Gem5.Ensemble
