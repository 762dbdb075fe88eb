import Gem5.Pred.Calls
import Gem5.Pred.Ensemble.Spec

open Lib
open Gem5.Ensemble

namespace Gem5.EnsembleBP

/-- `EnsembleBP` under calls in any order, with the history objects in use. -/
abbrev Session (p : Params) : Type := Calls.State (State p) BPHistory

/-- The number of contributors that `update` computes from a history object. -/
def BPHistory.contributorCount (h : BPHistory) : Nat :=
  Ensemble.contributorCount (contributors h.finalPrediction h.votes)

/-- The three experts vote not taken and none of them has any weight. -/
def TieAgainstUnanimity (p : Params) (s : State p) (tid : ThreadID) (branch_addr : Addr) : Prop :=
  weightSum s.weights = 0 ∧
    ∃ idx votes, readExperts p s tid branch_addr = .ok (idx, votes) ∧ Unanimous false votes

/-- In every state a prediction follows one of the experts, follows them all
when they agree, and leaves a history object from which every later `update`
finds a contributor, exactly when the prediction is not a tie that is broken
against three votes for not taken. The state need not even be reachable. -/
theorem lookup_follows_an_expert_iff (p : Params) (m m' : Session p) (tid : ThreadID)
    (branch_addr : Addr) (taken : Bool)
    (hlookup : (Calls.machine (predictor p)).step m (.lookup tid branch_addr) = .ok (some taken, m')) :
    (∃ h, m'.histories.get m.histories.next = .ok h ∧ FollowsAnExpert taken h.votes ∧
        (∀ vote, Unanimous vote h.votes → taken = vote) ∧ ∀ later, (Calls.machine (predictor p)).Reaches m' later →
          ∀ h, later.histories.get m.histories.next = .ok h → h.contributorCount ≠ 0) ↔
      ¬TieAgainstUnanimity p m.predictor tid branch_addr := by
  obtain ⟨hcall⟩ := Calls.step_iff.mp hlookup
  obtain ⟨idx, votes, hread, -, rfl, rfl, rfl⟩ := lookup_eq_ok_iff.mp hcall
  have hcond : TieAgainstUnanimity p m.predictor tid branch_addr ↔
      Unanimous false votes ∧ weightSum m.predictor.weights = 0 := by
    constructor
    · rintro ⟨hweights, idx', votes', hread', hnone⟩
      rw [hread] at hread'
      cases hread'
      exact ⟨hnone, hweights⟩
    · rintro ⟨hnone, hweights⟩
      exact ⟨hweights, idx, votes, hread, hnone⟩
  have hnew : (m.histories.alloc (lookupHistory p m.predictor tid branch_addr idx votes)).get
      m.histories.next = .ok (lookupHistory p m.predictor tid branch_addr idx votes) :=
    Heap.get_eq_ok_iff.mpr (if_pos rfl)
  rw [hcond, ← verdict_followsAnExpert_iff]
  constructor
  · rintro ⟨h, hget, hfollows, -, -⟩
    rw [hnew] at hget
    cases hget
    exact hfollows
  · intro hfollows
    refine ⟨_, hnew, hfollows, fun vote hall => ?_, fun later hlater h hget => ?_⟩
    · cases (show votes = ⟨vote, vote, vote⟩ from hall)
      simpa [FollowsAnExpert] using hfollows
    · have hsame := Calls.reaches_histories hlater (Nat.lt_succ_self m.histories.next) hget
      rw [hnew] at hsame
      cases hsame
      exact (contributorCount_ne_zero_iff _ _).mpr hfollows

/-- After a branch was taken twice its experts agree on taken, and the third
prediction follows them. -/
theorem lookup_follows_trained_experts :
    ∃ m m', (Calls.machine (predictor smallParams)).run (Calls.start (State.initial smallParams))
        [.lookup 0 0, .update 0 0 true 0 false, .lookup 0 0, .update 0 0 true 1 false] =
          .ok ([some true, none, some true, none], m) ∧
      (Calls.machine (predictor smallParams)).step m (.lookup 0 0) = .ok (some true, m') ∧
      ∃ h, m'.histories.get m.histories.next = .ok h ∧ FollowsAnExpert true h.votes ∧
        (∀ vote, Unanimous vote h.votes → true = vote) ∧
        ∀ later, (Calls.machine (predictor smallParams)).Reaches m' later →
          ∀ h, later.histories.get m.histories.next = .ok h → h.contributorCount ≠ 0 := by
  refine ⟨_, _, rfl, rfl, (lookup_follows_an_expert_iff smallParams _ _ 0 0 true rfl).mpr ?_⟩
  rintro ⟨-, idx, votes, hread, hnone⟩
  cases (hread : Except.ok (0, ⟨true, true, true⟩) = Except.ok (idx, votes))
  cases hnone

/-- The first prediction of a fresh predictor is taken although all of its
experts vote not taken, and its history object has no contributor. -/
theorem fresh_lookup_follows_no_expert :
    ∃ s taken h s', construct smallParams = .ok s ∧ lookup smallParams s 0 0 = .ok (taken, h, s') ∧
      Unanimous false h.votes ∧ taken = true ∧ ¬FollowsAnExpert taken h.votes ∧ h.contributorCount = 0 := by
  refine ⟨_, _, _, _, rfl, rfl, rfl, rfl, ?_, rfl⟩
  rintro (h | h | h) <;> cases h

end Gem5.EnsembleBP
