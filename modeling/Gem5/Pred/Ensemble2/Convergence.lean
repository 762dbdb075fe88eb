import Gem5.Pred.Ensemble.Convergence
import Gem5.Pred.Ensemble2.Spec

open Lib Result Lib.ShiftRegister BitVec Table
open Gem5.Ensemble

namespace Gem5.EnsembleBP2

variable {p : Params} {tid : ThreadID} {pc : Addr}

/-- The first `lookup` of an address stays inside the tables: the hash of the
address falls inside the gshare table, and the choice table is not empty. -/
def FirstLookupFits (p : Params) (pc : Addr) : Prop :=
  (p.gsharePredictorIdx 0 pc).toNat < p.gsharePredictorSize.toNat ∧ p.choicePredictorSize ≠ 0

theorem lookup_of_readExperts (hp : Accepted p) (hread : readExperts p s tid pc = .ok (idx, local_prediction, votes)) :
    lookup p s tid pc = .ok (verdict votes s.weights, lookupHistory p s tid pc idx local_prediction votes, s) :=
  lookup_eq_ok_iff.mpr ⟨idx, local_prediction, votes, hread,
    lt_def.mpr (Params.calcLocHistIdx_lt hp pc), rfl, rfl, rfl⟩

/-- A taken branch does not turn the tournament of the local and the global
prediction away from taken: where the two disagree, the choice counter moves
towards the one that predicted taken. -/
theorem tournament_mono {choice : SatCounter} (hlocal : local_prediction = true → local_prediction' = true)
    (hglobal : global_prediction = true → global_prediction' = true)
    (h : (if choiceThreshold < choice.read then global_prediction else local_prediction) = true) :
    (if choiceThreshold < (if local_prediction ≠ global_prediction then
          choice.trainChoice local_prediction global_prediction true else choice).read
      then global_prediction' else local_prediction') = true := by
  have hup := choice.read_le_increment_read
  have hdown := choice.decrement_read
  cases local_prediction with
  | true =>
    cases global_prediction with
    | true => simp_all
    | false =>
      have hlow : ¬choiceThreshold < choice.decrement.read := by
        split at h
        · cases h
        · omega
      simp [SatCounter.trainChoice, hlow, hlocal]
  | false =>
    cases global_prediction with
    | true =>
      have hhigh : choiceThreshold < choice.increment.read := by
        split at h
        · omega
        · cases h
      simp [SatCounter.trainChoice, hhigh, hglobal]
    | false => simp at h

/-- The choice counter that `update` trains, whether or not it trains it, can be
read back. -/
theorem modifyIf_of_read (hread : read table index = .ok value) (condition : Bool) (f : SatCounter → SatCounter) :
    ∃ after, modifyIf condition table index f = .ok after ∧
      read after index = .ok (if condition then f value else value) := by
  cases condition with
  | true => exact modify_of_read hread f
  | false => exact ⟨table, rfl, hread⟩

section

variable (hp : Accepted p)
include hp

/-- Committing a taken branch right after its `lookup` moves no expert towards
not taken. -/
theorem update_of_readExperts {s : State p} {votes : Experts Bool}
    (hread : readExperts p s tid pc = .ok (idx, local_prediction, votes)) : ∃ s' local_prediction' votes',
      update p s tid pc true (lookupHistory p s tid pc idx local_prediction votes) false = .ok s' ∧
      s'.weights = learn MAX_WEIGHT_SUM (verdict votes s.weights) true votes s.weights ∧
      readExperts p s' tid pc = .ok (idx, local_prediction', votes') ∧
      votes.Forall₂ (fun vote vote' => vote = true → vote' = true) votes' := by
  obtain ⟨lh, lc, gc, cc, _, hlh, hlc, hgc, hcc, hlt, hread⟩ := bind₅_eq_ok_iff.mp hread
  obtain ⟨sc, hsc, ⟨⟩⟩ := bind_ok hread
  have hvalid := Params.localPredictorIdx_valid hp lh
  have hmasked : lh &&& p.localPredictorMask &&& p.localPredictorMask = lh &&& p.localPredictorMask := by
    rw [BitVec.and_assoc, BitVec.and_self]
  obtain ⟨globalCtrs, hglobal, hglobal'⟩ := modify_of_read hgc (SatCounter.train true)
  obtain ⟨gshareCtrs, hgshare, hgshare'⟩ := modify_of_read hsc (SatCounter.train true)
  obtain ⟨localCtrs, hlocal, hlocal'⟩ := modify_of_read hlc (SatCounter.train true)
  obtain ⟨choiceCtrs, hchoice, hchoice'⟩ := modifyIf_of_read hcc
    (decide (lc.read > p.localThreshold.toNat) ≠ decide (p.globalThreshold.toNat < gc.read))
    (SatCounter.trainChoice (lc.read > p.localThreshold.toNat) (p.globalThreshold.toNat < gc.read) true)
  refine ⟨_, _, _, bind₅_eq_ok_iff.mpr ⟨_, _, choiceCtrs, globalCtrs, gshareCtrs,
    require_of_lt (Params.calcLocHistIdx_lt hp pc),
    require_of_lt (Params.localPredictorIdx_lt hp _), ?_, hglobal, hgshare,
    bind_eq_ok_iff.mpr ⟨localCtrs, ?_, rfl⟩⟩, rfl, bind₅_eq_ok_iff.mpr ⟨lh, lc.train true, gc.train true, _, _,
      hlh, hlocal', hglobal', hchoice', hlt, bind_of_ok hgshare' _⟩, ?_⟩
  · simpa [lookupHistory, hvalid] using hchoice
  · simpa [modifyIf, lookupHistory, hvalid, hmasked] using hlocal
  · refine ⟨SatCounter.vote_of_train_true _ sc, SatCounter.vote_of_train_true _ gc, ?_⟩
    simp only [decide_eq_true_eq]
    exact tournament_mono (SatCounter.vote_of_train_true _ lc) (SatCounter.vote_of_train_true _ gc)

/-- The fresh predictor, with any statistics. -/
def untrained (p : Params) (stats : ExpertStats) : State p := { State.initial p with stats }

theorem readExperts_untrained (hfits : FirstLookupFits p pc) (stats : ExpertStats) :
    readExperts p (untrained p stats) tid pc = .ok (0, false, ⟨false, false, false⟩) := by
  refine bind₅_eq_ok_iff.mpr ⟨0, .setBits p.localCtrBits.toNat, .setBits p.globalCtrBits.toNat,
    .setBits p.choiceCtrBits.toNat, (), ?_, ?_, ?_, ?_, ?_,
    bind_eq_ok_iff.mpr ⟨.setBits p.gshareCtrBits.toNat, read_replicate hfits.1 _, by simp⟩⟩
  · exact read_replicate (Params.calcLocHistIdx_lt hp pc) 0
  · exact read_replicate (Params.localPredictorIdx_lt hp 0) _
  · exact read_replicate (Params.globalPredictorIdx_lt hp 0) _
  · exact read_replicate (Params.choicePredictorIdx_lt hfits.2 0) _
  · exact require_of_lt (Params.gsharePredictorIdx_lt hp 0 pc)

/-- What the first `lookup` of a branch stores. -/
def untrainedHistory (p : Params) (pc : Addr) : BPHistory where
  globalHistory := 0
  localHistoryIdx := p.calcLocHistIdx pc
  localHistory := 0
  localPredTaken := false
  globalPredTaken := false
  tournamentPredTaken := false
  gsharePredTaken := false
  finalPrediction := true

/-- The correction shifts a zero into histories that are zero. -/
theorem update_squashed_untrained (stats : ExpertStats) :
    update p (untrained p stats) tid pc false (untrainedHistory p pc) true = .ok (untrained p stats) := by
  have htable : write (untrained p stats).localHistoryTable (p.calcLocHistIdx pc).toNat
      (shiftLocal 0 false) = .ok (untrained p stats).localHistoryTable :=
    write_replicate (Params.calcLocHistIdx_lt hp pc) 0
  refine bind_eq_ok_iff.mpr ⟨(), require_of_lt (Params.calcLocHistIdx_lt hp pc), (bind_of_ok htable _).trans ?_⟩
  exact congrArg (fun globalHistory => Except.ok { untrained p stats with globalHistory })
    (update_shiftIn_zero p.historyRegisterMask tid)

/-- The commit can take no counter below zero, and no expert has contributed to
the wrong verdict. -/
theorem update_committed_untrained (hfits : FirstLookupFits p pc) (tid : ThreadID) (stats : ExpertStats) :
    ∃ stats', update p (untrained p stats) tid pc false (untrainedHistory p pc) false = .ok (untrained p stats') := by
  have hlearn : learn MAX_WEIGHT_SUM true false ⟨false, false, false⟩ (untrained p stats).weights =
      (untrained p stats).weights :=
    learn_of_unanimous_against rfl (Nat.zero_le _) false
  let stats' := updateAdditionalStats false true false ⟨false, false, false⟩ (untrained p stats).weights stats
  refine ⟨stats', bind₅_eq_ok_iff.mpr ⟨_, _, _, _, _,
    require_of_lt (Params.calcLocHistIdx_lt hp pc),
    require_of_lt (Params.localPredictorIdx_lt hp _), rfl,
    modify_replicate (Params.globalPredictorIdx_lt hp _) (SatCounter.setBits_train_false _),
    modify_replicate hfits.1 (SatCounter.setBits_train_false _), bind_eq_ok_iff.mpr ⟨_,
      modify_replicate (Params.localPredictorIdx_lt hp _) (SatCounter.setBits_train_false _), ?_⟩⟩⟩
  exact congrArg (fun weights => Except.ok (State.setWeights (untrained p stats') weights)) hlearn

theorem learner (hfits : FirstLookupFits p pc) : Learner (predictor p) tid pc MAX_WEIGHT_SUM State.weights
    (fun s votes => ∃ idx local_prediction, readExperts p s tid pc = .ok (idx, local_prediction, votes))
    (untrained p) where
  taken := by
    rintro s votes ⟨idx, local_prediction, hread⟩
    obtain ⟨s', local_prediction', votes', hupdate, hweights, hread', hle⟩ := update_of_readExperts hp hread
    exact ⟨_, s', votes', lookup_of_readExperts hp hread, hupdate, hweights, ⟨idx, local_prediction', hread'⟩, hle⟩
  fresh := ⟨_, ⟨0, false, readExperts_untrained hp hfits {}⟩, rfl⟩
  notTaken stats := by
    obtain ⟨stats', hcommit⟩ := update_committed_untrained hp hfits tid stats
    exact ⟨_, stats', lookup_of_readExperts hp (readExperts_untrained hp hfits stats),
      update_squashed_untrained hp stats, hcommit⟩

end

theorem firstLookupFits_of_lookup (h : lookup p (State.initial p) tid pc = .ok first) : FirstLookupFits p pc := by
  obtain ⟨idx, local_prediction, votes, hread, -⟩ := lookup_eq_ok_iff.mp h
  obtain ⟨_, _, _, _, _, -, -, -, hcc, -, hread⟩ := bind₅_eq_ok_iff.mp hread
  obtain ⟨_, hsc, -⟩ := bind_ok hread
  refine ⟨(read_eq_ok_iff.mp hsc).1, fun hzero => ?_⟩
  have hlt := (read_eq_ok_iff.mp hcc).1
  simp [hzero] at hlt

theorem settles_iff (hp : Accepted p) (tid : ThreadID) (pc : Addr) (outcome : Bool) :
    ((predictor p).Settles tid pc outcome (State.initial p) ↔ outcome = true ∧ FirstLookupFits p pc) ∧
      (outcome = true ∧ FirstLookupFits p pc → ∀ count,
        (predictor p).roundPrediction tid pc outcome count (State.initial p) = .ok outcome) :=
  settles_iff_of_learner (fun _ => firstLookupFits_of_lookup) (learner hp) outcome

end Gem5.EnsembleBP2

namespace Gem5.Ensemble

/-- From the freshly constructed predictor, the predictions of a single branch
with a constant outcome settle on that outcome exactly when the branch is
taken and its first `lookup` stays inside the tables. They are then right
from the first round on, for every such address. -/
theorem predictions_settle_iff (p : EnsembleBP.Params) (p₂ : EnsembleBP2.Params) (s : EnsembleBP.State p)
    (s₂ : EnsembleBP2.State p₂) (hs : EnsembleBP.construct p = .ok s)
    (hs₂ : EnsembleBP2.construct p₂ = .ok s₂) (tid : ThreadID) (pc : Addr) (outcome : Bool) :
    (((EnsembleBP.predictor p).Settles tid pc outcome s ↔ outcome = true ∧ EnsembleBP.GshareIndexFits p pc) ∧
      (outcome = true ∧ EnsembleBP.GshareIndexFits p pc → ∀ count,
        (EnsembleBP.predictor p).roundPrediction tid pc outcome count s = .ok outcome)) ∧
    (((EnsembleBP2.predictor p₂).Settles tid pc outcome s₂ ↔ outcome = true ∧ EnsembleBP2.FirstLookupFits p₂ pc) ∧
      (outcome = true ∧ EnsembleBP2.FirstLookupFits p₂ pc → ∀ count,
        (EnsembleBP2.predictor p₂).roundPrediction tid pc outcome count s₂ = .ok outcome)) := by
  obtain ⟨hp, rfl⟩ := EnsembleBP.construct_eq_ok_iff.mp hs
  obtain ⟨hp₂, rfl⟩ := EnsembleBP2.construct_eq_ok_iff.mp hs₂
  exact ⟨EnsembleBP.settles_iff hp tid pc outcome, EnsembleBP2.settles_iff hp₂ tid pc outcome⟩

theorem predictions_settle_on_taken_branch : (EnsembleBP.predictor EnsembleBP.smallParams).Settles 0 0 true
        (EnsembleBP.State.initial EnsembleBP.smallParams) ∧
      (EnsembleBP2.predictor EnsembleBP2.smallParams).Settles 0 0 true
        (EnsembleBP2.State.initial EnsembleBP2.smallParams) := by
  obtain ⟨⟨hsettles, -⟩, hsettles2, -⟩ :=
    predictions_settle_iff EnsembleBP.smallParams EnsembleBP2.smallParams _ _ rfl rfl 0 0 true
  refine ⟨hsettles.mpr ⟨rfl, ?_⟩, hsettles2.mpr ⟨rfl, ?_⟩⟩
  · unfold EnsembleBP.GshareIndexFits
    decide
  · unfold EnsembleBP2.FirstLookupFits
    decide

/-- Neither predictor ever learns a branch that is not taken. -/
theorem predictions_never_settle_on_notTaken_branch : (∃ s, EnsembleBP.construct EnsembleBP.smallParams = .ok s ∧
      ¬(EnsembleBP.predictor EnsembleBP.smallParams).Settles 0 0 false s) ∧
    (∃ s, EnsembleBP2.construct EnsembleBP2.smallParams = .ok s ∧
      ¬(EnsembleBP2.predictor EnsembleBP2.smallParams).Settles 0 0 false s) := by
  have hfirst : EnsembleBP.construct EnsembleBP.smallParams =
      .ok (EnsembleBP.State.initial EnsembleBP.smallParams) := rfl
  have hsecond : EnsembleBP2.construct EnsembleBP2.smallParams =
      .ok (EnsembleBP2.State.initial EnsembleBP2.smallParams) := rfl
  refine ⟨⟨_, hfirst, fun hsettles => ?_⟩, ⟨_, hsecond, fun hsettles => ?_⟩⟩
  · have hiff := EnsembleBP.settles_iff (EnsembleBP.construct_eq_ok_iff.mp hfirst).1 0 0 false
    exact absurd (hiff.1.mp hsettles).1 (by decide)
  · have hiff := EnsembleBP2.settles_iff (EnsembleBP2.construct_eq_ok_iff.mp hsecond).1 0 0 false
    exact absurd (hiff.1.mp hsettles).1 (by decide)

end Gem5.Ensemble
