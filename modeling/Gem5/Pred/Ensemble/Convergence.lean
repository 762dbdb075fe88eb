import Gem5.Pred.Ensemble.Learning
import Gem5.Pred.Ensemble.Spec

open Lib Result Lib.ShiftRegister BitVec Table
open Gem5.Ensemble

namespace Gem5.Ensemble

variable {S H : Type} {d : DirectionPredictor S H} {tid : ThreadID} {pc : Addr} {maxWeightSum : Nat}
  {weights : S → Experts SatCounter} {Reads : S → Experts Bool → Prop} {untrained : ExpertStats → S}

/-- A predictor that answers with the verdict of its experts, seen from one
branch, whose `lookup` reads the votes that `Reads` says. A taken branch that
commits right after its `lookup` moves no expert towards not taken, and one that
is not taken leaves the fresh predictor as it is, but for the statistics. -/
structure Learner (d : DirectionPredictor S H) (tid : ThreadID) (pc : Addr) (maxWeightSum : Nat)
    (weights : S → Experts SatCounter) (Reads : S → Experts Bool → Prop) (untrained : ExpertStats → S) : Prop where
  taken : ∀ {s votes}, Reads s votes → ∃ h s' votes', d.lookup s tid pc = .ok (verdict votes (weights s), h, s) ∧
    d.update s tid pc true h false = .ok s' ∧
    weights s' = learn maxWeightSum (verdict votes (weights s)) true votes (weights s) ∧
    Reads s' votes' ∧ votes.Forall₂ (fun vote vote' => vote = true → vote' = true) votes'
  fresh : ∃ votes, Reads (untrained {}) votes ∧ weightSum (weights (untrained {})) = 0
  notTaken : ∀ stats, ∃ h stats', d.lookup (untrained stats) tid pc = .ok (true, h, untrained stats) ∧
    d.update (untrained stats) tid pc false h true = .ok (untrained stats) ∧
    d.update (untrained stats) tid pc false h false = .ok (untrained stats')

/-- From the fresh predictor, the predictions of one branch with a constant
outcome settle on that outcome exactly for a taken branch whose first `lookup`
stays inside the tables, and then they are right from the first round on. -/
theorem settles_iff_of_learner {Fits : Prop} (hfits : ∀ first, d.lookup (untrained {}) tid pc = .ok first → Fits)
    (hlearner : Fits → Learner d tid pc maxWeightSum weights Reads untrained) (outcome : Bool) :
    (d.Settles tid pc outcome (untrained {}) ↔ outcome = true ∧ Fits) ∧
      (outcome = true ∧ Fits → ∀ count, d.roundPrediction tid pc outcome count (untrained {}) = .ok outcome) := by
  refine DirectionPredictor.settles_iff_of_always_taken hfits (fun h outcome => ?_) outcome
  have hlearner := hlearner h
  cases outcome with
  | true =>
    obtain ⟨votes, hfresh, hzero⟩ := hlearner.fresh
    -- no expert that votes not taken has any weight
    refine ⟨fun s => ∃ votes, Reads s votes ∧ Unopposed votes (weights s),
      ⟨votes, hfresh, unopposed_of_weightSum hzero _⟩, ?_⟩
    rintro s ⟨votes, hread, hunopposed⟩
    obtain ⟨h, s', votes', hlookup, hupdate, hweights, hread', hle⟩ := hlearner.taken hread
    rw [verdict_of_unopposed hunopposed] at hlookup hweights
    refine ⟨s', DirectionPredictor.round_of_ok hlookup rfl hupdate, votes', hread', ?_⟩
    rw [hweights]
    exact (hunopposed.learn maxWeightSum).mono hle
  | false =>
    refine ⟨fun s => ∃ stats, s = untrained stats, ⟨{}, rfl⟩, ?_⟩
    rintro _ ⟨stats, rfl⟩
    obtain ⟨h, stats', hlookup, hcorrect, hcommit⟩ := hlearner.notTaken stats
    exact ⟨_, DirectionPredictor.round_of_ok hlookup hcorrect hcommit, stats', rfl⟩

/-- A zero is shifted into a register that is zero. -/
theorem update_shiftIn_zero (mask : Unsigned) (tid : ThreadID) :
    Function.update (fun _ : ThreadID => (0 : Unsigned)) tid (shiftIn mask 0 false) = fun _ => 0 :=
  Function.update_eq_self_iff.mpr (by simp [shiftIn])

end Gem5.Ensemble

namespace Gem5.EnsembleBP

variable {p : Params} {tid : ThreadID} {pc : Addr}

/-- The hash of an address with an empty history falls inside the gshare table. -/
def GshareIndexFits (p : Params) (pc : Addr) : Prop :=
  (p.gsharePredictorIdx 0 pc).toNat < p.gsharePredictorSize.toNat

section

variable (hp : Accepted p)
include hp

theorem lookup_of_readExperts (hread : readExperts p s tid pc = .ok (idx, votes)) : lookup p s tid pc =
      .ok (verdict votes s.weights, lookupHistory p s tid pc idx votes, s) :=
  lookup_eq_ok_iff.mpr ⟨idx, votes, hread, lt_def.mpr (Params.calcLocHistIdx_lt hp pc), rfl, rfl, rfl⟩

/-- Committing a taken branch right after its `lookup` moves no expert towards
not taken. -/
theorem update_of_readExperts (hread : readExperts p s tid pc = .ok (idx, votes)) :
    ∃ s' votes', update p s tid pc true (lookupHistory p s tid pc idx votes) false = .ok s' ∧
      s'.weights = learn MAX_WEIGHT_SUM (verdict votes s.weights) true votes s.weights ∧
      readExperts p s' tid pc = .ok (idx, votes') ∧
      votes.Forall₂ (fun vote vote' => vote = true → vote' = true) votes' := by
  obtain ⟨lh, lc, gc, sc, _, hlh, hlc, hgc, hsc, hlt, ⟨⟩⟩ := bind₅_eq_ok_iff.mp hread
  obtain ⟨globalCtrs, hglobal, hglobal'⟩ := modify_of_read hgc (SatCounter.train true)
  obtain ⟨gshareCtrs, hgshare, hgshare'⟩ := modify_of_read hsc (SatCounter.train true)
  obtain ⟨localCtrs, hlocal, hlocal'⟩ := modify_of_read hlc (SatCounter.train true)
  have hvalid := Params.localPredictorIdx_valid hp lh
  have hmasked : lh &&& p.localPredictorMask &&& p.localPredictorMask = lh &&& p.localPredictorMask := by
    rw [BitVec.and_assoc, BitVec.and_self]
  refine ⟨_, _, bind₅_eq_ok_iff.mpr ⟨_, _, globalCtrs, gshareCtrs, localCtrs,
    require_of_lt (Params.calcLocHistIdx_lt hp pc),
    require_of_lt (Params.localPredictorIdx_lt hp _), hglobal, hgshare, ?_, rfl⟩, rfl,
    bind₅_eq_ok_iff.mpr ⟨lh, lc.train true, gc.train true, sc.train true, _, hlh, hlocal', hglobal',
      hgshare', hlt, rfl⟩, ?_⟩
  · simpa [modifyIf, lookupHistory, hvalid, hmasked] using hlocal
  · exact ⟨SatCounter.vote_of_train_true _ sc, SatCounter.vote_of_train_true _ gc, SatCounter.vote_of_train_true _ lc⟩

/-- The fresh predictor, with any statistics. -/
def untrained (p : Params) (stats : ExpertStats) : State p := { State.initial p with stats }

theorem readExperts_untrained (hfits : GshareIndexFits p pc) (stats : ExpertStats) :
    readExperts p (untrained p stats) tid pc = .ok (0, ⟨false, false, false⟩) := by
  refine bind₅_eq_ok_iff.mpr ⟨0, .setBits p.localCtrBits.toNat, .setBits p.globalCtrBits.toNat,
    .setBits p.gshareCtrBits.toNat, (), ?_, ?_, ?_, ?_, ?_, by simp⟩
  · exact read_replicate (Params.calcLocHistIdx_lt hp pc) 0
  · exact read_replicate (Params.localPredictorIdx_lt hp 0) _
  · exact read_replicate (Params.globalPredictorIdx_lt hp 0) _
  · exact read_replicate hfits _
  · exact require_of_lt (Params.gsharePredictorIdx_lt hp 0 pc)

/-- What the first `lookup` of a branch stores. -/
def untrainedHistory (p : Params) (pc : Addr) : BPHistory where
  globalHistory := 0
  localHistoryIdx := p.calcLocHistIdx pc
  localHistory := 0
  localPredTaken := false
  globalPredTaken := false
  gsharePredTaken := false
  finalPrediction := true

/-- The correction shifts a zero into histories that are zero. -/
theorem update_squashed_untrained (stats : ExpertStats) :
    update p (untrained p stats) tid pc false (untrainedHistory p pc) true = .ok (untrained p stats) := by
  have htable : write (untrained p stats).localHistoryTable (p.calcLocHistIdx pc).toNat
      (shiftLocal 0 false) = .ok (untrained p stats).localHistoryTable :=
    write_replicate (Params.calcLocHistIdx_lt hp pc) 0
  refine bind_eq_ok_iff.mpr ⟨(), require_of_lt (Params.calcLocHistIdx_lt hp pc), (bind_of_ok htable _).trans ?_⟩
  exact congrArg (fun globalHistory => Except.ok { untrained p stats with globalHistory })
    (update_shiftIn_zero p.historyRegisterMask tid)

/-- The commit can take no counter below zero, and no expert has contributed to
the wrong verdict. -/
theorem update_committed_untrained (hfits : GshareIndexFits p pc) (tid : ThreadID) (stats : ExpertStats) :
    ∃ stats', update p (untrained p stats) tid pc false (untrainedHistory p pc) false = .ok (untrained p stats') := by
  have hlearn : learn MAX_WEIGHT_SUM true false ⟨false, false, false⟩ (untrained p stats).weights =
      (untrained p stats).weights :=
    learn_of_unanimous_against rfl (Nat.zero_le _) false
  let stats' := updateAdditionalStats false true false ⟨false, false, false⟩ (untrained p stats).weights stats
  refine ⟨stats', bind₅_eq_ok_iff.mpr ⟨_, _, _, _, _,
    require_of_lt (Params.calcLocHistIdx_lt hp pc),
    require_of_lt (Params.localPredictorIdx_lt hp _),
    modify_replicate (Params.globalPredictorIdx_lt hp _) (SatCounter.setBits_train_false _),
    modify_replicate hfits (SatCounter.setBits_train_false _),
    modify_replicate (Params.localPredictorIdx_lt hp _) (SatCounter.setBits_train_false _), ?_⟩⟩
  exact congrArg (fun weights => Except.ok (State.setWeights (untrained p stats') weights)) hlearn

theorem learner (hfits : GshareIndexFits p pc) : Learner (predictor p) tid pc MAX_WEIGHT_SUM State.weights
    (fun s votes => ∃ idx, readExperts p s tid pc = .ok (idx, votes)) (untrained p) where
  taken := by
    rintro s votes ⟨idx, hread⟩
    obtain ⟨s', votes', hupdate, hweights, hread', hle⟩ := update_of_readExperts hp hread
    exact ⟨_, s', votes', lookup_of_readExperts hp hread, hupdate, hweights, ⟨idx, hread'⟩, hle⟩
  fresh := ⟨_, ⟨0, readExperts_untrained hp hfits {}⟩, rfl⟩
  notTaken stats := by
    obtain ⟨stats', hcommit⟩ := update_committed_untrained hp hfits tid stats
    exact ⟨_, stats', lookup_of_readExperts hp (readExperts_untrained hp hfits stats),
      update_squashed_untrained hp stats, hcommit⟩

end

theorem gshareIndexFits_of_lookup (h : lookup p (State.initial p) tid pc = .ok first) : GshareIndexFits p pc := by
  obtain ⟨idx, votes, hread, -⟩ := lookup_eq_ok_iff.mp h
  obtain ⟨_, _, _, _, _, -, -, -, hsc, -⟩ := bind₅_eq_ok_iff.mp hread
  exact (read_eq_ok_iff.mp hsc).1

theorem settles_iff (hp : Accepted p) (tid : ThreadID) (pc : Addr) (outcome : Bool) :
    ((predictor p).Settles tid pc outcome (State.initial p) ↔ outcome = true ∧ GshareIndexFits p pc) ∧
      (outcome = true ∧ GshareIndexFits p pc → ∀ count,
        (predictor p).roundPrediction tid pc outcome count (State.initial p) = .ok outcome) :=
  settles_iff_of_learner (fun _ => gshareIndexFits_of_lookup) (learner hp) outcome

end Gem5.EnsembleBP
