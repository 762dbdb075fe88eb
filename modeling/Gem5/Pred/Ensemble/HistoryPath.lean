import Gem5.Pred.Ensemble.Spec
import Gem5.Pred.InFlight

open Lib Result Lib.ShiftRegister
open Gem5.Ensemble

namespace Gem5.EnsembleBP

/-- One thread of `EnsembleBP`, as `BPredUnit` drives it. -/
abbrev Thread (p : Params) : Type := InFlight.State (State p) BPHistory

/-- The history register holds the directions of the current path. -/
def RegisterRecordsPath (p : Params) (tid : ThreadID) (m : Thread p) : Prop :=
  Records p.globalHistoryBits (m.predictor.globalHistory tid) m.path

/-- Every branch in flight has saved the directions of the path before it. -/
def SavedRecordPaths (p : Params) (retired : List Bool) :
    List (InFlight.Branch (State p) BPHistory) → Prop
  | [] => True
  | b :: rest =>
    Records p.globalHistoryBits b.history.globalHistory (rest.map InFlight.Branch.direction ++ retired) ∧
      SavedRecordPaths p retired rest

/-- The shift that `lookup` does not make would not be seen: the register
already consists of the direction that the weighted vote is about to give. -/
def OmittedShiftInvisible (p : Params) (tid : ThreadID) (m : Thread p) : InFlight.Event → Prop
  | .lookup pc => ∀ idx votes, readExperts p m.predictor tid pc = .ok (idx, votes) →
      ∀ i < p.globalHistoryBits,
        (m.predictor.globalHistory tid).getLsbD i = verdict votes m.predictor.weights
  | _ => True

theorem SavedRecordPaths.commit (h : SavedRecordPaths p retired (younger ++ [b])) :
    SavedRecordPaths p (b.direction :: retired) younger := by
  induction younger with
  | nil => trivial
  | cons c rest ih =>
    obtain ⟨hsaved, hrest⟩ := h
    refine ⟨?_, ih hrest⟩
    simpa using hsaved

/-- One call keeps the register on the path, except for `lookup`, which keeps
it there exactly when the shift it omits would not be seen. -/
theorem registerRecordsPath_step (m : Thread p) (e : InFlight.Event) (o : Option Bool) (m' : Thread p)
    (hsaved : SavedRecordPaths p m.retired m.inflight) (hpath : RegisterRecordsPath p tid m)
    (hstep : (InFlight.machine (predictor p) tid).step m e = .ok (o, m')) : SavedRecordPaths p m'.retired m'.inflight ∧
      (RegisterRecordsPath p tid m' ↔ OmittedShiftInvisible p tid m e) := by
  have hmask := p.historyRegisterMask_isLowMask
  have hbits := p.globalHistoryBits_le
  cases InFlight.step_iff.mp hstep with
  | @lookup pc _ _ _ hcall =>
    obtain ⟨idx, votes, hread, -, rfl, rfl, rfl⟩ := lookup_eq_ok_iff.mp hcall
    refine ⟨⟨hpath, hsaved⟩, ?_⟩
    have hcons : RegisterRecordsPath p tid
        ⟨m.predictor, ⟨pc, true, m.predictor, lookupHistory p m.predictor tid pc idx votes,
          verdict votes m.predictor.weights⟩ :: m.inflight, m.retired⟩ ↔
        ∀ i < p.globalHistoryBits,
          (m.predictor.globalHistory tid).getLsbD i = verdict votes m.predictor.weights :=
      Records.cons_iff hpath _
    rw [hcons]
    constructor
    · intro hall idx' votes' hread'
      rw [hread] at hread'
      cases hread'
      exact hall
    · intro hall
      exact hall idx votes hread
  | uncondBranch hcall =>
    cases hcall
    refine ⟨⟨hpath, hsaved⟩, iff_of_true ?_ trivial⟩
    have hshift := Records.shiftIn hpath hmask hbits true
    simpa [RegisterRecordsPath, uncondBranch, updateGlobalHistTaken, InFlight.State.path] using hshift
  | @btbUpdate b rest _ hinflight hcall =>
    obtain ⟨table, -, ⟨⟩⟩ := bind_ok hcall
    rw [hinflight] at hsaved
    refine ⟨hsaved, iff_of_true ?_ trivial⟩
    have hnewest : Records p.globalHistoryBits (m.predictor.globalHistory tid)
        (b.direction :: (rest.map InFlight.Branch.direction ++ m.retired)) := by
      simpa [RegisterRecordsPath, InFlight.State.path, hinflight] using hpath
    simpa [RegisterRecordsPath, InFlight.State.path] using hnewest.clearNewest hmask hbits
  | @correct taken _ _ _ hinflight hcall =>
    obtain ⟨-, table, -, -, ⟨⟩⟩ := bind_ok₂ hcall
    rw [hinflight] at hsaved
    refine ⟨hsaved, iff_of_true ?_ trivial⟩
    simpa [RegisterRecordsPath, InFlight.State.path] using hsaved.1.shiftIn hmask hbits taken
  | squash hinflight hcall =>
    obtain ⟨table, -, ⟨⟩⟩ := bind_ok hcall
    rw [hinflight] at hsaved
    refine ⟨hsaved.2, iff_of_true ?_ trivial⟩
    simpa [RegisterRecordsPath, InFlight.State.path] using hsaved.1
  | commit hinflight hcall =>
    obtain ⟨_, _, _, _, _, -, -, -, -, -, ⟨⟩⟩ := bind₅_eq_ok_iff.mp hcall
    rw [hinflight] at hsaved
    refine ⟨hsaved.commit, iff_of_true ?_ trivial⟩
    simpa [RegisterRecordsPath, InFlight.State.path, hinflight, State.setWeights] using hpath

/-- In every run of one thread, the history register holds the directions of
the current path in every state exactly when no `lookup` of the run is made
where the shift it omits would be seen. -/
theorem globalHistory_records_path_iff (p : Params) (s : State p) (hs : construct p = .ok s)
    (tid : ThreadID) (events : List InFlight.Event) (answers : List (Option Bool)) (m : Thread p)
    (hrun : (InFlight.machine (predictor p) tid).run (InFlight.start s) events = .ok (answers, m)) :
    (InFlight.machine (predictor p) tid).StatesAll (RegisterRecordsPath p tid) (InFlight.start s) events ↔
      (InFlight.machine (predictor p) tid).StepsAll (OmittedShiftInvisible p tid) (InFlight.start s) events := by
  obtain ⟨-, rfl⟩ := construct_eq_ok_iff.mp hs
  have hstart : RegisterRecordsPath p tid (InFlight.start (State.initial p)) := records_zero p.globalHistoryBits
  have hsaved : SavedRecordPaths p (InFlight.start (State.initial p) : Thread p).retired
      (InFlight.start (State.initial p) : Thread p).inflight := trivial
  exact Machine.statesAll_iff_stepsAll (I := fun m : Thread p => SavedRecordPaths p m.retired m.inflight)
    registerRecordsPath_step hsaved hstart hrun

/-- The register holds the taken jump alone when the branch behind it is predicted taken. -/
theorem globalHistory_records_path_of_jump_and_lookup :
    (InFlight.machine (predictor smallParams) 0).StatesAll (RegisterRecordsPath smallParams 0)
      (InFlight.start (State.initial smallParams)) [.uncondBranch 0, .lookup 4, .btbUpdate, .correct true] := by
  refine (globalHistory_records_path_iff smallParams (State.initial smallParams) rfl 0 _ _ _ rfl).mpr
    ⟨trivial, fun _ _ h => ?_⟩
  cases h
  refine ⟨fun idx votes hread => ?_, fun _ _ _ => ⟨trivial, fun _ _ _ => ⟨trivial, fun _ _ _ => trivial⟩⟩⟩
  cases hread
  decide

/-- The first prediction of a fresh predictor is taken, and the register does
not record it. -/
theorem globalHistory_misses_predicted_branch : ∃ s answers m, construct smallParams = .ok s ∧
      (InFlight.machine (predictor smallParams) 0).run (InFlight.start s) [.lookup 0] = .ok (answers, m) ∧
      m.path = [true] ∧ ¬RegisterRecordsPath smallParams 0 m := by
  refine ⟨_, _, _, rfl, rfl, rfl, ?_⟩
  intro hpath
  exact absurd (hpath 0 (by decide)) (by decide)

end Gem5.EnsembleBP
