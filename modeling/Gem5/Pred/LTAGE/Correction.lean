import Gem5.Pred.LTAGE.Speculation

open Lib Result
open Gem5.InFlight (Branch Event)

namespace Gem5.LTAGE

variable {p : Params} {random_mt : Nat → BitVec 32}

theorem construct_spec (h : construct p random_mt = .ok s) : s = .initial p random_mt := by
  obtain ⟨_, -, hdone⟩ := bind_ok h
  split at hdone
  · exact (Except.ok.inj hdone).symm
  · cases hdone

/-- In every run that keeps the histories of the branches in flight, correcting the
youngest branch gives the history that recording its actual direction would
have given right when it was predicted. -/
theorem correction_replays_history (p : Params) (hp : Sized p) (random_mt : Nat → BitVec 32) (s : State p)
    (hs : construct p random_mt = .ok s) (tid : ThreadID) (events : List Event) (hevents : KeepsHistories p [] events)
    (answers : List (Option Bool)) (m m' : Thread p)
    (hrun : (InFlight.machine (predictor p) tid).run (InFlight.start s) events = .ok (answers, m))
    (b : Branch (State p) (BranchInfo p)) (rest : List (Branch (State p) (BranchInfo p)))
    (hinflight : m.inflight = b :: rest) (taken : Bool) (o : Option Bool)
    (hcorrect : (InFlight.machine (predictor p) tid).step m (.correct taken) = .ok (o, m')) :
    ∃ saved replayed, (b.before.threadHistory tid).updateHistories b.pc taken = .ok (saved, replayed) ∧
      (m'.predictor.threadHistory tid).history = replayed.history := by
  obtain rfl := construct_spec hs
  obtain ⟨⟨ages, htracked⟩, -⟩ := (tracked_start hp random_mt tid).run (I := fun _ => True) hp (fun _ _ _ _ => trivial)
    ⟨trivial, fun _ _ => trivial⟩ hevents hrun
  cases InFlight.step_iff.mp hcorrect with
  | correct hinflight' hupdate =>
    cases hinflight.symm.trans hinflight'
    obtain ⟨tHist, hsquash, hs'⟩ := update_squashed_threadHistory hupdate
    obtain ⟨-, -, hhistory⟩ := htracked.correct hp hs' hinflight hsquash
    have hbefore : (b.before.threadHistory tid).Placed := by
      obtain ⟨age, hkept⟩ := htracked.exists_kept (hinflight ▸ List.mem_cons_self)
      exact hkept.before
    obtain ⟨saved, replayed, hreplay, -, hreplayed, -⟩ := ThreadHistory.updateHistories_spec hp hbefore b.pc taken
    exact ⟨saved, replayed, hreplay, hhistory.trans hreplayed.symm⟩

/-- The small predictor with no branch in flight. -/
def smallThread : Thread smallParams := InFlight.start (.initial smallParams fun _ => 0)

/-- The history after the youngest branch was corrected as taken, and the one that
recording it as taken would have given. -/
def correctedAndReplayed (m : Thread smallParams) : Result (History × History) :=
  match m.inflight with
  | [] => .error .dangling
  | b :: _ => do
    let (_, m') ← (InFlight.machine (predictor smallParams) 0).step m (.correct true)
    let (_, replayed) ← (b.before.threadHistory 0).updateHistories b.pc true
    .ok ((m'.predictor.threadHistory 0).history, replayed.history)

theorem correctedAndReplayed_spec (h : correctedAndReplayed m = .ok (corrected, replayed)) :
    ∃ b rest o m' saved tHist, m.inflight = b :: rest ∧
      (InFlight.machine (predictor smallParams) 0).step m (.correct true) = .ok (o, m') ∧
      (b.before.threadHistory 0).updateHistories b.pc true = .ok (saved, tHist) ∧
      (m'.predictor.threadHistory 0).history = corrected ∧ tHist.history = replayed := by
  unfold correctedAndReplayed at h
  cases hinflight : m.inflight with
  | nil =>
    rw [hinflight] at h
    cases h
  | cons b rest =>
    rw [hinflight] at h
    obtain ⟨⟨o, m'⟩, hstep, h⟩ := bind_ok h
    obtain ⟨⟨saved, tHist⟩, hreplay, hdone⟩ := bind_ok h
    cases hdone
    exact ⟨b, rest, o, m', saved, tHist, rfl, hstep, hreplay, rfl, rfl⟩

/-- A younger branch is squashed before the correction. -/
theorem correction_after_squash_replays_history : ∃ answers m b rest o m',
      (InFlight.machine (predictor smallParams) 0).run smallThread [.lookup 0, .uncondBranch 4, .squash] =
        .ok (answers, m) ∧
      m.inflight = b :: rest ∧ (InFlight.machine (predictor smallParams) 0).step m (.correct true) = .ok (o, m') ∧
      ∃ saved replayed, (b.before.threadHistory 0).updateHistories b.pc true = .ok (saved, replayed) ∧
        (m'.predictor.threadHistory 0).history = replayed.history := by
  have hrun : ((InFlight.machine (predictor smallParams) 0).run smallThread [.lookup 0, .uncondBranch 4, .squash] >>=
      fun final => correctedAndReplayed final.2).map (fun _ => ()) = .ok () := by decide +kernel
  obtain ⟨⟨corrected, replayed⟩, hrun, -⟩ := map_ok hrun
  obtain ⟨⟨answers, m⟩, hrun, hlast⟩ := bind_ok hrun
  obtain ⟨b, rest, o, m', saved, tHist, hinflight, hstep, -⟩ := correctedAndReplayed_spec hlast
  refine ⟨answers, m, b, rest, o, m', hrun, hinflight, hstep, ?_⟩
  exact correction_replays_history smallParams ⟨by decide, by decide⟩ (fun _ => 0) _ rfl 0 _ (by decide) answers m m'
    hrun b rest hinflight true o hstep

/-- Three branches are predicted and squashed, one after the other, behind a branch
that stays in flight. -/
def squashedThrice : List Event :=
  [.lookup 0, .uncondBranch 4, .squash, .uncondBranch 4, .squash, .uncondBranch 4, .squash]

/-- No branch has more than one younger branch in flight behind it. -/
def AtMostOneYounger (events : List Event) : Prop :=
  ∀ count ≤ events.length, ∃ answers m,
    (InFlight.machine (predictor smallParams) 0).run smallThread (events.take count) = .ok (answers, m) ∧
      m.inflight.length ≤ 2

theorem atMostOneYounger : AtMostOneYounger (squashedThrice ++ [Event.correct true]) := by
  have hflight : ∀ count ≤ (squashedThrice ++ [Event.correct true]).length,
      ((InFlight.machine (predictor smallParams) 0).run smallThread
        ((squashedThrice ++ [Event.correct true]).take count)).map
        (fun final => decide (final.2.inflight.length ≤ 2)) = .ok true := by decide +kernel
  intro count hcount
  obtain ⟨⟨answers, m⟩, hrun, hlength⟩ := map_ok (hflight count hcount)
  exact ⟨answers, m, hrun, of_decide_eq_true hlength⟩

/-- The outcomes of squashed branches stay in the buffer and overwrite the history
of an older branch, so that its correction folds in one of them. The buffer has
room for one younger branch, and there is never more than one in flight. -/
theorem squashed_outcomes_overwrite_history : AtMostOneYounger (squashedThrice ++ [Event.correct true]) ∧
    ∃ answers m b rest o m' saved replayed,
      (InFlight.machine (predictor smallParams) 0).run smallThread squashedThrice = .ok (answers, m) ∧
      m.inflight = b :: rest ∧ (InFlight.machine (predictor smallParams) 0).step m (.correct true) = .ok (o, m') ∧
      (b.before.threadHistory 0).updateHistories b.pc true = .ok (saved, replayed) ∧
      (m'.predictor.threadHistory 0).history.folded.map FoldedHistory.comp = [3, 3, 3] ∧
      replayed.history.folded.map FoldedHistory.comp = [1, 1, 1] := by
  have hrun : ((InFlight.machine (predictor smallParams) 0).run smallThread squashedThrice >>=
      fun final => correctedAndReplayed final.2).map
        (fun both => (both.1.folded.map FoldedHistory.comp, both.2.folded.map FoldedHistory.comp)) =
      .ok ([3, 3, 3], [1, 1, 1]) := by decide +kernel
  obtain ⟨⟨corrected, replayed⟩, hboth, hcomps⟩ := map_ok hrun
  obtain ⟨⟨answers, m⟩, hsquashed, hlast⟩ := bind_ok hboth
  obtain ⟨b, rest, o, m', saved, tHist, hinflight, hstep, hreplay, rfl, rfl⟩ := correctedAndReplayed_spec hlast
  obtain ⟨hcorrected, hreplayed⟩ := Prod.mk.inj hcomps
  exact ⟨atMostOneYounger, answers, m, b, rest, o, m', saved, tHist, hsquashed, hinflight, hstep,
    hreplay, hcorrected, hreplayed⟩

end Gem5.LTAGE
