import Gem5.Pred.Tournament.Extension
import Gem5.Pred.TriTournament.Spec

open Lib Result

namespace Gem5.TriTournamentBP

/-- The tournament predictor with the same local, global and choice parameters. -/
def Params.tournament (p : Params) : TournamentBP.Params where
  localPredictorSize := p.localPredictorSize
  localCtrBits := p.localCtrBits
  localHistoryTableSize := p.localHistoryTableSize
  globalPredictorSize := p.globalPredictorSize
  globalCtrBits := p.globalCtrBits
  choicePredictorSize := p.choicePredictorSize
  choiceCtrBits := p.choiceCtrBits
  instShiftAmt := p.instShiftAmt

variable {p : Params}

/-- What is left of the state when the second local predictor is forgotten. -/
def State.tournament (s : State p) : TournamentBP.State p.tournament where
  localCtrs := s.localCtrs
  localHistoryTable := s.localHistoryTable
  globalCtrs := s.globalCtrs
  globalHistory := s.globalHistory
  choiceCtrs := s.choiceCtrs
  atLeastOneCorrectExpertOnMispredict := s.atLeastOneCorrectExpertOnMispredict

def BPHistory.tournament (h : BPHistory) : TournamentBP.BPHistory where
  globalHistory := h.globalHistory
  localHistoryIdx := h.localHistoryIdx
  localHistory := h.localHistory
  localPredTaken := h.localPredTaken
  globalPredTaken := h.globalPredTaken
  globalUsed := h.globalUsed

/-- No counter of the second choice table can exceed its threshold. -/
def Choice2Bounded (p : Params) (s : State p) : Prop :=
  Table.All (fun c => c.maxVal ≤ p.choiceThreshold2.toNat) s.choiceCtrs2

/-- A second choice counter that is read never selects the second local
predictor. -/
theorem local2Used_of_bounded (hs : Choice2Bounded p s) (hread : Table.read s.choiceCtrs2 index = .ok ctr) :
    decide (p.choiceThreshold2.toNat < ctr.read) = false :=
  SatCounter.vote_eq_false (hs.read hread)

section

variable (hp : Accepted p)
include hp

/-- Every method that returns does, on the tournament part, what the tournament
predictor does. -/
theorem extends_tournament : TournamentBP.Extends (predictor p) State.tournament BPHistory.tournament
    (Choice2Bounded p) (BPHistory.InTables p) where
  lookup hbounded hcall := by
    have hin := ((inTables_preserved hp).lookup trivial hcall).2
    obtain ⟨lh, lc, lh2, lc2, gc, hlh, hlc, -, -, hgc, hcall⟩ := bind₅_eq_ok_iff.mp hcall
    obtain ⟨cc, cc2, _, table, table2, hcc, hcc2, hlt, htable, -, ⟨⟩⟩ := bind₅_eq_ok_iff.mp hcall
    have hunused := local2Used_of_bounded hbounded hcc2
    simp only [hunused, Bool.false_eq_true, if_false] at htable hin ⊢
    exact ⟨⟨hbounded, hin⟩, _, bind₃_eq_ok_iff.mpr ⟨lh, lc, gc, hlh, hlc, hgc,
      bind₃_eq_ok_iff.mpr ⟨cc, _, table, hcc, hlt, htable, rfl⟩⟩, .refl _⟩
  uncondBranch hbounded hcall := by
    have hin := ((inTables_preserved hp).uncondBranch trivial hcall).2
    cases hcall
    exact ⟨⟨hbounded, hin⟩, rfl, .refl _⟩
  btbUpdate hbounded _ hcall := by
    obtain ⟨_, _, htable, -, ⟨⟩⟩ := bind_ok₂ hcall
    exact ⟨hbounded, _, bind_of_ok htable _, .refl _⟩
  update {_ _ _ _ _ squashed _} hbounded _ hcall := by
    cases squashed with
    | true =>
      obtain ⟨_, -, _, hlt, -, htable, hcall⟩ := bind_ok₃ hcall
      obtain ⟨_, -, ⟨⟩⟩ := bind_ok hcall
      exact ⟨hbounded, _, bind_eq_ok_iff.mpr ⟨_, hlt, bind_of_ok htable _⟩, _, _, rfl, fun _ => .refl _ _⟩
    | false =>
      obtain ⟨_, _, _, _, cc, hlt, -, hlocal, -, hcc, hcall⟩ := bind₅_eq_ok_iff.mp hcall
      obtain ⟨_, gc, lc, hcc2, hgc, hlc, hcall⟩ := bind_ok₃ hcall
      obtain ⟨_, -, ⟨⟩⟩ := bind_ok hcall
      exact ⟨hbounded.modifyIf (fun c hc => by rwa [SatCounter.train_maxVal]) hcc2, _,
        bind₅_eq_ok_iff.mpr ⟨_, _, cc, gc, lc, hlt, hlocal, hcc, hgc, hlc, rfl⟩, _, _, rfl, fun _ => .refl _ _⟩
  squash hbounded _ hcall := by
    obtain ⟨_, _, htable, -, ⟨⟩⟩ := bind_ok₂ hcall
    exact ⟨hbounded, _, bind_of_ok htable _, .refl _⟩

/-- The second local predictor is never selected, in any state that any calls
lead to. -/
theorem lookup_local2Used (hbounded : Choice2Bounded p (State.initial p))
    (hreach : (Calls.machine (predictor p)).Reaches (Calls.start (State.initial p)) m)
    (hlookup : lookup p m.predictor tid pc = .ok (taken, h, s)) : h.local2Used = false := by
  have hm := (Calls.reaches_holds (extends_tournament hp).preserves hbounded hreach).1
  obtain ⟨_, _, _, _, _, -, -, -, -, -, hlookup⟩ := bind₅_eq_ok_iff.mp hlookup
  obtain ⟨_, _, _, _, _, -, hcc2, -, -, -, ⟨⟩⟩ := bind₅_eq_ok_iff.mp hlookup
  exact local2Used_of_bounded hm hcc2

end

/-- A commit that returns has passed its index check. -/
theorem commitGuard_of_step (hstep : (Calls.machine (predictor p)).step m c = .ok (o, m')) :
    Calls.CommitGuard (Choice2IndexFits p) m c := by
  cases c with
  | update tid pc taken name squashed =>
    cases squashed with
    | true => trivial
    | false =>
      cases Calls.step_iff.mp hstep with
      | update hget hcall =>
        intro h' hget' htrains
        rw [hget] at hget'
        cases hget'
        obtain ⟨_, _, _, _, _, -, -, -, -, -, hcall⟩ := bind₅_eq_ok_iff.mp hcall
        obtain ⟨_, hcc2, -⟩ := bind_ok hcall
        rw [htrains] at hcc2
        exact Table.lt_of_modifyIf hcc2
  | _ => trivial

/-- For every sequence of calls that the tournament predictor answers, the
three-way predictor gives the same answers exactly when no commit of the
sequence trains the second choice table past its end. The second local
predictor is never selected. -/
theorem triTournament_answers_as_tournament_iff (p : Params) (s₁ : TournamentBP.State p.tournament) (s₂ : State p)
    (h₁ : TournamentBP.construct p.tournament = .ok s₁) (h₂ : construct p = .ok s₂)
    (hwidth : p.choiceCtrBits ≤ 8) (hwidth2 : p.choiceCtrBits2 ≤ 8)
    (hbits : p.choiceCtrBits2 ≤ 2 * (p.choiceCtrBits - 1)) : (∀ (calls : List Call) (answers : List (Option Bool))
      (m₁ : Calls.State (TournamentBP.State p.tournament) TournamentBP.BPHistory),
      (Calls.machine (TournamentBP.predictor p.tournament)).run (Calls.start s₁) calls = .ok (answers, m₁) →
      ((∃ m₂, (Calls.machine (predictor p)).run (Calls.start s₂) calls = .ok (answers, m₂)) ↔
        (Calls.machine (predictor p)).StepsAll (Calls.CommitGuard (Choice2IndexFits p)) (Calls.start s₂) calls)) ∧
    (∀ (m₂ : Calls.State (State p) BPHistory), (Calls.machine (predictor p)).Reaches (Calls.start s₂) m₂ →
      ∀ (tid : ThreadID) (pc : Addr) (taken : Bool) (h : BPHistory) (s : State p),
        lookup p m₂.predictor tid pc = .ok (taken, h, s) → h.local2Used = false) := by
  obtain ⟨hp₁, rfl⟩ := TournamentBP.construct_eq_ok_iff.mp h₁
  obtain ⟨hp, rfl⟩ := construct_eq_ok_iff.mp h₂
  have hbounded : Choice2Bounded p (State.initial p) :=
    Table.All.replicate (maxVal_le_ctrThreshold2 hwidth hwidth2 hbits)
  constructor
  · intro calls answers m₁ hrun
    constructor
    · rintro ⟨m₂, hrun₂⟩
      exact Machine.stepsAll_of_run (A := fun _ => True) (I := fun _ => True)
        (fun m c o m' _ _ hstep => ⟨commitGuard_of_step hstep, trivial⟩) trivial (fun _ _ => trivial) hrun₂
    · intro hguard
      exact (extends_tournament hp).run hp₁ (predictor_total hp) hbounded (.refl _) hguard hrun
  · intro m₂ hreach tid pc taken h s hlookup
    exact lookup_local2Used hp hbounded hreach hlookup

/-- Small tables of two entries each, except for the second choice table, whose
size is given. -/
def smallParams (choicePredictorSize2 : Unsigned) : Params where
  localPredictorSize := 2
  localCtrBits := 2
  localHistoryTableSize := 2
  localPredictorSize2 := 2
  localCtrBits2 := 1
  localHistoryTableSize2 := 2
  globalPredictorSize := 2
  globalCtrBits := 2
  choicePredictorSize := 2
  choiceCtrBits := 2
  choicePredictorSize2 := choicePredictorSize2
  choiceCtrBits2 := 2
  instShiftAmt := 2

/-- A branch is trained taken, a jump sets the history register, and the branch
is predicted and committed again. The last call predicts it once more. -/
def retrainedBranch : List Call :=
  [.lookup 0 0, .update 0 0 true 0 false, .uncondBranch 0 0, .lookup 0 0, .update 0 0 true 2 false, .lookup 0 0]

theorem retrainedBranch_answers_as_tournament : ∃ answers m₂, (Calls.machine (predictor (smallParams 2))).run
      (Calls.start (State.initial (smallParams 2))) retrainedBranch = .ok (answers, m₂) := by
  have hconstruct : construct (smallParams 2) = .ok (State.initial (smallParams 2)) := rfl
  have hfits := choice2IndexFits_of_le (construct_eq_ok_iff.mp hconstruct).1 (by decide)
  exact ⟨_, ((triTournament_answers_as_tournament_iff (smallParams 2) _ _ rfl rfl (by decide) (by decide) (by decide)).1
    retrainedBranch _ _ rfl).mpr (Machine.stepsAll_of_forall _ (Calls.CommitGuard.of_forall hfits) _ _)⟩

/-- With a second choice table of one entry, the commit trains entry 1, and the
lookup after it is not answered. -/
theorem retrainedBranch_leaves_second_choice_table : (∃ s, construct (smallParams 1) = .ok s) ∧
    (∃ m₁, (Calls.machine (TournamentBP.predictor (smallParams 1).tournament)).run
      (Calls.start (TournamentBP.State.initial (smallParams 1).tournament)) retrainedBranch =
        .ok ([some false, none, none, some false, none, some true], m₁)) ∧
    (Calls.machine (predictor (smallParams 1))).run (Calls.start (State.initial (smallParams 1)))
      retrainedBranch = .error .outOfRange := by
  refine ⟨⟨_, rfl⟩, ⟨_, rfl⟩, ?_⟩
  rfl

end Gem5.TriTournamentBP
