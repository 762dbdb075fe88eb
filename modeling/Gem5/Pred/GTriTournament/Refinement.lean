import Gem5.Pred.GTriTournament.Spec
import Gem5.Pred.Tournament.Extension

open Lib Result Lib.ShiftRegister

namespace Gem5.GTriTournamentBP

/-- The tournament predictor with the same local, global and choice parameters. -/
def Params.tournament (p : Params) : TournamentBP.Params where
  localPredictorSize := p.localPredictorSize
  localCtrBits := p.localCtrBits
  localHistoryTableSize := p.localHistoryTableSize
  globalPredictorSize := p.globalPredictorSize
  globalCtrBits := p.globalCtrBits
  choicePredictorSize := p.choicePredictorSize
  choiceCtrBits := p.choiceCtrBits
  instShiftAmt := p.instShiftAmt

variable {p : Params}

/-- The tournament part of a state. The history registers of a tournament
predictor may be narrower. -/
def State.tournament (s : State p) : TournamentBP.State p.tournament where
  localCtrs := s.localCtrs
  localHistoryTable := s.localHistoryTable
  globalCtrs := s.globalCtrs
  globalHistory := s.globalHistory
  choiceCtrs := s.choiceCtrs
  atLeastOneCorrectExpertOnMispredict := 0

def BPHistory.tournament (h : BPHistory) : TournamentBP.BPHistory where
  globalHistory := h.globalHistory
  localHistoryIdx := h.localHistoryIdx
  localHistory := h.localHistory
  localPredTaken := h.localPredTaken
  globalPredTaken := h.globalPredTaken
  globalUsed := h.globalUsed

/-- No counter of the second choice table can exceed its threshold. -/
def Choice2Bounded (p : Params) (s : State p) : Prop :=
  Table.All (fun c => c.maxVal ≤ p.choiceThreshold2.toNat) s.choiceCtrs2

/-- The history register is at least as wide as that of the tournament
predictor. -/
theorem tournament_globalHistoryBits_le (hp : Accepted p) : p.tournament.globalHistoryBits ≤ p.globalHistoryBits := by
  have hglobal := ceilLog2_le_of_pred_le hp.globalPredictorSize (historyBits_le _ _ _) hp.globalHistoryMask
  have hchoice := ceilLog2_le_of_pred_le hp.choicePredictorSize (historyBits_le _ _ _) hp.choiceHistoryMask
  unfold TournamentBP.Params.globalHistoryBits
  split
  · exact hglobal
  · exact hchoice

theorem registerMasks_agree (hp : Accepted p) :
    AgreeBelow p.tournament.globalHistoryBits p.tournament.historyRegisterMask p.historyRegisterMask :=
  p.tournament.historyRegisterMask_isLowMask.agreeBelow p.historyRegisterMask_isLowMask (le_refl _)
    (tournament_globalHistoryBits_le hp)

/-- A second choice counter that is read never selects the gshare predictor. -/
theorem globalUsed2_of_bounded (hs : Choice2Bounded p s) (hread : Table.read s.choiceCtrs2 index = .ok ctr) :
    decide (p.choiceThreshold2.toNat < ctr.read) = false :=
  SatCounter.vote_eq_false (hs.read hread)

section

variable (hp : Accepted p)
include hp

/-- Every method that returns does, on the tournament part, what the tournament
predictor does, but for the bits of the registers that it does not keep. -/
theorem extends_tournament : TournamentBP.Extends (predictor p) State.tournament BPHistory.tournament
    (Choice2Bounded p) (BPHistory.InTable p) where
  lookup hbounded hcall := by
    have hin := ((inTable_preserved hp).lookup trivial hcall).2
    obtain ⟨lh, lc, gc, gc2, cc, hlh, hlc, hgc, -, hcc, hcall⟩ := bind₅_eq_ok_iff.mp hcall
    obtain ⟨cc2, _, table, hcc2, hlt, htable, ⟨⟩⟩ := bind_ok₃ hcall
    have hunused := globalUsed2_of_bounded hbounded hcc2
    simp only [hunused] at htable hin ⊢
    exact ⟨⟨hbounded, hin⟩, _, bind₃_eq_ok_iff.mpr ⟨lh, lc, gc, hlh, hlc, hgc,
      bind₃_eq_ok_iff.mpr ⟨cc, _, table, hcc, hlt, htable, rfl⟩⟩, _, _, rfl,
        AgreeBelow.update (fun _ => .refl _ _) _ ((AgreeBelow.refl _ _).shiftIn (registerMasks_agree hp) _)⟩
  uncondBranch hbounded hcall := by
    have hin := ((inTable_preserved hp).uncondBranch trivial hcall).2
    cases hcall
    exact ⟨⟨hbounded, hin⟩, rfl, _, _, rfl,
      AgreeBelow.update (fun _ => .refl _ _) _ ((AgreeBelow.refl _ _).shiftIn (registerMasks_agree hp) true)⟩
  btbUpdate hbounded _ hcall := by
    obtain ⟨table, htable, ⟨⟩⟩ := bind_ok hcall
    exact ⟨hbounded, _, bind_of_ok htable _, _, _, rfl,
      AgreeBelow.update (fun _ => .refl _ _) _ ((AgreeBelow.refl _ _).clearNewest (registerMasks_agree hp))⟩
  update {_ _ _ taken _ squashed _} hbounded _ hcall := by
    cases squashed with
    | true =>
      obtain ⟨_, table, hlt, htable, ⟨⟩⟩ := bind_ok₂ hcall
      exact ⟨hbounded, _, bind_eq_ok_iff.mpr ⟨_, hlt, bind_of_ok htable _⟩, _, _, rfl,
        AgreeBelow.update (fun _ => .refl _ _) _ ((AgreeBelow.refl _ _).shiftIn (registerMasks_agree hp) taken)⟩
    | false =>
      obtain ⟨_, _, cc, cc2, gc, hlt, hlocal, hcc, hcc2, hgc, hcall⟩ := bind₅_eq_ok_iff.mp hcall
      obtain ⟨_, lc, -, hlc, ⟨⟩⟩ := bind_ok₂ hcall
      exact ⟨hbounded.modifyIf (fun c hc => by rwa [SatCounter.train_maxVal]) hcc2, _,
        bind₅_eq_ok_iff.mpr ⟨_, _, cc, gc, lc, hlt, hlocal, hcc, hgc, hlc, rfl⟩, _, _, rfl, fun _ => .refl _ _⟩
  squash hbounded _ hcall := by
    obtain ⟨table, htable, ⟨⟩⟩ := bind_ok hcall
    exact ⟨hbounded, _, bind_of_ok htable _, .refl _⟩

/-- The gshare predictor is never selected, in any state that any calls lead to. -/
theorem lookup_globalUsed2 (hbounded : Choice2Bounded p (State.initial p))
    (hreach : (Calls.machine (predictor p)).Reaches (Calls.start (State.initial p)) m)
    (hlookup : lookup p m.predictor tid pc = .ok (taken, h, s)) : h.globalUsed2 = false := by
  have hm := (Calls.reaches_holds (extends_tournament hp).preserves hbounded hreach).1
  obtain ⟨_, _, _, _, _, -, -, -, -, -, hlookup⟩ := bind₅_eq_ok_iff.mp hlookup
  obtain ⟨_, _, _, hcc2, -, -, ⟨⟩⟩ := bind_ok₃ hlookup
  exact globalUsed2_of_bounded hm hcc2

end

/-- A lookup that returns has found an entry in both tables whose sizes the
constructor does not check. -/
theorem sizes_ne_zero_of_lookup (h : lookup p s tid pc = .ok r) :
    p.globalPredictorSize2 ≠ 0 ∧ p.choicePredictorSize2 ≠ 0 := by
  obtain ⟨_, _, _, _, _, -, -, -, hgc2, -, h⟩ := bind₅_eq_ok_iff.mp h
  obtain ⟨_, hcc2, -⟩ := bind_ok h
  have hglobal := (Table.read_eq_ok_iff.mp hgc2).1
  have hchoice := (Table.read_eq_ok_iff.mp hcc2).1
  constructor
  · intro hzero
    simp [hzero] at hglobal
  · intro hzero
    simp [hzero] at hchoice

/-- The gshare three-way predictor answers every sequence of calls as the
tournament predictor does exactly when neither the gshare nor the second
choice table is empty. The gshare predictor is never selected. -/
theorem gtriTournament_answers_as_tournament_iff (p : Params) (s₁ : TournamentBP.State p.tournament)
    (s₂ : State p) (h₁ : TournamentBP.construct p.tournament = .ok s₁) (h₂ : construct p = .ok s₂)
    (hlow : 2 ≤ p.choiceCtrBits2) (hhigh : p.choiceCtrBits2 ≤ 8) :
    ((∀ (calls : List Call) (answers : List (Option Bool))
        (m₁ : Calls.State (TournamentBP.State p.tournament) TournamentBP.BPHistory),
        (Calls.machine (TournamentBP.predictor p.tournament)).run (Calls.start s₁) calls = .ok (answers, m₁) →
        ∃ m₂, (Calls.machine (predictor p)).run (Calls.start s₂) calls = .ok (answers, m₂)) ↔
      p.globalPredictorSize2 ≠ 0 ∧ p.choicePredictorSize2 ≠ 0) ∧ (∀ (m₂ : Calls.State (State p) BPHistory),
      (Calls.machine (predictor p)).Reaches (Calls.start s₂) m₂ →
      ∀ (tid : ThreadID) (pc : Addr) (taken : Bool) (h : BPHistory) (s : State p),
        lookup p m₂.predictor tid pc = .ok (taken, h, s) → h.globalUsed2 = false) := by
  obtain ⟨hp₁, rfl⟩ := TournamentBP.construct_eq_ok_iff.mp h₁
  obtain ⟨hp, rfl⟩ := construct_eq_ok_iff.mp h₂
  have hbounded : Choice2Bounded p (State.initial p) :=
    Table.All.replicate (maxVal_le_ctrThreshold2 hhigh hhigh (le_two_mul_pred hlow hhigh))
  constructor
  · constructor
    · intro hall
      obtain ⟨taken, h, s, hlookup⟩ := (TournamentBP.predictor_total hp₁).lookup
        (s := TournamentBP.State.initial p.tournament) 0 0 trivial
      obtain ⟨m₂, hrun⟩ := hall [.lookup 0 0] _ _ (Machine.run_cons_eq_ok_iff.mpr
        ⟨_, _, [], Calls.step_iff.mpr (.lookup hlookup), rfl, rfl⟩)
      obtain ⟨o, m, rest, hstep, -⟩ := Machine.run_cons_eq_ok_iff.mp hrun
      obtain ⟨hlookup₂⟩ := Calls.step_iff.mp hstep
      exact sizes_ne_zero_of_lookup hlookup₂
    · rintro ⟨hglobal, hchoice⟩ calls answers m₁ hrun
      exact (extends_tournament hp).run hp₁ (predictor_total hp hglobal hchoice) hbounded
        ⟨_, _, rfl, fun _ => .refl _ _⟩
        (Machine.stepsAll_of_forall _ (Calls.CommitGuard.of_forall fun _ _ => trivial) _ _) hrun
  · intro m₂ hreach tid pc taken h s hlookup
    exact lookup_globalUsed2 hp hbounded hreach hlookup

/-- Small tables of two entries each, except for the gshare table, whose size is
given. -/
def smallParams (globalPredictorSize2 : Unsigned) : Params where
  localPredictorSize := 2
  localCtrBits := 2
  localHistoryTableSize := 2
  globalPredictorSize := 2
  globalCtrBits := 2
  globalPredictorSize2 := globalPredictorSize2
  globalCtrBits2 := 2
  choicePredictorSize := 2
  choiceCtrBits := 2
  choicePredictorSize2 := 2
  choiceCtrBits2 := 2
  instShiftAmt := 2

theorem small_gtriTournament_answers_as_tournament :
    ∃ m₂, (Calls.machine (predictor (smallParams 4))).run (Calls.start (State.initial (smallParams 4)))
      [.lookup 0 0, .uncondBranch 0 4, .update 0 0 true 0 false] = .ok ([some false, none, none], m₂) :=
  (gtriTournament_answers_as_tournament_iff (smallParams 4) _ _ rfl rfl (by decide) (by decide)).1.mpr
    (by decide) [.lookup 0 0, .uncondBranch 0 4, .update 0 0 true 0 false] _ _ rfl

/-- A gshare table of size 0 is accepted, and the first `lookup` indexes it. -/
theorem empty_gshare_table_is_indexed : (∃ s₁ s₂, TournamentBP.construct (smallParams 0).tournament = .ok s₁ ∧
      construct (smallParams 0) = .ok s₂) ∧
    (∃ m₁, (Calls.machine (TournamentBP.predictor (smallParams 0).tournament)).run
      (Calls.start (TournamentBP.State.initial (smallParams 0).tournament)) [.lookup 0 0] = .ok ([some false], m₁)) ∧
    (Calls.machine (predictor (smallParams 0))).run (Calls.start (State.initial (smallParams 0)))
      [.lookup 0 0] = .error .outOfRange := by
  refine ⟨⟨_, _, rfl, rfl⟩, ⟨_, rfl⟩, ?_⟩
  rfl

end Gem5.GTriTournamentBP
