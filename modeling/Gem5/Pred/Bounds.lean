import Gem5.Pred.Ensemble.Spec
import Gem5.Pred.Ensemble2.Spec
import Gem5.Pred.GTriTournament.Refinement
import Gem5.Pred.TriTournament.Refinement

open Lib Result Lib.ShiftRegister BitVec Table
namespace Gem5

/-- When every bit of the history register is set, the gshare hash of address 0
is the last entry of a table that the mask is made for, past the end of a smaller one. -/
theorem le_gshareIdx_of_full_register {bits : Nat} (hsize : isPowerOf2 size = true)
    (hregister : IsLowMask register bits) (hle : size - 1 ≤ register) (hsmall : small < size)
    (instShiftAmt : Unsigned) :
    small.toNat ≤ (gshareIdx instShiftAmt (size - 1) register 0).toNat := by
  have hzero : (shr (0 : Addr) instShiftAmt.toNat).setWidth 32 = 0#32 := by
    unfold shr
    simp
  have hand : register &&& (size - 1) = size - 1 := by
    apply eq_of_getLsbD_eq
    intro i hi
    rw [getLsbD_and]
    by_cases hlow : i < bits
    · rw [hregister i]
      simp [hlow, hi]
    · rw [hregister.getLsbD_of_le hle (by omega)]
      simp
  have hlt := lt_def.mp hsmall
  rw [gshareIdx_eq, hzero, BitVec.zero_xor, hand, toNat_pred (ne_zero_of_isPowerOf2 hsize)]
  omega

/-- Jumps can set every bit of the history register. -/
theorem Calls.reaches_full_register {S H : Type} (d : DirectionPredictor S H) (register : S → Unsigned)
    {mask : Unsigned} {bits : Nat} (hmask : IsLowMask mask bits)
    (hjump : ∀ s, ∃ h s', d.uncondBranch s 0 0 = .ok (h, s') ∧ register s' = shiftIn mask (register s) true) (s : S) :
    ∃ m, (machine d).Reaches (start s) m ∧ register m.predictor = mask := by
  obtain ⟨m, hreach, hregister⟩ := reaches_jumps d register (fun r => shiftIn mask r true) 0 0 hjump s (bits + 1)
  refine ⟨m, hreach, ?_⟩
  rcases hmask.iterate_shiftIn_true _ (Nat.le_succ bits) with hfull | hnone
  · exact hregister.trans hfull
  · omega

end Gem5

namespace Gem5.EnsembleBP

variable {p : Params}

theorem lookup_of_small_gshare_table (hp : Accepted p) (hsize : p.gsharePredictorSize < p.globalPredictorSize)
    (hregister : s.globalHistory 0 = p.historyRegisterMask) : lookup p s 0 0 = .error .outOfRange := by
  have hpast : p.gsharePredictorSize.toNat ≤ (p.gsharePredictorIdx (s.globalHistory 0) 0).toNat := by
    rw [hregister]
    exact le_gshareIdx_of_full_register hp.globalPredictorSize p.historyRegisterMask_isLowMask
      hp.globalHistoryMask hsize _
  refine bind_of_error ?_ _
  unfold readExperts
  rw [bind_of_ok (read_of_lt _ (Params.calcLocHistIdx_lt hp 0)),
    bind_of_ok (read_of_lt _ (Params.localPredictorIdx_lt hp _)),
    bind_of_ok (read_of_lt _ (Params.globalPredictorIdx_lt hp _))]
  exact bind_of_error (read_of_le _ hpast) _

/-- All indices are in range exactly when the gshare table is at least as large
as the global table. -/
theorem inRange_iff (hp : Accepted p) :
    Calls.InRange (predictor p) (State.initial p) ↔ p.globalPredictorSize ≤ p.gsharePredictorSize := by
  constructor
  · intro hrange
    by_contra hsmall
    obtain ⟨m, hreach, hregister⟩ := Calls.reaches_full_register (predictor p) (fun s => s.globalHistory 0)
      p.historyRegisterMask_isLowMask (fun s => ⟨_, _, rfl, by simp [updateGlobalHistTaken]⟩) (State.initial p)
    exact hrange.lookup_ne hreach (lookup_of_small_gshare_table hp (BitVec.not_le.mp hsmall) hregister)
  · intro hsize
    exact Calls.inRange_of_total (predictor_total hp hsize) (inTable_preserved hp) (fun _ _ => trivial) trivial

end Gem5.EnsembleBP

namespace Gem5.EnsembleBP2

variable {p : Params} (hp : Accepted p)
include hp

theorem lookup_of_empty_choice_table (hchoice : p.choicePredictorSize = 0) (s : State p) :
    lookup p s 0 0 = .error .outOfRange := by
  refine bind_of_error ?_ _
  unfold readExperts
  rw [bind_of_ok (read_of_lt _ (Params.calcLocHistIdx_lt hp 0)),
    bind_of_ok (read_of_lt _ (Params.localPredictorIdx_lt hp _)),
    bind_of_ok (read_of_lt _ (Params.globalPredictorIdx_lt hp _))]
  exact bind_of_error (read_of_le _ (by simp [hchoice])) _

theorem lookup_of_small_gshare_table (hchoice : p.choicePredictorSize ≠ 0)
    (hsize : p.gsharePredictorSize < p.globalPredictorSize) (hregister : s.globalHistory 0 = p.historyRegisterMask) :
    lookup p s 0 0 = .error .outOfRange := by
  have hpast : p.gsharePredictorSize.toNat ≤ (p.gsharePredictorIdx (s.globalHistory 0) 0).toNat := by
    rw [hregister]
    exact le_gshareIdx_of_full_register hp.globalPredictorSize p.historyRegisterMask_isLowMask
      hp.globalHistoryMask hsize _
  refine bind_of_error ?_ _
  unfold readExperts
  rw [bind_of_ok (read_of_lt _ (Params.calcLocHistIdx_lt hp 0)),
    bind_of_ok (read_of_lt _ (Params.localPredictorIdx_lt hp _)),
    bind_of_ok (read_of_lt _ (Params.globalPredictorIdx_lt hp _)),
    bind_of_ok (read_of_lt _ (Params.choicePredictorIdx_lt hchoice _)),
    bind_of_ok (require_of_lt (Params.gsharePredictorIdx_lt hp (s.globalHistory 0) 0))]
  exact bind_of_error (read_of_le _ hpast) _

/-- All indices are in range exactly when the gshare table is at least as large
as the global table and the choice table is not empty. -/
theorem inRange_iff : Calls.InRange (predictor p) (State.initial p) ↔
      p.globalPredictorSize ≤ p.gsharePredictorSize ∧ p.choicePredictorSize ≠ 0 := by
  constructor
  · intro hrange
    have hchoice : p.choicePredictorSize ≠ 0 := fun hempty =>
      hrange.lookup_ne .start (lookup_of_empty_choice_table hp hempty _)
    refine ⟨?_, hchoice⟩
    by_contra hsmall
    obtain ⟨m, hreach, hregister⟩ := Calls.reaches_full_register (predictor p) (fun s => s.globalHistory 0)
      p.historyRegisterMask_isLowMask (fun s => ⟨_, _, rfl, by simp [updateGlobalHistTaken]⟩) (State.initial p)
    exact hrange.lookup_ne hreach (lookup_of_small_gshare_table hp hchoice (BitVec.not_le.mp hsmall) hregister)
  · rintro ⟨hsize, hchoice⟩
    exact Calls.inRange_of_total (predictor_total hp hsize hchoice) (inTable_preserved hp)
      (fun _ _ => trivial) trivial

end Gem5.EnsembleBP2

namespace Gem5.GTriTournamentBP

variable {p : Params}

theorem lookup_of_empty_table (hp : Accepted p)
    (hempty : p.globalPredictorSize2 = 0 ∨ p.choicePredictorSize2 = 0) (s : State p) :
    lookup p s 0 0 = .error .outOfRange := by
  unfold lookup
  rw [bind_of_ok (read_of_lt _ (Params.calcLocHistIdx_lt hp 0)),
    bind_of_ok (read_of_lt _ (Params.localPredictorIdx_lt hp _)),
    bind_of_ok (read_of_lt _ (Params.globalPredictorIdx_lt hp _))]
  by_cases hglobal : p.globalPredictorSize2 = 0
  · exact bind_of_error (read_of_le _ (by simp [hglobal])) _
  have hchoice : p.choicePredictorSize2 = 0 := hempty.resolve_left hglobal
  rw [bind_of_ok (read_of_lt _ (Params.gshareReadIdx_lt hglobal _ 0)),
    bind_of_ok (read_of_lt _ (Params.choicePredictorIdx_lt hp _))]
  exact bind_of_error (read_of_le _ (by simp [hchoice])) _

/-- All indices are in range exactly when neither table whose size the
constructor does not check is empty. -/
theorem inRange_iff (hp : Accepted p) : Calls.InRange (predictor p) (State.initial p) ↔
      p.globalPredictorSize2 ≠ 0 ∧ p.choicePredictorSize2 ≠ 0 := by
  constructor
  · intro hrange
    by_contra hempty
    exact hrange.lookup_ne .start (lookup_of_empty_table hp (by tauto) (State.initial p))
  · rintro ⟨hglobal, hchoice⟩
    exact Calls.inRange_of_total (predictor_total hp hglobal hchoice) (inTable_preserved hp)
      (fun _ _ => trivial) trivial

end Gem5.GTriTournamentBP

namespace Gem5.TriTournamentBP

variable {p : Params} (hp : Accepted p)
include hp

theorem update_of_choice2_past_end (hfits : ¬Choice2IndexFits p taken h) :
    update p s tid pc taken h false = .error .outOfRange := by
  simp only [Choice2IndexFits, Classical.not_imp, Nat.not_lt] at hfits
  obtain ⟨htrains, hpast⟩ := hfits
  unfold update
  rw [bind_of_ok (require_of_lt (Params.calcLocHistIdx_lt hp pc)),
    bind_of_ok (require_of_lt (Params.calcLocHistIdx2_lt hp pc))]
  simp only [Bool.false_eq_true, if_false, updateCommitted]
  rw [bind_of_ok (require_of_lt (Params.localPredictorIdx_lt hp _)),
    bind_of_ok (require_of_lt (Params.localPredictorIdx2_lt hp _)),
    bind_of_ok (modifyIf_of_lt (Params.choicePredictorIdx_lt hp _)), htrains]
  exact bind_of_error (modify_of_le _ hpast _) _

/-- In every state that any calls lead to, the only call with an index out of
range is a commit that trains the second choice table past its end. -/
theorem step_outOfRange_iff (hreach : (Calls.machine (predictor p)).Reaches (Calls.start (State.initial p)) m)
    (c : Call) :
    ((Calls.machine (predictor p)).step m c = .error .outOfRange ↔ ¬Calls.CommitGuard (Choice2IndexFits p) m c) ∧
    (Calls.machine (predictor p)).step m c ≠ .error .assertion := by
  have hholds := Calls.reaches_holds (inTables_preserved hp) trivial hreach
  by_cases hguard : Calls.CommitGuard (Choice2IndexFits p) m c
  · rcases Calls.step_total (predictor_total hp) hholds hguard with ⟨o, m', hok⟩ | hdead
    · simp [hok, hguard]
    · simp [hdead, hguard]
  have hfault : (Calls.machine (predictor p)).step m c = .error .outOfRange := by
    cases c with
    | update tid pc taken name squashed =>
      cases squashed with
      | true => exact absurd trivial hguard
      | false =>
        simp only [Calls.CommitGuard, not_forall] at hguard
        obtain ⟨h, hget, hfits⟩ := hguard
        change (m.histories.get name >>= _) = _
        rw [bind_of_ok hget]
        exact bind_of_error (update_of_choice2_past_end hp hfits) _
    | _ => exact absurd trivial hguard
  simp [hfault, hguard]

theorem inRange_of_le (hle : p.choicePredictorSize ≤ p.choicePredictorSize2) :
    Calls.InRange (predictor p) (State.initial p) :=
  Calls.inRange_of_total (predictor_total hp) (inTables_preserved hp) (choice2IndexFits_of_le hp hle) trivial

end Gem5.TriTournamentBP

namespace Gem5

/-- Which indices stay inside their vectors, for the four predictors. Three of
them depend on their parameters only. The fourth, in any state that any
calls lead to, leaves a vector exactly at a commit that trains the second
choice table past its end, which a large enough table excludes. -/
theorem indices_in_range_iff (p : EnsembleBP.Params) (p₂ : EnsembleBP2.Params) (g : GTriTournamentBP.Params)
    (t : TriTournamentBP.Params) (s : EnsembleBP.State p) (s₂ : EnsembleBP2.State p₂)
    (sg : GTriTournamentBP.State g) (st : TriTournamentBP.State t)
    (hs : EnsembleBP.construct p = .ok s) (hs₂ : EnsembleBP2.construct p₂ = .ok s₂)
    (hsg : GTriTournamentBP.construct g = .ok sg) (hst : TriTournamentBP.construct t = .ok st) :
    (Calls.InRange (EnsembleBP.predictor p) s ↔ p.globalPredictorSize ≤ p.gsharePredictorSize) ∧
    (Calls.InRange (EnsembleBP2.predictor p₂) s₂ ↔
      p₂.globalPredictorSize ≤ p₂.gsharePredictorSize ∧ p₂.choicePredictorSize ≠ 0) ∧
    (Calls.InRange (GTriTournamentBP.predictor g) sg ↔ g.globalPredictorSize2 ≠ 0 ∧ g.choicePredictorSize2 ≠ 0) ∧
    (∀ m, (Calls.machine (TriTournamentBP.predictor t)).Reaches (Calls.start st) m → ∀ c,
      ((Calls.machine (TriTournamentBP.predictor t)).step m c = .error .outOfRange ↔
        ¬Calls.CommitGuard (TriTournamentBP.Choice2IndexFits t) m c) ∧
      (Calls.machine (TriTournamentBP.predictor t)).step m c ≠ .error .assertion) ∧
    (t.choicePredictorSize ≤ t.choicePredictorSize2 → Calls.InRange (TriTournamentBP.predictor t) st) := by
  obtain ⟨hp, rfl⟩ := EnsembleBP.construct_eq_ok_iff.mp hs
  obtain ⟨hp₂, rfl⟩ := EnsembleBP2.construct_eq_ok_iff.mp hs₂
  obtain ⟨hg, rfl⟩ := GTriTournamentBP.construct_eq_ok_iff.mp hsg
  obtain ⟨ht, rfl⟩ := TriTournamentBP.construct_eq_ok_iff.mp hst
  refine ⟨EnsembleBP.inRange_iff hp, EnsembleBP2.inRange_iff hp₂, GTriTournamentBP.inRange_iff hg, ?_,
    TriTournamentBP.inRange_of_le ht⟩
  intro m hreach c
  exact TriTournamentBP.step_outOfRange_iff ht hreach c

theorem small_indices_in_range : Calls.InRange (EnsembleBP.predictor EnsembleBP.smallParams)
        (EnsembleBP.State.initial EnsembleBP.smallParams) ∧
      Calls.InRange (EnsembleBP2.predictor EnsembleBP2.smallParams)
        (EnsembleBP2.State.initial EnsembleBP2.smallParams) ∧
      Calls.InRange (GTriTournamentBP.predictor (GTriTournamentBP.smallParams 4))
        (GTriTournamentBP.State.initial (GTriTournamentBP.smallParams 4)) ∧
      Calls.InRange (TriTournamentBP.predictor (TriTournamentBP.smallParams 2))
        (TriTournamentBP.State.initial (TriTournamentBP.smallParams 2)) := by
  obtain ⟨hensemble, hensemble2, hgtri, -, htri⟩ := indices_in_range_iff EnsembleBP.smallParams
    EnsembleBP2.smallParams (GTriTournamentBP.smallParams 4) (TriTournamentBP.smallParams 2) _ _ _ _
    rfl rfl rfl rfl
  exact ⟨hensemble.mpr (by decide), hensemble2.mpr (by decide), hgtri.mpr (by decide), htri (by decide)⟩

/-- Each of the four predictors has an accepted parameter set with which some
call indexes a vector past its end. -/
theorem small_indices_out_of_range :
    (∃ s, EnsembleBP.construct { EnsembleBP.smallParams with globalPredictorSize := 4 } = .ok s ∧
      (Calls.machine (EnsembleBP.predictor { EnsembleBP.smallParams with globalPredictorSize := 4 })).run
        (Calls.start s) [.lookup 0 8] = .error .outOfRange) ∧
    (∃ s, EnsembleBP2.construct { EnsembleBP2.smallParams with globalPredictorSize := 4 } = .ok s ∧
      (Calls.machine (EnsembleBP2.predictor { EnsembleBP2.smallParams with globalPredictorSize := 4 })).run
        (Calls.start s) [.lookup 0 8] = .error .outOfRange) ∧
    (∃ s, GTriTournamentBP.construct (GTriTournamentBP.smallParams 0) = .ok s ∧
      (Calls.machine (GTriTournamentBP.predictor (GTriTournamentBP.smallParams 0))).run
        (Calls.start s) [.lookup 0 0] = .error .outOfRange) ∧
    (∃ s, TriTournamentBP.construct (TriTournamentBP.smallParams 1) = .ok s ∧
      (Calls.machine (TriTournamentBP.predictor (TriTournamentBP.smallParams 1))).run
        (Calls.start s) TriTournamentBP.retrainedBranch = .error .outOfRange) := by
  refine ⟨⟨_, rfl, ?_⟩, ⟨_, rfl, ?_⟩, ⟨_, rfl, ?_⟩, ⟨_, rfl, ?_⟩⟩ <;> rfl

end Gem5
