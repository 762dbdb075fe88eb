import Gem5.Pred.LTAGE.Model

open Lib Result

namespace Gem5.LTAGE

variable {p : Params} {s s' : State p} {tid : ThreadID} {taken : Bool} {bi : BranchInfo p}

/-- What a method computes first does not matter if it leaves the histories
alone. -/
theorem threadHistory_of_bind {A : Type} {x : Result A} {f : A → State p}
    (h : (x >>= fun a => .ok (f a)) = .ok s') (hsame : ∀ a, (f a).threadHistory = s.threadHistory) :
    s'.threadHistory = s.threadHistory := by
  obtain ⟨a, -, hdone⟩ := bind_ok h
  cases hdone
  exact hsame a

theorem modifyEntry_threadHistory {bank : Nat} {index : BitVec 32} {g : TageEntry → TageEntry}
    (h : s.modifyEntry bank index g = .ok s') : s'.threadHistory = s.threadHistory :=
  threadHistory_of_bind h fun _ => rfl

theorem baseUpdate_threadHistory (h : baseUpdate p s taken bi = .ok s') : s'.threadHistory = s.threadHistory :=
  threadHistory_of_bind h fun _ => rfl

theorem specLoopUpdate_threadHistory {pc : Addr} (h : specLoopUpdate p s pc taken bi = .ok s') :
    s'.threadHistory = s.threadHistory := by
  unfold specLoopUpdate at h
  split at h
  · exact threadHistory_of_bind h fun _ => rfl
  · cases h
    rfl

theorem restoreIter_threadHistory (h : restoreIter p s bi = .ok s') : s'.threadHistory = s.threadHistory := by
  unfold restoreIter at h
  split at h
  · exact threadHistory_of_bind h fun _ => rfl
  · cases h
    rfl

theorem loopUpdate_threadHistory (h : loopUpdate p s taken bi = .ok s') : s'.threadHistory = s.threadHistory := by
  unfold loopUpdate at h
  split at h
  · exact threadHistory_of_bind h fun _ => rfl
  split at h
  · exact threadHistory_of_bind h fun _ => rfl
  · cases h
    rfl

theorem allocate_threadHistory (h : allocate p taken bi banks s = .ok s') : s'.threadHistory = s.threadHistory := by
  induction banks generalizing s with
  | nil =>
    cases h
    rfl
  | cons bank later ih =>
    obtain ⟨_, _, _, -, -, hmodify, h⟩ := bind_ok₃ h
    exact (ih h).trans (modifyEntry_threadHistory hmodify)

theorem allocateEntries_threadHistory (h : allocateEntries p s taken bi nrand = .ok s') :
    s'.threadHistory = s.threadHistory := by
  obtain ⟨_, freed, -, hfree, h⟩ := bind_ok₂ h
  have hsame : freed.threadHistory = s.threadHistory := by
    split at hfree
    · obtain ⟨_, -, hmodify⟩ := bind_ok hfree
      exact modifyEntry_threadHistory hmodify
    · cases hfree
      rfl
  exact (allocate_threadHistory h).trans hsame

theorem resetUseful_threadHistory (s : State p) : (resetUseful p s).threadHistory = s.threadHistory := by
  rw [resetUseful]
  dsimp only
  split <;> rfl

theorem trainProviders_threadHistory (h : trainProviders p s taken longest_match_pred bi = .ok s') :
    s'.threadHistory = s.threadHistory := by
  unfold trainProviders at h
  split at h
  · obtain ⟨_, _, provider, -, -, hprovider, h⟩ := bind_ok₃ h
    obtain ⟨alternate, halternate, h⟩ := bind_ok h
    have hsame : alternate.threadHistory = provider.threadHistory := by
      split at halternate
      · split at halternate
        · obtain ⟨_, _, -, -, halternate⟩ := bind_ok₂ halternate
          exact modifyEntry_threadHistory halternate
        · exact baseUpdate_threadHistory halternate
      · cases halternate
        rfl
    have hlast : s'.threadHistory = alternate.threadHistory := by
      split at h
      · exact modifyEntry_threadHistory h
      · cases h
        rfl
    exact hlast.trans (hsame.trans (modifyEntry_threadHistory hprovider))
  · exact baseUpdate_threadHistory h

theorem updateTables_threadHistory (h : updateTables p s taken bi nrand = .ok s') :
    s'.threadHistory = s.threadHistory := by
  obtain ⟨looped, _, _, hloop, -, -, h⟩ := bind_ok₃ h
  obtain ⟨allocated, halloc, h⟩ := bind_ok h
  have hsame : allocated.threadHistory = looped.threadHistory := by
    split at halloc
    · have hentries := allocateEntries_threadHistory halloc
      exact hentries
    · cases halloc
      rfl
  rw [trainProviders_threadHistory h, resetUseful_threadHistory, hsame, loopUpdate_threadHistory hloop]

/-- Commits do not touch the histories. -/
theorem update_committed_threadHistory (h : update p s tid taken bi false = .ok s') :
    s'.threadHistory = s.threadHistory := by
  rw [update, if_neg Bool.false_ne_true] at h
  dsimp only at h
  split at h
  · have htables := updateTables_threadHistory h
    exact htables
  · cases h
    rfl

theorem predict_threadHistory (h : predict p s tid branch_pc cond_branch = .ok (pred_taken, bi, s')) :
    s'.threadHistory = s.threadHistory := by
  obtain ⟨_, _, -, hspec, hdone⟩ := bind_ok₂ h
  cases hdone
  exact specLoopUpdate_threadHistory hspec

/-- What is recorded after a prediction is recorded in the histories before it. -/
theorem recorded_threadHistory (h : predict p s tid branch_pc cond_branch = .ok (pred_taken, bi, predicted))
    (hupdate : (predicted.threadHistory tid).updateHistories branch_pc taken = .ok (saved, tHist)) :
    (s.threadHistory tid).updateHistories branch_pc taken = .ok (saved, tHist) ∧
      (predicted.setHistory tid tHist).threadHistory = Function.update s.threadHistory tid tHist := by
  have hsame := predict_threadHistory h
  rw [hsame] at hupdate
  refine ⟨hupdate, ?_⟩
  rw [State.setHistory, hsame]

/-- A prediction records its direction. -/
theorem lookup_threadHistory (h : lookup p s tid branch_pc = .ok (taken, bi, s')) :
    ∃ tHist, (s.threadHistory tid).updateHistories branch_pc taken = .ok (bi.saved, tHist) ∧
      s'.threadHistory = Function.update s.threadHistory tid tHist := by
  obtain ⟨_, ⟨_, tHist⟩, _, hpredict, hupdate, -, hdone⟩ := bind_ok₃ h
  cases hdone
  exact ⟨tHist, recorded_threadHistory hpredict hupdate⟩

theorem uncondBranch_threadHistory (h : uncondBranch p s tid br_pc = .ok (bi, s')) :
    ∃ tHist, (s.threadHistory tid).updateHistories br_pc true = .ok (bi.saved, tHist) ∧
      s'.threadHistory = Function.update s.threadHistory tid tHist := by
  obtain ⟨_, ⟨_, tHist⟩, _, hpredict, hupdate, -, hdone⟩ := bind_ok₃ h
  cases hdone
  exact ⟨tHist, recorded_threadHistory hpredict hupdate⟩

theorem btbUpdate_threadHistory (h : btbUpdate p s tid bi = .ok s') :
    ∃ tHist, (s.threadHistory tid).btbUpdate bi.saved = .ok tHist ∧
      s'.threadHistory = Function.update s.threadHistory tid tHist := by
  obtain ⟨tHist, hupdate, hdone⟩ := bind_ok h
  cases hdone
  exact ⟨tHist, hupdate, rfl⟩

theorem update_squashed_threadHistory (h : update p s tid taken bi true = .ok s') :
    ∃ tHist, (s.threadHistory tid).squash taken bi.saved = .ok tHist ∧
      s'.threadHistory = Function.update s.threadHistory tid tHist := by
  unfold update at h
  rw [if_pos rfl] at h
  obtain ⟨tHist, hsquash, hrestore⟩ := bind_ok h
  exact ⟨tHist, hsquash, restoreIter_threadHistory hrestore⟩

end Gem5.LTAGE
