import Gem5.Mem.MemChecker.Tracker

open Lib Result List

namespace Gem5.MemChecker.ByteTracker

variable {t t' : ByteTracker} {last_obs : Transaction} {start complete : Nat} {data : BitVec 8} {s : Scan}

section Scan

/-- What the loops have found, when no write has the data. -/
structure Scanned (last_obs : Transaction) (start : Nat) (data : BitVec 8) (writes : List Transaction) (s s' : Scan) :
    Prop where
  found : s'.found = false
  data_ne : ∀ w ∈ writes, w.complete < last_obs.start ∨ w.data ≠ data
  overlap_iff : s'.wc_overlap = true ↔ s.wc_overlap = true ∧ ∀ w ∈ writes, w.complete < last_obs.start ∨
    start < w.complete
  valid_iff : s'.last_obs_valid = true ↔ s.last_obs_valid = true ∧
    ∀ w ∈ writes, w.complete < last_obs.start ∨ start < w.complete ∨ w.start ≤ last_obs.complete
  expected_iff : s'.expected = [] ↔ s.expected = [] ∧ ∀ w ∈ writes, w.complete < last_obs.start

theorem Scanned.nil (hs : s.found = false) : Scanned last_obs start data [] s s :=
  ⟨hs, by simp, by simp, by simp, by simp⟩

theorem Scanned.trans (h₁ : Scanned last_obs start data ws₁ s s₁) (h₂ : Scanned last_obs start data ws₂ s₁ s₂) :
    Scanned last_obs start data (ws₁ ++ ws₂) s s₂ := by
  refine ⟨h₂.found, fun w hw => ?_, ?_, ?_, ?_⟩
  · exact (mem_append.mp hw).elim (h₁.data_ne w) (h₂.data_ne w)
  · rw [h₂.overlap_iff, h₁.overlap_iff, forall_mem_append, and_assoc]
  · rw [h₂.valid_iff, h₁.valid_iff, forall_mem_append, and_assoc]
  · rw [h₂.expected_iff, h₁.expected_iff, forall_mem_append, and_assoc]

/-- One pass of the inner loop, for a write with other data. -/
theorem scanned_skip (hs : s.found = false) (hskip : write.complete < last_obs.start) :
    Scanned last_obs start data [write] s s :=
  ⟨hs, by simp [hskip], by simp [hskip], by simp [hskip], by simp [hskip]⟩

theorem scanned_overlap (hs : s.found = false) (hskip : ¬write.complete < last_obs.start) (hdata : write.data ≠ data)
    (hover : start < write.complete) :
    Scanned last_obs start data [write] s { s with expected := s.expected ++ [write.data] } :=
  ⟨hs, by simp [hdata], by simp [hover], by simp [hover], by simp [hskip]⟩

theorem scanned_before (hs : s.found = false) (hskip : ¬write.complete < last_obs.start) (hdata : write.data ≠ data)
    (hover : ¬start < write.complete) :
    Scanned last_obs start data [write] s
      { s with
        expected := s.expected ++ [write.data]
        wc_overlap := false
        last_obs_valid := if last_obs.complete < write.start then false else s.last_obs_valid } := by
  refine ⟨hs, by simp [hdata], by simp [hskip, hover], ?_, by simp [hskip]⟩
  by_cases hlt : last_obs.complete < write.start
  · simp [hlt, hskip, hover]
  · simp [hlt, Nat.le_of_not_lt hlt]

theorem scanWrites_spec (last_obs : Transaction) (start : Nat) (data : BitVec 8) (writes : List Transaction)
    (hs : s.found = false) :
    (scanWrites last_obs start data writes s).found = true ∨
      Scanned last_obs start data writes s (scanWrites last_obs start data writes s) := by
  induction writes generalizing s with
  | nil => exact .inr (.nil hs)
  | cons write writes ih =>
    rw [scanWrites]
    split
    · rename_i hskip
      exact (ih hs).imp_right (scanned_skip hs hskip).trans
    rename_i hskip
    split
    · exact .inl rfl
    rename_i hdata
    split
    · rename_i hover
      have hpass := scanned_overlap hs hskip hdata hover
      exact (ih hpass.found).imp_right hpass.trans
    · rename_i hover
      have hpass := scanned_before hs hskip hdata hover
      exact (ih hpass.found).imp_right hpass.trans

theorem scanClusters_of_found (clusters : List WriteCluster) (hs : s.found = true) :
    scanClusters last_obs start data clusters s = s := by
  cases clusters with
  | nil => rfl
  | cons c clusters =>
    rw [scanClusters, if_neg]
    rintro ⟨hnot, -⟩
    cases hs.symm.trans hnot

/-- The outer loop looks at a part of the clusters, and stops early only at a write that
completes before the read starts. -/
theorem scanClusters_spec (last_obs : Transaction) (start : Nat) (data : BitVec 8) (clusters : List WriteCluster)
    (hs : s.found = false) :
    (scanClusters last_obs start data clusters s).found = true ∨ ∃ visited rest, clusters = visited ++ rest ∧
        Scanned last_obs start data (visited.flatMap WriteCluster.writes) s
          (scanClusters last_obs start data clusters s) ∧
        (rest = [] ∨ (scanClusters last_obs start data clusters s).wc_overlap = false) := by
  induction clusters generalizing s with
  | nil => exact .inr ⟨[], [], rfl, .nil hs, .inl rfl⟩
  | cons c clusters ih =>
    rw [scanClusters]
    by_cases hoverlap : s.wc_overlap = true
    · rw [if_pos ⟨hs, hoverlap⟩]
      rcases scanWrites_spec last_obs start data c.writes hs with hfound | hwrites
      · rw [scanClusters_of_found clusters hfound]
        exact .inl hfound
      rcases ih hwrites.found with hfound | ⟨visited, rest, rfl, hscanned, hstop⟩
      · exact .inl hfound
      · refine .inr ⟨c :: visited, rest, rfl, ?_, hstop⟩
        rw [flatMap_cons]
        exact hwrites.trans hscanned
    · rw [if_neg fun h => hoverlap h.2]
      exact .inr ⟨[], c :: clusters, rfl, .nil hs, .inr (Bool.eq_false_iff.mpr hoverlap)⟩

end Scan

section Expected

/-- The clusters that were looked at, and what is known if the data is not expected. -/
structure Rejected (t : ByteTracker) (last_obs : Transaction) (start : Nat) (data : BitVec 8)
    (visited rest : List WriteCluster) :
    Prop where
  clusters : t.writeClusters.reverse = visited ++ rest
  data_ne : ∀ c ∈ visited, ∀ w ∈ c.writes, w.complete < last_obs.start ∨ w.data ≠ data
  observed : last_obs.complete ≠ tickInitial →
    (∀ c ∈ visited, ∀ w ∈ c.writes, w.complete < last_obs.start ∨ start < w.complete ∨
    w.start ≤ last_obs.complete) → last_obs.data ≠ data
  before : rest ≠ [] ∨ last_obs.complete = tickInitial → ∃ c ∈ visited, ∃ w ∈ c.writes, ¬w.complete < last_obs.start ∧
    w.complete ≤ start

theorem noMatch_eq_false (h : noMatch t last_obs = .ok (false, t')) : t.lastExpectedData ≠ [] := by
  unfold noMatch at h
  split at h
  · obtain ⟨_, -, h⟩ := bind_ok h
    cases h
  · rename_i hne
    exact fun hnil => hne (by rw [hnil]; rfl)

/-- What is known when the scan ends without a match and the read is rejected. -/
theorem conclude_eq_false (h : t.conclude last_obs start complete data s = .ok (false, t')) :
    s.found = false ∧ (s.last_obs_valid = true → last_obs.data ≠ data) ∧
      (s.last_obs_valid = false → s.expected ≠ [] ∧ (t.writeClusters = [] ∨ s.wc_overlap = false)) := by
  unfold conclude at h
  split at h
  · cases h
  rename_i hfound
  refine ⟨Bool.eq_false_iff.mpr hfound, fun hvalid => ?_, fun hvalid => ?_⟩
  · rw [if_pos hvalid] at h
    obtain ⟨_, -, h⟩ := bind_ok h
    rintro heq
    rw [if_pos heq] at h
    cases h
  · rw [if_neg (by rw [hvalid]; exact Bool.false_ne_true)] at h
    split at h
    · obtain ⟨_, -, h⟩ := bind_ok h
      cases h
    rename_i hnot
    refine ⟨noMatch_eq_false h, ?_⟩
    rw [Bool.and_eq_true, not_and_or] at hnot
    rcases hnot with hempty | hoverlap
    · refine .inl (isEmpty_iff.mp ?_)
      cases hcase : t.writeClusters.isEmpty with
      | true => rfl
      | false =>
        rw [hcase] at hempty
        exact absurd rfl hempty
    · exact .inr (Bool.eq_false_iff.mpr hoverlap)

theorem noMatch_tracker (h : noMatch t last_obs = .ok (b, t')) : t' = t := by
  unfold noMatch at h
  split at h
  · obtain ⟨_, -, h⟩ := bind_ok h
    cases h
    rfl
  · cases h
    rfl

/-- `inExpectedData` changes only the expected data. -/
theorem inExpectedData_tracker (h : t.inExpectedData start complete data = .ok (b, t')) :
    ∃ expected, t' = { t with lastExpectedData := expected } := by
  unfold inExpectedData at h
  obtain ⟨⟨last_obs, behind⟩, -, h⟩ := bind_ok h
  simp only at h
  generalize scanClusters last_obs start data t.writeClusters.reverse
    ⟨false, true, decide (last_obs.complete ≠ tickInitial), []⟩ = s at h
  unfold conclude at h
  split at h
  · cases h
    exact ⟨_, rfl⟩
  split at h
  · obtain ⟨_, -, h⟩ := bind_ok h
    split at h
    · cases h
      exact ⟨_, rfl⟩
    · exact ⟨_, noMatch_tracker h⟩
  · split at h
    · obtain ⟨_, -, h⟩ := bind_ok h
      cases h
      exact ⟨_, rfl⟩
    · exact ⟨_, noMatch_tracker h⟩

theorem inExpectedData_false (h : t.inExpectedData start complete data = .ok (false, t')) :
    ∃ last_obs behind visited rest, lastCompletedTransaction Transaction.complete t.readObservations start =
      .ok (last_obs, behind) ∧
      Rejected t last_obs start data visited rest := by
  unfold inExpectedData at h
  obtain ⟨⟨last_obs, behind⟩, hlast, h⟩ := bind_ok h
  obtain ⟨hfound, hvalid, hinvalid⟩ := conclude_eq_false h
  have hscan := scanClusters_spec last_obs start data
    (s := ⟨false, true, last_obs.complete ≠ tickInitial, []⟩) t.writeClusters.reverse rfl
  rcases hscan with hfound' | ⟨visited, rest, hclusters, hscanned, hstop⟩
  · cases hfound.symm.trans hfound'
  have hmem : ∀ {c w}, c ∈ visited → w ∈ c.writes → w ∈ visited.flatMap WriteCluster.writes :=
    fun hc hw => mem_flatMap.mpr ⟨_, hc, hw⟩
  -- a write that completes before the read starts has ended the loop
  have hbefore : (scanClusters last_obs start data t.writeClusters.reverse
      ⟨false, true, last_obs.complete ≠ tickInitial, []⟩).wc_overlap = false →
      ∃ c ∈ visited, ∃ w ∈ c.writes, ¬w.complete < last_obs.start ∧ w.complete ≤ start := by
    intro hoverlap
    by_contra hnot
    have hall : ∀ w ∈ visited.flatMap WriteCluster.writes, w.complete < last_obs.start ∨ start < w.complete := by
      intro w hw
      obtain ⟨c, hc, hw⟩ := mem_flatMap.mp hw
      by_contra hcase
      rw [not_or] at hcase
      exact hnot ⟨c, hc, w, hw, hcase.1, Nat.le_of_not_lt hcase.2⟩
    cases hoverlap.symm.trans (hscanned.overlap_iff.mpr ⟨rfl, hall⟩)
  refine ⟨last_obs, behind, visited, rest, hlast, hclusters, fun c hc w hw => hscanned.data_ne w (hmem hc hw), ?_, ?_⟩
  · intro hinitial hall
    refine hvalid (hscanned.valid_iff.mpr ⟨decide_eq_true hinitial, fun w hw => ?_⟩)
    obtain ⟨c, hc, hw⟩ := mem_flatMap.mp hw
    exact hall c hc w hw
  · rintro (hrest | hinitial)
    · exact hbefore (hstop.resolve_left hrest)
    · have hnot : (scanClusters last_obs start data t.writeClusters.reverse
          ⟨false, true, last_obs.complete ≠ tickInitial, []⟩).last_obs_valid = false := by
        rw [Bool.eq_false_iff]
        intro htrue
        exact of_decide_eq_true (hscanned.valid_iff.mp htrue).1 hinitial
      obtain ⟨hexpected, hempty | hoverlap⟩ := hinvalid hnot
      · rw [hempty] at hexpected
        exact absurd rfl hexpected
      · exact hbefore hoverlap

end Expected

end Gem5.MemChecker.ByteTracker
