import Gem5.Lib.FoldedHistory
import Gem5.Pred.LTAGE.Model

open Lib Result Lib.RollingBuffer Table

namespace Gem5.LTAGE

/-- The configurations whose buffer holds the histories: it has room for more
than twice the longest history, and no bank uses a longer one. -/
structure Sized (p : Params) : Prop where
  buffer : 2 * p.maxHist.toNat < p.histBufferSize.toNat
  lengths : ∀ i < p.nHistoryTables, p.histLengths (i + 1) ≤ p.maxHist.toNat

/-- The history of a thread as it is meant: the last outcomes, newest first, the
path and the folded histories of all banks. -/
@[ext]
structure History where
  outcomes : List Bool
  pathHist : BitVec 32
  folded : List FoldedHistory
  deriving DecidableEq

/-- A folded history after the outcomes, of which the first is new. -/
def FoldedHistory.push (outcomes : List Bool) (f : FoldedHistory) : FoldedHistory :=
  f.shift (outcomes.getD 0 false) (outcomes.getD f.origLength false)

/-- The path history after a branch. -/
def pushPath (pathHist : BitVec 32) (branch_pc : Addr) : BitVec 32 :=
  ((pathHist <<< 1) + word ((branch_pc &&& 1) != 0)) &&& 0xffff

/-- The history after a branch, which keeps the last `keep` outcomes. -/
def History.push (keep : Nat) (branch_pc : Addr) (taken : Bool) (history : History) : History where
  outcomes := (taken :: history.outcomes).take keep
  pathHist := pushPath history.pathHist branch_pc
  folded := history.folded.map (FoldedHistory.push (taken :: history.outcomes))

/-- The constants of a folded history. -/
def FoldedHistory.blank (f : FoldedHistory) : FoldedHistory := { f with comp := 0 }

variable {p : Params}

namespace ThreadHistory

/-- The folded histories of all banks. -/
def registers (tHist : ThreadHistory p) : List FoldedHistory :=
  tHist.computeIndices.toList ++ tHist.computeTags0.toList ++ tHist.computeTags1.toList

/-- The history that the buffer has from `ptGhist` on. -/
def history (tHist : ThreadHistory p) : History where
  outcomes := window tHist.globalHistory tHist.ptGhist p.maxHist.toNat
  pathHist := tHist.pathHist
  folded := tHist.registers

/-- What the constructor sets up and every method keeps. -/
structure Placed (tHist : ThreadHistory p) : Prop where
  gHist : tHist.gHist = tHist.ptGhist
  ptGhist_lt : tHist.ptGhist < p.histBufferSize.toNat - p.maxHist.toNat
  blank : tHist.registers.map FoldedHistory.blank = (initial p).registers

/-- Applies a function to the folded histories of all banks. -/
def mapFolded (g : FoldedHistory → FoldedHistory) (tHist : ThreadHistory p) : ThreadHistory p :=
  { tHist with
    computeIndices := tHist.computeIndices.map g
    computeTags0 := tHist.computeTags0.map g
    computeTags1 := tHist.computeTags1.map g }

theorem registers_mapFolded (g : FoldedHistory → FoldedHistory) (tHist : ThreadHistory p) :
    (tHist.mapFolded g).registers = tHist.registers.map g := by
  simp only [registers, mapFolded, Vector.toList_map, List.map_append]

end ThreadHistory

/-- The saved values of the folded histories. -/
def SavedHistory.comps (saved : SavedHistory p) : List Unsigned :=
  saved.ci.toList ++ saved.ct0.toList ++ saved.ct1.toList

/-- The object of a branch saves the history before it: the values of the folded
histories, and the path with the branch itself. -/
structure SavedHistory.Saves (saved : SavedHistory p) (history : History) (branch_pc : Addr) : Prop where
  comps : saved.comps = history.folded.map FoldedHistory.comp
  pathHist : saved.pathHist = pushPath history.pathHist branch_pc

theorem getD_window (tab : Vector Bool size) (hj : j < length) (hin : start + j < size) :
    (window tab start length).getD j false = tab[start + j] := by
  rw [List.getD_eq_getElem?_getD, getElem?_window, if_pos hj, Vector.getElem?_eq_getElem hin, Option.getD_some]

variable {f : FoldedHistory}

theorem FoldedHistory.update_eq (tab : Vector Bool size) (hlength : f.origLength ≤ keep) (hin : h + keep < size) :
    f.update tab h = .ok (f.push (window tab h (keep + 1))) := by
  have hnewest : read tab h = .ok ((window tab h (keep + 1)).getD 0 false) := by
    rw [getD_window tab (Nat.succ_pos keep) (by omega)]
    exact read_of_lt tab (by omega)
  have hleaving : read tab (h + f.origLength) = .ok ((window tab h (keep + 1)).getD f.origLength false) := by
    rw [getD_window tab (Nat.lt_succ_of_le hlength) (by omega)]
    exact read_of_lt tab (by omega)
  rw [FoldedHistory.update, bind_of_ok hnewest, bind_of_ok hleaving]
  rfl

theorem mem_registers_initial (h : f ∈ (ThreadHistory.initial p).registers) :
    ∃ i < p.nHistoryTables, f = .init (p.histLengths (i + 1)) (p.tagTableSizes (i + 1)) ∨
      f = .init (p.histLengths (i + 1)) (p.tagWidths (i + 1)) ∨
      f = .init (p.histLengths (i + 1)) (p.tagWidths (i + 1) - 1) := by
  have hmem : ∀ {width : Fin p.nHistoryTables → Int},
      f ∈ (Vector.ofFn fun i => FoldedHistory.init (p.histLengths (i + 1)) (width i)).toList →
      ∃ i, f = .init (p.histLengths (i.val + 1)) (width i) := by
    intro width hmem
    rw [Vector.mem_toList_iff] at hmem
    obtain ⟨i, hi, rfl⟩ := Vector.getElem_of_mem hmem
    exact ⟨⟨i, hi⟩, by rw [Vector.getElem_ofFn]⟩
  rw [ThreadHistory.registers, List.mem_append, List.mem_append] at h
  rcases h with (h | h) | h
  · obtain ⟨i, hf⟩ := hmem h
    exact ⟨i, i.isLt, .inl hf⟩
  · obtain ⟨i, hf⟩ := hmem h
    exact ⟨i, i.isLt, .inr (.inl hf)⟩
  · obtain ⟨i, hf⟩ := hmem h
    exact ⟨i, i.isLt, .inr (.inr hf)⟩

variable {registers : List FoldedHistory}

namespace ThreadHistory

variable {tHist : ThreadHistory p}

/-- The constants of a folded history are those that the constructor gave it. -/
theorem blank_mem (h : registers.map FoldedHistory.blank = (initial p).registers) (hmem : f ∈ registers) :
    f.blank ∈ (initial p).registers := by
  rw [← h]
  exact List.mem_map_of_mem hmem

theorem origLength_le (hp : Sized p) (h : registers.map FoldedHistory.blank = (initial p).registers)
    (hmem : f ∈ registers) : f.origLength ≤ p.maxHist.toNat := by
  have hlength : f.blank.origLength = f.origLength := rfl
  rw [← hlength]
  obtain ⟨i, hi, hf | hf | hf⟩ := mem_registers_initial (blank_mem h hmem) <;>
  · rw [hf]
    exact hp.lengths i hi

theorem updateFolded_eq (hp : Sized p) (hin : tHist.gHist < p.histBufferSize.toNat - p.maxHist.toNat)
    (hblank : tHist.registers.map FoldedHistory.blank = (initial p).registers) : tHist.updateFolded =
      .ok (tHist.mapFolded (FoldedHistory.push (window tHist.globalHistory tHist.gHist (p.maxHist.toNat + 1)))) := by
  have hupdate : ∀ f ∈ tHist.registers, f.update tHist.globalHistory tHist.gHist =
      .ok (f.push (window tHist.globalHistory tHist.gHist (p.maxHist.toNat + 1))) := by
    intro f hmem
    exact FoldedHistory.update_eq _ (origLength_le hp hblank hmem) (by omega)
  have hmap : ∀ table : Vector FoldedHistory p.nHistoryTables, (∀ f ∈ table, f ∈ tHist.registers) →
      table.mapM (FoldedHistory.update tHist.globalHistory tHist.gHist) =
        .ok (table.map (FoldedHistory.push (window tHist.globalHistory tHist.gHist (p.maxHist.toNat + 1)))) :=
    fun table hsub => mapM_of_forall fun f hmem => hupdate f (hsub f hmem)
  rw [updateFolded, bind_of_ok (hmap _ ?_), bind_of_ok (hmap _ ?_), bind_of_ok (hmap _ ?_)]
  · rfl
  all_goals
    intro f hmem
    simp [registers, hmem]

/-- Folded histories with the same constants get the values of others back. -/
theorem zipWith_comp {first second : List FoldedHistory}
    (h : first.map FoldedHistory.blank = second.map FoldedHistory.blank) :
    first.zipWith (fun f comp => { f with comp }) (second.map FoldedHistory.comp) = second := by
  induction first generalizing second with
  | nil =>
    cases second with
    | nil => rfl
    | cons f second => cases h
  | cons f first ih =>
    cases second with
    | nil => cases h
    | cons g second =>
      rw [List.map_cons, List.map_cons, List.cons.injEq] at h
      rw [List.map_cons, List.zipWith_cons_cons, ih h.2]
      obtain ⟨_, _, _, _⟩ := f
      obtain ⟨_, _, _, _⟩ := g
      simp only [FoldedHistory.blank, FoldedHistory.mk.injEq, true_and] at h
      obtain ⟨⟨rfl, rfl, rfl⟩, -⟩ := h
      rfl

theorem registers_restore (tHist : ThreadHistory p) (saved : SavedHistory p) :
    (tHist.restore saved).registers = tHist.registers.zipWith (fun f comp => { f with comp }) saved.comps := by
  rw [registers, registers, SavedHistory.comps, List.zipWith_append (by simp), List.zipWith_append (by simp)]
  simp only [restore, Vector.toList_zipWith]

theorem map_blank_restore (tHist : ThreadHistory p) (saved : SavedHistory p) :
    (tHist.restore saved).registers.map FoldedHistory.blank = tHist.registers.map FoldedHistory.blank := by
  have hlength : tHist.registers.length = saved.comps.length := by simp [registers, SavedHistory.comps]
  rw [registers_restore, List.map_zipWith]
  generalize tHist.registers = first at hlength
  generalize saved.comps = comps at hlength
  induction first generalizing comps with
  | nil => rfl
  | cons f first ih =>
    cases comps with
    | nil => cases hlength
    | cons comp comps =>
      rw [List.zipWith_cons_cons, List.map_cons, ih comps (Nat.succ.inj hlength)]
      rfl

theorem refold_eq (hp : Sized p) (hin : tHist.gHist < p.histBufferSize.toNat - p.maxHist.toNat)
    (hblank : tHist.registers.map FoldedHistory.blank = (initial p).registers) (saved : SavedHistory p) :
    tHist.refold saved = .ok ((tHist.restore saved).mapFolded
      (FoldedHistory.push (window tHist.globalHistory tHist.gHist (p.maxHist.toNat + 1)))) := by
  have hrestored := (map_blank_restore tHist saved).trans hblank
  have hfold : updateFolded (tHist.restore saved) = _ := updateFolded_eq hp hin hrestored
  exact hfold

end ThreadHistory

/-- `updateGHist` puts the outcome into the buffer. -/
theorem updateGHist_eq (hp : Sized p) (hpt : pt < p.histBufferSize.toNat - p.maxHist.toNat) (dir : Bool)
    (tab : Vector Bool p.histBufferSize.toNat) : updateGHist p pt dir tab pt =
      .ok (next (p.histBufferSize.toNat - p.maxHist.toNat) pt, push p.maxHist.toNat tab pt dir,
        next (p.histBufferSize.toNat - p.maxHist.toNat) pt) := by
  have hbuffer := hp.buffer
  have hsub : (p.histBufferSize - p.maxHist).toNat = p.histBufferSize.toNat - p.maxHist.toNat :=
    BitVec.toNat_sub_of_le (BitVec.le_def.mpr (by omega))
  have hlt := next_lt hpt
  -- The buffer before the outcome is written, rolled over if there is no room left.
  have hwrite : ∀ start, (∀ k < p.histBufferSize.toNat, start[k]? =
        if pt = 0 ∧ p.histBufferSize.toNat - p.maxHist.toNat ≤ k then
          tab[k - (p.histBufferSize.toNat - p.maxHist.toNat)]? else tab[k]?) →
      write start (next (p.histBufferSize.toNat - p.maxHist.toNat) pt) dir =
        .ok (push p.maxHist.toNat tab pt dir) := by
    intro start hstart
    rw [write_of_lt start (by omega)]
    congr 1
    apply Vector.ext
    intro k hk
    apply Option.some.inj
    rw [← Vector.getElem?_eq_getElem, ← Vector.getElem?_eq_getElem, getElem?_push _ _ _ _ hk,
      Vector.getElem?_set (by omega), hstart k hk]
    simp only [eq_comm]
  rw [updateGHist, hsub]
  by_cases hzero : pt = 0
  · subst hzero
    have hcopy : ∃ rolled, copy tab 0 (p.histBufferSize.toNat - p.maxHist.toNat) p.maxHist.toNat = .ok rolled ∧
        ∀ k, rolled[k]? = if p.histBufferSize.toNat - p.maxHist.toNat ≤ k ∧
          k < p.histBufferSize.toNat - p.maxHist.toNat + p.maxHist.toNat then
          tab[k - (p.histBufferSize.toNat - p.maxHist.toNat) + 0]? else tab[k]? :=
      copy_of_le tab (by omega) (by omega)
    obtain ⟨rolled, hcopy, hrolled⟩ := hcopy
    have hfirst := hwrite rolled ?_
    · rw [next, if_pos rfl] at hfirst ⊢
      rw [if_pos rfl, bind_of_ok hcopy]
      change (if _ then _ else _) = _
      rw [if_neg (by omega), bind_of_ok hfirst]
    · intro k hk
      rw [hrolled k]
      by_cases hle : p.histBufferSize.toNat - p.maxHist.toNat ≤ k
      · rw [if_pos (by omega), if_pos ⟨rfl, hle⟩, Nat.add_zero]
      · rw [if_neg (by omega), if_neg (by omega)]
  · have hfirst := hwrite tab ?_
    · rw [next, if_neg hzero] at hfirst ⊢
      rw [if_neg hzero]
      change (if _ then _ else _) = _
      rw [if_neg hzero, bind_of_ok hfirst]
    · intro k _
      rw [if_neg (by omega)]

namespace ThreadHistory

variable {tHist : ThreadHistory p}

theorem initial_placed (hp : Sized p) : (initial p).Placed := by
  refine ⟨rfl, ?_, ?_⟩
  · have hbuffer := hp.buffer
    change 0 < _
    omega
  · calc (initial p).registers.map FoldedHistory.blank = (initial p).registers.map id := by
          apply List.map_congr_left
          intro f hmem
          obtain ⟨i, -, rfl | rfl | rfl⟩ := mem_registers_initial hmem <;> rfl
      _ = (initial p).registers := List.map_id _

theorem Placed.map_push (h : registers.map FoldedHistory.blank = (initial p).registers) (outcomes : List Bool) :
    (registers.map (FoldedHistory.push outcomes)).map FoldedHistory.blank = (initial p).registers := by
  rw [List.map_map, ← h]
  rfl

/-- Recording a branch extends the history, and saves it as it was. -/
theorem updateHistories_spec (hp : Sized p) (h : tHist.Placed) (branch_pc : Addr) (taken : Bool) :
    ∃ saved after, tHist.updateHistories branch_pc taken = .ok (saved, after) ∧ after.Placed ∧
      after.history = tHist.history.push p.maxHist.toNat branch_pc taken ∧
      after.ptGhist = next (p.histBufferSize.toNat - p.maxHist.toNat) tHist.ptGhist ∧
      after.globalHistory = push p.maxHist.toNat tHist.globalHistory tHist.ptGhist taken ∧
      saved.Saves tHist.history branch_pc ∧ saved.ptGhist = after.ptGhist := by
  have hbuffer := hp.buffer
  have hpush := updateGHist_eq hp h.ptGhist_lt taken tHist.globalHistory
  have hwindow := window_push tHist.globalHistory taken hbuffer h.ptGhist_lt
  have hlt := next_lt h.ptGhist_lt
  have hfold : updateFolded { tHist with
      pathHist := pushPath tHist.pathHist branch_pc
      globalHistory := push p.maxHist.toNat tHist.globalHistory tHist.ptGhist taken
      gHist := next (p.histBufferSize.toNat - p.maxHist.toNat) tHist.ptGhist
      ptGhist := next (p.histBufferSize.toNat - p.maxHist.toNat) tHist.ptGhist } = _ :=
    updateFolded_eq hp hlt h.blank
  rw [updateHistories, h.gHist, bind_of_ok hpush]
  dsimp only
  rw [← pushPath, bind_of_ok hfold]
  refine ⟨_, _, rfl, ⟨rfl, hlt, ?_⟩, ?_, rfl, rfl, ⟨?_, rfl⟩, rfl⟩
  · rw [registers_mapFolded]
    exact Placed.map_push h.blank _
  · apply History.ext
    · rw [history, History.push, history, mapFolded]
      dsimp only
      rw [← hwindow, take_window _ _ (Nat.le_succ _)]
    · rfl
    · rw [history, registers_mapFolded, hwindow]
      rfl
  · simp only [SavedHistory.comps, history, registers, Vector.toList_map, List.map_append]

variable {saved : SavedHistory p}

/-- A correction moves back to the position of the branch and replaces its
outcome. -/
theorem squash_eq (hp : Sized p) (h : tHist.Placed)
    (hpt : saved.ptGhist < p.histBufferSize.toNat - p.maxHist.toNat) (taken : Bool) :
    ∃ after, tHist.squash taken saved = .ok after ∧ after.Placed ∧ after.ptGhist = saved.ptGhist ∧
      after.pathHist = saved.pathHist ∧ after.globalHistory = tHist.globalHistory.set saved.ptGhist taken (by omega) ∧
      after.registers = (tHist.registers.zipWith (fun f comp => { f with comp }) saved.comps).map
        (FoldedHistory.push (taken :: window tHist.globalHistory (saved.ptGhist + 1) p.maxHist.toNat)) := by
  have hlt : saved.ptGhist < p.histBufferSize.toNat := by omega
  have hwrite := write_of_lt tHist.globalHistory hlt taken
  have hwindow := window_set tHist.globalHistory taken hlt p.maxHist.toNat
  obtain ⟨moved, hmoved⟩ : ∃ moved : ThreadHistory p, moved = { tHist with
    pathHist := saved.pathHist, ptGhist := saved.ptGhist, gHist := saved.ptGhist,
    globalHistory := tHist.globalHistory.set saved.ptGhist taken hlt } := ⟨_, rfl⟩
  have hregisters : moved.registers = tHist.registers := by
    rw [hmoved]
    rfl
  have hblank : moved.registers.map FoldedHistory.blank = (initial p).registers := by
    rw [hregisters]
    exact h.blank
  have hin : moved.gHist < p.histBufferSize.toNat - p.maxHist.toNat := by
    rw [hmoved]
    exact hpt
  rw [squash, bind_of_ok hwrite, ← hmoved, refold_eq hp hin hblank]
  refine ⟨_, rfl, ?_⟩
  rw [registers_mapFolded, registers_restore, hregisters]
  subst hmoved
  refine ⟨⟨rfl, hpt, ?_⟩, rfl, rfl, rfl, ?_⟩
  · rw [registers_mapFolded]
    exact Placed.map_push ((map_blank_restore _ saved).trans hblank) _
  · rw [hwindow]

/-- Correcting a branch whose saved history is still in the buffer gives the
history before it, extended by its actual direction. -/
theorem squash_spec (hp : Sized p) (h : tHist.Placed) {before : History}
    (hblank : before.folded.map FoldedHistory.blank = (initial p).registers) (hsaves : saved.Saves before branch_pc)
    (hpt : saved.ptGhist < p.histBufferSize.toNat - p.maxHist.toNat)
    (hwindow : window tHist.globalHistory (saved.ptGhist + 1) p.maxHist.toNat = before.outcomes) (taken : Bool) :
    ∃ after, tHist.squash taken saved = .ok after ∧ after.Placed ∧
      after.history = before.push p.maxHist.toNat branch_pc taken ∧ after.ptGhist = saved.ptGhist ∧
      after.globalHistory = tHist.globalHistory.set saved.ptGhist taken (by omega) := by
  obtain ⟨after, hsquash, hplaced, hptGhist, hpath, hbuffer, hregisters⟩ := squash_eq hp h hpt taken
  refine ⟨after, hsquash, hplaced, ?_, hptGhist, hbuffer⟩
  apply History.ext
  · have hwindow' := window_set tHist.globalHistory taken (show saved.ptGhist < p.histBufferSize.toNat by omega)
      p.maxHist.toNat
    rw [history, History.push, hbuffer, hptGhist, ← hwindow]
    dsimp only
    rw [← hwindow', take_window _ _ (Nat.le_succ _)]
  · exact hpath.trans hsaves.pathHist
  · rw [history, hregisters, hsaves.comps, zipWith_comp (h.blank.trans hblank.symm), hwindow]
    rfl

/-- `btbUpdate` is the correction, as not taken, of a branch at the current
position. -/
theorem btbUpdate_eq (h : tHist.Placed) (saved : SavedHistory p) : tHist.btbUpdate saved =
      tHist.squash false { saved with ptGhist := tHist.ptGhist, pathHist := tHist.pathHist } := by
  have hgHist := h.gHist
  obtain ⟨pathHist, globalHistory, gHist, ptGhist, computeIndices, computeTags0, computeTags1⟩ := tHist
  dsimp only at hgHist
  subst hgHist
  rw [btbUpdate, bind_of_ok (require_of_true (beq_self_eq_true _))]
  rfl

theorem btbUpdate_total (hp : Sized p) (h : tHist.Placed) (saved : SavedHistory p) :
    ∃ after, tHist.btbUpdate saved = .ok after := by
  rw [btbUpdate_eq h]
  obtain ⟨moved, hmoved⟩ : ∃ moved : SavedHistory p,
    moved = { saved with ptGhist := tHist.ptGhist, pathHist := tHist.pathHist } := ⟨_, rfl⟩
  have hpt : moved.ptGhist < p.histBufferSize.toNat - p.maxHist.toNat := by
    rw [hmoved]
    exact h.ptGhist_lt
  obtain ⟨after, hsquash, -⟩ := squash_eq hp h hpt false
  exact ⟨after, hmoved ▸ hsquash⟩

/-- Right after a branch was recorded, `btbUpdate` corrects that branch. -/
theorem btbUpdate_eq_squash (h : tHist.Placed) (hpt : tHist.ptGhist = saved.ptGhist)
    (hpath : tHist.pathHist = saved.pathHist) : tHist.btbUpdate saved = tHist.squash false saved := by
  rw [btbUpdate_eq h, hpt, hpath]

end ThreadHistory

end Gem5.LTAGE
