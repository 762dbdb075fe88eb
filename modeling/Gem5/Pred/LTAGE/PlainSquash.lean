import Gem5.Pred.BPredUnit.Refinement
import Gem5.Pred.BPredUnit.Sequence
import Gem5.Pred.LTAGE.Folding

open Lib Result Lib.RollingBuffer Lib.FoldedHistory Lib.ShiftRegister List Function

namespace Gem5.LTAGE

open BPredUnit (Fetched PredictorHistory predictAll tellsMiss)

variable {q : Params}

/-- What a branch leaves in the path history. -/
def pathBit (branch_pc : Addr) : Bool := (branch_pc &&& 1) != 0

/-- The bits of the path history, newest first. -/
def pathBits (pathHist : BitVec 32) : List Bool := (range 16).map pathHist.getLsbD

theorem pushPath_eq_shiftIn (pathHist : BitVec 32) (branch_pc : Addr) :
    pushPath pathHist branch_pc = shiftIn (mask32 16) pathHist (pathBit branch_pc) := by
  have hdisjoint : pathHist <<< 1 &&& word (pathBit branch_pc) = 0 := by
    apply BitVec.eq_of_getLsbD_eq
    intro i _
    cases i with
    | zero => simp
    | succ i => cases pathBit branch_pc <;> simp [word]
  have hadd := BitVec.add_eq_or_of_and_eq_zero _ _ hdisjoint
  rw [pushPath, ← pathBit, hadd]
  rfl

theorem getLsbD_pushPath (pathHist : BitVec 32) (branch_pc : Addr) (i : Nat) : (pushPath pathHist branch_pc).getLsbD i =
      (decide (i < 16) && if i = 0 then pathBit branch_pc else pathHist.getLsbD (i - 1)) := by
  have hmask : IsLowMask (mask32 16) 16 := mask32_isLowMask (by decide)
  rw [pushPath_eq_shiftIn, getLsbD_shiftIn, hmask i]
  congr 1
  simp only [decide_eq_decide]
  omega

theorem fits_pushPath (pathHist : BitVec 32) (branch_pc : Addr) : Fits 16 (pushPath pathHist branch_pc) := by
  intro i hi
  rw [getLsbD_pushPath, decide_eq_false (Nat.not_lt.mpr hi), Bool.false_and]

theorem pathBits_pushPath (pathHist : BitVec 32) (branch_pc : Addr) :
    pathBits (pushPath pathHist branch_pc) = (pathBit branch_pc :: pathBits pathHist).take 16 := by
  apply ext_getElem?
  intro i
  by_cases hi : i < 16
  · rw [getElem?_take_of_lt hi, pathBits, getElem?_map, getElem?_range hi, Option.map_some,
      getLsbD_pushPath, decide_eq_true hi, Bool.true_and]
    cases i with
    | zero => rfl
    | succ i =>
      rw [getElem?_cons_succ, pathBits, getElem?_map, getElem?_range (by omega)]
      rfl
  · rw [getElem?_eq_none (by simp [pathBits]; omega), getElem?_eq_none (by simp; omega)]

theorem pathBits_inj (h₁ : Fits 16 first) (h₂ : Fits 16 second) :
    pathBits first = pathBits second ↔ first = second := by
  constructor
  · intro h
    apply BitVec.eq_of_getLsbD_eq
    intro i _
    by_cases hi : i < 16
    · exact map_inj_left.mp h i (mem_range.mpr hi)
    · rw [h₁ i (Nat.le_of_not_lt hi), h₂ i (Nat.le_of_not_lt hi)]
  · exact congrArg pathBits

/-- What holds of the history of a thread in every state: it has as many outcomes
as the configuration keeps, and no register exceeds its width. -/
structure Settled (q : Params) (history : History) : Prop where
  outcomes : history.outcomes.length = q.maxHist.toNat
  pathHist : Fits 16 history.pathHist
  blank : history.folded.map FoldedHistory.blank = (ThreadHistory.initial q).registers
  comps : ∀ f ∈ history.folded, Fits f.compLength.toNat f.comp

theorem Foldable.fits_push (hq : Foldable q) {registers : List FoldedHistory}
    (h : registers.map FoldedHistory.blank = (ThreadHistory.initial q).registers) (outcomes : List Bool) :
    ∀ f ∈ registers.map (FoldedHistory.push outcomes), Fits f.compLength.toNat f.comp := by
  intro f hmem
  obtain ⟨old, hold, rfl⟩ := mem_map.mp hmem
  have hshaped := hq.shaped h hold
  rw [FoldedHistory.push, hshaped.comp_shift]
  exact fits_foldStep (mask32_isLowMask (Nat.le_of_lt hshaped.lt)) _ _ _ _

theorem Settled.push (hq : Foldable q) {history : History} (h : Settled q history) (branch_pc : Addr) (taken : Bool) :
    Settled q (history.push q.maxHist.toNat branch_pc taken) := by
  refine ⟨?_, fits_pushPath _ branch_pc, ThreadHistory.Placed.map_push h.blank _, hq.fits_push h.blank _⟩
  rw [History.push, length_take, length_cons, h.outcomes]
  omega

namespace ThreadHistory

variable {tHist after : ThreadHistory q}

theorem Placed.length_outcomes (h : tHist.Placed) : tHist.history.outcomes.length = q.maxHist.toNat := by
  have hlt := h.ptGhist_lt
  exact length_window _ (by omega)

theorem initial_settled (hq : Foldable q) : Settled q (initial q).history := by
  have hplaced := initial_placed hq.toSized
  refine ⟨hplaced.length_outcomes, fits_zero 16, hplaced.blank, ?_⟩
  intro f hmem
  obtain ⟨i, -, rfl | rfl | rfl⟩ := mem_registers_initial hmem <;> exact fits_zero _

/-- A correction settles the history, whatever the folded histories were before. -/
theorem squash_settled (hq : Foldable q) (h : tHist.Placed) {saved : SavedHistory q}
    (hpt : saved.ptGhist < q.histBufferSize.toNat - q.maxHist.toNat) (hpath : Fits 16 saved.pathHist)
    (hsquash : tHist.squash taken saved = .ok after) : after.Placed ∧ Settled q after.history := by
  obtain ⟨after', hsquash', hplaced, -, hpathHist, -, hregisters⟩ := squash_eq hq.toSized h hpt taken
  rw [hsquash] at hsquash'
  cases hsquash'
  refine ⟨hplaced, hplaced.length_outcomes, ?_, hplaced.blank, ?_⟩
  · rw [history, hpathHist]
    exact hpath
  · have hblank := hplaced.blank
    rw [history, hregisters]
    rw [hregisters, map_map] at hblank
    exact hq.fits_push hblank _

end ThreadHistory

/-- All histories are settled. -/
def State.Settled (s : State q) : Prop :=
  ∀ tid, (s.threadHistory tid).Placed ∧ LTAGE.Settled q (s.threadHistory tid).history

/-- A history object points into the buffer. -/
def BranchInfo.Settled (bi : BranchInfo q) : Prop :=
  bi.saved.ptGhist < q.histBufferSize.toNat - q.maxHist.toNat ∧ Fits 16 bi.saved.pathHist

theorem State.Settled.set {s s' : State q} (h : s.Settled) {tHist : ThreadHistory q}
    (hs : s'.threadHistory = Function.update s.threadHistory tid tHist)
    (htHist : tHist.Placed ∧ LTAGE.Settled q tHist.history) : s'.Settled := by
  intro other
  rw [hs]
  by_cases hother : other = tid
  · rw [hother, update_self]
    exact htHist
  · rw [update_of_ne hother]
    exact h other

theorem State.Settled.congr {s s' : State q} (h : s.Settled) (hs : s'.threadHistory = s.threadHistory) :
    s'.Settled := by
  intro tid
  rw [hs]
  exact h tid

theorem State.Settled.record (hq : Foldable q) {s s' : State q} (h : s.Settled) {bi : BranchInfo q}
    (hupdate : (s.threadHistory tid).updateHistories branch_pc taken = .ok (bi.saved, tHist))
    (hs : s'.threadHistory = Function.update s.threadHistory tid tHist) : s'.Settled ∧ bi.Settled := by
  obtain ⟨hplaced, hsettled⟩ := h tid
  obtain ⟨saved, after, hspec, hafter, hhistory, -, -, hsaves, hposition⟩ :=
    ThreadHistory.updateHistories_spec hq.toSized hplaced branch_pc taken
  rw [hupdate] at hspec
  cases hspec
  refine ⟨h.set hs ⟨hafter, hhistory ▸ hsettled.push hq branch_pc taken⟩, ?_, ?_⟩
  · rw [hposition]
    exact hafter.ptGhist_lt
  · rw [hsaves.pathHist]
    exact fits_pushPath _ branch_pc

theorem preserves_settled (hq : Foldable q) : (predictor q).Preserves State.Settled BranchInfo.Settled where
  lookup h hcall := by
    obtain ⟨tHist, hupdate, hs⟩ := lookup_threadHistory hcall
    exact h.record hq hupdate hs
  uncondBranch h hcall := by
    obtain ⟨tHist, hupdate, hs⟩ := uncondBranch_threadHistory hcall
    exact h.record hq hupdate hs
  btbUpdate {s tid pc bi s'} h hbi hcall := by
    obtain ⟨tHist, hupdate, hs⟩ := btbUpdate_threadHistory hcall
    obtain ⟨hplaced, hsettled⟩ := h tid
    rw [ThreadHistory.btbUpdate_eq hplaced] at hupdate
    exact h.set hs (ThreadHistory.squash_settled hq hplaced hplaced.ptGhist_lt hsettled.pathHist hupdate)
  update {s tid pc taken bi squashed s'} h hbi hcall := by
    cases squashed with
    | true =>
      obtain ⟨tHist, hsquash, hs⟩ := update_squashed_threadHistory hcall
      exact h.set hs (ThreadHistory.squash_settled hq (h tid).1 hbi.1 hbi.2 hsquash)
    | false =>
      have hcommit : LTAGE.update q s tid taken bi false = .ok s' := hcall
      exact h.congr (update_committed_threadHistory hcommit)
  squash h hbi hcall := h.congr (restoreIter_threadHistory hcall)

/-- The history after the recorded branches, of which the first is the newest. -/
def History.pushAll (keep : Nat) (recorded : List (Addr × Bool)) (history : History) : History :=
  recorded.foldr (fun branch history => history.push keep branch.1 branch.2) history

/-- The history repeats the recorded branches, newest first, and turning a register
as often does not change what it differs by from the fold of the outcomes. -/
structure History.Repeats (history : History) (recorded : List (Addr × Bool)) : Prop where
  outcomes : ∀ j < history.outcomes.length, history.outcomes[j]? = (recorded.map Prod.snd)[j % recorded.length]?
  pathHist : ∀ j < 16, (pathBits history.pathHist)[j]? =
    (recorded.map fun branch => pathBit branch.1)[j % recorded.length]?
  folded : ∀ f ∈ history.folded, (rotate (mask32 f.compLength.toNat) f.compLength.toNat)^[recorded.length]
    (difference history.outcomes f) = difference history.outcomes f

instance (history : History) (recorded : List (Addr × Bool)) : Decidable (history.Repeats recorded) :=
  decidable_of_iff (_ ∧ _ ∧ _) ⟨fun ⟨houtcomes, hpath, hfolded⟩ => ⟨houtcomes, hpath, hfolded⟩,
    fun ⟨houtcomes, hpath, hfolded⟩ => ⟨houtcomes, hpath, hfolded⟩⟩

section

variable {history : History} (hq : Foldable q) (h : Settled q history) (recorded : List (Addr × Bool))

include hq h

theorem Settled.pushAll : Settled q (history.pushAll q.maxHist.toNat recorded) := by
  induction recorded with
  | nil => exact h
  | cons branch older ih => exact ih.push hq branch.1 branch.2

omit hq in
theorem outcomes_pushAll : (history.pushAll q.maxHist.toNat recorded).outcomes =
    (recorded.map Prod.snd ++ history.outcomes).take q.maxHist.toNat := by
  induction recorded with
  | nil => exact (take_of_length_le (Nat.le_of_eq h.outcomes)).symm
  | cons branch older ih =>
    change (branch.2 :: (history.pushAll q.maxHist.toNat older).outcomes).take _ = _
    rw [ih, map_cons, cons_append]
    cases q.maxHist.toNat with
    | zero => rfl
    | succ keep => rw [take_succ_cons, take_succ_cons, take_take, Nat.min_eq_left (Nat.le_succ keep)]

omit hq h in
theorem pathBits_pushAll (keep : Nat) : pathBits (history.pushAll keep recorded).pathHist =
    ((recorded.map fun branch => pathBit branch.1) ++ pathBits history.pathHist).take 16 := by
  induction recorded with
  | nil => exact (take_of_length_le (by simp [pathBits])).symm
  | cons branch older ih =>
    change pathBits (pushPath (history.pushAll keep older).pathHist branch.1) = _
    rw [pathBits_pushPath, ih, map_cons, cons_append, take_succ_cons, take_succ_cons,
      take_take, Nat.min_eq_left (by decide)]

/-- Each folded history keeps its constants and turns its difference. -/
theorem folded_pushAll : ∃ g : FoldedHistory → FoldedHistory,
    (history.pushAll q.maxHist.toNat recorded).folded = history.folded.map g ∧
    ∀ f ∈ history.folded, (g f).blank = f.blank ∧ difference (history.pushAll q.maxHist.toNat recorded).outcomes (g f) =
        (rotate (mask32 f.compLength.toNat) f.compLength.toNat)^[recorded.length] (difference history.outcomes f) := by
  induction recorded with
  | nil => exact ⟨id, (map_id _).symm, fun f _ => ⟨rfl, rfl⟩⟩
  | cons branch older ih =>
    obtain ⟨g, hfolded, hg⟩ := ih
    have hsettled := h.pushAll hq older
    refine ⟨fun f => (g f).push (branch.2 :: (history.pushAll q.maxHist.toNat older).outcomes), ?_, ?_⟩
    · change (history.pushAll q.maxHist.toNat older).folded.map _ = _
      rw [hfolded, map_map]
      rfl
    · intro f hmem
      obtain ⟨hblank, hdifference⟩ := hg f hmem
      have hpushed : g f ∈ (history.pushAll q.maxHist.toNat older).folded := by
        rw [hfolded]
        exact mem_map_of_mem hmem
      have hlength : (g f).blank.compLength = f.blank.compLength := congrArg FoldedHistory.compLength hblank
      change (g f).compLength = f.compLength at hlength
      refine ⟨hblank, ?_⟩
      rw [length_cons, iterate_succ_apply', ← hdifference, ← hlength]
      exact difference_push (hq.shaped hsettled.blank hpushed) (hsettled.comps _ hpushed)
        (ThreadHistory.origLength_le hq.toSized hsettled.blank hpushed) branch.2

omit hq h in
/-- Folded histories with the same constants are equal when they differ by as much
from the fold of the same outcomes. -/
theorem difference_eq_iff (hblank : g.blank = f.blank) (outcomes : List Bool) :
    difference outcomes g = difference outcomes f ↔ g = f := by
  obtain ⟨comp, compLength, origLength, outpoint⟩ := f
  obtain ⟨comp', _, _, _⟩ := g
  simp only [FoldedHistory.blank, FoldedHistory.mk.injEq, true_and] at hblank
  obtain ⟨rfl, rfl, rfl⟩ := hblank
  simp only [difference, FoldedHistory.mk.injEq, and_true]
  exact BitVec.xor_left_inj _

/-- Recording branches leaves the history as it was exactly when the history repeats
them. -/
theorem pushAll_eq_self_iff (hrecorded : recorded ≠ []) :
    history.pushAll q.maxHist.toNat recorded = history ↔ history.Repeats recorded := by
  have hsettled := h.pushAll hq recorded
  have houtcomes : (history.pushAll q.maxHist.toNat recorded).outcomes = history.outcomes ↔
      ∀ j < history.outcomes.length, history.outcomes[j]? = (recorded.map Prod.snd)[j % recorded.length]? := by
    have hnil : recorded.map Prod.snd ≠ [] := map_eq_nil_iff.not.mpr hrecorded
    rw [outcomes_pushAll h recorded, ← h.outcomes, take_append_eq_iff hnil, length_map]
  have hpath : (history.pushAll q.maxHist.toNat recorded).pathHist = history.pathHist ↔
      ∀ j < 16, (pathBits history.pathHist)[j]? =
        (recorded.map fun branch => pathBit branch.1)[j % recorded.length]? := by
    have hnil : (recorded.map fun branch => pathBit branch.1) ≠ [] := map_eq_nil_iff.not.mpr hrecorded
    have hlength : (pathBits history.pathHist).length = 16 := by simp [pathBits]
    have hrepeats : (_ ++ pathBits history.pathHist).take (pathBits history.pathHist).length = _ ↔ _ :=
      take_append_eq_iff hnil
    rw [hlength, length_map] at hrepeats
    rw [← pathBits_inj hsettled.pathHist h.pathHist, pathBits_pushAll, hrepeats]
  have hfolded : (history.pushAll q.maxHist.toNat recorded).outcomes = history.outcomes →
      ((history.pushAll q.maxHist.toNat recorded).folded = history.folded ↔
        ∀ f ∈ history.folded, (rotate (mask32 f.compLength.toNat) f.compLength.toNat)^[recorded.length]
          (difference history.outcomes f) = difference history.outcomes f) := by
    intro hsame
    obtain ⟨g, hg, hturned⟩ := folded_pushAll hq h recorded
    rw [hsame] at hturned
    calc (history.pushAll q.maxHist.toNat recorded).folded = history.folded
        ↔ history.folded.map g = history.folded.map id := by rw [hg, map_id]
      _ ↔ ∀ f ∈ history.folded, g f = f := map_inj_left
      _ ↔ _ := by
        apply forall₂_congr
        intro f hmem
        obtain ⟨hblank, hdifference⟩ := hturned f hmem
        rw [← hdifference, difference_eq_iff hblank]
  rw [History.ext_iff]
  constructor
  · rintro ⟨hsame, hpathHist, hregisters⟩
    exact ⟨houtcomes.mp hsame, hpath.mp hpathHist, (hfolded hsame).mp hregisters⟩
  · rintro ⟨hrepeats, hpathHist, hregisters⟩
    have hsame := houtcomes.mpr hrepeats
    exact ⟨hsame, hpath.mpr hpathHist, (hfolded hsame).mpr hregisters⟩

end

variable {PC Inst : Type} {p : BPredUnit.Params}

section

variable (isa : ISA PC Inst) (tid : ThreadID)

/-- What predicting a branch records: its direction, or not taken if the BTB misses
and the predictor is told. -/
def recordedBranch (u : BPredUnit.State p (State q) (BranchInfo q) PC) (b : Fetched PC Inst) :
    Result (Addr × Bool) := do
  let (taken, _, _) ← BPredUnit.direction (predictor q) isa u b.inst b.pc tid
  let told ← tellsMiss isa u b.inst b.pc tid taken
  .ok (isa.instAddr b.pc, taken && !told)

/-- What predicting the branches one after the other records, newest first. -/
def recordedBranches :
    BPredUnit.State p (State q) (BranchInfo q) PC → List (Fetched PC Inst) → Result (List (Addr × Bool))
  | _, [] => .ok []
  | u, b :: later => do
    let oldest ← recordedBranch isa tid u b
    let (_, _, u) ← BPredUnit.predict (predictor q) isa u b.inst b.seqNum b.pc tid
    let younger ← recordedBranches u later
    .ok (younger ++ [oldest])

end

section

variable {isa : ISA PC Inst} {tid : ThreadID} {u v : BPredUnit.State p (State q) (BranchInfo q) PC}

theorem direction_threadHistory {b : Fetched PC Inst} {bi : BranchInfo q} {s : State q}
    (h : BPredUnit.direction (predictor q) isa u b.inst b.pc tid = .ok (taken, bi, s)) :
    ∃ tHist, (u.predictor.threadHistory tid).updateHistories (isa.instAddr b.pc) taken = .ok (bi.saved, tHist) ∧
      s.threadHistory = Function.update u.predictor.threadHistory tid tHist := by
  rcases BPredUnit.direction_eq_ok_iff.mp h with ⟨-, rfl, huncond⟩ | ⟨-, hlookup⟩
  · exact uncondBranch_threadHistory huncond
  · exact lookup_threadHistory hlookup

/-- Predicting a branch extends the history by what it records. -/
theorem effect_history (hq : Sized q) (h : (u.predictor.threadHistory tid).Placed)
    (heffect : BPredUnit.Effect (predictor q) isa u b.inst b.seqNum b.pc tid record s v) :
    ∃ branch, recordedBranch isa tid u b = .ok branch ∧ (v.predictor.threadHistory tid).Placed ∧
      (v.predictor.threadHistory tid).history =
        (u.predictor.threadHistory tid).history.push q.maxHist.toNat branch.1 branch.2 := by
  obtain ⟨told, htells, htold⟩ := heffect.told
  obtain ⟨tHist, hupdate, hs⟩ := direction_threadHistory heffect.direction
  have hrecorded : recordedBranch isa tid u b = .ok (isa.instAddr b.pc, record.predTaken && !told) := by
    rw [recordedBranch, bind_of_ok heffect.direction]
    exact bind_of_ok htells _
  -- The branch alone in flight, as it was predicted.
  obtain ⟨branch, hbranch⟩ : ∃ branch : InFlight.Branch (State q) (BranchInfo q), branch =
    ⟨isa.instAddr b.pc, true, u.predictor, record.bpHistory, record.predTaken⟩ := ⟨_, rfl⟩
  have hpc : branch.pc = isa.instAddr b.pc := by rw [hbranch]
  have hstart : Tracked tid (InFlight.start u.predictor) [] := ⟨h, .nil, .nil⟩
  obtain ⟨hplaced, hkept, hhistory⟩ := hstart.record hq hs (hpc ▸ hupdate) (by rw [hbranch]; rfl) (by rw [hbranch])
    (fun age hmem => absurd hmem not_mem_nil)
  refine ⟨_, hrecorded, ?_⟩
  cases told with
  | false =>
    cases htold
    rw [Bool.not_false, Bool.and_true, ← hpc]
    exact ⟨hplaced, hhistory⟩
  | true =>
    have hone : Tracked tid (⟨s, [branch], []⟩ : Thread q) [0] := ⟨hplaced, hkept, pairwise_singleton _ _⟩
    obtain ⟨tHist', hbtb, hv⟩ := btbUpdate_threadHistory htold
    have hsaved : record.bpHistory.saved = branch.history.saved := by rw [hbranch]
    rw [hsaved, hone.btbUpdate_eq_squash rfl rfl] at hbtb
    obtain ⟨hplaced', -, hhistory'⟩ := hone.correct hq hv rfl hbtb
    rw [Bool.not_true, Bool.and_false, ← hpc]
    refine ⟨hplaced', hhistory'.trans ?_⟩
    rw [hbranch]

/-- Predicting branches extends the history by what they record. -/
theorem predictAll_history (hq : Sized q) (h : (u.predictor.threadHistory tid).Placed)
    (hpredict : predictAll (predictor q) isa tid u branches = .ok v) :
    ∃ recorded, recordedBranches isa tid u branches = .ok recorded ∧ recorded.length = branches.length ∧
      (v.predictor.threadHistory tid).history =
        (u.predictor.threadHistory tid).history.pushAll q.maxHist.toNat recorded := by
  induction branches generalizing u with
  | nil =>
    cases hpredict
    exact ⟨[], rfl, rfl, rfl⟩
  | cons b later ih =>
    obtain ⟨⟨taken, target, u₁⟩, hfirst, hlater⟩ := bind_ok hpredict
    obtain ⟨record, s, -, heffect, -⟩ := BPredUnit.predict_effect hfirst
    obtain ⟨oldest, holdest, hplaced, hhistory⟩ := effect_history hq h heffect
    obtain ⟨younger, hyounger, hlength, hrest⟩ := ih hplaced hlater
    refine ⟨younger ++ [oldest], ?_, ?_, ?_⟩
    · rw [recordedBranches, bind_of_ok holdest, bind_of_ok hfirst]
      exact bind_of_ok hyounger _
    · rw [length_append, length_singleton, hlength, length_cons]
    · rw [hrest, hhistory, History.pushAll, History.pushAll, foldr_append]
      rfl

/-- A plain squash does not touch the histories. -/
theorem squash_threadHistory (h : BPredUnit.squash (predictor q) u sn tid = .ok v) :
    v.predictor.threadHistory = u.predictor.threadHistory := by
  obtain ⟨ras, s, -, hloop, rfl⟩ := BPredUnit.squash_effect h
  refine foldlM_induction (I := fun _ s => s.threadHistory = u.predictor.threadHistory) ?_ rfl hloop
  intro record later s s' hsame hfirst
  exact (restoreIter_threadHistory hfirst).trans hsame

/-- Every state that the unit gets into is settled. -/
theorem reaches_settled (hq : Foldable q) {random_mt : Nat → BitVec 32}
    (hreach : (BPredUnit.machine (predictor q) isa p tid).Reaches
      (.initial isa p (State.initial q random_mt)) u) : u.predictor.Settled := by
  have hinitial : (State.initial q random_mt).Settled :=
    fun _ => ⟨ThreadHistory.initial_placed hq.toSized, ThreadHistory.initial_settled hq⟩
  obtain ⟨m, hm, habstracts⟩ := BPredUnit.reaches_inFlight hreach
  rw [← habstracts.predictor]
  exact (InFlight.reaches_holds (preserves_settled hq) hinitial hm).1

end

/-- A plain squash after a sequence of predictions leaves the history as it was
before them exactly when the sequence is empty or the history repeats what the
sequence recorded. -/
theorem squash_restores_history_iff (q : Params) (hq : Foldable q) (random_mt : Nat → BitVec 32) (s : State q)
    (hs : construct q random_mt = .ok s) (isa : ISA PC Inst) (p : BPredUnit.Params) (tid : ThreadID)
    (start u v w : BPredUnit.State p (State q) (BranchInfo q) PC) (hstart : BPredUnit.construct isa p s = .ok start)
    (hreach : (BPredUnit.machine (predictor q) isa p tid).Reaches start u) (branches : List (Fetched PC Inst))
    (hpredict : predictAll (predictor q) isa tid u branches = .ok v) (sn : InstSeqNum)
    (hsquash : BPredUnit.squash (predictor q) v sn tid = .ok w) :
    (w.predictor.threadHistory tid).history = (u.predictor.threadHistory tid).history ↔
      branches = [] ∨ ∃ recorded, recordedBranches isa tid u branches = .ok recorded ∧
        (u.predictor.threadHistory tid).history.Repeats recorded := by
  obtain rfl := construct_spec hs
  obtain ⟨-, -, rfl⟩ := BPredUnit.construct_eq_ok_iff.mp hstart
  obtain ⟨hplaced, hsettled⟩ := reaches_settled hq hreach tid
  obtain ⟨recorded, hrecorded, hlength, hhistory⟩ := predictAll_history hq.toSized hplaced hpredict
  rw [squash_threadHistory hsquash, hhistory]
  cases branches with
  | nil =>
    obtain rfl := eq_nil_of_length_eq_zero hlength
    exact iff_of_true rfl (.inl rfl)
  | cons b later =>
    have hne : recorded ≠ [] := ne_nil_of_length_eq_add_one hlength
    rw [pushAll_eq_self_iff hq hsettled recorded hne]
    constructor
    · intro hrepeats
      exact .inr ⟨recorded, hrecorded, hrepeats⟩
    · rintro (hnil | ⟨recorded', hrecorded', hrepeats⟩)
      · cases hnil
      · rw [hrecorded] at hrecorded'
        cases hrecorded'
        exact hrepeats

/-- The unit with the small predictor before its first branch. -/
def smallUnit : BPredUnit.State BPredUnit.smallParams (State smallParams) (BranchInfo smallParams) SimplePCState :=
  .initial alpha BPredUnit.smallParams (.initial smallParams fun _ => 0)

/-- Two calls that are squashed together. -/
def twoCalls : List (Fetched SimplePCState StaticInst) :=
  [⟨BPredUnit.directCall, 2, .set 0⟩, ⟨BPredUnit.directCall, 3, .set 0⟩]

/-- The calls are predicted on the history that a first call has left. -/
theorem squash_restores_history_of_calls : ∃ answers u v w,
      (BPredUnit.machine (predictor smallParams) alpha BPredUnit.smallParams 0).run smallUnit
        [.predict BPredUnit.directCall 1 (.set 0)] = .ok (answers, u) ∧
      (u.predictor.threadHistory 0).history.outcomes = [true] ∧
      predictAll (predictor smallParams) alpha 0 u twoCalls = .ok v ∧
      BPredUnit.squash (predictor smallParams) v 1 0 = .ok w ∧
      (w.predictor.threadHistory 0).history = (u.predictor.threadHistory 0).history := by
  have hrun : ((BPredUnit.machine (predictor smallParams) alpha BPredUnit.smallParams 0).run smallUnit
        [.predict BPredUnit.directCall 1 (.set 0)]).bind (fun (_, u) => do
      let v ← predictAll (predictor smallParams) alpha 0 u twoCalls
      let _ ← BPredUnit.squash (predictor smallParams) v 1 0
      let recorded ← recordedBranches alpha 0 u twoCalls
      let history := (u.predictor.threadHistory 0).history
      .ok (history.outcomes, decide (history.Repeats recorded))) = .ok ([true], true) := by decide +kernel
  obtain ⟨⟨answers, u⟩, hrun, hrest⟩ := bind_ok hrun
  obtain ⟨v, w, recorded, hpredict, hsquash, hrecorded, hlast⟩ := bind_ok₃ hrest
  obtain ⟨houtcomes, hrepeats⟩ := Prod.mk.inj (Except.ok.inj hlast)
  refine ⟨answers, u, v, w, hrun, houtcomes, hpredict, hsquash, ?_⟩
  exact (squash_restores_history_iff smallParams ⟨⟨by decide, by decide⟩, by decide, by decide⟩ (fun _ => 0) _ rfl alpha
    BPredUnit.smallParams 0 smallUnit u v w rfl (.run .start hrun) twoCalls hpredict 1 hsquash).mpr
      (.inr ⟨recorded, hrecorded, of_decide_eq_true hrepeats⟩)

/-- A call is predicted and squashed. It leaves its outcome in the history. -/
theorem squashed_call_stays_in_history :
    ∃ v w, predictAll (predictor smallParams) alpha 0 smallUnit [⟨BPredUnit.directCall, 1, .set 4⟩] = .ok v ∧
      BPredUnit.squash (predictor smallParams) v 0 0 = .ok w ∧ w.predHist 0 = smallUnit.predHist 0 ∧
      (smallUnit.predictor.threadHistory 0).history.outcomes = [false] ∧
      (w.predictor.threadHistory 0).history.outcomes = [true] := by
  have hrun : ((predictAll (predictor smallParams) alpha 0 smallUnit [⟨BPredUnit.directCall, 1, .set 4⟩]).bind
      fun v => (BPredUnit.squash (predictor smallParams) v 0 0).map fun w =>
        ((w.predHist 0).length, (w.predictor.threadHistory 0).history.outcomes)) = .ok (0, [true]) := by decide +kernel
  obtain ⟨v, hpredict, hrest⟩ := bind_ok hrun
  obtain ⟨w, hsquash, hw⟩ := map_ok hrest
  obtain ⟨hqueue, houtcomes⟩ := Prod.mk.inj hw
  exact ⟨v, w, hpredict, hsquash, eq_nil_of_length_eq_zero hqueue, rfl, houtcomes⟩

end Gem5.LTAGE
