import Gem5.Pred.LTAGE.Correction

open Lib Result Lib.RollingBuffer Lib.FoldedHistory Lib.ShiftRegister List
open Gem5.InFlight (Event)

namespace Gem5.LTAGE

variable {p : Params}

/-- The configurations whose compressed lengths are positive and smaller than the
width of the word that is shifted by them. -/
structure Foldable (p : Params) : Prop extends Sized p where
  tables : ∀ i < p.nHistoryTables, 1 ≤ p.tagTableSizes (i + 1) ∧ p.tagTableSizes (i + 1) ≤ 31
  tags : ∀ i < p.nHistoryTables, 1 ≤ p.tagWidths (i + 1) - 1 ∧ p.tagWidths (i + 1) ≤ 31

/-- The constants of a folded history fit together. -/
structure FoldedHistory.Shaped (f : FoldedHistory) (width : Nat) : Prop where
  compLength : f.compLength = width
  outpoint : f.outpoint = (f.origLength % width : Nat)
  pos : 0 < width
  lt : width < 32

theorem toNat_emod_natCast {w count : Nat} (h : count < w) : ((count : Int) % (w : Int)).toNat = count := by
  rw [Int.emod_eq_of_lt (Int.natCast_nonneg count) (Int.ofNat_lt.mpr h), Int.toNat_natCast]

theorem shlInt_natCast {w : Nat} (value : BitVec w) {count : Nat} (h : count < w) :
    shlInt value count = value <<< count := by
  rw [shlInt, toNat_emod_natCast h, shl, Nat.mod_eq_of_lt h]

theorem shrInt_natCast {w : Nat} (value : BitVec w) {count : Nat} (h : count < w) :
    shrInt value count = value >>> count := by
  rw [shrInt, toNat_emod_natCast h, shr, Nat.mod_eq_of_lt h]

namespace FoldedHistory

variable {f : FoldedHistory} {width : Nat}

/-- The update is a step of a register that is folded into its compressed
length. -/
theorem Shaped.comp_shift (h : f.Shaped width) (newest leaving : Bool) : (f.shift newest leaving).comp =
      foldStep (mask32 width) width (f.origLength % width) f.comp newest leaving := by
  have hmask : (shlInt (1 : BitVec 64) width - 1).setWidth 32 = mask32 width := by
    have hlt := h.lt
    rw [shlInt_natCast _ (by omega), mask32, mask, if_neg (by omega), shl, Nat.mod_eq_of_lt (by omega)]
  have hlt := Nat.mod_lt f.origLength h.pos
  have hword : (word newest : Unsigned) = bit newest 0 := by simp [word, bit]
  rw [FoldedHistory.shift, foldStep, h.compLength, h.outpoint, hmask, shrInt_natCast _ h.lt,
    shlInt_natCast _ (Nat.lt_trans hlt h.lt), hword]
  rfl

theorem Shaped.init (hpos : 1 ≤ compressed_length) (hlt : compressed_length ≤ 31)
    (hf : f.blank = init original_length compressed_length) : f.Shaped compressed_length.toNat := by
  have hlength : (compressed_length.toNat : Int) = compressed_length := Int.toNat_of_nonneg (by omega)
  have hcomp : f.compLength = compressed_length := congrArg FoldedHistory.compLength hf
  have horig : f.origLength = original_length := congrArg FoldedHistory.origLength hf
  have hout : f.outpoint = (original_length : Int).tmod compressed_length := congrArg FoldedHistory.outpoint hf
  refine ⟨?_, ?_, by omega, by omega⟩
  · rw [hcomp, hlength]
  · rw [hout, horig, Int.tmod_eq_emod_of_nonneg (Int.natCast_nonneg _), Int.natCast_mod, hlength]

end FoldedHistory

variable {f : FoldedHistory}

/-- Every folded history is shaped, in a configuration that can be folded. -/
theorem Foldable.shaped (hp : Foldable p) {registers : List FoldedHistory}
    (h : registers.map FoldedHistory.blank = (ThreadHistory.initial p).registers) (hmem : f ∈ registers) :
    f.Shaped f.compLength.toNat := by
  have hshaped : ∀ {original_length : Nat} {compressed_length : Int}, 1 ≤ compressed_length → compressed_length ≤ 31 →
      f.blank = .init original_length compressed_length → f.Shaped f.compLength.toNat := by
    intro original_length compressed_length hpos hle hf
    have hcomp : f.compLength = compressed_length := congrArg FoldedHistory.compLength hf
    rw [hcomp]
    exact .init hpos hle hf
  obtain ⟨i, hi, hf | hf | hf⟩ := mem_registers_initial (ThreadHistory.blank_mem h hmem)
  · exact hshaped (hp.tables i hi).1 (hp.tables i hi).2 hf
  · have htags := hp.tags i hi
    exact hshaped (by omega) htags.2 hf
  · have htags := hp.tags i hi
    exact hshaped htags.1 (by omega) hf

/-- Each folded history is the fold of the outcomes: of as many as it is for, each
of them at its age modulo the compressed length. -/
def Folded (outcomes : List Bool) (f : FoldedHistory) : Prop :=
  f.comp = fold f.compLength.toNat outcomes f.origLength

/-- What a folded history differs by from the fold of the outcomes. -/
def difference (outcomes : List Bool) (f : FoldedHistory) : Unsigned :=
  f.comp ^^^ fold f.compLength.toNat outcomes f.origLength

variable {outcomes : List Bool}

theorem difference_eq_zero_iff : difference outcomes f = 0 ↔ Folded outcomes f := BitVec.xor_eq_zero_iff

theorem getD_take (h : j < keep) : (outcomes.take keep).getD j false = outcomes.getD j false := by
  rw [getD_eq_getElem?_getD, getD_eq_getElem?_getD, getElem?_take_of_lt h]

/-- Recording an outcome rotates the difference. -/
theorem difference_push (hshaped : f.Shaped f.compLength.toNat) (hfits : Fits f.compLength.toNat f.comp)
    (hlength : f.origLength ≤ keep) (taken : Bool) :
    difference ((taken :: outcomes).take keep) (f.push (taken :: outcomes)) =
      rotate (mask32 f.compLength.toNat) f.compLength.toNat (difference outcomes f) := by
  have hmask : IsLowMask (mask32 f.compLength.toNat) f.compLength.toNat := mask32_isLowMask (Nat.le_of_lt hshaped.lt)
  have htake : (fold f.compLength.toNat ((taken :: outcomes).take keep) f.origLength : Unsigned) =
      fold f.compLength.toNat (taken :: outcomes) f.origLength := by
    apply fold_congr
    intro j hj
    exact getD_take (by omega)
  change (f.push (taken :: outcomes)).comp ^^^ fold f.compLength.toNat _ f.origLength = _
  rw [FoldedHistory.push, hshaped.comp_shift, htake, difference,
    ← foldStep_xor_fold hmask hshaped.pos hshaped.lt hfits taken outcomes f.origLength]
  rfl

/-- Recording an outcome keeps the folds. -/
theorem Folded.push (h : Folded outcomes f) (hshaped : f.Shaped f.compLength.toNat) (hlength : f.origLength ≤ keep)
    (taken : Bool) : Folded ((taken :: outcomes).take keep) (f.push (taken :: outcomes)) := by
  have hmask : IsLowMask (mask32 f.compLength.toNat) f.compLength.toNat := mask32_isLowMask (Nat.le_of_lt hshaped.lt)
  have hfits : Fits f.compLength.toNat f.comp := by
    rw [h]
    exact fits_fold hshaped.pos outcomes f.origLength
  rw [← difference_eq_zero_iff, difference_push hshaped hfits hlength, difference_eq_zero_iff.mpr h,
    rotate_zero hmask hshaped.pos hshaped.lt]

/-- The history of a thread whose folded histories are folds. -/
structure Folds (p : Params) (history : History) : Prop where
  blank : history.folded.map FoldedHistory.blank = (ThreadHistory.initial p).registers
  folded : ∀ f ∈ history.folded, Folded history.outcomes f

theorem Folds.push (hp : Foldable p) {history : History} (h : Folds p history) (branch_pc : Addr) (taken : Bool) :
    Folds p (history.push p.maxHist.toNat branch_pc taken) := by
  refine ⟨ThreadHistory.Placed.map_push h.blank _, ?_⟩
  intro f hmem
  obtain ⟨old, hold, rfl⟩ := mem_map.mp hmem
  exact (h.folded old hold).push (hp.shaped h.blank hold) (ThreadHistory.origLength_le hp.toSized h.blank hold) taken

theorem folds_initial (hp : Foldable p) : Folds p (ThreadHistory.initial p).history := by
  refine ⟨(ThreadHistory.initial_placed hp.toSized).blank, ?_⟩
  intro f hmem
  have hcomp : f.comp = 0 := by
    obtain ⟨i, -, rfl | rfl | rfl⟩ := mem_registers_initial hmem <;> rfl
  have hoff : ∀ j, (ThreadHistory.initial p).history.outcomes.getD j false = false := by
    intro j
    change (window (Vector.replicate _ false) 0 _).getD j false = false
    rw [getD_eq_getElem?_getD, getElem?_window]
    split
    · rw [Vector.getElem?_replicate]
      split <;> rfl
    · rfl
  rw [Folded, hcomp]
  induction f.origLength with
  | zero => rfl
  | succ length ih =>
    rw [fold, ← ih, hoff]
    simp [bit]

/-- In every run that keeps the histories of the branches in flight, the folded
histories of all banks are the folds of the outcomes in the buffer from
`ptGhist` on, and no update of the histories reads outside of the buffer. -/
theorem folded_histories_fold_outcomes (p : Params) (hp : Foldable p) (random_mt : Nat → BitVec 32) (s : State p)
    (hs : construct p random_mt = .ok s) (tid : ThreadID) (events : List Event) (hevents : KeepsHistories p [] events)
    (answers : List (Option Bool)) (m : Thread p)
    (hrun : (InFlight.machine (predictor p) tid).run (InFlight.start s) events = .ok (answers, m)) :
    (∀ f ∈ (m.predictor.threadHistory tid).registers, f.comp = fold f.compLength.toNat
      (window (m.predictor.threadHistory tid).globalHistory (m.predictor.threadHistory tid).ptGhist p.maxHist.toNat)
      f.origLength) ∧
    (∀ branch_pc taken, ∃ after, (m.predictor.threadHistory tid).updateHistories branch_pc taken = .ok after) ∧
    ∀ b ∈ m.inflight, (∀ taken, ∃ after, (m.predictor.threadHistory tid).squash taken b.history.saved = .ok after) ∧
      ∃ after, (m.predictor.threadHistory tid).btbUpdate b.history.saved = .ok after := by
  obtain rfl := construct_spec hs
  obtain ⟨⟨ages, htracked⟩, hfolds⟩ := (tracked_start hp.toSized random_mt tid).run (I := Folds p) hp.toSized
    (fun _ branch_pc taken h => h.push hp branch_pc taken)
    ⟨folds_initial hp, fun b hmem => absurd hmem List.not_mem_nil⟩ hevents hrun
  refine ⟨hfolds.folded, ?_, ?_⟩
  · intro branch_pc taken
    obtain ⟨saved, after, hupdate, -⟩ := ThreadHistory.updateHistories_spec hp.toSized htracked.placed branch_pc taken
    exact ⟨_, hupdate⟩
  · intro b hmem
    obtain ⟨age, hkept⟩ := htracked.exists_kept hmem
    constructor
    · intro taken
      obtain ⟨after, hsquash, -⟩ := ThreadHistory.squash_eq hp.toSized htracked.placed hkept.behind.lt taken
      exact ⟨after, hsquash⟩
    · exact ThreadHistory.btbUpdate_total hp.toSized htracked.placed b.history.saved

/-- The folded histories after a correction, with a younger branch squashed. -/
theorem folded_histories_after_correction : ∃ answers m, (InFlight.machine (predictor smallParams) 0).run smallThread
        [.lookup 0, .uncondBranch 4, .btbUpdate, .squash, .correct true] = .ok (answers, m) ∧
      ∀ f ∈ (m.predictor.threadHistory 0).registers, f.comp = fold f.compLength.toNat
        (window (m.predictor.threadHistory 0).globalHistory (m.predictor.threadHistory 0).ptGhist 1) f.origLength := by
  have hrun : ((InFlight.machine (predictor smallParams) 0).run smallThread
      [.lookup 0, .uncondBranch 4, .btbUpdate, .squash, .correct true]).map (fun _ => ()) = .ok () := by decide +kernel
  obtain ⟨⟨answers, m⟩, hrun, -⟩ := map_ok hrun
  refine ⟨answers, m, hrun, ?_⟩
  exact (folded_histories_fold_outcomes smallParams
    ⟨⟨by decide, by decide⟩, by decide, by decide⟩ (fun _ => 0) _ rfl 0 _
    (by decide) answers m hrun).1

/-- Where squashed outcomes have overwritten the history of a branch, its correction
leaves folded histories that are not the folds of the outcomes. -/
theorem corrected_histories_do_not_fold : AtMostOneYounger (squashedThrice ++ [Event.correct true]) ∧ ∃ answers m,
      (InFlight.machine (predictor smallParams) 0).run smallThread (squashedThrice ++ [Event.correct true]) =
        .ok (answers, m) ∧
      (m.predictor.threadHistory 0).registers.map (fun f => (f.compLength, f.comp)) = [(2, 3), (3, 3), (2, 3)] ∧
      (m.predictor.threadHistory 0).registers.map (fun f => (fold f.compLength.toNat
        (window (m.predictor.threadHistory 0).globalHistory (m.predictor.threadHistory 0).ptGhist 1)
        f.origLength : Unsigned)) = [1, 1, 1] := by
  have hrun : ((InFlight.machine (predictor smallParams) 0).run
    smallThread (squashedThrice ++ [Event.correct true])).map
      (fun final => ((final.2.predictor.threadHistory 0).registers.map (fun f => (f.compLength, f.comp)),
        (final.2.predictor.threadHistory 0).registers.map (fun f => (fold f.compLength.toNat
          (window (final.2.predictor.threadHistory 0).globalHistory (final.2.predictor.threadHistory 0).ptGhist 1)
          f.origLength : Unsigned)))) =
      .ok ([(2, 3), (3, 3), (2, 3)], [1, 1, 1]) := by decide +kernel
  obtain ⟨⟨answers, m⟩, hrun, hcomps⟩ := map_ok hrun
  obtain ⟨hregisters, hfolds⟩ := Prod.mk.inj hcomps
  exact ⟨atMostOneYounger, answers, m, hrun, hregisters, hfolds⟩

end Gem5.LTAGE
