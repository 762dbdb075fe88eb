import Gem5.Pred.BPredUnit.Sequence
import Gem5.Pred.Tournament.Model

open Lib Result List

namespace Gem5.BPredUnit

open ReturnAddrStack (below pop push_eq_ok_iff pop_tos_lt decrTos_incrTos below_ne_incrTos)

variable {S H PC Inst : Type} {p : Params}

/-- The pushes, counted 1, and pops, counted -1, that predicting a branch made
on the return address stack. -/
def PredictorHistory.stackMoves (record : PredictorHistory H PC) : List Int :=
  if record.usedRAS then [-1]
  else if record.wasCall then if record.pushedRAS then [1] else [1, -1]
  else []

/-- How many entries the stack holds above its original top, at some time while
the pushes and pops are made. -/
def heights (moves : List Int) : Set Int := { height | ∃ count, height = (moves.take count).sum }

/-- The largest of the heights. -/
def peak : List Int → Nat
  | [] => 0
  | move :: moves => (move + peak moves).toNat

theorem peak_isGreatest (moves : List Int) : IsGreatest (heights moves) (peak moves) := by
  induction moves with
  | nil =>
    refine ⟨⟨0, rfl⟩, ?_⟩
    rintro height ⟨count, rfl⟩
    rw [take_nil]
    exact le_refl _
  | cons move moves ih =>
    obtain ⟨⟨count, hcount⟩, hle⟩ := ih
    constructor
    · by_cases hpos : 0 ≤ move + peak moves
      · refine ⟨count + 1, ?_⟩
        rw [take_succ_cons, sum_cons, ← hcount, peak, Int.toNat_of_nonneg hpos]
      · refine ⟨0, ?_⟩
        rw [take_zero, sum_nil, peak, Int.toNat_of_nonpos (by omega), Nat.cast_zero]
    · rintro height ⟨count, rfl⟩
      cases count with
      | zero => exact Int.natCast_nonneg _
      | succ count =>
        have hrest : (moves.take count).sum ≤ peak moves := hle ⟨count, rfl⟩
        rw [take_succ_cons, sum_cons, peak]
        omega

/-- The top of the stack, and the slots down to `depth` entries below it,
modulo the size, are the same. -/
structure SameTop {numEntries : Nat} (depth : Nat) (ras ras' : ReturnAddrStack PC numEntries) : Prop where
  tos : ras'.tos = ras.tos
  slots : ∀ j < depth, ras'.addrStack[below numEntries ras.tos j]? =
    ras.addrStack[below numEntries ras.tos j]?

section

variable {numEntries : Nat} {ras ras₁ ras₂ : ReturnAddrStack PC numEntries} (htos : ras.tos < numEntries)
include htos

theorem StackMove.tos_lt (hmove : StackMove pc ras record ras₁) : ras₁.tos < numEntries := by
  cases hmove with
  | untouched => exact htos
  | returned => exact pop_tos_lt htos
  | called _ _ _ hpush =>
    obtain ⟨hlt, rfl⟩ := push_eq_ok_iff.mp hpush
    exact hlt
  | missed _ _ _ hpush =>
    obtain ⟨hlt, rfl⟩ := push_eq_ok_iff.mp hpush
    exact pop_tos_lt hlt

/-- One prediction undone: if everything predicted after it is undone down to
`numEntries - m` entries, undoing it leaves the stack as before it, with its
own pushes counted. -/
theorem StackMove.undo (hmove : StackMove pc ras record ras₁) (hlater : SameTop (numEntries - peak moves) ras₁ ras₂) :
    ∃ ras', undoRAS ras₂ record = .ok ras' ∧ SameTop (numEntries - peak (record.stackMoves ++ moves)) ras ras' := by
  obtain ⟨htop, hslots⟩ := hlater
  cases hmove with
  | untouched hused hcall =>
    refine ⟨ras₂, by simp [undoRAS, hused, hcall], htop, ?_⟩
    simpa [PredictorHistory.stackMoves, hused, hcall] using hslots
  | called hused hcall hpushed hpush =>
    have hpeak : peak (record.stackMoves ++ moves) = 1 + peak moves := by
      simp [PredictorHistory.stackMoves, hused, hcall, hpushed, peak]
      omega
    obtain ⟨hlt, rfl⟩ := push_eq_ok_iff.mp hpush
    refine ⟨ras₂.pop, by simp [undoRAS, hused, hcall, hpushed], ?_, ?_⟩
    · rw [pop, htop, decrTos_incrTos]
    · intro j hj
      have hslot := hslots (j + 1) (by omega)
      rw [ReturnAddrStack.below_incrTos htos (by omega)] at hslot
      rw [pop, hslot]
      exact Vector.getElem?_set_ne hlt (below_ne_incrTos htos (by omega)).symm
  | missed hused hcall hpushed hpush =>
    have hpeak : peak (record.stackMoves ++ moves) = max 1 (peak moves) := by
      simp [PredictorHistory.stackMoves, hused, hcall, hpushed, peak]
      omega
    obtain ⟨hlt, rfl⟩ := push_eq_ok_iff.mp hpush
    rw [pop, decrTos_incrTos] at htop hslots
    refine ⟨ras₂, by simp [undoRAS, hused, hcall, hpushed], htop, ?_⟩
    intro j hj
    rw [hslots j (by omega)]
    exact Vector.getElem?_set_ne hlt (below_ne_incrTos htos (by omega)).symm
  | returned hused hindex htarget =>
    have hpeak : peak (record.stackMoves ++ moves) = peak moves - 1 := by
      simp [PredictorHistory.stackMoves, hused, peak]
      omega
    obtain ⟨_, htarget⟩ := Table.read_eq_ok_iff.mp htarget
    have hundo : undoRAS ras₂ record = ras₂.restore ras.tos record.RASTarget := by
      rw [undoRAS, if_pos hused, hindex, ReturnAddrStack.topIdx]
    refine ⟨_, hundo.trans (ReturnAddrStack.restore_of_lt ras₂ htos _), rfl, ?_⟩
    intro j hj
    cases j with
    | zero =>
      -- The slot that the pop exposed to the next push.
      rw [ReturnAddrStack.below_zero htos, Vector.getElem?_set_self, ← htarget, Vector.getElem?_eq_getElem htos]
    | succ j =>
      have hne : ras.tos ≠ below numEntries ras.tos (j + 1) := by
        rw [ReturnAddrStack.below_eq htos (by omega)]
        split <;> omega
      have hslot := hslots j (by omega)
      rw [pop, ReturnAddrStack.below_decrTos htos (by omega)] at hslot
      rw [Vector.getElem?_set_ne htos hne, hslot]

end

/-- Undoing the records of a sequence of predictions, youngest first. -/
theorem Predicts.undo {u v : State p S H PC} {records : List (PredictorHistory H PC)}
    (h : Predicts d isa tid u branches records v) (htos : (u.RAS tid).tos < p.RASSize.toNat) :
    ∃ ras, records.reverse.foldlM undoRAS (v.RAS tid) = .ok ras ∧
      SameTop (p.RASSize.toNat - peak (records.flatMap PredictorHistory.stackMoves)) (u.RAS tid) ras := by
  induction h with
  | nil u => exact ⟨u.RAS tid, rfl, rfl, fun _ _ => rfl⟩
  | @cons u u₁ v b later record records s first rest ih =>
    obtain ⟨ras₁, hmove, hRAS⟩ := first.RAS
    have hras₁ : u₁.RAS tid = ras₁ := by rw [hRAS, Function.update_self]
    rw [hras₁] at ih
    obtain ⟨ras₂, hundo, hsame⟩ := ih (hmove.tos_lt htos)
    obtain ⟨ras', hlast, hdone⟩ := hmove.undo htos hsame
    refine ⟨ras', ?_, hdone⟩
    rw [reverse_cons, foldlM_append, bind_of_ok hundo, foldlM_cons, bind_of_ok hlast]
    rfl

/-- Squashing a sequence of predictions restores the return address stack: its
top index, and all but `m` of its slots, where `m` is the largest number of
entries that the sequence held above the original top. -/
theorem squash_restores_return_stack (d : DirectionPredictor S H) (isa : ISA PC Inst) (tid : ThreadID)
    (u : State p S H PC) (branches : List (Fetched PC Inst)) (sn : InstSeqNum) {v w : State p S H PC} {m : Nat}
    (htos : (u.RAS tid).tos < p.RASSize.toNat) (hold : ∀ record ∈ u.predHist tid, record.seqNum ≤ sn)
    (hnew : ∀ b ∈ branches, sn < b.seqNum) (hpredict : predictAll d isa tid u branches = .ok v)
    (hm : IsGreatest (heights ((v.squashing sn tid).reverse.flatMap PredictorHistory.stackMoves)) m)
    (hsquash : squash d v sn tid = .ok w) : w.predHist tid = u.predHist tid ∧ (w.RAS tid).tos = (u.RAS tid).tos ∧
      ∀ j < p.RASSize.toNat - m, (w.RAS tid).addrStack[below p.RASSize.toNat (u.RAS tid).tos j]? =
          (u.RAS tid).addrStack[below p.RASSize.toNat (u.RAS tid).tos j]? := by
  obtain ⟨records, hrecords⟩ := predicts_of_predictAll hpredict
  obtain ⟨hsquashed, hleft⟩ := hrecords.squash_all hold hnew
  obtain ⟨ras, hundo, hsame⟩ := hrecords.undo htos
  rw [hsquashed, List.reverse_reverse] at hm
  have hpeak : m = peak (records.flatMap PredictorHistory.stackMoves) := Int.ofNat.inj (hm.unique (peak_isGreatest _))
  obtain ⟨ras', s, hundo', -, rfl⟩ := squash_effect hsquash
  rw [hsquashed, hundo, Except.ok.injEq] at hundo'
  subst hundo'
  simp only [Function.update_self]
  rw [hpeak]
  exact ⟨hleft, hsame.tos, hsame.slots⟩

/-- A call and its return, squashed together on a stack of two entries. -/
theorem squashed_call_and_return_restore_return_stack :
    ∃ v w, predictAll (TournamentBP.predictor TournamentBP.smallParams) alpha 0
        (State.initial alpha smallParams (TournamentBP.State.initial TournamentBP.smallParams))
        [⟨directCall, 1, .set 0⟩, ⟨unconditionalReturn, 2, .set 64⟩] = .ok v ∧
      squash (TournamentBP.predictor TournamentBP.smallParams) v 0 0 = .ok w ∧
      IsGreatest (heights ((v.squashing 0 0).reverse.flatMap PredictorHistory.stackMoves)) (1 : Nat) ∧
      w.predHist 0 = [] ∧ (w.RAS 0).tos = 0 ∧ ∀ j < 2 - 1, (w.RAS 0).addrStack[below 2 0 j]? =
        (ReturnAddrStack.initial alpha 2).addrStack[below 2 0 j]? := by
  refine ⟨?v, ?w, ?predict, ?squash, ?peak, squash_restores_return_stack _ alpha 0
    (.initial alpha smallParams (.initial TournamentBP.smallParams)) _ 0 (by decide) ?old ?young ?predict ?peak ?squash⟩
  case predict | squash => rfl
  case peak => exact peak_isGreatest [1, -1]
  case old => exact fun _ h => (by cases h)
  exact List.forall_mem_cons.mpr ⟨by decide, List.forall_mem_singleton.mpr (by decide)⟩

end Gem5.BPredUnit
