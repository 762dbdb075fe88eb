import Gem5.Pred.Calls
import Gem5.Pred.History

open Lib Result Table

namespace Gem5.LocalBP

/-- The parameters of `LocalBP`. -/
structure Params where
  localPredictorSize : Unsigned
  localCtrBits : Unsigned
  instShiftAmt : Unsigned

namespace Params

variable (p : Params)

def localPredictorSets : Unsigned := p.localPredictorSize / p.localCtrBits

def getLocalIndex (branch_addr : Addr) : Unsigned := calcLocHistIdx p.instShiftAmt p.localPredictorSets branch_addr

/-- The most significant bit of the count. -/
def getPrediction (count : Nat) : Bool := shr (BitVec.ofNat 32 count) (p.localCtrBits - 1).toNat ≠ 0

end Params

/-- The vector `localCtrs`. -/
abbrev State (p : Params) : Type := Vector SatCounter p.localPredictorSets.toNat

/-- Counters of 0 bits, which make the source divide by zero, are not accepted
here either. -/
def construct (p : Params) : Except String (State p) := do
  fatalIf (!isPowerOf2 p.localPredictorSize) "Invalid local predictor size!\n"
  fatalIf (!isPowerOf2 p.localPredictorSets) "Invalid number of local predictor sets! Check localCtrBits.\n"
  .ok (.replicate _ (.setBits p.localCtrBits.toNat))

/-- The predictor keeps no histories: every `bp_history` is `NULL`. -/
def predictor (p : Params) : DirectionPredictor (State p) Unit where
  lookup localCtrs _ branch_addr := do
    let local_ctr ← Table.read localCtrs (p.getLocalIndex branch_addr).toNat
    .ok (p.getPrediction local_ctr.read, (), localCtrs)
  uncondBranch localCtrs _ _ := .ok ((), localCtrs)
  btbUpdate localCtrs _ _ _ := .ok localCtrs
  -- counters are not trained on the wrong path
  update localCtrs _ branch_addr taken _ squashed :=
    modifyIf (!squashed) localCtrs (p.getLocalIndex branch_addr).toNat (.train taken)
  squash localCtrs _ _ := .ok localCtrs
  getGHR _ _ _ := .ok 0

/-- What a call does to the counter at `idx`: only the commits of branches with
that index train it. -/
def trainBy (p : Params) (idx : Unsigned) (c : SatCounter) : Call → SatCounter
  | .update _ branch_addr taken _ false => if p.getLocalIndex branch_addr = idx then c.train taken else c
  | _ => c

variable {p : Params} {idx : Unsigned} {m m' : Calls.State (State p) Unit}

theorem read_step (hstep : (Calls.machine (predictor p)).step m call = .ok (answer, m'))
    (hread : Table.read m.predictor idx.toNat = .ok c) :
    Table.read m'.predictor idx.toNat = .ok (trainBy p idx c call) := by
  cases Calls.step_iff.mp hstep with
  | lookup hcall =>
    obtain ⟨_, -, hdone⟩ := bind_ok hcall
    cases hdone
    exact hread
  | uncondBranch hcall | btbUpdate _ hcall | squash _ hcall =>
    cases hcall
    exact hread
  | @update _ pc _ _ squashed _ _ _ hcall =>
    cases squashed with
    | true =>
      cases hcall
      exact hread
    | false =>
      by_cases hidx : p.getLocalIndex pc = idx
      · subst hidx
        rw [trainBy, if_pos rfl]
        exact read_of_modify hcall hread
      · obtain ⟨hlt, rfl⟩ := read_eq_ok_iff.mp hread
        obtain ⟨_, rfl⟩ := modify_eq_ok_iff.mp hcall
        rw [trainBy, if_neg hidx, read_of_lt _ hlt, Vector.getElem_set_ne _ _ (mt BitVec.eq_of_toNat_eq hidx)]

theorem read_run (hrun : (Calls.machine (predictor p)).run m calls = .ok (answers, m'))
    (hread : Table.read m.predictor idx.toNat = .ok c) :
    Table.read m'.predictor idx.toNat = .ok (calls.foldl (trainBy p idx) c) := by
  induction calls generalizing m answers c with
  | nil =>
    obtain ⟨-, rfl⟩ := Machine.run_nil_eq_ok_iff.mp hrun
    exact hread
  | cons call rest ih =>
    obtain ⟨_, next, _, hstep, hrest, -⟩ := Machine.run_cons_eq_ok_iff.mp hrun
    exact ih hrest (read_step hstep hread)

/-- Whatever is called on the predictor, a prediction depends on nothing but the
commits of the branches that share its counter. -/
theorem lookup_run (hs : construct p = .ok s)
    (hrun : (Calls.machine (predictor p)).run (Calls.start s) calls = .ok (answers, m)) (tid : ThreadID)
    (branch_addr : Addr) : (predictor p).lookup m.predictor tid branch_addr = .ok (p.getPrediction (calls.foldl
      (trainBy p (p.getLocalIndex branch_addr)) (.setBits p.localCtrBits.toNat)).read, (), m.predictor) := by
  simp only [construct, bind_eq_ok_iff, fatalIf_eq_ok_iff, Bool.not_eq_false', exists_const] at hs
  obtain ⟨-, hsets, hs⟩ := hs
  cases hs
  have hlt := calcLocHistIdx_lt (ne_zero_of_isPowerOf2 hsets) p.instShiftAmt branch_addr
  exact bind_of_ok (read_run hrun (read_replicate hlt _)) _

/-- Eight counters of two bits. -/
def smallParams : Params := ⟨16, 2, 2⟩

theorem shared_counter_predicts_taken : ∃ s answers m, construct smallParams = .ok s ∧
    (Calls.machine (predictor smallParams)).run (Calls.start s) [.lookup 0 4, .lookup 1 36,
      .update 0 4 true 0 false, .update 1 36 true 1 false] = .ok (answers, m) ∧
    (predictor smallParams).lookup m.predictor 0 4 = .ok (true, (), m.predictor) := by
  refine ⟨?s, ?answers, ?m, ?hs, ?hrun, (lookup_run ?hs ?hrun 0 4).trans rfl⟩
  case hs | hrun => rfl

end Gem5.LocalBP
