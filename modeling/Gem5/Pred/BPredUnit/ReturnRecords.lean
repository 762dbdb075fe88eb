import Gem5.Pred.BPredUnit.Order
import Gem5.Pred.Tournament.Model

open Lib Result List

namespace Gem5.BPredUnit

variable {S H PC Inst : Type} {p : Params}

section

variable (d : DirectionPredictor S H) (tid : ThreadID)

/-- The calls of one thread in a log of all of them. -/
def threadLog (log : List (State p S H PC × (ThreadID × Op PC Inst) × Answer PC)) : Log p S H PC Inst :=
  log.filterMap fun (u, (t, op), answer) => if t = tid then some (u, op, answer) else none

/-- A mispredict squash of `sn` finds a return that has not popped the return
address stack. -/
def State.missedReturn (u : State p S H PC) (sn : InstSeqNum) : Bool :=
  (u.predHist tid).any fun record => record.seqNum == sn && (record.wasReturn && !record.usedRAS)

/-- The return address stack right before the branch `sn` last popped it: when
the branch was predicted or, if it had not popped the stack by then, when it
was corrected as taken. -/
def poppedFrom (sn : InstSeqNum) : Log p S H PC Inst → Option (ReturnAddrStack PC p.RASSize.toNat)
  | [] => none
  | (u, .predict _ seqNum _, _) :: earlier => if seqNum = sn then some (u.RAS tid) else poppedFrom sn earlier
  | (u, .squashMispredicted squashed_sn _ actually_taken _, _) :: earlier =>
    if squashed_sn = sn ∧ actually_taken = true ∧ u.missedReturn tid sn = true then
      (squash d u sn tid).toOption.map fun left => left.RAS tid
    else poppedFrom sn earlier
  | (_, .update _, _) :: earlier => poppedFrom sn earlier
  | (_, .squash _, _) :: earlier => poppedFrom sn earlier

/-- The record has the top of the stack that its branch popped. -/
def HasTop (log : Log p S H PC Inst) (record : PredictorHistory H PC) : Prop :=
  ∃ ras, poppedFrom d tid record.seqNum log = some ras ∧ record.RASIndex = ras.topIdx ∧
    ras.top = .ok record.RASTarget

/-- No call corrects as taken a return that has not popped the stack. -/
def PopsWhenPredicted : State p S H PC × Log p S H PC Inst → Op PC Inst → Prop
  | (u, _), .squashMispredicted squashed_sn _ actually_taken _ =>
    actually_taken = true → u.missedReturn tid squashed_sn = false
  | _, _ => True

/-- The queue of the thread is in order and the returns in it have their tops. -/
structure TopsSaved (state : State p S H PC × Log p S H PC Inst) : Prop extends Ordered tid state where
  hasTop : ∀ record ∈ state.1.predHist tid, record.usedRAS = true → HasTop d tid state.2 record

end

section

variable {d : DirectionPredictor S H} {isa : ISA PC Inst} {tid : ThreadID} {u u' : State p S H PC}
  {log : Log p S H PC Inst}

theorem StackMove.hasTop (h : StackMove pc ras record ras') (hused : record.usedRAS = true) :
    record.RASIndex = ras.topIdx ∧ ras.top = .ok record.RASTarget := by
  cases h with
  | untouched hnot => simp [hused] at hnot
  | returned _ hindex htop => exact ⟨hindex, htop⟩
  | called hnot => simp [hused] at hnot
  | missed hnot => simp [hused] at hnot

/-- Undoing a return whose record has a top puts the top back. -/
theorem undoRAS_top {ras : ReturnAddrStack PC numEntries} {record : PredictorHistory H PC}
    (hused : record.usedRAS = true) (hindex : record.RASIndex = ras.topIdx) (htop : ras.top = .ok record.RASTarget)
    (current : ReturnAddrStack PC numEntries) :
    ∃ restored, undoRAS current record = .ok restored ∧ restored.topIdx = ras.topIdx ∧ restored.top = ras.top := by
  obtain ⟨hlt, -⟩ := Table.read_eq_ok_iff.mp htop
  have hrestore := ReturnAddrStack.restore_of_lt current hlt record.RASTarget
  rw [undoRAS, if_pos hused, hindex, htop]
  refine ⟨_, hrestore, rfl, ?_⟩
  exact Table.read_eq_ok_iff.mpr ⟨hlt, Vector.getElem_set_self hlt⟩

/-- Calls that do not make the branch pop the stack. -/
theorem HasTop.cons (h : HasTop d tid log record)
    (hcall : poppedFrom d tid record.seqNum (call :: log) = poppedFrom d tid record.seqNum log) :
    HasTop d tid (call :: log) record := by
  obtain ⟨ras, hpopped, htop⟩ := h
  exact ⟨ras, hcall.trans hpopped, htop⟩

/-- A correction that does not pop the stack keeps the top in the record. -/
theorem correctFront_usedRAS (h : correctFront d isa u front corrTarget actually_taken tid rand = .ok (front', u'))
    (hmissed : actually_taken = true → (front.wasReturn && !front.usedRAS) = false) (hused : front'.usedRAS = true) :
    front.usedRAS = true ∧ front'.RASIndex = front.RASIndex ∧ front'.RASTarget = front.RASTarget := by
  obtain ⟨ghr, s, -, -, hfix⟩ := bind_ok₂ h
  cases actually_taken with
  | true =>
    obtain ⟨stored, -, hdone⟩ := bind_ok hfix
    simp only [hmissed rfl, Except.ok.injEq, Prod.mk.injEq] at hdone
    obtain ⟨rfl, -⟩ := hdone
    exact ⟨hused, rfl, rfl⟩
  | false =>
    obtain ⟨ras, -, hdone⟩ := bind_ok hfix
    simp only [Except.ok.injEq, Prod.mk.injEq] at hdone
    obtain ⟨rfl, -⟩ := hdone
    -- Whatever the branch did, the corrected record says that it did not pop.
    cases hwas : front.usedRAS <;> cases hcall : front.wasCall && front.pushedRAS <;> simp [hwas, hcall] at hused

theorem TopsSaved.step (h : TopsSaved d tid (u, log)) (hfresh : Fresh (u, log) op)
    (hpops : PopsWhenPredicted tid (u, log) op) (hstep : (machine d isa p tid).step u op = .ok (answer, u')) :
    TopsSaved d tid (u', (u, op, answer) :: log) := by
  refine ⟨h.toOrdered.step hfresh (Machine.logged_step_eq_ok_iff.mpr ⟨u', hstep, rfl⟩), ?_⟩
  cases step_iff.mp hstep with
  | predict hpredict =>
    obtain ⟨record, s, -, heffect, -⟩ := predict_effect hpredict
    obtain ⟨ras, hmove, -⟩ := heffect.RAS
    rw [heffect.queue]
    intro other hmem hused
    rcases mem_cons.mp hmem with rfl | hold
    · refine ⟨u.RAS tid, ?_, hmove.hasTop hused⟩
      rw [poppedFrom, if_pos heffect.record_seqNum.symm]
    · apply (h.hasTop other hold hused).cons
      rw [poppedFrom, if_neg (Nat.ne_of_gt (h.lt_fresh hfresh other hold))]
  | update hupdate =>
    intro record hmem hused
    exact (h.hasTop record ((update_sublist hupdate).subset hmem) hused).cons rfl
  | squash hsquash =>
    intro record hmem hused
    exact (h.hasTop record ((squash_sublist hsquash).subset hmem) hused).cons rfl
  | @squashMispredicted squashed_sn corrTarget actually_taken rand hsquash =>
    have hpopped : ∀ sn, poppedFrom d tid sn
        ((u, Op.squashMispredicted squashed_sn corrTarget actually_taken rand, Answer.squashed) :: log) =
          poppedFrom d tid sn log := by
      intro sn
      rw [poppedFrom, if_neg]
      rintro ⟨rfl, htaken, hmissed⟩
      rw [hpops htaken] at hmissed
      cases hmissed
    obtain ⟨left, hleft, hcase⟩ := squashMispredicted_eq_ok_iff.mp hsquash
    have hsub : ∀ record ∈ left.predHist tid, record ∈ u.predHist tid :=
      fun _ hmem => (squash_sublist hleft).subset hmem
    rcases hcase with ⟨-, rfl⟩ | ⟨front, older, front', fixed, hfront, hsn, hfix, rfl⟩
    · intro record hmem hused
      exact (h.hasTop record (hsub record hmem) hused).cons (hpopped _)
    rw [hfront] at hsub
    rw [State.setPredHist_self]
    intro record hmem hused
    rcases mem_cons.mp hmem with rfl | hold
    · have hin := hsub front mem_cons_self
      have hmissed : actually_taken = true → (front.wasReturn && !front.usedRAS) = false := by
        intro htaken
        have hnone := any_eq_false.mp (hpops htaken) front hin
        simpa [hsn] using hnone
      obtain ⟨hused', hindex, htarget⟩ := correctFront_usedRAS hfix hmissed hused
      obtain ⟨ras, hras, hindex', htop⟩ := h.hasTop front hin hused'
      refine ⟨ras, ?_, hindex.trans hindex', htarget ▸ htop⟩
      rw [hpopped, (correctFront_spec hfix).1.seqNum]
      exact hras
    · exact (h.hasTop record (hsub record (mem_cons_of_mem _ hold)) hused).cons (hpopped _)

theorem threadLog_cons_self (op : Op PC Inst) (answer : Answer PC)
    (log : List (State p S H PC × (ThreadID × Op PC Inst) × Answer PC)) :
    threadLog tid ((u, (tid, op), answer) :: log) = (u, op, answer) :: threadLog tid log := by
  simp [threadLog]

theorem threadLog_cons_of_ne (hne : t ≠ tid) (op : Op PC Inst) (answer : Answer PC)
    (log : List (State p S H PC × (ThreadID × Op PC Inst) × Answer PC)) :
    threadLog tid ((u, (t, op), answer) :: log) = threadLog tid log := by
  simp [threadLog, hne]

/-- The queue of a thread is all of the unit that the invariant looks at. -/
theorem TopsSaved.congr (h : TopsSaved d tid (u, log)) (hqueue : u'.predHist tid = u.predHist tid) :
    TopsSaved d tid (u', log) := by
  refine ⟨⟨?_, ?_⟩, ?_⟩
  · rw [hqueue]
    exact h.decreasing
  · rw [hqueue]
    exact h.predicted
  · rw [hqueue]
    exact h.hasTop

end

/-- In every run of the unit, with any number of threads, in which no mispredict
squash corrects as taken a return that has not popped the stack: the record of
every return in flight that popped the return address stack has the top that
the stack had right before, and undoing it puts that top back on any stack. -/
theorem return_records_have_their_top (d : DirectionPredictor S H) (isa : ISA PC Inst) (p : Params) (s : S)
    (u : State p S H PC) (hu : construct isa p s = .ok u) (commands : List (ThreadID × Op PC Inst))
    (answers : List (Answer PC)) (v : State p S H PC)
    (log : List (State p S H PC × (ThreadID × Op PC Inst) × Answer PC))
    (hrun : (threads d isa p).logged.run (u, []) commands = .ok (answers, (v, log)))
    (hcommands : (threads d isa p).logged.StepsAll (fun (state, log) (tid, op) =>
      Fresh (state, threadLog tid log) op ∧ PopsWhenPredicted tid (state, threadLog tid log) op) (u, []) commands)
    (tid : ThreadID) (record : PredictorHistory H PC) (hmem : record ∈ v.predHist tid) (hused : record.usedRAS = true) :
    ∃ ras, poppedFrom d tid record.seqNum (threadLog tid log) = some ras ∧ record.RASIndex = ras.topIdx ∧
      ras.top = .ok record.RASTarget ∧
      ∀ current : ReturnAddrStack PC p.RASSize.toNat, ∃ restored, undoRAS current record = .ok restored ∧
        restored.topIdx = ras.topIdx ∧ restored.top = ras.top := by
  obtain ⟨-, -, rfl⟩ := construct_eq_ok_iff.mp hu
  have htops : ∀ tid, TopsSaved d tid (v, threadLog tid log) := by
    refine Machine.run_invariant (I := fun state => ∀ tid, TopsSaved d tid (state.1, threadLog tid state.2)) ?_
      (fun tid => ⟨.initial isa s tid, fun _ hmem => absurd hmem List.not_mem_nil⟩) hcommands hrun
    rintro ⟨u, log⟩ ⟨t, op⟩ answer state' h ⟨hfresh, hpops⟩ hstep tid
    obtain ⟨u', hcall, rfl⟩ := Machine.logged_step_eq_ok_iff.mp hstep
    by_cases heq : t = tid
    · subst heq
      rw [threadLog_cons_self]
      exact (h t).step hfresh hpops hcall
    obtain ⟨queue, hqueue⟩ := (step_predHist hcall).1
    rw [threadLog_cons_of_ne heq]
    refine (h tid).congr ?_
    rw [hqueue, Function.update_of_ne (Ne.symm heq)]
  obtain ⟨ras, hpopped, hindex, htop⟩ := (htops tid).hasTop record hmem hused
  exact ⟨ras, hpopped, hindex, htop, undoRAS_top hused hindex htop⟩

/-- A conditional return, such as those of Power. -/
def conditionalReturn : StaticInst := ⟨false, false, false, true⟩

/-- The unit of the examples below. -/
def powerUnit : State smallParams (TournamentBP.State TournamentBP.smallParams) TournamentBP.BPHistory SimplePCState :=
  .initial power smallParams (.initial TournamentBP.smallParams)

/-- A return that is predicted, and corrected because it went to another
target. -/
def predictedReturn : List (ThreadID × Op SimplePCState StaticInst) :=
  [(0, .predict directCall 1 (.set 0)), (0, .predict unconditionalReturn 2 (.set 64)),
    (0, .squashMispredicted 2 (.set 32) true 0)]

/-- A return that is predicted not taken and corrected as taken. -/
def correctedReturn : List (ThreadID × Op SimplePCState StaticInst) :=
  [(0, .predict directCall 1 (.set 0)), (0, .predict conditionalReturn 2 (.set 64)),
    (0, .squashMispredicted 2 (.set 4) true 0)]

theorem predicted_return_record_has_its_top : ∃ answers v log record ras,
      (threads (TournamentBP.predictor TournamentBP.smallParams) power smallParams).logged.run (powerUnit, [])
        predictedReturn = .ok (answers, (v, log)) ∧
      (v.predHist 0).head? = some record ∧ record.seqNum = 2 ∧ record.usedRAS = true ∧
      poppedFrom (TournamentBP.predictor TournamentBP.smallParams) 0 2 (threadLog 0 log) = some ras ∧
      record.RASIndex = ras.topIdx ∧ ras.top = .ok record.RASTarget := by
  have hcommands : (threads (TournamentBP.predictor TournamentBP.smallParams) power smallParams).logged.StepsAll
      (fun (state, log) (tid, op) =>
        Fresh (state, threadLog tid log) op ∧ PopsWhenPredicted tid (state, threadLog tid log) op)
      (powerUnit, []) predictedReturn := by
    refine ⟨⟨nofun, trivial⟩, ?_⟩
    intro answer₁ state₁ hstep₁
    cases hstep₁
    refine ⟨⟨?_, trivial⟩, ?_⟩
    · intro call hcall sn hpredicts
      rw [List.mem_singleton.mp hcall] at hpredicts
      rw [← beq_iff_eq.mp hpredicts]
      decide
    · intro answer₂ state₂ hstep₂
      cases hstep₂
      exact ⟨⟨trivial, fun _ => rfl⟩, fun _ _ _ => trivial⟩
  obtain ⟨ras, hpopped, hindex, htop, -⟩ := return_records_have_their_top _ power smallParams _ powerUnit rfl
    predictedReturn _ _ _ rfl hcommands 0 _ (.head _) rfl
  exact ⟨_, _, _, _, ras, rfl, rfl, rfl, rfl, hpopped, hindex, htop⟩

/-- The corrected record does not have the top, and the squash of its branch
leaves the stack at another top than the one it popped. -/
theorem corrected_return_record_lacks_its_top : ∃ answers v log record ras w,
      (threads (TournamentBP.predictor TournamentBP.smallParams) power smallParams).logged.run (powerUnit, [])
        correctedReturn = .ok (answers, (v, log)) ∧
      (v.predHist 0).head? = some record ∧ record.seqNum = 2 ∧ record.usedRAS = true ∧
      poppedFrom (TournamentBP.predictor TournamentBP.smallParams) 0 2 (threadLog 0 log) = some ras ∧
      ras.topIdx = 1 ∧ record.RASIndex = 0 ∧
      squash (TournamentBP.predictor TournamentBP.smallParams) v 1 0 = .ok w ∧ (w.RAS 0).topIdx = 0 :=
  ⟨_, _, _, _, _, _, rfl, rfl, rfl, rfl, rfl, rfl, rfl, rfl, rfl⟩

end Gem5.BPredUnit
