import Gem5.Pred.BPredUnit.Retire

open Lib List Function

namespace Gem5.BPredUnit

variable {S H PC Inst : Type} {p : Params}

/-- The unit as all the threads of the processor drive it. -/
def threads (d : DirectionPredictor S H) (isa : ISA PC Inst) (p : Params) :
    Machine (State p S H PC) (ThreadID × Op PC Inst) (Answer PC) where
  step u command := (machine d isa p command.1).step u command.2

/-- The sequence numbers of the branches that a thread predicts, in order. -/
def predictedBy (tid : ThreadID) (commands : List (ThreadID × Op PC Inst)) : List InstSeqNum :=
  commands.filterMap fun
    | (t, .predict _ seqNum _) => if t = tid then some seqNum else none
    | _ => none

/-- Sequence numbers strictly increase within each thread. -/
def Increasing (commands : List (ThreadID × Op PC Inst)) : Prop :=
  ∀ tid, (predictedBy tid commands).Pairwise (· < ·)

/-- The queue is strictly decreasing in `seqNum`, from the youngest branch on. -/
def Decreasing (queue : List (PredictorHistory H PC)) : Prop :=
  queue.Pairwise fun younger older => older.seqNum < younger.seqNum

theorem decreasing_iff : Decreasing queue ↔ (queue.map PredictorHistory.seqNum).Pairwise (· > ·) := by
  rw [pairwise_map]
  rfl

section Prefixes

variable {A : Type} {P : A → Bool} {l : List A} (h : l.Pairwise fun a b => P b = true → P a = true)

include h

/-- A condition that no entry meets after one that fails it is met by a prefix
only, so dropping that prefix drops all the entries that meet it. -/
theorem dropWhile_eq_filter : l.dropWhile P = l.filter fun a => !P a := by
  induction l with
  | nil => rfl
  | cons a l ih =>
    obtain ⟨hfirst, hrest⟩ := pairwise_cons.mp h
    by_cases ha : P a = true
    · rw [dropWhile_cons_of_pos ha, filter_cons_of_neg (by simp [ha]), ih hrest]
    rw [dropWhile_cons_of_neg ha, eq_comm, filter_eq_self]
    exact forall_mem_cons.mpr ⟨by simpa using ha, fun b hb => by simpa using fun hPb => ha (hfirst b hb hPb)⟩

end Prefixes

section

variable {queue : List (PredictorHistory H PC)} (h : Decreasing queue)

include h

theorem Decreasing.dropWhile_younger (sn : InstSeqNum) :
    (queue.dropWhile fun record => record.seqNum > sn) = queue.filter fun record => record.seqNum ≤ sn := by
  have hyounger : queue.Pairwise fun a b => decide (b.seqNum > sn) = true → decide (a.seqNum > sn) = true := by
    apply h.imp
    intro a b hlt
    simp only [decide_eq_true_eq]
    exact fun hb => Nat.lt_trans hb hlt
  rw [dropWhile_eq_filter hyounger]
  apply filter_congr
  intro record _
  rw [← decide_not]
  simp only [gt_iff_lt, Nat.not_lt]

theorem Decreasing.dropWhile_older (done_sn : InstSeqNum) :
    (queue.reverse.dropWhile fun record => record.seqNum ≤ done_sn).reverse =
      queue.filter fun record => done_sn < record.seqNum := by
  have hreverse : queue.reverse.Pairwise fun a b =>
      decide (b.seqNum ≤ done_sn) = true → decide (a.seqNum ≤ done_sn) = true := by
    rw [pairwise_reverse]
    apply h.imp
    intro a b hlt
    simp only [decide_eq_true_eq]
    exact fun ha => Nat.le_trans (Nat.le_of_lt hlt) ha
  rw [dropWhile_eq_filter hreverse, filter_reverse, reverse_reverse]
  apply filter_congr
  intro record _
  rw [← decide_not]
  simp only [Nat.not_le]

end

section

variable {d : DirectionPredictor S H} {isa : ISA PC Inst} {tid : ThreadID} {u u' : State p S H PC}

/-- The branches whose records `squashMispredicted` leaves in the queue. The
record at the front may have been corrected. -/
theorem squashMispredicted_seqNums
    (h : squashMispredicted d isa u squashed_sn corrTarget actually_taken tid rand = .ok u') :
    (u'.predHist tid).map PredictorHistory.seqNum =
      ((u.predHist tid).dropWhile fun record => record.seqNum > squashed_sn).map PredictorHistory.seqNum := by
  obtain ⟨left, hsquash, hcase⟩ := squashMispredicted_eq_ok_iff.mp h
  have hhist : left.predHist tid = (u.predHist tid).dropWhile fun record => record.seqNum > squashed_sn := by
    rw [squash_spec hsquash, update_self]
  rw [← hhist]
  rcases hcase with ⟨-, rfl⟩ | ⟨front, older, front', fixed, hleft, -, hfix, rfl⟩
  · rfl
  · rw [State.setPredHist_self, hleft, map_cons, map_cons, (correctFront_spec hfix).1.seqNum]

/-- What a call does to the sequence numbers in the queue of its thread. -/
def Op.queueAfter (op : Op PC Inst) (queue : List InstSeqNum) : List InstSeqNum :=
  match op with
  | .predict _ seqNum _ => seqNum :: queue
  | .update done_sn => (queue.reverse.dropWhile fun sn => sn ≤ done_sn).reverse
  | .squash squashed_sn => queue.dropWhile fun sn => sn > squashed_sn
  | .squashMispredicted squashed_sn _ _ _ => queue.dropWhile fun sn => sn > squashed_sn

theorem step_predHist (h : (machine d isa p tid).step u op = .ok (answer, u')) :
    (∃ queue, u'.predHist = Function.update u.predHist tid queue) ∧ (u'.predHist tid).map PredictorHistory.seqNum =
        op.queueAfter ((u.predHist tid).map PredictorHistory.seqNum) := by
  cases step_iff.mp h with
  | predict hpredict =>
    obtain ⟨record, s, -, heffect, -⟩ := predict_effect hpredict
    refine ⟨⟨_, heffect.predHist⟩, ?_⟩
    rw [heffect.queue, map_cons, heffect.record_seqNum]
    rfl
  | update hupdate =>
    have hhist := (update_spec hupdate).2
    refine ⟨⟨_, hhist⟩, ?_⟩
    rw [hhist, update_self, Op.queueAfter, ← map_reverse, dropWhile_map, map_reverse]
    rfl
  | squash hsquash =>
    refine ⟨⟨_, squash_spec hsquash⟩, ?_⟩
    rw [squash_spec hsquash, update_self, Op.queueAfter, dropWhile_map]
    rfl
  | squashMispredicted hsquash =>
    refine ⟨squashMispredicted_predHist hsquash, ?_⟩
    rw [squashMispredicted_seqNums hsquash, Op.queueAfter, dropWhile_map]
    rfl

/-- The queue of a thread below the branches it is still going to predict. -/
def Queued (queue : List InstSeqNum) (coming : List InstSeqNum) : Prop :=
  queue.Pairwise (· > ·) ∧ ∀ sn ∈ queue, ∀ later ∈ coming, sn < later

theorem Queued.sublist (h : Queued queue coming) (hsub : queue'.Sublist queue) : Queued queue' coming :=
  ⟨h.1.sublist hsub, fun sn hmem => h.2 sn (hsub.subset hmem)⟩

/-- A call keeps the queue of its thread below what is still to come. -/
theorem Queued.step (h : Queued queue (predictedBy tid ((tid, op) :: rest)))
    (hop : (predictedBy tid ((tid, op) :: rest)).Pairwise (· < ·)) :
    Queued (op.queueAfter queue) (predictedBy tid rest) := by
  cases op with
  | predict inst seqNum pc =>
    have hcoming : predictedBy tid ((tid, .predict inst seqNum pc) :: rest) = seqNum :: predictedBy tid rest := by
      simp [predictedBy]
    rw [hcoming] at h hop
    obtain ⟨hfirst, -⟩ := pairwise_cons.mp hop
    constructor
    · exact pairwise_cons.mpr ⟨fun sn hmem => h.2 sn hmem seqNum mem_cons_self, h.1⟩
    · exact forall_mem_cons.mpr ⟨hfirst, fun sn hold later hlater => h.2 sn hold later (mem_cons_of_mem _ hlater)⟩
  | update done_sn =>
    apply Queued.sublist h
    rw [Op.queueAfter, ← reverse_sublist, reverse_reverse]
    exact dropWhile_sublist _
  | squash squashed_sn => exact Queued.sublist h (dropWhile_sublist _)
  | squashMispredicted squashed_sn corrTarget actually_taken rand =>
    exact Queued.sublist h (dropWhile_sublist _)

/-- The commands of other threads predict nothing for a thread. -/
theorem predictedBy_cons_of_ne (hne : t ≠ tid) (op : Op PC Inst) (rest : List (ThreadID × Op PC Inst)) :
    predictedBy tid ((t, op) :: rest) = predictedBy tid rest := by
  cases op <;> simp [predictedBy, hne]

theorem Increasing.tail (h : Increasing (command :: rest)) : Increasing rest := by
  intro tid
  exact List.Pairwise.sublist ((sublist_cons_self command rest).filterMap _) (h tid)

/-- Sequence numbers that increase within each thread keep every queue in
order. -/
theorem run_decreasing (hrun : (threads d isa p).run u commands = .ok (answers, u')) (hcommands : Increasing commands)
    (hu : ∀ tid, Queued ((u.predHist tid).map PredictorHistory.seqNum) (predictedBy tid commands)) (tid : ThreadID) :
    Decreasing (u'.predHist tid) := by
  induction commands generalizing u answers with
  | nil =>
    obtain ⟨-, rfl⟩ := Machine.run_nil_eq_ok_iff.mp hrun
    exact decreasing_iff.mpr (hu tid).1
  | cons command rest ih =>
    obtain ⟨answer, next, others, hstep, hrest, -⟩ := Machine.run_cons_eq_ok_iff.mp hrun
    obtain ⟨t, op⟩ := command
    obtain ⟨⟨queue, hhist⟩, hseqNums⟩ := step_predHist hstep
    refine ih hrest hcommands.tail fun other => ?_
    by_cases hother : other = t
    · subst hother
      rw [hseqNums]
      exact (hu other).step (hcommands other)
    have hqueued := hu other
    rw [predictedBy_cons_of_ne (Ne.symm hother)] at hqueued
    rw [hhist, update_of_ne hother]
    exact hqueued

end

end Gem5.BPredUnit
