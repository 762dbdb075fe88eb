import Gem5.Pred.BPredUnit.Order

open Lib Result List

namespace Gem5.BPredUnit

variable {S H V PC Inst : Type} {p : Params}

/-- A part of the predictor, its `view`, that is saved in every history object
before the branch changes it, and restored from there. -/
structure Checkpoints (d : DirectionPredictor S H) (tid : ThreadID) (view : S → V) (saved : H → V)
    (fix : V → Bool → V) : Prop where
  lookup : ∀ {s pc taken h s'}, d.lookup s tid pc = .ok (taken, h, s') → saved h = view s
  uncondBranch : ∀ {s pc h s'}, d.uncondBranch s tid pc = .ok (h, s') → saved h = view s
  commit : ∀ {s pc taken h s'}, d.update s tid pc taken h false = .ok s' → view s' = view s
  correct : ∀ {s pc taken h s'}, d.update s tid pc taken h true = .ok s' → view s' = fix (saved h) taken
  squash : ∀ {s h s'}, d.squash s tid h = .ok s' → view s' = saved h

/-- The unit right after the last call that predicted or corrected a branch. -/
def settled (u : State p S H PC) : Log p S H PC Inst → InstSeqNum → Option (State p S H PC)
  | [], _ => none
  | (v, op, _) :: log, sn => if op.predicts sn || op.corrects sn then some u else settled v log sn

/-- The branches that have committed. -/
def committed (log : Log p S H PC Inst) : List InstSeqNum :=
  log.flatMap fun
    | (_, _, .committed calls) => calls.map CommitCall.seqNum
    | _ => []

theorem committed_cons (u : State p S H PC) (op : Op PC Inst) (calls : List CommitCall) (log : Log p S H PC Inst) :
    committed ((u, op, .committed calls) :: log) = calls.map CommitCall.seqNum ++ committed log :=
  flatMap_cons ..

section Settled

variable {u v : State p S H PC} {log : Log p S H PC Inst} {op : Op PC Inst} {answer : Answer PC} {sn : InstSeqNum}

theorem settled_cons_of_settles (h : (op.predicts sn || op.corrects sn) = true) :
    settled u ((v, op, answer) :: log) sn = some u :=
  if_pos h

theorem settled_cons_of_other (h : (op.predicts sn || op.corrects sn) = false) :
    settled u ((v, op, answer) :: log) sn = settled v log sn := by
  rw [settled, h]
  rfl

end Settled

/-- The values of a view from the youngest branch of a queue on: each branch
saved the value that the next older one left. -/
def Chain (value : InstSeqNum → Option V) (saved : H → V) : V → List (PredictorHistory H PC) → V → Prop
  | top, [], base => top = base
  | top, record :: older, base =>
    value record.seqNum = some top ∧ Chain value saved (saved record.bpHistory) older base

variable {sn : InstSeqNum}

section Chain

variable {value value' : InstSeqNum → Option V} {saved : H → V} {top base : V}
  {queue older : List (PredictorHistory H PC)}

theorem Chain.append_iff : Chain value saved top (queue ++ older) base ↔
      ∃ middle, Chain value saved top queue middle ∧ Chain value saved middle older base := by
  induction queue generalizing top with
  | nil => simp [Chain]
  | cons record queue ih =>
    rw [cons_append, Chain, ih]
    constructor
    · rintro ⟨htop, middle, hqueue, holder⟩
      exact ⟨middle, ⟨htop, hqueue⟩, holder⟩
    · rintro ⟨middle, ⟨htop, hqueue⟩, holder⟩
      exact ⟨htop, middle, hqueue, holder⟩

theorem Chain.congr (h : Chain value saved top queue base)
    (hvalue : ∀ record ∈ queue, value' record.seqNum = value record.seqNum) : Chain value' saved top queue base := by
  induction queue generalizing top with
  | nil => exact h
  | cons record queue ih =>
    refine ⟨(hvalue record mem_cons_self).trans h.1, ih h.2 ?_⟩
    intro other hmem
    exact hvalue other (mem_cons_of_mem _ hmem)

/-- When the branches of a chain commit after earlier ones, the last branch to commit
is settled at the top of the chain. -/
theorem Chain.settled_newest (h : Chain value saved top queue base) (hqueue : Decreasing queue)
    (hearlier : ∀ sn ∈ earlier, ∀ record ∈ queue, sn < record.seqNum)
    (hbase : ∀ sn ∈ earlier, (∀ other ∈ earlier, other ≤ sn) → value sn = some base)
    (hmem : sn ∈ (queue.map PredictorHistory.seqNum).reverse ++ earlier)
    (hnewest : ∀ other ∈ (queue.map PredictorHistory.seqNum).reverse ++ earlier, other ≤ sn) : value sn = some top := by
  cases queue with
  | nil =>
    rw [show top = base from h]
    exact hbase sn hmem hnewest
  | cons newest others =>
    have hge := hnewest newest.seqNum (by simp)
    have hle : sn ≤ newest.seqNum := by
      rw [mem_append, mem_reverse, map_cons, mem_cons] at hmem
      rcases hmem with (heq | hother) | hold
      · exact Nat.le_of_eq heq
      · obtain ⟨record, hrecord, rfl⟩ := mem_map.mp hother
        exact Nat.le_of_lt ((pairwise_cons.mp hqueue).1 record hrecord)
      · exact Nat.le_of_lt (hearlier sn hold newest mem_cons_self)
    rw [Nat.le_antisymm hle hge]
    exact h.1

variable {d : DirectionPredictor S H} {tid : ThreadID} {view : S → V} {fix : V → Bool → V} {s s' : S}
  (hd : Checkpoints d tid view saved fix)
include hd

/-- Squashing the youngest branches goes down the chain. -/
theorem Chain.squash (h : Chain value saved (view s) (queue ++ older) base)
    (hloop : queue.foldlM (fun s record => d.squash s tid record.bpHistory) s = .ok s') :
    Chain value saved (view s') older base := by
  refine foldlM_induction (I := fun queue s => Chain value saved (view s) (queue ++ older) base) ?_ h hloop
  intro record later s next hchain hfirst
  rw [hd.squash hfirst]
  exact hchain.2

theorem view_of_commits
    (hloop : queue.foldlM (fun s record => d.update s tid record.pc record.predTaken record.bpHistory false) s =
      .ok s') : view s' = view s := by
  refine foldlM_induction (I := fun _ after => view after = view s) ?_ rfl hloop
  intro record later before after hbefore hcommit
  rw [hd.commit hcommit, hbefore]

end Chain

section

variable (tid : ThreadID) (view : S → V) (saved : H → V)

/-- The value of the view right after the last call that predicted or corrected
a branch. -/
def settledView (state : State p S H PC × Log p S H PC Inst) (sn : InstSeqNum) : Option V :=
  (settled state.1 state.2 sn).map fun u => view u.predictor

/-- What the checkpoints of the branches in flight say about the run so far. -/
structure Checkpointed (state : State p S H PC × Log p S H PC Inst) : Prop extends Ordered tid state where
  saved_eq : ∀ record ∈ state.1.predHist tid, ∃ call, prediction state.2 record.seqNum = some call ∧
    saved record.bpHistory = view call.1.predictor
  committed_lt : ∀ sn ∈ committed state.2, ∀ record ∈ state.1.predHist tid, sn < record.seqNum
  committed_predicted : ∀ sn ∈ committed state.2, Predicted state.2 sn
  chain : ∃ base, Chain (settledView view state) saved (view state.1.predictor) (state.1.predHist tid) base ∧
    ∀ sn ∈ committed state.2, (∀ other ∈ committed state.2, other ≤ sn) → settledView view state sn = some base

end

section

variable {d : DirectionPredictor S H} {isa : ISA PC Inst} {tid : ThreadID} {view : S → V} {saved : H → V}
  {fix : V → Bool → V} {u u' : State p S H PC} {log : Log p S H PC Inst}

theorem Checkpointed.initial (isa : ISA PC Inst) (s : S) :
    Checkpointed tid view saved ((State.initial isa p s, []) : State p S H PC × Log p S H PC Inst) where
  toOrdered := .initial isa s tid
  saved_eq := nofun
  committed_lt := nofun
  committed_predicted := nofun
  chain := ⟨view s, rfl, nofun⟩

variable {op : Op PC Inst} {answer : Answer PC}

/-- What a branch in flight saved stays what it was, unless it is predicted again. -/
theorem Checkpointed.saved_cons (h : Checkpointed tid view saved (u, log)) (hmem : record ∈ u.predHist tid)
    (hop : op.predicts record.seqNum = false) : ∃ call, prediction ((u, op, answer) :: log) record.seqNum = some call ∧
      saved record.bpHistory = view call.1.predictor := by
  obtain ⟨call, hcall, hsaved⟩ := h.saved_eq record hmem
  exact ⟨call, (prediction_cons_of_other hop).trans hcall, hsaved⟩

/-- `predict` saves the view in the record it queues. -/
theorem Checkpoints.direction (hd : Checkpoints d tid view saved fix)
    (hdirection : direction d isa u inst pc tid = .ok (taken, h, s)) : saved h = view u.predictor := by
  rcases direction_eq_ok_iff.mp hdirection with ⟨-, -, hcall⟩ | ⟨-, hcall⟩
  · exact hd.uncondBranch hcall
  · exact hd.lookup hcall

/-- The last call does not change what an earlier one settled. -/
theorem settledView_cons (h : (op.predicts sn || op.corrects sn) = false) :
    settledView view (u', (u, op, answer) :: log) sn = settledView view (u, log) sn := by
  simp only [settledView, settled_cons_of_other h]

theorem settledView_cons_self (h : (op.predicts sn || op.corrects sn) = true) :
    settledView view (u', (u, op, answer) :: log) sn = some (view u'.predictor) := by
  simp only [settledView, settled_cons_of_settles h, Option.map_some]

theorem Checkpointed.predict (hd : Checkpoints d tid view saved fix) (h : Checkpointed tid view saved (u, log))
    (hop : Fresh (u, log) (.predict inst seqNum pc))
    (hpredict : predict d isa u inst seqNum pc tid = .ok (pred_taken, target, u'))
    (hordered : Ordered tid (u', (u, .predict inst seqNum pc, .predicted pred_taken target) :: log)) :
    Checkpointed tid view saved (u', (u, .predict inst seqNum pc, .predicted pred_taken target) :: log) := by
  obtain ⟨record, s, -, heffect, -⟩ := predict_effect hpredict
  have hqueue := heffect.queue
  have hsn := heffect.record_seqNum
  have hdirection := heffect.direction
  have hself : (Op.predict inst seqNum pc).predicts record.seqNum = true := by simp [Op.predicts, hsn]
  have hother : ∀ sn, Predicted log sn → (Op.predict inst seqNum pc).predicts sn = false := by
    intro sn hpredicted
    exact beq_eq_false_iff_ne.mpr (Nat.ne_of_gt (hop.lt hpredicted))
  have hview : ∀ sn, Predicted log sn → settledView view
      (u', (u, .predict inst seqNum pc, .predicted pred_taken target) :: log) sn = settledView view (u, log) sn := by
    intro sn hpredicted
    apply settledView_cons
    rw [hother sn hpredicted]
    rfl
  obtain ⟨base, hchain, hbase⟩ := h.chain
  refine ⟨hordered, ?_, ?_, ?_, base, ?_, ?_⟩
  · rw [hqueue]
    exact forall_mem_cons.mpr ⟨⟨_, prediction_cons_of_predicts hself, hd.direction hdirection⟩,
      fun other hold => h.saved_cons hold (hother _ (h.predicted other hold))⟩
  · rw [hqueue]
    refine fun sn hmem => forall_mem_cons.mpr ⟨?_, h.committed_lt sn hmem⟩
    rw [hsn]
    exact hop.lt (h.committed_predicted sn hmem)
  · intro sn hmem
    exact (h.committed_predicted sn hmem).cons _
  · rw [hqueue]
    refine ⟨settledView_cons_self (by rw [hself]; rfl), ?_⟩
    rw [hd.direction hdirection]
    exact hchain.congr fun other hold => hview _ (h.predicted other hold)
  · intro sn hmem hnewest
    rw [hview sn (h.committed_predicted sn hmem)]
    exact hbase sn hmem hnewest

variable {squashed_sn : InstSeqNum} (hd : Checkpoints d tid view saved fix)
include hd

section

variable (h : Checkpointed tid view saved (u, log))
include h

/-- The squash of the youngest branches goes down the chain, past the branches
that have committed if it removes all the others. -/
theorem Checkpointed.chain_squash (hsquash : squash d u squashed_sn tid = .ok u') :
    ∃ base, Chain (settledView view (u, log)) saved (view u'.predictor) (u'.predHist tid) base ∧
      ∀ sn ∈ committed log, (∀ other ∈ committed log, other ≤ sn) → settledView view (u, log) sn = some base := by
  obtain ⟨base, hchain, hbase⟩ := h.chain
  obtain ⟨ras, s, -, hloop, rfl⟩ := squash_effect hsquash
  refine ⟨base, ?_, hbase⟩
  have hsplit : u.predHist tid = u.squashing squashed_sn tid ++
      (u.predHist tid).dropWhile fun record => record.seqNum > squashed_sn :=
    (takeWhile_append_dropWhile ..).symm
  simp only [Function.update_self]
  exact Chain.squash hd (hsplit ▸ hchain) hloop

theorem Checkpointed.squash (hsquash : squash d u squashed_sn tid = .ok u')
    (hordered : Ordered tid (u', (u, .squash squashed_sn, .squashed) :: log)) :
    Checkpointed tid view saved (u', (u, .squash squashed_sn, .squashed) :: log) := by
  obtain ⟨base, hchain, hbase⟩ := h.chain_squash hd hsquash
  have hsub : ∀ record ∈ u'.predHist tid, record ∈ u.predHist tid := fun _ hmem => (squash_sublist hsquash).subset hmem
  refine ⟨hordered, ?_, ?_, ?_, base, ?_, ?_⟩
  · intro record hmem
    exact h.saved_cons (hsub record hmem) rfl
  · intro sn hmem record hrecord
    exact h.committed_lt sn hmem record (hsub record hrecord)
  · intro sn hmem
    exact (h.committed_predicted sn hmem).cons _
  · exact hchain.congr fun record _ => settledView_cons rfl
  · intro sn hmem hnewest
    rw [settledView_cons rfl]
    exact hbase sn hmem hnewest

theorem Checkpointed.squashMispredicted
    (hsquash : squashMispredicted d isa u squashed_sn corrTarget actually_taken tid rand = .ok u')
    (hordered : Ordered tid
      (u', (u, .squashMispredicted squashed_sn corrTarget actually_taken rand, .squashed) :: log)) :
    Checkpointed tid view saved
      (u', (u, .squashMispredicted squashed_sn corrTarget actually_taken rand, .squashed) :: log) := by
  obtain ⟨left, hyounger, hcase⟩ := squashMispredicted_eq_ok_iff.mp hsquash
  obtain ⟨base, hchain, hbase⟩ := h.chain_squash hd hyounger
  have hself : ∀ sn, sn = squashed_sn → settledView view
      (u', (u, .squashMispredicted squashed_sn corrTarget actually_taken rand, .squashed) :: log) sn =
        some (view u'.predictor) := by
    rintro sn rfl
    exact settledView_cons_self (by simp [Op.predicts, Op.corrects])
  have hother : ∀ sn, sn ≠ squashed_sn → settledView view
      (u', (u, .squashMispredicted squashed_sn corrTarget actually_taken rand, .squashed) :: log) sn =
        settledView view (u, log) sn := by
    intro sn hne
    exact settledView_cons (by simp [Op.predicts, Op.corrects, hne.symm])
  have hleft : ∀ record ∈ left.predHist tid, record ∈ u.predHist tid :=
    fun _ hmem => (squash_sublist hyounger).subset hmem
  rcases hcase with ⟨hempty, rfl⟩ | ⟨front, older, front', fixed, hqueue, hsn, hfix, rfl⟩
  · rw [hempty] at hchain
    refine ⟨hordered, ?_, ?_, ?_, base, ?_, ?_⟩
    · rw [hempty]
      exact fun record hmem => absurd hmem not_mem_nil
    · rw [hempty]
      exact fun sn _ record hmem => absurd hmem not_mem_nil
    · intro sn hmem
      exact (h.committed_predicted sn hmem).cons _
    · rw [hempty]
      exact hchain
    · intro sn hmem hnewest
      by_cases heq : sn = squashed_sn
      · rw [hself sn heq, ← hchain]
      · rw [hother sn heq]
        exact hbase sn hmem hnewest
  · obtain ⟨hkept, hupdate, -⟩ := correctFront_spec hfix
    rw [hqueue] at hchain hleft
    have hsn' : front'.seqNum = squashed_sn := hkept.seqNum.trans hsn
    have hhistory : front'.bpHistory = front.bpHistory := hkept.bpHistory
    have hfixed : (fixed.setPredHist tid (front' :: older)).predHist tid = front' :: older := State.setPredHist_self ..
    have holder : ∀ record ∈ older, record.seqNum < squashed_sn := by
      have hdecreasing := hordered.decreasing
      rw [hfixed] at hdecreasing
      rw [← hsn']
      exact (pairwise_cons.mp hdecreasing).1
    have hfront := hleft front mem_cons_self
    refine ⟨hordered, ?_, ?_, ?_, base, ?_, ?_⟩
    · rw [hfixed]
      refine forall_mem_cons.mpr ⟨?_, fun record hold => h.saved_cons (hleft record (mem_cons_of_mem _ hold)) rfl⟩
      rw [hsn', ← hsn, hhistory]
      exact h.saved_cons hfront rfl
    · rw [hfixed]
      refine fun sn hmem => forall_mem_cons.mpr
        ⟨?_, fun record hold => h.committed_lt sn hmem record (hleft record (mem_cons_of_mem _ hold))⟩
      rw [hsn', ← hsn]
      exact h.committed_lt sn hmem front hfront
    · intro sn hmem
      exact (h.committed_predicted sn hmem).cons _
    · rw [hfixed]
      refine ⟨hself _ hsn', ?_⟩
      rw [hhistory]
      exact hchain.2.congr fun record hold => hother _ (Nat.ne_of_lt (holder record hold))
    · intro sn hmem hnewest
      rw [hother sn (Nat.ne_of_lt (hsn ▸ h.committed_lt sn hmem front hfront))]
      exact hbase sn hmem hnewest

end

theorem Checkpoints.view_update (hupdate : update d u done_sn tid = .ok (calls, u')) :
    view u'.predictor = view u.predictor := by
  obtain ⟨s, hloop, rfl⟩ := update_effect hupdate
  exact view_of_commits hd hloop

theorem Checkpointed.update (h : Checkpointed tid view saved (u, log))
    (hupdate : update d u done_sn tid = .ok (calls, u'))
    (hordered : Ordered tid (u', (u, .update done_sn, .committed calls) :: log)) :
    Checkpointed tid view saved (u', (u, .update done_sn, .committed calls) :: log) := by
  obtain ⟨hcalls, hhist⟩ := update_spec hupdate
  obtain ⟨base, hchain, hbase⟩ := h.chain
  obtain ⟨young, hqueue⟩ : ∃ young, u'.predHist tid = young := ⟨_, rfl⟩
  have hsplit : u.predHist tid = young ++ (u.committing done_sn tid).reverse := by
    rw [← hqueue, hhist, Function.update_self, ← reverse_append, State.committing,
      takeWhile_append_dropWhile, reverse_reverse]
  have hyoung : ∀ record ∈ young, record ∈ u.predHist tid := by
    rw [hsplit]
    exact fun record hmem => mem_append_left _ hmem
  have hold : ∀ record ∈ u.committing done_sn tid, record ∈ u.predHist tid := by
    rw [hsplit]
    exact fun record hmem => mem_append_right _ (mem_reverse.mpr hmem)
  have hcommitted : committed ((u, .update done_sn, .committed calls) :: log) =
      (u.committing done_sn tid).map PredictorHistory.seqNum ++ committed log := by
    rw [committed_cons, hcalls, map_map]
    rfl
  have hdecreasing : Decreasing (young ++ (u.committing done_sn tid).reverse) := hsplit ▸ h.decreasing
  obtain ⟨-, holdOrder, hlt⟩ := pairwise_append.mp hdecreasing
  rw [hsplit, Chain.append_iff] at hchain
  obtain ⟨middle, htop, hrest⟩ := hchain
  refine ⟨hordered, ?_, ?_, ?_, middle, ?_, ?_⟩
  · rw [hqueue]
    intro record hmem
    exact h.saved_cons (hyoung record hmem) rfl
  · rw [hqueue, hcommitted]
    intro sn hmem record hrecord
    rcases mem_append.mp hmem with hnew | hearlier
    · obtain ⟨done, hdone, rfl⟩ := mem_map.mp hnew
      exact hlt record hrecord done (mem_reverse.mpr hdone)
    · exact h.committed_lt sn hearlier record (hyoung record hrecord)
  · rw [hcommitted]
    intro sn hmem
    rcases mem_append.mp hmem with hnew | hearlier
    · obtain ⟨done, hdone, rfl⟩ := mem_map.mp hnew
      exact (h.predicted done (hold done hdone)).cons _
    · exact (h.committed_predicted sn hearlier).cons _
  · rw [hqueue, hd.view_update hupdate]
    exact htop.congr fun record _ => settledView_cons rfl
  · rw [hcommitted]
    intro sn hmem hnewest
    rw [settledView_cons rfl]
    have hearlier : ∀ sn ∈ committed log, ∀ record ∈ (u.committing done_sn tid).reverse, sn < record.seqNum :=
      fun sn hmem record hrecord => h.committed_lt sn hmem record (hold record (mem_reverse.mp hrecord))
    rw [← reverse_reverse (u.committing done_sn tid), map_reverse] at hmem hnewest
    exact hrest.settled_newest holdOrder hearlier hbase hmem hnewest

theorem Checkpointed.step (h : Checkpointed tid view saved state)
    (hop : Fresh state op) (hstep : (machine d isa p tid).logged.step state op = .ok (answer, state')) :
    Checkpointed tid view saved state' := by
  have hordered := h.toOrdered.step hop hstep
  obtain ⟨u, log⟩ := state
  obtain ⟨u', hcall, rfl⟩ := Machine.logged_step_eq_ok_iff.mp hstep
  cases step_iff.mp hcall with
  | predict hpredict => exact h.predict hd hop hpredict hordered
  | update hupdate => exact h.update hd hupdate hordered
  | squash hsquash => exact h.squash hd hsquash hordered
  | squashMispredicted hsquash => exact h.squashMispredicted hd hsquash hordered

/-- A branch on the path of the thread, with no younger branch committed: it is
in flight, or it committed last. -/
def Squashable (tid : ThreadID) (state : State p S H PC × Log p S H PC Inst) (sn : InstSeqNum) : Prop :=
  (∃ record ∈ state.1.predHist tid, record.seqNum = sn) ∨
    sn ∈ committed state.2 ∧ ∀ other ∈ committed state.2, other ≤ sn

variable (h : Checkpointed tid view saved (u, log))
include h

/-- A squash takes the view back to where the last call that predicted or
corrected its branch left it. -/
theorem Checkpointed.view_squash (hsn : Squashable tid (u, log) sn) (hsquash : BPredUnit.squash d u sn tid = .ok w) :
    settledView view (u, log) sn = some (view w.predictor) := by
  obtain ⟨base, hchain, hbase⟩ := h.chain_squash hd hsquash
  rcases hsn with ⟨record, hmem, rfl⟩ | ⟨hmem, hnewest⟩
  · obtain ⟨older, hleft⟩ := h.front_of_squash hmem hsquash
    rw [hleft] at hchain
    exact hchain.1
  have hall : w.predHist tid = [] := by
    rw [h.predHist_squash hsquash, filter_eq_nil_iff]
    intro record hrecord
    rw [decide_eq_true_eq, Nat.not_le]
    exact h.committed_lt sn hmem record hrecord
  rw [hall] at hchain
  rw [hbase sn hmem hnewest, show view w.predictor = base from hchain]

/-- The correction of a branch in flight replaces the direction in the view from
before the branch. -/
theorem Checkpointed.view_correct (hmem : record ∈ u.predHist tid)
    (hsquash : BPredUnit.squashMispredicted d isa u record.seqNum corrTarget actually_taken tid rand = .ok w) :
    ∃ call, prediction log record.seqNum = some call ∧
      view w.predictor = fix (view call.1.predictor) actually_taken := by
  obtain ⟨left, front', older, fixed, -, hfix, rfl⟩ := h.corrects_front hmem hsquash
  obtain ⟨call, hcall, hsaved⟩ := h.saved_eq record hmem
  refine ⟨call, hcall, ?_⟩
  rw [← hsaved]
  exact hd.correct (correctFront_spec hfix).2.1

end

end Gem5.BPredUnit
