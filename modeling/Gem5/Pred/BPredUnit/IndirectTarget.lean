import Gem5.Pred.BPredUnit.Order
import Gem5.Pred.Indirect.Path
import Gem5.Pred.Tournament.Model

open Lib Result List

namespace Gem5.BPredUnit

open IndirectPredictor (Recorded lookup recordTarget HistoryEntry recordKey lookupKey Searches Writes)

variable {S H PC Inst : Type} {p : Params}

/-- The path history of a thread. -/
abbrev State.pathHist (u : State p S H PC) (tid : ThreadID) : List HistoryEntry :=
  (u.iPred.threadInfo tid).pathHist

section

variable (d : DirectionPredictor S H) (isa : ISA PC Inst) (tid : ThreadID)

/-- What is left of the lookup that predicted an indirect branch: the log has
the call and the path has the window it was made with. -/
def LookedUp (log : Log p S H PC Inst) (pathHist : List HistoryEntry) (record : PredictorHistory H PC) : Prop :=
  ∃ v inst pc answer s found,
    prediction log record.seqNum = some (v, .predict inst record.seqNum pc, answer) ∧
    (∃ taken, direction d isa v inst pc tid = .ok (taken, record.bpHistory, s)) ∧
    (do lookup p.iPred v.iPred (isa.instAddr pc) (← d.getGHR s tid record.bpHistory) tid) = .ok found ∧
    Recorded p.iPred pathHist (isa.instAddr pc) record.seqNum
      (IndirectPredictor.window p.iPred (v.pathHist tid))

/-- The path of the thread is in order, its entries are those of predicted
branches, and it serves every indirect branch in flight. -/
structure OnPath (state : State p S H PC × Log p S H PC Inst) : Prop extends Ordered tid state where
  inOrder : IndirectPredictor.InOrder (state.1.pathHist tid)
  entries : ∀ entry ∈ state.1.pathHist tid, Predicted state.2 entry.seqNum
  lookedUp : ∀ record ∈ state.1.predHist tid, record.wasIndirect = true →
    LookedUp d isa tid state.2 (state.1.pathHist tid) record

end

section

variable {d : DirectionPredictor S H} {isa : ISA PC Inst} {tid : ThreadID} {u u' : State p S H PC}
  {log : Log p S H PC Inst}

theorem OnPath.initial (isa : ISA PC Inst) (s : S) :
    OnPath d isa tid ((State.initial isa p s, []) : State p S H PC × Log p S H PC Inst) :=
  ⟨.initial isa s tid, List.Pairwise.nil, nofun, nofun⟩

section

variable {pathHist : List HistoryEntry} {record : PredictorHistory H PC}
  (h : LookedUp d isa tid log pathHist record)

include h

theorem LookedUp.cons (hcall : call.2.1.predicts record.seqNum = false) :
    LookedUp d isa tid (call :: log) pathHist record := by
  obtain ⟨v, inst, pc, answer, s, found, hprediction, hlookup⟩ := h
  refine ⟨v, inst, pc, answer, s, found, ?_, hlookup⟩
  rw [prediction_cons_of_other hcall, hprediction]

theorem LookedUp.path (hpath : ∀ {br_addr hashed}, Recorded p.iPred pathHist br_addr record.seqNum hashed →
      Recorded p.iPred pathHist' br_addr record.seqNum hashed) : LookedUp d isa tid log pathHist' record := by
  obtain ⟨v, inst, pc, answer, s, found, hprediction, hdirection, hfound, hrecorded⟩ := h
  exact ⟨v, inst, pc, answer, s, found, hprediction, hdirection, hfound, hpath hrecorded⟩

/-- Only the number and the history object of a record say how it was looked
up. -/
theorem LookedUp.of_record (hsn : record'.seqNum = record.seqNum) (hhistory : record'.bpHistory = record.bpHistory) :
    LookedUp d isa tid log pathHist record' := by
  unfold LookedUp at h ⊢
  rw [hsn, hhistory]
  exact h

end

theorem PathMove.threadInfo {ipred ipred' : IndirectPredictor.State q PC} {record : PredictorHistory H PC}
    (h : PathMove isa pc tid ghr ipred record ipred') :
    record.wasIndirect = false ∧ ipred'.threadInfo tid = ipred.threadInfo tid ∨ record.wasIndirect = true ∧
        (∃ found, (do lookup q ipred (isa.instAddr pc) (← ghr) tid) = .ok found) ∧
        ∃ targetAddr, ipred'.threadInfo tid = { ipred.threadInfo tid with
          pathHist := (ipred.threadInfo tid).pathHist ++ [⟨isa.instAddr pc, targetAddr, record.seqNum⟩] } := by
  cases h with
  | untouched hindirect => exact .inl ⟨hindirect, rfl⟩
  | recorded hindirect found hfound target =>
    refine .inr ⟨hindirect, ⟨found, hfound⟩, isa.instAddr target, ?_⟩
    simp only [IndirectPredictor.recordIndirect, IndirectPredictor.State.setThreadInfo, Function.update_self]

section

variable (h : OnPath d isa tid (u, log))
include h

theorem OnPath.predict (hop : Fresh (u, log) (.predict inst seqNum pc))
    (hpredict : predict d isa u inst seqNum pc tid = .ok (pred_taken, target, u'))
    (hordered : Ordered tid (u', (u, .predict inst seqNum pc, .predicted pred_taken target) :: log)) :
    OnPath d isa tid (u', (u, .predict inst seqNum pc, .predicted pred_taken target) :: log) := by
  obtain ⟨record, s, -, heffect, -⟩ := predict_effect hpredict
  have hpredicts : (Op.predict inst seqNum pc).predicts record.seqNum = true := by
    simp [Op.predicts, heffect.record_seqNum]
  have hother : ∀ other ∈ u.predHist tid, (Op.predict inst seqNum pc).predicts other.seqNum = false := by
    intro other hmem
    exact beq_eq_false_iff_ne.mpr (Nat.ne_of_gt (h.lt_fresh hop other hmem))
  rcases heffect.iPred.threadInfo with ⟨hindirect, hpath⟩ | ⟨-, ⟨found, hfound⟩, targetAddr, hpath⟩
  · refine ⟨hordered, ?_, ?_, ?_⟩
    · rw [State.pathHist, hpath]
      exact h.inOrder
    · rw [State.pathHist, hpath]
      intro entry hmem
      exact (h.entries entry hmem).cons _
    · rw [heffect.queue, State.pathHist, hpath]
      intro other hmem hwas
      rcases mem_cons.mp hmem with rfl | hold
      · rw [hindirect] at hwas
        cases hwas
      · exact (h.lookedUp other hold hwas).cons (hother other hold)
  · refine ⟨hordered, ?_, ?_, ?_⟩
    · rw [State.pathHist, hpath]
      refine pairwise_append.mpr ⟨h.inOrder, pairwise_singleton .., ?_⟩
      intro entry hmem newest hnewest
      rw [mem_singleton.mp hnewest, heffect.record_seqNum]
      exact hop.lt (h.entries entry hmem)
    · rw [State.pathHist, hpath]
      exact forall_mem_append.mpr
        ⟨fun entry hold => (h.entries entry hold).cons _, forall_mem_singleton.mpr ⟨_, mem_cons_self, hpredicts⟩⟩
    · rw [heffect.queue, State.pathHist, hpath]
      intro other hmem hwas
      rcases mem_cons.mp hmem with rfl | hold
      · refine ⟨u, inst, pc, .predicted pred_taken target, s, found, ?_, ⟨_, heffect.direction⟩, hfound, ?_⟩
        · rw [prediction_cons_of_predicts hpredicts, heffect.record_seqNum]
        · exact ⟨u.pathHist tid, _, [], rfl, rfl, rfl, rfl⟩
      · exact ((h.lookedUp other hold hwas).cons (hother other hold)).path fun hrecorded => hrecorded.append _

/-- Calls that only take branches out of the queue, and entries out of the path
that no branch left in flight needs. -/
theorem OnPath.sublist (hcall : ∀ sn, call.2.1.predicts sn = false)
    (hordered : Ordered tid (u', call :: log)) (hpath : (u'.pathHist tid).Sublist (u.pathHist tid))
    (hleft : ∀ record ∈ u'.predHist tid, record ∈ u.predHist tid ∧ ∀ {br_addr hashed},
      Recorded p.iPred (u.pathHist tid) br_addr record.seqNum hashed →
        Recorded p.iPred (u'.pathHist tid) br_addr record.seqNum hashed) : OnPath d isa tid (u', call :: log) := by
  refine ⟨hordered, h.inOrder.sublist hpath, ?_, ?_⟩
  · intro entry hmem
    exact (h.entries entry (hpath.subset hmem)).cons _
  · intro record hmem hwas
    obtain ⟨hold, hrecorded⟩ := hleft record hmem
    exact ((h.lookedUp record hold hwas).cons (hcall _)).path hrecorded

/-- Commits keep the window of every branch that stays in flight. -/
theorem OnPath.update (call : State p S H PC × Op PC Inst × Answer PC)
    (hcall : ∀ sn, call.2.1.predicts sn = false) (hupdate : update d u done_sn tid = .ok (calls, u'))
    (hordered : Ordered tid (u', call :: log)) : OnPath d isa tid (u', call :: log) := by
  obtain ⟨s, -, hu'⟩ := update_effect hupdate
  have hiPred : u'.iPred = IndirectPredictor.commit p.iPred u.iPred done_sn tid := by rw [hu']
  have hyounger : ∀ record ∈ u'.predHist tid, record ∈ u.predHist tid ∧ done_sn < record.seqNum := by
    rw [h.predHist_update hupdate]
    intro record hmem
    simpa using hmem
  rcases IndirectPredictor.commit_pathHist u.iPred done_sn tid with
    hpath | ⟨hpath, position, head, hlength, hhead, hdone⟩
  · rw [← hiPred] at hpath
    refine h.sublist hcall hordered (by rw [State.pathHist, hpath]) fun record hmem => ⟨(hyounger record hmem).1, ?_⟩
    rw [State.pathHist, State.pathHist, hpath]
    exact id
  rw [← hiPred] at hpath
  change u'.pathHist tid = _ at hpath
  apply h.sublist hcall hordered <;> rw [hpath]
  · exact tail_sublist _
  · intro record hmem
    obtain ⟨hold, hlt⟩ := hyounger record hmem
    exact ⟨hold, fun hrecorded => hrecorded.tail h.inOrder hlength hhead (Nat.lt_of_le_of_lt hdone hlt)⟩

theorem OnPath.squash (call : State p S H PC × Op PC Inst × Answer PC)
    (hcall : ∀ sn, call.2.1.predicts sn = false) (hsquash : squash d u squashed_sn tid = .ok u')
    (hordered : Ordered tid (u', call :: log)) :
    OnPath d isa tid (u', call :: log) ∧ ∀ entry ∈ u'.pathHist tid, entry.seqNum ≤ squashed_sn := by
  obtain ⟨ras, s, -, -, hu'⟩ := squash_effect hsquash
  have hpath : u'.pathHist tid = (u.pathHist tid).takeWhile fun entry => entry.seqNum ≤ squashed_sn := by
    rw [hu']
    simp only [State.pathHist, IndirectPredictor.squash, IndirectPredictor.State.setThreadInfo, Function.update_self]
  have holder : ∀ record ∈ u'.predHist tid, record ∈ u.predHist tid ∧ record.seqNum ≤ squashed_sn := by
    rw [h.predHist_squash hsquash]
    intro record hmem
    simpa using hmem
  constructor
  · apply h.sublist hcall hordered <;> rw [hpath]
    · exact takeWhile_sublist _
    · intro record hmem
      obtain ⟨hold, hle⟩ := holder record hmem
      exact ⟨hold, fun hrecorded => hrecorded.takeWhile h.inOrder hle⟩
  · rw [hpath]
    intro entry hmem
    exact of_decide_eq_true (all_eq_true.mp all_takeWhile entry hmem)

end

/-- Recording the target of the newest entry. -/
theorem OnPath.retarget (h : OnPath d isa tid (left, log)) (hleft : left.predHist tid = front :: older)
    (hfix : correctFront d isa left front corrTarget actually_taken tid rand = .ok (front', u'))
    (hordered : Ordered tid (u'.setPredHist tid (front' :: older), log)) :
    OnPath d isa tid (u'.setPredHist tid (front' :: older), log) := by
  obtain ⟨hkept, -, hwas', ghr, -, hiPred⟩ := correctFront_spec hfix
  -- The branches left in flight are the same ones.
  have hlookedUp : ∀ record ∈ front' :: older, record.wasIndirect = true →
      LookedUp d isa tid log (left.pathHist tid) record := by
    intro record hmem hwas
    rcases mem_cons.mp hmem with rfl | hold
    · rw [hwas'] at hwas
      exact (h.lookedUp front (hleft ▸ mem_cons_self) hwas).of_record hkept.seqNum hkept.bpHistory
    · exact h.lookedUp record (hleft ▸ mem_cons_of_mem _ hold) hwas
  by_cases hrecords : (actually_taken && front.wasIndirect) = true
  · rw [if_pos hrecords] at hiPred
    obtain ⟨newest, set_index, tag, iset, iset', hlast, -, -, -, -, hpath⟩ :=
      IndirectPredictor.recordTarget_spec hiPred
    refine ⟨hordered, ?_, ?_, ?_⟩
    · rw [State.pathHist, State.setPredHist, hpath]
      exact h.inOrder.retarget hlast _
    · rw [State.pathHist, State.setPredHist, hpath]
      exact forall_mem_append.mpr ⟨fun entry hold => h.entries entry ((dropLast_sublist _).subset hold),
        forall_mem_singleton.mpr (h.entries newest (mem_of_getLast? hlast))⟩
    · rw [State.setPredHist_self, State.pathHist, State.setPredHist, hpath]
      intro record hmem hwas
      exact (hlookedUp record hmem hwas).path fun hrecorded => hrecorded.retarget hlast _
  · rw [if_neg hrecords] at hiPred
    refine ⟨hordered, ?_, ?_, ?_⟩
    · rw [State.pathHist, State.setPredHist, hiPred]
      exact h.inOrder
    · rw [State.pathHist, State.setPredHist, hiPred]
      exact h.entries
    · rw [State.setPredHist_self, State.pathHist, State.setPredHist, hiPred]
      exact hlookedUp

theorem OnPath.step (h : OnPath d isa tid state) (hop : Fresh state op)
    (hstep : (machine d isa p tid).logged.step state op = .ok (answer, state')) : OnPath d isa tid state' := by
  have hordered := h.toOrdered.step hop hstep
  obtain ⟨u, log⟩ := state
  obtain ⟨u', hcall, rfl⟩ := Machine.logged_step_eq_ok_iff.mp hstep
  cases step_iff.mp hcall with
  | predict hpredict => exact h.predict hop hpredict hordered
  | update hupdate => exact h.update _ (fun _ => rfl) hupdate hordered
  | squash hsquash => exact (h.squash _ (fun _ => rfl) hsquash hordered).1
  | @squashMispredicted squashed_sn corrTarget actually_taken rand hsquash =>
    obtain ⟨left, hleft, hcase⟩ := squashMispredicted_eq_ok_iff.mp hsquash
    let call : State p S H PC × Op PC Inst × Answer PC :=
      (u, .squashMispredicted squashed_sn corrTarget actually_taken rand, .squashed)
    have hpath := (h.squash call (fun _ => rfl) hleft (h.toOrdered.squash call hleft)).1
    rcases hcase with ⟨-, rfl⟩ | ⟨front, older, front', fixed, hfront, -, hfix, rfl⟩
    · exact hpath
    · exact hpath.retarget hfront hfix hordered

/-- The newest path entry after a squash to an indirect branch is its own, and
the key of its target is the one it was looked up with. -/
theorem OnPath.recordKey (h : OnPath d isa tid (u, log)) (hmem : record ∈ u.predHist tid)
    (hindirect : record.wasIndirect = true) (hleft : BPredUnit.squash d u record.seqNum tid = .ok left)
    (hghr : ∀ s, d.getGHR s tid record.bpHistory = .ok ghr) :
    (∃ hist_entry, (left.pathHist tid).getLast? = some hist_entry ∧ hist_entry.seqNum = record.seqNum) ∧
      ∃ v inst pc answer s found key,
        prediction log record.seqNum = some (v, .predict inst record.seqNum pc, answer) ∧
        (∃ taken, direction d isa v inst pc tid = .ok (taken, record.bpHistory, s)) ∧
        lookup p.iPred v.iPred (isa.instAddr pc) ghr tid = .ok found ∧
        lookupKey p.iPred v.iPred (isa.instAddr pc) ghr tid = .ok key ∧ Searches v.iPred key found ∧
        recordKey p.iPred left.iPred ghr tid = .ok key := by
  let call : State p S H PC × Op PC Inst × Answer PC := (u, .squash record.seqNum, .squashed)
  obtain ⟨hpath, hsquashed⟩ := h.squash call (fun _ => rfl) hleft (h.toOrdered.squash call hleft)
  have hqueued : record ∈ left.predHist tid := by
    obtain ⟨older, hqueue⟩ := h.front_of_squash hmem hleft
    rw [hqueue]
    exact mem_cons_self
  obtain ⟨v, inst, pc, answer, s, found, hprediction, hdirection, hfound, hrecorded⟩ :=
    hpath.lookedUp record hqueued hindirect
  obtain ⟨hist_entry, hlast, hpc, hsn, hwindow⟩ := hrecorded.newest hpath.inOrder hsquashed
  rw [hghr] at hfound
  obtain ⟨key, hkey, hsearches⟩ := IndirectPredictor.lookup_searches hfound
  refine ⟨⟨hist_entry, hlast, hsn⟩, v, inst, pc, answer, s, found, key, hprediction, hdirection, hfound, hkey,
    hsearches, ?_⟩
  rw [IndirectPredictor.recordKey_eq_lookupKey hlast hwindow, hpc, hkey]

/-- The call that a mispredict squash of a taken indirect branch makes. -/
theorem Ordered.recordTarget (h : Ordered tid (u, log)) (hmem : record ∈ u.predHist tid)
    (hindirect : record.wasIndirect = true) (hleft : BPredUnit.squash d u record.seqNum tid = .ok left)
    (hghr : ∀ s, d.getGHR s tid record.bpHistory = .ok ghr)
    (hsquash : squashMispredicted d isa u record.seqNum corrTarget true tid rand = .ok u') :
    recordTarget isa p.iPred left.iPred ghr corrTarget tid rand = .ok u'.iPred := by
  obtain ⟨left', front', older, fixed, hleft', hfix, rfl⟩ := h.corrects_front hmem hsquash
  obtain rfl := Except.ok.inj (hleft.symm.trans hleft')
  obtain ⟨-, -, -, _, hsaved, hiPred⟩ := correctFront_spec hfix
  obtain rfl := Except.ok.inj ((hghr _).symm.trans hsaved)
  rw [hindirect] at hiPred
  exact hiPred

end

/-- In every run of the unit on one thread whose direction predictor returns the
global history of the history object: when a mispredict squash of an indirect
branch in flight records its target, the newest path entry is the one of the
branch, and the target is written to the set and under the tag that the lookup
of the branch searched. -/
theorem indirect_target_recorded_where_looked_up (d : DirectionPredictor S H) (isa : ISA PC Inst) (p : Params)
    (tid : ThreadID) (s : S) (u : State p S H PC) (hu : construct isa p s = .ok u) (saved : H → Unsigned)
    (hghr : ∀ s bp_history, d.getGHR s tid bp_history = .ok (saved bp_history)) (ops : List (Op PC Inst))
    (answers : List (Answer PC)) (v : State p S H PC) (log : Log p S H PC Inst)
    (hrun : (machine d isa p tid).logged.run (u, []) ops = .ok (answers, (v, log)))
    (hops : (machine d isa p tid).logged.StepsAll Fresh (u, []) ops)
    (record : PredictorHistory H PC) (hmem : record ∈ v.predHist tid) (hindirect : record.wasIndirect = true)
    (left : State p S H PC) (hleft : squash d v record.seqNum tid = .ok left) :
    (∃ hist_entry, (left.pathHist tid).getLast? = some hist_entry ∧ hist_entry.seqNum = record.seqNum) ∧
    ∃ before inst pc answer s found key,
      prediction log record.seqNum = some (before, .predict inst record.seqNum pc, answer) ∧
      (∃ taken, direction d isa before inst pc tid = .ok (taken, record.bpHistory, s)) ∧
      lookup p.iPred before.iPred (isa.instAddr pc) (saved record.bpHistory) tid = .ok found ∧
      lookupKey p.iPred before.iPred (isa.instAddr pc) (saved record.bpHistory) tid = .ok key ∧
      Searches before.iPred key found ∧ recordKey p.iPred left.iPred (saved record.bpHistory) tid = .ok key ∧
      ∀ corrTarget rand w, squashMispredicted d isa v record.seqNum corrTarget true tid rand = .ok w →
        recordTarget isa p.iPred left.iPred (saved record.bpHistory) corrTarget tid rand = .ok w.iPred ∧
        Writes left.iPred w.iPred key corrTarget := by
  obtain ⟨-, -, rfl⟩ := construct_eq_ok_iff.mp hu
  have hpath : OnPath d isa tid (v, log) := by
    refine Machine.run_invariant ?_ (.initial isa s) hops hrun
    intro state op answer state' h hop hstep
    exact h.step hop hstep
  have hsaved : ∀ s, d.getGHR s tid record.bpHistory = .ok (saved record.bpHistory) :=
    fun s => hghr s record.bpHistory
  obtain ⟨hnewest, before, inst, pc, answer, s, found, key, hprediction, hdirection, hfound, hkey, hsearches,
    hrecord⟩ := hpath.recordKey hmem hindirect hleft hsaved
  refine ⟨hnewest, before, inst, pc, answer, s, found, key, hprediction, hdirection, hfound, hkey, hsearches,
    hrecord, ?_⟩
  intro corrTarget rand w hsquash
  have hcall := hpath.toOrdered.recordTarget hmem hindirect hleft hsaved hsquash
  exact ⟨hcall, IndirectPredictor.recordTarget_writes hcall hrecord⟩

/-- An unconditional jump through a register. -/
def indirectJump : StaticInst := ⟨true, false, false, false⟩

/-- Three indirect jumps, of which the first two commit. -/
def threeJumps : List (Op SimplePCState StaticInst) :=
  [.predict indirectJump 1 (.set 0), .predict indirectJump 2 (.set 64), .predict indirectJump 3 (.set 8),
  .update 1, .update 2]

/-- The second of two commits drops the oldest entry of the path, which is not
in the window of the third branch. -/
theorem indirect_target_recorded_after_commits : ∃ answers v log record left w,
      (machine (TournamentBP.predictor TournamentBP.smallParams) alpha smallParams 0).logged.run
        (.initial alpha smallParams (.initial TournamentBP.smallParams), []) threeJumps = .ok (answers, (v, log)) ∧
      record ∈ v.predHist 0 ∧ record.wasIndirect = true ∧
      squash (TournamentBP.predictor TournamentBP.smallParams) v record.seqNum 0 = .ok left ∧
      squashMispredicted (TournamentBP.predictor TournamentBP.smallParams) alpha v record.seqNum (.set 96) true 0 0 =
        .ok w ∧ (left.pathHist 0).map HistoryEntry.seqNum = [2, 3] ∧ ∃ before inst pc answer found key,
        prediction log record.seqNum = some (before, .predict inst record.seqNum pc, answer) ∧
        (before.pathHist 0).map HistoryEntry.seqNum = [1, 2] ∧
        lookupKey smallParams.iPred before.iPred (alpha.instAddr pc) record.bpHistory.globalHistory 0 = .ok key ∧
        Searches before.iPred key found ∧ Writes left.iPred w.iPred key (.set 96) := by
  have hsummary : ((machine (TournamentBP.predictor TournamentBP.smallParams) alpha smallParams 0).logged.run
        (.initial alpha smallParams (.initial TournamentBP.smallParams), []) threeJumps).map (fun final =>
      ((final.2.1.predHist 0).map fun record => (record.seqNum, record.wasIndirect),
        (prediction final.2.2 3).map fun call => (call.1.pathHist 0).map (·.seqNum),
        (squash (TournamentBP.predictor TournamentBP.smallParams) final.2.1 3 0).map fun left =>
          (left.pathHist 0).map (·.seqNum),
        (squashMispredicted (TournamentBP.predictor TournamentBP.smallParams) alpha final.2.1 3 (.set 96) true 0 0).map
          fun _ => ())) = .ok ([(3, true)], some [1, 2], .ok [2, 3], .ok ()) := by
    decide +kernel
  obtain ⟨⟨answers, v, log⟩, hrun, hfinal⟩ := map_ok hsummary
  simp only [Prod.mk.injEq] at hfinal
  obtain ⟨hqueue, hbefore, hsquash, hmispredict⟩ := hfinal
  obtain ⟨left, hleft, hpath⟩ := map_ok hsquash
  obtain ⟨w, hw, -⟩ := map_ok hmispredict
  obtain ⟨record, hrecord, hflags⟩ := map_eq_singleton_iff.mp hqueue
  obtain ⟨hsn, hindirect⟩ := Prod.mk.inj hflags
  rw [← hsn] at hleft hbefore hw
  have hmem : record ∈ v.predHist 0 := hrecord ▸ mem_singleton_self record
  obtain ⟨-, before, inst, pc, answer, s, found, key, hprediction, -, -, hkey, hsearches, -, hwrites⟩ :=
    indirect_target_recorded_where_looked_up _ alpha smallParams 0 _ _ rfl (fun history => history.globalHistory)
      (fun _ _ => rfl) _ answers v log hrun (stepsAll_fresh nofun (by decide)) record hmem hindirect left hleft
  rw [hprediction, Option.map_some, Option.some.injEq] at hbefore
  exact ⟨answers, v, log, record, left, w, hrun, hmem, hindirect, hleft, hw, hpath, before, inst, pc, answer, found,
    key, hprediction, hbefore, hkey, hsearches, (hwrites _ _ _ hw).2⟩

end Gem5.BPredUnit
