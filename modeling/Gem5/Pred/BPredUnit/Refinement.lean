import Gem5.Pred.BPredUnit.Retire
import Gem5.Pred.InFlight.Calls
import Gem5.Pred.Tournament.Model

open Lib Result List

namespace Gem5.BPredUnit

variable {S H PC Inst : Type} {p : Params}

/-- What a record and a branch in flight have in common: the address and the
history object. -/
def PredictorHistory.key (record : PredictorHistory H PC) : Addr × H := (record.pc, record.bpHistory)

/-- The queue of a thread of the unit, seen as the branches in flight. -/
structure Abstracts (queue : List (PredictorHistory H PC)) (s : S) (m : InFlight.State S H) : Prop where
  predictor : m.predictor = s
  inflight : m.inflight.map (fun b => (b.pc, b.history)) = queue.map PredictorHistory.key

variable {s : S} {u : State p S H PC}

section

variable {d : DirectionPredictor S H} {isa : ISA PC Inst} {tid : ThreadID}

variable {m : InFlight.State S H}

/-- The youngest branch of a queue that is not empty. -/
theorem Abstracts.youngest (h : Abstracts (front :: older) s m) :
    ∃ b rest, m.inflight = b :: rest ∧ b.pc = front.pc ∧ b.history = front.bpHistory ∧
      rest.map (fun b => (b.pc, b.history)) = older.map PredictorHistory.key := by
  have hinflight := h.inflight
  rw [map_cons, map_eq_cons_iff] at hinflight
  obtain ⟨b, rest, hcons, hb, hrest⟩ := hinflight
  obtain ⟨hpc, hhistory⟩ := Prod.mk.inj hb
  exact ⟨b, rest, hcons, hpc, hhistory, hrest⟩

variable {queue : List (PredictorHistory H PC)}

/-- The start of `predict` adds a branch. -/
theorem Abstracts.direction (h : Abstracts queue u.predictor m) (hpc : record.pc = isa.instAddr pc)
    (hdirection : direction d isa u inst pc tid = .ok (record.predTaken, record.bpHistory, s)) :
    ∃ m', (InFlight.machine d tid).Reaches m m' ∧ Abstracts (record :: queue) s m' := by
  have hinflight := h.inflight
  rw [direction_eq_ok_iff, ← h.predictor, ← hpc] at hdirection
  rcases hdirection with ⟨-, -, hcall⟩ | ⟨-, hcall⟩
  · refine ⟨_, .step .start (InFlight.step_iff.mpr (.uncondBranch hcall)), rfl, ?_⟩
    rw [map_cons, map_cons, hinflight]
    rfl
  · refine ⟨_, .step .start (InFlight.step_iff.mpr (.lookup hcall)), rfl, ?_⟩
    rw [map_cons, map_cons, hinflight]
    rfl

/-- A BTB miss is told of the branch just added. -/
theorem Abstracts.toldOfMiss (h : Abstracts (front :: older) s m)
    (htold : ToldOfMiss d tid front.pc front.bpHistory s s') :
    ∃ m', (InFlight.machine d tid).Reaches m m' ∧ Abstracts (front :: older) s' m' := by
  rcases htold with rfl | htold
  · exact ⟨m, .start, h⟩
  obtain ⟨b, rest, hinflight, hpc, hhistory, hrest⟩ := h.youngest
  rw [← h.predictor, ← hpc, ← hhistory] at htold
  refine ⟨_, .step .start (InFlight.step_iff.mpr (.btbUpdate hinflight htold)), rfl, ?_⟩
  simp only [map_cons, hrest, PredictorHistory.key, hpc, hhistory]

variable {u' : State p S H PC}

theorem Abstracts.predict (h : Abstracts (u.predHist tid) u.predictor m)
    (hpredict : predict d isa u inst seqNum pc tid = .ok (pred_taken, target, u')) :
    ∃ m', (InFlight.machine d tid).Reaches m m' ∧ Abstracts (u'.predHist tid) u'.predictor m' := by
  obtain ⟨record, s, -, heffect, -⟩ := predict_effect hpredict
  obtain ⟨m₁, hreach, hadded⟩ := h.direction heffect.record_pc heffect.direction
  have htold := heffect.toldOfMiss
  rw [← heffect.record_pc] at htold
  obtain ⟨m₂, hreach', htold'⟩ := hadded.toldOfMiss htold
  refine ⟨m₂, hreach.trans hreach', ?_⟩
  rw [heffect.queue]
  exact htold'

variable {squashed_sn : InstSeqNum}

/-- The loop of `squash` drops the youngest branches one by one. -/
theorem Abstracts.squash (h : Abstracts (u.predHist tid) u.predictor m)
    (hsquash : squash d u squashed_sn tid = .ok u') :
    ∃ m', (InFlight.machine d tid).Reaches m m' ∧ Abstracts (u'.predHist tid) u'.predictor m' := by
  obtain ⟨ras, s, -, hloop, rfl⟩ := squash_effect hsquash
  rw [← takeWhile_append_dropWhile (p := fun record => record.seqNum > squashed_sn) (l := u.predHist tid)] at h
  simp only [Function.update_self]
  refine foldlM_induction (I := fun later s => ∃ m', (InFlight.machine d tid).Reaches m m' ∧
    Abstracts (later ++ (u.predHist tid).dropWhile fun record => record.seqNum > squashed_sn) s m') ?_
    ⟨m, .start, h⟩ hloop
  rintro front later s s' ⟨m', hreach, hm'⟩ hcall
  obtain ⟨b, left, hinflight, -, hhistory, hleft⟩ := hm'.youngest
  rw [← hm'.predictor, ← hhistory] at hcall
  exact ⟨⟨s', left, m'.retired⟩, .step hreach (InFlight.step_iff.mpr (.squash hinflight hcall)), rfl, hleft⟩

/-- A mispredict squash corrects the branch that is youngest after the squash. -/
theorem Abstracts.squashMispredicted (h : Abstracts (u.predHist tid) u.predictor m)
    (hsquash : squashMispredicted d isa u squashed_sn corrTarget actually_taken tid rand = .ok u') :
    ∃ m', (InFlight.machine d tid).Reaches m m' ∧ Abstracts (u'.predHist tid) u'.predictor m' := by
  obtain ⟨left, hleft, hrest⟩ := bind_ok hsquash
  obtain ⟨m₁, hreach, hm₁⟩ := h.squash hleft
  cases hqueue : left.predHist tid with
  | nil =>
    simp only [hqueue] at hrest
    cases hrest
    exact ⟨m₁, hreach, hm₁⟩
  | cons front older =>
    simp only [hqueue] at hrest
    obtain ⟨_, ⟨front', fixed⟩, -, hfront, hdone⟩ := bind_ok₂ hrest
    cases hdone
    obtain ⟨hkept, hcall, -⟩ := correctFront_spec hfront
    rw [hqueue] at hm₁
    obtain ⟨b, rest, hinflight, hpc, hhistory, hrest'⟩ := hm₁.youngest
    rw [← hm₁.predictor, ← hpc, ← hhistory] at hcall
    have hstep := InFlight.step_iff.mpr (.correct hinflight hcall)
    refine ⟨_, .step hreach hstep, rfl, ?_⟩
    simp only [State.setPredHist_self, map_cons, hrest', PredictorHistory.key, hkept.pc,
      hkept.bpHistory, hpc, hhistory]

variable (h : Abstracts (u.predHist tid) u.predictor m)
include h

/-- The loop of `update` commits the oldest branches one by one. -/
theorem Abstracts.update (hupdate : update d u done_sn tid = .ok (calls, u')) :
    ∃ m', (InFlight.machine d tid).Reaches m m' ∧ Abstracts (u'.predHist tid) u'.predictor m' := by
  obtain ⟨s, hloop, rfl⟩ := update_effect hupdate
  rw [← reverse_reverse (u.predHist tid), ← takeWhile_append_dropWhile
    (p := fun record => record.seqNum ≤ done_sn) (l := (u.predHist tid).reverse)] at h
  simp only [Function.update_self]
  refine foldlM_induction (I := fun later s => ∃ m', (InFlight.machine d tid).Reaches m m' ∧ Abstracts
    (later ++ (u.predHist tid).reverse.dropWhile fun record => record.seqNum ≤ done_sn).reverse s m') ?_
    ⟨m, .start, h⟩ hloop
  rintro back later s s' ⟨m', hreach, hm'⟩ hcall
  have hinflight := hm'.inflight
  rw [cons_append, reverse_cons, map_append, map_eq_append_iff] at hinflight
  obtain ⟨before, oldest, hsplit, hbefore, holdest⟩ := hinflight
  rw [map_singleton, map_eq_singleton_iff] at holdest
  obtain ⟨b, rfl, hb⟩ := holdest
  obtain ⟨hpc, hhistory⟩ := Prod.mk.inj hb
  rw [← hm'.predictor, ← hpc, ← hhistory] at hcall
  exact ⟨⟨s', before, b.direction :: m'.retired⟩, .step hreach (InFlight.step_iff.mpr (.commit hsplit hcall)),
    rfl, hbefore⟩

/-- Each call on the unit is a run of the branches in flight. -/
theorem Abstracts.step (hstep : (machine d isa p tid).step u op = .ok (answer, u')) :
    ∃ m', (InFlight.machine d tid).Reaches m m' ∧ Abstracts (u'.predHist tid) u'.predictor m' := by
  cases step_iff.mp hstep with
  | predict hpredict => exact h.predict hpredict
  | update hupdate => exact h.update hupdate
  | squash hsquash => exact h.squash hsquash
  | squashMispredicted hsquash => exact h.squashMispredicted hsquash

end

/-- The runs of the unit on one thread are runs of the branches in flight. -/
theorem reaches_inFlight (hreach : (machine d isa p tid).Reaches (.initial isa p s) u) :
    ∃ m, (InFlight.machine d tid).Reaches (InFlight.start s) m ∧ Abstracts (u.predHist tid) u.predictor m := by
  refine hreach.invariant (I := fun u => ∃ m, (InFlight.machine d tid).Reaches (InFlight.start s) m ∧
    Abstracts (u.predHist tid) u.predictor m) ?_ ?_
  · exact ⟨InFlight.start s, .start, rfl, rfl⟩
  · rintro u op answer u' ⟨m, hm, habstracts⟩ hstep
    obtain ⟨m', hm', habstracts'⟩ := habstracts.step hstep
    exact ⟨m', hm.trans hm', habstracts'⟩

/-- The predictor inside the unit is only driven by calls that it allows: the records of
the queue hold objects that it has handed out, each its own, and has not deleted. -/
theorem reaches_allowed_calls (hreach : (machine d isa p tid).Reaches (.initial isa p s) u) :
    ∃ c, ∃ names : List Nat, (Calls.machine d).Reaches (Calls.start s) c ∧ c.predictor = u.predictor ∧ names.Nodup ∧
      names.map c.histories.cell = (u.predHist tid).map fun record => some record.bpHistory := by
  obtain ⟨m, hm, habstracts⟩ := reaches_inFlight hreach
  obtain ⟨c, names, hc, hheld⟩ := InFlight.reaches_calls hm
  have hqueue := congrArg (map fun key => some key.2) habstracts.inflight
  rw [map_map, map_map] at hqueue
  exact ⟨c, names, hc, hheld.predictor.trans habstracts.predictor, hheld.nodup, hheld.objects.trans hqueue⟩

theorem two_branches_hold_two_objects : ∃ c, ∃ names : List Nat, names.Nodup ∧ names.length = 2 ∧
    (Calls.machine (TournamentBP.predictor TournamentBP.smallParams)).Reaches (Calls.start (.initial _)) c := by
  obtain ⟨answers, u, hrun, hqueue⟩ : ∃ answers u,
      (machine (TournamentBP.predictor TournamentBP.smallParams) alpha smallParams 0).run
        (.initial alpha smallParams (.initial TournamentBP.smallParams))
        [.predict conditionalBranch 1 (.set 0), .predict directJump 2 (.set 64)] = .ok (answers, u) ∧
      (u.predHist 0).length = 2 := ⟨_, _, rfl, rfl⟩
  obtain ⟨c, names, hc, -, hnodup, hobjects⟩ := reaches_allowed_calls (Machine.Reaches.run .start hrun)
  refine ⟨c, names, hnodup, ?_, hc⟩
  rw [← length_map, hobjects, length_map, hqueue]

end Gem5.BPredUnit
