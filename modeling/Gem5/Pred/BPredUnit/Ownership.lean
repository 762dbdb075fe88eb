import Gem5.Lib.Ledger
import Gem5.Pred.BPredUnit.Erase
import Gem5.Pred.BPredUnit.Threads
import Gem5.Pred.Tournament.Model

open Lib Result Lib.Ledger Function List

namespace Gem5

/-- The methods of a direction predictor that hand out a history object or are
passed one and may change it. -/
inductive Method where
  | lookup
  | uncondBranch
  | btbUpdate
  | update (squashed : Bool)
  | squash
  deriving DecidableEq

/-- `lookup` and `uncondBranch` allocate the object, a commit-time `update` and
`squash` delete it. -/
def Method.stage : Method → Stage
  | .lookup => .allocation
  | .uncondBranch => .allocation
  | .btbUpdate => .use
  | .update true => .use
  | .update false => .release
  | .squash => .release

/-- A predictor with a trace of the calls made on it, newest first. -/
structure Traced (S : Type) where
  predictor : S
  next : Nat
  calls : List (Nat × Method)

/-- A history object with its name. -/
structure Named (H : Type) where
  name : Nat
  object : H

namespace Traced

variable {S H : Type}

def start (s : S) : Traced S := ⟨s, 0, []⟩

/-- The trace of a call that hands out an object. -/
def handOut (t : Traced S) (s : S) (method : Method) : Traced S :=
  ⟨s, t.next + 1, (t.next, method) :: t.calls⟩

/-- The trace of a call that is passed an object. -/
def passed (t : Traced S) (s : S) (h : Named H) (method : Method) : Traced S :=
  ⟨s, t.next, (h.name, method) :: t.calls⟩

def released (t : Traced S) (h : Named H) : Bool :=
  t.calls.any fun call => call.1 = h.name && call.2.stage = .release

end Traced

/-- The predictor `d`, with its history objects named and its calls traced. For
an object that was released, `getGHR` gives the arbitrary answer `stale`. -/
def DirectionPredictor.traced {S H : Type} (d : DirectionPredictor S H) (stale : Result Unsigned) :
    DirectionPredictor (Traced S) (Named H) where
  lookup t tid pc := (d.lookup t.predictor tid pc).map fun (taken, h, s) =>
    (taken, ⟨t.next, h⟩, t.handOut s .lookup)
  uncondBranch t tid pc := (d.uncondBranch t.predictor tid pc).map fun (h, s) =>
    (⟨t.next, h⟩, t.handOut s .uncondBranch)
  btbUpdate t tid pc h := (d.btbUpdate t.predictor tid pc h.object).map fun s => t.passed s h .btbUpdate
  update t tid pc taken h squashed := (d.update t.predictor tid pc taken h.object squashed).map fun s =>
    t.passed s h (.update squashed)
  squash t tid h := (d.squash t.predictor tid h.object).map fun s => t.passed s h .squash
  getGHR t tid h := if t.released h then stale else d.getGHR t.predictor tid h.object

namespace BPredUnit

variable {S H PC Inst : Type} {p : Params}

theorem erases_traced (d : DirectionPredictor S H) (stale : Result Unsigned) :
    Erases (d.traced stale) d Traced.predictor Named.object where
  lookup t tid pc := by
    cases h : d.lookup t.predictor tid pc <;> simp [DirectionPredictor.traced, Except.map, h, Traced.handOut]
  uncondBranch t tid pc := by
    cases h : d.uncondBranch t.predictor tid pc <;> simp [DirectionPredictor.traced, Except.map, h, Traced.handOut]
  btbUpdate t tid pc o := by
    cases h : d.btbUpdate t.predictor tid pc o.object <;>
      simp [DirectionPredictor.traced, Except.map, h, Traced.passed]
  update t tid pc taken o squashed := by
    cases h : d.update t.predictor tid pc taken o.object squashed <;>
      simp [DirectionPredictor.traced, Except.map, h, Traced.passed]
  squash t tid o := by
    cases h : d.squash t.predictor tid o.object <;> simp [DirectionPredictor.traced, Except.map, h, Traced.passed]

/-- The names of the objects in a queue. -/
def names (queue : List (PredictorHistory (Named H) PC)) : List Nat :=
  queue.map fun record => record.bpHistory.name

/-- The records hold the objects that are alive. -/
def Owned (u : State p (Traced S) (Named H) PC) : Prop :=
  Balanced Method.stage u.predictor.next u.predictor.calls (names ∘ u.predHist)

section

variable {d : DirectionPredictor S H} {stale : Result Unsigned} {isa : ISA PC Inst} {tid : ThreadID}
  {u u' : State p (Traced S) (Named H) PC}

/-- Calls that release the objects of the records, one by one. -/
theorem release_all {call : Traced S → PredictorHistory (Named H) PC → Result (Traced S)}
    (hcall : ∀ t record t', call t record = .ok t' →
      t'.next = t.next ∧ ∃ m, Method.stage m = .release ∧ t'.calls = (record.bpHistory.name, m) :: t.calls)
    {records : List (PredictorHistory (Named H) PC)} {t t' : Traced S} {held : ThreadID → List Nat}
    (h : Balanced Method.stage t.next t.calls (Function.update held tid (names records ++ rest)))
    (hloop : records.foldlM call t = .ok t') :
    Balanced Method.stage t'.next t'.calls (Function.update held tid rest) := by
  refine foldlM_induction (I := fun records t =>
    Balanced Method.stage t.next t.calls (Function.update held tid (names records ++ rest))) ?_ h hloop
  intro record later t t' hbalanced hfirst
  obtain ⟨hnext, m, hm, hcalls⟩ := hcall t record t' hfirst
  rw [hnext, hcalls]
  exact Balanced.release hbalanced hm

/-- The object of a branch is allocated by the call with which `predict` starts. -/
theorem direction_traced (hcall : direction (d.traced stale) isa u inst pc tid = .ok (taken, h, t)) :
    h.name = u.predictor.next ∧ t.next = u.predictor.next + 1 ∧
      ∃ m, Method.stage m = .allocation ∧ t.calls = (u.predictor.next, m) :: u.predictor.calls := by
  rcases direction_eq_ok_iff.mp hcall with ⟨-, -, huncond⟩ | ⟨-, hlookup⟩
  · obtain ⟨⟨inner, s⟩, -, hmap⟩ := map_ok huncond
    cases hmap
    exact ⟨rfl, rfl, .uncondBranch, rfl, rfl⟩
  · obtain ⟨⟨answer, inner, s⟩, -, hmap⟩ := map_ok hlookup
    cases hmap
    exact ⟨rfl, rfl, .lookup, rfl, rfl⟩

section

variable (h : Owned u)
include h

theorem Owned.predict (hpredict : predict (d.traced stale) isa u inst seqNum pc tid = .ok (taken, target, u')) :
    Owned u' := by
  obtain ⟨record, t, -, heffect, -⟩ := predict_effect hpredict
  obtain ⟨hname, hnext, m, hm, hcalls⟩ := direction_traced heffect.direction
  have hallocated := Balanced.allocate h tid hm
  rw [← hnext, ← hcalls, ← hname] at hallocated
  have hheld : names ∘ u'.predHist =
      Function.update (names ∘ u.predHist) tid (record.bpHistory.name :: (names ∘ u.predHist) tid) := by
    rw [heffect.predHist, comp_update]
    rfl
  unfold Owned
  rw [hheld]
  rcases heffect.toldOfMiss with htold | htold
  · rw [htold]
    exact hallocated
  obtain ⟨s, -, hmap⟩ := map_ok htold
  rw [← hmap]
  have hmem : record.bpHistory.name ∈ Function.update (names ∘ u.predHist) tid
      (record.bpHistory.name :: (names ∘ u.predHist) tid) tid := by
    rw [update_self]
    exact mem_cons_self
  exact hallocated.use hmem rfl

theorem Owned.update (hupdate : update (d.traced stale) u done_sn tid = .ok (calls, u')) : Owned u' := by
  obtain ⟨t, hloop, rfl⟩ := update_effect hupdate
  have hsplit : names (u.committing done_sn tid) ++
      names ((u.predHist tid).reverse.dropWhile fun record => record.seqNum ≤ done_sn) =
        (names (u.predHist tid)).reverse := by
    rw [names, names, ← map_append, State.committing, takeWhile_append_dropWhile, names, map_reverse]
  have hself : Function.update (names ∘ u.predHist) tid (names (u.predHist tid)) = names ∘ u.predHist :=
    update_eq_self ..
  have hstart := Balanced.perm (hself.symm ▸ h : Balanced Method.stage u.predictor.next u.predictor.calls
    (Function.update (names ∘ u.predHist) tid (names (u.predHist tid)))) (reverse_perm _).symm
  rw [← hsplit] at hstart
  -- The oldest objects are released, the others put back in their order.
  have hreleased := release_all (fun t record t' hcall => ?_) hstart hloop
  · have hheld := hreleased.perm (reverse_perm _).symm
    unfold Owned
    rw [comp_update, names, map_reverse]
    exact hheld
  · obtain ⟨s, -, hmap⟩ := map_ok hcall
    rw [← hmap]
    exact ⟨rfl, .update false, rfl, rfl⟩

theorem Owned.squash (hsquash : squash (d.traced stale) u squashed_sn tid = .ok u') : Owned u' := by
  obtain ⟨ras, t, -, hloop, rfl⟩ := squash_effect hsquash
  have hsplit : names (u.squashing squashed_sn tid) ++
      names ((u.predHist tid).dropWhile fun record => record.seqNum > squashed_sn) =
        (names ∘ u.predHist) tid := by
    rw [names, names, ← map_append, State.squashing, takeWhile_append_dropWhile]
    rfl
  have hstart : Balanced Method.stage u.predictor.next u.predictor.calls
      (Function.update (names ∘ u.predHist) tid ((names ∘ u.predHist) tid)) := by
    rw [update_eq_self]
    exact h
  rw [← hsplit] at hstart
  have hreleased := release_all (fun t record t' hcall => ?_) hstart hloop
  · unfold Owned
    rw [comp_update]
    exact hreleased
  · obtain ⟨s, -, hmap⟩ := map_ok hcall
    rw [← hmap]
    exact ⟨rfl, .squash, rfl, rfl⟩

theorem Owned.squashMispredicted
    (hsquash : squashMispredicted (d.traced stale) isa u squashed_sn corrTarget actually_taken tid rand = .ok u') :
    Owned u' := by
  obtain ⟨left, hyounger, hcase⟩ := squashMispredicted_eq_ok_iff.mp hsquash
  have hleft := h.squash hyounger
  rcases hcase with ⟨-, rfl⟩ | ⟨front, older, front', fixed, hqueue, -, hfix, rfl⟩
  · exact hleft
  obtain ⟨hkept, hupdate, -⟩ := correctFront_spec hfix
  obtain ⟨s, -, hmap⟩ := map_ok hupdate
  have hhistory : front'.bpHistory = front.bpHistory := hkept.bpHistory
  have hmem : front.bpHistory.name ∈ (names ∘ left.predHist) tid := by
    rw [comp_apply, hqueue]
    exact mem_cons_self
  have hused := Balanced.use hleft hmem (m := .update true) rfl
  -- The corrected record holds the same object.
  have hheld : names ∘ (fixed.setPredHist tid (front' :: older)).predHist = names ∘ left.predHist := by
    have hsame : names (front' :: older) = (names ∘ left.predHist) tid := by
      rw [comp_apply, hqueue, names, names, map_cons, map_cons, hhistory]
    rw [State.setPredHist, comp_update, hkept.predHist, hsame, update_eq_self]
  unfold Owned
  rw [hheld, State.setPredHist, ← hmap]
  exact hused

theorem Owned.step (hstep : (machine (d.traced stale) isa p tid).step u op = .ok (answer, u')) : Owned u' := by
  cases step_iff.mp hstep with
  | predict hpredict => exact h.predict hpredict
  | update hupdate => exact h.update hupdate
  | squash hsquash => exact h.squash hsquash
  | squashMispredicted hsquash => exact h.squashMispredicted hsquash

end

/-- For an object that is alive `getGHR` answers as that of `d` does. -/
theorem getGHR_traced (halive : Alive Method.stage (life t.calls h.name)) :
    d.getGHR t.predictor tid h.object = (d.traced stale).getGHR t tid h := by
  have hlive : t.released h = false := by
    rw [Traced.released, any_eq_false]
    rintro ⟨name, m⟩ hmem
    simp only [Bool.and_eq_true, decide_eq_true_eq, not_and]
    rintro rfl
    exact halive.not_release hmem
  simp [DirectionPredictor.traced, hlive]

/-- The traced unit takes every step that the unit takes. -/
theorem step_traced (stale : Result Unsigned) (h : Owned u)
    (hstep : (machine d isa p tid).step (u.map Traced.predictor Named.object) op = .ok (answer, v)) :
    ∃ u', (machine (d.traced stale) isa p tid).step u op = .ok (answer, u') ∧
      u'.map Traced.predictor Named.object = v := by
  have herases := erases_traced d stale
  cases step_iff.mp hstep with
  | @predict inst seqNum pc target taken hpredict =>
    rw [predict_map isa herases u inst pc tid] at hpredict
    · obtain ⟨⟨_, _, u'⟩, hcall, hmap⟩ := map_ok hpredict
      cases hmap
      exact ⟨u', step_iff.mpr (.predict hcall), rfl⟩
    · intro taken bp_history t hdirection
      obtain ⟨hname, -, m, hm, hcalls⟩ := direction_traced hdirection
      apply getGHR_traced
      rw [hcalls, hname, life_cons_self, Balanced.fresh h _ (Nat.le_refl _)]
      exact ⟨m, [], rfl, hm, nofun⟩
  | update hupdate =>
    rw [update_map herases] at hupdate
    obtain ⟨⟨_, u'⟩, hcall, hmap⟩ := map_ok hupdate
    cases hmap
    exact ⟨u', step_iff.mpr (.update hcall), rfl⟩
  | squash hsquash =>
    rw [squash_map herases] at hsquash
    obtain ⟨u', hcall, hmap⟩ := map_ok hsquash
    exact ⟨u', step_iff.mpr (.squash hcall), hmap⟩
  | squashMispredicted hsquash =>
    rw [squashMispredicted_map isa herases] at hsquash
    · obtain ⟨u', hcall, hmap⟩ := map_ok hsquash
      exact ⟨u', step_iff.mpr (.squashMispredicted hcall), hmap⟩
    · intro left front older hcall hleft
      apply getGHR_traced
      refine (Balanced.alive (h.squash hcall) tid _ ?_).2
      rw [comp_apply, hleft]
      exact mem_cons_self

/-- The traced unit runs as the unit does, and its records hold the objects that
are alive. -/
theorem run_traced (stale : Result Unsigned) (h : Owned u)
    (hrun : (threads d isa p).run (u.map Traced.predictor Named.object) commands = .ok (answers, v)) :
    ∃ u', (threads (d.traced stale) isa p).run u commands = .ok (answers, u') ∧
      u'.map Traced.predictor Named.object = v ∧ Owned u' := by
  induction commands generalizing u answers with
  | nil =>
    obtain ⟨rfl, rfl⟩ := Machine.run_nil_eq_ok_iff.mp hrun
    exact ⟨u, rfl, rfl, h⟩
  | cons command rest ih =>
    obtain ⟨answer, next, others, hstep, hrest, rfl⟩ := Machine.run_cons_eq_ok_iff.mp hrun
    obtain ⟨next', hnext, rfl⟩ := step_traced stale h hstep
    obtain ⟨u', hrun', hmap, howned⟩ := ih (h.step hnext) hrest
    exact ⟨u', Machine.run_cons_eq_ok_iff.mpr ⟨answer, next', others, hnext, hrun', rfl⟩, hmap, howned⟩

end

/-- In every run of the unit, over any direction predictor, with sequence
numbers that increase within each thread, the queues are strictly
decreasing, commits and squashes remove exactly the branches they are for,
and every history object that was handed out is either held by exactly one
record, and was not released, or held by none and was released by the last
call it was passed to, and by no other. -/
theorem history_objects_released_exactly_once (d : DirectionPredictor S H) (isa : ISA PC Inst) (p : Params) (s : S)
    (u v : State p S H PC) (hu : construct isa p s = .ok u) (commands : List (ThreadID × Op PC Inst))
    (hcommands : Increasing commands) (answers : List (Answer PC))
    (hrun : (threads d isa p).run u commands = .ok (answers, v)) : (∀ tid, Decreasing (v.predHist tid)) ∧
      (∀ tid done_sn calls w, update d v done_sn tid = .ok (calls, w) → w.predHist = Function.update v.predHist tid
          ((v.predHist tid).filter fun record => done_sn < record.seqNum)) ∧
      (∀ tid squashed_sn w, squash d v squashed_sn tid = .ok w → w.predHist = Function.update v.predHist tid
          ((v.predHist tid).filter fun record => record.seqNum ≤ squashed_sn)) ∧
      (∀ tid squashed_sn corrTarget taken rand w,
        squashMispredicted d isa v squashed_sn corrTarget taken tid rand = .ok w →
        (w.predHist tid).map PredictorHistory.seqNum =
          ((v.predHist tid).filter fun record => record.seqNum ≤ squashed_sn).map PredictorHistory.seqNum) ∧
      ∀ stale, ∃ v', (threads (d.traced stale) isa p).run (.initial isa p (.start s)) commands = .ok (answers, v') ∧
        v'.map Traced.predictor Named.object = v ∧ (∀ tid, (names (v'.predHist tid)).Nodup) ∧
        (∀ tid₁ tid₂ name, name ∈ names (v'.predHist tid₁) → name ∈ names (v'.predHist tid₂) → tid₁ = tid₂) ∧
        ∀ name < v'.predictor.next,
          (∃ tid, name ∈ names (v'.predHist tid)) ∧ Alive Method.stage (life v'.predictor.calls name) ∨
          (∀ tid, name ∉ names (v'.predHist tid)) ∧ Released Method.stage (life v'.predictor.calls name) := by
  obtain ⟨-, -, rfl⟩ := construct_eq_ok_iff.mp hu
  have hdecreasing : ∀ tid, Decreasing (v.predHist tid) := by
    apply run_decreasing hrun hcommands
    intro tid
    exact ⟨List.Pairwise.nil, nofun⟩
  refine ⟨hdecreasing, ?_, ?_, ?_, ?_⟩
  · intro tid done_sn calls w hupdate
    rw [(update_spec hupdate).2, (hdecreasing tid).dropWhile_older]
  · intro tid squashed_sn w hsquash
    rw [squash_spec hsquash, (hdecreasing tid).dropWhile_younger]
  · intro tid squashed_sn corrTarget taken rand w hsquash
    rw [squashMispredicted_seqNums hsquash, (hdecreasing tid).dropWhile_younger]
  · intro stale
    have hstart : Owned (State.initial isa p (Traced.start s) : State p (Traced S) (Named H) PC) := Balanced.empty _
    obtain ⟨v', hrun', hmap, howned⟩ := run_traced stale hstart hrun
    refine ⟨v', hrun', hmap, Balanced.once howned, Balanced.owner howned, ?_⟩
    intro name hlt
    by_cases hheld : ∃ tid, name ∈ names (v'.predHist tid)
    · obtain ⟨tid, hmem⟩ := hheld
      exact .inl ⟨⟨tid, hmem⟩, (Balanced.alive howned tid name hmem).2⟩
    · rw [not_exists] at hheld
      exact .inr ⟨hheld, Balanced.released howned name hlt hheld⟩

/-- A branch that is corrected and commits, and one that is squashed. -/
def correctedAndSquashed : List (ThreadID × Op SimplePCState StaticInst) :=
  [(0, .predict conditionalBranch 1 (.set 0)), (0, .predict directJump 2 (.set 64)),
    (0, .squashMispredicted 1 (.set 128) true 0), (0, .update 1)]

theorem corrected_and_squashed_branches_release_their_objects : ∃ answers v,
      (threads ((TournamentBP.predictor TournamentBP.smallParams).traced (.ok 0)) alpha smallParams).run
        (.initial alpha smallParams (.start (.initial TournamentBP.smallParams))) correctedAndSquashed =
        .ok (answers, v) ∧
      v.predictor.next = 2 ∧ ∀ name < 2, Released Method.stage (life v.predictor.calls name) := by
  have hincreasing : Increasing correctedAndSquashed := by
    intro tid
    by_cases htid : 0 = tid <;> simp [correctedAndSquashed, predictedBy, htid]
  obtain ⟨v, hrun, -, -, -, hnames⟩ :=
    (history_objects_released_exactly_once (TournamentBP.predictor TournamentBP.smallParams)
    alpha smallParams (.initial TournamentBP.smallParams)
    (.initial alpha smallParams _) _ rfl correctedAndSquashed hincreasing _ rfl).2.2.2.2 (.ok 0)
  have hlast : (v.predictor.next, v.predHist 0) = (2, []) :=
    congrArg (fun final => (final.2.predictor.next, final.2.predHist 0)) (Except.ok.inj (hrun.symm.trans rfl))
  obtain ⟨hnext, hqueue⟩ := Prod.mk.inj hlast
  have hothers : ∀ tid ≠ 0, v.predHist tid = [] := by
    refine Machine.run_invariant (I := fun u => ∀ tid ≠ 0, u.predHist tid = []) (G := fun _ c => c.1 = 0) ?_
      (fun _ _ => rfl) ?_ hrun
    · rintro u ⟨_, op⟩ answer u' hu rfl hstep tid htid
      obtain ⟨⟨queue, hpredHist⟩, -⟩ := step_predHist hstep
      rw [hpredHist, Function.update_of_ne htid, hu tid htid]
    · exact ⟨rfl, fun _ _ _ => ⟨rfl, fun _ _ _ => ⟨rfl, fun _ _ _ => ⟨rfl, fun _ _ _ => trivial⟩⟩⟩⟩
  refine ⟨_, v, hrun, hnext, fun name hlt => ?_⟩
  rcases hnames name (hnext ▸ hlt) with ⟨⟨tid, hmem⟩, -⟩ | ⟨-, hreleased⟩
  · have hempty : v.predHist tid = [] := by
      by_cases htid : tid = 0
      · exact htid ▸ hqueue
      · exact hothers tid htid
    rw [hempty] at hmem
    cases hmem
  · exact hreleased

end BPredUnit

end Gem5
