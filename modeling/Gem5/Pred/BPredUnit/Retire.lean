import Gem5.Pred.BPredUnit.Effect

open Lib Result List Function

namespace Gem5.BPredUnit

variable {S H PC Inst : Type} {p : Params}

variable {done_sn squashed_sn : InstSeqNum} {corrTarget : PC} {rand : Nat} {actually_taken : Bool}

section Retire

variable {d : DirectionPredictor S H} {isa : ISA PC Inst}

/-- The call made for a record when it commits. -/
def PredictorHistory.commitCall (record : PredictorHistory H PC) : CommitCall :=
  ⟨record.seqNum, record.pc, record.predTaken⟩

/-- The records that a commit up to `done_sn` removes, oldest first. -/
def State.committing (u : State p S H PC) (done_sn : InstSeqNum) (tid : ThreadID) : List (PredictorHistory H PC) :=
  (u.predHist tid).reverse.takeWhile fun record => record.seqNum ≤ done_sn

variable {tid : ThreadID} {queue rest : List (PredictorHistory H PC)} {calls : List CommitCall}

/-- The loop of `update` makes one call for each record it removes. -/
theorem commitOldest_spec (h : commitOldest d done_sn tid queue s = .ok (calls, rest, s')) :
    calls = (queue.takeWhile fun record => record.seqNum ≤ done_sn).map PredictorHistory.commitCall ∧
      (rest = queue.dropWhile fun record => record.seqNum ≤ done_sn) ∧
      (queue.takeWhile fun record => record.seqNum ≤ done_sn).foldlM
        (fun s record => d.update s tid record.pc record.predTaken record.bpHistory false) s = .ok s' := by
  induction queue generalizing s calls with
  | nil =>
    cases h
    exact ⟨rfl, rfl, rfl⟩
  | cons back younger ih =>
    rw [commitOldest] at h
    by_cases hdone : back.seqNum ≤ done_sn
    · rw [if_pos hdone] at h
      obtain ⟨next, ⟨later, left, last⟩, hnext, hlater, hanswer⟩ := bind_ok₂ h
      cases hanswer
      obtain ⟨rfl, rfl, hloop⟩ := ih hlater
      simp only [takeWhile_cons, dropWhile_cons, hdone, decide_true, if_true, map_cons, foldlM_cons]
      exact ⟨rfl, trivial, (bind_of_ok hnext _).trans hloop⟩
    · rw [if_neg hdone] at h
      cases h
      simp only [takeWhile_cons, dropWhile_cons, hdone, decide_false]
      exact ⟨rfl, rfl, rfl⟩

variable {u u' : State p S H PC}

/-- A commit makes one call for each record it removes, with the direction the
record holds. -/
theorem update_spec (h : update d u done_sn tid = .ok (calls, u')) :
    calls = (u.committing done_sn tid).map PredictorHistory.commitCall ∧ u'.predHist = Function.update u.predHist tid
        ((u.predHist tid).reverse.dropWhile fun record => record.seqNum ≤ done_sn).reverse := by
  obtain ⟨⟨made, rest, s⟩, hcommit, hdone⟩ := bind_ok h
  cases hdone
  obtain ⟨hcalls, rfl, -⟩ := commitOldest_spec hcommit
  exact ⟨hcalls, rfl⟩

/-- A commit only takes records out of the queue. -/
theorem update_sublist (h : update d u done_sn tid = .ok (calls, u')) : (u'.predHist tid).Sublist (u.predHist tid) := by
  rw [(update_spec h).2, update_self, ← reverse_sublist, reverse_reverse]
  exact dropWhile_sublist _

/-- What `update` does to each part of the unit. -/
theorem update_effect (h : update d u done_sn tid = .ok (calls, u')) :
    ∃ s, (u.committing done_sn tid).foldlM
        (fun s record => d.update s tid record.pc record.predTaken record.bpHistory false) u.predictor = .ok s ∧
      u' = { u with
        predictor := s
        predHist := Function.update u.predHist tid
          ((u.predHist tid).reverse.dropWhile fun record => record.seqNum ≤ done_sn).reverse
        iPred := IndirectPredictor.commit p.iPred u.iPred done_sn tid } := by
  obtain ⟨⟨made, rest, s⟩, hcommit, hdone⟩ := bind_ok h
  cases hdone
  obtain ⟨-, rfl, hloop⟩ := commitOldest_spec hcommit
  exact ⟨s, hloop, rfl⟩

/-- The records that a squash to `squashed_sn` removes, youngest first. -/
def State.squashing (u : State p S H PC) (squashed_sn : InstSeqNum) (tid : ThreadID) : List (PredictorHistory H PC) :=
  (u.predHist tid).takeWhile fun record => record.seqNum > squashed_sn

/-- The loop of `squash` undoes the records it removes, one by one, and touches
nothing else. -/
theorem squashYoungest_spec (h : squashYoungest d squashed_sn tid queue u = .ok (rest, u')) :
    (rest = queue.dropWhile fun record => record.seqNum > squashed_sn) ∧ ∃ ras s,
      (queue.takeWhile fun record => record.seqNum > squashed_sn).foldlM undoRAS (u.RAS tid) = .ok ras ∧
      (queue.takeWhile fun record => record.seqNum > squashed_sn).foldlM
        (fun s record => d.squash s tid record.bpHistory) u.predictor = .ok s ∧
      u' = { u with predictor := s }.setRAS tid ras := by
  induction queue generalizing u with
  | nil =>
    cases h
    exact ⟨rfl, _, _, rfl, rfl, (State.setRAS_eq_self _ tid).symm⟩
  | cons front older ih =>
    rw [squashYoungest] at h
    by_cases hyounger : front.seqNum > squashed_sn
    · rw [if_pos hyounger] at h
      obtain ⟨ras, s, hras, hs, hloop⟩ := bind_ok₂ h
      obtain ⟨rfl, ras', s', hundo, hsquash, hu'⟩ := ih hloop
      rw [State.setRAS_self] at hundo
      simp only [takeWhile_cons, dropWhile_cons, hyounger, decide_true, if_true, foldlM_cons]
      refine ⟨trivial, ras', s', (bind_of_ok hras _).trans hundo, (bind_of_ok hs _).trans hsquash, ?_⟩
      rw [hu']
      simp only [State.setRAS, update_idem]
    · rw [if_neg hyounger] at h
      cases h
      simp only [takeWhile_cons, dropWhile_cons, hyounger, decide_false]
      exact ⟨rfl, _, _, rfl, rfl, (State.setRAS_eq_self _ tid).symm⟩

/-- What `squash` does to each part of the unit. -/
theorem squash_effect (h : squash d u squashed_sn tid = .ok u') :
    ∃ ras s,
      (u.squashing squashed_sn tid).foldlM undoRAS (u.RAS tid) = .ok ras ∧
      (u.squashing squashed_sn tid).foldlM (fun s record => d.squash s tid record.bpHistory) u.predictor =
        .ok s ∧
      u' = { u with
        predictor := s
        predHist := Function.update u.predHist tid
          ((u.predHist tid).dropWhile fun record => record.seqNum > squashed_sn)
        RAS := Function.update u.RAS tid ras
        iPred := IndirectPredictor.squash p.iPred u.iPred squashed_sn tid } := by
  obtain ⟨⟨rest, left⟩, hloop, hdone⟩ := bind_ok h
  cases hdone
  obtain ⟨rfl, ras, s, hundo, hsquash, rfl⟩ := squashYoungest_spec hloop
  exact ⟨ras, s, hundo, hsquash, rfl⟩

theorem squash_spec (h : squash d u squashed_sn tid = .ok u') : u'.predHist = Function.update u.predHist tid
      ((u.predHist tid).dropWhile fun record => record.seqNum > squashed_sn) := by
  obtain ⟨ras, s, -, -, rfl⟩ := squash_effect h
  rfl

/-- A squash only takes records out of the queue. -/
theorem squash_sublist (h : squash d u squashed_sn tid = .ok u') : (u'.predHist tid).Sublist (u.predHist tid) := by
  rw [squash_spec h, update_self]
  exact dropWhile_sublist _

variable {front : PredictorHistory H PC}

open IndirectPredictor (recordTarget)

theorem storeTarget_spec (h : storeTarget isa u front ghr corrTarget tid rand = .ok u') :
    u'.predHist = u.predHist ∧ u'.predictor = u.predictor ∧ if front.wasIndirect then
      recordTarget isa p.iPred u.iPred ghr corrTarget tid rand = .ok u'.iPred else u'.iPred = u.iPred := by
  unfold storeTarget at h
  by_cases hindirect : front.wasIndirect = true
  · rw [if_pos hindirect] at h ⊢
    obtain ⟨iPred, hrecord, hdone⟩ := bind_ok h
    cases hdone
    exact ⟨rfl, rfl, hrecord⟩
  · rw [if_neg hindirect] at h ⊢
    obtain ⟨BTB, -, hdone⟩ := bind_ok h
    cases hdone
    exact ⟨rfl, rfl, rfl⟩

variable {front' : PredictorHistory H PC}

theorem correctTaken_spec (h : correctTaken isa u front ghr corrTarget tid rand = .ok (front', u')) :
    Kept front u front' u' ∧ u'.predictor = u.predictor ∧ front'.wasIndirect = front.wasIndirect ∧
      if front.wasIndirect then recordTarget isa p.iPred u.iPred ghr corrTarget tid rand = .ok u'.iPred
      else u'.iPred = u.iPred := by
  obtain ⟨stored, hstore, hdone⟩ := bind_ok h
  obtain ⟨hhist, hpredictor, hiPred⟩ := storeTarget_spec hstore
  cases hdone
  by_cases hmissed : (front.wasReturn && !front.usedRAS) = true
  · simp only [if_pos hmissed] at hhist hpredictor hiPred ⊢
    exact ⟨⟨rfl, rfl, rfl, rfl, hhist⟩, hpredictor, trivial, hiPred⟩
  · simp only [if_neg hmissed] at hhist hpredictor hiPred ⊢
    exact ⟨⟨rfl, rfl, rfl, rfl, hhist⟩, hpredictor, trivial, hiPred⟩

theorem correctNotTaken_spec (h : correctNotTaken u front tid = .ok (front', u')) :
    Kept front u front' u' ∧ u'.predictor = u.predictor ∧ front'.wasIndirect = front.wasIndirect ∧
      u'.iPred = u.iPred := by
  obtain ⟨ras, -, hdone⟩ := bind_ok h
  simp only [Except.ok.injEq, Prod.mk.injEq] at hdone
  obtain ⟨rfl, rfl⟩ := hdone
  split
  · exact ⟨⟨rfl, rfl, rfl, rfl, rfl⟩, rfl, rfl, rfl⟩
  · split
    · exact ⟨⟨rfl, rfl, rfl, rfl, rfl⟩, rfl, rfl, rfl⟩
    · exact ⟨⟨rfl, rfl, rfl, rfl, rfl⟩, rfl, rfl, rfl⟩

/-- The direction of the branch that a mispredict squash leaves at the front is
corrected, and if it is an indirect one that is taken, its target is recorded. -/
theorem correctFront_spec (h : correctFront d isa u front corrTarget actually_taken tid rand = .ok (front', u')) :
    Kept { front with predTaken := actually_taken } u front' u' ∧
      d.update u.predictor tid front.pc actually_taken front.bpHistory true = .ok u'.predictor ∧
      front'.wasIndirect = front.wasIndirect ∧ ∃ ghr, d.getGHR u.predictor tid front.bpHistory = .ok ghr ∧
        if actually_taken && front.wasIndirect then
          recordTarget isa p.iPred u.iPred ghr corrTarget tid rand = .ok u'.iPred
        else u'.iPred = u.iPred := by
  obtain ⟨ghr, s, hghr, hupdate, hfix⟩ := bind_ok₂ h
  cases actually_taken with
  | true =>
    obtain ⟨hkept, hpredictor, hindirect, hiPred⟩ := correctTaken_spec hfix
    exact ⟨{ hkept with }, hpredictor ▸ hupdate, hindirect, ghr, hghr, hiPred⟩
  | false =>
    obtain ⟨hkept, hpredictor, hindirect, hiPred⟩ := correctNotTaken_spec hfix
    exact ⟨{ hkept with }, hpredictor ▸ hupdate, hindirect, ghr, hghr, hiPred⟩

theorem squashMispredicted_eq_ok_iff :
    squashMispredicted d isa u squashed_sn corrTarget actually_taken tid rand = .ok u' ↔
      ∃ left, squash d u squashed_sn tid = .ok left ∧ (left.predHist tid = [] ∧ u' = left ∨
          ∃ front older front' fixed, left.predHist tid = front :: older ∧ front.seqNum = squashed_sn ∧
            correctFront d isa left front corrTarget actually_taken tid rand = .ok (front', fixed) ∧
            u' = fixed.setPredHist tid (front' :: older)) := by
  simp only [squashMispredicted, bind_eq_ok_iff]
  refine exists_congr fun left => and_congr_right fun _ => ?_
  cases hleft : left.predHist tid with
  | nil => simp [eq_comm]
  | cons front older =>
    simp only [bind_eq_ok_iff, require_eq_ok_iff, beq_iff_eq]
    constructor
    · rintro ⟨-, hsn, ⟨front', fixed⟩, hfix, hdone⟩
      cases hdone
      exact .inr ⟨front, older, front', fixed, rfl, hsn, hfix, rfl⟩
    · rintro (⟨hnil, -⟩ | ⟨_, _, front', fixed, hcons, hsn, hfix, rfl⟩)
      · cases hnil
      · cases hcons
        exact ⟨(), hsn, (front', fixed), hfix, rfl⟩

variable (h : squashMispredicted d isa u squashed_sn corrTarget actually_taken tid rand = .ok u')
include h

/-- A mispredict squash removes the younger branches and leaves the branch
itself, if it is in flight, at the front with its direction corrected. -/
theorem squashMispredicted_spec : u'.predHist tid = [] ∨ ∃ front older front',
        (u.predHist tid).dropWhile (fun record => record.seqNum > squashed_sn) = front :: older ∧
        u'.predHist tid = front' :: older ∧ front.seqNum = squashed_sn ∧
        front'.seqNum = squashed_sn ∧ front'.predTaken = actually_taken := by
  obtain ⟨left, hsquash, hcase⟩ := squashMispredicted_eq_ok_iff.mp h
  rcases hcase with ⟨hempty, rfl⟩ | ⟨front, older, front', fixed, hleft, hsn, hfix, rfl⟩
  · exact .inl hempty
  obtain ⟨hfront', -⟩ := correctFront_spec hfix
  rw [squash_spec hsquash, update_self] at hleft
  exact .inr ⟨front, older, front', hleft, State.setPredHist_self .., hsn, hfront'.seqNum.trans hsn,
    hfront'.predTaken⟩

/-- Only the queue of the thread changes. -/
theorem squashMispredicted_predHist : ∃ queue, u'.predHist = Function.update u.predHist tid queue := by
  obtain ⟨left, hsquash, hcase⟩ := squashMispredicted_eq_ok_iff.mp h
  rcases hcase with ⟨-, rfl⟩ | ⟨front, older, front', fixed, -, -, hfix, rfl⟩
  · exact ⟨_, squash_spec hsquash⟩
  · obtain ⟨hfront', -⟩ := correctFront_spec hfix
    refine ⟨front' :: older, ?_⟩
    rw [State.setPredHist, hfront'.predHist, squash_spec hsquash, update_idem]

end Retire

section Step

variable {d : DirectionPredictor S H} {isa : ISA PC Inst} {tid : ThreadID} {u u' : State p S H PC}

/-- What a call on the unit does. -/
inductive Step (d : DirectionPredictor S H) (isa : ISA PC Inst) (tid : ThreadID) (u u' : State p S H PC) :
    Op PC Inst → Answer PC → Prop where
  | predict {inst : Inst} {seqNum : InstSeqNum} {pc target : PC} {pred_taken : Bool}
      (h : predict d isa u inst seqNum pc tid = .ok (pred_taken, target, u')) :
      Step d isa tid u u' (.predict inst seqNum pc) (.predicted pred_taken target)
  | update {done_sn : InstSeqNum} {calls : List CommitCall} (h : update d u done_sn tid = .ok (calls, u')) :
      Step d isa tid u u' (.update done_sn) (.committed calls)
  | squash {squashed_sn : InstSeqNum} (h : squash d u squashed_sn tid = .ok u') :
      Step d isa tid u u' (.squash squashed_sn) .squashed
  | squashMispredicted {squashed_sn : InstSeqNum} {corrTarget : PC} {actually_taken : Bool} {rand : Nat}
      (h : squashMispredicted d isa u squashed_sn corrTarget actually_taken tid rand = .ok u') :
      Step d isa tid u u' (.squashMispredicted squashed_sn corrTarget actually_taken rand) .squashed

theorem step_iff : (machine d isa p tid).step u op = .ok (answer, u') ↔ Step d isa tid u u' op answer := by
  constructor
  · intro h
    cases op with
    | squash squashed_sn =>
      obtain ⟨v, hcall, hdone⟩ := bind_ok h
      cases hdone
      exact .squash hcall
    | squashMispredicted squashed_sn corrTarget actually_taken rand =>
      obtain ⟨v, hcall, hdone⟩ := bind_ok h
      cases hdone
      exact .squashMispredicted hcall
    | update done_sn =>
      obtain ⟨⟨calls, v⟩, hcall, hdone⟩ := bind_ok h
      cases hdone
      exact .update hcall
    | predict inst seqNum pc =>
      obtain ⟨⟨pred_taken, target, v⟩, hcall, hdone⟩ := bind_ok h
      cases hdone
      exact .predict hcall
  · intro h
    cases h with
    | _ hcall => exact bind_of_ok hcall _

end Step

end Gem5.BPredUnit
