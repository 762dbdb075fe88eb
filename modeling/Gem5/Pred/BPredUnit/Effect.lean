import Gem5.Pred.BPredUnit.Predict

open Lib Result Function

namespace Gem5.BPredUnit

variable {S H PC Inst : Type} {p : Params}

/-- Whether `predict` tells the direction predictor of a BTB miss: the direction
is taken, the target comes from the BTB, which does not have it, and the
branch is neither a call nor a return. -/
def tellsMiss (isa : ISA PC Inst) (u : State p S H PC) (inst : Inst) (pc : PC) (tid : ThreadID) (taken : Bool) :
    Result Bool :=
  if taken && !isa.isReturn inst && !isa.isCall inst && usesBTB isa p inst then
    (DefaultBTB.valid p.btb u.BTB (isa.instAddr pc) tid).map (!·)
  else .ok false

/-- What predicting a branch at `pc` does to the return address stack, and what
the record of the branch says of it. -/
inductive StackMove {numEntries : Nat} (pc : PC) (ras : ReturnAddrStack PC numEntries)
    (record : PredictorHistory H PC) : ReturnAddrStack PC numEntries → Prop where
  | untouched (hused : record.usedRAS = false) (hcall : record.wasCall = false) :
      StackMove pc ras record ras
  | returned (hused : record.usedRAS = true) (hindex : record.RASIndex = ras.topIdx)
      (htop : ras.top = .ok record.RASTarget) : StackMove pc ras record ras.pop
  | called {ras' : ReturnAddrStack PC numEntries} (hused : record.usedRAS = false)
      (hcall : record.wasCall = true) (hpushed : record.pushedRAS = true)
      (hpush : ras.push pc = .ok ras') : StackMove pc ras record ras'
  | missed {ras' : ReturnAddrStack PC numEntries} (hused : record.usedRAS = false)
      (hcall : record.wasCall = true) (hpushed : record.pushedRAS = false)
      (hpush : ras.push pc = .ok ras') : StackMove pc ras record ras'.pop

/-- What predicting a branch at `pc` does to the indirect predictor, when
`getGHR` gives `ghr` for its record. -/
inductive PathMove {q : IndirectPredictor.Params} (isa : ISA PC Inst) (pc : PC) (tid : ThreadID)
    (ghr : Result Unsigned) (ipred : IndirectPredictor.State q PC) (record : PredictorHistory H PC) :
    IndirectPredictor.State q PC → Prop where
  | untouched (hindirect : record.wasIndirect = false) : PathMove isa pc tid ghr ipred record ipred
  | recorded (hindirect : record.wasIndirect = true) (found : Option PC)
      (hfound : (do IndirectPredictor.lookup q ipred (isa.instAddr pc) (← ghr) tid) = .ok found) (target : PC) :
      PathMove isa pc tid ghr ipred record
        (IndirectPredictor.recordIndirect q ipred (isa.instAddr pc) (isa.instAddr target) record.seqNum tid)

/-- What `predict` does to each part of the unit, where `record` is the record
it queues and `s` the predictor after its first call. -/
structure Effect (d : DirectionPredictor S H) (isa : ISA PC Inst) (u : State p S H PC) (inst : Inst)
    (seqNum : InstSeqNum) (pc : PC) (tid : ThreadID) (record : PredictorHistory H PC) (s : S)
    (u' : State p S H PC) : Prop where
  record_seqNum : record.seqNum = seqNum
  record_pc : record.pc = isa.instAddr pc
  wasReturn : record.wasReturn = isa.isReturn inst
  direction : direction d isa u inst pc tid = .ok (record.predTaken, record.bpHistory, s)
  told : ∃ told, tellsMiss isa u inst pc tid record.predTaken = .ok told ∧
    (if told then d.btbUpdate s tid (isa.instAddr pc) record.bpHistory else .ok s) = .ok u'.predictor
  predHist : u'.predHist = Function.update u.predHist tid (record :: u.predHist tid)
  BTB : u'.BTB = u.BTB
  RAS : ∃ ras, StackMove pc (u.RAS tid) record ras ∧ u'.RAS = Function.update u.RAS tid ras
  iPred : PathMove isa pc tid (d.getGHR s tid record.bpHistory) u.iPred record u'.iPred

section

variable {d : DirectionPredictor S H} {isa : ISA PC Inst} {u u' : State p S H PC} {inst : Inst} {pc : PC}
  {tid : ThreadID} {record record' : PredictorHistory H PC}

/-- The record of a branch that is not a return, after its call, if it is one,
was pushed on the stack `ras`. -/
structure Pushed {numEntries : Nat} (isa : ISA PC Inst) (inst : Inst) (pc : PC)
    (ras : ReturnAddrStack PC numEntries) (record : PredictorHistory H PC)
    (ras' : ReturnAddrStack PC numEntries) : Prop where
  move : StackMove pc ras record ras'
  usedRAS : record.usedRAS = false
  wasReturn : record.wasReturn = false
  wasCall : record.wasCall = isa.isCall inst
  pushedRAS : isa.isCall inst = true → record.pushedRAS = true

theorem Pushed.indirect (h : Pushed isa inst pc ras record ras') :
    Pushed isa inst pc ras { record with wasIndirect := true } ras' := by
  obtain ⟨hmove, hused, hreturn, hcall, hpushed⟩ := h
  refine ⟨?_, hused, hreturn, hcall, hpushed⟩
  cases hmove with
  | untouched hused hcall => exact .untouched hused hcall
  | returned hused hindex htop => exact .returned hused hindex htop
  | called hused hcall hpushed hpush => exact .called hused hcall hpushed hpush
  | missed hused hcall hpushed hpush => exact .missed hused hcall hpushed hpush

/-- A call that is pushed and popped again. -/
theorem Pushed.missed (h : Pushed isa inst pc ras record ras') (hcall : isa.isCall inst = true) :
    StackMove pc ras { record with pushedRAS := false } ras'.pop := by
  have hwas := h.wasCall.trans hcall
  cases h.move with
  | untouched _ hcalled => simp [hwas] at hcalled
  | returned hused => simp [h.usedRAS] at hused
  | called _ _ _ hpush => exact .missed h.usedRAS hwas rfl hpush
  | missed _ _ hpopped => simp [h.pushedRAS hcall] at hpopped

/-- A call is pushed, and nothing else changes in the unit. -/
theorem pushCall_effect (h : pushCall isa u inst pc tid record = .ok (record', u')) :
    ∃ ras, u' = u.setRAS tid ras ∧ Kept record u record' u' ∧ record'.wasIndirect = record.wasIndirect ∧
      (record.usedRAS = false → record.wasReturn = false → record.wasCall = false →
        Pushed isa inst pc (u.RAS tid) record' ras) := by
  unfold pushCall at h
  by_cases hcall : isa.isCall inst = true
  · rw [if_pos hcall] at h
    obtain ⟨ras, hpush, hdone⟩ := bind_ok h
    cases hdone
    exact ⟨ras, rfl, ⟨rfl, rfl, rfl, rfl, rfl⟩, rfl, fun hused hreturn _ =>
      ⟨.called hused rfl rfl hpush, hused, hreturn, hcall.symm, fun _ => rfl⟩⟩
  rw [if_neg hcall] at h
  simp only [Except.ok.injEq, Prod.mk.injEq] at h
  obtain ⟨rfl, rfl⟩ := h
  refine ⟨u.RAS tid, (u.setRAS_eq_self tid).symm, .refl record u, rfl, fun hused hreturn hwasCall =>
    ⟨.untouched hused hwasCall, hused, hreturn, ?_, fun h => absurd h hcall⟩⟩
  rw [hwasCall, Bool.eq_false_of_not_eq_true hcall]

variable {ras : ReturnAddrStack PC p.RASSize.toNat}

theorem popMissedCall_effect (hpushed : Pushed isa inst pc ras record (u.RAS tid)) :
    ∃ ras' record', popMissedCall isa u inst tid record = (record', u.setRAS tid ras') ∧
      Kept record u record' (u.setRAS tid ras') ∧ StackMove pc ras record' ras' ∧ record'.wasReturn = false ∧
      record'.wasIndirect = record.wasIndirect := by
  unfold popMissedCall
  by_cases hmissed : (isa.isCall inst && !isa.isUncondCtrl inst) = true
  · rw [if_pos hmissed]
    obtain ⟨hcall, -⟩ := Bool.and_eq_true_iff.mp hmissed
    exact ⟨_, _, rfl, ⟨rfl, rfl, rfl, rfl, rfl⟩, hpushed.missed hcall, hpushed.wasReturn, rfl⟩
  · rw [if_neg hmissed]
    refine ⟨u.RAS tid, record, ?_, ⟨rfl, rfl, rfl, rfl, rfl⟩, hpushed.move, hpushed.wasReturn, rfl⟩
    rw [u.setRAS_eq_self tid]

/-- What finding the target of a branch does, when its record is `record`
before. -/
structure TargetEffect (d : DirectionPredictor S H) (isa : ISA PC Inst) (u : State p S H PC) (inst : Inst) (pc : PC)
    (tid : ThreadID) (ras : ReturnAddrStack PC p.RASSize.toNat) (record record' : PredictorHistory H PC)
    (u' : State p S H PC) : Prop where
  wasReturn : record'.wasReturn = isa.isReturn inst
  told : ∃ told, tellsMiss isa u inst pc tid record.predTaken = .ok told ∧
    (if told then d.btbUpdate u.predictor tid (isa.instAddr pc) record.bpHistory else .ok u.predictor) =
      .ok u'.predictor
  BTB : u'.BTB = u.BTB
  RAS : ∃ ras', StackMove pc ras record' ras' ∧ u'.RAS = Function.update u.RAS tid ras'
  iPred : PathMove isa pc tid (d.getGHR u.predictor tid record.bpHistory) u.iPred record' u'.iPred

variable {prediction : Prediction p S H PC}

theorem predictDirect_effect (hpushed : Pushed isa inst pc ras record (u.RAS tid))
    (htaken : record.predTaken = true) (hindirect : record.wasIndirect = false)
    (hreturn : isa.isReturn inst = false) (huses : usesBTB isa p inst = true)
    (h : predictDirect d isa u inst pc tid record = .ok prediction) :
    Kept record u prediction.record prediction.unit ∧
      DefaultBTB.valid p.btb u.BTB (isa.instAddr pc) tid = .ok prediction.pred_taken ∧
      TargetEffect d isa u inst pc tid ras record prediction.record prediction.unit := by
  obtain ⟨found, hvalid, hrest⟩ := bind_ok h
  have htells : tellsMiss isa u inst pc tid record.predTaken = .ok (!isa.isCall inst && !found) := by
    simp only [tellsMiss, htaken, hreturn, huses, hvalid]
    cases isa.isCall inst <;> rfl
  cases found with
  | true =>
    obtain ⟨target, -, hdone⟩ := bind_ok hrest
    cases hdone
    refine ⟨.refl record u, hvalid, hpushed.wasReturn.trans hreturn.symm, ⟨_, htells, ?_⟩, rfl,
      ⟨u.RAS tid, hpushed.move, ?_⟩, .untouched hindirect⟩
    · simp
    · rw [update_eq_self]
  | false =>
    obtain ⟨⟨record', u'⟩, hmiss, hdone⟩ := bind_ok hrest
    cases hdone
    unfold missBTB at hmiss
    by_cases hcall : isa.isCall inst = true
    · -- A call is not told of; it may be popped.
      simp only [hcall, Bool.not_true, Bool.false_and, Bool.false_eq_true, if_false] at hmiss htells
      obtain ⟨ras', left, hpop, hkept, hmove, hleft, hindirect'⟩ := popMissedCall_effect hpushed
      rw [hpop] at hmiss
      cases hmiss
      exact ⟨hkept, hvalid, hleft.trans hreturn.symm, ⟨_, htells, rfl⟩, rfl, ⟨ras', hmove, rfl⟩,
        .untouched (hindirect'.trans hindirect)⟩
    · simp only [hcall, hreturn, Bool.not_false, Bool.and_self, if_true] at hmiss htells
      obtain ⟨s, htold, hdone⟩ := bind_ok hmiss
      cases hdone
      refine ⟨⟨rfl, rfl, rfl, rfl, rfl⟩, hvalid, hpushed.wasReturn.trans hreturn.symm, ⟨_, htells, htold⟩, rfl,
        ⟨u.RAS tid, hpushed.move, ?_⟩, .untouched hindirect⟩
      rw [update_eq_self]

theorem predictIndirect_effect (hpushed : Pushed isa inst pc ras record (u.RAS tid))
    (hreturn : isa.isReturn inst = false) (huses : usesBTB isa p inst = false)
    (h : predictIndirect d isa u inst pc tid record = .ok prediction) :
    Kept record u prediction.record prediction.unit ∧
      (lookupIndirect d isa u pc tid record.bpHistory).map Option.isSome = .ok prediction.pred_taken ∧
      TargetEffect d isa u inst pc tid ras record prediction.record prediction.unit := by
  obtain ⟨found, hlookup, hrest⟩ := bind_ok h
  have htells : tellsMiss isa u inst pc tid record.predTaken = .ok false := by
    simp [tellsMiss, huses]
  rw [hlookup]
  cases found with
  | some target =>
    cases hrest
    refine ⟨⟨rfl, rfl, rfl, rfl, rfl⟩, rfl, hpushed.wasReturn.trans hreturn.symm, ⟨_, htells, rfl⟩, rfl,
      ⟨u.RAS tid, hpushed.indirect.move, ?_⟩, .recorded rfl _ hlookup target⟩
    exact (update_eq_self ..).symm
  | none =>
    obtain ⟨ras', left, hpop, hkept, hmove, hleft, hindirect⟩ := popMissedCall_effect hpushed.indirect
    simp only [hpop] at hrest
    cases hrest
    exact ⟨{ hkept with }, rfl, hleft.trans hreturn.symm, ⟨_, htells, rfl⟩, rfl, ⟨ras', hmove, rfl⟩,
      .recorded hindirect _ hlookup _⟩

theorem predictTaken_effect (htaken : record.predTaken = true) (hused : record.usedRAS = false)
    (hcall : record.wasCall = false) (hwasReturn : record.wasReturn = false)
    (hindirect : record.wasIndirect = false) (h : predictTaken d isa u inst pc tid record = .ok prediction) :
    Kept record u prediction.record prediction.unit ∧
      targetFound d isa u inst pc tid record.bpHistory = .ok prediction.pred_taken ∧
      TargetEffect d isa u inst pc tid (u.RAS tid) record prediction.record prediction.unit := by
  unfold predictTaken at h
  cases hreturn : isa.isReturn inst with
  | true =>
    rw [if_pos hreturn] at h
    obtain ⟨rasTop, htop, hdone⟩ := bind_ok h
    cases hdone
    refine ⟨⟨rfl, rfl, rfl, rfl, rfl⟩, if_pos hreturn, hreturn.symm, ⟨false, ?_, rfl⟩, rfl,
      ⟨_, .returned rfl rfl htop, rfl⟩, .untouched hindirect⟩
    simp [tellsMiss, hreturn]
  | false =>
    rw [hreturn] at h
    obtain ⟨⟨called, u'⟩, hpush, hrest⟩ := bind_ok h
    obtain ⟨ras, rfl, hkept, hsame, hpushed⟩ := pushCall_effect hpush
    have hpushed' : Pushed isa inst pc (u.RAS tid) called ((u.setRAS tid ras).RAS tid) := by
      rw [State.setRAS_self]
      exact hpushed hused hwasReturn hcall
    obtain ⟨hkept', hfound, heffect⟩ : Kept called (u.setRAS tid ras) prediction.record prediction.unit ∧
        targetFound d isa u inst pc tid called.bpHistory = .ok prediction.pred_taken ∧
        TargetEffect d isa (u.setRAS tid ras) inst pc tid (u.RAS tid) called prediction.record prediction.unit := by
      unfold targetFound
      cases huses : usesBTB isa p inst with
      | true =>
        simp only [huses, hreturn, if_true] at hrest ⊢
        exact predictDirect_effect hpushed' (hkept.predTaken.trans htaken) (hsame.trans hindirect) hreturn huses hrest
      | false =>
        simp only [huses, hreturn] at hrest ⊢
        exact predictIndirect_effect hpushed' hreturn huses hrest
    obtain ⟨hwas, htold, hBTB, ⟨ras', hmove, hRAS⟩, hpath⟩ := heffect
    rw [hkept.predTaken, hkept.bpHistory] at htold
    rw [hkept.bpHistory] at hpath hfound
    refine ⟨hkept.trans hkept', hfound, hwas, htold, hBTB, ⟨ras', hmove, ?_⟩, hpath⟩
    rw [hRAS, State.setRAS, update_idem]

/-- `predict` queues a record with the direction of the predictor, and returns
that direction unless it misses the target. -/
theorem predict_effect (h : predict d isa u inst seqNum pc tid = .ok (pred_taken, target, u')) :
    ∃ record s missed, Effect d isa u inst seqNum pc tid record s u' ∧ targetMiss d isa u inst pc tid = .ok missed ∧
      pred_taken = (record.predTaken && !missed) ∧ (missed = true → record.predTaken = true) := by
  obtain ⟨⟨taken, bp_history, s⟩, hdirection, hrest⟩ := bind_ok h
  obtain ⟨⟨answer, next, record, v⟩, hprediction, hdone⟩ := bind_ok hrest
  cases hdone
  obtain ⟨hkept, hfound, hwas, htold, hBTB, hRAS, hpath⟩ :
      Kept (newRecord isa pc seqNum taken bp_history) { u with predictor := s } record v ∧
      (if taken then targetFound d isa { u with predictor := s } inst pc tid bp_history = .ok pred_taken
        else pred_taken = false) ∧
      TargetEffect d isa { u with predictor := s } inst pc tid (u.RAS tid) (newRecord isa pc seqNum taken bp_history)
        record v := by
    unfold predictTarget at hprediction
    cases taken with
    | true => exact predictTaken_effect rfl rfl rfl rfl rfl hprediction
    | false =>
      cases hprediction
      refine ⟨⟨rfl, rfl, rfl, rfl, rfl⟩, rfl, rfl, ⟨false, rfl, rfl⟩, rfl, ⟨u.RAS tid, .untouched rfl rfl, ?_⟩,
        .untouched rfl⟩
      exact (update_eq_self ..).symm
  obtain ⟨hseqNum, hpc, hhistory, htaken, hhist⟩ := hkept
  change record.bpHistory = bp_history at hhistory
  change record.predTaken = taken at htaken
  subst hhistory htaken
  rw [targetMiss, bind_of_ok hdirection]
  refine ⟨record, s, record.predTaken && !pred_taken, ⟨hseqNum, hpc, hwas, hdirection, htold, ?_, hBTB, hRAS, hpath⟩,
    ?_, ?_, fun hmissed => (Bool.and_eq_true_iff.mp hmissed).1⟩
  · simp only [State.setPredHist, hhist]
  · cases htaken : record.predTaken with
    | true =>
      rw [htaken] at hfound
      exact bind_of_ok hfound _
    | false => rfl
  · cases htaken : record.predTaken with
    | true => simp only [Bool.true_and, Bool.not_not]
    | false =>
      rw [htaken] at hfound
      exact hfound

theorem Effect.queue (h : Effect d isa u inst seqNum pc tid record s u') :
    u'.predHist tid = record :: u.predHist tid := by
  rw [h.predHist, update_self]

theorem Effect.toldOfMiss (h : Effect d isa u inst seqNum pc tid record s u') :
    ToldOfMiss d tid (isa.instAddr pc) record.bpHistory s u'.predictor := by
  obtain ⟨told, -, htold⟩ := h.told
  cases told with
  | true => exact .inr htold
  | false => exact .inl (Except.ok.inj htold).symm

end

end Gem5.BPredUnit
