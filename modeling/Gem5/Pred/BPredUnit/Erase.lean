import Gem5.Pred.BPredUnit.Retire

open Lib Result Function List

namespace Gem5.BPredUnit

variable {S S' H H' PC Inst : Type} {p : Params}

def PredictorHistory.map (f : H' → H) (record : PredictorHistory H' PC) : PredictorHistory H PC :=
  { record with bpHistory := f record.bpHistory }

def State.map (g : S' → S) (f : H' → H) (u : State p S' H' PC) : State p S H PC where
  predictor := g u.predictor
  predHist := fun tid => (u.predHist tid).map (PredictorHistory.map f)
  BTB := u.BTB
  RAS := u.RAS
  iPred := u.iPred

def Prediction.map (g : S' → S) (f : H' → H) (prediction : Prediction p S' H' PC) : Prediction p S H PC :=
  ⟨prediction.pred_taken, prediction.target, prediction.record.map f, prediction.unit.map g f⟩

/-- Method by method, the predictor `d'` does what `d` does, once what it keeps
beside the state and the history objects of `d` is erased by `g` and `f`. -/
structure Erases (d' : DirectionPredictor S' H') (d : DirectionPredictor S H) (g : S' → S) (f : H' → H) :
    Prop where
  lookup : ∀ s tid pc, d.lookup (g s) tid pc =
    (d'.lookup s tid pc).map fun (taken, h, s) => (taken, f h, g s)
  uncondBranch : ∀ s tid pc, d.uncondBranch (g s) tid pc =
    (d'.uncondBranch s tid pc).map fun (h, s) => (f h, g s)
  btbUpdate : ∀ s tid pc h, d.btbUpdate (g s) tid pc (f h) = (d'.btbUpdate s tid pc h).map g
  update : ∀ s tid pc taken h squashed, d.update (g s) tid pc taken (f h) squashed =
    (d'.update s tid pc taken h squashed).map g
  squash : ∀ s tid h, d.squash (g s) tid (f h) = (d'.squash s tid h).map g

theorem State.map_setPredHist (g : S' → S) (f : H' → H) (u : State p S' H' PC) (tid : ThreadID)
    (queue : List (PredictorHistory H' PC)) :
    (u.setPredHist tid queue).map g f = (u.map g f).setPredHist tid (queue.map (PredictorHistory.map f)) := by
  simp only [State.map, State.setPredHist, State.mk.injEq, and_true, true_and]
  funext t
  by_cases ht : t = tid
  · subst ht
    rw [update_self, update_self]
  · rw [update_of_ne ht, update_of_ne ht]

section

variable {d' : DirectionPredictor S' H'} {d : DirectionPredictor S H} {g : S' → S} {f : H' → H}
  (isa : ISA PC Inst) (h : Erases d' d g f) (u : State p S' H' PC) (inst : Inst) (pc : PC) (tid : ThreadID)
  (record : PredictorHistory H' PC)

theorem pushCall_map : pushCall isa (u.map g f) inst pc tid (record.map f) =
      (pushCall isa u inst pc tid record).map fun (record, u) => (record.map f, u.map g f) := by
  unfold pushCall
  split
  · rw [map_bind]
    rfl
  · rfl

theorem popMissedCall_map : popMissedCall isa (u.map g f) inst tid (record.map f) =
      ((popMissedCall isa u inst tid record).1.map f, (popMissedCall isa u inst tid record).2.map g f) := by
  unfold popMissedCall
  split <;> rfl

section

include h

theorem direction_map : direction d isa (u.map g f) inst pc tid =
      (direction d' isa u inst pc tid).map fun (taken, h, s) => (taken, f h, g s) := by
  unfold direction
  split
  · rw [State.map, h.uncondBranch, bind_map, map_bind]
    rfl
  · rw [State.map, h.lookup]

theorem missBTB_map : missBTB d isa (u.map g f) inst pc tid (record.map f) =
      (missBTB d' isa u inst pc tid record).map fun (record, u) => (record.map f, u.map g f) := by
  unfold missBTB
  split
  · simp only [State.map, PredictorHistory.map, h.btbUpdate, bind_map, map_bind]
    rfl
  · rw [popMissedCall_map]
    rfl

theorem predictDirect_map : predictDirect d isa (u.map g f) inst pc tid (record.map f) =
      (predictDirect d' isa u inst pc tid record).map (Prediction.map g f) := by
  unfold predictDirect
  rw [map_bind]
  apply bind_congr
  rintro (_ | _)
  · simp only [missBTB_map isa h, bind_map, map_bind, Bool.false_eq_true, if_false]
    rfl
  · simp only [if_true, map_bind]
    rfl

end

section

variable (hghr : d.getGHR (g u.predictor) tid (f record.bpHistory) = d'.getGHR u.predictor tid record.bpHistory)

include hghr

theorem predictIndirect_map : predictIndirect d isa (u.map g f) inst pc tid (record.map f) =
      (predictIndirect d' isa u inst pc tid record).map (Prediction.map g f) := by
  have hlookup : lookupIndirect d isa (u.map g f) pc tid (f record.bpHistory) =
      lookupIndirect d' isa u pc tid record.bpHistory := by
    simp only [lookupIndirect, State.map, hghr]
  have hpop := popMissedCall_map (g := g) (f := f) isa u inst tid { record with wasIndirect := true }
  unfold predictIndirect
  rw [map_bind]
  refine (congrArg (· >>= _) hlookup).trans (bind_congr ?_)
  rintro (_ | target)
  · simp only [PredictorHistory.map] at hpop ⊢
    rw [hpop]
    rfl
  · rfl

include h

theorem predictTaken_map : predictTaken d isa (u.map g f) inst pc tid (record.map f) =
      (predictTaken d' isa u inst pc tid record).map (Prediction.map g f) := by
  unfold predictTaken
  split
  · simp only [predictReturn, map_bind]
    rfl
  rw [pushCall_map, bind_map, map_bind]
  cases hcall : pushCall isa u inst pc tid record with
  | error fault => rfl
  | ok called =>
    obtain ⟨called, u'⟩ := called
    obtain ⟨ras, rfl, hkept, -⟩ := pushCall_effect hcall
    simp only [bind_of_ok rfl]
    split
    · exact predictDirect_map isa h _ inst pc tid called
    · refine predictIndirect_map isa _ inst pc tid called ?_
      rw [hkept.bpHistory]
      exact hghr

theorem predictTarget_map : predictTarget d isa (u.map g f) inst pc tid (record.map f) =
      (predictTarget d' isa u inst pc tid record).map (Prediction.map g f) := by
  unfold predictTarget
  by_cases htaken : record.predTaken = true
  · rw [if_pos (show (record.map f).predTaken = true from htaken), if_pos htaken,
      predictTaken_map isa h u inst pc tid record hghr]
  · rw [if_neg (show ¬(record.map f).predTaken = true from htaken), if_neg htaken]
    rfl

end

section

include h

theorem predict_map (hghr : ∀ taken bp_history s, direction d' isa u inst pc tid = .ok (taken, bp_history, s) →
      d.getGHR (g s) tid (f bp_history) = d'.getGHR s tid bp_history) : predict d isa (u.map g f) inst seqNum pc tid =
      (predict d' isa u inst seqNum pc tid).map fun (taken, target, u) => (taken, target, u.map g f) := by
  unfold predict
  rw [direction_map isa h, bind_map, map_bind]
  cases hdirection : direction d' isa u inst pc tid with
  | error fault => rfl
  | ok first =>
    obtain ⟨taken, bp_history, s⟩ := first
    have htarget := predictTarget_map isa h { u with predictor := s } inst pc tid
      (newRecord isa pc seqNum taken bp_history) (hghr taken bp_history s hdirection)
    simp only [bind_of_ok rfl]
    refine (congrArg (· >>= _) htarget).trans ?_
    rw [bind_map, map_bind]
    apply bind_congr
    rintro ⟨answer, target, record, v⟩
    exact congrArg (fun v => Except.ok (answer, target, v))
      (State.map_setPredHist g f v tid (record :: v.predHist tid)).symm

theorem commitOldest_map (done_sn : InstSeqNum) (queue : List (PredictorHistory H' PC)) (s : S') :
    commitOldest d done_sn tid (queue.map (PredictorHistory.map f)) (g s) = (commitOldest d' done_sn tid queue s).map
        fun (calls, rest, s) => (calls, rest.map (PredictorHistory.map f), g s) := by
  induction queue generalizing s with
  | nil => rfl
  | cons back younger ih =>
    rw [map_cons, commitOldest, commitOldest]
    by_cases hdone : back.seqNum ≤ done_sn
    · rw [if_pos (show (back.map f).seqNum ≤ done_sn from hdone), if_pos hdone]
      simp only [PredictorHistory.map, h.update, bind_map, map_bind]
      apply bind_congr
      intro s'
      refine (congrArg (· >>= _) (ih s')).trans ?_
      rw [bind_map]
      rfl
    · rw [if_neg (show ¬(back.map f).seqNum ≤ done_sn from hdone), if_neg hdone]
      rfl

theorem update_map (done_sn : InstSeqNum) : update d (u.map g f) done_sn tid =
      (update d' u done_sn tid).map fun (calls, u) => (calls, u.map g f) := by
  unfold update
  have hcommit := commitOldest_map h tid done_sn (u.predHist tid).reverse u.predictor
  rw [map_reverse] at hcommit
  refine (congrArg (· >>= _) hcommit).trans ?_
  rw [bind_map, map_bind]
  apply bind_congr
  rintro ⟨calls, rest, s⟩
  have hset := State.map_setPredHist g f
    { u with predictor := s, iPred := IndirectPredictor.commit p.iPred u.iPred done_sn tid } tid rest.reverse
  rw [map_reverse] at hset
  exact congrArg (fun v => Except.ok (calls, v)) hset.symm

theorem squashYoungest_map (squashed_sn : InstSeqNum) (queue : List (PredictorHistory H' PC)) :
    squashYoungest d squashed_sn tid (queue.map (PredictorHistory.map f)) (u.map g f) =
      (squashYoungest d' squashed_sn tid queue u).map
        fun (rest, u) => (rest.map (PredictorHistory.map f), u.map g f) := by
  induction queue generalizing u with
  | nil => rfl
  | cons front older ih =>
    rw [map_cons, squashYoungest, squashYoungest]
    by_cases hyounger : front.seqNum > squashed_sn
    · rw [if_pos (show (front.map f).seqNum > squashed_sn from hyounger), if_pos hyounger, map_bind]
      apply bind_congr
      intro ras
      simp only [PredictorHistory.map, State.map, h.squash, bind_map, map_bind]
      apply bind_congr
      intro s
      exact ih ({ u with predictor := s }.setRAS tid ras)
    · rw [if_neg (show ¬(front.map f).seqNum > squashed_sn from hyounger), if_neg hyounger]
      rfl

theorem squash_map (squashed_sn : InstSeqNum) :
    squash d (u.map g f) squashed_sn tid = (squash d' u squashed_sn tid).map (State.map g f) := by
  unfold squash
  have hloop := squashYoungest_map h
    { u with iPred := IndirectPredictor.squash p.iPred u.iPred squashed_sn tid } tid squashed_sn (u.predHist tid)
  refine (congrArg (· >>= _) hloop).trans ?_
  rw [bind_map, map_bind]
  apply bind_congr
  rintro ⟨rest, left⟩
  rw [Except.map, State.map_setPredHist]

end

theorem storeTarget_map (ghr : Unsigned) (corrTarget : PC) (rand : Nat) :
    storeTarget isa (u.map g f) (record.map f) ghr corrTarget tid rand =
      (storeTarget isa u record ghr corrTarget tid rand).map (State.map g f) := by
  unfold storeTarget
  by_cases hindirect : record.wasIndirect = true
  · rw [if_pos (show (record.map f).wasIndirect = true from hindirect), if_pos hindirect, map_bind]
    rfl
  · rw [if_neg (show ¬(record.map f).wasIndirect = true from hindirect), if_neg hindirect, map_bind]
    rfl

theorem correctTaken_map (ghr : Unsigned) (corrTarget : PC) (rand : Nat) :
    correctTaken isa (u.map g f) (record.map f) ghr corrTarget tid rand =
      (correctTaken isa u record ghr corrTarget tid rand).map fun (front, u) => (front.map f, u.map g f) := by
  unfold correctTaken
  by_cases hmissed : (record.wasReturn && !record.usedRAS) = true
  · have hstore := storeTarget_map (g := g) (f := f) isa (u.setRAS tid (u.RAS tid).pop) tid
      { record with usedRAS := true } ghr corrTarget rand
    simp only [PredictorHistory.map, State.map, hmissed, if_true] at hstore ⊢
    refine (congrArg (· >>= _) hstore).trans ?_
    rw [bind_map, map_bind]
    rfl
  · have hstore := storeTarget_map (g := g) (f := f) isa u tid record ghr corrTarget rand
    simp only [PredictorHistory.map, State.map, hmissed] at hstore ⊢
    refine (congrArg (· >>= _) hstore).trans ?_
    rw [bind_map, map_bind]
    rfl

theorem correctNotTaken_map : correctNotTaken (u.map g f) (record.map f) tid =
      (correctNotTaken u record tid).map fun (front, u) => (front.map f, u.map g f) := by
  unfold correctNotTaken
  rw [map_bind]
  apply bind_congr
  intro ras
  obtain ⟨_, _, _, _, _, _, usedRAS, pushedRAS, wasCall, _, _⟩ := record
  cases usedRAS <;> cases wasCall <;> cases pushedRAS <;> rfl

section

include h

theorem correctFront_map (corrTarget : PC) (actually_taken : Bool) (rand : Nat)
    (hghr : d.getGHR (g u.predictor) tid (f record.bpHistory) = d'.getGHR u.predictor tid record.bpHistory) :
    correctFront d isa (u.map g f) (record.map f) corrTarget actually_taken tid rand =
      (correctFront d' isa u record corrTarget actually_taken tid rand).map
        fun (front, u) => (front.map f, u.map g f) := by
  unfold correctFront
  have hupdate := h.update u.predictor tid record.pc actually_taken record.bpHistory true
  refine (congrArg (· >>= _) hghr).trans ?_
  rw [map_bind]
  apply bind_congr
  intro ghr
  refine (congrArg (· >>= _) hupdate).trans ?_
  rw [bind_map, map_bind]
  apply bind_congr
  intro s
  cases actually_taken with
  | true =>
    exact correctTaken_map (g := g) (f := f) isa { u with predictor := s } tid { record with predTaken := true } ghr
      corrTarget rand
  | false =>
    exact correctNotTaken_map (g := g) (f := f) { u with predictor := s } tid { record with predTaken := false }

theorem squashMispredicted_map (squashed_sn : InstSeqNum) (corrTarget : PC) (actually_taken : Bool) (rand : Nat)
    (hghr : ∀ left front older, squash d' u squashed_sn tid = .ok left → left.predHist tid = front :: older →
      d.getGHR (g left.predictor) tid (f front.bpHistory) = d'.getGHR left.predictor tid front.bpHistory) :
    squashMispredicted d isa (u.map g f) squashed_sn corrTarget actually_taken tid rand =
      (squashMispredicted d' isa u squashed_sn corrTarget actually_taken tid rand).map (State.map g f) := by
  unfold squashMispredicted
  rw [squash_map h, bind_map, map_bind]
  cases hsquash : squash d' u squashed_sn tid with
  | error fault => rfl
  | ok left =>
    simp only [bind_of_ok rfl]
    cases hleft : left.predHist tid with
    | nil =>
      have hmap : (left.map g f).predHist tid = [] := by simp [State.map, hleft]
      simp only [hmap]
      rfl
    | cons front older =>
      have hmap : (left.map g f).predHist tid = front.map f :: older.map (PredictorHistory.map f) := by
        simp [State.map, hleft]
      simp only [hmap]
      rw [map_bind]
      apply bind_congr
      intro _
      refine (congrArg (· >>= _) (correctFront_map isa h left tid front corrTarget actually_taken rand
        (hghr left front older hsquash hleft))).trans ?_
      rw [bind_map, map_bind]
      apply bind_congr
      rintro ⟨front', fixed⟩
      exact congrArg Except.ok (State.map_setPredHist g f fixed tid (front' :: older)).symm

end

end

end Gem5.BPredUnit
