import Gem5.Pred.BPredUnit.IndirectTarget

open Lib List Function

namespace Gem5.IndirectPredictor

variable {PC : Type} {p : Params}

/-- The sequence numbers of the entries from `headHistEntry` on, which no commit has
passed. -/
def ThreadInfo.uncommitted (info : ThreadInfo) : List InstSeqNum :=
  (info.pathHist.map HistoryEntry.seqNum).drop info.headHistEntry

theorem ThreadInfo.length_pathHist_le (info : ThreadInfo) :
    info.pathHist.length ≤ info.headHistEntry + info.uncommitted.length := by
  rw [uncommitted, length_drop, length_map]
  omega

theorem ThreadInfo.mem_uncommitted {info : ThreadInfo} {entry : HistoryEntry}
    (h : info.pathHist[position]? = some entry) (hle : info.headHistEntry ≤ position) :
    entry.seqNum ∈ info.uncommitted := by
  refine mem_of_getElem? (i := position - info.headHistEntry) ?_
  rw [uncommitted, getElem?_drop, Nat.add_sub_cancel' hle, getElem?_map, h, Option.map_some]

/-- A commit passes one entry at most, and it has at most a whole path in front of
those that are left. -/
theorem commit_uncommitted (ipred : State p PC) (seq_num : InstSeqNum) (tid : ThreadID) :
    ((commit p ipred seq_num tid).threadInfo tid).headHistEntry ≤
      max (ipred.threadInfo tid).headHistEntry p.pathLength.toNat ∧
      ((∃ oldest younger, (ipred.threadInfo tid).uncommitted = oldest :: younger ∧ oldest ≤ seq_num ∧
          ((commit p ipred seq_num tid).threadInfo tid).uncommitted = younger) ∨
        (∀ oldest ∈ (ipred.threadInfo tid).uncommitted.head?, seq_num < oldest) ∧
          ((commit p ipred seq_num tid).threadInfo tid).uncommitted = (ipred.threadInfo tid).uncommitted) := by
  have holdest : (ipred.threadInfo tid).uncommitted.head? =
      (ipred.threadInfo tid).pathHist[(ipred.threadInfo tid).headHistEntry]?.map HistoryEntry.seqNum := by
    rw [ThreadInfo.uncommitted, head?_drop, getElem?_map]
  have hyounger : (ipred.threadInfo tid).uncommitted.tail =
      ((ipred.threadInfo tid).pathHist.map HistoryEntry.seqNum).drop ((ipred.threadInfo tid).headHistEntry + 1) := by
    rw [ThreadInfo.uncommitted, tail_drop]
  rw [holdest]
  unfold commit
  dsimp only
  split
  · rename_i hhead
    rw [hhead]
    exact ⟨Nat.le_max_left _ _, .inr ⟨fun _ h => (by cases h), rfl⟩⟩
  rename_i head hhead
  rw [hhead, Option.map_some]
  rw [hhead, Option.map_some] at holdest
  have hcons := eq_cons_of_mem_head? holdest
  split
  · rename_i hdone
    split
    · simp only [State.setThreadInfo, update_self]
      refine ⟨Nat.le_max_left _ _, .inl ⟨_, _, hcons, hdone, ?_⟩⟩
      rw [hyounger, ThreadInfo.uncommitted, map_tail, drop_tail]
    · rename_i hlength
      simp only [State.setThreadInfo, update_self]
      exact ⟨by omega, .inl ⟨_, _, hcons, hdone, hyounger.symm⟩⟩
  · rename_i hdone
    refine ⟨Nat.le_max_left _ _, .inr ⟨?_, rfl⟩⟩
    rintro _ ⟨⟩
    exact Nat.not_le.mp hdone

end Gem5.IndirectPredictor

namespace Gem5.BPredUnit

variable {S H PC Inst : Type} {p : Params}

/-- The sequence numbers of the indirect branches in flight, oldest first. -/
def State.indirects (u : State p S H PC) (tid : ThreadID) : List InstSeqNum :=
  ((u.predHist tid).reverse.filter PredictorHistory.wasIndirect).map PredictorHistory.seqNum

theorem State.indirects_of_cons {u : State p S H PC} {record : PredictorHistory H PC}
    {older : List (PredictorHistory H PC)} (h : u.predHist tid = record :: older) :
    u.indirects tid = (older.reverse.filter PredictorHistory.wasIndirect).map PredictorHistory.seqNum ++
      if record.wasIndirect then [record.seqNum] else [] := by
  rw [indirects, h, reverse_cons, filter_append, map_append]
  cases hwas : record.wasIndirect <;> simp [hwas]

/-- The path entries that no commit has passed are those of indirect branches in
flight, and there is at most a whole path in front of them. -/
structure Trailing (tid : ThreadID) (u : State p S H PC) : Prop where
  uncommitted : (u.iPred.threadInfo tid).uncommitted.Sublist (u.indirects tid)
  head : (u.iPred.threadInfo tid).headHistEntry ≤ p.indirectPathLength.toNat

/-- A commit retires at most one of the entries that no commit has passed. -/
def RetiresOne (tid : ThreadID) : State p S H PC × Log p S H PC Inst → Op PC Inst → Prop
  | (u, _), .update done_sn => ((u.iPred.threadInfo tid).uncommitted.filter (· ≤ done_sn)).length ≤ 1
  | _, _ => True

instance (tid : ThreadID) : ∀ (state : State p S H PC × Log p S H PC Inst) op, Decidable (RetiresOne tid state op)
  | _, .update _ => inferInstanceAs (Decidable (_ ≤ _))
  | _, .predict .. | _, .squash _ | _, .squashMispredicted .. => .isTrue trivial

section

variable {d : DirectionPredictor S H} {isa : ISA PC Inst} {tid : ThreadID} {u u' : State p S H PC}
  {log : Log p S H PC Inst}

section

variable (h : Trailing tid u)
include h

/-- Calls that take branches out of the queue and out of the path by their number. -/
theorem Trailing.filter (keep : InstSeqNum → Bool)
    (hqueue : u'.predHist tid = (u.predHist tid).filter fun record => keep record.seqNum)
    (hpath : (u'.iPred.threadInfo tid).uncommitted.Sublist (u.iPred.threadInfo tid).uncommitted)
    (hkeep : ∀ sn ∈ (u'.iPred.threadInfo tid).uncommitted, keep sn = true)
    (hhead : (u'.iPred.threadInfo tid).headHistEntry ≤ p.indirectPathLength.toNat) : Trailing tid u' := by
  refine ⟨?_, hhead⟩
  have hindirects : u'.indirects tid = (u.indirects tid).filter keep := by
    simp only [State.indirects, hqueue, ← filter_reverse, filter_filter, filter_map, Bool.and_comm]
    rfl
  rw [hindirects, ← filter_eq_self.mpr hkeep]
  exact (hpath.trans h.uncommitted).filter keep

theorem Trailing.predict (hpredict : predict d isa u inst seqNum pc tid = .ok (pred_taken, target, u')) :
    Trailing tid u' := by
  obtain ⟨record, s, -, heffect, -⟩ := predict_effect hpredict
  have hindirects : u'.indirects tid = u.indirects tid ++ if record.wasIndirect then [record.seqNum] else [] :=
    State.indirects_of_cons heffect.queue
  rcases heffect.iPred.threadInfo with ⟨hindirect, hinfo⟩ | ⟨hindirect, -, targetAddr, hinfo⟩
  · refine ⟨?_, hinfo ▸ h.head⟩
    rw [hinfo, hindirects, hindirect]
    exact h.uncommitted.trans (sublist_append_left _ _)
  refine ⟨?_, by rw [hinfo]; exact h.head⟩
  rw [hinfo, hindirects, hindirect, if_pos rfl]
  simp only [IndirectPredictor.ThreadInfo.uncommitted, map_append, drop_append]
  exact h.uncommitted.append (drop_sublist _ _)

/-- What a commit that retires one entry leaves uncommitted is younger. -/
theorem Trailing.update (hpath : OnPath d isa tid (u, log))
    (hone : RetiresOne tid (u, log) (.update done_sn)) (hupdate : update d u done_sn tid = .ok (calls, u')) :
    Trailing tid u' ∧ ∀ sn ∈ (u'.iPred.threadInfo tid).uncommitted, done_sn < sn := by
  obtain ⟨s, -, hu'⟩ := update_effect hupdate
  have hiPred : u'.iPred = IndirectPredictor.commit p.iPred u.iPred done_sn tid := by rw [hu']
  have horder : (u.iPred.threadInfo tid).uncommitted.Pairwise (· < ·) :=
    (pairwise_map.mpr hpath.inOrder).sublist (drop_sublist _ _)
  obtain ⟨hhead, hcommit⟩ := IndirectPredictor.commit_uncommitted u.iPred done_sn tid
  rw [← hiPred] at hhead hcommit
  have hyounger : (u'.iPred.threadInfo tid).uncommitted.Sublist (u.iPred.threadInfo tid).uncommitted ∧
      ∀ sn ∈ (u'.iPred.threadInfo tid).uncommitted, done_sn < sn := by
    obtain ⟨oldest, younger, hcons, hdone, hafter⟩ | ⟨hdone, hafter⟩ := hcommit
    · -- a second entry that retires would follow the one that is passed
      rw [RetiresOne, hcons, filter_cons_of_pos (by simpa using hdone), length_cons] at hone
      have hnone : younger.filter (· ≤ done_sn) = [] := eq_nil_of_length_eq_zero (by omega)
      rw [hafter, hcons]
      refine ⟨sublist_cons_self _ _, fun sn hsn => ?_⟩
      simpa using filter_eq_nil_iff.mp hnone sn hsn
    · rw [hafter]
      refine ⟨List.Sublist.refl _, fun sn hsn => ?_⟩
      cases hcons : (u.iPred.threadInfo tid).uncommitted with
      | nil =>
        rw [hcons] at hsn
        cases hsn
      | cons oldest younger =>
        rw [hcons] at hsn horder hdone
        have hlt : done_sn < oldest := hdone oldest rfl
        rcases mem_cons.mp hsn with rfl | hsn
        · exact hlt
        · exact hlt.trans ((pairwise_cons.mp horder).1 sn hsn)
  refine ⟨h.filter (fun sn => decide (done_sn < sn)) (hpath.predHist_update hupdate) hyounger.1
    (fun sn hsn => decide_eq_true (hyounger.2 sn hsn)) ?_, hyounger.2⟩
  exact hhead.trans (max_le h.head (Nat.le_refl _))

theorem Trailing.squash (hpath : OnPath d isa tid (u, log))
    (hsquash : squash d u squashed_sn tid = .ok u') : Trailing tid u' := by
  obtain ⟨ras, s, -, -, hu'⟩ := squash_effect hsquash
  have hinfo : u'.iPred.threadInfo tid = { u.iPred.threadInfo tid with
      pathHist := (u.pathHist tid).takeWhile fun entry => entry.seqNum ≤ squashed_sn } := by
    rw [hu']
    simp only [IndirectPredictor.squash, IndirectPredictor.State.setThreadInfo, update_self]
  refine h.filter (fun sn => decide (sn ≤ squashed_sn)) (hpath.predHist_squash hsquash) ?_ ?_
    (by rw [hinfo]; exact h.head)
  · rw [hinfo]
    exact ((takeWhile_sublist _).map _).drop _
  · rw [hinfo]
    intro sn hsn
    obtain ⟨entry, hentry, rfl⟩ := mem_map.mp (mem_of_mem_drop hsn)
    exact all_eq_true.mp all_takeWhile entry hentry

end

theorem Trailing.retarget (h : Trailing tid left) (hleft : left.predHist tid = front :: older)
    (hfix : correctFront d isa left front corrTarget actually_taken tid rand = .ok (front', u')) :
    Trailing tid (u'.setPredHist tid (front' :: older)) := by
  obtain ⟨hkept, -, hwas, ghr, -, hiPred⟩ := correctFront_spec hfix
  have hindirects : (u'.setPredHist tid (front' :: older)).indirects tid = left.indirects tid := by
    rw [State.indirects_of_cons (State.setPredHist_self ..), State.indirects_of_cons hleft, hwas, hkept.seqNum]
  -- the path keeps its numbers
  have hinfo : (u'.iPred.threadInfo tid).uncommitted = (left.iPred.threadInfo tid).uncommitted ∧
      (u'.iPred.threadInfo tid).headHistEntry = (left.iPred.threadInfo tid).headHistEntry := by
    split at hiPred
    · obtain ⟨newest, set_index, tag, iset, iset', hlast, -, -, -, -, hinfo⟩ :=
        IndirectPredictor.recordTarget_spec hiPred
      rw [hinfo]
      refine ⟨?_, rfl⟩
      rw [IndirectPredictor.ThreadInfo.uncommitted, IndirectPredictor.ThreadInfo.uncommitted,
        ← dropLast_append_getLast? newest hlast, dropLast_concat, map_append, map_append]
      rfl
    · rw [hiPred]
      exact ⟨rfl, rfl⟩
  refine ⟨?_, ?_⟩
  · rw [hindirects]
    exact hinfo.1 ▸ h.uncommitted
  · exact hinfo.2.trans_le h.head

/-- After a commit the entries that it retires have been passed. -/
def Passed (tid : ThreadID) (state : State p S H PC × Log p S H PC Inst) : Prop :=
  ∀ before done_sn answer earlier, state.2 = (before, .update done_sn, answer) :: earlier →
    ∀ sn ∈ (state.1.iPred.threadInfo tid).uncommitted, done_sn < sn

theorem Trailing.step (h : Trailing tid state.1) (hpath : OnPath d isa tid state) (hone : RetiresOne tid state op)
    (hstep : (machine d isa p tid).logged.step state op = .ok (answer, state')) :
    Trailing tid state'.1 ∧ Passed tid state' := by
  obtain ⟨u, log⟩ := state
  obtain ⟨u', hcall, rfl⟩ := Machine.logged_step_eq_ok_iff.mp hstep
  cases step_iff.mp hcall with
  | predict hpredict => exact ⟨h.predict hpredict, fun _ _ _ _ hlog => by cases hlog⟩
  | update hupdate =>
    obtain ⟨htrailing, hyounger⟩ := h.update hpath hone hupdate
    refine ⟨htrailing, fun _ _ _ _ hlog => ?_⟩
    cases hlog
    exact hyounger
  | squash hsquash => exact ⟨h.squash hpath hsquash, fun _ _ _ _ hlog => by cases hlog⟩
  | squashMispredicted hsquash =>
    obtain ⟨left, hleft, hcase⟩ := squashMispredicted_eq_ok_iff.mp hsquash
    have htrailing : Trailing tid left := h.squash hpath hleft
    refine ⟨?_, fun _ _ _ _ hlog => by cases hlog⟩
    rcases hcase with ⟨-, rfl⟩ | ⟨front, older, front', fixed, hfront, -, hfix, rfl⟩
    · exact htrailing
    · exact htrailing.retarget hfront hfix

end

/-- In every run of the unit on one thread in which each commit retires at most one of
the path entries from `headHistEntry` on: after a commit all entries that have retired
are in front of `headHistEntry`, of which there are at most `pathLength`, and the path
has at most `pathLength` entries more than there are indirect branches in flight. -/
theorem path_length_bounded (d : DirectionPredictor S H) (isa : ISA PC Inst) (p : Params) (tid : ThreadID) (s : S)
    (u : State p S H PC) (hu : construct isa p s = .ok u) (ops : List (Op PC Inst)) (answers : List (Answer PC))
    (v : State p S H PC) (log : Log p S H PC Inst)
    (hrun : (machine d isa p tid).logged.run (u, []) ops = .ok (answers, (v, log)))
    (hops : (machine d isa p tid).logged.StepsAll
      (fun state op => Fresh state op ∧ RetiresOne tid state op) (u, []) ops) :
    (∀ before done_sn answer earlier, log = (before, .update done_sn, answer) :: earlier → ∀ (position : Nat) entry,
      (v.pathHist tid)[position]? = some entry → entry.seqNum ≤ done_sn →
      position < (v.iPred.threadInfo tid).headHistEntry) ∧
    (v.iPred.threadInfo tid).headHistEntry ≤ p.indirectPathLength.toNat ∧
    (v.pathHist tid).length ≤
      p.indirectPathLength.toNat + ((v.predHist tid).filter PredictorHistory.wasIndirect).length := by
  obtain ⟨-, -, rfl⟩ := construct_eq_ok_iff.mp hu
  obtain ⟨-, htrailing, hpassed⟩ : OnPath d isa tid (v, log) ∧ Trailing tid v ∧ Passed tid (v, log) := by
    refine Machine.run_invariant (I := fun state => OnPath d isa tid state ∧ Trailing tid state.1 ∧ Passed tid state) ?_
      ⟨.initial isa s, ⟨List.Sublist.refl _, Nat.zero_le _⟩, fun _ _ _ _ hlog => by cases hlog⟩ hops hrun
    rintro state op answer state' ⟨hpath, htrailing, -⟩ ⟨hfresh, hone⟩ hstep
    exact ⟨hpath.step hfresh hstep, htrailing.step hpath hone hstep⟩
  refine ⟨?_, htrailing.head, ?_⟩
  · intro before done_sn answer earlier hlog position entry hentry hdone
    by_contra hge
    have hlt := hpassed before done_sn answer earlier hlog _
      (IndirectPredictor.ThreadInfo.mem_uncommitted hentry (Nat.not_lt.mp hge))
    exact absurd hdone (Nat.not_le.mpr hlt)
  · have hlength := htrailing.uncommitted.length_le
    rw [State.indirects, length_map, filter_reverse, length_reverse] at hlength
    have hpath : (v.pathHist tid).length ≤ _ := (v.iPred.threadInfo tid).length_pathHist_le
    have hhead := htrailing.head
    omega

/-- The second of two commits pops the front of the path. -/
theorem path_length_bounded_after_pop : ∃ answers v log,
      (machine (TournamentBP.predictor TournamentBP.smallParams) alpha smallParams 0).logged.run
        (.initial alpha smallParams (.initial TournamentBP.smallParams), []) threeJumps = .ok (answers, (v, log)) ∧
      (v.pathHist 0).map (·.seqNum) = [2, 3] ∧
      (v.pathHist 0).length ≤ 1 + ((v.predHist 0).filter PredictorHistory.wasIndirect).length := by
  have hpath : ((machine (TournamentBP.predictor TournamentBP.smallParams) alpha smallParams 0).logged.run
        (.initial alpha smallParams (.initial TournamentBP.smallParams), []) threeJumps).map
      (fun final => (final.2.1.pathHist 0).map (·.seqNum)) = .ok [2, 3] := by decide +kernel
  obtain ⟨⟨answers, v, log⟩, hrun, hpath⟩ := Result.map_ok hpath
  refine ⟨answers, v, log, hrun, hpath, (path_length_bounded _ alpha smallParams 0 (.initial TournamentBP.smallParams)
    (.initial alpha smallParams _) rfl threeJumps answers v log hrun (.and ?fresh ?retires)).2.2⟩
  case fresh => exact stepsAll_fresh nofun (by decide)
  decide +kernel

/-- A commit of three indirect branches passes one of them: the path keeps all three,
while none is in flight. -/
theorem path_grows_when_three_branches_commit :
    (do
      let (_, v, _) ← (machine (TournamentBP.predictor TournamentBP.smallParams) alpha smallParams 0).logged.run
        (State.initial alpha smallParams (TournamentBP.State.initial TournamentBP.smallParams), [])
        [.predict indirectJump 1 (.set 0), .predict indirectJump 2 (.set 64), .predict indirectJump 3 (.set 8),
        .update 3]
      .ok ((v.pathHist 0).map (·.seqNum), (v.iPred.threadInfo 0).headHistEntry, (v.predHist 0).length)) =
    (.ok ([1, 2, 3], 1, 0) : Result (List InstSeqNum × Nat × Nat)) := by
  decide +kernel

end Gem5.BPredUnit
