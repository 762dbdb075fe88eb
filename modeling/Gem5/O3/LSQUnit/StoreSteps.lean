import Gem5.O3.LSQUnit.Refinement

open Lib Result Lib.Circular List

namespace Gem5.O3.LSQUnit

variable {l m : Nat} {p : LSQParams} {s s' : LSQUnit l m} {wb : Fin (m + 1)} {q : Queues l m}

/-- What the completion of a store leaves as it is. -/
structure KeepsSending (s s' : LSQUnit l m) : Prop where
  loads : KeepsLoads s s'
  storeWBIdx : s'.storeWBIdx = s.storeWBIdx
  isStoreBlocked : s'.isStoreBlocked = s.isStoreBlocked
  hasPendingPkt : s'.hasPendingPkt = s.hasPendingPkt

theorem KeepsSending.refl (s : LSQUnit l m) : KeepsSending s s := ⟨.refl s, rfl, rfl, rfl⟩

theorem KeepsSending.trans {s₁ s₂ s₃ : LSQUnit l m} (h : KeepsSending s₁ s₂) (h' : KeepsSending s₂ s₃) :
    KeepsSending s₁ s₃ where
  loads := h.loads.trans h'.loads
  storeWBIdx := h'.storeWBIdx.trans h.storeWBIdx
  isStoreBlocked := h'.isStoreBlocked.trans h.isStoreBlocked
  hasPendingPkt := h'.hasPendingPkt.trans h.hasPendingPkt

theorem Quiet.keepsSending (h : Quiet s s') : KeepsSending s s' :=
  ⟨h.loads, h.stores.storeWBIdx, h.stores.isStoreBlocked, h.stores.hasPendingPkt⟩

theorem KeepsSending.sending (h : KeepsSending s s') (hnext : q.NextCanWB → q'.NextCanWB) (hsending : s.Sending p q) :
    s'.Sending p q' := by
  refine ⟨?_, ?_, ?_, ?_⟩ <;> simp only [h.isStoreBlocked, h.hasPendingPkt]
  · exact fun hnow => hnext (hsending.blocked hnow)
  · exact fun hnow => hnext (hsending.pending hnow)
  · exact hsending.not_both
  · exact hsending.split

theorem KeepsSending.setStore (s : LSQUnit l m) (store_idx : Fin (m + 1)) (entry : SQEntry l) :
    KeepsSending s (s.setStore store_idx entry) := ⟨⟨fun _ => rfl, rfl, rfl, rfl, id⟩, rfl, rfl, rfl⟩

theorem KeepsSending.setCompleted (s : LSQUnit l m) (store_idx : Fin (m + 1)) :
    KeepsSending s (s.setCompleted store_idx) := ⟨⟨fun _ => rfl, rfl, rfl, rfl, id⟩, rfl, rfl, rfl⟩

theorem KeepsSending.setCanWB (s : LSQUnit l m) (store_idx : Fin (m + 1)) :
    KeepsSending s (s.setCanWB store_idx) := ⟨⟨fun _ => rfl, rfl, rfl, rfl, id⟩, rfl, rfl, rfl⟩

theorem KeepsSending.retireHead (s : LSQUnit l m) : KeepsSending s s.retireHead :=
  ⟨⟨fun _ => rfl, rfl, rfl, rfl, id⟩, rfl, rfl, rfl⟩

theorem unstall_spec (h : s.unstall storeIsn = .ok s') : KeepsStores s s' ∧ KeepsSending s s' := by
  unfold unstall at h
  split at h
  · split at h
    · cases h
    · cases h
      refine ⟨⟨rfl, rfl, rfl, rfl, rfl, rfl, rfl, rfl⟩, ⟨fun _ => rfl, rfl, rfl, rfl, ?_⟩, rfl, rfl, rfl⟩
      intro _ hstalled
      cases hstalled
  · cases h
    exact ⟨.refl _, .refl _⟩

variable {tag : StoreTag l} {rest : List (StoreTag l)}

theorem storePostSend_spec (h : s.Represents s.storeWBIdx q) (hnext : q.unsent = tag :: rest)
    (hcanWB : tag.canWB = true) (hsend : s.storePostSend p = .ok s') :
    s'.Represents s'.storeWBIdx { q with sent := q.sent ++ [tag], unsent := rest } ∧ KeepsLoads s s' ∧
      s'.isStoreBlocked = s.isStoreBlocked ∧ s'.hasPendingPkt = s.hasPendingPkt := by
  unfold storePostSend at hsend
  split at hsend
  · cases hsend
  obtain ⟨next, hunstall, hsend⟩ := bind_ok hsend
  cases hsend
  obtain ⟨hstores, hkeeps⟩ := unstall_spec hunstall
  have hpassed := (h.same hkeeps.loads hstores).send hnext hcanWB
  rw [← hstores.storeWBIdx] at hpassed
  refine ⟨⟨hpassed.loadHead, hpassed.loads, hpassed.storeHead, hpassed.stores, hpassed.sent_canWB,
    hpassed.unsent_open⟩, ⟨hkeeps.loads.tags, hkeeps.loads.loads, hkeeps.loads.loadHead, hkeeps.loads.loadTail,
    hkeeps.loads.stalls⟩, hkeeps.isStoreBlocked, hkeeps.hasPendingPkt⟩

/-- One pass of the loop of `completeStore`. -/
theorem retireBody_spec (h : s.Represents wb q) (hbody : retireBody s = .ok (some s')) :
    ∃ tag rest, q.sent = tag :: rest ∧ tag.completed = true ∧
      s'.Represents wb { q with storeHead := succ q.storeHead, sent := rest } ∧ KeepsSending s s' := by
  unfold retireBody at hbody
  split at hbody
  · rename_i hcond
    cases hbody
    rw [Bool.and_eq_true, decide_eq_true_iff, h.storeHead] at hcond
    obtain ⟨hcompleted, hne⟩ := hcond
    -- The slot at the head holds the oldest store, which is none of those that are not sent.
    cases hsent : q.sent with
    | cons tag rest =>
      obtain ⟨inst, -, rfl⟩ := SQEntry.tag_eq_some_iff.mp (h.tag_first (by rw [hsent, cons_append]))
      exact ⟨_, rest, rfl, hcompleted, h.retireHead hsent hcompleted, .retireHead s⟩
    | nil =>
      cases hunsent : q.unsent with
      | nil =>
        rw [h.stores.tail, hsent, hunsent] at hne
        exact absurd (advance_zero _).symm hne
      | cons tag rest =>
        obtain ⟨inst, -, rfl⟩ := SQEntry.tag_eq_some_iff.mp (h.tag_first (by rw [hsent, hunsent, nil_append]))
        have hopen := h.unsent_open _ (hunsent ▸ mem_cons_self)
        exact absurd hcompleted (by simpa using hopen)
  · cases hbody

/-- The loop of `completeStore`: some stores that are complete leave. -/
theorem retire_spec (h : s.Represents wb q) (hloop : loop retireBody fuel s = .ok s') :
    ∃ done rest, q.sent = done ++ rest ∧ (∀ t ∈ done, t.completed = true) ∧
      s'.Represents wb { q with storeHead := advance q.storeHead done.length, sent := rest } ∧ KeepsSending s s' := by
  refine (Loop.invariant (I := fun t => ∃ done rest, q.sent = done ++ rest ∧ (∀ t ∈ done, t.completed = true) ∧
    t.Represents wb { q with storeHead := advance q.storeHead done.length, sent := rest } ∧ KeepsSending s t)
    ?_ ?_ hloop).1
  · rintro t next ⟨done, rest, hsent, hdone, ht, hkeeps⟩ hbody
    obtain ⟨tag, later, hrest, hcompleted, hnext, hkeeps'⟩ := retireBody_spec ht hbody
    simp only at hrest
    subst hrest
    refine ⟨done ++ [tag], later, by simp [hsent], ?_, ?_, hkeeps.trans hkeeps'⟩
    · exact forall_mem_append.mpr ⟨hdone, forall_mem_singleton.mpr hcompleted⟩
    · rw [length_append, length_singleton, ← succ_advance]
      exact hnext
  · refine ⟨[], q.sent, rfl, fun t ht => (by cases ht), ?_, .refl s⟩
    simpa using h

/-- One store that was sent is complete. -/
theorem completeStore_spec (h : s.Represents wb q) (hsent : q.sent = pre ++ tag :: post)
    (hopen : tag.completed = false) (hidx : store_idx = advance q.storeHead pre.length)
    (hcomplete : s.completeStore p store_idx = .ok s') :
    ∃ q', Queues.Moves q q' ∧ q'.unsent = q.unsent ∧ s'.Represents wb q' ∧ KeepsSending s s' := by
  have htag : (s.storeQueue store_idx).tag = some tag := by
    rw [hidx]
    exact h.tag_at (by rw [hsent, append_assoc, cons_append])
  have hmarked := h.setCompleted hsent hopen hidx htag
  unfold completeStore at hcomplete
  split at hcomplete
  · cases hcomplete
  obtain ⟨next, last, hretire, hunstall, hcomplete⟩ := bind_ok₂ hcomplete
  cases hcomplete
  obtain ⟨hstores, hkeeps⟩ := unstall_spec hunstall
  have hend : ∀ {q'}, next.Represents wb q' → KeepsSending (s.setCompleted store_idx) next →
      { last with storeInFlight := !p.needsTSO && last.storeInFlight }.Represents wb q' ∧
        KeepsSending s { last with storeInFlight := !p.needsTSO && last.storeInFlight } := by
    intro q' hnext hkeepsNext
    have hlast := hnext.same hkeeps.loads hstores
    have hall := ((KeepsSending.setCompleted s store_idx).trans hkeepsNext).trans hkeeps
    exact ⟨{ hlast with }, ⟨hall.1.1, hall.1.2, hall.1.3, hall.1.4, hall.1.5⟩, hall.2, hall.3, hall.4⟩
  unfold retireFrom at hretire
  split at hretire
  · -- The store is the oldest one.
    rename_i hhead
    have hpre : pre = [] := by
      have hlength := h.stores.sent_length_le
      rw [hsent, length_append] at hlength
      rw [hmarked.storeHead, hidx] at hhead
      have hzero := (advance_inj (by omega) (Nat.zero_le m)).mp (hhead.trans (advance_zero _).symm)
      exact length_eq_zero_iff.mp hzero
    subst hpre
    obtain ⟨done, rest, hdone, hcompleted, hnext, hkeepsNext⟩ := retire_spec (hmarked.retireHead rfl rfl) hretire
    obtain ⟨hlast, hkeepsLast⟩ := hend hnext ((KeepsSending.retireHead _).trans hkeepsNext)
    refine ⟨_, .completeFirst (hsent.trans (congrArg (tag :: ·) hdone)) hcompleted, rfl, ?_, hkeepsLast⟩
    rw [← advance_succ]
    exact hlast
  · cases hretire
    obtain ⟨hlast, hkeepsLast⟩ := hend hmarked (.refl _)
    exact ⟨_, .complete hsent hopen, rfl, hlast, hkeepsLast⟩

/-- The next store needs no packet. -/
theorem completeAndPass_spec (h : s.Represents s.storeWBIdx q) (hnext : q.unsent = tag :: rest)
    (hcanWB : tag.canWB = true) (hcomplete : s.completeAndPass p = .ok s') :
    ∃ q', Relation.ReflTransGen Queues.Moves q q' ∧ s'.Represents s'.storeWBIdx q' ∧ KeepsLoads s s' ∧
      s'.isStoreBlocked = s.isStoreBlocked ∧ s'.hasPendingPkt = s.hasPendingPkt := by
  obtain ⟨done, hdone, hcomplete⟩ := bind_ok hcomplete
  cases hcomplete
  -- The index of the next store may as well be moved first.
  obtain ⟨q', hmoves, -, hq', hkeeps⟩ :=
    completeStore_spec (h.send hnext hcanWB) rfl (h.unsent_open tag (hnext ▸ mem_cons_self)) h.stores.wb hdone
  rw [← hkeeps.storeWBIdx] at hq'
  exact ⟨q', .head (.send hnext hcanWB) (.single hmoves), { hq' with },
    ⟨hkeeps.1.1, hkeeps.1.2, hkeeps.1.3, hkeeps.1.4, hkeeps.1.5⟩, hkeeps.3, hkeeps.4⟩

/-- What the writeback of stores comes to: the stores move on, and a packet that
waits belongs to the next store. -/
def Progresses (p : LSQParams) (s : LSQUnit l m) (q : Queues l m) (s' : LSQUnit l m) : Prop :=
  ∃ q', Relation.ReflTransGen Queues.Moves q q' ∧ s'.Represents s'.storeWBIdx q' ∧ s'.Sending p q' ∧ KeepsLoads s s'

theorem Sending.of_not_pending (hblocked : s.isStoreBlocked = true → q.NextCanWB) (hpending : s.hasPendingPkt = false) :
    s.Sending p q := by
  refine ⟨hblocked, ?_, ?_, ?_⟩ <;> simp [hpending]

theorem Sending.of_idle (hblocked : s.isStoreBlocked = false) (hpending : s.hasPendingPkt = false) : s.Sending p q :=
  .of_not_pending (fun hnow => by rw [hblocked] at hnow; cases hnow) hpending

variable {answers later : List Bool}

theorem sendStore_spec (h : s.sendStore pkt answers = .ok (sent, s', later)) :
    (sent = true ∧ s' = s) ∨ (sent = false ∧ s' = { s with isStoreBlocked := true, retryPkt := some pkt }) := by
  unfold sendStore at h
  split at h
  · cases h
    exact .inl ⟨rfl, rfl⟩
  · obtain ⟨-, -, h⟩ := bind_ok h
    cases h
    exact .inr ⟨rfl, rfl⟩

variable (h : s.Represents s.storeWBIdx q)
include h

/-- The last packet of the next store is sent, or waits. -/
theorem sendLast_spec (hnext : q.NextCanWB) (hblocked : s.isStoreBlocked = false)
    (hsend : s.sendStore pkt answers = .ok (sent, s₁, later)) (hpost : s₁.storePostSendIf p sent = .ok s') :
    ∃ q', Relation.ReflTransGen Queues.Moves q q' ∧ s'.Represents s'.storeWBIdx q' ∧
      (s'.isStoreBlocked = true → q'.NextCanWB) ∧ KeepsLoads s s' ∧ s'.hasPendingPkt = s.hasPendingPkt := by
  obtain ⟨tag, rest, hunsent, hcanWB⟩ := hnext
  obtain ⟨rfl, rfl⟩ | ⟨rfl, rfl⟩ := sendStore_spec hsend
  · obtain ⟨hpassed, hkeeps, hblocked', hpending'⟩ := storePostSend_spec h hunsent hcanWB hpost
    refine ⟨_, .single (.send hunsent hcanWB), hpassed, fun hnow => ?_, hkeeps, hpending'⟩
    rw [hblocked'.trans hblocked] at hnow
    cases hnow
  · cases hpost
    exact ⟨q, .refl, { h with }, fun _ => ⟨tag, rest, hunsent, hcanWB⟩, ⟨fun _ => rfl, rfl, rfl, rfl, id⟩, rfl⟩

theorem sendPackets_spec (hnext : q.NextCanWB) (hpending : s.hasPendingPkt = false)
    (hblocked : s.isStoreBlocked = false) (hsplit : split = true → p.hasUnalignedMemAcc = true)
    (hsend : s.sendPackets p split answers = .ok (s', later)) :
    Progresses p s q s' ∧ (s'.hasPendingPkt = true → p.cacheStorePorts ≤ s'.usedStorePorts) := by
  have hidle : ∀ {q' last}, Relation.ReflTransGen Queues.Moves q q' → last.Represents last.storeWBIdx q' →
      (last.isStoreBlocked = true → q'.NextCanWB) → last.hasPendingPkt = false → KeepsLoads s last →
      Progresses p s q last ∧ (last.hasPendingPkt = true → p.cacheStorePorts ≤ last.usedStorePorts) := by
    intro q' last hmoves hq' hblocked' hpending' hkeeps
    refine ⟨⟨q', hmoves, hq', .of_not_pending hblocked' hpending', hkeeps⟩, fun hnow => ?_⟩
    rw [hpending'] at hnow
    cases hnow
  unfold sendPackets at hsend
  obtain ⟨⟨sent, s₁, answers₁⟩, hfirst, hrest⟩ := bind_ok hsend
  simp only at hrest
  split at hrest
  · -- The cache is blocked.
    rename_i hrefused
    have hsent : sent = false := by simpa using hrefused
    subst hsent
    cases hrest
    have hpost : s'.storePostSendIf p false = .ok s' := rfl
    obtain ⟨q', hmoves, hq', hblocked', hkeeps, hpending'⟩ := sendLast_spec h hnext hblocked hfirst hpost
    exact hidle hmoves hq' hblocked' (hpending'.trans hpending) hkeeps
  · rename_i haccepted
    have hsame : s₁ = s := by
      cases sendStore_spec hfirst with
      | inl hsent => exact hsent.2
      | inr hrefused => exact absurd (by simp [hrefused.1]) haccepted
    clear hfirst
    subst hsame
    split at hrest
    · obtain ⟨last, hpost, hrest⟩ := bind_ok hrest
      cases hrest
      have hsent : s₁.sendStore .whole [true] = .ok (true, s₁, []) := rfl
      obtain ⟨q', hmoves, hq', hblocked', hkeeps, hpending'⟩ := sendLast_spec h hnext hblocked hsent hpost
      exact hidle hmoves hq' hblocked' (hpending'.trans hpending) hkeeps
    · rename_i hsplitted
      split at hrest
      · obtain ⟨⟨sent, s₂, answers₂⟩, hsecond, hrest⟩ := bind_ok hrest
        obtain ⟨last, hpost, hrest⟩ := bind_ok hrest
        cases hrest
        have hports : Represents { s₁ with usedStorePorts := s₁.usedStorePorts + 1 } s₁.storeWBIdx q := { h with }
        obtain ⟨q', hmoves, hq', hblocked', hkeeps, hpending'⟩ := sendLast_spec hports hnext hblocked hsecond hpost
        exact hidle hmoves hq' hblocked' (hpending'.trans hpending) { hkeeps with }
      · rename_i hports
        obtain ⟨-, -, hrest⟩ := bind_ok hrest
        cases hrest
        refine ⟨⟨q, .refl, { h with }, ⟨fun hnow => ?_, fun _ => hnext, fun _ => hblocked,
          fun _ => hsplit (by simpa using hsplitted)⟩, ⟨fun _ => rfl, rfl, rfl, rfl, id⟩⟩,
          fun _ => Nat.not_lt.mp hports⟩
        rw [hblocked] at hnow
        cases hnow

/-- The writeback of the next store, which has data. -/
theorem writebackStore_spec (hnext : q.unsent = tag :: rest)
    (hcanWB : tag.canWB = true) (hpending : s.hasPendingPkt = false) (hblocked : s.isStoreBlocked = false)
    (hinst : (s.storeQueue s.storeWBIdx).inst = some inst)
    (hwrite : s.writebackStore p inst answers = .ok (s', later)) :
    Progresses p s q s' ∧ (s'.hasPendingPkt = true → p.cacheStorePorts ≤ s'.usedStorePorts) := by
  have hcommitted : (s.setCommitted inst).Represents s.storeWBIdx q := by
    refine h.touchStore ?_ ?_
    · simp [SQEntry.tag, hinst]
    · intro i hi hsize
      cases hi
      exact h.stores.sound s.storeWBIdx inst hinst hsize
  -- A store that needs no packet is passed at once.
  have hpass : ∀ {last}, (s.setCommitted inst).completeAndPass p = .ok last →
      Progresses p s q last ∧ (last.hasPendingPkt = true → p.cacheStorePorts ≤ last.usedStorePorts) := by
    intro last hlast
    obtain ⟨q', hmoves, hq', hkeeps, hblocked', hpending'⟩ := completeAndPass_spec hcommitted hnext hcanWB hlast
    refine ⟨⟨q', hmoves, hq', .of_idle (hblocked'.trans hblocked) (hpending'.trans hpending),
      (KeepsSending.setStore s _ _).loads.trans hkeeps⟩, fun hnow => ?_⟩
    rw [hpending'.trans hpending] at hnow
    cases hnow
  unfold writebackStore at hwrite
  simp only at hwrite
  split at hwrite
  · cases hwrite
  obtain ⟨-, -, -, -, -, -, hwrite⟩ := bind_ok₃ hwrite
  obtain ⟨-, -, hwrite⟩ := bind_ok hwrite
  split at hwrite
  · obtain ⟨last, hlast, hwrite⟩ := bind_ok hwrite
    cases hwrite
    exact hpass hlast
  split at hwrite
  · obtain ⟨-, last, -, hlast, hwrite⟩ := bind_ok₂ hwrite
    cases hwrite
    exact hpass hlast
  · obtain ⟨⟨q', hmoves, hq', hsending, hkeeps⟩, hports⟩ := sendPackets_spec hcommitted ⟨tag, rest, hnext, hcanWB⟩
      hpending hblocked (fun hsplit => (Bool.and_eq_true_iff.mp hsplit).1) hwrite
    exact ⟨⟨q', hmoves, hq', hsending, (KeepsSending.setStore s _ _).loads.trans hkeeps⟩, hports⟩

/-- One pass of the loop of `writebackStores`. -/
theorem writebackStoresBody_spec (hports : s.hasPendingPkt = true → p.cacheStorePorts ≤ s.usedStorePorts)
    (hbody : writebackStoresBody p (s, answers) = .ok (some (s', later))) :
    Progresses p s q s' ∧ (s'.hasPendingPkt = true → p.cacheStorePorts ≤ s'.usedStorePorts) := by
  unfold writebackStoresBody at hbody
  simp only at hbody
  split at hbody
  · cases hbody
  rename_i inst hinst
  split at hbody
  · cases hbody
  rename_i hcond
  simp only [Bool.not_eq_true', Bool.not_eq_false, Bool.and_eq_true, decide_eq_true_eq] at hcond
  obtain ⟨⟨⟨⟨-, hne⟩, hcanWB⟩, -⟩, hfree⟩ := hcond
  have hpending : s.hasPendingPkt = false := by
    by_contra hnow
    exact absurd hfree (Nat.not_lt.mpr (hports (Bool.eq_true_of_not_eq_false hnow)))
  -- There is a store to be sent.
  obtain ⟨tag, rest, hnext⟩ : ∃ tag rest, q.unsent = tag :: rest := by
    cases hunsent : q.unsent with
    | nil =>
      rw [h.stores.wb, h.stores.tail, hunsent, append_nil] at hne
      exact absurd rfl hne
    | cons tag rest => exact ⟨tag, rest, rfl⟩
  have htag : (s.storeQueue s.storeWBIdx).tag = some tag := by
    have hstores := h.stores
    rw [hnext] at hstores
    exact hstores.tag_wb
  have hcanWB' : tag.canWB = true := by
    obtain ⟨-, -, rfl⟩ := SQEntry.tag_eq_some_iff.mp htag
    exact hcanWB
  split at hbody
  · cases hbody
  rename_i hnot
  have hblocked : s.isStoreBlocked = false := by simpa using hnot
  split at hbody
  · obtain ⟨last, hlast, hbody⟩ := bind_ok hbody
    cases hbody
    obtain ⟨q', hmoves, hq', hkeeps, hblocked', hpending'⟩ := completeAndPass_spec h hnext hcanWB' hlast
    refine ⟨⟨q', hmoves, hq', .of_idle (hblocked'.trans hblocked) (hpending'.trans hpending), hkeeps⟩, fun hnow => ?_⟩
    rw [hpending'.trans hpending] at hnow
    cases hnow
  · have hused : Represents { s with usedStorePorts := s.usedStorePorts + 1 } s.storeWBIdx q :=
      { h with }
    split at hbody
    · -- A prefetch is passed, and never completes.
      cases hbody
      have hpassed := h.send hnext hcanWB'
      refine ⟨⟨_, .single (.send hnext hcanWB'), { hpassed with },
        .of_idle hblocked hpending, ⟨fun _ => rfl, rfl, rfl, rfl, id⟩⟩, fun hnow => ?_⟩
      rw [show s.hasPendingPkt = true from hnow] at hpending
      cases hpending
    · obtain ⟨⟨last, answers'⟩, hwrite, hbody⟩ := bind_ok hbody
      cases hbody
      obtain ⟨⟨q', hmoves, hq', hsending, hkeeps⟩, hports'⟩ :=
        writebackStore_spec hused hnext hcanWB' hpending hblocked hinst hwrite
      exact ⟨⟨q', hmoves, hq', hsending, { hkeeps with }⟩, hports'⟩

variable (hsending : s.Sending p q)
include hsending

theorem writebackPendingStore_spec (hwrite : s.writebackPendingStore p answers = .ok (s', later)) :
    Progresses p s q s' ∧ s'.hasPendingPkt = false := by
  unfold writebackPendingStore at hwrite
  split at hwrite
  · rename_i hcond
    have hpending := (Bool.and_eq_true_iff.mp hcond).2
    obtain ⟨⟨sent, s₁, answers₁⟩, hsend, hwrite⟩ := bind_ok hwrite
    obtain ⟨last, hpost, hwrite⟩ := bind_ok hwrite
    cases hwrite
    obtain ⟨q', hmoves, hq', hblocked, hkeeps, -⟩ :=
      sendLast_spec h (hsending.pending hpending) (hsending.not_both hpending) hsend hpost
    exact ⟨⟨q', hmoves, { hq' with }, .of_not_pending hblocked rfl, { hkeeps with }⟩, rfl⟩
  · rename_i hcond
    cases hwrite
    refine ⟨⟨q, .refl, h, hsending, .refl _⟩, ?_⟩
    by_contra hnow
    have hpending := Bool.eq_true_of_not_eq_false hnow
    exact hcond (by rw [hsending.split hpending, hpending]; rfl)

theorem writebackStores_spec (hwrite : s.writebackStores p answers = .ok s') : Progresses p s q s' := by
  obtain ⟨⟨s₁, answers₁⟩, hfirst, hwrite⟩ := bind_ok hwrite
  obtain ⟨⟨s₂, answers₂⟩, hloop, hwrite⟩ := bind_ok hwrite
  obtain ⟨-, -, hwrite⟩ := bind_ok hwrite
  cases hwrite
  obtain ⟨hprogress, hidle⟩ := writebackPendingStore_spec h hsending hfirst
  obtain ⟨⟨⟨q', hmoves, hq', hsending', hkeeps⟩, -⟩, -⟩ := Loop.invariant
    (I := fun t => Progresses p s q t.1 ∧ (t.1.hasPendingPkt = true → p.cacheStorePorts ≤ t.1.usedStorePorts))
    (fun t next ht hbody => by
      obtain ⟨⟨q₁, hmoves₁, hq₁, -, hkeeps₁⟩, hports⟩ := ht
      obtain ⟨⟨q₂, hmoves₂, hq₂, hsending₂, hkeeps₂⟩, hports₂⟩ := writebackStoresBody_spec hq₁ hports hbody
      exact ⟨⟨q₂, hmoves₁.trans hmoves₂, hq₂, hsending₂, hkeeps₁.trans hkeeps₂⟩, hports₂⟩)
    ⟨hprogress, fun hnow => by rw [hidle] at hnow; cases hnow⟩ hloop
  exact ⟨q', hmoves, { hq' with }, { hsending' with }, { hkeeps with }⟩

theorem recvRetry_spec (hretry : s.recvRetry p answers = .ok s') : Progresses p s q s' := by
  unfold recvRetry at hretry
  split at hretry
  · cases hretry
    exact ⟨q, .refl, h, hsending, .refl _⟩
  rename_i hnot
  have hblocked : s.isStoreBlocked = true := by simpa using hnot
  have hpending : s.hasPendingPkt = false := by
    by_contra hnow
    rw [hsending.not_both (Bool.eq_true_of_not_eq_false hnow)] at hblocked
    cases hblocked
  have hnext := hsending.blocked hblocked
  split at hretry
  · cases hretry
  split at hretry
  · cases hretry
    exact ⟨q, .refl, h, hsending, .refl _⟩
  split at hretry
  · -- The first packet was sent, and the second one follows.
    obtain ⟨⟨sent, s₁, later⟩, hsend, hpost⟩ := bind_ok hretry
    have hcleared : Represents { s with retryPkt := none, isStoreBlocked := false } s.storeWBIdx q := { h with }
    obtain ⟨q', hmoves, hq', hblocked', hkeeps, hpending'⟩ := sendLast_spec hcleared hnext rfl hsend hpost
    exact ⟨q', hmoves, hq', .of_not_pending hblocked' (hpending'.trans hpending), { hkeeps with }⟩
  · obtain ⟨last, hpost, hretry⟩ := bind_ok hretry
    cases hretry
    obtain ⟨tag, rest, hunsent, hcanWB⟩ := hnext
    obtain ⟨hpassed, hkeeps, -, hpending'⟩ := storePostSend_spec h hunsent hcanWB hpost
    exact ⟨_, .single (.send hunsent hcanWB),
      { hpassed with },
      .of_idle rfl (hpending'.trans hpending), { hkeeps with }⟩

end Gem5.O3.LSQUnit
