import Gem5.O3.LSQUnit.StoreSteps

open Lib Result Lib.Circular Function List

namespace Gem5.O3.LSQUnit

variable {l m : Nat} {p : LSQParams} {s s' : LSQUnit l m} {wb : Fin (m + 1)} {q : Queues l m}

theorem insertLoad_spec (h : s.Represents wb q) (hroom : s.lqFull = false) (hinsert : s.insertLoad seqNum = .ok s') :
    s'.Represents wb (q.insertLoad seqNum) ∧ KeepsStores s s' ∧ (s.Stalls → s'.Stalls) := by
  obtain ⟨-, -, -, -, hinsert⟩ := bind_ok₂ hinsert
  cases hinsert
  have hlength : q.loads.length < l := by
    have hcount := h.loads.count
    simp only [lqFull, decide_eq_false_iff_not] at hroom
    omega
  have hempty : s.stores = 0 ↔ q.stores.isEmpty = true := by
    rw [h.stores.count, List.isEmpty_iff, ← length_eq_zero_iff]
    exact Int.natCast_eq_zero
  refine ⟨⟨h.loadHead, ?_, h.storeHead, h.stores, h.sent_canWB, h.unsent_open⟩,
    ⟨rfl, rfl, rfl, rfl, rfl, rfl, rfl, rfl⟩, fun hs hstalled => ?_⟩
  · have htag : (⟨seqNum, s.loadTail, if s.stores = 0 then none else some s.storeTail⟩ : LoadTag l m) =
        ⟨seqNum, q.loadTail, if q.stores.isEmpty then none else some q.storeTail⟩ := by
      simp only [hempty, Queues.loadTail, Queues.storeTail, ← h.loads.tail]
      rw [h.stores.tail]
      rfl
    simp only [Queues.insertLoad, ← htag]
    exact h.loads.push hlength (.construct _)
  · change (update s.loadQueue s.loadTail _ s.stallingLoadIdx).isSome = true
    by_cases heq : s.stallingLoadIdx = s.loadTail
    · rw [heq, update_self, Option.isSome_some]
    · rw [update_of_ne heq]
      exact hs hstalled

theorem insertStore_spec (h : s.Represents wb q) (hroom : s.sqFull = false)
    (hinsert : s.insertStore seqNum isStoreConditional isDataPrefetch = .ok s') :
    s'.Represents wb (q.insertStore seqNum isStoreConditional) ∧ KeepsSending s s' := by
  obtain ⟨-, -, -, -, hinsert⟩ := bind_ok₂ hinsert
  cases hinsert
  have hlength : (q.sent ++ q.unsent).length < m := by
    have hcount := h.stores.count
    simp only [sqFull, decide_eq_false_iff_not] at hroom
    omega
  refine ⟨⟨h.loadHead, h.loads, h.storeHead, ?_, h.sent_canWB, ?_⟩, ⟨⟨fun _ => rfl, rfl, rfl, rfl, id⟩, rfl, rfl, rfl⟩⟩
  · simp only [Queues.insertStore, Queues.loadTail, ← h.loads.tail]
    exact h.stores.push hlength (SQEntry.tag_eq_some_iff.mpr ⟨_, rfl, rfl⟩) rfl
      (.construct (some (.construct seqNum s.loadTail isStoreConditional isDataPrefetch)))
  · exact forall_mem_append.mpr ⟨h.unsent_open, forall_mem_singleton.mpr rfl⟩

variable {youngest_inst : InstSeqNum}

/-- One pass of the loop of `commitLoads`. -/
theorem commitLoadsBody_spec (h : s.Represents wb q) (hbody : commitLoadsBody youngest_inst s = .ok (some s')) :
    ∃ tag rest, q.loads = tag :: rest ∧ tag.seqNum ≤ youngest_inst ∧
      s'.Represents wb { q with loadHead := succ q.loadHead, loads := rest } ∧ s' = s.commitLoad := by
  unfold commitLoadsBody at hbody
  split at hbody
  · cases hbody
  rename_i hne
  split at hbody
  · cases hbody
  rename_i inst hinst
  split at hbody
  · rename_i hle
    cases hbody
    cases hloads : q.loads with
    | nil =>
      rw [h.loads.count, hloads] at hne
      exact absurd rfl hne
    | cons tag rest =>
      have hhold := h.loads
      rw [hloads] at hhold
      obtain ⟨load, hload, rfl⟩ := hhold.first
      rw [h.loadHead, hload] at hinst
      cases hinst
      refine ⟨_, rest, rfl, hle, ⟨congrArg succ h.loadHead, ?_, h.storeHead, h.stores, h.sent_canWB, h.unsent_open⟩,
        rfl⟩
      rw [commitLoad, h.loadHead]
      exact hhold.popFront
  · cases hbody

theorem commitLoads_spec (h : s.Represents wb q) (hcommit : s.commitLoads youngest_inst = .ok s') :
    ∃ done rest, q.loads = done ++ rest ∧ (∀ tag ∈ done, tag.seqNum ≤ youngest_inst) ∧
      s'.Represents wb { q with loadHead := advance q.loadHead done.length, loads := rest } ∧ KeepsStores s s' ∧
      s'.stalled = s.stalled ∧ s'.stallingLoadIdx = s.stallingLoadIdx ∧
      ∀ i load, s.loadQueue i = some load → youngest_inst < load.tag.seqNum → s'.loadQueue i = some load := by
  obtain ⟨-, -, hloop⟩ := bind_ok hcommit
  refine (Loop.invariant (I := fun t => ∃ done rest, q.loads = done ++ rest ∧
    (∀ tag ∈ done, tag.seqNum ≤ youngest_inst) ∧
    t.Represents wb { q with loadHead := advance q.loadHead done.length, loads := rest } ∧ KeepsStores s t ∧
    t.stalled = s.stalled ∧ t.stallingLoadIdx = s.stallingLoadIdx ∧
    ∀ i load, s.loadQueue i = some load → youngest_inst < load.tag.seqNum → t.loadQueue i = some load)
    ?_ ?_ hloop).1
  · rintro t next ⟨done, rest, hloads, hdone, ht, hstores, hstalled, hidx, hyounger⟩ hbody
    obtain ⟨tag, later, hrest, hle, hnext, rfl⟩ := commitLoadsBody_spec ht hbody
    simp only at hrest
    subst hrest
    refine ⟨done ++ [tag], later, by simp [hloads], ?_, ?_, hstores.trans ⟨rfl, rfl, rfl, rfl, rfl, rfl, rfl, rfl⟩,
      hstalled,
      hidx, ?_⟩
    · exact forall_mem_append.mpr ⟨hdone, forall_mem_singleton.mpr hle⟩
    · rw [length_append, length_singleton, ← succ_advance]
      exact hnext
    · intro i load hload hlt
      have hsome := hyounger i load hload hlt
      obtain ⟨first, hfirst, rfl⟩ := ht.loads.first
      rw [commitLoad, loadQueue_setLoad, ht.loadHead]
      have hne : i ≠ advance q.loadHead done.length := by
        rintro rfl
        rw [hsome] at hfirst
        cases hfirst
        exact absurd hle (Nat.not_le.mpr hlt)
      exact (update_of_ne hne _ _).trans hsome
  · refine ⟨[], q.loads, rfl, fun t ht => (by cases ht), ?_, .refl s, rfl, rfl, fun _ _ hload _ => hload⟩
    simpa using h

variable {store_idx : Fin (m + 1)} {next : LSQUnit l m × Fin (m + 1)}

/-- One pass of the loop of `commitStores`. -/
theorem commitStoresBody_spec (htag : (s.storeQueue store_idx).tag = some tag)
    (hbody : commitStoresBody youngest_inst (s, store_idx) = .ok (some next)) :
    store_idx ≠ s.storeTail ∧ next.2 = succ store_idx ∧
      ((tag.canWB = true ∧ next.1 = s) ∨ (tag.canWB = false ∧ next.1 = s.setCanWB store_idx)) := by
  obtain ⟨inst, hinst, rfl⟩ := SQEntry.tag_eq_some_iff.mp htag
  simp only [commitStoresBody, hinst] at hbody
  split at hbody
  · cases hbody
  rename_i hne
  split at hbody
  · rename_i hcanWB
    cases hbody
    exact ⟨hne, rfl, .inl ⟨hcanWB, rfl⟩⟩
  rename_i hcanWB
  split at hbody
  · cases hbody
  · cases hbody
    exact ⟨hne, rfl, .inr ⟨by simpa using hcanWB, rfl⟩⟩

/-- Where the loop of `commitStores` is: among the stores that were sent, or past
some of the others, which can now be written back. -/
def CommitsStores (s : LSQUnit l m) (wb : Fin (m + 1)) (q : Queues l m) (t : LSQUnit l m × Fin (m + 1)) : Prop :=
  ∃ done rest, q.unsent = done ++ rest ∧ t.1.Represents wb { q with unsent := done.map StoreTag.commit ++ rest } ∧
    KeepsSending s t.1 ∧
    ((∃ pre post, q.sent = pre ++ post ∧ t.2 = advance q.storeHead pre.length ∧ done = []) ∨
      t.2 = advance q.storeHead (q.sent ++ done).length)

theorem CommitsStores.body (h : s.CommitsStores wb q t) (hbody : commitStoresBody youngest_inst t = .ok (some next)) :
    s.CommitsStores wb q next := by
  obtain ⟨t, store_idx⟩ := t
  obtain ⟨next, next_idx⟩ := next
  obtain ⟨done, rest, hunsent, ht, hkeeps, hidx⟩ := h
  simp only at ht hkeeps hidx
  -- The stores that were sent are passed over.
  have hothers : store_idx = advance q.storeHead (q.sent ++ done).length → s.CommitsStores wb q (next, next_idx) := by
    intro hidx
    cases rest with
    | nil =>
      have htail : store_idx = t.storeTail := by
        rw [hidx, ht.stores.tail]
        simp
      unfold commitStoresBody at hbody
      simp only [htail, if_true] at hbody
      cases hbody
    | cons tag rest =>
      have hsplit : q.sent ++ (done.map StoreTag.commit ++ tag :: rest) = (q.sent ++ done.map StoreTag.commit) ++
        tag :: rest := by
        rw [append_assoc]
      have hlength : (q.sent ++ done.map StoreTag.commit).length = (q.sent ++ done).length := by simp
      have htag : (t.storeQueue store_idx).tag = some tag := by
        rw [hidx, ← hlength]
        exact ht.tag_at hsplit
      have hmap : (done ++ [tag]).map StoreTag.commit ++ rest =
        done.map StoreTag.commit ++ tag.commit :: rest := by simp
      obtain ⟨-, hnext, hcases⟩ := commitStoresBody_spec htag hbody
      simp only at hnext hcases
      refine ⟨done ++ [tag], rest, by simp [hunsent], ?_, ?_, .inr ?_⟩
      · rw [hmap]
        rcases hcases with ⟨hcanWB, rfl⟩ | ⟨hcanWB, rfl⟩
        · rw [StoreTag.commit_eq_self hcanWB]
          exact ht
        · exact ht.setCanWB rfl hcanWB (hidx.trans (congrArg _ hlength.symm)) htag
      · rcases hcases with ⟨-, rfl⟩ | ⟨-, rfl⟩
        · exact hkeeps
        · exact hkeeps.trans (.setCanWB t store_idx)
      · rw [hnext, hidx, succ_advance]
        simp [Nat.add_assoc]
  rcases hidx with ⟨pre, post, hsent, hidx, rfl⟩ | hidx
  · cases post with
    | nil =>
      apply hothers
      rw [hidx, hsent, append_nil, append_nil]
    | cons tag post =>
      have htag : (t.storeQueue store_idx).tag = some tag := by
        rw [hidx]
        have hsplit : q.sent ++ rest = pre ++ tag :: (post ++ rest) := by simp [hsent]
        exact ht.tag_at hsplit
      obtain ⟨-, hnext, hcases⟩ := commitStoresBody_spec htag hbody
      simp only at hnext hcases
      rcases hcases with ⟨-, rfl⟩ | ⟨hcanWB, -⟩
      · refine ⟨[], rest, hunsent, ht, hkeeps, .inl ⟨pre ++ [tag], post, by simp [hsent], ?_, rfl⟩⟩
        rw [hnext, hidx, succ_advance, length_append, length_singleton]
      · rw [ht.sent_canWB tag (by simp [hsent])] at hcanWB
        cases hcanWB
  · exact hothers hidx

theorem commitStores_spec (h : s.Represents wb q) (hcommit : s.commitStores youngest_inst = .ok s') :
    ∃ done rest, q.unsent = done ++ rest ∧ s'.Represents wb { q with unsent := done.map StoreTag.commit ++ rest } ∧
      KeepsSending s s' := by
  obtain ⟨-, ⟨last, idx⟩, -, hloop, hcommit⟩ := bind_ok₂ hcommit
  cases hcommit
  have hstart : s.CommitsStores wb q (s, s.storeHead) := by
    refine ⟨[], q.unsent, rfl, h, .refl s, .inl ⟨[], q.sent, rfl, ?_, rfl⟩⟩
    rw [length_nil, advance_zero]
    exact h.storeHead
  obtain ⟨⟨done, rest, hunsent, hlast, hkeeps, -⟩, -⟩ :=
    Loop.invariant (I := s.CommitsStores wb q) (fun _ _ ht hbody => ht.body hbody) hstart hloop
  exact ⟨done, rest, hunsent, hlast, hkeeps⟩

/-- Where the loop of `squash` over the loads is. -/
def SquashesLoads (s : LSQUnit l m) (q : Queues l m) (squashed_num : InstSeqNum) (t : LSQUnit l m × Fin (l + 1)) :
    Prop :=
  ∃ loads young, q.loads = loads ++ young ∧ (∀ tag ∈ young, squashed_num < tag.seqNum) ∧
    LoadsHold t.1.loadQueue t.1.loads q.loadHead t.1.loadTail loads ∧ t.1.loadHead = s.loadHead ∧
    t.2 = pred t.1.loadTail ∧ KeepsStores s t.1 ∧ (s.Stalls → t.1.Stalls)

theorem squashLoad_keepsStores (s : LSQUnit l m) (load_idx : Fin (l + 1)) : KeepsStores s (s.squashLoad load_idx) := by
  unfold squashLoad
  simp only
  split <;> exact ⟨rfl, rfl, rfl, rfl, rfl, rfl, rfl, rfl⟩

theorem squashLoad_stalls (h : s.Stalls) (load_idx : Fin (l + 1)) : (s.squashLoad load_idx).Stalls := by
  unfold squashLoad
  simp only
  split
  · intro hstalled
    cases hstalled
  rename_i hother
  intro (hstalled : s.stalled = true)
  have hne : s.stallingLoadIdx ≠ load_idx := by
    rintro rfl
    exact hother (by simpa using hstalled)
  exact (congrArg Option.isSome (update_of_ne hne _ _)).trans (h hstalled)

theorem squashLoad_loads (s : LSQUnit l m) (load_idx : Fin (l + 1)) :
    (s.squashLoad load_idx).loadQueue = update s.loadQueue load_idx none ∧
      (s.squashLoad load_idx).loads = s.loads - 1 ∧ (s.squashLoad load_idx).loadTail = load_idx ∧
      (s.squashLoad load_idx).loadHead = s.loadHead := by
  unfold squashLoad
  split <;> exact ⟨rfl, rfl, rfl, rfl⟩

variable {squashed_num : InstSeqNum}

theorem SquashesLoads.body {t next : LSQUnit l m × Fin (l + 1)} (h : s.SquashesLoads q squashed_num t)
    (hbody : squashLoadsBody squashed_num t = .ok (some next)) : s.SquashesLoads q squashed_num next := by
  obtain ⟨t, load_idx⟩ := t
  obtain ⟨loads, young, hloads, hyoung, ht, hhead, hidx, hstores, hstalls⟩ := h
  simp only at ht hhead hidx hstores hstalls
  unfold squashLoadsBody at hbody
  simp only at hbody
  split at hbody
  · cases hbody
  rename_i hne
  split at hbody
  · cases hbody
  rename_i inst hinst
  split at hbody
  · rename_i hlt
    cases hbody
    cases eq_nil_or_concat' loads with
    | inl hnil =>
      rw [ht.count, hnil] at hne
      exact absurd rfl hne
    | inr hconcat =>
      obtain ⟨init, tag, rfl⟩ := hconcat
      obtain ⟨load, hload, rfl⟩ := ht.last
      rw [hidx, hload] at hinst
      cases hinst
      obtain ⟨hqueue, hcount, htail, hhead'⟩ := squashLoad_loads t load_idx
      refine ⟨init, inst.tag :: young, by simp [hloads], forall_mem_cons.mpr ⟨hlt, hyoung⟩, ?_, hhead'.trans hhead,
        ?_, ?_, ?_⟩
      · simp only [hqueue, hcount, htail]
        rw [hidx]
        exact ht.popBack
      · rw [htail]
        rfl
      · exact hstores.trans (squashLoad_keepsStores t load_idx)
      · exact fun hs => squashLoad_stalls (hstalls hs) load_idx
  · cases hbody

theorem squashLoads_last {loads : List (LoadTag l m)} {head : Fin (l + 1)}
    (h : LoadsHold s.loadQueue s.loads head s.loadTail loads)
    (hend : squashLoadsBody squashed_num (s, pred s.loadTail) = .ok none) :
    ∀ tag ∈ loads.getLast?, tag.seqNum ≤ squashed_num := by
  cases eq_nil_or_concat' loads with
  | inl hnil => simp [hnil]
  | inr hconcat =>
    obtain ⟨init, tag, rfl⟩ := hconcat
    obtain ⟨load, hload, rfl⟩ := h.last
    have hne : s.loads ≠ 0 := by
      rw [h.count]
      simp
      omega
    unfold squashLoadsBody at hend
    simp only [hne, if_false, hload] at hend
    split at hend
    · cases hend
    · rename_i hle
      simpa using Nat.not_lt.mp hle

/-- Where the loop of `squash` over the stores is. -/
def SquashesStores (s : LSQUnit l m) (wb : Fin (m + 1)) (q : Queues l m) (squashed_num : InstSeqNum)
    (t : LSQUnit l m × Fin (m + 1)) : Prop :=
  ∃ unsent squashed, q.unsent = unsent ++ squashed ∧
    (∀ tag ∈ squashed, squashed_num < tag.seqNum ∧ tag.canWB = false) ∧ t.1.Represents wb { q with unsent } ∧
    t.2 = pred t.1.storeTail ∧ KeepsSending s t.1

theorem SquashesStores.body (h : s.SquashesStores wb q squashed_num t)
    (hbody : squashStoresBody squashed_num t = .ok (some next)) : s.SquashesStores wb q squashed_num next := by
  obtain ⟨t, store_idx⟩ := t
  obtain ⟨unsent, squashed, hunsent, hsquashed, ht, hidx, hkeeps⟩ := h
  simp only at ht hidx hkeeps
  simp only [squashStoresBody] at hbody
  split at hbody
  · cases hbody
  rename_i hne
  split at hbody
  · cases hbody
  rename_i inst hinst
  split at hbody
  · rename_i hlt
    split at hbody
    · cases hbody
    rename_i hcanWB
    obtain ⟨-, -, hbody⟩ := bind_ok hbody
    cases hbody
    cases eq_nil_or_concat' unsent with
    | inl hnil =>
      -- The stores that were sent can all be written back.
      cases eq_nil_or_concat' q.sent with
      | inl hsent =>
        rw [ht.stores.count, hnil, hsent] at hne
        exact absurd rfl hne
      | inr hsent =>
        obtain ⟨init, tag, hsent⟩ := hsent
        have htag := ht.stores.last (show q.sent ++ unsent = init ++ [tag] by rw [hnil, hsent, append_nil])
        rw [← hidx] at htag
        have hall := ht.sent_canWB tag (hsent ▸ mem_append_right _ mem_cons_self)
        obtain ⟨inst', -, rfl⟩ := SQEntry.tag_eq_some_iff.mp htag
        exact absurd hall hcanWB
    | inr hconcat =>
      obtain ⟨init, tag, rfl⟩ := hconcat
      have htag := ht.stores.last (append_assoc q.sent init [tag]).symm
      rw [← hidx] at htag
      obtain ⟨inst', hinst', rfl⟩ := SQEntry.tag_eq_some_iff.mp htag
      rw [hinst] at hinst'
      cases hinst'
      have hnot : (t.storeQueue store_idx).canWB = false := by simpa using hcanWB
      refine ⟨init, _ :: squashed, by rw [hunsent, append_assoc]; rfl,
        forall_mem_cons.mpr ⟨⟨hlt, hnot⟩, hsquashed⟩, ?_, rfl,
        hkeeps.trans ⟨⟨fun _ => rfl, rfl, rfl, rfl, id⟩, rfl, rfl, rfl⟩⟩
      · refine ⟨ht.loadHead, ht.loads, ht.storeHead, ?_, ht.sent_canWB, fun tag hmem =>
          ht.unsent_open tag (mem_append_left _ hmem)⟩
        rw [squashStore, hidx]
        refine ht.stores.popBack hnot ?_
        intro inst hinst
        cases hinst
  · cases hbody

theorem squashStores_last (h : s.Represents wb q)
    (hend : squashStoresBody squashed_num (s, pred s.storeTail) = .ok none) :
    ∀ tag ∈ q.unsent.getLast?, tag.seqNum ≤ squashed_num ∨ tag.canWB = true := by
  cases eq_nil_or_concat' q.unsent with
  | inl hnil => simp [hnil]
  | inr hconcat =>
    obtain ⟨init, tag, hunsent⟩ := hconcat
    have hsplit : q.sent ++ q.unsent = (q.sent ++ init) ++ [tag] := by rw [hunsent, append_assoc]
    obtain ⟨inst, hinst, rfl⟩ := SQEntry.tag_eq_some_iff.mp (h.stores.last hsplit)
    have hne : s.stores ≠ 0 := by
      rw [h.stores.count, hsplit]
      simp
      omega
    simp only [squashStoresBody, hne, if_false, hinst] at hend
    rw [hunsent, getLast?_concat]
    intro tag htag
    cases htag
    split at hend
    · split at hend
      · rename_i hcanWB
        exact .inr hcanWB
      · obtain ⟨-, -, hend⟩ := bind_ok hend
        cases hend
    · rename_i hle
      exact .inl (Nat.not_lt.mp hle)

theorem squash_spec (h : s.Represents s.storeWBIdx q) (hsending : s.Sending p q)
    (hsquash : s.squash squashed_num = .ok s') :
    ∃ q', q.Step (.squash squashed_num) q' ∧ s'.Represents s'.storeWBIdx q' ∧ s'.Sending p q' ∧
      (s.Stalls → s'.Stalls) := by
  obtain ⟨⟨s₁, idx₁⟩, hloads, hsquash⟩ := bind_ok hsquash
  obtain ⟨⟨s₂, idx₂⟩, hstores, hsquash⟩ := bind_ok hsquash
  cases hsquash
  have hstart : s.SquashesLoads q squashed_num (s, pred s.loadTail) :=
    ⟨q.loads, [], (append_nil _).symm, fun _ hmem => (by cases hmem), h.loads, rfl, rfl, .refl s, id⟩
  obtain ⟨⟨loads, young, hsplit, hyoung, hhold, hhead, hidx, hkeeps, hstalls⟩, hend⟩ :=
    Loop.invariant (I := s.SquashesLoads q squashed_num) (fun _ _ ht hbody => ht.body hbody) hstart hloads
  simp only at hhold hhead hidx hkeeps hstalls
  subst hidx
  have hmiddle : s₁.Represents s.storeWBIdx { q with loads } :=
    ⟨hhead.trans h.loadHead, hhold, hkeeps.storeHead.trans h.storeHead, hkeeps.hold h.stores,
    h.sent_canWB, h.unsent_open⟩
  -- Forgetting the violator changes nothing of the queues.
  obtain ⟨s₃, hs₃⟩ : ∃ s₃, s₃ = if s₁.memDepViolator.any fun violator => squashed_num < violator then
      { s₁ with memDepViolator := none } else s₁ := ⟨_, rfl⟩
  have hquiet : Quiet s₁ s₃ := by
    rw [hs₃]
    split
    · exact .memDepViolator s₁ none
    · exact .refl s₁
  rw [← hs₃] at hstores
  have hstart' : s₃.SquashesStores s.storeWBIdx { q with loads } squashed_num (s₃, pred s₃.storeTail) :=
    ⟨q.unsent, [], (append_nil _).symm, fun _ hmem => (by cases hmem), hmiddle.same hquiet.loads hquiet.stores, rfl,
      .refl s₃⟩
  obtain ⟨⟨unsent, squashed, hunsent, hsquashed, hlast, hidx', hkeeps'⟩, hend'⟩ :=
    Loop.invariant (I := s₃.SquashesStores s.storeWBIdx { q with loads } squashed_num)
    (fun _ _ ht hbody => ht.body hbody)
      hstart' hstores
  simp only at hunsent hlast hidx' hkeeps'
  subst hidx'
  have hall := hquiet.keepsSending.trans hkeeps'
  refine ⟨{ q with loads, unsent },
    ⟨loads, unsent, young, squashed, hsplit, hunsent, hyoung, squashLoads_last hhold hend,
    hsquashed, squashStores_last hlast hend', rfl⟩, ?_, hall.sending ?_ (hkeeps.sending hsending), fun hs => ?_⟩
  · rw [hall.storeWBIdx, hkeeps.storeWBIdx]
    exact hlast
  · -- What can be written back is not squashed.
    rintro ⟨first, rest, hfirst, hcanWB⟩
    cases unsent with
    | nil =>
      rw [hfirst, nil_append] at hunsent
      have hnot := (hsquashed first (hunsent ▸ mem_cons_self)).2
      rw [hcanWB] at hnot
      cases hnot
    | cons tag unsent =>
      rw [hfirst, cons_append] at hunsent
      obtain ⟨rfl, -⟩ := cons.inj hunsent
      exact ⟨first, unsent, rfl, hcanWB⟩
  · exact hall.loads.stalls (hstalls hs)

/-- The size of the store once its access is initiated. -/
def StoreAcc.size (acc : StoreAcc) (entry : SQEntry l) : BitVec 8 :=
  match acc.write with
  | none => entry.size
  | some (req, _) => if acc.fault then entry.size else BitVec.ofNat 8 req.size

/-- The access is not delayed, it has data, and the store is not predicated off. -/
def StoreAcc.succeeds (acc : StoreAcc) (entry : SQEntry l) : Bool :=
  !(acc.delayed && !acc.fault) && acc.size entry ≠ 0 && acc.predicate

/-- What the first steps of an access change: some of what the store holds. -/
structure Touches (s s' : LSQUnit l m) (store_idx : Fin (m + 1)) : Prop where
  keeps : KeepsSending s s'
  loadQueue : s'.loadQueue = s.loadQueue
  memDepViolator : s'.memDepViolator = s.memDepViolator
  storesToWB : s'.storesToWB = s.storesToWB
  tag : (s'.storeQueue store_idx).tag = (s.storeQueue store_idx).tag

theorem Touches.refl (s : LSQUnit l m) (store_idx : Fin (m + 1)) : Touches s s store_idx :=
  ⟨.refl s, rfl, rfl, rfl, rfl⟩

theorem Touches.trans {s₁ s₂ s₃ : LSQUnit l m} (h : Touches s₁ s₂ store_idx) (h' : Touches s₂ s₃ store_idx) :
    Touches s₁ s₃ store_idx where
  keeps := h.keeps.trans h'.keeps
  loadQueue := h'.loadQueue.trans h.loadQueue
  memDepViolator := h'.memDepViolator.trans h.memDepViolator
  storesToWB := h'.storesToWB.trans h.storesToWB
  tag := h'.tag.trans h.tag

/-- What an access leaves of the store. -/
theorem Touches.inst (h : Touches s s' store_idx) {inst : StoreInst l}
    (hinst : (s'.storeQueue store_idx).inst = some inst) : ∃ before, (s.storeQueue store_idx).inst = some before ∧
      before.isStoreConditional = inst.isStoreConditional ∧
      (s'.storeQueue store_idx).canWB = (s.storeQueue store_idx).canWB := by
  have htag := SQEntry.tag_eq_some_iff.mpr ⟨inst, hinst, rfl⟩
  rw [h.tag] at htag
  obtain ⟨before, hbefore, heq⟩ := SQEntry.tag_eq_some_iff.mp htag
  simp only [StoreTag.mk.injEq] at heq
  exact ⟨before, hbefore, heq.2.2.1.symm, heq.2.2.2.1⟩

theorem Touches.setStore (htag : entry.tag = (s.storeQueue store_idx).tag) :
    Touches s (s.setStore store_idx entry) store_idx := by
  refine ⟨.setStore s _ _, rfl, rfl, rfl, ?_⟩
  rw [storeQueue_setStore, update_self, htag]

theorem finishStoreTranslation_spec (h : s.Represents wb q)
    (htranslation : s.finishStoreTranslation store_idx t = .ok s') :
    s'.Represents wb q ∧ Touches s s' store_idx ∧ (s'.storeQueue store_idx).size = (s.storeQueue store_idx).size := by
  cases t with
  | none =>
    cases htranslation
    exact ⟨h, .refl _ _, rfl⟩
  | some t =>
    simp only [finishStoreTranslation] at htranslation
    split at htranslation
    · cases htranslation
    rename_i inst hinst
    cases htranslation
    refine ⟨h.touchStore ?_ ?_, .setStore ?_, by rw [storeQueue_setStore, update_self]⟩
    · simp [SQEntry.tag, hinst]
    · intro i hi hsize
      cases hi
      exact h.stores.sound store_idx inst hinst hsize
    · simp [SQEntry.tag, hinst]

theorem write_spec (h : s.Represents wb q) {data : Fin 16 → BitVec 8} (hwrite : s.write p req data store_idx = .ok s') :
    s'.Represents wb q ∧ Touches s s' store_idx ∧ (s'.storeQueue store_idx).size = BitVec.ofNat 8 req.size := by
  simp only [write] at hwrite
  split at hwrite
  · cases hwrite
  rename_i inst hinst
  obtain ⟨u, hsize, hwrite⟩ := bind_ok hwrite
  cases hwrite
  refine ⟨h.touchStore ?_ ?_, .setStore ?_, by rw [storeQueue_setStore, update_self]⟩
  · simp [SQEntry.tag, hinst]
  · intro i hi _
    cases hi
    refine ⟨rfl, fun hzeros => ?_⟩
    have hsize := require_eq_ok_iff.mp hsize
    simp only at hzeros
    rw [hzeros, Bool.or_false, decide_eq_true_iff] at hsize
    exact Nat.le_trans (by simpa using Nat.mod_le req.size 256) hsize
  · simp [SQEntry.tag, hinst]

theorem initiateStore_spec (h : s.Represents wb q) (hinitiate : s.initiateStore p store_idx acc = .ok s') :
    s'.Represents wb q ∧ Touches s s' store_idx ∧
      (s'.storeQueue store_idx).size = acc.size (s.storeQueue store_idx) := by
  obtain ⟨s₁, htranslation, hinitiate⟩ := bind_ok hinitiate
  obtain ⟨h₁, htouches, hsize⟩ := finishStoreTranslation_spec h htranslation
  cases hwrite : acc.write with
  | none =>
    simp only [hwrite] at hinitiate
    cases hinitiate
    simp only [StoreAcc.size, hwrite]
    exact ⟨h₁, htouches, hsize⟩
  | some access =>
    simp only [hwrite] at hinitiate
    simp only [StoreAcc.size, hwrite]
    by_cases hfault : acc.fault = true
    · rw [if_pos hfault] at hinitiate ⊢
      cases hinitiate
      exact ⟨h₁, htouches, hsize⟩
    · rw [if_neg hfault] at hinitiate ⊢
      obtain ⟨h₂, htouches₂, hsize₂⟩ := write_spec h₁ hinitiate
      exact ⟨h₂, htouches.trans htouches₂, hsize₂⟩

/-- The rest of `executeStore`: a store conditional can be written back, and then
the younger loads are checked. -/
theorem finishStore_spec (hfinish : s.finishStore p store_idx acc = .ok (fault, s')) :
    s' = s ∨ ∃ inst, (s.storeQueue store_idx).inst = some inst ∧ (acc.delayed && !acc.fault) = false ∧
      (s.storeQueue store_idx).size ≠ 0 ∧ acc.predicate = true ∧
      (if inst.isStoreConditional then s.setCanWB store_idx else s).checkViolations p inst.lqIdx
        ⟨false, inst.effAddr, inst.effSize⟩ = .ok (fault, s') := by
  simp only [finishStore] at hfinish
  split at hfinish
  · cases hfinish
    exact .inl rfl
  rename_i hdelayed
  split at hfinish
  · cases hfinish
    exact .inl rfl
  rename_i hsize
  split at hfinish
  · cases hfinish
    exact .inl rfl
  rename_i hpredicate
  split at hfinish
  · cases hfinish
  · rename_i inst hinst
    obtain ⟨-, -, hcheck⟩ := bind_ok hfinish
    exact .inr ⟨inst, hinst, by simpa using hdelayed, hsize, by simpa using hpredicate, hcheck⟩

/-- A store that cannot be written back yet was not sent. -/
theorem Represents.unsent_of_not_canWB (h : s.Represents wb q)
    (hidx : dist s.storeHead store_idx < dist s.storeHead s.storeTail)
    (hcanWB : (s.storeQueue store_idx).canWB = false) :
    ∃ pre tag post, q.unsent = pre ++ tag :: post ∧ tag.canWB = false ∧
      store_idx = advance q.storeHead (q.sent ++ pre).length ∧ (s.storeQueue store_idx).tag = some tag := by
  rw [h.storeHead] at hidx
  obtain ⟨pre, tag, post, hsplit, hidx, htag⟩ := h.stores.split hidx
  have hnot : tag.canWB = false := by
    obtain ⟨inst, -, rfl⟩ := SQEntry.tag_eq_some_iff.mp htag
    exact hcanWB
  rcases append_eq_append_iff.mp hsplit with ⟨mid, hpre, hunsent⟩ | ⟨mid, hsent, hpost⟩
  · exact ⟨mid, tag, post, hunsent, hnot, hpre ▸ hidx, htag⟩
  cases mid with
  | nil =>
    refine ⟨[], tag, post, by simpa using hpost.symm, hnot, ?_, htag⟩
    rw [append_nil] at hsent ⊢
    rw [hidx, hsent]
  | cons first mid =>
    obtain ⟨rfl, -⟩ := cons.inj hpost
    rw [h.sent_canWB tag (by simp [hsent])] at hnot
    cases hnot

/-- The number is larger than those in the queues. -/
def Younger (s : LSQUnit l m) (seqNum : InstSeqNum) : Prop :=
  (∀ i load, s.loadQueue i = some load → load.tag.seqNum < seqNum) ∧
    ∀ i inst, dist s.storeHead i < dist s.storeHead s.storeTail → (s.storeQueue i).inst = some inst →
      inst.seqNum < seqNum

/-- A store conditional succeeds once, before it commits. -/
def Conditional (s : LSQUnit l m) (store_idx : Fin (m + 1)) (acc : StoreAcc) : Prop :=
  ∀ inst, (s.storeQueue store_idx).inst = some inst → inst.isStoreConditional = true →
    acc.succeeds (s.storeQueue store_idx) = true → (s.storeQueue store_idx).canWB = false

theorem executeStore_spec (h : s.Represents wb q) (hidx : dist s.storeHead store_idx < dist s.storeHead s.storeTail)
    (hconditional : s.Conditional store_idx acc) (hexecute : s.executeStore p store_idx acc = .ok (fault, s')) :
    ∃ q', q.Step (.executeStore store_idx acc) q' ∧ (q.NextCanWB → q'.NextCanWB) ∧ s'.Represents wb q' ∧
      KeepsSending s s' := by
  obtain ⟨-, s₁, -, hinitiate, hfinish⟩ := bind_ok₂ hexecute
  obtain ⟨h₁, htouches, hsize⟩ := initiateStore_spec h hinitiate
  have hkeeps := htouches.keeps
  rcases finishStore_spec hfinish with rfl | ⟨inst, hinst, hdelayed, hnonzero, hpredicate, hcheck⟩
  · exact ⟨q, .inl rfl, id, h₁, hkeeps⟩
  have hquiet := checkViolations_quiet hcheck
  split at hcheck
  · rename_i hsc
    rw [if_pos hsc] at hquiet
    obtain ⟨inst₀, hinst₀, heq, -⟩ := htouches.inst hinst
    have hnot : (s.storeQueue store_idx).canWB = false := by
      apply hconditional inst₀ hinst₀ (heq.trans hsc)
      rw [StoreAcc.succeeds, ← hsize, hdelayed, hpredicate, decide_eq_true hnonzero]
      rfl
    obtain ⟨pre, tag, post, hunsent, hcanWB, hidx, htag⟩ := h.unsent_of_not_canWB hidx hnot
    have hset := h₁.setCanWB hunsent hcanWB hidx (htouches.tag.trans htag)
    have hsc' : tag.isStoreConditional = true := by
      obtain ⟨inst', hinst', rfl⟩ := SQEntry.tag_eq_some_iff.mp htag
      rw [hinst₀] at hinst'
      cases hinst'
      exact heq.trans hsc
    refine ⟨_, .inr ⟨pre, tag, post, hunsent, hsc', hcanWB, hidx, rfl⟩, ?_, hset.same hquiet.loads hquiet.stores,
      (hkeeps.trans (.setCanWB s₁ store_idx)).trans hquiet.keepsSending⟩
    rintro ⟨first, rest, hfirst, hcan⟩
    cases pre with
    | nil => exact ⟨tag.commit, post, rfl, rfl⟩
    | cons other pre =>
      rw [hunsent, cons_append] at hfirst
      obtain ⟨rfl, -⟩ := cons.inj hfirst
      exact ⟨other, pre ++ tag.commit :: post, rfl, hcan⟩
  · rename_i hsc
    rw [if_neg hsc] at hquiet
    exact ⟨q, .inl rfl, id, h₁.same hquiet.loads hquiet.stores, hkeeps.trans hquiet.keepsSending⟩

/-- The calls that the unit is made for. An instruction is inserted where there is
room, with a larger number than those in the queues. A store executes while it
is in the queue, and completes once, after it was sent. -/
def Orderly (s : LSQUnit l m) : Op l m → Prop
  | .insertLoad seqNum => s.lqFull = false ∧ s.Younger seqNum
  | .insertStore seqNum _ _ => s.sqFull = false ∧ s.Younger seqNum
  | .executeStore store_idx acc =>
    dist s.storeHead store_idx < dist s.storeHead s.storeTail ∧ s.Conditional store_idx acc
  | .completeStore store_idx =>
    dist s.storeHead store_idx < dist s.storeHead s.storeWBIdx ∧ (s.storeQueue store_idx).completed = false
  | _ => True

/-- The load that has to wait has not executed, and does not commit. -/
def KeepsWaiting (s : LSQUnit l m) : Op l m → Prop
  | .commitLoads youngest_inst =>
    s.stalled = true → ∀ load, s.loadQueue s.stallingLoadIdx = some load → youngest_inst < load.tag.seqNum
  | _ => True

/-- The completion of a store that was sent. -/
theorem completeSent_spec (h : s.Represents s.storeWBIdx q) (hsending : s.Sending p q)
    (hidx : dist s.storeHead store_idx < dist s.storeHead s.storeWBIdx)
    (hopen : (s.storeQueue store_idx).completed = false) (hcomplete : s.completeStore p store_idx = .ok s') :
    ∃ q', q.Step (.completeStore store_idx) q' ∧ s'.Represents s'.storeWBIdx q' ∧ s'.Sending p q' ∧
      KeepsLoads s s' := by
  rw [h.storeHead, h.stores.dist_wb] at hidx
  obtain ⟨pre, tag, post, hsplit, hat, htag⟩ := h.stores.split (i := store_idx) (by
    rw [h.stores.dist_tail, length_append]
    omega)
  have hlength : pre.length < q.sent.length := by
    have hall := h.stores.length_le
    rw [hsplit, length_append] at hall
    rwa [hat, dist_advance _ (by omega)] at hidx
  obtain ⟨mid, hsent⟩ : ∃ mid, q.sent = pre ++ tag :: mid := by
    rcases append_eq_append_iff.mp hsplit with ⟨mid, hpre, -⟩ | ⟨mid, hsent, hpost⟩
    · rw [hpre, length_append] at hlength
      omega
    cases mid with
    | nil =>
      rw [hsent, append_nil] at hlength
      omega
    | cons first mid =>
      obtain ⟨rfl, -⟩ := cons.inj hpost
      exact ⟨mid, hsent⟩
  have hopen' : tag.completed = false := by
    obtain ⟨inst, -, rfl⟩ := SQEntry.tag_eq_some_iff.mp htag
    exact hopen
  obtain ⟨q', hmoves, hunsent, hq', hkeeps⟩ := completeStore_spec h hsent hopen' hat hcomplete
  rw [← hkeeps.storeWBIdx] at hq'
  refine ⟨q', ⟨hmoves, hunsent⟩, hq', hkeeps.sending ?_ hsending, hkeeps.loads⟩
  rintro ⟨first, rest, hfirst, hcanWB⟩
  exact ⟨first, rest, hunsent.trans hfirst, hcanWB⟩

/-- What a call does to the unit it does to the queues. -/
theorem step_refines (h : s.Represents s.storeWBIdx q) (hsending : s.Sending p q) (hop : s.Orderly op)
    (hstep : s.step p op = .ok (answer, s')) : ∃ q', q.Step op q' ∧ s'.Represents s'.storeWBIdx q' ∧ s'.Sending p q' ∧
      (s.Stalls → s.KeepsWaiting op → s'.Stalls) := by
  have hquiet : Quiet s s' → s'.Represents s'.storeWBIdx q ∧ s'.Sending p q ∧
    (s.Stalls → s.KeepsWaiting op → s'.Stalls) := by
    intro hquiet
    rw [hquiet.stores.storeWBIdx]
    exact ⟨h.same hquiet.loads hquiet.stores, hquiet.stores.sending hsending, fun hs _ => hquiet.loads.stalls hs⟩
  cases op with
  | insertLoad seqNum =>
    obtain ⟨after, hinsert, hdone⟩ := map_ok hstep
    cases hdone
    obtain ⟨hq', hkeeps, hstalls⟩ := insertLoad_spec h hop.1 hinsert
    rw [← hkeeps.storeWBIdx] at hq'
    exact ⟨_, rfl, hq', (hkeeps.sending hsending).congr rfl, fun hs _ => hstalls hs⟩
  | insertStore seqNum isStoreConditional isDataPrefetch =>
    obtain ⟨after, hinsert, hdone⟩ := map_ok hstep
    cases hdone
    obtain ⟨hq', hkeeps⟩ := insertStore_spec h hop.1 hinsert
    rw [← hkeeps.storeWBIdx] at hq'
    refine ⟨_, rfl, hq', hkeeps.sending ?_ hsending, fun hs _ => hkeeps.loads.stalls hs⟩
    rintro ⟨first, rest, hfirst, hcanWB⟩
    exact ⟨first, _, by rw [Queues.insertStore, hfirst, cons_append], hcanWB⟩
  | finishLoadTranslation load_idx t =>
    obtain ⟨after, htranslation, hdone⟩ := map_ok hstep
    cases hdone
    exact ⟨q, rfl, hquiet (finishLoadTranslation_quiet htranslation)⟩
  | finishStoreTranslation store_idx t =>
    obtain ⟨after, htranslation, hdone⟩ := map_ok hstep
    cases hdone
    obtain ⟨hq', htouches, -⟩ := finishStoreTranslation_spec h htranslation
    rw [← htouches.keeps.storeWBIdx] at hq'
    exact ⟨q, rfl, hq', htouches.keeps.sending id hsending, fun hs _ => htouches.keeps.loads.stalls hs⟩
  | executeLoad load_idx acc =>
    obtain ⟨⟨result, after⟩, hexecute, hdone⟩ := map_ok hstep
    cases hdone
    exact ⟨q, rfl, hquiet (executeLoad_quiet hexecute)⟩
  | executeStore store_idx acc =>
    obtain ⟨⟨fault, after⟩, hexecute, hdone⟩ := map_ok hstep
    cases hdone
    obtain ⟨q', hq, hnext, hq', hkeeps⟩ := executeStore_spec h hop.1 hop.2 hexecute
    rw [← hkeeps.storeWBIdx] at hq'
    exact ⟨q', hq, hq', hkeeps.sending hnext hsending, fun hs _ => hkeeps.loads.stalls hs⟩
  | writeback load_idx =>
    obtain ⟨after, hwriteback, hdone⟩ := map_ok hstep
    cases hdone
    exact ⟨q, rfl, hquiet (writeback_quiet hwriteback)⟩
  | checkSnoop addr =>
    obtain ⟨after, hsnoop, hdone⟩ := map_ok hstep
    cases hdone
    exact ⟨q, rfl, hquiet (checkSnoop_quiet hsnoop)⟩
  | getMemDepViolator =>
    cases hstep
    exact ⟨q, rfl, hquiet (.memDepViolator s none)⟩
  | commitLoads youngest_inst =>
    obtain ⟨after, hcommit, hdone⟩ := map_ok hstep
    cases hdone
    obtain ⟨done, rest, hloads, hdone, hq', hkeeps, hstalled, hidx, hyounger⟩ := commitLoads_spec h hcommit
    rw [← hkeeps.storeWBIdx] at hq'
    refine ⟨_, ⟨done, rest, hloads, hdone, rfl⟩, hq', (hkeeps.sending hsending).congr rfl, fun hs hwait hnow => ?_⟩
    rw [hstalled] at hnow
    obtain ⟨load, hload⟩ := Option.isSome_iff_exists.mp (hs hnow)
    rw [hidx, hyounger _ load hload (hwait hnow load hload)]
    rfl
  | commitStores youngest_inst =>
    obtain ⟨after, hcommit, hdone⟩ := map_ok hstep
    cases hdone
    obtain ⟨done, rest, hunsent, hq', hkeeps⟩ := commitStores_spec h hcommit
    rw [← hkeeps.storeWBIdx] at hq'
    refine ⟨_, ⟨done, rest, hunsent, rfl⟩, hq', hkeeps.sending ?_ hsending, fun hs _ => hkeeps.loads.stalls hs⟩
    rintro ⟨first, later, hfirst, hcanWB⟩
    cases done with
    | nil => exact ⟨first, later, hunsent.symm.trans hfirst, hcanWB⟩
    | cons tag done => exact ⟨tag.commit, _, rfl, rfl⟩
  | writebackStores answers =>
    obtain ⟨after, hwrite, hdone⟩ := map_ok hstep
    cases hdone
    obtain ⟨q', hmoves, hq', hsending', hkeeps⟩ := writebackStores_spec h hsending hwrite
    exact ⟨q', hmoves, hq', hsending', fun hs _ => hkeeps.stalls hs⟩
  | recvRetry answers =>
    obtain ⟨after, hretry, hdone⟩ := map_ok hstep
    cases hdone
    obtain ⟨q', hmoves, hq', hsending', hkeeps⟩ := recvRetry_spec h hsending hretry
    exact ⟨q', hmoves, hq', hsending', fun hs _ => hkeeps.stalls hs⟩
  | completeStore store_idx =>
    obtain ⟨after, hcomplete, hdone⟩ := map_ok hstep
    cases hdone
    obtain ⟨q', hmoves, hq', hsending', hkeeps⟩ := completeSent_spec h hsending hop.1 hop.2 hcomplete
    exact ⟨q', hmoves, hq', hsending', fun hs _ => hkeeps.stalls hs⟩
  | squash squashed_num =>
    obtain ⟨after, hsquash, hdone⟩ := map_ok hstep
    cases hdone
    obtain ⟨q', hq, hq', hsending', hstalls⟩ := squash_spec h hsending hsquash
    exact ⟨q', hq, hq', hsending', fun hs _ => hstalls hs⟩
  | tick =>
    cases hstep
    exact ⟨q, rfl, hquiet (.usedStorePorts s 0)⟩

end Gem5.O3.LSQUnit
