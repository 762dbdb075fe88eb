import Gem5.O3.LSQUnit.Queues

open Lib Result Lib.Circular Function List

namespace Gem5.O3

def StoreTag.commit {l : Nat} (tag : StoreTag l) : StoreTag l := { tag with canWB := true }

def StoreTag.complete {l : Nat} (tag : StoreTag l) : StoreTag l := { tag with completed := true }

theorem StoreTag.commit_eq_self {tag : StoreTag l} (h : tag.canWB = true) : tag.commit = tag := by
  rw [commit, ← h]

namespace SQEntry

variable {l : Nat} {entry : SQEntry l} {tag : StoreTag l}

theorem tag_commit (h : entry.tag = some tag) : { entry with canWB := true }.tag = some tag.commit := by
  obtain ⟨inst, hinst, rfl⟩ := tag_eq_some_iff.mp h
  exact tag_eq_some_iff.mpr ⟨inst, hinst, rfl⟩

theorem tag_complete (h : entry.tag = some tag) : { entry with completed := true }.tag = some tag.complete := by
  obtain ⟨inst, hinst, rfl⟩ := tag_eq_some_iff.mp h
  exact tag_eq_some_iff.mpr ⟨inst, hinst, rfl⟩

end SQEntry

/-- The two queues without their slots: where they begin and what they hold, oldest
first. -/
structure Queues (l m : Nat) where
  loadHead : Fin (l + 1)
  loads : List (LoadTag l m)
  storeHead : Fin (m + 1)
  sent : List (StoreTag l)
  unsent : List (StoreTag l)

namespace Queues

variable {l m : Nat}

def empty : Queues l m := ⟨⟨0, Nat.succ_pos l⟩, [], ⟨0, Nat.succ_pos m⟩, [], []⟩

variable (q : Queues l m)

def loadTail : Fin (l + 1) := advance q.loadHead q.loads.length

def stores : List (StoreTag l) := q.sent ++ q.unsent

def storeWBIdx : Fin (m + 1) := advance q.storeHead q.sent.length

def storeTail : Fin (m + 1) := advance q.storeHead q.stores.length

def insertLoad (seqNum : InstSeqNum) : Queues l m :=
  { q with loads := q.loads ++ [⟨seqNum, q.loadTail, if q.stores.isEmpty then none else some q.storeTail⟩] }

def insertStore (seqNum : InstSeqNum) (isStoreConditional : Bool) : Queues l m :=
  { q with unsent := q.unsent ++ [⟨seqNum, q.loadTail, isStoreConditional, false, false⟩] }

/-- The next store can be written back. -/
def NextCanWB : Prop := ∃ tag rest, q.unsent = tag :: rest ∧ tag.canWB = true

/-- One move of a store towards memory: the next one is sent, or one that was sent
is complete. When it was the oldest one, those after it that are complete leave
with it. -/
inductive Moves : Queues l m → Queues l m → Prop where
  | send {q : Queues l m} {tag : StoreTag l} {rest : List (StoreTag l)} (hnext : q.unsent = tag :: rest)
      (hcanWB : tag.canWB = true) : Moves q { q with sent := q.sent ++ [tag], unsent := rest }
  | completeFirst {q : Queues l m} {tag : StoreTag l} {done rest : List (StoreTag l)}
      (hsent : q.sent = tag :: (done ++ rest)) (hdone : ∀ t ∈ done, t.completed = true) :
      Moves q { q with storeHead := advance q.storeHead (done.length + 1), sent := rest }
  | complete {q : Queues l m} {pre post : List (StoreTag l)} {tag : StoreTag l} (hsent : q.sent = pre ++ tag :: post)
      (hopen : tag.completed = false) : Moves q { q with sent := pre ++ tag.complete :: post }

/-- What a call can do to the queues. -/
def Step : LSQUnit.Op l m → Queues l m → Prop
  | .insertLoad seqNum, q' => q' = q.insertLoad seqNum
  | .insertStore seqNum isStoreConditional _, q' => q' = q.insertStore seqNum isStoreConditional
  | .executeStore store_idx _, q' =>
    q' = q ∨ ∃ pre tag post, q.unsent = pre ++ tag :: post ∧ tag.isStoreConditional = true ∧ tag.canWB = false ∧
      store_idx = advance q.storeHead (q.sent ++ pre).length ∧ q' = { q with unsent := pre ++ tag.commit :: post }
  | .commitLoads youngest_inst, q' =>
    ∃ done rest, q.loads = done ++ rest ∧ (∀ tag ∈ done, tag.seqNum ≤ youngest_inst) ∧
      q' = { q with loadHead := advance q.loadHead done.length, loads := rest }
  | .commitStores _, q' =>
    ∃ done rest, q.unsent = done ++ rest ∧ q' = { q with unsent := done.map StoreTag.commit ++ rest }
  | .writebackStores _, q' | .recvRetry _, q' => Relation.ReflTransGen Moves q q'
  | .completeStore _, q' => Moves q q' ∧ q'.unsent = q.unsent
  | .squash squashed_num, q' =>
    ∃ loads unsent young squashed, q.loads = loads ++ young ∧ q.unsent = unsent ++ squashed ∧
      (∀ tag ∈ young, squashed_num < tag.seqNum) ∧ (∀ tag ∈ loads.getLast?, tag.seqNum ≤ squashed_num) ∧
      (∀ tag ∈ squashed, squashed_num < tag.seqNum ∧ tag.canWB = false) ∧
      (∀ tag ∈ unsent.getLast?, tag.seqNum ≤ squashed_num ∨ tag.canWB = true) ∧ q' = { q with loads, unsent }
  | _, q' => q' = q

end Queues

namespace LSQUnit

variable {l m : Nat}

/-- The load that has to wait is in the queue. -/
def Stalls (s : LSQUnit l m) : Prop := s.stalled = true → (s.loadQueue s.stallingLoadIdx).isSome = true

/-- What the calls for stores leave of the load queue. -/
structure KeepsLoads (s s' : LSQUnit l m) : Prop where
  tags : ∀ i, (s'.loadQueue i).map LoadInst.tag = (s.loadQueue i).map LoadInst.tag
  loads : s'.loads = s.loads
  loadHead : s'.loadHead = s.loadHead
  loadTail : s'.loadTail = s.loadTail
  stalls : s.Stalls → s'.Stalls

/-- What the calls for loads leave of the store queue. -/
structure KeepsStores (s s' : LSQUnit l m) : Prop where
  storeQueue : s'.storeQueue = s.storeQueue
  stores : s'.stores = s.stores
  storesToWB : s'.storesToWB = s.storesToWB
  storeHead : s'.storeHead = s.storeHead
  storeWBIdx : s'.storeWBIdx = s.storeWBIdx
  storeTail : s'.storeTail = s.storeTail
  isStoreBlocked : s'.isStoreBlocked = s.isStoreBlocked
  hasPendingPkt : s'.hasPendingPkt = s.hasPendingPkt

/-- The unit holds the queues, with `wb` as the index of the next store to be sent.
Between calls it is `storeWBIdx`. -/
structure Represents (s : LSQUnit l m) (wb : Fin (m + 1)) (q : Queues l m) : Prop where
  loadHead : s.loadHead = q.loadHead
  loads : LoadsHold s.loadQueue s.loads q.loadHead s.loadTail q.loads
  storeHead : s.storeHead = q.storeHead
  stores : StoresHold s.storeQueue s.stores s.storesToWB q.storeHead wb s.storeTail q.sent q.unsent
  sent_canWB : ∀ tag ∈ q.sent, tag.canWB = true
  unsent_open : ∀ tag ∈ q.unsent, tag.completed = false

/-- A packet that waits belongs to the next store. -/
structure Sending (p : LSQParams) (s : LSQUnit l m) (q : Queues l m) : Prop where
  blocked : s.isStoreBlocked = true → q.NextCanWB
  pending : s.hasPendingPkt = true → q.NextCanWB
  not_both : s.hasPendingPkt = true → s.isStoreBlocked = false
  split : s.hasPendingPkt = true → p.hasUnalignedMemAcc = true

theorem KeepsLoads.refl (s : LSQUnit l m) : KeepsLoads s s := ⟨fun _ => rfl, rfl, rfl, rfl, id⟩

variable {s₁ s₂ s₃ : LSQUnit l m}

theorem KeepsLoads.trans (h : KeepsLoads s₁ s₂) (h' : KeepsLoads s₂ s₃) : KeepsLoads s₁ s₃ where
  tags i := (h'.tags i).trans (h.tags i)
  loads := h'.loads.trans h.loads
  loadHead := h'.loadHead.trans h.loadHead
  loadTail := h'.loadTail.trans h.loadTail
  stalls hs := h'.stalls (h.stalls hs)

theorem KeepsStores.refl (s : LSQUnit l m) : KeepsStores s s := ⟨rfl, rfl, rfl, rfl, rfl, rfl, rfl, rfl⟩

theorem KeepsStores.trans (h : KeepsStores s₁ s₂) (h' : KeepsStores s₂ s₃) : KeepsStores s₁ s₃ where
  storeQueue := h'.storeQueue.trans h.storeQueue
  stores := h'.stores.trans h.stores
  storesToWB := h'.storesToWB.trans h.storesToWB
  storeHead := h'.storeHead.trans h.storeHead
  storeWBIdx := h'.storeWBIdx.trans h.storeWBIdx
  storeTail := h'.storeTail.trans h.storeTail
  isStoreBlocked := h'.isStoreBlocked.trans h.isStoreBlocked
  hasPendingPkt := h'.hasPendingPkt.trans h.hasPendingPkt

variable {s s' : LSQUnit l m}

theorem KeepsLoads.hold (h : KeepsLoads s s') {head : Fin (l + 1)} {tags : List (LoadTag l m)}
    (hs : LoadsHold s.loadQueue s.loads head s.loadTail tags) :
    LoadsHold s'.loadQueue s'.loads head s'.loadTail tags := by
  rw [h.loads, h.loadTail]
  exact hs.congr h.tags

theorem KeepsStores.hold (h : KeepsStores s s') {head wb : Fin (m + 1)} {sent unsent : List (StoreTag l)}
    (hs : StoresHold s.storeQueue s.stores s.storesToWB head wb s.storeTail sent unsent) :
    StoresHold s'.storeQueue s'.stores s'.storesToWB head wb s'.storeTail sent unsent := by
  rw [h.storeQueue, h.stores, h.storesToWB, h.storeTail]
  exact hs

variable {p : LSQParams}

theorem KeepsStores.sending (h : KeepsStores s s') (hs : s.Sending p q) : s'.Sending p q := by
  refine ⟨?_, ?_, ?_, ?_⟩ <;> simp only [h.isStoreBlocked, h.hasPendingPkt]
  · exact hs.blocked
  · exact hs.pending
  · exact hs.not_both
  · exact hs.split

theorem Sending.congr (h : s.Sending p q) (hunsent : q'.unsent = q.unsent) : s.Sending p q' := by
  have hnext : q.NextCanWB → q'.NextCanWB := by
    rintro ⟨tag, rest, hfirst, hcanWB⟩
    exact ⟨tag, rest, hunsent.trans hfirst, hcanWB⟩
  exact ⟨fun hnow => hnext (h.blocked hnow), fun hnow => hnext (h.pending hnow), h.not_both, h.split⟩

namespace Represents

variable {s s' : LSQUnit l m} {wb : Fin (m + 1)} {q : Queues l m}

theorem construct (l m : Nat) : (LSQUnit.construct l m).Represents 0 .empty where
  loadHead := rfl
  loads := ⟨rfl, (advance_zero 0).symm, .nil _ _, fun _ _ => rfl⟩
  storeHead := rfl
  stores := ⟨rfl, rfl, (advance_zero 0).symm, (advance_zero 0).symm, .nil _ _, fun _ => .construct none⟩
  sent_canWB tag h := by cases h
  unsent_open tag h := by cases h

/-- A call that leaves both queues as they are. -/
theorem same (h : s.Represents wb q) (hloads : KeepsLoads s s') (hstores : KeepsStores s s') : s'.Represents wb q :=
  { h with
    loadHead := hloads.loadHead.trans h.loadHead
    loads := hloads.hold h.loads
    storeHead := hstores.storeHead.trans h.storeHead
    stores := hstores.hold h.stores }

variable {tag : StoreTag l} {rest : List (StoreTag l)}

/-- The next store is passed. -/
theorem send (h : s.Represents wb q) (hnext : q.unsent = tag :: rest) (hcanWB : tag.canWB = true) :
    s.Represents (succ wb) { q with sent := q.sent ++ [tag], unsent := rest } := by
  have hstores := h.stores
  have hopen := h.unsent_open
  rw [hnext] at hstores hopen
  have hsent : ∀ t ∈ q.sent ++ [tag], t.canWB = true :=
    forall_mem_append.mpr ⟨h.sent_canWB, forall_mem_singleton.mpr hcanWB⟩
  exact { h with stores := hstores.send, sent_canWB := hsent, unsent_open := (forall_mem_cons.mp hopen).2 }

/-- The oldest store leaves. -/
theorem retireHead (h : s.Represents wb q) (hsent : q.sent = tag :: rest) (hcompleted : tag.completed = true) :
    s.retireHead.Represents wb { q with storeHead := succ q.storeHead, sent := rest } := by
  have hstores := h.stores
  have hcanWB := h.sent_canWB
  rw [hsent] at hstores hcanWB
  exact { h with
    storeHead := congrArg succ h.storeHead
    stores := hstores.popFront hcompleted
    sent_canWB := (forall_mem_cons.mp hcanWB).2 }

variable {pre post : List (StoreTag l)} {store_idx : Fin (m + 1)} (h : s.Represents wb q)
include h

/-- One store is changed, in its place. -/
theorem setStore {new : StoreTag l} (hstores : q.sent ++ q.unsent = pre ++ tag :: post)
    (hidx : store_idx = advance q.storeHead pre.length) {entry : SQEntry l} (hnew : entry.tag = some new)
    (hsound : entry.Sound) {sent' unsent' : List (StoreTag l)} (hstores' : sent' ++ unsent' = pre ++ new :: post)
    (hlength : sent'.length = q.sent.length) (hsent' : ∀ t ∈ sent', t.canWB = true)
    (hunsent' : ∀ t ∈ unsent', t.completed = false) {storesToWB : Int}
    (htoWB : storesToWB = s.storesToWB + (if new.awaitsWB then 1 else 0) - if tag.awaitsWB then 1 else 0) :
    { s.setStore store_idx entry with storesToWB }.Represents wb { q with sent := sent', unsent := unsent' } := by
  rw [htoWB, hidx]
  exact { h with
    stores := h.stores.set hstores hnew hsound hstores' hlength
    sent_canWB := hsent'
    unsent_open := hunsent' }

/-- A store that is not sent can be written back. -/
theorem setCanWB (hunsent : q.unsent = pre ++ tag :: post) (hcanWB : tag.canWB = false)
    (hidx : store_idx = advance q.storeHead (q.sent ++ pre).length) (htag : (s.storeQueue store_idx).tag = some tag) :
    (s.setCanWB store_idx).Represents wb { q with unsent := pre ++ tag.commit :: post } := by
  have hopen : tag.completed = false := h.unsent_open tag (hunsent ▸ mem_append_right _ mem_cons_self)
  have hsound : ({ s.storeQueue store_idx with canWB := true } : SQEntry l).Sound := h.stores.sound store_idx
  refine h.setStore (by rw [hunsent, append_assoc]) hidx (SQEntry.tag_commit htag) hsound
    (by rw [append_assoc]) rfl h.sent_canWB ?_ ?_
  · have hall := h.unsent_open
    rw [hunsent, forall_mem_append, forall_mem_cons] at hall
    exact forall_mem_append.mpr ⟨hall.1, forall_mem_cons.mpr ⟨hopen, hall.2.2⟩⟩
  · simp [StoreTag.awaitsWB, StoreTag.commit, hcanWB, hopen]

/-- A store that was sent is complete. -/
theorem setCompleted (hsent : q.sent = pre ++ tag :: post)
    (hopen : tag.completed = false) (hidx : store_idx = advance q.storeHead pre.length)
    (htag : (s.storeQueue store_idx).tag = some tag) :
    (s.setCompleted store_idx).Represents wb { q with sent := pre ++ tag.complete :: post } := by
  have hcanWB : tag.canWB = true := h.sent_canWB tag (hsent ▸ mem_append_right _ mem_cons_self)
  have hsound : ({ s.storeQueue store_idx with completed := true } : SQEntry l).Sound := h.stores.sound store_idx
  have hlength : (pre ++ tag.complete :: post).length = q.sent.length := by
    rw [hsent]
    simp
  refine h.setStore (by rw [hsent, append_assoc, cons_append]) hidx (SQEntry.tag_complete htag) hsound
    (by rw [append_assoc, cons_append]) hlength ?_ h.unsent_open ?_
  · have hall := h.sent_canWB
    rw [hsent, forall_mem_append, forall_mem_cons] at hall
    exact forall_mem_append.mpr ⟨hall.1, forall_mem_cons.mpr ⟨hcanWB, hall.2.2⟩⟩
  · simp [StoreTag.awaitsWB, StoreTag.complete, hcanWB, hopen]

/-- What the other calls write into a store leaves the order alone. -/
theorem touchStore {entry : SQEntry l} (htag : entry.tag = (s.storeQueue store_idx).tag) (hsound : entry.Sound) :
    (s.setStore store_idx entry).Represents wb q := by
  refine { h with stores := { h.stores with slots := ?_, sound := StoresHold.sound_update h.stores.sound _ hsound } }
  rw [storeQueue_setStore, StoresHold.tag_update, htag, update_eq_self]
  exact h.stores.slots

/-- The slot of a store. -/
theorem tag_at (hstores : q.sent ++ q.unsent = pre ++ tag :: post) :
    (s.storeQueue (advance q.storeHead pre.length)).tag = some tag :=
  h.stores.middle hstores

theorem tag_first (hstores : q.sent ++ q.unsent = tag :: rest) : (s.storeQueue q.storeHead).tag = some tag := by
  have hat : q.sent ++ q.unsent = [] ++ tag :: rest := hstores
  simpa using h.tag_at hat

end Represents

/-- A call that leaves both queues as they are. -/
structure Quiet (s s' : LSQUnit l m) : Prop where
  loads : KeepsLoads s s'
  stores : KeepsStores s s'

namespace Quiet

variable {s s' : LSQUnit l m}

theorem refl (s : LSQUnit l m) : Quiet s s := ⟨.refl s, .refl s⟩

theorem trans (h : Quiet s₁ s₂) (h' : Quiet s₂ s₃) : Quiet s₁ s₃ :=
  ⟨h.loads.trans h'.loads, h.stores.trans h'.stores⟩

theorem setLoad (hold : s.loadQueue i = some old) (htag : new.tag = old.tag) : Quiet s (s.setLoad i (some new)) := by
  refine ⟨⟨fun j => ?_, rfl, rfl, rfl, fun hs hstalled => ?_⟩, ⟨rfl, rfl, rfl, rfl, rfl, rfl, rfl, rfl⟩⟩
  · rw [loadQueue_setLoad]
    by_cases heq : j = i
    · rw [heq, update_self, hold, Option.map_some, Option.map_some, htag]
    · rw [update_of_ne heq]
  · change (update s.loadQueue i (some new) s.stallingLoadIdx).isSome = true
    by_cases heq : s.stallingLoadIdx = i
    · rw [heq, update_self, Option.isSome_some]
    · rw [update_of_ne heq]
      exact hs hstalled

theorem after_setLoad (hold : s.loadQueue i = some old) (h : Quiet (s.setLoad i (some new)) s')
    (htag : new.tag = old.tag) : Quiet s s' :=
  (setLoad hold htag).trans h

theorem call (s : LSQUnit l m) (c : IEWCall) : Quiet s (s.call c) :=
  ⟨⟨fun _ => rfl, rfl, rfl, rfl, id⟩, ⟨rfl, rfl, rfl, rfl, rfl, rfl, rfl, rfl⟩⟩

theorem memDepViolator (s : LSQUnit l m) (violator : Option InstSeqNum) :
    Quiet s { s with memDepViolator := violator } :=
  ⟨⟨fun _ => rfl, rfl, rfl, rfl, id⟩, ⟨rfl, rfl, rfl, rfl, rfl, rfl, rfl, rfl⟩⟩

theorem usedStorePorts (s : LSQUnit l m) (n : Nat) : Quiet s { s with usedStorePorts := n } :=
  ⟨⟨fun _ => rfl, rfl, rfl, rfl, id⟩, ⟨rfl, rfl, rfl, rfl, rfl, rfl, rfl, rfl⟩⟩

end Quiet

variable {load_idx : Fin (l + 1)}

theorem snoopLoads_quiet (h : snoopLoads p invalidate_addr fuel force_squash load_idx s = .ok s') : Quiet s s' := by
  induction fuel generalizing force_squash load_idx s with
  | zero => cases h
  | succ fuel ih =>
    rw [snoopLoads] at h
    split at h
    · cases h
      exact .refl _
    cases hload : s.loadQueue load_idx with
    | none =>
      rw [hload] at h
      cases h
    | some ld_inst =>
      simp only [hload] at h
      split at h
      · exact ih h
      split at h
      · refine .after_setLoad hload (ih h) ?_
        split <;> rfl
      · exact ih h

theorem checkSnoop_quiet (h : s.checkSnoop p addr = .ok s') : Quiet s s' := by
  unfold checkSnoop at h
  split at h
  · cases h
    exact .refl _
  · exact snoopLoads_quiet h

theorem checkViolations_quiet (h : s.checkViolations p load_idx inst = .ok (fault, s')) : Quiet s s' := by
  unfold checkViolations at h
  generalize l + 2 = fuel at h
  induction fuel generalizing load_idx s with
  | zero => cases h
  | succ fuel ih =>
    rw [checkViolationsFrom] at h
    split at h
    · cases h
      exact .refl _
    cases hload : s.loadQueue load_idx with
    | none =>
      rw [hload] at h
      cases h
    | some ld_inst =>
      simp only [hload] at h
      split at h
      · exact ih h
      split at h
      · split at h
        · split at h
          · cases h
            exact .memDepViolator _ _
          · exact .after_setLoad hload (ih h) rfl
        · split at h
          · cases h
            exact .refl _
          · cases h
            exact .memDepViolator _ _
      · exact ih h

theorem finishLoadTranslation_quiet (h : s.finishLoadTranslation load_idx t = .ok s') : Quiet s s' := by
  cases t with
  | none =>
    cases h
    exact .refl _
  | some t =>
    simp only [finishLoadTranslation] at h
    split at h
    · cases h
    · rename_i inst hload
      cases h
      exact .setLoad hload rfl

theorem writeback_quiet (h : s.writeback load_idx = .ok s') : Quiet s s' := by
  unfold writeback at h
  split at h
  · cases h
  · rename_i inst hload
    cases h
    exact .after_setLoad hload (.call _ _) rfl

theorem stallLoad_quiet (hload : s.loadQueue load_idx = some load_inst)
    (h : s.stallLoad load_idx seqNum storeIsn = .ok s') : Quiet s s' := by
  have hstall : Quiet s { s with stalled := true, stallingStoreIsn := storeIsn, stallingLoadIdx := load_idx } := by
    refine ⟨⟨fun _ => rfl, rfl, rfl, rfl, fun _ _ => ?_⟩, ⟨rfl, rfl, rfl, rfl, rfl, rfl, rfl, rfl⟩⟩
    exact Option.isSome_iff_exists.mpr ⟨load_inst, hload⟩
  unfold stallLoad at h
  split at h
  · cases h
    exact hstall
  split at h
  · cases h
  split at h
  · cases h
    exact hstall
  · cases h
    exact .refl _

theorem finishRead_quiet (hload : s.loadQueue load_idx = some load_inst)
    (h : s.finishRead req load_idx load_inst answers scan = .ok (result, s')) : Quiet s s' := by
  cases scan with
  | forward store_idx =>
    simp only [finishRead] at h
    split at h
    · cases h
    · obtain ⟨memData, -, h⟩ := bind_ok h
      cases h
      exact .setLoad hload rfl
  | mismatch store_idx =>
    simp only [finishRead] at h
    split at h
    · cases h
    · obtain ⟨next, hstall, h⟩ := bind_ok h
      cases h
      exact (stallLoad_quiet hload hstall).trans (.call _ _)
  | noMatch =>
    simp only [finishRead] at h
    cases h
    split
    · exact .setLoad hload rfl
    · exact .after_setLoad hload (.call _ _) rfl

theorem read_quiet (h : s.read req load_idx isAtCommit answers = .ok (result, s')) : Quiet s s' := by
  unfold read at h
  split at h
  · cases h
  rename_i load_inst hload
  obtain ⟨-, -, h⟩ := bind_ok h
  split at h
  · cases h
    exact .call _ _
  obtain ⟨-, -, h⟩ := bind_ok h
  split at h
  · obtain ⟨-, -, h⟩ := bind_ok h
    cases h
    exact .setLoad hload rfl
  · obtain ⟨scan, -, h⟩ := bind_ok h
    exact finishRead_quiet hload h

theorem initiateLoad_quiet (h : s.initiateLoad load_idx acc = .ok (fault, result, s')) : Quiet s s' := by
  obtain ⟨next, htranslated, h⟩ := bind_ok h
  refine (finishLoadTranslation_quiet htranslated).trans ?_
  split at h
  · cases h
  rename_i inst hload
  split at h
  · cases h
    exact .setLoad hload rfl
  split at h
  · cases h
    exact .refl _
  · obtain ⟨⟨result, last⟩, hread, h⟩ := bind_ok h
    cases h
    exact .after_setLoad hload (read_quiet hread) rfl

theorem executeLoad_quiet (h : s.executeLoad p load_idx acc = .ok (result, s')) : Quiet s s' := by
  obtain ⟨⟨fault, result, next⟩, hinitiate, h⟩ := bind_ok h
  refine (initiateLoad_quiet hinitiate).trans ?_
  simp only at h
  split at h
  · cases h
    exact .refl _
  split at h
  · cases h
  rename_i inst hload
  split at h
  · cases h
    refine .after_setLoad hload (.call _ _) ?_
    split <;> rfl
  obtain ⟨-, -, h⟩ := bind_ok h
  split at h
  · obtain ⟨⟨fault, last⟩, hcheck, h⟩ := bind_ok h
    cases h
    exact checkViolations_quiet hcheck
  · cases h
    exact .refl _

end LSQUnit

end Gem5.O3
