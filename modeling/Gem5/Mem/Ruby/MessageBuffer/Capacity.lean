import Gem5.Mem.Ruby.MessageBuffer.Session

open Lib Result BitVec

namespace Gem5.Ruby.MessageBuffer

section

variable {M : Type} {pq : PriorityQueue (Message M) Message.key}

/-- The size before the first pop of the cycle, with what was enqueued in the cycle. -/
def sizeSince (b : MessageBuffer pq) (t : Nat) : Nat :=
  b.sizeAtCycleStart.toNat + if b.timeLastTimeEnqueue < t then 0 else b.msgsThisCycle.toNat

/-- The size of the heap that a check at a time sees. -/
def seenSize (b : MessageBuffer pq) (t : Nat) : Nat :=
  if b.timeLastTimePop < t then pq.size b.prioHeap else b.sizeSince t

theorem currentSize_toNat {b : MessageBuffer pq} (h : b.seenSize t < 2 ^ 32) :
    (b.currentSize t).toNat = b.seenSize t := by
  unfold currentSize
  unfold seenSize sizeSince at h ⊢
  split
  next hpop =>
    rw [if_pos hpop] at h
    rw [toNat_ofNat, Nat.mod_eq_of_lt h]
  next hpop =>
    rw [if_neg hpop] at h
    split
    next hlt => rfl
    next hlt =>
      rw [if_neg hlt] at h
      rw [toNat_add, Nat.mod_eq_of_lt h]

/-- The messages and the slots granted fit in the buffer, and a check sees no fewer
messages on the heap than there are. -/
structure Within (p : Params) (t slots : Nat) (b : MessageBuffer pq) : Prop where
  total : b.stallMapSize.toNat = b.stallMsgMap.messages.length
  popTime : b.timeLastTimePop ≤ t
  enqueueTime : b.timeLastTimeEnqueue ≤ t
  bound : pq.size b.prioHeap + b.stallMapSize.toNat + slots ≤ p.maxSize.toNat
  seen : pq.size b.prioHeap ≤ b.seenSize t

namespace Within

variable {p : Params} {t slots : Nat} {b b' : MessageBuffer pq} {message : Message M}

theorem construct (p : Params) : Within p 0 0 (MessageBuffer.construct pq) where
  total := rfl
  popTime := Nat.le_refl 0
  enqueueTime := Nat.le_refl 0
  bound := by simp [MessageBuffer.construct, PriorityQueue.size, pq.items_empty]
  seen := by simp [MessageBuffer.construct, PriorityQueue.size, pq.items_empty]

section

variable (h : Within p t slots b)
include h

theorem advance (hle : t ≤ later) : Within p later (if t < later then 0 else slots) b := by
  by_cases hlt : t < later
  · rw [if_pos hlt]
    have hpop := Nat.lt_of_le_of_lt h.popTime hlt
    have hbound := h.bound
    exact ⟨h.total, hpop.le, h.enqueueTime.trans hle, by omega, by rw [seenSize, if_pos hpop]⟩
  · rw [if_neg hlt]
    exact Nat.le_antisymm hle (Nat.not_lt.mp hlt) ▸ h

/-- What a check grants is there. -/
theorem check (hmax : p.maxSize ≠ 0) {n : Unsigned}
    (hfits : b.seenSize t + b.stallMapSize.toNat + n.toNat < 2 ^ 32) (hcheck : b.areNSlotsAvailable p n t = true) :
    Within p t (max slots n.toNat) b := by
  have hsum : (b.currentSize t + b.stallMapSize + n).toNat = b.seenSize t + b.stallMapSize.toNat + n.toNat := by
    rw [toNat_add, toNat_add, currentSize_toNat (by omega), Nat.mod_add_mod, Nat.mod_eq_of_lt hfits]
  simp only [areNSlotsAvailable, Bool.or_eq_true, beq_iff_eq, decide_eq_true_eq] at hcheck
  have hle := hcheck.resolve_left hmax
  rw [le_def, hsum] at hle
  have hbound := h.bound
  have hseen := h.seen
  exact ⟨h.total, h.popTime, h.enqueueTime, by omega, h.seen⟩

theorem enqueue (hslots : 0 < slots) (hfits : b.timeLastTimeEnqueue < t ∨ b.msgsThisCycle.toNat + 1 < 2 ^ 32)
    (henqueue : b.enqueue p message t delta random = .ok b') : Within p t (slots - 1) b' := by
  obtain ⟨m, -, -, -, hb'⟩ := enqueue_spec henqueue
  have htime : max b.timeLastTimeEnqueue t = t := max_eq_right h.enqueueTime
  have hbound := h.bound
  have hseen := h.seen
  have hmsgs : ((if b.timeLastTimeEnqueue < t then 0 else b.msgsThisCycle) + 1).toNat =
      (if b.timeLastTimeEnqueue < t then 0 else b.msgsThisCycle.toNat) + 1 := by
    split
    next => rfl
    next hlt => exact (toNat_add _ _).trans (Nat.mod_eq_of_lt (hfits.resolve_left hlt))
  rw [hb', htime]
  refine ⟨h.total, h.popTime, Nat.le_refl t, ?_, ?_⟩
  · dsimp only
    rw [pq.size_push]
    omega
  · simp only [seenSize, sizeSince, Nat.lt_irrefl, if_false, hmsgs, pq.size_push] at hseen ⊢
    split
    next hpop => exact Nat.le_refl _
    next hpop =>
      rw [if_neg hpop] at hseen
      omega

theorem pop (htop : pq.top b.prioHeap = some m) :
    Within p t slots (b.pop t) ∧ pq.size b.prioHeap = pq.size (b.pop t).prioHeap + 1 := by
  have hsize := pq.size_pop htop
  have hbound := h.bound
  have hseen := h.seen
  have htime : max b.timeLastTimePop t = t := max_eq_right h.popTime
  refine ⟨⟨h.total, ?_, h.enqueueTime, ?_, ?_⟩, hsize⟩
  · exact Nat.le_of_eq htime
  · simp only [MessageBuffer.pop]
    omega
  · simp only [MessageBuffer.pop, seenSize, sizeSince, htime, Nat.lt_irrefl, if_false]
    split
    next hpop =>
      rw [toNat_ofNat, Nat.mod_eq_of_lt (by have := p.maxSize.isLt; omega)]
      omega
    next hpop =>
      rw [seenSize, if_neg hpop, sizeSince] at hseen
      omega

theorem recycle (hrecycle : b.recycle t latency = .ok b') : Within p t slots b' := by
  obtain ⟨m, htop, -, rfl⟩ := recycle_spec hrecycle
  have hsize : pq.size (pq.push (pq.pop b.prioHeap) { m with lastEnqueueTime := t + latency }) =
    pq.size b.prioHeap := by
    rw [pq.size_push, pq.size_pop htop]
  refine ⟨h.total, h.popTime, h.enqueueTime, ?_, ?_⟩
  · rw [hsize]
    exact h.bound
  · have hseen := h.seen
    unfold seenSize sizeSince at hseen ⊢
    rw [hsize]
    exact hseen

theorem stall (hstall : b.stallMessage p addr t = .ok (message, b')) : Within p t slots b' := by
  obtain ⟨hpop, rfl⟩ := stallMessage_spec hstall
  obtain ⟨m, htop, -⟩ := dequeue_spec hpop
  obtain ⟨hafter, hsize⟩ := h.pop htop
  have hbound := h.bound
  have hadd : (b.stallMapSize + 1).toNat = b.stallMapSize.toNat + 1 := by
    have := p.maxSize.isLt
    rw [toNat_add, Nat.mod_eq_of_lt]
    · rfl
    · exact Nat.lt_of_le_of_lt (show b.stallMapSize.toNat + 1 ≤ p.maxSize.toNat by omega) this
  refine ⟨?_, hafter.popTime, hafter.enqueueTime, ?_, hafter.seen⟩
  · rw [hadd, (StallMsgMap.messages_pushBack addr message b.stallMsgMap).length_eq, List.length_cons, h.total]
  · show pq.size (b.pop t).prioHeap + (b.stallMapSize + 1).toNat + slots ≤ p.maxSize.toNat
    omega

end

theorem length_stamp (t : Nat) (counter : BitVec 64) (lt : List (Message M)) :
    (stamp t counter lt).length = lt.length := by
  induction lt generalizing counter with
  | nil => rfl
  | cons m lt ih => rw [stamp, List.length_cons, ih, List.length_cons]

theorem putBack (h : Within p t slots b) (hmap : b.stallMsgMap.messages.Perm (lt ++ map.messages))
    (hfits : b.timeLastTimePop < t ∨ pq.size b.prioHeap + lt.length ≤ b.sizeSince t) :
    Within p t slots { b.putBack t lt with stallMsgMap := map } := by
  have hsize : pq.size ((stamp t b.msgCounter lt).foldl pq.push b.prioHeap) = pq.size b.prioHeap + lt.length := by
    rw [PriorityQueue.size, (pq.items_foldl_push _ _).length_eq, List.length_append, length_stamp, Nat.add_comm]
    rfl
  have hlength := hmap.length_eq
  rw [List.length_append, ← h.total] at hlength
  have hsub : (b.stallMapSize - .ofNat 32 lt.length).toNat = map.messages.length := by
    have := b.stallMapSize.isLt
    rw [toNat_sub_of_le]
    · rw [toNat_ofNat, Nat.mod_eq_of_lt (by omega)]
      omega
    · rw [le_def, toNat_ofNat, Nat.mod_eq_of_lt (by omega)]
      omega
  have hbound := h.bound
  refine ⟨hsub, h.popTime, h.enqueueTime, ?_, ?_⟩
  · simp only [MessageBuffer.putBack, hsize, hsub]
    omega
  · simp only [MessageBuffer.putBack, seenSize, sizeSince, hsize]
    split
    next hpop => exact Nat.le_refl _
    next hpop => exact hfits.resolve_left hpop

end Within

end

namespace Session

variable {pq : PriorityQueue (Message Sent) Message.key}

/-- The counters do not wrap, and what is put back after a pop of the same cycle fits in
the places that the pops have left. -/
def Fits (s : Session pq) : Nat × Call → Prop
  | (t, .areNSlotsAvailable n) => s.buffer.seenSize t + s.buffer.stallMapSize.toNat + n.toNat < 2 ^ 32
  | (t, .enqueue ..) => s.buffer.timeLastTimeEnqueue < t ∨ s.buffer.msgsThisCycle.toNat + 1 < 2 ^ 32
  | (t, .reanalyzeMessages addr) => s.buffer.timeLastTimePop < t ∨
      pq.size s.buffer.prioHeap + (Call.reanalyzed s.buffer (.reanalyzeMessages addr)).length ≤ s.buffer.sizeSince t
  | (t, .reanalyzeAllMessages) => s.buffer.timeLastTimePop < t ∨
      pq.size s.buffer.prioHeap + (Call.reanalyzed s.buffer .reanalyzeAllMessages).length ≤ s.buffer.sizeSince t
  | _ => True

instance (s : Session pq) : ∀ call, Decidable (s.Fits call)
  | (_, .areNSlotsAvailable _) => inferInstanceAs (Decidable (_ < _))
  | (_, .enqueue ..) | (_, .reanalyzeMessages _) | (_, .reanalyzeAllMessages) => inferInstanceAs (Decidable (_ ∨ _))
  | (_, .dequeue) | (_, .recycle _) | (_, .stallMessage _) => .isTrue trivial

theorem within_step (hmax : p.maxSize ≠ 0) (hs : Within p s.now s.slots s.buffer) (hfits : s.Fits (t, c))
    (hstep : (machine pq p true).step s (t, c) = .ok (o, s')) : Within p s'.now s'.slots s'.buffer := by
  obtain ⟨htime, hask, b, happly, rfl⟩ := step_eq_ok_iff.mp hstep
  have h : Within p t (s.slotsAt t) s.buffer := hs.advance htime
  cases c with
  | areNSlotsAvailable n =>
    cases happly
    simp only [slotsAfter]
    split
    next hcheck => exact h.check hmax hfits hcheck
    next => exact h
  | enqueue => exact h.enqueue (hask rfl rfl) hfits happly
  | dequeue =>
    obtain ⟨⟨message, after⟩, hpop, rfl⟩ := map_ok happly
    obtain ⟨m, htop, -, rfl, -⟩ := dequeue_spec hpop
    exact (h.pop htop).1
  | recycle => exact h.recycle happly
  | stallMessage =>
    obtain ⟨⟨message, after⟩, hstall, rfl⟩ := map_ok happly
    exact h.stall hstall
  | reanalyzeMessages addr =>
    obtain ⟨hmap, rfl⟩ := Call.apply_reanalyze (.inl ⟨addr, rfl⟩) happly
    exact h.putBack hmap hfits
  | reanalyzeAllMessages =>
    obtain ⟨hmap, rfl⟩ := Call.apply_reanalyze (.inr rfl) happly
    exact h.putBack hmap hfits

/-- A buffer whose producers ask for slots never holds more messages than its size, as
long as what is put back fits in the places that the pops of the cycle have left. -/
theorem size_le_maxSize (p : Params) (hmax : p.maxSize ≠ 0) (calls : List (Nat × Call)) (answers : List Unit)
    (s : Session pq) (hrun : (machine pq p true).run (start pq) calls = .ok (answers, s))
    (hfits : (machine pq p true).StepsAll Fits (start pq) calls) :
    pq.size s.buffer.prioHeap + s.buffer.stallMapSize.toNat ≤ p.maxSize.toNat := by
  have hwithin : Within p s.now s.slots s.buffer :=
    Machine.run_invariant (I := fun s => Within p s.now s.slots s.buffer)
      (fun s c o s' hI hG hstep => within_step hmax hI hG hstep) (Within.construct p) hfits hrun
  have hbound := hwithin.bound
  omega

/-- A message is stalled and one dequeued; the next cycle puts the stalled one back and
asks for a slot. -/
def reanalyzedBeforeCheck : List (Nat × Call) :=
  [(0, .areNSlotsAvailable 2), (0, .enqueue 0 0 1 0), (0, .enqueue 0 0 1 0), (1, .stallMessage 0), (1, .dequeue),
    (2, .reanalyzeMessages 0), (2, .areNSlotsAvailable 1), (2, .enqueue 0 0 1 0)]

theorem size_le_maxSize_reanalyzed : ∃ answers s,
      (machine (.sorted (Message Sent) Message.key) (smallParams 2) true).run (start _) reanalyzedBeforeCheck =
        .ok (answers, s) ∧
      (PriorityQueue.sorted (Message Sent) Message.key).size s.buffer.prioHeap + s.buffer.stallMapSize.toNat ≤ 2 := by
  refine ⟨?answers, ?s, ?run, size_le_maxSize (smallParams 2) (by decide) _ ?answers ?s ?run ?fits⟩
  case run => rfl
  decide +kernel

/-- Two messages are put back after a pop of the same cycle. A check does not see them, and
the buffer of size 3 takes two more messages than it has room for. -/
theorem reanalysis_after_pop_exceeds_maxSize :
    (do
      let (_, s) ← (machine (.sorted (Message Sent) Message.key) (smallParams 3) true).run (start _)
        [(0, .areNSlotsAvailable 3), (0, .enqueue 0 0 1 0), (0, .enqueue 0 0 1 0), (0, .enqueue 0 0 1 0),
          (1, .stallMessage 0), (1, .stallMessage 0), (2, .dequeue), (2, .reanalyzeMessages 0),
          (2, .areNSlotsAvailable 2), (2, .enqueue 0 0 1 0), (2, .enqueue 0 0 1 0)]
      .ok ((PriorityQueue.sorted (Message Sent) Message.key).size s.buffer.prioHeap, s.buffer.stallMapSize)) =
    (.ok (4, 0) : Result (Nat × BitVec 32)) := by
  decide +kernel

end Session

end Gem5.Ruby.MessageBuffer
