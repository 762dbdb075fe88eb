import Gem5.Mem.Ruby.MessageBuffer.Model

open Lib Result

namespace Gem5.Ruby.MessageBuffer

/-- What tells a message apart: how many messages were enqueued before it, and when it
arrives. -/
structure Sent where
  number : Nat
  arrival : Nat
  deriving DecidableEq, Repr

/-- A buffer in use: the time of the last call, the number of messages enqueued, the
slots that a check at this time granted and that no enqueue has taken, the messages
that were put back on the heap and are still there, in this order, and the messages
that are stalled, with their addresses, in the order of the stalls. -/
structure Session (pq : PriorityQueue (Message Sent) Message.key) where
  buffer : MessageBuffer pq
  now : Nat
  enqueued : Nat
  slots : Nat
  returned : List (Message Sent)
  stalls : List (Addr × Sent)

/-- The messages that are stalled on an address. -/
def stalledOn (stalls : List (Addr × Sent)) (addr : Addr) : List Sent :=
  (stalls.filter fun stall => stall.1 = addr).map Prod.snd

inductive Call where
  | areNSlotsAvailable (n : Unsigned)
  | enqueue (lastEnqueueTime delayedTicks delta random : Nat)
  | dequeue
  | recycle (recycle_latency : Nat)
  | stallMessage (addr : Addr)
  | reanalyzeMessages (addr : Addr)
  | reanalyzeAllMessages
  deriving DecidableEq, Repr

variable {pq : PriorityQueue (Message Sent) Message.key}

namespace Call

/-- The calls that take the head out. -/
def takes : Call → Bool
  | dequeue | stallMessage _ => true
  | _ => false

def isEnqueue : Call → Bool
  | enqueue .. => true
  | _ => false

/-- The messages that the call puts back on the heap, in this order. -/
def reanalyzed (b : MessageBuffer pq) : Call → List (Message Sent)
  | reanalyzeMessages addr => (b.stallMsgMap.lookup addr).getD []
  | reanalyzeAllMessages => b.stallMsgMap.messages
  | _ => []

/-- What a reanalysis leaves in the stall map. -/
def left (b : MessageBuffer pq) : Call → StallMsgMap Sent
  | reanalyzeMessages addr => b.stallMsgMap.erase addr
  | _ => []

/-- The call made on the buffer. A message that is enqueued gets the number `number`. -/
def apply (p : Params) (b : MessageBuffer pq) (number current_time : Nat) : Call → Result (MessageBuffer pq)
  | areNSlotsAvailable _ => .ok b
  | enqueue lastEnqueueTime delayedTicks delta random =>
    b.enqueue p ⟨⟨number, (b.arrivalTime p current_time delta random).2⟩, lastEnqueueTime, delayedTicks, 0⟩ current_time
      delta random
  | dequeue => (b.dequeue current_time).map Prod.snd
  | recycle latency => b.recycle current_time latency
  | stallMessage addr => (b.stallMessage p addr current_time).map Prod.snd
  | reanalyzeMessages addr => b.reanalyzeMessages addr current_time
  | reanalyzeAllMessages => b.reanalyzeAllMessages current_time

/-- Both kinds of reanalysis put messages back and take them out of the map. -/
theorem apply_reanalyze {b b' : MessageBuffer pq} {c : Call}
    (hc : (∃ addr, c = reanalyzeMessages addr) ∨ c = reanalyzeAllMessages)
    (h : c.apply p b number current_time = .ok b') :
    b.stallMsgMap.messages.Perm (c.reanalyzed b ++ (c.left b).messages) ∧
      b' = { b.putBack current_time (c.reanalyzed b) with stallMsgMap := c.left b } := by
  rcases hc with ⟨addr, rfl⟩ | rfl
  · simp only [apply, MessageBuffer.reanalyzeMessages] at h
    cases hlt : b.stallMsgMap.lookup addr with
    | none =>
      rw [hlt] at h
      cases h
    | some lt =>
      rw [hlt] at h
      obtain ⟨after, hafter, hdone⟩ := bind_ok h
      cases hdone
      have hspec : after = b.putBack current_time [lt].flatten := reanalyzeStalled_spec (by simpa using hafter)
      have hlist : reanalyzed b (reanalyzeMessages addr) = lt := congrArg (Option.getD · []) hlt
      refine ⟨hlist ▸ StallMsgMap.messages_erase hlt, ?_⟩
      rw [hlist, hspec, List.flatten_singleton]
      rfl
  · obtain ⟨after, hafter, hdone⟩ := bind_ok h
    cases hdone
    refine ⟨(List.append_nil _).symm ▸ .refl _, ?_⟩
    rw [reanalyzeStalled_spec hafter, ← List.flatMap_def]
    rfl

end Call

namespace Session

variable (s : Session pq)

def start (pq : PriorityQueue (Message Sent) Message.key) : Session pq := ⟨.construct pq, 0, 0, 0, [], []⟩

/-- The slots that are still granted at a later time. -/
def slotsAt (t : Nat) : Nat := if s.now < t then 0 else s.slots

/-- The slots that are granted after the call. -/
def slotsAfter (p : Params) (t : Nat) : Call → Nat
  | .areNSlotsAvailable n =>
    if s.buffer.areNSlotsAvailable p n t then max (s.slotsAt t) n.toNat else s.slotsAt t
  | .enqueue .. => s.slotsAt t - 1
  | _ => s.slotsAt t

/-- The returned messages that the call leaves on the heap. -/
def waiting (c : Call) : List (Message Sent) :=
  if c.takes then s.returned.filter fun r => pq.top s.buffer.prioHeap ≠ some r else s.returned

/-- The messages that are stalled after the call. -/
def stallsAfter : Call → List (Addr × Sent)
  | .stallMessage addr => s.stalls ++ ((pq.top s.buffer.prioHeap).map fun m => (addr, m.payload)).toList
  | .reanalyzeMessages addr => s.stalls.filter fun stall => stall.1 ≠ addr
  | .reanalyzeAllMessages => []
  | _ => s.stalls

/-- The calls, at times that do not decrease. If the producers are `asking`, they only
enqueue into slots that a check has granted. -/
def machine (pq : PriorityQueue (Message Sent) Message.key) (p : Params) (asking : Bool) :
    Machine (Session pq) (Nat × Call) Unit where
  step s | (t, c) => do
    require (s.now ≤ t)
    require (!asking || !c.isEnqueue || 0 < s.slotsAt t)
    let buffer ← c.apply p s.buffer s.enqueued t
    .ok ((), {
      buffer
      now := t
      enqueued := if c.isEnqueue then s.enqueued + 1 else s.enqueued
      slots := s.slotsAfter p t c
      returned := s.waiting c ++ stamp t s.buffer.msgCounter (c.reanalyzed s.buffer)
      stalls := s.stallsAfter c })

/-- An ordered buffer of a given size, without randomization. -/
def smallParams (maxSize : Unsigned) : Params := ⟨maxSize, true, false, false, false, 6⟩

theorem step_eq_ok_iff {p : Params} {asking : Bool} {s s' : Session pq} {t : Nat} {c : Call} {o : Unit} :
    (machine pq p asking).step s (t, c) = .ok (o, s') ↔
      s.now ≤ t ∧ (asking = true → c.isEnqueue = true → 0 < s.slotsAt t) ∧
      ∃ buffer, c.apply p s.buffer s.enqueued t = .ok buffer ∧ s' = {
        buffer
        now := t
        enqueued := if c.isEnqueue then s.enqueued + 1 else s.enqueued
        slots := s.slotsAfter p t c
        returned := s.waiting c ++ stamp t s.buffer.msgCounter (c.reanalyzed s.buffer)
        stalls := s.stallsAfter c } := by
  simp only [machine, bind_eq_ok_iff, require_eq_ok_iff, exists_const, Except.ok.injEq, Prod.mk.injEq,
    true_and, decide_eq_true_eq, Bool.or_eq_true, Bool.not_eq_true']
  refine and_congr_right fun _ => and_congr ?_ (exists_congr fun _ => and_congr_right fun _ => eq_comm)
  cases asking <;> cases c.isEnqueue <;> simp

end Session

end Gem5.Ruby.MessageBuffer
