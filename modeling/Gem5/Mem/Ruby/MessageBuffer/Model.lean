import Gem5.Base.IntMath
import Gem5.Lib.PriorityQueue
import Gem5.Lib.Run

open Lib Result List

namespace Gem5.Ruby

/-- A message, with what a buffer keeps in it. Times are in ticks. -/
structure Message (M : Type) where
  payload : M
  lastEnqueueTime : Nat
  delayedTicks : Nat
  msgCounter : BitVec 64
  deriving DecidableEq, Repr

namespace Message

variable {M : Type}

/-- What `operator>` compares, in one number: the time, and the counter where the
times are equal. -/
def key (m : Message M) : Nat := m.lastEnqueueTime * 2 ^ 64 + m.msgCounter.toNat

theorem key_lt_iff {l r : Message M} : l.key < r.key ↔ l.lastEnqueueTime < r.lastEnqueueTime ∨
      l.lastEnqueueTime = r.lastEnqueueTime ∧ l.msgCounter.toNat < r.msgCounter.toNat := by
  have hl := l.msgCounter.isLt
  have hr := r.msgCounter.isLt
  unfold key
  omega

/-- Update the delay this message has experienced so far. -/
def updateDelayedTicks (m : Message M) (curTime : Nat) : Result (Message M) := do
  require (m.lastEnqueueTime ≤ curTime)
  .ok { m with delayedTicks := m.delayedTicks + (curTime - m.lastEnqueueTime) }

end Message

/-- The parameters of a buffer, and what it asks of the `RubySystem`. -/
structure Params where
  maxSize : Unsigned
  strictFifo : Bool
  randomization : Bool
  getRandomization : Bool
  getWarmupEnabled : Bool
  getBlockSizeBits : Unsigned

/-- `bitSelect(addr, 0, getBlockSizeBits() - 1)`. -/
def Params.getOffset (p : Params) (addr : Addr) : Addr :=
  if 63 ≤ (p.getBlockSizeBits - 1).toNat then addr
  else addr &&& ~~~(BitVec.allOnes 64 <<< ((p.getBlockSizeBits - 1).toNat + 1))

/-- The stalled messages, by the address they wait for. -/
abbrev StallMsgMap (M : Type) : Type := List (Addr × List (Message M))

namespace StallMsgMap

variable {M : Type}

/-- `m_stall_msg_map[addr].push_back(message)`. -/
def pushBack (addr : Addr) (message : Message M) : StallMsgMap M → StallMsgMap M
  | [] => [(addr, [message])]
  | (a, lt) :: rest =>
    if addr = a then (a, lt ++ [message]) :: rest
    else if addr < a then (addr, [message]) :: (a, lt) :: rest
    else (a, lt) :: pushBack addr message rest

def erase (addr : Addr) (map : StallMsgMap M) : StallMsgMap M := map.eraseP fun entry => entry.1 == addr

/-- All stalled messages. -/
def messages (map : StallMsgMap M) : List (Message M) := map.flatMap Prod.snd

theorem messages_pushBack (addr : Addr) (message : Message M) (map : StallMsgMap M) :
    (pushBack addr message map).messages.Perm (message :: map.messages) := by
  induction map with
  | nil => exact .refl _
  | cons entry rest ih =>
    obtain ⟨a, lt⟩ := entry
    unfold pushBack
    split
    next => simp [messages]
    next =>
      split
      next => exact .refl _
      next => exact (ih.append_left lt).trans perm_middle

theorem messages_erase {map : StallMsgMap M} (h : map.lookup addr = some lt) :
    map.messages.Perm (lt ++ (map.erase addr).messages) := by
  induction map with
  | nil => cases h
  | cons entry rest ih =>
    obtain ⟨a, first⟩ := entry
    rw [lookup_cons] at h
    by_cases heq : addr = a
    · simp only [heq, beq_self_eq_true, Option.some.injEq] at h
      simp [erase, messages, heq, h]
    simp only [beq_eq_false_iff_ne.mpr heq] at h
    have hrest : StallMsgMap.erase addr ((a, first) :: rest) = (a, first) :: erase addr rest :=
      eraseP_cons_of_neg (by simpa using Ne.symm heq)
    rw [hrest]
    exact ((ih h).append_left first).trans (perm_append_comm_assoc ..)

end StallMsgMap

structure MessageBuffer {M : Type} (pq : PriorityQueue (Message M) Message.key) where
  prioHeap : pq.Queue
  stallMsgMap : StallMsgMap M
  stallMapSize : BitVec 32
  timeLastTimeEnqueue : Nat
  timeLastTimePop : Nat
  lastArrivalTime : Nat
  sizeAtCycleStart : Unsigned
  msgsThisCycle : Unsigned
  msgCounter : BitVec 64

namespace MessageBuffer

variable {M : Type} {pq : PriorityQueue (Message M) Message.key}

def construct (pq : PriorityQueue (Message M) Message.key) : MessageBuffer pq where
  prioHeap := pq.empty
  stallMsgMap := []
  stallMapSize := 0
  timeLastTimeEnqueue := 0
  timeLastTimePop := 0
  lastArrivalTime := 0
  sizeAtCycleStart := 0
  msgsThisCycle := 0
  msgCounter := 0

variable (s : MessageBuffer pq)

/-- The size for the current cycle: pops do not count before the next cycle, and
enqueues count at once. -/
def currentSize (current_time : Nat) : Unsigned :=
  if s.timeLastTimePop < current_time then .ofNat 32 (pq.size s.prioHeap)
  else if s.timeLastTimeEnqueue < current_time then s.sizeAtCycleStart
  else s.sizeAtCycleStart + s.msgsThisCycle

def areNSlotsAvailable (p : Params) (s : MessageBuffer pq) (n : Unsigned) (current_time : Nat) : Bool :=
  p.maxSize == 0 || s.currentSize current_time + s.stallMapSize + n ≤ p.maxSize

def isReady (current_time : Nat) : Bool :=
  (pq.top s.prioHeap).any fun m => m.lastEnqueueTime ≤ current_time

/-- The last arrival time, and the arrival time of a message that is enqueued. `random`
is what `random_time` draws. -/
def arrivalTime (p : Params) (s : MessageBuffer pq) (current_time delta random : Nat) : Nat × Nat :=
  if !p.getRandomization || !p.randomization then (s.lastArrivalTime, current_time + delta)
  else if p.strictFifo then (max s.lastArrivalTime current_time, max s.lastArrivalTime current_time + random)
  else (s.lastArrivalTime, current_time + random)

def enqueue (p : Params) (s : MessageBuffer pq) (message : Message M) (current_time delta random : Nat) :
    Result (MessageBuffer pq) := do
  require (0 < delta)
  let (last_arrival_time, arrival_time) := s.arrivalTime p current_time delta random
  require (current_time < arrival_time)
  require (!p.strictFifo || last_arrival_time ≤ arrival_time)
  let message ← message.updateDelayedTicks current_time
  .ok { s with
    prioHeap := pq.push s.prioHeap { message with lastEnqueueTime := arrival_time, msgCounter := s.msgCounter + 1 }
    timeLastTimeEnqueue := max s.timeLastTimeEnqueue current_time
    msgsThisCycle := (if s.timeLastTimeEnqueue < current_time then 0 else s.msgsThisCycle) + 1
    lastArrivalTime := if p.getWarmupEnabled then last_arrival_time else arrival_time
    msgCounter := s.msgCounter + 1 }

/-- The head, which must be ready. -/
def front (current_time : Nat) : Result (Message M) := do
  require (s.isReady current_time)
  match pq.top s.prioHeap with
  | some m => .ok m
  | none => .error .dangling

/-- Removes the head. The size before the first pop of a cycle is kept. -/
def pop (s : MessageBuffer pq) (current_time : Nat) : MessageBuffer pq :=
  { s with
    prioHeap := pq.pop s.prioHeap
    sizeAtCycleStart :=
      if s.timeLastTimePop < current_time then .ofNat 32 (pq.size s.prioHeap) else s.sizeAtCycleStart
    timeLastTimePop := max s.timeLastTimePop current_time }

/-- Returns the message with its delay. -/
def dequeue (current_time : Nat) : Result (Message M × MessageBuffer pq) := do
  let message ← (← s.front current_time).updateDelayedTicks current_time
  .ok (message, s.pop current_time)

def recycle (current_time recycle_latency : Nat) : Result (MessageBuffer pq) := do
  let node ← s.front current_time
  .ok { s with
    prioHeap := pq.push (pq.pop s.prioHeap) { node with lastEnqueueTime := current_time + recycle_latency } }

def reanalyzeList (schdTick : Nat) (s : MessageBuffer pq) (lt : List (Message M)) : MessageBuffer pq :=
  lt.foldl (fun s m => { s with
    prioHeap := pq.push s.prioHeap { m with lastEnqueueTime := schdTick, msgCounter := s.msgCounter + 1 }
    msgCounter := s.msgCounter + 1 }) s

/-- Puts the messages that wait for one address back on the heap. -/
def reanalyzeStalled (current_time : Nat) (s : MessageBuffer pq) (lt : List (Message M)) :
    Result (MessageBuffer pq) := do
  let stallMapSize := s.stallMapSize - .ofNat 32 lt.length
  require (0 ≤ stallMapSize.toInt)
  .ok (reanalyzeList current_time { s with stallMapSize } lt)

def reanalyzeMessages (addr : Addr) (current_time : Nat) : Result (MessageBuffer pq) :=
  match s.stallMsgMap.lookup addr with
  | none => .error .assertion
  | some lt => do
    let s' ← reanalyzeStalled current_time s lt
    .ok { s' with stallMsgMap := s.stallMsgMap.erase addr }

def reanalyzeAllMessages (current_time : Nat) : Result (MessageBuffer pq) := do
  let s' ← (s.stallMsgMap.map Prod.snd).foldlM (reanalyzeStalled current_time) s
  .ok { s' with stallMsgMap := [] }

def stallMessage (p : Params) (s : MessageBuffer pq) (addr : Addr) (current_time : Nat) :
    Result (Message M × MessageBuffer pq) := do
  require (s.isReady current_time)
  require (p.getOffset addr == 0)
  let (message, s) ← s.dequeue current_time
  .ok (message, { s with
    stallMsgMap := s.stallMsgMap.pushBack addr message
    stallMapSize := s.stallMapSize + 1 })

section

variable {s s' : MessageBuffer pq} {message : Message M} {current_time : Nat}

theorem front_eq_ok_iff :
    s.front current_time = .ok message ↔ pq.top s.prioHeap = some message ∧ message.lastEnqueueTime ≤ current_time := by
  cases htop : pq.top s.prioHeap <;> simp [front, isReady, bind_eq_ok_iff, require_eq_ok_iff, htop]
  exact and_comm.trans (and_congr_right fun h => h ▸ Iff.rfl)

theorem enqueue_spec (h : s.enqueue p message current_time delta random = .ok s') :
    ∃ m, m.payload = message.payload ∧ m.lastEnqueueTime = (s.arrivalTime p current_time delta random).2 ∧
      current_time < m.lastEnqueueTime ∧ s' = { s with
        prioHeap := pq.push s.prioHeap m
        timeLastTimeEnqueue := max s.timeLastTimeEnqueue current_time
        msgsThisCycle := (if s.timeLastTimeEnqueue < current_time then 0 else s.msgsThisCycle) + 1
        lastArrivalTime := s'.lastArrivalTime
        msgCounter := s.msgCounter + 1 } := by
  simp only [enqueue, Message.updateDelayedTicks, bind_eq_ok_iff, require_eq_ok_iff, decide_eq_true_eq] at h
  obtain ⟨-, -, -, harrival, -, -, m, ⟨-, -, hm⟩, hdone⟩ := h
  cases hm
  cases hdone
  refine ⟨_, ?_, ?_, ?_, rfl⟩
  · rfl
  · rfl
  · exact harrival

theorem dequeue_spec (h : s.dequeue current_time = .ok (message, s')) :
    ∃ m, pq.top s.prioHeap = some m ∧ m.lastEnqueueTime ≤ current_time ∧ s' = s.pop current_time ∧
      message.payload = m.payload ∧ message.lastEnqueueTime = m.lastEnqueueTime := by
  simp only [dequeue, Message.updateDelayedTicks, bind_eq_ok_iff] at h
  obtain ⟨m, hfront, _, ⟨-, -, hm⟩, hdone⟩ := h
  obtain ⟨htop, hready⟩ := front_eq_ok_iff.mp hfront
  cases hm
  cases hdone
  exact ⟨m, htop, hready, rfl, rfl, rfl⟩

theorem recycle_spec (h : s.recycle current_time latency = .ok s') :
    ∃ m, pq.top s.prioHeap = some m ∧ m.lastEnqueueTime ≤ current_time ∧
      s' = { s with prioHeap := pq.push (pq.pop s.prioHeap) { m with lastEnqueueTime := current_time + latency } } := by
  obtain ⟨m, hfront, hdone⟩ := bind_ok h
  obtain ⟨htop, hready⟩ := front_eq_ok_iff.mp hfront
  cases hdone
  exact ⟨m, htop, hready, rfl⟩

theorem stallMessage_spec (h : s.stallMessage p addr current_time = .ok (message, s')) :
    s.dequeue current_time = .ok (message, s.pop current_time) ∧ s' = { s.pop current_time with
      stallMsgMap := s.stallMsgMap.pushBack addr message
      stallMapSize := s.stallMapSize + 1 } := by
  simp only [stallMessage, bind_eq_ok_iff] at h
  obtain ⟨-, -, -, -, ⟨m, after⟩, hpop, hdone⟩ := h
  obtain ⟨-, -, -, rfl, -⟩ := dequeue_spec hpop
  cases hdone
  exact ⟨hpop, rfl⟩

/-- The messages as `reanalyzeList` puts them back. -/
def stamp (schdTick : Nat) : BitVec 64 → List (Message M) → List (Message M)
  | _, [] => []
  | counter, m :: lt =>
    { m with lastEnqueueTime := schdTick, msgCounter := counter + 1 } :: stamp schdTick (counter + 1) lt

/-- The buffer with messages put back on the heap. -/
def putBack (s : MessageBuffer pq) (schdTick : Nat) (lt : List (Message M)) : MessageBuffer pq :=
  { s with
    prioHeap := (stamp schdTick s.msgCounter lt).foldl pq.push s.prioHeap
    stallMapSize := s.stallMapSize - .ofNat 32 lt.length
    msgCounter := s.msgCounter + .ofNat 64 lt.length }

theorem stamp_append (schdTick : Nat) (counter : BitVec 64) (first second : List (Message M)) :
    stamp schdTick counter (first ++ second) =
      stamp schdTick counter first ++ stamp schdTick (counter + .ofNat 64 first.length) second := by
  induction first generalizing counter with
  | nil => simp [stamp]
  | cons m first ih =>
    rw [cons_append, stamp, stamp, ih, length_cons, Nat.add_comm first.length, BitVec.ofNat_add, ← BitVec.add_assoc]
    rfl

theorem putBack_append (s : MessageBuffer pq) (schdTick : Nat) (first second : List (Message M)) :
    (s.putBack schdTick first).putBack schdTick second = s.putBack schdTick (first ++ second) := by
  have hsize : s.stallMapSize - .ofNat 32 first.length - .ofNat 32 second.length =
      s.stallMapSize - .ofNat 32 (first.length + second.length) := by
    rw [BitVec.ofNat_add]
    grind
  simp only [putBack, stamp_append, foldl_append, length_append, hsize, BitVec.ofNat_add, BitVec.add_assoc]

theorem reanalyzeList_eq (schdTick : Nat) (s : MessageBuffer pq) (lt : List (Message M)) :
    reanalyzeList schdTick s lt = { s with
      prioHeap := (stamp schdTick s.msgCounter lt).foldl pq.push s.prioHeap
      msgCounter := s.msgCounter + .ofNat 64 lt.length } := by
  induction lt generalizing s with
  | nil => simp [reanalyzeList, stamp]
  | cons m lt ih =>
    rw [reanalyzeList, foldl_cons, ← reanalyzeList, ih]
    simp only [stamp, foldl_cons, length_cons, Nat.add_comm lt.length, BitVec.ofNat_add, BitVec.add_assoc]
    rfl

/-- What is put back, list by list. -/
theorem reanalyzeStalled_spec {lists : List (List (Message M))}
    (h : lists.foldlM (reanalyzeStalled current_time) s = .ok s') : s' = s.putBack current_time lists.flatten := by
  induction lists generalizing s with
  | nil =>
    cases h
    simp [putBack, stamp]
  | cons lt lists ih =>
    rw [foldlM_cons] at h
    obtain ⟨next, hfirst, hrest⟩ := bind_ok h
    obtain ⟨-, -, hnext⟩ := bind_ok hfirst
    cases hnext
    rw [ih hrest, reanalyzeList_eq]
    exact s.putBack_append current_time lt lists.flatten

end

end MessageBuffer

end Gem5.Ruby
