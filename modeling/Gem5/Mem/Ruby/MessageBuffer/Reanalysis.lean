import Gem5.Mem.Ruby.MessageBuffer.Session

open Lib Result List

namespace Gem5.Ruby

namespace StallMsgMap

variable {M : Type} {map : StallMsgMap M}

/-- A `std::map` keeps its entries in the order of the addresses. -/
def Sorted (map : StallMsgMap M) : Prop := map.Pairwise fun entry entry' => entry.1 < entry'.1

/-- The messages that wait for an address. -/
def on (map : StallMsgMap M) (addr : Addr) : List (Message M) := (map.lookup addr).getD []

theorem on_cons (entry : Addr × List (Message M)) (rest : StallMsgMap M) (addr : Addr) :
    on (entry :: rest) addr = if addr = entry.1 then entry.2 else on rest addr := by
  rw [on, lookup_cons]
  split <;> simp_all [on]

theorem on_eq_nil (h : ∀ entry ∈ map, addr < entry.1) : map.on addr = [] := by
  rw [on, lookup_eq_none_iff.mpr fun entry hmem => by simpa using BitVec.ne_of_lt (h entry hmem)]
  rfl

/-- Every list is found at its address. -/
theorem messages_eq_flatMap_on (h : Sorted map) : map.messages = (map.map Prod.fst).flatMap map.on := by
  induction map with
  | nil => rfl
  | cons first rest ih =>
    obtain ⟨hlt, hrest⟩ := pairwise_cons.mp h
    rw [map_cons, flatMap_cons, on_cons, if_pos rfl, messages, flatMap_cons, ← messages, ih hrest,
      flatMap_map, flatMap_map]
    refine congrArg _ (flatMap_congr fun entry hmem => ?_)
    rw [on_cons, if_neg (BitVec.ne_of_lt (hlt entry hmem)).symm]

theorem lt_pushBack (hlow : low < addr) (h : ∀ entry ∈ map, low < entry.1) :
    ∀ entry ∈ pushBack addr message map, low < entry.1 := by
  induction map with
  | nil => exact forall_mem_singleton.mpr hlow
  | cons first rest ih =>
    obtain ⟨hfirst, hrest⟩ := forall_mem_cons.mp h
    rw [pushBack]
    split
    · exact forall_mem_cons.mpr ⟨hfirst, hrest⟩
    split
    · exact forall_mem_cons.mpr ⟨hlow, h⟩
    · exact forall_mem_cons.mpr ⟨hfirst, ih hrest⟩

/-- A message is put behind those that wait for its address. -/
theorem pushBack_spec (h : Sorted map) (addr : Addr) (message : Message M) : Sorted (pushBack addr message map) ∧
    ∀ a, (pushBack addr message map).on a = map.on a ++ if addr = a then [message] else [] := by
  induction map with
  | nil =>
    refine ⟨pairwise_singleton .., fun a => ?_⟩
    rw [pushBack, on_cons]
    simp [on, eq_comm]
  | cons first rest ih =>
    obtain ⟨hlt, hrest⟩ := pairwise_cons.mp h
    rw [pushBack]
    split
    next heq =>
      refine ⟨pairwise_cons.mpr ⟨hlt, hrest⟩, fun a => ?_⟩
      by_cases ha : a = first.1 <;> simp [on_cons, heq, ha, eq_comm]
    next hne =>
      split
      next hless =>
        have hall : ∀ entry ∈ first :: rest, addr < entry.1 :=
          forall_mem_cons.mpr ⟨hless, fun entry hmem => BitVec.lt_trans hless (hlt entry hmem)⟩
        refine ⟨pairwise_cons.mpr ⟨hall, h⟩, fun a => ?_⟩
        by_cases ha : addr = a
        · subst ha
          rw [on_cons, if_pos rfl, on_eq_nil hall, if_pos rfl, nil_append]
        · rw [on_cons, if_neg (Ne.symm ha), if_neg ha, append_nil]
      next hge =>
        obtain ⟨hsorted, hon⟩ := ih hrest
        refine ⟨pairwise_cons.mpr ⟨lt_pushBack (by bv_omega) hlt, hsorted⟩, fun a => ?_⟩
        rw [on_cons, on_cons, hon]
        by_cases ha : a = first.1 <;> simp [ha, hne]

theorem on_erase (h : Sorted map) (addr a : Addr) : (map.erase addr).on a = if addr = a then [] else map.on a := by
  induction map with
  | nil => simp [on, erase]
  | cons first rest ih =>
    obtain ⟨hlt, hrest⟩ := pairwise_cons.mp h
    by_cases heq : first.1 = addr
    · rw [erase, eraseP_cons_of_pos (by simpa using heq), ← heq]
      split
      next ha => exact on_eq_nil (ha ▸ hlt)
      next ha => rw [on_cons, if_neg (Ne.symm ha)]
    · rw [erase, eraseP_cons_of_neg (by simpa using heq), on_cons, on_cons, ← erase, ih hrest]
      by_cases ha : a = first.1 <;> simp [ha, Ne.symm heq]

end StallMsgMap

namespace MessageBuffer

variable {pq : PriorityQueue (Message Sent) Message.key}

/-- The message `b` was enqueued after `m` and arrives at the given time. -/
def ArrivesBehind (t : Nat) (m b : Message Sent) : Prop :=
  m.payload.number < b.payload.number ∧ b.payload.arrival = t

instance (t : Nat) (m b : Message Sent) : Decidable (ArrivesBehind t m b) := inferInstanceAs (Decidable (_ ∧ _))

/-- The heap at the time `t`, with the messages that were put back there. -/
structure Ordered (t : Nat) (returned : List (Message Sent)) (b : MessageBuffer pq) : Prop where
  arrived : ∀ m ∈ pq.items b.prioHeap, m.payload.arrival ≤ m.lastEnqueueTime
  onHeap : ∀ r ∈ returned, r ∈ pq.items b.prioHeap
  time : ∀ r ∈ returned, r.lastEnqueueTime ≤ t
  counter : ∀ r ∈ returned, r.msgCounter.toNat ≤ b.msgCounter.toNat
  sorted : returned.Pairwise fun r r' => r.key < r'.key
  first : ∀ r ∈ returned, ∀ m ∈ pq.items b.prioHeap, r.payload.number < m.payload.number →
    r.lastEnqueueTime ≤ m.payload.arrival → r.key < m.key

namespace Ordered

variable {t : Nat} {returned : List (Message Sent)} {b b' : MessageBuffer pq} {m : Message Sent}
  (h : Ordered t returned b)
include h

theorem advance (hle : t ≤ later) : Ordered later returned b :=
  ⟨h.arrived, h.onHeap, fun r hr => (h.time r hr).trans hle, h.counter, h.sorted, h.first⟩

/-- No returned message waits behind the head, if the head was enqueued later and arrives
no earlier than the message returned. -/
theorem head (htop : pq.top b.prioHeap = some m) :
    (∀ r ∈ returned, r.payload.number < m.payload.number → m.payload.arrival < r.lastEnqueueTime) ∧
      (m ∈ returned → returned.head? = some m) := by
  have hle : ∀ r ∈ returned, m.key ≤ r.key := fun r hr => pq.top_le _ _ htop r (h.onHeap r hr)
  constructor
  · intro r hr hnumber
    by_contra harrival
    have hlt := h.first r hr m (pq.top_mem _ _ htop) hnumber (Nat.not_lt.mp harrival)
    exact absurd (hle r hr) (Nat.not_le.mpr hlt)
  · intro hm
    cases returned with
    | nil => cases hm
    | cons r rest =>
      rcases mem_cons.mp hm with rfl | hm
      · rfl
      · have hlt := (pairwise_cons.mp h.sorted).1 m hm
        exact absurd (hle r mem_cons_self) (Nat.not_le.mpr hlt)

/-- A message goes on the heap behind the returned ones. -/
theorem push (harrived : m.payload.arrival ≤ m.lastEnqueueTime)
    (hbehind : ∀ r ∈ returned, r.payload.number < m.payload.number → r.lastEnqueueTime ≤ m.payload.arrival →
      r.key < m.key)
    (hheap : b'.prioHeap = pq.push b.prioHeap m) (hcounter : b.msgCounter.toNat ≤ b'.msgCounter.toNat) :
    Ordered t returned b' := by
  refine ⟨?_, ?_, h.time, fun r hr => (h.counter r hr).trans hcounter, h.sorted, ?_⟩
  · intro x hx
    rcases pq.mem_push.mp (hheap ▸ hx) with rfl | hx
    · exact harrived
    · exact h.arrived x hx
  · intro r hr
    rw [hheap]
    exact pq.mem_push.mpr (.inr (h.onHeap r hr))
  · intro r hr x hx
    rcases pq.mem_push.mp (hheap ▸ hx) with rfl | hx
    · exact hbehind r hr
    · exact h.first r hr x hx

theorem pop (htop : pq.top b.prioHeap = some m) (hleft : left.Sublist returned)
    (hm : m ∉ left) (hheap : b'.prioHeap = pq.pop b.prioHeap) (hcounter : b'.msgCounter = b.msgCounter) :
    Ordered t left b' := by
  have hmem : ∀ x ∈ pq.items b'.prioHeap, x ∈ pq.items b.prioHeap :=
    fun x hx => (pq.mem_pop htop).mpr (.inr (hheap ▸ hx))
  refine ⟨fun x hx => h.arrived x (hmem x hx), ?_, fun r hr => h.time r (hleft.subset hr), ?_,
    h.sorted.sublist hleft, ?_⟩
  · intro r hr
    rw [hheap]
    exact ((pq.mem_pop htop).mp (h.onHeap r (hleft.subset hr))).resolve_left fun heq => hm (heq ▸ hr)
  · rw [hcounter]
    exact fun r hr => h.counter r (hleft.subset hr)
  · exact fun r hr x hx => h.first r (hleft.subset hr) x (hmem x hx)

theorem enqueue (hroom : b.msgCounter.toNat + 1 < 2 ^ 64)
    (henqueue : b.enqueue p ⟨⟨number, (b.arrivalTime p t delta random).2⟩, l, d, 0⟩ t delta random = .ok b') :
    Ordered t returned b' := by
  obtain ⟨m, hpayload, htime, hlater, hb'⟩ := enqueue_spec henqueue
  have harrival : m.payload.arrival = m.lastEnqueueTime := by rw [hpayload, htime]
  refine h.push (m := m) (Nat.le_of_eq harrival) ?_ (by rw [hb']) ?_
  · intro r hr _ _
    exact Message.key_lt_iff.mpr (.inl (Nat.lt_of_le_of_lt (h.time r hr) hlater))
  · rw [hb', BitVec.toNat_add]
    exact (Nat.le_succ _).trans (Nat.le_of_eq (Nat.mod_eq_of_lt hroom).symm)

/-- The head is recycled. It was not returned, and it waits for no message that was. -/
theorem recycle (hnot : ∀ r ∈ returned, pq.top b.prioHeap ≠ some r)
    (hrecycle : b.recycle t latency = .ok b') : Ordered t returned b' := by
  obtain ⟨m, htop, hready, rfl⟩ := recycle_spec hrecycle
  have hm : m ∉ returned := fun hm => hnot m hm htop
  have hpop : Ordered t returned { b with prioHeap := pq.pop b.prioHeap } := h.pop htop (List.Sublist.refl _) hm rfl rfl
  refine hpop.push ?_ ?_ rfl (Nat.le_refl _)
  · exact (h.arrived m (pq.top_mem _ _ htop)).trans (hready.trans (Nat.le_add_right t latency))
  · intro r hr hnumber harrival
    exact absurd harrival (Nat.not_le.mpr ((h.head htop).1 r hr hnumber))

/-- One message is put back, while no message on the heap was enqueued after it and
arrives now. -/
theorem putBackOne (hroom : b.msgCounter.toNat + 1 < 2 ^ 64) (harrived : m.payload.arrival ≤ t)
    (hheap : ∀ x ∈ pq.items b.prioHeap, ¬ ArrivesBehind t m x) :
    Ordered t (returned ++ stamp t b.msgCounter [m]) (b.putBack t [m]) := by
  have hnext : (b.msgCounter + 1).toNat = b.msgCounter.toNat + 1 :=
    (BitVec.toNat_add _ _).trans (Nat.mod_eq_of_lt hroom)
  have hlast : ∀ r ∈ returned, ∀ new ∈ stamp t b.msgCounter [m], r.key < new.key := by
    intro r hr new hnew
    obtain rfl := mem_singleton.mp hnew
    have hcounter := h.counter r hr
    have htime := h.time r hr
    exact Message.key_lt_iff.mpr (by simp only [hnext]; omega)
  have hpush : Ordered t returned (b.putBack t [m]) := h.push harrived
    (fun r hr _ _ => hlast r hr _ (mem_singleton.mpr rfl)) rfl ((Nat.le_succ _).trans (Nat.le_of_eq hnext.symm))
  refine ⟨hpush.arrived, ?_, ?_, ?_, ?_, ?_⟩
  · refine forall_mem_append.mpr ⟨hpush.onHeap, forall_mem_singleton.mpr ?_⟩
    exact pq.mem_push.mpr (.inl rfl)
  · exact forall_mem_append.mpr ⟨hpush.time, forall_mem_singleton.mpr (Nat.le_refl t)⟩
  · exact forall_mem_append.mpr ⟨hpush.counter, forall_mem_singleton.mpr (Nat.le_refl _)⟩
  · exact pairwise_append.mpr ⟨hpush.sorted, pairwise_singleton _ _, hlast⟩
  · refine forall_mem_append.mpr ⟨hpush.first, forall_mem_singleton.mpr ?_⟩
    intro x hx hnumber harrival
    rcases pq.mem_push.mp hx with rfl | hx
    · exact absurd hnumber (Nat.lt_irrefl _)
    · -- The message arrives after `t`, so its time is later.
      have hlt : t < x.payload.arrival := Nat.lt_of_le_of_ne harrival fun heq => hheap x hx ⟨hnumber, heq.symm⟩
      exact Message.key_lt_iff.mpr (.inl (hlt.trans_le (h.arrived x hx)))

/-- Messages are put back. None of them finds a message on the heap that was enqueued
after it and arrives now, and none is put back after such a message. -/
theorem putBack (hroom : b.msgCounter.toNat + lt.length < 2 ^ 64)
    (harrived : ∀ m ∈ lt, m.payload.arrival ≤ t) (hheap : ∀ m ∈ lt, ∀ x ∈ pq.items b.prioHeap, ¬ ArrivesBehind t m x)
    (hlist : lt.Pairwise fun x m => ¬ ArrivesBehind t m x) :
    Ordered t (returned ++ stamp t b.msgCounter lt) (b.putBack t lt) := by
  induction lt generalizing b returned with
  | nil => simpa [stamp, MessageBuffer.putBack] using h
  | cons m lt ih =>
    obtain ⟨hm, hlist⟩ := pairwise_cons.mp hlist
    rw [length_cons] at hroom
    have hone := h.putBackOne (by omega) (harrived m mem_cons_self) (hheap m mem_cons_self)
    have hnext : (b.putBack t [m]).msgCounter.toNat = b.msgCounter.toNat + 1 :=
      (BitVec.toNat_add _ _).trans (Nat.mod_eq_of_lt (show b.msgCounter.toNat + 1 < 2 ^ 64 by omega))
    have hrest := ih hone (by omega) (fun x hx => harrived x (mem_cons_of_mem m hx)) (fun y hy x hx => ?_) hlist
    · rw [MessageBuffer.putBack_append, append_assoc] at hrest
      exact hrest
    · rcases pq.mem_push.mp hx with rfl | hx
      · exact hm y hy
      · exact hheap y (mem_cons_of_mem m hy) x hx

end Ordered

/-- The lists of the stall map are in the order of the stalls. -/
structure Grouped (map : StallMsgMap Sent) (stalls : List (Addr × Sent)) : Prop where
  sorted : map.Sorted
  lists : ∀ addr, (map.on addr).map Message.payload = stalledOn stalls addr

namespace Grouped

theorem nil : Grouped [] [] := ⟨.nil, fun _ => rfl⟩

variable {map : StallMsgMap Sent} (h : Grouped map stalls)
include h

theorem pushBack (addr : Addr) (message : Message Sent) :
    Grouped (map.pushBack addr message) (stalls ++ [(addr, message.payload)]) := by
  obtain ⟨hsorted, hon⟩ := StallMsgMap.pushBack_spec h.sorted addr message
  refine ⟨hsorted, fun a => ?_⟩
  rw [hon, map_append, h.lists, stalledOn, stalledOn, filter_append, map_append]
  by_cases ha : addr = a <;> simp [ha]

theorem erase (addr : Addr) : Grouped (map.erase addr) (stalls.filter fun stall => stall.1 ≠ addr) := by
  refine ⟨h.sorted.sublist eraseP_sublist, fun a => ?_⟩
  rw [StallMsgMap.on_erase h.sorted, stalledOn, filter_filter]
  split
  next ha => simp [← ha]
  next ha =>
    rw [h.lists, stalledOn]
    refine congrArg _ (filter_congr fun stall _ => ?_)
    by_cases hstall : stall.1 = a <;> simp [hstall, Ne.symm ha]

omit h in
/-- The messages are put back address by address, in the order of the stalls. -/
theorem reanalyzed {b : MessageBuffer pq} (h : Grouped b.stallMsgMap stalls) (c : Call) : ∃ addrs : List Addr,
    addrs.Nodup ∧ (c.reanalyzed b).map Message.payload = addrs.flatMap (stalledOn stalls) := by
  cases c with
  | reanalyzeMessages addr =>
    exact ⟨[addr], nodup_singleton addr, (h.lists addr).trans (flatMap_singleton ..).symm⟩
  | reanalyzeAllMessages =>
    refine ⟨b.stallMsgMap.map Prod.fst, (pairwise_map.mpr h.sorted).imp BitVec.ne_of_lt, ?_⟩
    change b.stallMsgMap.messages.map Message.payload = _
    rw [StallMsgMap.messages_eq_flatMap_on h.sorted, map_flatMap]
    exact flatMap_congr fun addr _ => h.lists addr
  | _ => exact ⟨[], nodup_nil, rfl⟩

end Grouped

namespace Session

/-- The messages that wait in the stall map have arrived. -/
structure InOrderSoFar (s : Session pq) : Prop where
  ordered : Ordered s.now s.returned s.buffer
  arrived : ∀ m ∈ s.buffer.stallMsgMap.messages, m.payload.arrival ≤ s.now

/-- No message is put back at a time at which a message that was enqueued after it
arrives and is on the heap or put back before it. No returned message is recycled, and
the counter does not wrap. -/
def Clear (s : Session pq) : Nat × Call → Prop
  | (_, .enqueue ..) => s.buffer.msgCounter.toNat + 1 < 2 ^ 64
  | (_, .recycle _) => ∀ r ∈ s.returned, pq.top s.buffer.prioHeap ≠ some r
  | (t, c) => s.buffer.msgCounter.toNat + (c.reanalyzed s.buffer).length < 2 ^ 64 ∧
      (∀ m ∈ c.reanalyzed s.buffer, ∀ x ∈ pq.items s.buffer.prioHeap, ¬ ArrivesBehind t m x) ∧
      (c.reanalyzed s.buffer).Pairwise fun x m => ¬ ArrivesBehind t m x

instance (s : Session pq) : ∀ call, Decidable (s.Clear call)
  | (_, .enqueue ..) => inferInstanceAs (Decidable (_ < _))
  | (_, .recycle _) => inferInstanceAs (Decidable (∀ r ∈ s.returned, _ ≠ _))
  | (_, .areNSlotsAvailable _) | (_, .dequeue) | (_, .stallMessage _) | (_, .reanalyzeMessages _) |
    (_, .reanalyzeAllMessages) => inferInstanceAs (Decidable (_ ∧ (∀ m ∈ _, ∀ x ∈ _, ¬ _) ∧ Pairwise _ _))

/-- A message that is dequeued or stalled leaves no message behind that was enqueued
before it and put back no later than it arrived, and a message that was put back
leaves none behind that was put back before it. Messages are put back address by
address, those of one address in the order in which they were stalled. -/
def InOrder (s : Session pq) : Nat × Call → Prop
  | (_, c) => (c.takes = true → ∀ m, pq.top s.buffer.prioHeap = some m →
        (∀ r ∈ s.returned, r.payload.number < m.payload.number → m.payload.arrival < r.lastEnqueueTime) ∧
          (m ∈ s.returned → s.returned.head? = some m)) ∧
      ∃ addrs : List Addr, addrs.Nodup ∧
        (c.reanalyzed s.buffer).map Message.payload = addrs.flatMap (stalledOn s.stalls)

section

variable {p : Params} {asking : Bool} {s s' : Session pq} {t : Nat} {c : Call}

theorem grouped_step (h : Grouped s.buffer.stallMsgMap s.stalls)
    (hstep : (machine pq p asking).step s (t, c) = .ok (o, s')) : Grouped s'.buffer.stallMsgMap s'.stalls := by
  obtain ⟨-, -, b, happly, rfl⟩ := step_eq_ok_iff.mp hstep
  cases c with
  | areNSlotsAvailable n =>
    cases happly
    exact h
  | enqueue l d delta random =>
    obtain ⟨m, -, -, -, hb⟩ := enqueue_spec happly
    rw [hb]
    exact h
  | dequeue =>
    obtain ⟨⟨message, after⟩, hpop, rfl⟩ := map_ok happly
    obtain ⟨m, -, -, rfl, -⟩ := dequeue_spec hpop
    exact h
  | recycle latency =>
    obtain ⟨m, -, -, rfl⟩ := recycle_spec happly
    exact h
  | stallMessage addr =>
    obtain ⟨⟨message, after⟩, hstall, rfl⟩ := map_ok happly
    obtain ⟨hpop, rfl⟩ := stallMessage_spec hstall
    obtain ⟨m, htop, -, -, hpayload, -⟩ := dequeue_spec hpop
    have hstalls : s.stallsAfter (.stallMessage addr) = s.stalls ++ [(addr, message.payload)] := by
      change s.stalls ++ ((pq.top s.buffer.prioHeap).map fun m => (addr, m.payload)).toList = _
      rw [htop, hpayload]
      rfl
    exact hstalls ▸ h.pushBack addr message
  | reanalyzeMessages addr =>
    obtain ⟨-, rfl⟩ := Call.apply_reanalyze (.inl ⟨addr, rfl⟩) happly
    exact h.erase addr
  | reanalyzeAllMessages =>
    obtain ⟨-, rfl⟩ := Call.apply_reanalyze (.inr rfl) happly
    exact .nil

variable (h : s.InOrderSoFar)
include h

theorem InOrderSoFar.take (htime : s.now ≤ t) (hc : c.takes = true) (hpop : s.buffer.dequeue t = .ok (message, b)) :
    Ordered t (s.waiting c ++ []) b ∧ b.stallMsgMap = s.buffer.stallMsgMap ∧ message.payload.arrival ≤ t := by
  obtain ⟨m, htop, hready, rfl, hpayload, -⟩ := dequeue_spec hpop
  have hb := h.ordered.advance htime
  rw [append_nil, waiting, if_pos hc, hpayload]
  refine ⟨hb.pop htop filter_sublist ?_ rfl rfl, rfl, (hb.arrived m (pq.top_mem _ _ htop)).trans hready⟩
  simp [htop]

theorem InOrderSoFar.reanalyze (htime : s.now ≤ t)
    (hc : (∃ addr, c = .reanalyzeMessages addr) ∨ c = .reanalyzeAllMessages)
    (hroom : s.buffer.msgCounter.toNat + (c.reanalyzed s.buffer).length < 2 ^ 64)
    (hheap : ∀ m ∈ c.reanalyzed s.buffer, ∀ x ∈ pq.items s.buffer.prioHeap, ¬ ArrivesBehind t m x)
    (hlist : (c.reanalyzed s.buffer).Pairwise fun x m => ¬ ArrivesBehind t m x)
    (happly : c.apply p s.buffer number t = .ok b) :
    Ordered t (s.returned ++ stamp t s.buffer.msgCounter (c.reanalyzed s.buffer)) b ∧
      ∀ m ∈ b.stallMsgMap.messages, m.payload.arrival ≤ t := by
  obtain ⟨hmap, rfl⟩ := Call.apply_reanalyze hc happly
  obtain ⟨hlt, hleft⟩ := forall_mem_append.mp fun m hm => (h.arrived m (hmap.mem_iff.mpr hm)).trans htime
  obtain ⟨h₁, h₂, h₃, h₄, h₅, h₆⟩ := (h.ordered.advance htime).putBack hroom hlt hheap hlist
  exact ⟨⟨h₁, h₂, h₃, h₄, h₅, h₆⟩, hleft⟩

theorem InOrderSoFar.step (hclear : s.Clear (t, c))
    (hstep : (machine pq p asking).step s (t, c) = .ok (o, s')) : s'.InOrderSoFar := by
  obtain ⟨htime, -, b, happly, rfl⟩ := step_eq_ok_iff.mp hstep
  have hb : Ordered t (s.returned ++ []) s.buffer := (append_nil s.returned).symm ▸ h.ordered.advance htime
  have harrived : ∀ m ∈ s.buffer.stallMsgMap.messages, m.payload.arrival ≤ t := fun m hm => (h.arrived m hm).trans htime
  cases c with
  | areNSlotsAvailable n =>
    cases happly
    exact ⟨hb, harrived⟩
  | enqueue l d delta random =>
    refine ⟨hb.enqueue hclear happly, ?_⟩
    obtain ⟨m, -, -, -, hbuffer⟩ := enqueue_spec happly
    rw [hbuffer]
    exact harrived
  | dequeue =>
    obtain ⟨⟨message, after⟩, hpop, rfl⟩ := map_ok happly
    obtain ⟨hordered, hmap, -⟩ := h.take (c := .dequeue) htime rfl hpop
    exact ⟨hordered, hmap ▸ harrived⟩
  | recycle latency =>
    refine ⟨hb.recycle (by rw [append_nil]; exact hclear) happly, ?_⟩
    obtain ⟨m, -, -, rfl⟩ := recycle_spec happly
    exact harrived
  | stallMessage addr =>
    obtain ⟨⟨message, after⟩, hstall, rfl⟩ := map_ok happly
    obtain ⟨hpop, rfl⟩ := stallMessage_spec hstall
    obtain ⟨⟨h₁, h₂, h₃, h₄, h₅, h₆⟩, -, hmessage⟩ := h.take (c := .stallMessage addr) htime rfl hpop
    refine ⟨⟨h₁, h₂, h₃, h₄, h₅, h₆⟩, fun m hm => ?_⟩
    rcases mem_cons.mp ((StallMsgMap.messages_pushBack addr message _).mem_iff.mp hm) with rfl | hm
    · exact hmessage
    · exact harrived m hm
  | reanalyzeMessages addr =>
    obtain ⟨hordered, hleft⟩ := h.reanalyze htime (.inl ⟨addr, rfl⟩) hclear.1 hclear.2.1 hclear.2.2 happly
    exact ⟨hordered, hleft⟩
  | reanalyzeAllMessages =>
    obtain ⟨hordered, hleft⟩ := h.reanalyze htime (.inr rfl) hclear.1 hclear.2.1 hclear.2.2 happly
    exact ⟨hordered, hleft⟩

end

/-- In every run in which no message is put back at the time at which a younger message
arrives, the messages that are put back leave the heap first, and those of one address
in the order in which they were stalled. -/
theorem reanalyzed_leave_first (p : Params) (asking : Bool) (calls : List (Nat × Call)) (answers : List Unit)
    (s : Session pq) (hrun : (machine pq p asking).run (start pq) calls = .ok (answers, s))
    (hclear : (machine pq p asking).StepsAll Clear (start pq) calls) :
    (machine pq p asking).StepsAll InOrder (start pq) calls := by
  have hstart : (start pq).InOrderSoFar := by
    refine ⟨⟨?_, ?_, ?_, ?_, .nil, ?_⟩, ?_⟩ <;>
      simp [start, MessageBuffer.construct, pq.items_empty, StallMsgMap.messages]
  refine (Machine.stepsAll_congr_of_guard (Q := fun _ _ => True) (I := fun s => s.InOrderSoFar ∧
    Grouped s.buffer.stallMsgMap s.stalls)
    ?_ ⟨hstart, .nil⟩ hclear hrun).mpr ((machine pq p asking).stepsAll_of_forall (fun _ _ => trivial) _ _)
  rintro s ⟨t, c⟩ o s' ⟨hs, hgrouped⟩ hG hstep
  exact ⟨⟨fun _ => trivial, fun _ => ⟨fun _ m htop => hs.ordered.head htop, hgrouped.reanalyzed c⟩⟩, hs.step hG hstep,
    grouped_step hgrouped hstep⟩

/-- Two of three messages are stalled and put back before the third arrives. -/
def twoStalled : List (Nat × Call) :=
  [(0, .enqueue 0 0 1 0), (0, .enqueue 0 0 2 0), (0, .enqueue 0 0 5 0), (1, .stallMessage 0), (2, .stallMessage 0),
    (3, .reanalyzeMessages 0), (3, .dequeue), (3, .dequeue), (5, .dequeue)]

theorem reanalyzed_leave_first_two_stalled : ∃ answers s answers' s',
      (machine (.sorted (Message Sent) Message.key) (smallParams 0) false).run (start _) (twoStalled.take 6) =
        .ok (answers, s) ∧ s.returned.map (·.payload.number) = [0, 1] ∧
      (machine (.sorted (Message Sent) Message.key) (smallParams 0) false).run (start _) twoStalled =
      .ok (answers', s') ∧
      (machine (.sorted (Message Sent) Message.key) (smallParams 0) false).StepsAll InOrder (start _) twoStalled := by
  refine ⟨?answers, ?s, ?answers', ?s', ?stalled, ?order, ?run, reanalyzed_leave_first _ _ _ ?answers' ?s' ?run ?clear⟩
  case stalled | order | run => rfl
  decide +kernel

/-- The first message is stalled and put back at the time at which the second arrives,
which is dequeued before it. -/
theorem younger_message_overtakes_reanalyzed :
    (do
      let (_, s) ← (machine (.sorted (Message Sent) Message.key) (smallParams 0) false).run (start _)
        [(0, .enqueue 0 0 1 0), (0, .enqueue 0 0 5 0), (1, .stallMessage 0), (5, .reanalyzeMessages 0)]
      let (message, _) ← s.buffer.dequeue 5
      .ok (message.payload, s.returned.map fun r => (r.payload, r.lastEnqueueTime))) =
    (.ok (⟨1, 5⟩, [(⟨0, 1⟩, 5)]) : Result (Sent × List (Sent × Nat))) := by
  decide +kernel

end Session

end MessageBuffer

end Gem5.Ruby
