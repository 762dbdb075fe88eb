import Gem5.Base.IntMath
import Gem5.Lib.Run

open Lib Result List

namespace Gem5

/-- The part of an `EthPacketData` that the fifo reads. -/
structure EthPacket where
  length : Unsigned

structure PacketFifoEntry where
  packet : EthPacket
  number : BitVec 64
  slack : Unsigned

/-- `PacketFifo`. An iterator is the index of its entry, and `end()` is the
number of entries. -/
structure PacketFifo where
  fifo : List PacketFifoEntry
  counter : BitVec 64
  maxsize : Unsigned
  size : Unsigned
  reserved : Unsigned

namespace PacketFifo

def construct (max : BitVec 32) : PacketFifo := ⟨[], 0, max, 0, 0⟩

variable (q : PacketFifo)

def avail : Unsigned := q.maxsize - q.size - q.reserved

def reserve (len : Unsigned) : Result PacketFifo := do
  require (q.avail ≥ len)
  .ok { q with reserved := q.reserved + len }

def push (ptr : EthPacket) : Result (Bool × PacketFifo) := do
  require (ptr.length ≠ 0)
  require (q.reserved ≤ ptr.length)
  if q.avail < ptr.length - q.reserved then .ok (false, q)
  else .ok (true, { q with
    size := q.size + ptr.length
    fifo := q.fifo ++ [⟨ptr, q.counter, 0⟩]
    counter := q.counter + 1
    reserved := 0 })

/-- The packets go with their bytes and with those of the packets removed
behind them. -/
def dropFront : Result PacketFifo :=
  match q.fifo with
  | [] => .error .dangling
  | entry :: rest => .ok { q with size := q.size - entry.packet.length - entry.slack, fifo := rest }

def pop : Result PacketFifo :=
  if q.size = 0 then .ok q else q.dropFront

def remove (i : Nat) : Result PacketFifo :=
  if i ≠ 0 then
    match q.fifo[i]? with
    | none => .error .dangling
    | some entry => .ok { q with fifo := (q.fifo.modify (i - 1) fun prev =>
        { prev with slack := prev.slack + entry.packet.length + entry.slack }).eraseIdx i }
  else q.dropFront

/-- The difference of two numbers, returned as an `int`. -/
def countPacketsBefore (i : Nat) : Result Int :=
  if i = q.fifo.length then .ok 0
  else match q.fifo[i]?, q.fifo[0]? with
    | some entry, some first => .ok ((entry.number - first.number).setWidth 32).toInt
    | _, _ => .error .dangling

def countPacketsAfter (i : Nat) : Result Int :=
  if i = q.fifo.length then .ok 0
  else match q.fifo[i]?, q.fifo[q.fifo.length - 1]? with
    | some entry, some last => .ok ((last.number - entry.number).setWidth 32).toInt
    | _, _ => .error .dangling

inductive Command where
  | reserve (len : Unsigned)
  | push (ptr : EthPacket)
  | pop
  | remove (i : Nat)

def machine : Machine PacketFifo Command Bool where
  step
    | q, .reserve len => (q.reserve len).map (true, ·)
    | q, .push ptr => q.push ptr
    | q, .pop => q.pop.map (true, ·)
    | q, .remove i => (q.remove i).map (true, ·)

/-- Every entry is counted where it stands. -/
def Counts : Prop :=
  ∀ i < q.fifo.length, q.countPacketsBefore i = .ok i ∧
    q.countPacketsAfter i = .ok ((q.fifo.length - 1 - i : Nat) : Int)

variable {q}

/-- The numbers run on without a gap up to the counter, and the bytes held are
those of the entries, at least one for each of them. -/
structure Numbered (q : PacketFifo) : Prop where
  number : ∀ k e, q.fifo[k]? = some e → e.number + BitVec.ofNat 64 (q.fifo.length - k) = q.counter
  length_pos : ∀ e ∈ q.fifo, 0 < e.packet.length.toNat
  size : (q.fifo.map fun e => e.packet.length.toNat + e.slack.toNat).sum = q.size.toNat
  room : q.size.toNat + q.reserved.toNat ≤ q.maxsize.toNat
  maxsize : q.maxsize.toNat < 2 ^ 31

namespace Numbered

theorem construct {max : BitVec 32} (hmax : 0 ≤ max.toInt) : (construct max).Numbered := by
  refine ⟨fun k e he => ?_, fun e he => ?_, rfl, Nat.zero_le _, ?_⟩
  · simp [PacketFifo.construct] at he
  · simp [PacketFifo.construct] at he
  · have := BitVec.toInt_eq_toNat_cond max
    simp only [PacketFifo.construct]
    omega

variable (h : q.Numbered)
include h

theorem toNat_avail : q.avail.toNat = q.maxsize.toNat - q.size.toNat - q.reserved.toNat := by
  have := h.room
  have := h.maxsize
  rw [avail, BitVec.toNat_sub_of_le, BitVec.toNat_sub_of_le]
  · rw [BitVec.le_def]; omega
  · rw [BitVec.le_def, BitVec.toNat_sub_of_le (by rw [BitVec.le_def]; omega)]; omega

theorem reserve (hcall : q.reserve len = .ok q') : q'.Numbered := by
  obtain ⟨_, hroom, ⟨⟩⟩ := bind_ok hcall
  have hroom := BitVec.le_def.mp (of_decide_eq_true (require_eq_ok_iff.mp hroom))
  have := h.toNat_avail
  have := h.room
  have := h.maxsize
  refine { h with room := ?_ }
  simp only [BitVec.toNat_add]
  omega

theorem push (hcall : q.push ptr = .ok (o, q')) : q'.Numbered := by
  obtain ⟨_, _, hlength, hreserved, hcall⟩ := bind_ok₂ hcall
  have hlength := BitVec.toNat_ne.mp (of_decide_eq_true (require_eq_ok_iff.mp hlength))
  have hreserved := BitVec.le_def.mp (of_decide_eq_true (require_eq_ok_iff.mp hreserved))
  by_cases hfull : q.avail < ptr.length - q.reserved
  · rw [if_pos hfull] at hcall
    cases hcall
    exact h
  rw [if_neg hfull] at hcall
  cases hcall
  rw [BitVec.lt_def, BitVec.toNat_sub_of_le hreserved, h.toNat_avail] at hfull
  have hroom := h.room
  have hmax := h.maxsize
  have hsize : (q.size + ptr.length).toNat = q.size.toNat + ptr.length.toNat := by
    rw [BitVec.toNat_add]
    omega
  refine ⟨fun k e he => ?_, fun e he => ?_, ?_, ?_, hmax⟩
  · rw [length_append, length_singleton]
    rcases Nat.lt_trichotomy k q.fifo.length with hk | hk | hk
    · rw [getElem?_append_left hk] at he
      rw [Nat.sub_add_comm hk.le, BitVec.ofNat_add, ← BitVec.add_assoc, h.number k e he]
      rfl
    · rw [hk, getElem?_concat_length] at he
      cases he
      rw [hk, Nat.add_sub_cancel_left]
      rfl
    · rw [getElem?_eq_none (by rwa [length_append])] at he
      cases he
  · rcases mem_append.mp he with he | he
    · exact h.length_pos e he
    · cases mem_singleton.mp he
      exact Nat.pos_of_ne_zero hlength
  · rw [map_append, sum_append, h.size]
    exact hsize.symm
  · change (q.size + ptr.length).toNat + 0 ≤ q.maxsize.toNat
    omega

theorem dropFront (hcall : q.dropFront = .ok q') : q'.Numbered := by
  obtain ⟨fifo, counter, maxsize, size, reserved⟩ := q
  match fifo with
  | [] => cases hcall
  | entry :: rest =>
    cases hcall
    have hsize := h.size
    have hroom := h.room
    simp only [map_cons, sum_cons] at hsize hroom
    refine ⟨fun k e he => ?_, fun e he => h.length_pos e (mem_cons_of_mem _ he), ?_, ?_, h.maxsize⟩
    · rw [← h.number (k + 1) e he, length_cons, Nat.add_sub_add_right]
    · simp only [BitVec.toNat_sub]
      omega
    · simp only [BitVec.toNat_sub]
      omega

theorem length_lt : q.fifo.length < 2 ^ 31 := by
  have hle := length_le_sum_of_one_le (q.fifo.map fun e => e.packet.length.toNat + e.slack.toNat) (by
    intro n hn
    obtain ⟨e, he, rfl⟩ := mem_map.mp hn
    exact Nat.le_add_right_of_le (h.length_pos e he))
  rw [length_map] at hle
  have := h.size
  have := h.room
  have := h.maxsize
  omega

/-- Two entries are as far apart as their numbers say. -/
theorem number_sub (hi : q.fifo[i]? = some e) (hj : q.fifo[j]? = some e') (hle : i ≤ j) :
    ((e'.number - e.number).setWidth 32).toInt = ((j - i : Nat) : Int) := by
  have hlen := h.length_lt
  have hlt := (List.getElem?_eq_some_iff.mp hj).1
  have hdiff : e'.number - e.number = BitVec.ofNat 64 (j - i) := by
    have := (h.number i e hi).trans (h.number j e' hj).symm
    rw [show q.fifo.length - i = j - i + (q.fifo.length - j) by omega, BitVec.ofNat_add, ← BitVec.add_assoc,
      BitVec.add_left_inj] at this
    rw [← this, BitVec.add_comm, BitVec.add_sub_cancel]
  rw [hdiff, BitVec.setWidth_ofNat_of_le (by decide), BitVec.toInt_eq_toNat_of_lt, BitVec.toNat_ofNat] <;>
    simp <;> omega

theorem counts : q.Counts := by
  intro i hi
  have hentry := getElem?_eq_getElem hi
  have hfirst := getElem?_eq_getElem (Nat.zero_lt_of_lt hi)
  have hlast := getElem?_eq_getElem (Nat.sub_lt (Nat.zero_lt_of_lt hi) Nat.one_pos)
  rw [countPacketsBefore, countPacketsAfter, if_neg hi.ne, if_neg hi.ne, hentry, hfirst, hlast]
  constructor
  · exact congrArg Except.ok (h.number_sub hfirst hentry (Nat.zero_le i))
  · exact congrArg Except.ok (h.number_sub hentry hlast (Nat.le_sub_one_of_lt hi))

end Numbered

/-- Only the first entry is removed. -/
def RemovesFront (_ : PacketFifo) : Command → Prop
  | .remove i => i = 0
  | _ => True

instance (q : PacketFifo) : DecidablePred (RemovesFront q)
  | .remove i => inferInstanceAs (Decidable (i = 0))
  | .reserve _ | .push _ | .pop => isTrue trivial

theorem numbered_of_step (h : q.Numbered) (hfront : RemovesFront q c) (hstep : machine.step q c = .ok (o, q')) :
    q'.Numbered := by
  cases c with
  | reserve len =>
    obtain ⟨_, hcall, ⟨⟩⟩ := map_ok hstep
    exact h.reserve hcall
  | push ptr => exact h.push hstep
  | pop =>
    obtain ⟨_, hcall, ⟨⟩⟩ := map_ok hstep
    by_cases hempty : q.size = 0
    · rw [pop, if_pos hempty] at hcall
      cases hcall
      exact h
    · rw [pop, if_neg hempty] at hcall
      exact h.dropFront hcall
  | remove i =>
    cases hfront
    obtain ⟨_, hcall, ⟨⟩⟩ := map_ok hstep
    exact h.dropFront hcall

/-- As long as packets leave from the front only, the numbers given out by
`push` are positions. -/
theorem counts_of_removesFront (max : BitVec 32) (calls : List Command) (hmax : 0 ≤ max.toInt)
    (hfront : machine.StepsAll RemovesFront (construct max) calls)
    (hrun : machine.run (construct max) calls = .ok (os, q)) : q.Counts :=
  (Machine.run_invariant (fun _ _ _ _ => numbered_of_step) (.construct hmax) hfront hrun).counts

theorem counts_three_pushed_front_removed :
    ∃ os q, machine.run (construct 64) [.push ⟨1⟩, .push ⟨2⟩, .push ⟨3⟩, .remove 0] = .ok (os, q) ∧ q.Counts :=
  ⟨_, _, rfl, counts_of_removesFront 64 [.push ⟨1⟩, .push ⟨2⟩, .push ⟨3⟩, .remove 0] (by decide)
    (by decide +kernel) rfl⟩

/-- A packet removed from the middle is still counted. -/
theorem countPacketsBefore_after_middle_removed :
    ∃ os q, machine.run (construct 64) [.push ⟨1⟩, .push ⟨2⟩, .push ⟨3⟩, .remove 1] = .ok (os, q) ∧
      q.fifo.length = 2 ∧ q.countPacketsBefore 1 = .ok 2 ∧ q.countPacketsAfter 0 = .ok 2 :=
  ⟨_, _, rfl, rfl, rfl, rfl⟩

end PacketFifo

end Gem5
