import Gem5.O3.LSQUnit.Model

open Lib.Circular Function List

namespace Gem5.O3

/-- What the order of the queues depends on of a store. -/
structure StoreTag (l : Nat) where
  seqNum : InstSeqNum
  lqIdx : Fin (l + 1)
  isStoreConditional : Bool
  canWB : Bool
  completed : Bool
  deriving DecidableEq

/-- The store still has to be written to memory. -/
def StoreTag.awaitsWB {l : Nat} (tag : StoreTag l) : Bool := tag.canWB && !tag.completed

namespace SQEntry

variable {l : Nat}

def tag (entry : SQEntry l) : Option (StoreTag l) :=
  entry.inst.map fun inst => ⟨inst.seqNum, inst.lqIdx, inst.isStoreConditional, entry.canWB, entry.completed⟩

/-- A store that has data has an address, and the data fits in the slot. -/
def Sound (entry : SQEntry l) : Prop :=
  ∀ inst, entry.inst = some inst → entry.size ≠ 0 →
    inst.effAddrValid = true ∧ (entry.isAllZeros = false → entry.size.toNat ≤ 16)

theorem tag_eq_some_iff {entry : SQEntry l} : entry.tag = some t ↔ ∃ inst, entry.inst = some inst ∧
      t = ⟨inst.seqNum, inst.lqIdx, inst.isStoreConditional, entry.canWB, entry.completed⟩ := by
  simp [tag, eq_comm]

theorem Sound.construct (inst : Option (StoreInst l)) : (SQEntry.construct inst).Sound :=
  fun _ _ hsize => absurd rfl hsize

end SQEntry

namespace LSQUnit

variable {l m : Nat}

/-- The load queue holds the loads, oldest first, and nothing else. -/
structure LoadsHold (loadQueue : Fin (l + 1) → Option (LoadInst l m)) (loads : Int) (loadHead loadTail : Fin (l + 1))
    (tags : List (LoadTag l m)) : Prop where
  count : loads = tags.length
  tail : loadTail = advance loadHead tags.length
  slots : Holds (fun i => (loadQueue i).map LoadInst.tag) loadHead (tags.map some)
  free : ∀ i, tags.length ≤ dist loadHead i → loadQueue i = none

/-- The store queue holds the stores, oldest first: those that were sent and those
that are still to be sent. -/
structure StoresHold (storeQueue : Fin (m + 1) → SQEntry l) (stores storesToWB : Int)
    (storeHead storeWBIdx storeTail : Fin (m + 1)) (sent unsent : List (StoreTag l)) : Prop where
  count : stores = (sent ++ unsent).length
  toWB : storesToWB = (sent ++ unsent).countP StoreTag.awaitsWB
  wb : storeWBIdx = advance storeHead sent.length
  tail : storeTail = advance storeHead (sent ++ unsent).length
  slots : Holds (fun i => (storeQueue i).tag) storeHead ((sent ++ unsent).map some)
  sound : ∀ i, (storeQueue i).Sound

namespace LoadsHold

variable {loadQueue : Fin (l + 1) → Option (LoadInst l m)} {loads : Int} {loadHead loadTail : Fin (l + 1)}
  {tags : List (LoadTag l m)}

theorem map_tag_update (loadQueue : Fin (l + 1) → Option (LoadInst l m)) (i : Fin (l + 1))
    (load : Option (LoadInst l m)) : (fun j => (update loadQueue i load j).map LoadInst.tag) =
      update (fun j => (loadQueue j).map LoadInst.tag) i (load.map LoadInst.tag) :=
  comp_update (Option.map LoadInst.tag) loadQueue i load

theorem length_le (h : LoadsHold loadQueue loads loadHead loadTail tags) : tags.length ≤ l := by
  simpa using h.slots.length_le

theorem dist_tail (h : LoadsHold loadQueue loads loadHead loadTail tags) : dist loadHead loadTail = tags.length := by
  rw [h.tail, dist_advance _ h.length_le]

variable {tag : LoadTag l m}

/-- The load at a place of the queue. -/
theorem middle (h : LoadsHold loadQueue loads loadHead loadTail (pre ++ tag :: post)) :
    ∃ load, loadQueue (advance loadHead pre.length) = some load ∧ load.tag = tag := by
  have hslots := h.slots
  rw [map_append, map_cons] at hslots
  have hmiddle := hslots.middle
  rw [length_map] at hmiddle
  exact Option.map_eq_some_iff.mp hmiddle

theorem first (h : LoadsHold loadQueue loads loadHead loadTail (tag :: tags)) :
    ∃ load, loadQueue loadHead = some load ∧ load.tag = tag := by
  have happend : LoadsHold loadQueue loads loadHead loadTail ([] ++ tag :: tags) := h
  simpa using happend.middle

/-- The youngest load. -/
theorem last (h : LoadsHold loadQueue loads loadHead loadTail (tags ++ [tag])) :
    ∃ load, loadQueue (pred loadTail) = some load ∧ load.tag = tag := by
  rw [h.tail, length_append, length_singleton, pred_advance_succ]
  exact h.middle

variable {load : LoadInst l m}

section

variable (h : LoadsHold loadQueue loads loadHead loadTail tags)

include h

theorem of_some (hload : loadQueue i = some load) : dist loadHead i < tags.length := by
  by_contra hfree
  rw [h.free i (Nat.not_lt.mp hfree)] at hload
  cases hload

/-- A load splits the queue into the older and the younger ones. -/
theorem split (hload : loadQueue i = some load) :
    ∃ pre post, tags = pre ++ load.tag :: post ∧ i = advance loadHead pre.length := by
  obtain ⟨pre, post, hitems, hi⟩ := h.slots.split (by simpa using h.of_some hload)
  obtain ⟨older, rest, htags, hpre, hrest⟩ := map_eq_append_iff.mp hitems
  obtain ⟨tag, younger, rfl, htag, -⟩ := map_eq_cons_iff.mp hrest
  simp only [hload, Option.map_some, Option.some_inj] at htag
  subst htag htags hpre
  exact ⟨older, younger, rfl, by simpa using hi⟩

/-- The place of a load in the queue. -/
theorem get (hload : loadQueue i = some load) : tags[dist loadHead i]? = some load.tag := by
  have hget := h.slots.get (i := i) (by simpa using h.of_some hload)
  simpa [hload] using hget

theorem isSome_iff (i : Fin (l + 1)) : (loadQueue i).isSome ↔ dist loadHead i < dist loadHead loadTail := by
  rw [h.dist_tail]
  constructor
  · intro hsome
    obtain ⟨load, hload⟩ := Option.isSome_iff_exists.mp hsome
    exact h.of_some hload
  · intro hlt
    have hget := h.slots.get (by simpa using hlt)
    rw [getElem?_map, getElem?_eq_getElem hlt, Option.map_some, Option.some_inj] at hget
    obtain ⟨load, hload, -⟩ := Option.map_eq_some_iff.mp hget.symm
    exact hload ▸ rfl

/-- What the other calls write into a load leaves the order alone. -/
theorem congr {after : Fin (l + 1) → Option (LoadInst l m)}
    (hafter : ∀ i, (after i).map LoadInst.tag = (loadQueue i).map LoadInst.tag) :
    LoadsHold after loads loadHead loadTail tags where
  count := h.count
  tail := h.tail
  slots := by
    simp only [hafter]
    exact h.slots
  free i hi := by
    have hnone := hafter i
    rw [h.free i hi, Option.map_none] at hnone
    exact Option.map_eq_none_iff.mp hnone

theorem push (hroom : tags.length < l) (load : LoadInst l m) :
    LoadsHold (update loadQueue loadTail (some load)) (loads + 1) loadHead (succ loadTail) (tags ++ [load.tag]) where
  count := by
    rw [h.count]
    simp
  tail := by
    rw [h.tail, succ_advance]
    simp
  slots := by
    have hpush := h.slots.push (by simpa using hroom) (some load.tag)
    rw [length_map, ← h.tail] at hpush
    rw [map_append]
    rw [map_tag_update]
    exact hpush
  free i hi := by
    rw [length_append, length_singleton] at hi
    have hne : i ≠ loadTail := by
      rintro rfl
      rw [h.dist_tail] at hi
      omega
    rw [update_of_ne hne]
    exact h.free i (by omega)

end

theorem popFront (h : LoadsHold loadQueue loads loadHead loadTail (tag :: tags)) :
    LoadsHold (update loadQueue loadHead none) (loads - 1) (succ loadHead) loadTail tags where
  count := by
    rw [h.count]
    simp
  tail := by
    rw [h.tail, advance_succ, length_cons]
  slots := by
    have hlength := h.length_le
    rw [length_cons] at hlength
    rw [map_tag_update]
    refine h.slots.popFront.update_of_le ?_ none
    rw [length_map, dist_succ_self]
    omega
  free i hi := by
    by_cases heq : i = loadHead
    · rw [heq, update_self]
    rw [update_of_ne heq]
    apply h.free
    rw [length_cons, ← dist_succ heq]
    omega

theorem popBack (h : LoadsHold loadQueue loads loadHead loadTail (tags ++ [tag])) :
    LoadsHold (update loadQueue (pred loadTail) none) (loads - 1) loadHead (pred loadTail) tags := by
  have hpred : pred loadTail = advance loadHead tags.length := by
    rw [h.tail, length_append, length_singleton, pred_advance_succ]
  have hlength := h.length_le
  rw [length_append, length_singleton] at hlength
  have hdist : dist loadHead (pred loadTail) = tags.length := by
    rw [hpred, dist_advance loadHead (by omega)]
  refine ⟨?_, hpred, ?_, ?_⟩
  · rw [h.count]
    simp
  · have hslots := h.slots
    rw [map_append] at hslots
    rw [map_tag_update]
    refine hslots.of_append.update_of_le ?_ none
    rw [length_map, hdist]
  · intro i hi
    by_cases heq : i = pred loadTail
    · rw [heq, update_self]
    rw [update_of_ne heq]
    apply h.free
    have hne : dist loadHead i ≠ tags.length := by
      intro hi'
      exact heq (by rw [← advance_dist loadHead i, hi', hpred])
    rw [length_append, length_singleton]
    omega

end LoadsHold

namespace StoresHold

variable {entry : SQEntry l} {storeQueue : Fin (m + 1) → SQEntry l} {stores storesToWB : Int}
  {storeHead storeWBIdx storeTail : Fin (m + 1)} {sent unsent : List (StoreTag l)}

theorem tag_update (storeQueue : Fin (m + 1) → SQEntry l) (i : Fin (m + 1)) (entry : SQEntry l) :
    (fun j => (update storeQueue i entry j).tag) = update (fun j => (storeQueue j).tag) i entry.tag :=
  comp_update SQEntry.tag storeQueue i entry

theorem sound_update (h : ∀ i, (storeQueue i).Sound) (i : Fin (m + 1)) (hentry : entry.Sound) (j : Fin (m + 1)) :
    (update storeQueue i entry j).Sound := by
  by_cases heq : j = i
  · rwa [heq, update_self]
  · rw [update_of_ne heq]
    exact h j

variable {tag : StoreTag l}

section

variable (h : StoresHold storeQueue stores storesToWB storeHead storeWBIdx storeTail sent unsent)

include h

theorem length_le : (sent ++ unsent).length ≤ m := by
  have hlength := h.slots.length_le
  rwa [length_map] at hlength

theorem sent_length_le : sent.length ≤ m :=
  Nat.le_trans (by simp) h.length_le

theorem dist_tail : dist storeHead storeTail = (sent ++ unsent).length := by
  rw [h.tail, dist_advance _ h.length_le]

theorem dist_wb : dist storeHead storeWBIdx = sent.length := by
  rw [h.wb, dist_advance _ h.sent_length_le]

/-- The store at a place of the queue. -/
theorem middle (hsplit : sent ++ unsent = pre ++ tag :: post) :
    (storeQueue (advance storeHead pre.length)).tag = some tag := by
  have hslots := h.slots
  rw [hsplit, map_append, map_cons] at hslots
  have hmiddle := hslots.middle
  rwa [length_map] at hmiddle

/-- The youngest store. -/
theorem last (hsplit : sent ++ unsent = init ++ [tag]) : (storeQueue (pred storeTail)).tag = some tag := by
  rw [h.tail, hsplit, length_append, length_singleton, pred_advance_succ]
  exact h.middle hsplit

/-- A slot between the head and the tail splits the queue. -/
theorem split (hi : dist storeHead i < dist storeHead storeTail) :
    ∃ pre tag post, sent ++ unsent = pre ++ tag :: post ∧ i = advance storeHead pre.length ∧
      (storeQueue i).tag = some tag := by
  rw [h.dist_tail] at hi
  obtain ⟨pre, post, hitems, hi⟩ := h.slots.split (by rwa [length_map])
  obtain ⟨older, rest, hsplit, hpre, hrest⟩ := map_eq_append_iff.mp hitems
  obtain ⟨tag, younger, rfl, htag, -⟩ := map_eq_cons_iff.mp hrest
  subst hpre
  exact ⟨older, tag, younger, hsplit, by simpa using hi, htag.symm⟩

/-- The place of a store in the queue. -/
theorem get (hi : dist storeHead i < dist storeHead storeTail) :
    ∃ tag, (storeQueue i).tag = some tag ∧ (sent ++ unsent)[dist storeHead i]? = some tag := by
  rw [h.dist_tail] at hi
  have hget := h.slots.get (i := i) (by rwa [length_map])
  rw [getElem?_map, getElem?_eq_getElem hi, Option.map_some, Option.some_inj] at hget
  exact ⟨_, hget.symm, getElem?_eq_getElem hi⟩

/-- One store is changed, in its place. -/
theorem set (hsplit : sent ++ unsent = pre ++ tag :: post) (hnew : entry.tag = some new) (hsound : entry.Sound)
    (hsplit' : sent' ++ unsent' = pre ++ new :: post) (hlength : sent'.length = sent.length) :
    StoresHold (update storeQueue (advance storeHead pre.length) entry) stores
      (storesToWB + (if new.awaitsWB then 1 else 0) - if tag.awaitsWB then 1 else 0)
      storeHead storeWBIdx storeTail sent' unsent' := by
  have hsame : (sent' ++ unsent').length = (sent ++ unsent).length := by
    rw [hsplit, hsplit']
    simp
  refine ⟨hsame ▸ h.count, ?_, hlength ▸ h.wb, hsame ▸ h.tail, ?_, sound_update h.sound _ hsound⟩
  · rw [h.toWB, hsplit, hsplit']
    simp only [countP_append, countP_cons]
    push_cast
    split <;> split <;> omega
  · have hslots := h.slots
    rw [hsplit, map_append, map_cons] at hslots
    have hset := hslots.set (some new)
    rw [length_map] at hset
    rw [tag_update, hnew, hsplit', map_append, map_cons]
    exact hset

theorem push (hroom : (sent ++ unsent).length < m) (htag : entry.tag = some tag) (hcanWB : tag.canWB = false)
    (hsound : entry.Sound) : StoresHold (update storeQueue storeTail entry) (stores + 1) storesToWB storeHead storeWBIdx
      (succ storeTail) sent (unsent ++ [tag]) := by
  have hall : (sent ++ (unsent ++ [tag])).length = (sent ++ unsent).length + 1 := by simp [Nat.add_assoc]
  refine ⟨?_, ?_, h.wb, ?_, ?_, sound_update h.sound _ hsound⟩
  · rw [h.count, hall]
    rfl
  · rw [h.toWB]
    simp [StoreTag.awaitsWB, hcanWB]
  · rw [h.tail, succ_advance, hall]
  · have hpush := h.slots.push (by simpa using hroom) (some tag)
    rw [length_map, ← h.tail] at hpush
    rw [tag_update, htag, ← append_assoc, map_append]
    exact hpush

end

/-- The next store to be sent. -/
theorem tag_wb (h : StoresHold storeQueue stores storesToWB storeHead storeWBIdx storeTail sent (tag :: rest)) :
    (storeQueue storeWBIdx).tag = some tag := by
  rw [h.wb]
  exact h.middle rfl

/-- The next store was sent. -/
theorem send (h : StoresHold storeQueue stores storesToWB storeHead storeWBIdx storeTail sent (tag :: rest)) :
    StoresHold storeQueue stores storesToWB storeHead (succ storeWBIdx) storeTail (sent ++ [tag]) rest := by
  have happend : (sent ++ [tag]) ++ rest = sent ++ tag :: rest := by simp
  refine ⟨happend ▸ h.count, happend ▸ h.toWB, ?_, happend ▸ h.tail, happend ▸ h.slots, h.sound⟩
  rw [h.wb, succ_advance, length_append, length_singleton]

/-- The oldest store, which is complete, leaves the queue. -/
theorem popFront (h : StoresHold storeQueue stores storesToWB storeHead storeWBIdx storeTail (tag :: sent) unsent)
    (hcompleted : tag.completed = true) :
    StoresHold storeQueue (stores - 1) storesToWB (succ storeHead) storeWBIdx storeTail sent unsent where
  count := by
    rw [h.count]
    simp
  toWB := by
    rw [h.toWB, cons_append, countP_cons]
    simp [StoreTag.awaitsWB, hcompleted]
  wb := by rw [h.wb, advance_succ, length_cons]
  tail := by rw [h.tail, advance_succ, cons_append, length_cons]
  slots := h.slots.popFront
  sound := h.sound

/-- The youngest store is squashed. -/
theorem popBack (h : StoresHold storeQueue stores storesToWB storeHead storeWBIdx storeTail sent (unsent ++ [tag]))
    (hcanWB : tag.canWB = false) (hsound : entry.Sound) :
    StoresHold (update storeQueue (pred storeTail) entry) (stores - 1) storesToWB storeHead storeWBIdx
      (pred storeTail) sent unsent := by
  have hall : (sent ++ (unsent ++ [tag])).length = (sent ++ unsent).length + 1 := by simp [Nat.add_assoc]
  have hpred : pred storeTail = advance storeHead (sent ++ unsent).length := by
    rw [h.tail, hall, pred_advance_succ]
  have hlength := h.length_le
  rw [hall] at hlength
  refine ⟨?_, ?_, h.wb, hpred, ?_, sound_update h.sound _ hsound⟩
  · rw [h.count, hall]
    simp
  · rw [h.toWB]
    simp [StoreTag.awaitsWB, hcanWB]
  · have hslots := h.slots
    rw [← append_assoc, map_append] at hslots
    rw [tag_update]
    refine hslots.of_append.update_of_le ?_ _
    rw [length_map, hpred, dist_advance storeHead (by omega)]

end StoresHold

end LSQUnit

end Gem5.O3
