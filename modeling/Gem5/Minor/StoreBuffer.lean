import Gem5.Base.IntMath
import Gem5.Lib.Result

open Lib Result List

namespace Gem5.Minor

inductive AddrRangeCoverage where
  | PartialAddrRangeCoverage
  | FullAddrRangeCoverage
  | NoAddrRangeCoverage
  deriving DecidableEq

open AddrRangeCoverage

/-- A load or store request. Its packet, if it has one, holds as many bytes as
the request is for, and its end is an address. -/
structure LSQRequest where
  isLoad : Bool
  threadId : ThreadID
  paddr : Addr
  size : Unsigned
  packet : Option (List (BitVec 8))
  end_lt : paddr.toNat + size.toNat < 2 ^ 64
  length_packet : ∀ bytes ∈ packet, bytes.length = size.toNat

/-- `containsAddrRangeOf` on addresses and sizes. -/
def containsAddrRange (req1_addr : Addr) (req1_size : Unsigned) (req2_addr : Addr) (req2_size : Unsigned) :
    AddrRangeCoverage :=
  let req2_end_addr := req2_addr + req2_size.setWidth 64
  let req1_end_addr := req1_addr + req1_size.setWidth 64
  if req1_addr > req2_end_addr ∨ req1_end_addr < req2_addr then NoAddrRangeCoverage
  else if req1_addr ≤ req2_addr ∧ req1_end_addr ≥ req2_end_addr then FullAddrRangeCoverage
  else PartialAddrRangeCoverage

namespace LSQRequest

def containsAddrRangeOf (self other_request : LSQRequest) : AddrRangeCoverage :=
  containsAddrRange self.paddr self.size other_request.paddr other_request.size

/-- The bytes that a request is for. -/
def Covers (self : LSQRequest) (a : Nat) : Prop := self.paddr.toNat ≤ a ∧ a < self.paddr.toNat + self.size.toNat

/-- A store of the load's thread has a byte in common with the load. -/
def Shares (store load : LSQRequest) : Prop :=
  (store.packet.isSome = true ∧ store.threadId = load.threadId) ∧ ∃ a, store.Covers a ∧ load.Covers a

/-- A store of the load's thread overlaps the load or ends where it starts, or
the other way round. -/
def Touches (store load : LSQRequest) : Prop :=
  (store.packet.isSome = true ∧ store.threadId = load.threadId) ∧
    store.paddr.toNat ≤ load.paddr.toNat + load.size.toNat ∧ load.paddr.toNat ≤ store.paddr.toNat + store.size.toNat

variable (store load : LSQRequest)

theorem toNat_end : (store.paddr + store.size.setWidth 64).toNat = store.paddr.toNat + store.size.toNat := by
  have := store.end_lt
  rw [BitVec.toNat_add, BitVec.toNat_setWidth]
  omega

variable {store load}

theorem Shares.touches (h : store.Shares load) : store.Touches load := by
  obtain ⟨hstore, a, h₁, h₂⟩ := h
  unfold Covers at h₁ h₂
  exact ⟨hstore, by omega, by omega⟩

theorem containsAddrRangeOf_eq_no_iff : store.containsAddrRangeOf load = NoAddrRangeCoverage ↔
      ¬(store.paddr.toNat ≤ load.paddr.toNat + load.size.toNat ∧
        load.paddr.toNat ≤ store.paddr.toNat + store.size.toNat) := by
  unfold containsAddrRangeOf containsAddrRange
  simp only [gt_iff_lt, BitVec.lt_def, toNat_end]
  split
  · simp only [true_iff]
    omega
  · split <;> simp only [reduceCtorEq, false_iff] <;> omega

/-- Whatever shares a byte with the load is told apart from what covers it. -/
theorem Shares.containsAddrRangeOf_eq_full_iff (h : store.Shares load) :
    store.containsAddrRangeOf load = FullAddrRangeCoverage ↔ ∀ a, load.Covers a → store.Covers a := by
  have htouches := h.touches.2
  obtain ⟨-, a, -, hload⟩ := h
  have hcovers : (∀ a, load.Covers a → store.Covers a) ↔ store.paddr.toNat ≤ load.paddr.toNat ∧
      load.paddr.toNat + load.size.toNat ≤ store.paddr.toNat + store.size.toNat := by
    unfold Covers at hload ⊢
    constructor
    · intro hall
      have hfirst := hall load.paddr.toNat (by omega)
      have hlast := hall (load.paddr.toNat + load.size.toNat - 1) (by omega)
      omega
    · intro hall a ha
      omega
  rw [hcovers]
  unfold containsAddrRangeOf containsAddrRange
  simp only [gt_iff_lt, ge_iff_le, BitVec.lt_def, BitVec.le_def, toNat_end]
  rw [if_neg (by omega)]
  split <;> simp_all

end LSQRequest

open LSQRequest

/-- The loop of `canForwardDataToLoad` over the slots from the youngest on, with
the slot it has found. -/
def scanSlots (request : LSQRequest) : List LSQRequest → AddrRangeCoverage × Option Nat
  | [] => (NoAddrRangeCoverage, none)
  | slot :: older =>
    if slot.packet.isSome ∧ slot.threadId = request.threadId then
      let coverage := slot.containsAddrRangeOf request
      if coverage ≠ NoAddrRangeCoverage then (coverage, some older.length) else scanSlots request older
    else scanSlots request older

/-- `canForwardDataToLoad`, with the slots from the oldest on. -/
def canForwardDataToLoad (slots : List LSQRequest) (request : LSQRequest) : AddrRangeCoverage × Option Nat :=
  scanSlots request slots.reverse

/-- `forwardStoreData`, with the bytes that it copies to the packet of the load. -/
def forwardStoreData (slots : List LSQRequest) (load : LSQRequest) (slot_number : Nat) : Result (List (BitVec 8)) := do
  require load.packet.isSome
  require load.isLoad
  let store ← slots[slot_number]?.elim (.error .assertion) .ok
  let bytes ← store.packet.elim (.error .assertion) .ok
  require (store.containsAddrRangeOf load = FullAddrRangeCoverage)
  let addr_offset := (load.paddr - store.paddr).toNat
  if addr_offset + load.size.toNat ≤ bytes.length then .ok ((bytes.drop addr_offset).take load.size.toNat)
  else .error .outOfRange

/-- The byte of a store at an address. -/
def byteAt (store : LSQRequest) (a : Nat) : Option (BitVec 8) := store.packet.bind (·[a - store.paddr.toNat]?)

/-- The slot of the youngest request with a property. -/
def Youngest (P : LSQRequest → Prop) (slots : List LSQRequest) (i : Nat) (s : LSQRequest) : Prop :=
  slots[i]? = some s ∧ P s ∧ ∀ j s', i < j → slots[j]? = some s' → ¬P s'

/-- A load is told exactly what the youngest store that shares a byte with it has
for it. -/
def Exact (slots : List LSQRequest) (load : LSQRequest) : Prop :=
  ((canForwardDataToLoad slots load).1 = NoAddrRangeCoverage ↔ ∀ s ∈ slots, ¬s.Shares load) ∧
  ∀ i s, Youngest (·.Shares load) slots i s →
    (canForwardDataToLoad slots load).2 = some i ∧
    ((canForwardDataToLoad slots load).1 = FullAddrRangeCoverage ↔ ∀ a, load.Covers a → s.Covers a) ∧
    ((canForwardDataToLoad slots load).1 = FullAddrRangeCoverage → load.isLoad = true → load.packet.isSome = true →
      ∃ bytes, forwardStoreData slots load i = .ok bytes ∧ bytes.length = load.size.toNat ∧
        ∀ k < load.size.toNat, bytes[k]? = byteAt s (load.paddr.toNat + k))

variable {load : LSQRequest}

theorem scanSlots_of_not_touches (h : ∀ s ∈ younger, ¬s.Touches load) (older : List LSQRequest) :
    scanSlots load (younger ++ older) = scanSlots load older := by
  induction younger with
  | nil => rfl
  | cons s rest ih =>
    rw [cons_append, scanSlots, ih fun s hs => h s (mem_cons_of_mem _ hs)]
    by_cases hstore : s.packet.isSome = true ∧ s.threadId = load.threadId
    · rw [if_pos hstore, if_neg]
      rw [not_not, containsAddrRangeOf_eq_no_iff]
      exact fun hclose => h s mem_cons_self ⟨hstore, hclose⟩
    · rw [if_neg hstore]

theorem canForwardDataToLoad_of_not_touches (h : ∀ s ∈ slots, ¬s.Touches load) :
    canForwardDataToLoad slots load = (NoAddrRangeCoverage, none) := by
  have hnone : ∀ s ∈ slots.reverse, ¬s.Touches load := fun s hs => h s (mem_reverse.mp hs)
  rw [canForwardDataToLoad, ← append_nil slots.reverse, scanSlots_of_not_touches hnone, scanSlots]

theorem canForwardDataToLoad_of_youngest (h : Youngest (·.Touches load) slots i s) :
    canForwardDataToLoad slots load = (s.containsAddrRangeOf load, some i) := by
  obtain ⟨hi, hs, hyounger⟩ := h
  obtain ⟨hlt, hget⟩ := List.getElem?_eq_some_iff.mp hi
  have hyounger : ∀ s' ∈ (slots.drop (i + 1)).reverse, ¬s'.Touches load := by
    intro s' hs'
    obtain ⟨k, hk⟩ := getElem?_of_mem (mem_reverse.mp hs')
    rw [getElem?_drop] at hk
    exact hyounger _ s' (by omega) hk
  have hslots : slots = slots.take i ++ s :: slots.drop (i + 1) := by
    rw [← hget, ← drop_eq_getElem_cons hlt, take_append_drop]
  rw [canForwardDataToLoad, hslots, reverse_append, reverse_cons, append_assoc, scanSlots_of_not_touches hyounger,
    cons_append, scanSlots, if_pos hs.1, if_pos, nil_append, length_reverse, length_take, Nat.min_eq_left hlt.le]
  rw [Ne, containsAddrRangeOf_eq_no_iff, not_not]
  exact hs.2

theorem forwardStoreData_of_full (hi : slots[i]? = some s) (hs : s.Shares load)
    (hfull : s.containsAddrRangeOf load = FullAddrRangeCoverage) (hload : load.isLoad = true)
    (hpacket : load.packet.isSome = true) :
    ∃ bytes, forwardStoreData slots load i = .ok bytes ∧ bytes.length = load.size.toNat ∧
      ∀ k < load.size.toNat, bytes[k]? = byteAt s (load.paddr.toNat + k) := by
  obtain ⟨data, hdata⟩ := Option.isSome_iff_exists.mp hs.1.1
  have hlength := s.length_packet data hdata
  obtain ⟨-, a, -, hbyte⟩ := id hs
  have hcovers := hs.containsAddrRangeOf_eq_full_iff.mp hfull
  unfold Covers at hcovers hbyte
  have hfirst := hcovers load.paddr.toNat (by omega)
  have hlast := hcovers (load.paddr.toNat + load.size.toNat - 1) (by omega)
  have hoffset : (load.paddr - s.paddr).toNat = load.paddr.toNat - s.paddr.toNat := BitVec.toNat_sub_of_le hfirst.1
  refine ⟨(data.drop (load.paddr.toNat - s.paddr.toNat)).take load.size.toNat, ?_, ?_, fun k hk => ?_⟩
  · rw [forwardStoreData, hload, hpacket, hi, ← hoffset]
    refine (bind_of_ok (x := s.packet.elim (.error Fault.assertion) .ok) (a := data) (by rw [hdata]; rfl) _).trans ?_
    refine (bind_of_ok (require_of_decide hfull) _).trans (if_pos ?_)
    omega
  · rw [length_take, length_drop]
    omega
  · rw [getElem?_take_of_lt hk, getElem?_drop, byteAt, hdata, ← Nat.sub_add_comm hfirst.1]
    rfl

theorem exists_youngest (P : LSQRequest → Prop) (slots : List LSQRequest) :
    (∀ s ∈ slots, ¬P s) ∨ ∃ i s, Youngest P slots i s := by
  induction slots with
  | nil => exact .inl (fun _ hs => nomatch hs)
  | cons first rest ih =>
    rcases ih with hrest | ⟨i, s, hi, hs, hyounger⟩
    · by_cases hfirst : P first
      · refine .inr ⟨0, first, rfl, hfirst, fun j s' hj hs' => hrest s' ?_⟩
        obtain ⟨j, rfl⟩ := Nat.exists_eq_add_one_of_ne_zero hj.ne'
        exact mem_of_getElem? hs'
      · exact .inl (forall_mem_cons.mpr ⟨hfirst, hrest⟩)
    · refine .inr ⟨i + 1, s, hi, hs, fun j s' hj hs' => ?_⟩
      obtain ⟨j, rfl⟩ := Nat.exists_eq_add_one_of_ne_zero (Nat.ne_zero_of_lt hj)
      exact hyounger j s' (by omega) hs'

theorem Youngest.unique (h : Youngest P slots i s) (h' : Youngest P slots j s') : i = j ∧ s = s' := by
  obtain ⟨hi, hs, hyounger⟩ := h
  obtain ⟨hj, hs', hyounger'⟩ := h'
  have hij : i = j := by
    rcases Nat.lt_trichotomy i j with hlt | heq | hlt
    · exact absurd hs' (hyounger j s' hlt hj)
    · exact heq
    · exact absurd hs (hyounger' i s hlt hi)
  subst hij
  exact ⟨rfl, Option.some.inj (hi.symm.trans hj)⟩

/-- The buffer answers exactly if the youngest store that overlaps the load or is
next to it overlaps it. -/
theorem canForwardDataToLoad_exact_iff (slots : List LSQRequest) (load : LSQRequest) :
    Exact slots load ↔ ∀ i s, Youngest (·.Touches load) slots i s → s.Shares load := by
  constructor
  · rintro ⟨hno, hyoungest⟩ i s htouches
    have hresult := canForwardDataToLoad_of_youngest htouches
    rw [hresult] at hno hyoungest
    rcases exists_youngest (·.Shares load) slots with hnone | ⟨j, s', hshares⟩
    · exact absurd htouches.2.1.2 (containsAddrRangeOf_eq_no_iff.mp (hno.mpr hnone))
    · cases (hyoungest j s' hshares).1
      cases htouches.1.symm.trans hshares.1
      exact hshares.2.1
  · intro hcond
    rcases exists_youngest (·.Touches load) slots with hnone | ⟨i, s, htouches⟩
    · rw [Exact, canForwardDataToLoad_of_not_touches hnone]
      exact ⟨iff_of_true rfl fun s hs hshares => hnone s hs hshares.touches,
        fun i s hs => absurd hs.2.1.touches (hnone s (mem_of_getElem? hs.1))⟩
    have hs := hcond i s htouches
    have hshares : Youngest (·.Shares load) slots i s :=
      ⟨htouches.1, hs, fun j s' hj hs' hshare => htouches.2.2 j s' hj hs' hshare.touches⟩
    rw [Exact, canForwardDataToLoad_of_youngest htouches]
    refine ⟨iff_of_false (fun hno => containsAddrRangeOf_eq_no_iff.mp hno htouches.2.1.2)
      fun hnone => hnone s (mem_of_getElem? htouches.1) hs, fun j s' hs' => ?_⟩
    obtain ⟨rfl, rfl⟩ := hshares.unique hs'
    exact ⟨rfl, hs.containsAddrRangeOf_eq_full_iff, forwardStoreData_of_full htouches.1 hs⟩

/-- A store to the four bytes behind a load hides the older store that has all of
its bytes. -/
theorem adjacent_store_hides_older : ∃ covering adjacent load : LSQRequest,
    (∀ a, load.Covers a → covering.Covers a) ∧ covering.Shares load ∧ ¬adjacent.Shares load ∧
      canForwardDataToLoad [covering, adjacent] load = (PartialAddrRangeCoverage, some 1) := by
  refine ⟨⟨false, 0, 4, 4, some [1, 2, 3, 4], by decide, by simp⟩,
    ⟨false, 0, 8, 4, some [5, 6, 7, 8], by decide, by simp⟩,
    ⟨true, 0, 4, 4, some [0, 0, 0, 0], by decide, by simp⟩, fun a h => h,
    ⟨⟨rfl, rfl⟩, 4, ⟨by decide, by decide⟩, by decide, by decide⟩, ?_, by decide⟩
  rintro ⟨-, a, hadjacent, hload⟩
  unfold Covers at hadjacent hload
  simp at hadjacent hload
  omega

end Gem5.Minor
