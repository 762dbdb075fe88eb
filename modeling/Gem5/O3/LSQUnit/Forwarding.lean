import Gem5.Lib.Overlay
import Gem5.O3.LSQUnit.Invariant

open Lib Lib.Circular List

namespace Gem5.O3

variable {seqNum : InstSeqNum}

namespace Queues

variable {l m : Nat} {q q' : Queues l m}

/-- Each load has the place of the first younger store among those that are still
to be sent, if there was a store in the queue when it came. -/
structure LoadsPlaced (q : Queues l m) : Prop where
  marks : ∀ load ∈ q.loads, ∀ i, load.sqIdx = some i → Marks StoreTag.seqNum q.storeWBIdx q.unsent i load.seqNum
  first : ∀ load ∈ q.loads, load.sqIdx = none → ∀ n ∈ q.unsent.map StoreTag.seqNum, load.seqNum < n

/-- The stores that a call sends are older than the loads of the queue. -/
def WritesBackInOrder (q q' : Queues l m) : Prop :=
  ∀ gone, q.unsent = gone ++ q'.unsent → q'.storeWBIdx = advance q.storeWBIdx gone.length →
    ∀ tag ∈ gone, ∀ load ∈ q.loads, tag.seqNum < load.seqNum

theorem Moves.gone (h : Moves q q') :
    ∃ gone, q.unsent = gone ++ q'.unsent ∧ q'.storeWBIdx = advance q.storeWBIdx gone.length := by
  cases h with
  | @send tag rest hnext hcanWB =>
    refine ⟨[tag], hnext, ?_⟩
    simp [storeWBIdx, advance_advance]
  | completeFirst hsent hdone =>
    refine ⟨[], rfl, ?_⟩
    simp [storeWBIdx, hsent, advance_advance, Nat.add_assoc, Nat.add_comm]
  | complete hsent hopen =>
    refine ⟨[], rfl, ?_⟩
    simp [storeWBIdx, hsent]

theorem moves_gone (h : Relation.ReflTransGen Moves q q') :
    ∃ gone, q.unsent = gone ++ q'.unsent ∧ q'.storeWBIdx = advance q.storeWBIdx gone.length := by
  induction h with
  | refl => exact ⟨[], rfl, by rw [length_nil, advance_zero]⟩
  | tail _ hmove ih =>
    obtain ⟨gone, hunsent, hwb⟩ := ih
    obtain ⟨gone', hunsent', hwb'⟩ := hmove.gone
    refine ⟨gone ++ gone', by rw [hunsent, hunsent', append_assoc], ?_⟩
    rw [hwb', hwb, advance_advance, length_append]

namespace LoadsPlaced

theorem empty : (Queues.empty : Queues l m).LoadsPlaced := ⟨fun _ h => (by cases h), fun _ h => (by cases h)⟩

variable (h : q.LoadsPlaced)
include h

/-- Some loads leave, and no store does. -/
theorem of_nums (hloads : q'.loads ⊆ q.loads) (hwb : q'.storeWBIdx = q.storeWBIdx)
    (hnums : q'.unsent.map StoreTag.seqNum = q.unsent.map StoreTag.seqNum) : q'.LoadsPlaced := by
  refine ⟨fun load hload i hi => ?_, fun load hload hnone => ?_⟩
  · rw [hwb]
    exact (h.marks load (hloads hload) i hi).of_map_eq hnums
  · rw [hnums]
    exact h.first load (hloads hload) hnone

theorem insertLoad (hyounger : ∀ n ∈ q.storeNums, n < seqNum) : (q.insertLoad seqNum).LoadsPlaced := by
  refine ⟨fun load hload i hi => ?_, fun load hload hnone => ?_⟩
  · cases mem_append.mp hload with
    | inl hload => exact h.marks load hload i hi
    | inr hload =>
      rw [mem_singleton.mp hload] at hi ⊢
      simp only at hi
      split at hi
      · cases hi
      cases hi
      have htail : q.storeTail = advance q.storeWBIdx q.unsent.length := by
        rw [storeTail, storeWBIdx, advance_advance, stores, length_append]
      rw [htail]
      exact .atTail fun tag htag => hyounger _ (mem_storeNums htag)
  · cases mem_append.mp hload with
    | inl hload => exact h.first load hload hnone
    | inr hload =>
      rw [mem_singleton.mp hload] at hnone
      simp only at hnone
      split at hnone
      · rename_i hempty
        have hunsent : q.unsent = [] := (append_eq_nil_iff.mp (List.isEmpty_iff.mp hempty)).2
        intro n hn
        rw [Queues.insertLoad, hunsent] at hn
        cases hn
      · cases hnone

theorem insertStore (hyounger : ∀ n ∈ q.loadNums, n < seqNum) (isStoreConditional : Bool) :
    (q.insertStore seqNum isStoreConditional).LoadsPlaced := by
  refine ⟨fun load hload i hi => (h.marks load hload i hi).push (hyounger _ (mem_loadNums hload)),
    fun load hload hnone => ?_⟩
  rw [Queues.insertStore, map_append, map_singleton]
  exact forall_mem_append.mpr ⟨h.first load hload hnone, forall_mem_singleton.mpr (hyounger _ (mem_loadNums hload))⟩

/-- Stores that are older than every load are sent. -/
theorem moves (hmoves : Relation.ReflTransGen Moves q q') (horder : q.WritesBackInOrder q') : q'.LoadsPlaced := by
  obtain ⟨gone, hunsent, hwb⟩ := moves_gone hmoves
  have hloads := (moves_storeNums hmoves).2
  refine ⟨fun load hload i hi => ?_, fun load hload hnone n hn => ?_⟩
  · rw [hloads] at hload
    have hmarks := h.marks load hload i hi
    rw [hunsent] at hmarks
    rw [hwb]
    exact hmarks.popFront fun tag htag => horder gone hunsent hwb tag htag load hload
  · rw [hloads] at hload
    refine h.first load hload hnone n ?_
    rw [hunsent, map_append]
    exact mem_append_right _ hn

theorem squash (hord : q.Ordered) (hsquash : q.Step (.squash squashed_num) q') : q'.LoadsPlaced := by
  obtain ⟨loads, unsent, young, squashed, hloads, hunsent, -, hlast, hsquashed, -, rfl⟩ := hsquash
  have hle : ∀ load ∈ loads, load.seqNum ≤ squashed_num := by
    intro load hload
    have hnums := hord.loads
    rw [loadNums, hloads, map_append] at hnums
    obtain ⟨last, hlast'⟩ := Option.isSome_iff_exists.mp (getLast?_isSome.mpr (ne_nil_of_mem hload))
    exact Nat.le_trans (le_of_getLast (pairwise_append.mp hnums).1 hlast' load hload) (hlast last hlast')
  refine ⟨fun load hload i hi => ?_, fun load hload hnone n hn => ?_⟩
  · have hmarks := h.marks load (hloads ▸ mem_append_left _ hload) i hi
    rw [hunsent] at hmarks
    exact hmarks.popBack fun tag htag => Nat.lt_of_le_of_lt (hle load hload) (hsquashed tag htag).1
  · refine h.first load (hloads ▸ mem_append_left _ hload) hnone n ?_
    rw [hunsent, map_append]
    exact mem_append_left _ hn

theorem step (hord : q.Ordered) (hload : ∀ seqNum, op = .insertLoad seqNum → ∀ n ∈ q.storeNums, n < seqNum)
    (hstore : ∀ seqNum sc pf, op = .insertStore seqNum sc pf → ∀ n ∈ q.loadNums, n < seqNum)
    (horder : q.WritesBackInOrder q') (hstep : q.Step op q') : q'.LoadsPlaced := by
  have hsame : q' = q → q'.LoadsPlaced := by
    rintro rfl
    exact h
  cases op with
  | insertLoad seqNum =>
    cases hstep
    exact h.insertLoad (hload seqNum rfl)
  | insertStore seqNum sc pf =>
    cases hstep
    exact h.insertStore (hstore seqNum sc pf rfl) sc
  | executeStore store_idx acc =>
    rcases hstep with hq | ⟨pre, tag, post, hunsent, -, -, -, rfl⟩
    · exact hsame hq
    · exact h.of_nums (fun _ => id) rfl (by simp [hunsent, StoreTag.commit])
  | commitLoads youngest_inst =>
    obtain ⟨done, rest, hloads, -, rfl⟩ := hstep
    exact h.of_nums (fun load hload => hloads ▸ mem_append_right _ hload) rfl rfl
  | commitStores youngest_inst =>
    obtain ⟨done, rest, hunsent, rfl⟩ := hstep
    exact h.of_nums (fun _ => id) rfl (by simp only [hunsent, map_append, map_seqNum_commit])
  | writebackStores answers => exact h.moves hstep horder
  | recvRetry answers => exact h.moves hstep horder
  | completeStore store_idx => exact h.moves (.single hstep.1) horder
  | squash squashed_num => exact h.squash hord hstep
  | _ => exact hsame hstep

end LoadsPlaced

end Queues

namespace SQEntry

variable {l : Nat}

/-- What the store writes to an address. -/
def byteAt (entry : SQEntry l) (addr : Addr) : Option (BitVec 8) :=
  match entry.inst with
  | none => none
  | some inst =>
    if inst.effAddr.toNat ≤ addr.toNat ∧ addr.toNat < inst.effAddr.toNat + entry.size.toNat then
      some (if entry.isAllZeros then 0 else entry.data (Fin.ofNat 16 (addr.toNat - inst.effAddr.toNat)))
    else none

/-- The store writes to some of the bytes that are read. -/
def Overlaps (entry : SQEntry l) (req : Request) : Prop :=
  ∃ k < req.size, (entry.byteAt (req.vaddr + BitVec.ofNat 64 k)).isSome = true

/-- The store writes to all of them. -/
def Covers (entry : SQEntry l) (req : Request) : Prop :=
  ∀ k < req.size, (entry.byteAt (req.vaddr + BitVec.ofNat 64 k)).isSome = true

/-- A store that a younger load can depend on: it has data and is not strictly
ordered. -/
def visible (entry : SQEntry l) : Bool := entry.size ≠ 0 && entry.inst.any fun inst => !inst.strictlyOrdered

/-- The address just past the store, with which `read` compares, is below 2^64. -/
def EndFits (entry : SQEntry l) : Prop :=
  ∀ inst, entry.inst = some inst → inst.effAddr.toNat + entry.size.toNat < 2 ^ 64

instance (entry : SQEntry l) (req : Request) : Decidable (entry.Covers req) :=
  inferInstanceAs (Decidable (∀ k < req.size, (entry.byteAt (req.vaddr + BitVec.ofNat 64 k)).isSome = true))

theorem all_iff_endFits (entry : SQEntry l) :
    (entry.inst.all fun inst => inst.effAddr.toNat + entry.size.toNat < 2 ^ 64) = true ↔ entry.EndFits := by
  simp only [Option.all_eq_true, decide_eq_true_eq, EndFits]

instance (entry : SQEntry l) : Decidable entry.EndFits := decidable_of_iff _ entry.all_iff_endFits

variable {entry : SQEntry l} {inst : StoreInst l} {req : Request}

theorem toNat_vaddr_add (hreq : req.vaddr.toNat + req.size < 2 ^ 64) (hk : k ≤ req.size) :
    (req.vaddr + BitVec.ofNat 64 k).toNat = req.vaddr.toNat + k := by
  rw [BitVec.toNat_add, BitVec.toNat_ofNat]
  omega

theorem visible_iff (hinst : entry.inst = some inst) :
    entry.visible = true ↔ entry.size ≠ 0 ∧ inst.strictlyOrdered = false := by
  rw [visible, hinst, Bool.and_eq_true, decide_eq_true_iff, Option.any_some, Bool.not_eq_true']

theorem size_pos (hvisible : entry.visible = true) : 0 < entry.size.toNat := by
  have hne : entry.size ≠ 0 := of_decide_eq_true (Bool.and_eq_true_iff.mp hvisible).1
  exact Nat.pos_of_ne_zero fun hzero => hne (BitVec.eq_of_toNat_eq hzero)

variable (hinst : entry.inst = some inst) (hreq : req.vaddr.toNat + req.size < 2 ^ 64)
include hinst hreq

theorem isSome_byteAt_iff (hk : k < req.size) : (entry.byteAt (req.vaddr + BitVec.ofNat 64 k)).isSome = true ↔
      inst.effAddr.toNat ≤ req.vaddr.toNat + k ∧ req.vaddr.toNat + k < inst.effAddr.toNat + entry.size.toNat := by
  rw [byteAt, hinst, toNat_vaddr_add hreq hk.le]
  split <;> simp_all

variable (hsize : 0 < req.size)
include hsize

theorem overlaps_iff (hvisible : entry.visible = true) : entry.Overlaps req ↔
      inst.effAddr.toNat < req.vaddr.toNat + req.size ∧ req.vaddr.toNat < inst.effAddr.toNat + entry.size.toNat := by
  have hentry := size_pos hvisible
  constructor
  · rintro ⟨k, hk, hsome⟩
    have hbyte := (isSome_byteAt_iff hinst hreq hk).mp hsome
    omega
  · -- The first byte that both have.
    intro hoverlap
    refine ⟨inst.effAddr.toNat - req.vaddr.toNat, by omega, ?_⟩
    rw [isSome_byteAt_iff hinst hreq (by omega)]
    omega

theorem covers_iff : entry.Covers req ↔
      inst.effAddr.toNat ≤ req.vaddr.toNat ∧ req.vaddr.toNat + req.size ≤ inst.effAddr.toNat + entry.size.toNat := by
  constructor
  · intro hcovers
    have hfirst := (isSome_byteAt_iff hinst hreq hsize).mp (hcovers 0 hsize)
    have hlast := (isSome_byteAt_iff hinst hreq (by omega)).mp (hcovers (req.size - 1) (by omega))
    omega
  · intro hcovers k hk
    rw [isSome_byteAt_iff hinst hreq hk]
    omega

end SQEntry

namespace LSQUnit

variable {l m : Nat} {p : LSQParams} {s s' : LSQUnit l m} {q : Queues l m}

section Tests

variable {entry : SQEntry l} {inst : StoreInst l} {req : Request}

variable (hinst : entry.inst = some inst) (hwrap : entry.EndFits)
include hinst hwrap

theorem toNat_store_end :
    (inst.effAddr + entry.size.setWidth 64).toNat = inst.effAddr.toNat + entry.size.toNat := by
  have hend := hwrap inst hinst
  rw [BitVec.toNat_add, BitVec.toNat_setWidth]
  omega

variable (hreq : req.vaddr.toNat + req.size < 2 ^ 64) (hsize : 0 < req.size)
include hreq hsize

theorem canForward_iff :
    canForward req inst.effAddr entry.size = true ↔ entry.Covers req ∧ req.isLLSC = false := by
  rw [SQEntry.covers_iff hinst hreq hsize]
  simp only [canForward, storeHasLowerLimit, storeHasUpperLimit, Bool.and_eq_true, Bool.not_eq_true', decide_eq_true_eq,
    ge_iff_le, BitVec.le_def, SQEntry.toNat_vaddr_add hreq le_rfl, toNat_store_end hinst hwrap]

/-- Without wrapping both partial cases ask for a byte that both accesses have. -/
theorem mismatches_iff (hvisible : entry.visible = true) :
    mismatches req inst.effAddr entry.size = true ↔ entry.Overlaps req := by
  have hentry := SQEntry.size_pos hvisible
  rw [SQEntry.overlaps_iff hinst hreq hsize hvisible]
  simp only [mismatches, storeHasLowerLimit, storeHasUpperLimit, lowerLoadHasStorePart, upperLoadHasStorePart,
    Bool.or_eq_true, Bool.and_eq_true, Bool.not_eq_true', decide_eq_true_eq, ge_iff_le, gt_iff_lt, BitVec.le_def,
    BitVec.lt_def, SQEntry.toNat_vaddr_add hreq le_rfl, toNat_store_end hinst hwrap]
  cases req.isLLSC <;> simp <;> omega

end Tests

/-- The first `n` stores of those that are still to be sent, oldest first. -/
def unsentStores (s : LSQUnit l m) (n : Nat) : List (SQEntry l) :=
  (range n).map fun k => s.storeQueue (advance s.storeWBIdx k)

/-- The stores that a load with the number `seqNum` can depend on, oldest first. -/
def pendingStores (s : LSQUnit l m) (seqNum : InstSeqNum) : List (SQEntry l) :=
  (s.unsentStores (dist s.storeWBIdx s.storeTail)).filter fun entry =>
    entry.visible && entry.inst.any fun inst => inst.seqNum < seqNum

/-- What the end of the walk says of the stores that were walked over. -/
def Finds (s : LSQUnit l m) (req : Request) (stores : List (SQEntry l)) : StoreScan m → Prop
  | .forward store_idx => ∃ older younger, stores = older ++ s.storeQueue store_idx :: younger ∧
    ((s.storeQueue store_idx).Covers req ∧ req.isLLSC = false) ∧ ∀ entry ∈ younger, ¬entry.Overlaps req
  | .mismatch store_idx => ∃ older younger, stores = older ++ s.storeQueue store_idx :: younger ∧
    ((s.storeQueue store_idx).Overlaps req ∧ ¬((s.storeQueue store_idx).Covers req ∧ req.isLLSC = false)) ∧
    ∀ entry ∈ younger, ¬entry.Overlaps req
  | .noMatch => ∀ entry ∈ stores, ¬entry.Overlaps req

variable {req : Request}

/-- A younger store that is passed over. -/
theorem Finds.concat {stores : List (SQEntry l)} {scan : StoreScan m} (h : s.Finds req stores scan)
    {entry : SQEntry l} (hentry : ¬entry.Overlaps req) : s.Finds req (stores ++ [entry]) scan := by
  have hyounger : ∀ younger : List (SQEntry l), (∀ e ∈ younger, ¬e.Overlaps req) →
      ∀ e ∈ younger ++ [entry], ¬e.Overlaps req :=
    fun younger hyounger => forall_mem_append.mpr ⟨hyounger, forall_mem_singleton.mpr hentry⟩
  cases scan with
  | forward store_idx =>
    obtain ⟨older, younger, rfl, hfound, hnone⟩ := h
    exact ⟨older, younger ++ [entry], append_assoc _ _ _, hfound, hyounger younger hnone⟩
  | mismatch store_idx =>
    obtain ⟨older, younger, rfl, hfound, hnone⟩ := h
    exact ⟨older, younger ++ [entry], append_assoc _ _ _, hfound, hyounger younger hnone⟩
  | noMatch => exact hyounger stores h

theorem unsentStores_succ (n : Nat) :
    s.unsentStores (n + 1) = s.unsentStores n ++ [s.storeQueue (advance s.storeWBIdx n)] := by
  rw [unsentStores, range_succ, map_append]
  rfl

section Walk

variable {store_idx prev : Fin (m + 1)} {inst : StoreInst l} (hne : store_idx ≠ s.storeWBIdx)
  (hprev : decrStIdx store_idx = prev) (hinst : (s.storeQueue prev).inst = some inst)
include hne hprev hinst

/-- A store without data and a strictly ordered one are passed over. -/
theorem scanStores_of_not_visible (hvisible : ¬(s.storeQueue prev).visible = true) (fuel : Nat) :
    s.scanStores req (fuel + 1) store_idx = s.scanStores req fuel prev := by
  simp only [scanStores, if_neg hne, hprev, hinst]
  split
  · rfl
  rename_i hdata
  have hordered : inst.strictlyOrdered = true := by
    by_contra hnot
    exact hvisible ((SQEntry.visible_iff hinst).mpr ⟨hdata, Bool.eq_false_iff.mpr hnot⟩)
  rw [if_pos hordered]

/-- At any other store the walk ends, unless the store has no byte of the load. -/
theorem scanStores_of_visible (hreq : req.vaddr.toNat + req.size < 2 ^ 64) (hsize : 0 < req.size)
    (hcompleted : (s.storeQueue prev).completed = false) (hsound : (s.storeQueue prev).Sound)
    (hwrap : (s.storeQueue prev).EndFits) (hvisible : (s.storeQueue prev).visible = true)
    (hrest : ∃ scan, s.scanStores req fuel prev = .ok scan ∧ s.Finds req older scan) :
    ∃ scan, s.scanStores req (fuel + 1) store_idx = .ok scan ∧ s.Finds req (older ++ [s.storeQueue prev]) scan := by
  obtain ⟨hdata, hordered⟩ := (SQEntry.visible_iff hinst).mp hvisible
  have hforwards := canForward_iff hinst hwrap hreq hsize
  have hoverlaps := mismatches_iff hinst hwrap hreq hsize hvisible
  simp only [scanStores, if_neg hne, hprev, hinst, if_neg hdata, hordered, if_neg Bool.false_ne_true,
    Result.require_of_true (hsound inst hinst hdata).1]
  change ∃ scan, (if canForward req inst.effAddr _ then _ else _) = _ ∧ _
  by_cases hforward : canForward req inst.effAddr (s.storeQueue prev).size = true
  · rw [if_pos hforward]
    exact ⟨.forward _, rfl, older, [], rfl, hforwards.mp hforward, fun e he => by cases he⟩
  rw [if_neg hforward]
  by_cases hmismatch : mismatches req inst.effAddr (s.storeQueue prev).size = true
  · rw [if_pos hmismatch, hcompleted]
    exact ⟨.mismatch _, rfl, older, [], rfl, ⟨hoverlaps.mp hmismatch, fun hcovers => hforward (hforwards.mpr hcovers)⟩,
      fun e he => by cases he⟩
  · rw [if_neg hmismatch]
    obtain ⟨scan, hscan, hfinds⟩ := hrest
    exact ⟨scan, hscan, hfinds.concat fun hoverlap => hmismatch (hoverlaps.mpr hoverlap)⟩

end Walk

/-- The walk over the first `n` stores that are still to be sent, from the youngest
one back, returns and ends at the youngest one that has a byte of the load. -/
theorem scanStores_finds (hsize : 0 < req.size) (hreq : req.vaddr.toNat + req.size < 2 ^ 64) (hn : n ≤ m)
    (hopen : ∀ k < n, ∃ inst, (s.storeQueue (advance s.storeWBIdx k)).inst = some inst ∧
      (s.storeQueue (advance s.storeWBIdx k)).completed = false)
    (hsound : ∀ i, (s.storeQueue i).Sound) (hwrap : ∀ entry ∈ (s.unsentStores n).filter SQEntry.visible, entry.EndFits)
    (fuel : Nat) (hfuel : n < fuel) : ∃ scan, s.scanStores req fuel (advance s.storeWBIdx n) = .ok scan ∧
      s.Finds req ((s.unsentStores n).filter SQEntry.visible) scan := by
  induction n generalizing fuel with
  | zero =>
    obtain ⟨fuel, rfl⟩ := Nat.exists_eq_succ_of_ne_zero (Nat.ne_of_gt hfuel)
    refine ⟨.noMatch, ?_, fun entry hentry => by cases hentry⟩
    rw [advance_zero, scanStores, if_pos rfl]
  | succ n ih =>
    obtain ⟨fuel, rfl⟩ := Nat.exists_eq_succ_of_ne_zero (Nat.ne_of_gt (Nat.zero_lt_of_lt hfuel))
    have hne : advance s.storeWBIdx (n + 1) ≠ s.storeWBIdx := by
      intro heq
      have hdist := dist_advance s.storeWBIdx hn
      rw [heq, dist_self] at hdist
      omega
    have hprev : decrStIdx (advance s.storeWBIdx (n + 1)) = advance s.storeWBIdx n := pred_advance_succ _ _
    obtain ⟨inst, hinst, hcompleted⟩ := hopen n (Nat.lt_succ_self n)
    rw [unsentStores_succ, filter_append] at hwrap ⊢
    have hrest := ih (by omega) (fun k hk => hopen k (by omega))
      (fun entry hentry => hwrap entry (mem_append_left _ hentry)) fuel (by omega)
    by_cases hvisible : (s.storeQueue (advance s.storeWBIdx n)).visible = true
    · rw [filter_singleton, hvisible] at hwrap ⊢
      exact scanStores_of_visible hne hprev hinst hreq hsize hcompleted (hsound _)
        (hwrap _ (mem_append_right _ (mem_singleton_self _))) hvisible hrest
    · rw [filter_singleton, Bool.eq_false_iff.mpr hvisible, scanStores_of_not_visible hne hprev hinst hvisible]
      exact (append_nil _).symm ▸ hrest

section

variable (h : s.Represents s.storeWBIdx q)
include h

/-- The store at a place of those that are still to be sent. -/
theorem Represents.unsent_get (hk : q.unsent[k]? = some tag) :
    ∃ inst, (s.storeQueue (advance s.storeWBIdx k)).inst = some inst ∧ inst.seqNum = tag.seqNum ∧
      (s.storeQueue (advance s.storeWBIdx k)).completed = false := by
  obtain ⟨hlt, -⟩ := List.getElem?_eq_some_iff.mp hk
  have hlength := h.stores.length_le
  rw [length_append] at hlength
  have hslot : advance s.storeWBIdx k = advance q.storeHead (q.sent.length + k) := by rw [h.stores.wb, advance_advance]
  have hdist : dist q.storeHead (advance s.storeWBIdx k) = q.sent.length + k := by
    rw [hslot, dist_advance _ (by omega)]
  obtain ⟨tag', htag', hget⟩ := h.stores.get (i := advance s.storeWBIdx k) (by
    rw [hdist, h.stores.dist_tail, length_append]
    omega)
  rw [hdist, getElem?_append_right (by omega), Nat.add_sub_cancel_left, hk] at hget
  cases hget
  have hcompleted := h.unsent_open tag (mem_of_getElem? hk)
  obtain ⟨inst, hinst, rfl⟩ := SQEntry.tag_eq_some_iff.mp htag'
  exact ⟨inst, hinst, rfl, hcompleted⟩

theorem Represents.dist_unsent : dist s.storeWBIdx s.storeTail = q.unsent.length := by
  have hlength := h.stores.length_le
  rw [length_append] at hlength
  have htail : s.storeTail = advance s.storeWBIdx q.unsent.length := by
    rw [h.stores.tail, h.stores.wb, advance_advance, length_append]
  rw [htail, dist_advance _ (by omega)]

/-- The pending stores are those before the place of the load. -/
theorem Represents.pendingStores_eq {older younger : List (StoreTag l)}
    (hunsent : q.unsent = older ++ younger) (holder : ∀ tag ∈ older, tag.seqNum < seqNum)
    (hyounger : ∀ tag ∈ younger, seqNum < tag.seqNum) :
    s.pendingStores seqNum = (s.unsentStores older.length).filter SQEntry.visible := by
  have hsplit : s.unsentStores q.unsent.length = s.unsentStores older.length ++
      (range younger.length).map fun k => s.storeQueue (advance s.storeWBIdx (older.length + k)) := by
    rw [hunsent, length_append, unsentStores, range_add, map_append, map_map]
    rfl
  have hfirst : ∀ entry ∈ s.unsentStores older.length,
      (entry.visible && entry.inst.any fun inst => inst.seqNum < seqNum) = entry.visible := by
    intro entry hentry
    obtain ⟨k, hk, rfl⟩ := mem_map.mp hentry
    have hlt := mem_range.mp hk
    have hget : q.unsent[k]? = some older[k] := by
      rw [hunsent, getElem?_append_left hlt, getElem?_eq_getElem hlt]
    obtain ⟨inst, hinst, hnum, -⟩ := h.unsent_get hget
    have hold := holder _ (getElem_mem hlt)
    rw [← hnum] at hold
    rw [hinst, Option.any_some, decide_eq_true hold, Bool.and_true]
  have hrest : ∀ entry ∈ (range younger.length).map fun k => s.storeQueue (advance s.storeWBIdx (older.length + k)),
      ¬(entry.visible && entry.inst.any fun inst => inst.seqNum < seqNum) = true := by
    intro entry hentry
    obtain ⟨k, hk, rfl⟩ := mem_map.mp hentry
    have hlt := mem_range.mp hk
    have hget : q.unsent[older.length + k]? = some younger[k] := by
      rw [hunsent, getElem?_append_right (by omega), Nat.add_sub_cancel_left, getElem?_eq_getElem hlt]
    obtain ⟨inst, hinst, hnum, -⟩ := h.unsent_get hget
    have hyoung := hyounger _ (getElem_mem hlt)
    rw [← hnum] at hyoung
    rw [hinst, Option.any_some, decide_eq_false (Nat.not_lt.mpr (Nat.le_of_lt hyoung)), Bool.and_false]
    exact Bool.false_ne_true
  rw [pendingStores, h.dist_unsent, hsplit, filter_append, filter_congr hfirst, filter_eq_nil_iff.mpr hrest,
    append_nil]

/-- The walk of a load over the older stores. -/
theorem Represents.olderStore_finds (hplaced : q.LoadsPlaced)
    {load : LoadTag l m} (hload : load ∈ q.loads) (hsize : 0 < req.size)
    (hreq : req.vaddr.toNat + req.size < 2 ^ 64) (hwrap : ∀ entry ∈ s.pendingStores load.seqNum, entry.EndFits) :
    ∃ scan, s.olderStore req load.sqIdx = .ok scan ∧ s.Finds req (s.pendingStores load.seqNum) scan := by
  cases hsqIdx : load.sqIdx with
  | none =>
    have hall : ∀ tag ∈ q.unsent, load.seqNum < tag.seqNum :=
      fun tag htag => hplaced.first load hload hsqIdx _ (mem_map_of_mem htag)
    have hpending : s.pendingStores load.seqNum = [] :=
      h.pendingStores_eq (nil_append _).symm (fun _ htag => (by cases htag)) hall
    refine ⟨.noMatch, rfl, fun entry hentry => ?_⟩
    rw [hpending] at hentry
    cases hentry
  | some i =>
    obtain ⟨older, younger, hunsent, hi, holder, hyounger⟩ := hplaced.marks load hload i hsqIdx
    have hlength := h.stores.length_le
    rw [length_append, hunsent, length_append] at hlength
    have hwb : q.storeWBIdx = s.storeWBIdx := h.stores.wb.symm
    rw [h.pendingStores_eq hunsent holder hyounger] at hwrap ⊢
    rw [hi, hwb]
    refine scanStores_finds hsize hreq (by omega) (fun k hk => ?_) h.stores.sound hwrap (m + 2) (by omega)
    have hget : q.unsent[k]? = some older[k] := by
      rw [hunsent, getElem?_append_left hk, getElem?_eq_getElem hk]
    obtain ⟨inst, hinst, -, hcompleted⟩ := h.unsent_get hget
    exact ⟨inst, hinst, hcompleted⟩

end

/-- The bytes that a request reads from a memory. -/
def readBytes (memory : Addr → BitVec 8) (req : Request) : List (BitVec 8) :=
  (range req.size).map fun k => memory (req.vaddr + BitVec.ofNat 64 k)

/-- What the outcome of a read says of the stores that the load can depend on. -/
def ReadsStores (s : LSQUnit l m) (seqNum : InstSeqNum) (req : Request) (s' : LSQUnit l m) : ReadResult → Prop
  | .forwarded memData =>
    ∀ memory, memData = readBytes (Overlay.writeAll SQEntry.byteAt memory (s.pendingStores seqNum)) req
  | .memory _ => ∀ entry ∈ s.pendingStores seqNum, ¬entry.Overlaps req
  | .rescheduled => (∃ older entry younger, s.pendingStores seqNum = older ++ entry :: younger ∧ entry.Overlaps req ∧
    (∀ other ∈ younger, ¬other.Overlaps req) ∧ (¬entry.Covers req ∨ req.isLLSC = true)) ∧
    s'.iewCalls = .rescheduleMemInst seqNum :: s.iewCalls
  | .strictlyOrdered | .mmappedIpr => False

/-- A store that has all of the load's bytes gives them. -/
theorem storeBytes_covers (hinst : entry.inst = some inst) (hsound : entry.Sound) (hvisible : entry.visible = true)
    (hsize : 0 < req.size) (hreq : req.vaddr.toNat + req.size < 2 ^ 64) (hcovers : entry.Covers req) :
    storeBytes entry (req.vaddr - inst.effAddr).toNat req.size =
      .ok ((range req.size).map fun k => (entry.byteAt (req.vaddr + BitVec.ofNat 64 k)).getD 0) := by
  obtain ⟨hlower, hupper⟩ := (SQEntry.covers_iff hinst hreq hsize).mp hcovers
  have hshift : (req.vaddr - inst.effAddr).toNat = req.vaddr.toNat - inst.effAddr.toNat :=
    BitVec.toNat_sub_of_le (BitVec.le_def.mpr hlower)
  have hbyte : ∀ k < req.size, (entry.byteAt (req.vaddr + BitVec.ofNat 64 k)).getD 0 =
      if entry.isAllZeros then 0 else entry.data (Fin.ofNat 16 (req.vaddr.toNat + k - inst.effAddr.toNat)) := by
    intro k hk
    rw [SQEntry.byteAt, hinst, SQEntry.toNat_vaddr_add hreq hk.le]
    simp only
    rw [if_pos ⟨by omega, by omega⟩, Option.getD_some]
  unfold storeBytes
  by_cases hzeros : entry.isAllZeros = true
  · rw [if_pos hzeros, map_congr_left fun k hk => (hbyte k (mem_range.mp hk)).trans (if_pos hzeros)]
    rw [map_const', length_range]
  rw [if_neg hzeros]
  apply Table.mapM_list_of_forall
  intro k hk
  have hk := mem_range.mp hk
  have hfits := (hsound inst hinst ((SQEntry.visible_iff hinst).mp hvisible).1).2 (Bool.eq_false_iff.mpr hzeros)
  have hlt : (req.vaddr - inst.effAddr).toNat + k < 16 := by omega
  rw [dif_pos hlt, hbyte k hk, if_neg hzeros]
  congr 2
  apply Fin.ext
  rw [Fin.val_ofNat]
  simp only
  omega

/-- The load that has to wait can be looked up. -/
theorem stallLoad_returns (h : s.Stalls) (load_idx : Fin (l + 1)) (seqNum storeIsn : InstSeqNum) :
    ∃ s', s.stallLoad load_idx seqNum storeIsn = .ok s' ∧ s'.iewCalls = s.iewCalls := by
  unfold stallLoad
  split
  · exact ⟨_, rfl, rfl⟩
  rename_i hstalled
  obtain ⟨other, hother⟩ := Option.isSome_iff_exists.mp (h (by simpa using hstalled))
  rw [hother]
  simp only
  split
  · exact ⟨_, rfl, rfl⟩
  · exact ⟨s, rfl, rfl⟩

/-- What follows the walk returns, and its outcome is right if the walk was. -/
theorem finishRead_returns (hstalls : s.Stalls) (hsound : ∀ i, (s.storeQueue i).Sound) (load_idx : Fin (l + 1))
    (hsize : 0 < req.size) (hreq : req.vaddr.toNat + req.size < 2 ^ 64)
    (hscan : s.Finds req (s.pendingStores load.tag.seqNum) scan) (answers : List Bool) :
    ∃ result s', s.finishRead req load_idx load answers scan = .ok (result, s') ∧
      s.ReadsStores load.tag.seqNum req s' result := by
  have hpending : ∀ entry ∈ s.pendingStores load.tag.seqNum, entry.visible = true ∧ ∃ inst, entry.inst = some inst := by
    intro entry hentry
    obtain ⟨hvisible, hany⟩ := Bool.and_eq_true_iff.mp (mem_filter.mp hentry).2
    obtain ⟨inst, hinst, -⟩ := (Option.any_eq_true _ _).mp hany
    exact ⟨hvisible, inst, hinst⟩
  cases scan with
  | forward store_idx =>
    obtain ⟨older, younger, hstores, ⟨hcovers, -⟩, hyounger⟩ := hscan
    obtain ⟨hvisible, inst, hinst⟩ := hpending (s.storeQueue store_idx) (by simp [hstores])
    have hbytes := storeBytes_covers hinst (hsound store_idx) hvisible hsize hreq hcovers
    have hfinish : s.finishRead req load_idx load answers (.forward store_idx) =
        .ok (.forwarded ((range req.size).map fun k =>
          ((s.storeQueue store_idx).byteAt (req.vaddr + BitVec.ofNat 64 k)).getD 0),
        s.setLoad load_idx (some { load with memData := true })) := by
      simp only [finishRead, hinst, hbytes]
      rfl
    refine ⟨_, _, hfinish, fun memory => map_congr_left fun k hk => ?_⟩
    have hk := mem_range.mp hk
    obtain ⟨byte, hbyte⟩ := Option.isSome_iff_exists.mp (hcovers k hk)
    rw [hstores, Overlay.writeAll_of_some hbyte, hbyte, Option.getD_some]
    intro other hother
    by_contra hne
    exact hyounger other hother ⟨k, hk, Option.isSome_iff_ne_none.mpr hne⟩
  | mismatch store_idx =>
    obtain ⟨older, younger, hstores, ⟨hoverlaps, hpartial⟩, hyounger⟩ := hscan
    obtain ⟨-, inst, hinst⟩ := hpending (s.storeQueue store_idx) (by simp [hstores])
    obtain ⟨s₁, hstall, hcalls⟩ := stallLoad_returns hstalls load_idx load.tag.seqNum inst.seqNum
    refine ⟨.rescheduled, s₁.call (.rescheduleMemInst load.tag.seqNum), ?_,
      ⟨older, _, younger, hstores, hoverlaps, hyounger, ?_⟩, ?_⟩
    · simp only [finishRead, hinst, hstall]
      rfl
    · by_cases hcovers : (s.storeQueue store_idx).Covers req
      · exact .inr (by simpa [hcovers] using hpartial)
      · exact .inl hcovers
    · rw [← hcalls]
      rfl
  | noMatch => exact ⟨.memory _, _, rfl, hscan⟩

/-- A load that is neither strictly ordered nor to a memory-mapped register. -/
theorem read_returns (h : s.Represents s.storeWBIdx q) (hplaced : q.LoadsPlaced) (hstalls : s.Stalls)
    (hload : s.loadQueue load_idx = some load) (hexecuted : load.isExecuted = false)
    (hordered : req.isStrictlyOrdered = false) (hsplit : (req.isLLSC && req.split) = false)
    (hipr : req.isMmappedIpr = false) (hsize : 0 < req.size) (hreq : req.vaddr.toNat + req.size < 2 ^ 64)
    (hwrap : ∀ entry ∈ s.pendingStores load.tag.seqNum, entry.EndFits) (isAtCommit : Bool) (answers : List Bool) :
    ∃ result s', s.read req load_idx isAtCommit answers = .ok (result, s') ∧
      s.ReadsStores load.tag.seqNum req s' result := by
  obtain ⟨pre, post, hloads, -⟩ := h.loads.split hload
  obtain ⟨scan, hscan, hfinds⟩ := h.olderStore_finds hplaced (hloads ▸ by simp) hsize hreq hwrap
  obtain ⟨result, s', hfinish, hright⟩ := finishRead_returns hstalls h.stores.sound load_idx hsize hreq hfinds answers
  refine ⟨result, s', ?_, hright⟩
  simp only [read, hload, hexecuted, hordered, hsplit, hipr, hscan]
  exact hfinish

/-- The stores that a call sends, between the places of the next one before and
after it, are older than the loads of the queue. -/
def WritesBackInOrder (p : LSQParams) (s : LSQUnit l m) (op : Op l m) : Prop :=
  ∀ answer s', s.step p op = .ok (answer, s') → ∀ i inst j load,
    dist s.storeWBIdx i < dist s.storeWBIdx s'.storeWBIdx → (s.storeQueue i).inst = some inst →
      s.loadQueue j = some load → inst.seqNum < load.tag.seqNum

theorem Represents.writesBackInOrder (h : s.Represents s.storeWBIdx q) (h' : s'.Represents s'.storeWBIdx q')
    (hstep : s.step p op = .ok (answer, s')) (horder : s.WritesBackInOrder p op) : q.WritesBackInOrder q' := by
  intro gone hunsent hwb tag htag load hload
  have hlength := h.stores.length_le
  rw [length_append, hunsent, length_append] at hlength
  have hdist : dist s.storeWBIdx s'.storeWBIdx = gone.length := by
    have hq : q.storeWBIdx = s.storeWBIdx := h.stores.wb.symm
    have hq' : q'.storeWBIdx = s'.storeWBIdx := h'.stores.wb.symm
    rw [← hq', hwb, hq, dist_advance _ (by omega)]
  obtain ⟨k, hk, rfl⟩ := getElem_of_mem htag
  have hget : q.unsent[k]? = some gone[k] := by
    rw [hunsent, getElem?_append_left hk, getElem?_eq_getElem hk]
  obtain ⟨inst, hinst, hnum, -⟩ := h.unsent_get hget
  obtain ⟨pre, post, hloads⟩ := append_of_mem hload
  have hhold := h.loads
  rw [hloads] at hhold
  obtain ⟨other, hother, rfl⟩ := hhold.middle
  rw [← hnum]
  exact horder answer s' hstep _ inst _ other (by rw [dist_advance _ (by omega), hdist]; exact hk) hinst hother

theorem Tracks.loadsPlaced (h : Tracks p s q) (hplaced : q.LoadsPlaced) (hstalls : s.Stalls)
    (hop : s.Orderly op ∧ s.KeepsWaiting op ∧ s.WritesBackInOrder p op) (hstep : s.step p op = .ok (answer, s')) :
    ∃ q', Tracks p s' q' ∧ q'.LoadsPlaced ∧ s'.Stalls := by
  obtain ⟨q', hq, hq', hstalls'⟩ := h.step hop.1 hstep
  refine ⟨q', hq', hplaced.step h.ordered ?_ ?_ (h.represents.writesBackInOrder hq'.represents hstep hop.2.2) hq,
    hstalls' hstalls hop.2.1⟩
  · rintro seqNum rfl
    exact (h.represents.younger hop.1.2).2
  · rintro seqNum sc pf rfl
    exact (h.represents.younger hop.1.2).1

/-- In every state between the calls, with a load that may just have been given its
address, the read returns and follows the stores that the load depends on. -/
theorem run_read_follows_stores {ops : List (Op l m)} {answers : List Answer}
    (hrun : (machine p l m).run (construct l m) ops = .ok (answers, s))
    (hops : (machine p l m).StepsAll (fun s op => s.Orderly op ∧ s.KeepsWaiting op ∧ s.WritesBackInOrder p op)
      (construct l m) ops) {load_idx : Fin (l + 1)} {before load : LoadInst l m}
    (hbefore : s.loadQueue load_idx = some before) (htag : load.tag = before.tag) (hexecuted : load.isExecuted = false)
    {req : Request} (hordered : req.isStrictlyOrdered = false) (hsplit : (req.isLLSC && req.split) = false)
    (hipr : req.isMmappedIpr = false) (hsize : 0 < req.size) (hreq : req.vaddr.toNat + req.size < 2 ^ 64)
    (hwrap : ∀ entry ∈ s.pendingStores load.tag.seqNum, entry.EndFits) (isAtCommit : Bool) (cache : List Bool) :
    ∃ result s', (s.setLoad load_idx (some load)).read req load_idx isAtCommit cache = .ok (result, s') ∧
      s.ReadsStores load.tag.seqNum req s' result := by
  obtain ⟨q, hq, hplaced, hstalls⟩ := Machine.run_invariant (I := fun s => ∃ q, Tracks p s q ∧ q.LoadsPlaced ∧ s.Stalls)
    (fun s op answer s' hs hop hstep => by
      obtain ⟨q, hq, hplaced, hstalls⟩ := hs
      exact hq.loadsPlaced hplaced hstalls hop hstep)
    ⟨.empty, .construct p l m, .empty, fun h => (by cases h)⟩ hops hrun
  have hquiet : Quiet s (s.setLoad load_idx (some load)) := .setLoad hbefore htag
  have hload : (s.setLoad load_idx (some load)).loadQueue load_idx = some load := by
    rw [loadQueue_setLoad, Function.update_self]
  have hrepresents : (s.setLoad load_idx (some load)).Represents (s.setLoad load_idx (some load)).storeWBIdx q :=
    hq.represents.same hquiet.loads hquiet.stores
  exact read_returns hrepresents hplaced
    (hquiet.loads.stalls hstalls) hload hexecuted hordered hsplit hipr hsize hreq hwrap
    isAtCommit cache

/-- A load takes four bytes from the middle of an older store. -/
theorem run_read_follows_stores_forward : ∃ answers s load result s', (machine defaultParams 2 2).run (construct 2 2)
    [.insertStore 1 false false, .executeStore 0 (eightBytes 0x1000), .insertLoad 2] = .ok (answers, s) ∧
    s.loadQueue 0 = some load ∧
    (s.setLoad 0 (some load)).read ⟨0x1002, 4, false, false, false, false, false⟩ 0 false [] = .ok (result, s') ∧
    s.ReadsStores 2 ⟨0x1002, 4, false, false, false, false, false⟩ s' result := by
  obtain ⟨answers, s, load, hrun, hload⟩ : ∃ answers s load, (machine defaultParams 2 2).run (construct 2 2)
      [.insertStore 1 false false, .executeStore 0 (eightBytes 0x1000), .insertLoad 2] = .ok (answers, s) ∧
      s.loadQueue 0 = some load := ⟨_, _, _, rfl, rfl⟩
  have hops : (machine defaultParams 2 2).StepsAll
      (fun s op => s.Orderly op ∧ s.KeepsWaiting op ∧ s.WritesBackInOrder defaultParams op) (construct 2 2)
      [.insertStore 1 false false, .executeStore 0 (eightBytes 0x1000), .insertLoad 2] := by
    refine ⟨⟨⟨rfl, .of_all (by decide) (by decide)⟩, trivial, ?_⟩, fun answer s h => ?_⟩
    · intro answer s h i inst j load hi
      cases h
      exact absurd hi (Nat.not_lt_zero _)
    cases h
    refine ⟨⟨⟨by decide, fun inst hinst hsc => ?_⟩, trivial, ?_⟩, fun answer s h => ?_⟩
    · cases hinst
      cases hsc
    · intro answer s h i inst j load hi
      cases h
      exact absurd hi (Nat.not_lt_zero _)
    cases h
    refine ⟨⟨⟨rfl, .of_all (by decide) (by decide)⟩, trivial, ?_⟩, fun _ _ _ => trivial⟩
    intro answer s h i inst j load hi
    cases h
    exact absurd hi (Nat.not_lt_zero _)
  have hfacts : load.tag.seqNum = 2 ∧ load.isExecuted = false := by
    cases hrun
    cases hload
    exact ⟨rfl, rfl⟩
  have hwrap : ∀ entry ∈ s.pendingStores load.tag.seqNum, entry.EndFits := by
    rw [hfacts.1]
    cases hrun
    decide
  have hordered : (⟨0x1002, 4, false, false, false, false, false⟩ : Request).isStrictlyOrdered = false := rfl
  obtain ⟨result, s', hread, hright⟩ :=
    run_read_follows_stores hrun hops hload rfl hfacts.2 hordered rfl rfl (by decide) (by decide) hwrap false []
  rw [hfacts.1] at hright
  exact ⟨answers, s, load, result, s', hrun, hload, hread, hright⟩

/-- A load of a memory-mapped register neither takes the bytes of the older store to
its address, nor is it rescheduled. -/
theorem run_read_mmappedIpr : ∃ answers s s' entry, (machine defaultParams 2 2).run (construct 2 2)
    [.insertStore 1 false false, .executeStore 0 (eightBytes 0x1000), .insertLoad 2] = .ok (answers, s) ∧
    s.read ⟨0x1000, 8, false, false, true, false, false⟩ 0 false [] = .ok (.mmappedIpr, s') ∧ s'.iewCalls = [] ∧
    entry ∈ s.pendingStores 2 ∧ entry.Covers ⟨0x1000, 8, false, false, true, false, false⟩ := by
  refine ⟨_, _, _, _, rfl, rfl, rfl, mem_cons_self, ?_⟩
  decide

end LSQUnit

end Gem5.O3
