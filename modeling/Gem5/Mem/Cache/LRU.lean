import Gem5.Lib.Recency
import Gem5.Lib.Run
import Gem5.Mem.Cache.Blk

open Lib Result

namespace Gem5

/-- A tag store of sets of blocks with LRU replacement. A block is named by its set
and its way; `sets` has, for each set, the ways in the order of its array
`blks`. -/
structure LRU where
  assoc : Nat
  allocAssoc : Nat
  numSets : Nat
  setShift : Nat
  tagShift : Nat
  setMask : Unsigned
  lookupLatency : Nat
  accessLatency : Nat
  maxMasters : Nat
  sets : Nat → List Nat
  blks : Nat → Nat → CacheBlk

namespace LRU

/-- The parameters of the tag store, and the number of masters of the system. -/
structure Params where
  size : Addr
  block_size : Unsigned
  assoc : Unsigned
  tag_latency : Nat
  data_latency : Nat
  sequential_access : Bool
  maxMasters : Nat

/-- `p->size / (p->block_size * p->assoc)`. -/
def Params.numSets (p : Params) : Unsigned :=
  (p.size / (p.block_size.setWidth 64 * p.assoc.setWidth 64)).setWidth 32

def construct (p : Params) : Except String LRU := do
  fatalIf (p.block_size < 4 || !isPowerOf2 p.block_size) "Block size must be at least 4 and a power of 2"
  fatalIf (p.numSets ≤ 0 || !isPowerOf2 p.numSets) "# of sets must be non-zero and a power of 2"
  fatalIf (p.assoc ≤ 0) "associativity must be greater than zero"
  let setShift := floorLog2 p.block_size
  .ok
    { assoc := p.assoc.toNat
      allocAssoc := p.assoc.toNat
      numSets := p.numSets.toNat
      setShift := setShift
      tagShift := setShift + floorLog2 p.numSets
      setMask := p.numSets - 1
      lookupLatency := p.tag_latency
      accessLatency := if p.sequential_access then p.tag_latency + p.data_latency else max p.tag_latency p.data_latency
      maxMasters := p.maxMasters
      sets := fun _ => List.range p.assoc.toNat
      blks := fun _ j => { CacheBlk.construct.invalidate with tag := BitVec.ofNat 64 j } }

variable (t : LRU)

def extractTag (addr : Addr) : Addr := addr >>> t.tagShift

def extractSet (addr : Addr) : Nat := (addr >>> t.setShift &&& t.setMask.setWidth 64).toNat

/-- Changing the order of a set. -/
def setOrder (set : Nat) (order : List Nat) : LRU :=
  { t with sets := fun i => if i = set then order else t.sets i }

/-- Changing a block through a pointer to it. -/
def modifyBlk (set way : Nat) (f : CacheBlk → CacheBlk) : LRU :=
  { t with blks := fun i j => if i = set ∧ j = way then f (t.blks i j) else t.blks i j }

/-- `sets[set].findBlk(tag, is_secure)`. -/
def findBlk (set : Nat) (tag : Addr) (is_secure : Bool) : Option Nat :=
  (t.sets set).find? fun way =>
    (t.blks set way).tag == tag && (t.blks set way).isValid && (t.blks set way).isSecure == is_secure

/-- `sets[set].moveToHead(blk)`. -/
def moveToHead (t : LRU) (set way : Nat) : Result LRU := do
  let order ← Recency.moveToHead way (t.sets set)
  .ok (t.setOrder set order)

/-- `sets[set].moveToTail(blk)`. -/
def moveToTail (t : LRU) (set way : Nat) : Result LRU := do
  let order ← Recency.moveToTail way (t.sets set)
  .ok (t.setOrder set order)

/-- `accessBlock`, with the latency that is its output argument. -/
def accessBlock (ticksToCycles : Nat → Nat) (addr : Addr) (is_secure : Bool) (curTick : Nat) :
    Result (Option Nat × Nat × LRU) :=
  let set := t.extractSet addr
  match t.findBlk set (t.extractTag addr) is_secure with
  | none => .ok (none, t.lookupLatency, t)
  | some way => do
    let lat := (t.blks set way).hitLatency ticksToCycles t.accessLatency curTick
    let t ← (t.modifyBlk set way fun blk => { blk with refCount := blk.refCount + 1 }).moveToHead set way
    .ok (some way, lat, t)

def findVictim (addr : Addr) : Option Nat :=
  (t.sets (t.extractSet addr)).reverse.find? fun way => way < t.allocAssoc

/-- `BaseSetAssoc::insertBlock`, on the block. -/
def insert (blk : CacheBlk) (tag : Addr) (master_id : Nat) : CacheBlk :=
  let blk := if blk.isValid then { blk with refCount := 0 }.invalidate else blk
  { blk with isTouched := true, tag := tag, srcMasterId := master_id }

def insertBlock (addr : Addr) (master_id : Nat) (way : Nat) : Result LRU := do
  let set := t.extractSet addr
  require (!(t.blks set way).isValid || (t.blks set way).srcMasterId < t.maxMasters)
  require (master_id < t.maxMasters)
  (t.modifyBlk set way fun blk => insert blk (t.extractTag addr) master_id).moveToHead set way

/-- `allocateBlock`, `insertBlock` and the marking of the block, as the cache does
them in a row for a fill. -/
def fill (addr : Addr) (is_secure : Bool) (master_id : Nat) (status : Unsigned) : Result (Option Nat × LRU) :=
  match t.findVictim addr with
  | none => .ok (none, t)
  | some way => do
    let set := t.extractSet addr
    let t ← t.insertBlock addr master_id way
    .ok (some way, t.modifyBlk set way fun blk => blk.markValid is_secure status)

/-- `Cache::invalidateBlock` on a block of the tag store, which starts with
`LRU::invalidate`. -/
def invalidateBlock (set way : Nat) : Result LRU :=
  if set < t.numSets ∧ way < t.assoc then do
    require (t.blks set way).isValid
    require ((t.blks set way).srcMasterId < t.maxMasters)
    let t ← (t.modifyBlk set way fun blk => { blk with srcMasterId := CacheBlk.invldMasterId }).moveToTail set way
    .ok (t.modifyBlk set way CacheBlk.invalidate)
  else .error .dangling

def setWayAllocationMax (ways : Nat) : Result LRU :=
  if ways < 1 then .error .assertion else .ok { t with allocAssoc := ways }

/-- The calls of the cache on its tag store. -/
inductive Call where
  | accessBlock (addr : Addr) (is_secure : Bool) (curTick : Nat)
  | findVictim (addr : Addr)
  | fill (addr : Addr) (is_secure : Bool) (master_id : Nat) (status : Unsigned)
  | invalidateBlock (set way : Nat)
  | setWayAllocationMax (ways : Nat)
  deriving DecidableEq, Repr

/-- The tag store serving calls. The answer is the way of the block returned. -/
def machine (ticksToCycles : Nat → Nat) : Machine LRU Call (Option Nat) where
  step t
    | .accessBlock addr is_secure curTick =>
      (t.accessBlock ticksToCycles addr is_secure curTick).map fun answer => (answer.1, answer.2.2)
    | .findVictim addr => .ok (t.findVictim addr, t)
    | .fill addr is_secure master_id status => t.fill addr is_secure master_id status
    | .invalidateBlock set way => (t.invalidateBlock set way).map (none, ·)
    | .setWayAllocationMax ways => (t.setWayAllocationMax ways).map (none, ·)

/-- A step of a run: the state before, the call and the answer. -/
abbrev Entry : Type := LRU × Call × Option Nat

/-- The block that a step accesses or fills. -/
def Entry.uses : Entry → Option (Nat × Nat)
  | (t, .accessBlock addr .., answer) => answer.map (t.extractSet addr, ·)
  | (t, .fill addr .., answer) => answer.map (t.extractSet addr, ·)
  | _ => none

/-- When the block was last accessed or filled, counting the steps of a run from 1;
0 if it has not been used. The log has the newest step first. -/
def lastUse : List Entry → Nat × Nat → Nat
  | [], _ => 0
  | entry :: log, blk => if entry.uses = some blk then log.length + 1 else lastUse log blk

def Valid (set way : Nat) : Prop := (t.blks set way).isValid = true

instance (t : LRU) (set way : Nat) : Decidable (t.Valid set way) := inferInstanceAs (Decidable (_ = true))

/-- The array of each set is a permutation of its blocks, with the valid ones first
and those in the order of their last use. -/
structure Ordered (t : LRU) (log : List Entry) : Prop where
  perm : ∀ set, (t.sets set).Perm (List.range t.assoc)
  ordered : ∀ set, Recency.Ordered (t.Valid set) (fun way => lastUse log (set, way)) (t.sets set)
  alloc_pos : 1 ≤ t.allocAssoc
  assoc_pos : 1 ≤ t.assoc

variable {t t' : LRU} {log : List Entry} {set way : Nat} {ticksToCycles : Nat → Nat}

theorem lastUse_le (log : List Entry) (blk : Nat × Nat) : lastUse log blk ≤ log.length := by
  induction log with
  | nil => exact Nat.le_refl 0
  | cons entry log ih =>
    unfold lastUse
    split
    · exact Nat.le_refl _
    · exact Nat.le_succ_of_le ih

theorem sets_setOrder_self (t : LRU) (set : Nat) (order : List Nat) : (t.setOrder set order).sets set = order :=
  if_pos rfl

theorem sets_setOrder_of_ne (h : other ≠ set) (order : List Nat) : (t.setOrder set order).sets other = t.sets other :=
  if_neg h

theorem Ordered.nodup (h : t.Ordered log) (set : Nat) : (t.sets set).Nodup :=
  (h.perm set).nodup_iff.mpr List.nodup_range

theorem Ordered.construct (h : LRU.construct p = .ok t) : t.Ordered [] := by
  obtain ⟨-, -, _, -, -, hassoc, hdone⟩ := bind_ok₃ h
  cases hdone
  have hpos : 1 ≤ p.assoc.toNat := by
    have hne := fatalIf_eq_ok_iff.mp hassoc
    rw [decide_eq_false_iff_not, BitVec.le_def] at hne
    exact Nat.not_le.mp hne
  refine ⟨fun set => .refl _, fun set => ?_, hpos, hpos⟩
  refine List.Pairwise.imp (fun {way other} _ hvalid => ?_) (List.nodup_range (n := p.assoc.toNat))
  simp [Valid, CacheBlk.isValid, CacheBlk.invalidate] at hvalid

/-- A step that moves no block and changes no validity. -/
theorem Ordered.skip (h : t.Ordered log) (hentry : entry.uses = none) (hsets : t'.sets = t.sets)
    (hassoc : t'.assoc = t.assoc) (halloc : 1 ≤ t'.allocAssoc) (hblks : t'.blks = t.blks) :
    t'.Ordered (entry :: log) := by
  refine ⟨fun set => ?_, fun set => ?_, halloc, hassoc ▸ h.assoc_pos⟩
  · rw [hsets, hassoc]
    exact h.perm set
  · rw [hsets]
    refine (h.ordered set).congr (fun way _ => ?_) fun way _ => ?_
    · rw [Valid, hblks, Valid]
    · rw [lastUse, hentry, if_neg (by simp)]

/-- A use moves the block to the head of its set. -/
theorem Ordered.use (h : t.Ordered log) (hentry : entry.uses = some (set, way)) (hway : way < t.assoc)
    (hset : t'.sets set = way :: (t.sets set).erase way) (hsets : ∀ other, other ≠ set → t'.sets other = t.sets other)
    (hassoc : t'.assoc = t.assoc) (halloc : t'.allocAssoc = t.allocAssoc) (hvalid : t'.Valid set way)
    (hblks : ∀ i j, (i, j) ≠ (set, way) → (t'.Valid i j ↔ t.Valid i j)) : t'.Ordered (entry :: log) := by
  have hlast : lastUse (entry :: log) (set, way) = log.length + 1 := by rw [lastUse, if_pos hentry]
  have hother : ∀ i j, (i, j) ≠ (set, way) → lastUse (entry :: log) (i, j) = lastUse log (i, j) := by
    intro i j hne
    rw [lastUse, hentry, if_neg fun heq => hne (Option.some.inj heq).symm]
  have hmem : way ∈ t.sets set := (h.perm set).mem_iff.mpr (List.mem_range.mpr hway)
  refine ⟨fun i => ?_, fun i => ?_, halloc ▸ h.alloc_pos, hassoc ▸ h.assoc_pos⟩
  · rw [hassoc]
    by_cases hi : i = set
    · rw [hi, hset]
      exact (List.perm_cons_erase hmem).symm.trans (h.perm set)
    · rw [hsets i hi]
      exact h.perm i
  · by_cases hi : i = set
    · subst hi
      rw [hset]
      refine (h.ordered i).moveToHead (h.nodup i) (fun j hne => hblks i j (by simpa using hne))
        (fun j hne => hother i j (by simpa using hne)) hvalid fun j hne => ?_
      rw [hlast]
      exact Nat.lt_succ_of_le (lastUse_le log (i, j))
    · rw [hsets i hi]
      refine (h.ordered i).congr (fun j _ => hblks i j (by simp [hi])) fun j _ => hother i j (by simp [hi])

/-- An invalidation moves the block to the tail of its set. -/
theorem Ordered.invalidated (h : t.Ordered log) (hentry : entry.uses = none) (hway : way < t.assoc)
    (hset : t'.sets set = (t.sets set).erase way ++ [way])
    (hsets : ∀ other, other ≠ set → t'.sets other = t.sets other) (hassoc : t'.assoc = t.assoc)
    (halloc : t'.allocAssoc = t.allocAssoc) (hvalid : ¬ t'.Valid set way)
    (hblks : ∀ i j, (i, j) ≠ (set, way) → (t'.Valid i j ↔ t.Valid i j)) : t'.Ordered (entry :: log) := by
  have hsame : ∀ blk, lastUse (entry :: log) blk = lastUse log blk := by
    intro blk
    rw [lastUse, hentry, if_neg (by simp)]
  have hmem : way ∈ t.sets set := (h.perm set).mem_iff.mpr (List.mem_range.mpr hway)
  refine ⟨fun i => ?_, fun i => ?_, halloc ▸ h.alloc_pos, hassoc ▸ h.assoc_pos⟩
  · rw [hassoc]
    by_cases hi : i = set
    · rw [hi, hset]
      exact (List.perm_append_singleton way _).trans ((List.perm_cons_erase hmem).symm.trans (h.perm set))
    · rw [hsets i hi]
      exact h.perm i
  · by_cases hi : i = set
    · subst hi
      rw [hset]
      exact (h.ordered i).moveToTail (h.nodup i) (fun j hne => hblks i j (by simpa using hne))
        (fun j _ => hsame (i, j)) hvalid
    · rw [hsets i hi]
      exact (h.ordered i).congr (fun j _ => hblks i j (by simp [hi])) fun j _ => hsame (i, j)

theorem moveToHead_spec (hmem : way ∈ t.sets set) :
    t.moveToHead set way = .ok (t.setOrder set (way :: (t.sets set).erase way)) := by
  rw [moveToHead, bind_of_ok (Recency.moveToHead_of_mem hmem)]

theorem moveToTail_spec (hmem : way ∈ t.sets set) (hnodup : (t.sets set).Nodup) :
    t.moveToTail set way = .ok (t.setOrder set ((t.sets set).erase way ++ [way])) := by
  rw [moveToTail, bind_of_ok (Recency.moveToTail_of_mem hmem hnodup)]

theorem blks_modifyBlk_self (t : LRU) (set way : Nat) (f : CacheBlk → CacheBlk) :
    (t.modifyBlk set way f).blks set way = f (t.blks set way) := if_pos ⟨rfl, rfl⟩

theorem blks_modifyBlk_of_ne (h : (i, j) ≠ (set, way)) (f : CacheBlk → CacheBlk) :
    (t.modifyBlk set way f).blks i j = t.blks i j := if_neg (by simpa using h)

theorem valid_modifyBlk_of_ne (h : (i, j) ≠ (set, way)) (f : CacheBlk → CacheBlk) :
    (t.modifyBlk set way f).Valid i j ↔ t.Valid i j := by
  rw [Valid, blks_modifyBlk_of_ne h, Valid]

/-- A block that is found is a valid block of the set. -/
theorem findBlk_eq_some (h : t.findBlk set tag is_secure = some way) : way ∈ t.sets set ∧ t.Valid set way := by
  obtain ⟨hfound, -⟩ := List.find?_eq_some_iff_append.mp h
  simp only [Bool.and_eq_true] at hfound
  exact ⟨List.mem_of_find?_eq_some h, hfound.1.2⟩

theorem valid_setOrder (order : List Nat) : (t.setOrder set order).Valid i j ↔ t.Valid i j := Iff.rfl

theorem valid_modifyBlk_self (f : CacheBlk → CacheBlk) :
    (t.modifyBlk set way f).Valid set way ↔ (f (t.blks set way)).isValid = true := by
  rw [Valid, blks_modifyBlk_self]

section

variable (h : t.Ordered log)
include h

theorem Ordered.accessBlock (haccess : t.accessBlock ticksToCycles addr is_secure curTick = .ok (answer, lat, t')) :
    t'.Ordered ((t, .accessBlock addr is_secure curTick, answer) :: log) := by
  unfold LRU.accessBlock at haccess
  cases hfind : t.findBlk (t.extractSet addr) (t.extractTag addr) is_secure with
  | none =>
    simp only [hfind] at haccess
    cases haccess
    exact h.skip rfl rfl rfl h.alloc_pos rfl
  | some way =>
    simp only [hfind] at haccess
    obtain ⟨hmem, hvalid⟩ := findBlk_eq_some hfind
    have hmodified : way ∈ (t.modifyBlk (t.extractSet addr) way fun blk =>
      { blk with refCount := blk.refCount + 1 }).sets (t.extractSet addr) := hmem
    rw [bind_of_ok (moveToHead_spec hmodified)] at haccess
    cases haccess
    refine h.use rfl (List.mem_range.mp ((h.perm _).mem_iff.mp hmem)) (sets_setOrder_self _ _ _)
      (fun other hne => sets_setOrder_of_ne hne _) rfl rfl ?_ fun i j hne => ?_
    · rw [valid_setOrder, valid_modifyBlk_self]
      exact hvalid
    · rw [valid_setOrder, valid_modifyBlk_of_ne hne]

/-- A victim is always found, and is the block of the allowed ways to replace. -/
theorem Ordered.findVictim (addr : Addr) : ∃ way, t.findVictim addr = some way ∧ way < t.assoc ∧ way < t.allocAssoc ∧
      ∀ other, other < t.assoc → other < t.allocAssoc → other ≠ way → t.Valid (t.extractSet addr) way →
        t.Valid (t.extractSet addr) other ∧
          lastUse log (t.extractSet addr, way) < lastUse log (t.extractSet addr, other) := by
  have hperm := h.perm (t.extractSet addr)
  cases hfind : t.findVictim addr with
  | none =>
    have hzero : 0 ∈ (t.sets (t.extractSet addr)).reverse :=
      List.mem_reverse.mpr (hperm.mem_iff.mpr (List.mem_range.mpr h.assoc_pos))
    have hnot := List.find?_eq_none.mp hfind 0 hzero
    exact absurd (decide_eq_true h.alloc_pos) hnot
  | some way =>
    have hmem := hperm.mem_iff.mp (List.mem_reverse.mp (List.mem_of_find?_eq_some hfind))
    have halloc : way < t.allocAssoc := by
      unfold LRU.findVictim at hfind
      simpa using List.find?_some hfind
    refine ⟨way, rfl, List.mem_range.mp hmem, halloc, ?_⟩
    intro other hother halloc hne hvalid
    exact (h.ordered _).victim hfind other (hperm.mem_iff.mpr (List.mem_range.mpr hother))
      (decide_eq_true halloc) hne hvalid

theorem Ordered.fill (hfill : t.fill addr is_secure master_id status = .ok (answer, t')) :
    t'.Ordered ((t, .fill addr is_secure master_id status, answer) :: log) := by
  obtain ⟨way, hvictim, hway, -⟩ := h.findVictim addr
  rw [LRU.fill, hvictim] at hfill
  obtain ⟨inserted, hinsert, hdone⟩ := bind_ok hfill
  obtain ⟨-, -, -, -, hinsert⟩ := bind_ok₂ hinsert
  have hmem : way ∈ (t.modifyBlk (t.extractSet addr) way fun blk => insert blk (t.extractTag addr) master_id).sets
      (t.extractSet addr) := (h.perm _).mem_iff.mpr (List.mem_range.mpr hway)
  rw [moveToHead_spec hmem] at hinsert
  cases hinsert
  cases hdone
  refine h.use rfl hway (sets_setOrder_self _ _ _)
    (fun other hne => sets_setOrder_of_ne hne _) rfl rfl ?_ fun i j hne => ?_
  · rw [valid_modifyBlk_self]
    exact CacheBlk.isValid_markValid _ _ _
  · rw [valid_modifyBlk_of_ne hne, valid_setOrder, valid_modifyBlk_of_ne hne]

theorem Ordered.invalidateBlock (hinvalidate : t.invalidateBlock set way = .ok t')
    (answer : Option Nat) : t'.Ordered ((t, .invalidateBlock set way, answer) :: log) := by
  unfold LRU.invalidateBlock at hinvalidate
  split at hinvalidate
  · rename_i hblk
    obtain ⟨-, -, -, -, hinvalidate⟩ := bind_ok₂ hinvalidate
    have hmem : way ∈ (t.modifyBlk set way fun blk => { blk with srcMasterId := CacheBlk.invldMasterId }).sets set :=
      (h.perm _).mem_iff.mpr (List.mem_range.mpr hblk.2)
    rw [bind_of_ok (moveToTail_spec hmem (h.nodup set))] at hinvalidate
    cases hinvalidate
    refine h.invalidated rfl hblk.2 (sets_setOrder_self _ _ _) (fun other hne => sets_setOrder_of_ne hne _) rfl rfl ?_
      fun i j hne => ?_
    · rw [valid_modifyBlk_self, CacheBlk.isValid_invalidate]
      decide
    · rw [valid_modifyBlk_of_ne hne, valid_setOrder, valid_modifyBlk_of_ne hne]
  · cases hinvalidate

theorem Ordered.step (hstep : (machine ticksToCycles).step t call = .ok (answer, t')) :
    t'.Ordered ((t, call, answer) :: log) := by
  cases call with
  | accessBlock addr is_secure curTick =>
    obtain ⟨⟨found, lat, after⟩, haccess, heq⟩ := map_ok hstep
    cases heq
    exact h.accessBlock haccess
  | findVictim addr =>
    cases hstep
    exact h.skip rfl rfl rfl h.alloc_pos rfl
  | fill addr is_secure master_id status => exact h.fill hstep
  | invalidateBlock set way =>
    obtain ⟨after, hinvalidate, heq⟩ := map_ok hstep
    cases heq
    exact h.invalidateBlock hinvalidate none
  | setWayAllocationMax ways =>
    obtain ⟨after, hset, heq⟩ := map_ok hstep
    cases heq
    unfold LRU.setWayAllocationMax at hset
    split at hset
    · cases hset
    · cases hset
      exact h.skip rfl rfl rfl (Nat.not_lt.mp ‹_›) rfl

end

/-- In every state that is reached the array of each set is a permutation of its
blocks, with the valid ones before the others and in the order of their last
use. A victim is an invalid block of the ways that may be allocated, if there is
one, and otherwise the least recently used block of them. -/
theorem run_recency {p : Params} {start : LRU} (hstart : construct p = .ok start) {calls : List Call}
    {answers : List (Option Nat)}
    (hrun : (machine ticksToCycles).logged.run (start, []) calls = .ok (answers, (t, log))) :
    (∀ set, (t.sets set).Perm (List.range t.assoc) ∧
      (t.sets set).Pairwise (fun way other => t.Valid set other → t.Valid set way) ∧
      (t.sets set).Pairwise (fun way other => t.Valid set way → t.Valid set other →
        lastUse log (set, other) < lastUse log (set, way))) ∧
    ∀ addr, ∃ way, t.findVictim addr = some way ∧ way < t.assoc ∧ way < t.allocAssoc ∧
      ((∃ other, other < t.assoc ∧ other < t.allocAssoc ∧ ¬ t.Valid (t.extractSet addr) other) →
        ¬ t.Valid (t.extractSet addr) way) ∧
      ((∀ other, other < t.assoc → other < t.allocAssoc → t.Valid (t.extractSet addr) other) →
        ∀ other, other < t.assoc → other < t.allocAssoc → other ≠ way →
          lastUse log (t.extractSet addr, way) < lastUse log (t.extractSet addr, other)) := by
  have h : t.Ordered log := Machine.run_invariant (G := fun _ _ => True) (I := fun s => s.1.Ordered s.2)
    (fun s c o s' hI _ hstep => by
      obtain ⟨t', hcall, rfl⟩ := Machine.logged_step_eq_ok_iff.mp hstep
      exact hI.step hcall) (.construct hstart) (Machine.stepsAll_of_forall _ (fun _ _ => trivial) _ _) hrun
  refine ⟨fun set => ⟨h.perm set, ?_, ?_⟩, fun addr => ?_⟩
  · exact (h.ordered set).imp fun hbefore hvalid => (hbefore hvalid).1
  · exact (h.ordered set).imp fun hbefore _ hvalid => (hbefore hvalid).2
  · obtain ⟨way, hvictim, hway, halloc, hleast⟩ := h.findVictim addr
    refine ⟨way, hvictim, hway, halloc, ?_, ?_⟩
    · rintro ⟨other, hother, hallowed, hinvalid⟩ hvalid
      by_cases heq : other = way
      · exact hinvalid (heq ▸ hvalid)
      · exact hinvalid (hleast other hother hallowed heq hvalid).1
    · intro hall other hother hallowed hne
      exact (hleast other hother hallowed hne (hall way hway halloc)).2

/-- Two sets of two blocks of 64 bytes. -/
def smallParams : Params := ⟨256, 64, 2, 1, 1, false, 1⟩

/-- Both blocks of a set are filled and the first is accessed: the second is the
victim. -/
theorem run_recency_small : ∃ start answers t log, construct smallParams = .ok start ∧
      (machine id).logged.run (start, [])
        [.fill 0x1000 false 0 0, .fill 0x2000 false 0 0, .accessBlock 0x1000 false 5] =
        .ok (answers, (t, log)) ∧
      t.findVictim 0x3000 = some 0 ∧ t.sets 0 = [1, 0] ∧ lastUse log (0, 0) < lastUse log (0, 1) := by
  refine ⟨?start, ?answers, ?t, ?log, ?construct, ?run, ?victim, ?order,
    have hrecent := ((run_recency ?construct ?run).1 0).2.2; ?recent⟩
  case construct | run | victim | order => rfl
  exact List.rel_of_pairwise_cons hrecent (.head _) (by decide) (by decide)

end LRU

end Gem5
