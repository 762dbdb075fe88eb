import Gem5.O3.MemDepUnit.Model
import Mathlib.Data.List.Pairwise

open Lib Result Function List

namespace Gem5.O3

namespace MemInst

/-- Dispatch inserts as a barrier what is neither a load nor a store. -/
def isBarrier (inst : MemInst) : Bool := !inst.isLoad && !inst.isStore

/-- Memory barriers block loads and stores, write barriers only stores. -/
def blocksLoads (inst : MemInst) : Bool := inst.isMemBarrier

def blocksStores (inst : MemInst) : Bool := inst.isMemBarrier || inst.isWriteBarrier

/-- `barrier` is a barrier that `inst` must not pass. -/
def blocks (barrier inst : MemInst) : Bool :=
  inst.isLoad && barrier.blocksLoads || inst.isStore && barrier.blocksStores

end MemInst

namespace MemDepUnit

variable {P : Type} (s : MemDepUnit P)

/-- The barriers of the list, newest first. -/
def barriers : List MemInst := s.instList.filter MemInst.isBarrier

/-- The entry of `inst` is a dependent of the entry of `producer`. -/
def Depends (inst producer : MemInst) : Prop :=
  ∃ inst_entry ∈ s.memDepHash inst.seqNum, ∃ producer_entry ∈ s.memDepHash producer.seqNum,
    ∃ entry ∈ s.entries.cell producer_entry, inst_entry ∈ entry.dependInsts

instance (s : MemDepUnit P) (inst producer : MemInst) : Decidable (s.Depends inst producer) :=
  inferInstanceAs (Decidable (∃ inst_entry ∈ s.memDepHash inst.seqNum, _))

/-- The barriers in flight after a call. -/
def Op.inFlight : Op → List MemInst → List MemInst
  | .insertBarrier barr_inst, barriers => barr_inst :: barriers
  | .completeBarrier inst, barriers => barriers.filter fun b => b.seqNum ≠ inst.seqNum
  | .squash squashed_num, barriers => barriers.filter fun b => b.seqNum ≤ squashed_num
  | _, barriers => barriers

/-- The barriers that the calls insert and neither complete nor squash. -/
def inFlight (ops : List Op) : List MemInst := ops.foldl (fun barriers op => op.inFlight barriers) []

/-- Instructions are inserted in program order and complete while they are in
the list; loads and stores are not inserted or completed as barriers. -/
def ProgramOrder : Op → Prop
  | .insert inst | .insertNonSpec inst =>
    inst.isBarrier = false ∧ 0 < inst.seqNum ∧ ∀ older ∈ s.instList, older.seqNum < inst.seqNum
  | .insertBarrier barr_inst =>
    barr_inst.isBarrier = true ∧ 0 < barr_inst.seqNum ∧ ∀ older ∈ s.instList, older.seqNum < barr_inst.seqNum
  | .completed inst => inst ∈ s.instList ∧ inst.isBarrier = false
  | .completeBarrier inst => inst ∈ s.instList ∧ inst.isBarrier = true
  | _ => True

/-- The newest barrier of the kind is kept, or none is left. -/
def KeepsNewest (kind : MemInst → Bool) (before after : List MemInst) : Prop :=
  ∀ newest ∈ before, kind newest → (∀ b ∈ before, kind b → b.seqNum ≤ newest.seqNum) →
    newest ∈ after ∨ ∀ b ∈ after, kind b = false

/-- No call takes away the newest barrier that blocks loads, or the newest that
blocks stores, and leaves an older one; and what is both a load and a store
is not inserted after a write barrier that follows a memory barrier. -/
def KeepsBarriers (op : Op) : Prop :=
  KeepsNewest MemInst.blocksLoads s.barriers (op.inFlight s.barriers) ∧
    KeepsNewest MemInst.blocksStores s.barriers (op.inFlight s.barriers) ∧
    match op with
    | .insert inst => inst.isLoad → inst.isStore → ∀ older ∈ s.barriers, older.blocksLoads →
        ∀ b ∈ s.barriers, b.blocksStores → ∃ newer ∈ s.barriers, newer.blocksLoads ∧ b.seqNum ≤ newer.seqNum
    | _ => True

/-! ### The list and the hash map -/

/-- The hash map holds the entries of the list, which is in program order. -/
structure WellFormed (s : MemDepUnit P) : Prop where
  sorted : s.instList.Pairwise fun newer older => older.seqNum < newer.seqNum
  pos : ∀ inst ∈ s.instList, 0 < inst.seqNum
  hashed : ∀ sn, (s.memDepHash sn).isSome ↔ ∃ inst ∈ s.instList, inst.seqNum = sn
  live : ∀ sn entry, s.memDepHash sn = some entry → entry < s.entries.next ∧ (s.entries.cell entry).isSome

/-- What no call but the insertions and the removals changes. -/
structure Alike (s s' : MemDepUnit P) : Prop where
  instList : s'.instList = s.instList
  memDepHash : s'.memDepHash = s.memDepHash
  next : s'.entries.next = s.entries.next
  live : ∀ entry, (s'.entries.cell entry).isSome = (s.entries.cell entry).isSome
  loadBarrier : s'.loadBarrier = s.loadBarrier
  loadBarrierSN : s'.loadBarrierSN = s.loadBarrierSN
  storeBarrier : s'.storeBarrier = s.storeBarrier
  storeBarrierSN : s'.storeBarrierSN = s.storeBarrierSN

theorem Alike.refl : Alike s s :=
  ⟨rfl, rfl, rfl, fun _ => rfl, rfl, rfl, rfl, rfl⟩

variable {s}

theorem Alike.trans {s₁ s₂ s₃ : MemDepUnit P} (h : Alike s₁ s₂) (h' : Alike s₂ s₃) : Alike s₁ s₃ where
  instList := h'.instList.trans h.instList
  memDepHash := h'.memDepHash.trans h.memDepHash
  next := h'.next.trans h.next
  live entry := (h'.live entry).trans (h.live entry)
  loadBarrier := h'.loadBarrier.trans h.loadBarrier
  loadBarrierSN := h'.loadBarrierSN.trans h.loadBarrierSN
  storeBarrier := h'.storeBarrier.trans h.storeBarrier
  storeBarrierSN := h'.storeBarrierSN.trans h.storeBarrierSN

theorem Alike.modifyEntry (s : MemDepUnit P) (entry : Nat) (f : MemDepEntry → MemDepEntry) :
    Alike s (s.modifyEntry entry f) :=
  ⟨rfl, rfl, rfl, fun other => s.entries.isSome_cell_modify entry other f, rfl, rfl, rfl, rfl⟩

theorem Alike.depPred (s : MemDepUnit P) (p : P) : Alike s { s with depPred := p } :=
  ⟨rfl, rfl, rfl, fun _ => rfl, rfl, rfl, rfl, rfl⟩

theorem Alike.instsToReplay (s : MemDepUnit P) (insts : List MemInst) : Alike s { s with instsToReplay := insts } :=
  ⟨rfl, rfl, rfl, fun _ => rfl, rfl, rfl, rfl, rfl⟩

variable {s' : MemDepUnit P}

theorem Alike.barriers (h : Alike s s') : s'.barriers = s.barriers := by
  rw [MemDepUnit.barriers, h.instList]
  rfl

theorem Alike.wellFormed (h : Alike s s') (hs : s.WellFormed) : s'.WellFormed := by
  constructor
  · rw [h.instList]
    exact hs.sorted
  · rw [h.instList]
    exact hs.pos
  · rw [h.instList, h.memDepHash]
    exact hs.hashed
  · intro sn entry hfind
    rw [h.memDepHash] at hfind
    rw [h.next, h.live]
    exact hs.live sn entry hfind

theorem WellFormed.construct (p : P) : (construct p).WellFormed where
  sorted := .nil
  pos _ h := by cases h
  hashed sn := by simp [MemDepUnit.construct]
  live sn entry h := by cases h

variable {inst : MemInst}

/-- A new instruction has no entry yet. -/
theorem WellFormed.hash_eq_none (hs : s.WellFormed) (horder : ∀ older ∈ s.instList, older.seqNum < inst.seqNum) :
    s.memDepHash inst.seqNum = none := by
  rw [← Option.not_isSome_iff_eq_none, hs.hashed]
  rintro ⟨other, hmem, heq⟩
  exact absurd heq (Nat.ne_of_lt (horder other hmem))

theorem WellFormed.newEntry (hs : s.WellFormed) (hpos : 0 < inst.seqNum)
    (horder : ∀ older ∈ s.instList, older.seqNum < inst.seqNum) : (s.newEntry inst).WellFormed := by
  have hnone := hs.hash_eq_none horder
  constructor
  · exact pairwise_cons.mpr ⟨horder, hs.sorted⟩
  · exact forall_mem_cons.mpr ⟨hpos, hs.pos⟩
  · intro sn
    by_cases hsn : sn = inst.seqNum
    · simp [MemDepUnit.newEntry, hnone, hsn]
    · simp [MemDepUnit.newEntry, hnone, hs.hashed, update_of_ne hsn, Ne.symm hsn]
  · intro sn entry hfind
    simp only [MemDepUnit.newEntry, hnone, Option.isSome_none, Bool.false_eq_true, if_false] at hfind
    by_cases hsn : sn = inst.seqNum
    · rw [hsn, update_self, Option.some.injEq] at hfind
      rw [← hfind]
      exact ⟨Nat.lt_succ_self _, by rw [MemDepUnit.newEntry, Heap.cell_alloc_self]; rfl⟩
    rw [update_of_ne hsn] at hfind
    obtain ⟨hlt, hlive⟩ := hs.live sn entry hfind
    refine ⟨Nat.lt_succ_of_lt hlt, ?_⟩
    rw [MemDepUnit.newEntry, Heap.alloc]
    simpa [Nat.ne_of_lt hlt] using hlive

/-- The unit without the instructions whose sequence numbers are not kept. -/
def remove (s : MemDepUnit P) (keep : InstSeqNum → Bool) : MemDepUnit P :=
  { s with
    instList := s.instList.filter fun inst => keep inst.seqNum
    memDepHash := fun sn => if keep sn then s.memDepHash sn else none
    loadBarrier := s.loadBarrier && keep s.loadBarrierSN
    storeBarrier := s.storeBarrier && keep s.storeBarrierSN }

theorem WellFormed.remove (hs : s.WellFormed) (keep : InstSeqNum → Bool) : (s.remove keep).WellFormed := by
  constructor
  · exact hs.sorted.filter _
  · intro inst hmem
    exact hs.pos inst (mem_of_mem_filter hmem)
  · intro sn
    simp only [MemDepUnit.remove, mem_filter]
    by_cases hkeep : keep sn
    · simp only [hkeep, if_true, hs.hashed]
      constructor
      · rintro ⟨inst, hmem, rfl⟩
        exact ⟨inst, ⟨hmem, hkeep⟩, rfl⟩
      · rintro ⟨inst, ⟨hmem, -⟩, rfl⟩
        exact ⟨inst, hmem, rfl⟩
    · simp only [hkeep, Bool.false_eq_true, if_false, Option.isSome_none, false_iff]
      rintro ⟨inst, ⟨-, hkept⟩, rfl⟩
      exact hkeep hkept
  · intro sn entry hfind
    simp only [MemDepUnit.remove] at hfind
    split at hfind
    · exact hs.live sn entry hfind
    · cases hfind

theorem barriers_remove (s : MemDepUnit P) (keep : InstSeqNum → Bool) :
    (s.remove keep).barriers = s.barriers.filter fun b => keep b.seqNum := by
  simp only [barriers, remove, filter_filter]
  congr 1
  funext b
  exact Bool.and_comm _ _

/-! ### The barriers remembered -/

/-- The flag and the sequence number are those of the newest of the barriers. -/
structure Remembers (flag : Bool) (sn : InstSeqNum) (kind : MemInst → Bool) (barriers : List MemInst) : Prop where
  found : flag = true → ∃ b ∈ barriers, kind b ∧ b.seqNum = sn
  newest : ∀ b ∈ barriers, kind b → flag = true ∧ b.seqNum ≤ sn

variable {sn : InstSeqNum} {kind : MemInst → Bool} {barriers : List MemInst}

theorem Remembers.push (h : Remembers flag sn kind barriers) (hkind : kind b = false) :
    Remembers flag sn kind (b :: barriers) := by
  constructor
  · intro hflag
    obtain ⟨found, hmem, hfound⟩ := h.found hflag
    exact ⟨found, mem_cons_of_mem b hmem, hfound⟩
  · refine forall_mem_cons.mpr ⟨fun hother => ?_, h.newest⟩
    rw [hkind] at hother
    cases hother

theorem Remembers.pushNewest (hkind : kind b) (horder : ∀ older ∈ barriers, older.seqNum < b.seqNum) :
    Remembers true b.seqNum kind (b :: barriers) := by
  constructor
  · intro
    exact ⟨b, mem_cons_self, hkind, rfl⟩
  · exact forall_mem_cons.mpr
      ⟨fun _ => ⟨rfl, Nat.le_refl _⟩, fun other hmem _ => ⟨rfl, Nat.le_of_lt (horder other hmem)⟩⟩

theorem Remembers.filter (h : Remembers flag sn kind barriers) {keep : InstSeqNum → Bool}
    (hkeeps : KeepsNewest kind barriers (barriers.filter fun b => keep b.seqNum)) :
    Remembers (flag && keep sn) sn kind (barriers.filter fun b => keep b.seqNum) := by
  constructor
  · intro hflag
    obtain ⟨hflag, hkeep⟩ := Bool.and_eq_true_iff.mp hflag
    obtain ⟨found, hmem, hkind, rfl⟩ := h.found hflag
    exact ⟨found, mem_filter.mpr ⟨hmem, hkeep⟩, hkind, rfl⟩
  · intro b hmem hkind
    obtain ⟨hflag, hle⟩ := h.newest b (mem_of_mem_filter hmem) hkind
    obtain ⟨found, hfound, hfoundkind, rfl⟩ := h.found hflag
    refine ⟨?_, hle⟩
    -- A barrier of the kind is left, so the newest one, `found`, is kept.
    cases hkeeps found hfound hfoundkind fun b hmem hkind => (h.newest b hmem hkind).2 with
    | inl hkept => rw [hflag, (mem_filter.mp hkept).2, Bool.and_self]
    | inr hnone =>
      rw [hnone b hmem] at hkind
      cases hkind

/-- The unit remembers the newest barrier of each kind. -/
structure Guarded (s : MemDepUnit P) : Prop where
  loads : Remembers s.loadBarrier s.loadBarrierSN MemInst.blocksLoads s.barriers
  stores : Remembers s.storeBarrier s.storeBarrierSN MemInst.blocksStores s.barriers

theorem Guarded.of_barriers (hbarriers : s.barriers = barriers)
    (hloads : Remembers s.loadBarrier s.loadBarrierSN MemInst.blocksLoads barriers)
    (hstores : Remembers s.storeBarrier s.storeBarrierSN MemInst.blocksStores barriers) : s.Guarded := by
  subst hbarriers
  exact ⟨hloads, hstores⟩

theorem Guarded.construct (p : P) : (construct p).Guarded := by
  have hnone : ∀ kind, Remembers false 0 kind [] := by
    intro kind
    constructor
    · intro h
      cases h
    · intro b hmem
      cases hmem
  exact ⟨hnone _, hnone _⟩

theorem Alike.guarded (h : Alike s s') (hs : s.Guarded) : s'.Guarded := by
  constructor
  · rw [h.loadBarrier, h.loadBarrierSN, h.barriers]
    exact hs.loads
  · rw [h.storeBarrier, h.storeBarrierSN, h.barriers]
    exact hs.stores

theorem barriers_newEntry (s : MemDepUnit P) (h : inst.isBarrier = false) :
    (s.newEntry inst).barriers = s.barriers := by
  simp [barriers, newEntry, h]

theorem Guarded.newEntry (hs : s.Guarded) (h : inst.isBarrier = false) : (s.newEntry inst).Guarded :=
  .of_barriers (s.barriers_newEntry h) hs.loads hs.stores

variable {barr_inst : MemInst}

theorem barriers_insertBarrier (s : MemDepUnit P) (h : barr_inst.isBarrier) :
    (s.insertBarrier barr_inst).barriers = barr_inst :: s.barriers := by
  rw [barriers, insertBarrier]
  split
  · simp [MemDepUnit.newEntry, barriers, h]
  · split <;> simp [MemDepUnit.newEntry, barriers, h]

theorem Guarded.insertBarrier (hs : s.Guarded) (h : barr_inst.isBarrier)
    (horder : ∀ older ∈ s.instList, older.seqNum < barr_inst.seqNum) : (s.insertBarrier barr_inst).Guarded := by
  have hbarriers := s.barriers_insertBarrier h
  have hnewest : ∀ older ∈ s.barriers, older.seqNum < barr_inst.seqNum := fun older hmem =>
    horder older (mem_of_mem_filter hmem)
  rw [MemDepUnit.insertBarrier] at hbarriers ⊢
  by_cases hmem : barr_inst.isMemBarrier
  · simp only [hmem, if_true] at hbarriers ⊢
    exact .of_barriers hbarriers (.pushNewest hmem hnewest)
      (.pushNewest (by simp [MemInst.blocksStores, hmem]) hnewest)
  · have hloads : barr_inst.blocksLoads = false := by simpa [MemInst.blocksLoads] using hmem
    by_cases hwrite : barr_inst.isWriteBarrier
    · simp only [hmem, hwrite, if_true, Bool.false_eq_true, if_false] at hbarriers ⊢
      exact .of_barriers hbarriers (hs.loads.push hloads)
        (.pushNewest (by simp [MemInst.blocksStores, hwrite]) hnewest)
    · simp only [hmem, hwrite, Bool.false_eq_true, if_false] at hbarriers ⊢
      exact .of_barriers hbarriers (hs.loads.push hloads)
        (hs.stores.push (by simp [MemInst.blocksStores, hmem, hwrite]))

theorem WellFormed.insertBarrier (hs : s.WellFormed) (hpos : 0 < barr_inst.seqNum)
    (horder : ∀ older ∈ s.instList, older.seqNum < barr_inst.seqNum) : (s.insertBarrier barr_inst).WellFormed := by
  have hnew := hs.newEntry hpos horder
  rw [MemDepUnit.insertBarrier]
  -- The flags are not part of the invariant.
  split
  · exact { hnew with }
  · split
    · exact { hnew with }
    · exact hnew

theorem Guarded.remove (hs : s.Guarded) {keep : InstSeqNum → Bool}
    (hloads : KeepsNewest MemInst.blocksLoads s.barriers (s.barriers.filter fun b => keep b.seqNum))
    (hstores : KeepsNewest MemInst.blocksStores s.barriers (s.barriers.filter fun b => keep b.seqNum)) :
    (s.remove keep).Guarded :=
  .of_barriers (s.barriers_remove keep) (hs.loads.filter hloads) (hs.stores.filter hstores)

/-! ### What each call does -/

variable {pred : MemDepPred P}

theorem insertInPredictor_alike (h : insertInPredictor pred s inst = .ok s') : Alike s s' := by
  rw [insertInPredictor] at h
  split at h
  · cases h
    exact .depPred s _
  split at h
  · cases h
    exact .refl s
  · cases h

variable {effects : List MemDepEffect}

theorem insert_alike (h : insert pred s inst = .ok (effects, s')) : Alike (s.newEntry inst) s' := by
  simp only [insert] at h
  split at h
  · split at h
    · obtain ⟨_, last, -, hlast, hdone⟩ := bind_ok₂ h
      cases hdone
      exact ((Alike.modifyEntry _ _ _).trans (.modifyEntry _ _ _)).trans (insertInPredictor_alike hlast)
    · obtain ⟨last, hlast, hdone⟩ := bind_ok h
      cases hdone
      exact (Alike.modifyEntry _ _ _).trans (insertInPredictor_alike hlast)
  · obtain ⟨last, hlast, hdone⟩ := bind_ok h
    cases hdone
    exact ((Alike.modifyEntry _ _ _).trans (.modifyEntry _ _ _)).trans (insertInPredictor_alike hlast)

theorem regsReady_alike (h : s.regsReady inst = .ok (effects, s')) : Alike s s' := by
  obtain ⟨inst_entry, entry, -, -, h⟩ := bind_ok₂ h
  split at h
  · obtain ⟨_, -, hdone⟩ := bind_ok h
    cases hdone
    exact .modifyEntry s _ _
  · cases h
    exact .modifyEntry s _ _

theorem wake_alike (h : s.wake woken_inst = .ok (effects, s')) : Alike s s' := by
  obtain ⟨entry, -, h⟩ := bind_ok h
  split at h
  · obtain ⟨_, -, hdone⟩ := bind_ok h
    cases hdone
    exact .refl s
  · cases h
    exact .modifyEntry s _ _

theorem wakeAll_alike (h : wakeAll woken s = .ok (effects, s')) : Alike s s' := by
  induction woken generalizing s effects with
  | nil =>
    cases h
    exact .refl _
  | cons woken_inst rest ih =>
    obtain ⟨⟨first, next⟩, ⟨later, last⟩, hfirst, hrest, hdone⟩ := bind_ok₂ h
    cases hdone
    exact (wake_alike hfirst).trans (ih hrest)

theorem wakeDependents_alike (h : s.wakeDependents inst = .ok (effects, s')) : Alike s s' := by
  rw [wakeDependents] at h
  split at h
  · cases h
    exact .refl s
  obtain ⟨inst_entry, entry, ⟨all, next⟩, -, -, hall, hdone⟩ := bind_ok₃ h
  cases hdone
  exact (wakeAll_alike hall).trans (.modifyEntry _ _ _)

theorem WellFormed.eq_of_seqNum_eq (hs : s.WellFormed) (ha : a ∈ s.instList) (hb : b ∈ s.instList)
    (h : a.seqNum = b.seqNum) : a = b := by
  have hne : s.instList.Pairwise fun a b => a.seqNum ≠ b.seqNum := hs.sorted.imp fun hlt => Nat.ne_of_gt hlt
  have : Std.Symm fun a b : MemInst => a.seqNum ≠ b.seqNum := ⟨fun _ _ hne => Ne.symm hne⟩
  by_contra hab
  exact hne.forall ha hb hab h

/-- The barrier that is remembered is another one, unless it is of the kind. -/
theorem Remembers.ne_of_not_kind (hs : s.WellFormed) (h : Remembers flag sn kind s.barriers)
    (hmem : inst ∈ s.instList) (hkind : (inst.isBarrier && kind inst) = false) :
    (flag && decide (sn ≠ inst.seqNum)) = flag := by
  cases hflag : flag with
  | false => rfl
  | true =>
    obtain ⟨found, hfound, hfoundkind, rfl⟩ := h.found hflag
    obtain ⟨hlisted, hbarrier⟩ := mem_filter.mp hfound
    rw [Bool.true_and, decide_eq_true_iff]
    intro heq
    rw [← hs.eq_of_seqNum_eq hlisted hmem heq, hbarrier, hfoundkind] at hkind
    cases hkind

/-- `completed` apart from the flags. -/
theorem completed_eq (h : s.completed inst = .ok s') : s' = { s.remove (fun sn => sn ≠ inst.seqNum) with
      loadBarrier := s.loadBarrier, storeBarrier := s.storeBarrier } := by
  obtain ⟨entry, -, hdone⟩ := bind_ok h
  cases hdone
  have hhash : update s.memDepHash inst.seqNum none =
      fun sn => if decide (sn ≠ inst.seqNum) = true then s.memDepHash sn else none := by
    funext sn
    by_cases hsn : sn = inst.seqNum
    · simp [hsn]
    · simp [hsn]
  rw [remove, hhash]

theorem Alike.remove (h : Alike s s') (keep : InstSeqNum → Bool) : Alike (s.remove keep) (s'.remove keep) := by
  obtain ⟨hlist, hhash, hnext, hlive, hload, hloadSN, hstore, hstoreSN⟩ := h
  constructor <;> simp [MemDepUnit.remove, *]

theorem completed_alike (hs : s.WellFormed) (hg : s.Guarded) (hmem : inst ∈ s.instList)
    (hinst : inst.isBarrier = false) (h : s.completed inst = .ok s') :
    Alike (s.remove fun sn => sn ≠ inst.seqNum) s' := by
  have hload := hg.loads.ne_of_not_kind hs hmem (by rw [hinst, Bool.false_and])
  have hstore := hg.stores.ne_of_not_kind hs hmem (by rw [hinst, Bool.false_and])
  rw [completed_eq h]
  exact ⟨rfl, rfl, rfl, fun _ => rfl, hload.symm, rfl, hstore.symm, rfl⟩

theorem completeBarrier_alike (hs : s.WellFormed) (hg : s.Guarded) (hmem : inst ∈ s.instList)
    (h : s.completeBarrier inst = .ok (effects, s')) : Alike (s.remove fun sn => sn ≠ inst.seqNum) s' := by
  obtain ⟨⟨woken, next⟩, last, hwake, hlast, h⟩ := bind_ok₂ h
  have hnext := wakeDependents_alike hwake
  refine (hnext.remove _).trans ?_
  -- A flag that the kind of the barrier does not clear is of another barrier.
  have hkeep : ∀ {flag sn kind}, Remembers flag sn kind next.barriers → kind inst = false →
      flag = (flag && decide (sn ≠ inst.seqNum)) := by
    intro flag sn kind hremembers hkind
    rw [hremembers.ne_of_not_kind (hnext.wellFormed hs) (hnext.instList ▸ hmem) (by rw [hkind, Bool.and_false])]
  have hbne : ∀ sn, (sn != inst.seqNum) = decide (sn ≠ inst.seqNum) := by
    intro sn
    rw [Bool.eq_iff_iff, bne_iff_ne, decide_eq_true_iff]
  obtain ⟨hloads, hstores⟩ := hnext.guarded hg
  rw [completed_eq hlast] at h
  by_cases hmemory : inst.isMemBarrier
  · simp only [hmemory, if_true] at h
    cases h
    exact ⟨rfl, rfl, rfl, fun _ => rfl, congrArg (_ && ·) (hbne _), rfl, congrArg (_ && ·) (hbne _), rfl⟩
  have hload := hkeep hloads (by simpa [MemInst.blocksLoads] using hmemory)
  by_cases hwrite : inst.isWriteBarrier
  · simp only [hmemory, hwrite, if_true, Bool.false_eq_true, if_false] at h
    cases h
    exact ⟨rfl, rfl, rfl, fun _ => rfl, hload, rfl, congrArg (_ && ·) (hbne _), rfl⟩
  have hstore := hkeep hstores (by simp [MemInst.blocksStores, hmemory, hwrite])
  simp only [hmemory, hwrite, Bool.false_eq_true, if_false] at h
  cases h
  exact ⟨rfl, rfl, rfl, fun _ => rfl, hload, rfl, hstore, rfl⟩

/-- The loop of `squash` removes the instruction with the sequence number. -/
def squashes (squashed_num : InstSeqNum) (insts : List MemInst) (sn : InstSeqNum) : Bool :=
  insts.any fun inst => decide (squashed_num < inst.seqNum) && inst.seqNum == sn

variable {squashed_num : InstSeqNum} {insts : List MemInst}

theorem squashes_eq (h : ∃ inst ∈ insts, inst.seqNum = sn) :
    squashes squashed_num insts sn = decide (squashed_num < sn) := by
  obtain ⟨inst, hmem, rfl⟩ := h
  rw [squashes, Bool.eq_iff_iff, any_eq_true, decide_eq_true_iff]
  constructor
  · rintro ⟨other, -, hother⟩
    obtain ⟨hlt, heq⟩ := Bool.and_eq_true_iff.mp hother
    rw [← eq_of_beq heq]
    exact of_decide_eq_true hlt
  · intro hlt
    exact ⟨inst, hmem, by simp [hlt]⟩

theorem squashes_eq_false (h : ∀ inst ∈ insts, inst.seqNum ≤ squashed_num) (sn : InstSeqNum) :
    squashes squashed_num insts sn = false := by
  rw [squashes, any_eq_false]
  intro inst hmem
  simp [Nat.not_lt.mpr (h inst hmem)]

theorem squashNewest_alike (hsorted : insts.Pairwise fun newer older => older.seqNum < newer.seqNum)
    (h : squashNewest squashed_num insts s = .ok s') : Alike { s with
      instList := insts.filter fun inst => inst.seqNum ≤ squashed_num
      memDepHash := fun sn => if squashes squashed_num insts sn then none else s.memDepHash sn
      loadBarrier := s.loadBarrier && !squashes squashed_num insts s.loadBarrierSN
      storeBarrier := s.storeBarrier && !squashes squashed_num insts s.storeBarrierSN } s' := by
  induction insts generalizing s with
  | nil =>
    cases h
    constructor <;> simp [squashes]
  | cons inst older ih =>
    obtain ⟨holder, hsorted⟩ := pairwise_cons.mp hsorted
    rw [squashNewest] at h
    split at h
    case isTrue hlt =>
      obtain ⟨entry, -, hrest⟩ := bind_ok h
      have halike := ih hsorted hrest
      refine Alike.trans ?_ halike
      have hsquashes : ∀ sn, squashes squashed_num (inst :: older) sn =
          (inst.seqNum == sn || squashes squashed_num older sn) := by
        intro sn
        rw [squashes, any_cons, decide_eq_true hlt, Bool.true_and]
        rfl
      constructor
      · simp [Nat.not_le.mpr hlt]
      · funext sn
        by_cases hsn : sn = inst.seqNum
        · simp [hsquashes, hsn, modifyEntry]
        · simp [hsquashes, hsn, Ne.symm hsn, modifyEntry]
      · rfl
      · intro other
        exact s.entries.isSome_cell_modify entry other _
      all_goals simp [hsquashes, modifyEntry, bne, Bool.and_assoc]
    case isFalse hle =>
      -- The rest of the list is older still.
      have hkept : ∀ kept ∈ inst :: older, kept.seqNum ≤ squashed_num :=
        forall_mem_cons.mpr ⟨Nat.not_lt.mp hle, fun kept hmem => (holder kept hmem).le.trans (Nat.not_lt.mp hle)⟩
      cases h
      constructor
      case instList =>
        exact (filter_eq_self.mpr fun kept hmem => decide_eq_true (hkept kept hmem)).symm
      all_goals simp [squashes_eq_false hkept]

theorem squash_alike (hs : s.WellFormed) (hg : s.Guarded) (h : squash pred s squashed_num = .ok s') :
    Alike (s.remove fun sn => sn ≤ squashed_num) s' := by
  obtain ⟨last, hlast, hdone⟩ := bind_ok h
  cases hdone
  refine Alike.trans ?_ ((squashNewest_alike hs.sorted hlast).trans (.depPred last _))
  have hflag : ∀ {flag sn kind}, Remembers flag sn kind s.barriers →
      (flag && !squashes squashed_num s.instList sn) = (flag && decide (sn ≤ squashed_num)) := by
    intro flag sn kind hremembers
    cases hflag : flag with
    | false => rfl
    | true =>
      obtain ⟨b, hmem, -, heq⟩ := hremembers.found hflag
      rw [squashes_eq ⟨b, mem_of_mem_filter hmem, heq⟩, ← decide_not, decide_eq_decide.mpr Nat.not_lt]
  constructor
  case memDepHash =>
    funext sn
    by_cases hlisted : ∃ inst ∈ s.instList, inst.seqNum = sn
    · by_cases hle : sn ≤ squashed_num
      · simp [remove, squashes_eq hlisted, hle]
      · simp [remove, squashes_eq hlisted, hle, Nat.not_le.mp hle]
    have hnone : s.memDepHash sn = none := by
      rw [← Option.not_isSome_iff_eq_none, hs.hashed]
      exact hlisted
    simp [remove, hnone]
  case loadBarrier => exact hflag hg.loads
  case storeBarrier => exact hflag hg.stores
  all_goals simp [remove]

/-! ### Runs -/

/-- What a call leaves of the list, of the hash map and of the barriers. -/
def Op.shape (s : MemDepUnit P) : Op → MemDepUnit P
  | .insert inst | .insertNonSpec inst => s.newEntry inst
  | .insertBarrier barr_inst => s.insertBarrier barr_inst
  | .completed inst | .completeBarrier inst => s.remove fun sn => sn ≠ inst.seqNum
  | .squash squashed_num => s.remove fun sn => sn ≤ squashed_num
  | _ => s

theorem step_alike (hs : s.WellFormed) (hg : s.Guarded) (horder : s.ProgramOrder op)
    (h : (machine pred).step s op = .ok (effects, s')) : Alike (op.shape s) s' := by
  cases op with
  | insert inst => exact insert_alike h
  | insertNonSpec inst =>
    obtain ⟨last, hlast, hdone⟩ := bind_ok h
    cases hdone
    exact insertInPredictor_alike hlast
  | insertBarrier barr_inst =>
    cases h
    exact .refl _
  | regsReady inst => exact regsReady_alike h
  | nonSpecInstReady inst =>
    obtain ⟨_, -, hdone⟩ := bind_ok h
    cases hdone
    exact .refl _
  | reschedule inst =>
    cases h
    exact .instsToReplay s _
  | replay =>
    obtain ⟨_, -, hdone⟩ := bind_ok h
    cases hdone
    exact .instsToReplay s _
  | completed inst =>
    obtain ⟨last, hlast, hdone⟩ := bind_ok h
    cases hdone
    exact completed_alike hs hg horder.1 horder.2 hlast
  | wakeDependents inst => exact wakeDependents_alike h
  | completeBarrier inst => exact completeBarrier_alike hs hg horder.1 h
  | squash squashed_num =>
    obtain ⟨last, hlast, hdone⟩ := bind_ok h
    cases hdone
    exact squash_alike hs hg hlast
  | violation store_inst violating_load =>
    cases h
    exact .depPred s _
  | issue inst =>
    cases h
    exact .depPred s _

theorem Op.barriers_shape (hs : s.WellFormed) (horder : s.ProgramOrder op) :
    (op.shape s).barriers = op.inFlight s.barriers := by
  cases op with
  | insert inst => exact s.barriers_newEntry horder.1
  | insertNonSpec inst => exact s.barriers_newEntry horder.1
  | insertBarrier barr_inst => exact s.barriers_insertBarrier horder.1
  | completed inst =>
    refine (s.barriers_remove _).trans (filter_eq_self.mpr ?_)
    intro b hmem
    obtain ⟨hlisted, hbarrier⟩ := mem_filter.mp hmem
    -- A load or a store is no barrier.
    rw [decide_eq_true_iff]
    intro heq
    rw [hs.eq_of_seqNum_eq hlisted horder.1 heq, horder.2] at hbarrier
    cases hbarrier
  | completeBarrier inst => exact s.barriers_remove _
  | squash squashed_num => exact s.barriers_remove _
  | _ => rfl

/-- The invariant of a run: the unit is well formed and remembers the newest of
the barriers in flight. -/
structure Tracks (s : MemDepUnit P) (barriers : List MemInst) : Prop where
  wellFormed : s.WellFormed
  guarded : s.Guarded
  barriers : s.barriers = barriers

theorem Tracks.step (hs : s.Tracks barriers) (horder : s.ProgramOrder op) (hkeeps : s.KeepsBarriers op)
    (h : (machine pred).step s op = .ok (effects, s')) : s'.Tracks (op.inFlight barriers) := by
  obtain ⟨hwf, hg, rfl⟩ := hs
  have halike := step_alike hwf hg horder h
  have hshape := op.barriers_shape hwf horder
  obtain ⟨hloads, hstores, -⟩ := hkeeps
  have hkept : (op.shape s).WellFormed ∧ (op.shape s).Guarded := by
    cases op with
    | insert inst => exact ⟨hwf.newEntry horder.2.1 horder.2.2, hg.newEntry horder.1⟩
    | insertNonSpec inst => exact ⟨hwf.newEntry horder.2.1 horder.2.2, hg.newEntry horder.1⟩
    | insertBarrier barr_inst =>
      exact ⟨hwf.insertBarrier horder.2.1 horder.2.2, hg.insertBarrier horder.1 horder.2.2⟩
    | completed inst =>
      rw [← hshape, Op.shape, barriers_remove] at hloads hstores
      exact ⟨hwf.remove _, hg.remove hloads hstores⟩
    | completeBarrier inst => exact ⟨hwf.remove _, hg.remove hloads hstores⟩
    | squash squashed_num => exact ⟨hwf.remove _, hg.remove hloads hstores⟩
    | _ => exact ⟨hwf, hg⟩
  exact ⟨halike.wellFormed hkept.1, halike.guarded hkept.2, halike.barriers.trans hshape⟩

theorem Tracks.run (hs : s.Tracks barriers)
    (hsteps : (machine pred).StepsAll (fun s op => s.ProgramOrder op ∧ s.KeepsBarriers op) s ops)
    (hrun : (machine pred).run s ops = .ok (answers, s')) :
    s'.Tracks (ops.foldl (fun barriers op => op.inFlight barriers) barriers) := by
  induction ops generalizing s barriers answers with
  | nil =>
    obtain ⟨-, rfl⟩ := Machine.run_nil_eq_ok_iff.mp hrun
    exact hs
  | cons op ops ih =>
    obtain ⟨effects, next, rest, hstep, hrest, -⟩ := Machine.run_cons_eq_ok_iff.mp hrun
    exact ih (hs.step hsteps.1.1 hsteps.1.2 hstep) (hsteps.2 effects next hstep) hrest

theorem insertInPredictor_of_not_isBarrier (pred : MemDepPred P) (s : MemDepUnit P) (h : inst.isBarrier = false) :
    ∃ s', insertInPredictor pred s inst = .ok s' := by
  rw [insertInPredictor]
  by_cases hstore : inst.isStore
  · exact ⟨_, if_pos hstore⟩
  · have hload : inst.isLoad := by simpa [MemInst.isBarrier, hstore] using h
    exact ⟨s, by rw [if_neg hstore, if_pos hload]⟩

theorem insertInPredictor_entries (h : insertInPredictor pred s inst = .ok s') : s'.entries = s.entries := by
  rw [insertInPredictor] at h
  split at h
  · cases h
    rfl
  · split at h <;> cases h
    rfl

/-- A load or a store that is ready is not squashed, so `insert` returns. -/
theorem insert_returns (pred : MemDepPred P) (s : MemDepUnit P) (h : inst.isBarrier = false) :
    ∃ effects s', insert pred s inst = .ok (effects, s') := by
  choose last hlast using fun s => insertInPredictor_of_not_isBarrier pred s h
  simp only [insert, hlast]
  split
  · split
    · rw [bind_of_ok (a := [.addReadyMemInst inst.seqNum])]
      · exact ⟨_, _, rfl⟩
      · simp [moveToReady, modifyEntry, Heap.get, Heap.cell_modify_self, newEntry, Heap.cell_alloc_self,
          Result.require]
        rfl
    · exact ⟨_, _, rfl⟩
  · exact ⟨_, _, rfl⟩

/-- An instruction becomes a dependent of what `insert` finds it has to wait for. -/
theorem insert_depends (hs : s.WellFormed) (horder : ∀ older ∈ s.instList, older.seqNum < inst.seqNum)
    (hmem : producer ∈ s.instList) (hproducer : producingStore pred (s.newEntry inst) inst = producer.seqNum)
    (h : insert pred s inst = .ok (effects, s')) : s'.Depends inst producer := by
  obtain ⟨entry, hentry⟩ := Option.isSome_iff_exists.mp ((hs.hashed producer.seqNum).mpr ⟨producer, hmem, rfl⟩)
  obtain ⟨hlt, hlive⟩ := hs.live _ _ hentry
  obtain ⟨cell, hcell⟩ := Option.isSome_iff_exists.mp hlive
  have hne := Nat.ne_of_lt hlt
  have hhash : (s.newEntry inst).memDepHash = update s.memDepHash inst.seqNum (some s.entries.next) := by
    simp [newEntry, hs.hash_eq_none horder]
  have hfound : (s.newEntry inst).memDepHash producer.seqNum = some entry := by
    rw [hhash, update_of_ne (Nat.ne_of_lt (horder producer hmem)), hentry]
  have hself : (s.newEntry inst).memDepHash inst.seqNum = some s.entries.next := by
    rw [hhash, update_self]
  have halike := insert_alike h
  simp only [insert, hproducer, Nat.pos_iff_ne_zero.mp (hs.pos producer hmem), ne_eq, not_false_eq_true, if_true,
    hfound, bind_eq_ok_iff] at h
  obtain ⟨last, hlast, hdone⟩ := h
  cases hdone
  refine ⟨s.entries.next, halike.memDepHash ▸ hself, entry, halike.memDepHash ▸ hfound,
    { cell with dependInsts := cell.dependInsts ++ [s.entries.next] }, ?_, by simp⟩
  rw [insertInPredictor_entries hlast]
  simp [modifyEntry, Heap.cell_modify_self, Heap.cell_modify_of_ne hne, newEntry, Heap.alloc, hne, hcell]

/-- In every run that takes the newest barrier of a kind away only when no older one
is left, a load or a store becomes a dependent of each barrier in flight that
blocks it, or of a newer barrier in flight. -/
theorem run_insert_depends {pred : MemDepPred P} {p : P} {ops : List Op} {answers : List (List MemDepEffect)}
    {s : MemDepUnit P} (hrun : (machine pred).run (construct p) ops = .ok (answers, s))
    (hsteps : (machine pred).StepsAll (fun s op => s.ProgramOrder op ∧ s.KeepsBarriers op) (construct p) ops)
    {inst : MemInst} (horder : s.ProgramOrder (.insert inst)) (hkeeps : s.KeepsBarriers (.insert inst)) :
    ∃ effects s', (machine pred).step s (.insert inst) = .ok (effects, s') ∧ ∀ b ∈ inFlight ops, b.blocks inst →
        ∃ newer ∈ inFlight ops, b.seqNum ≤ newer.seqNum ∧ newer.blocks inst ∧ s'.Depends inst newer := by
  have htracks : s.Tracks (inFlight ops) := Tracks.run ⟨.construct p, .construct p, rfl⟩ hsteps hrun
  obtain ⟨hwf, hg, hbarriers⟩ := htracks
  obtain ⟨effects, s', hinsert⟩ := insert_returns pred s horder.1
  refine ⟨effects, s', hinsert, ?_⟩
  rw [← hbarriers]
  intro b hmem hblocks
  by_cases hload : inst.isLoad ∧ s.loadBarrier
  · -- The newest memory barrier.
    obtain ⟨found, hfound, hkind, hsn⟩ := hg.loads.found hload.2
    have hdepends : s'.Depends inst found := by
      apply insert_depends hwf horder.2.2 (mem_of_mem_filter hfound) _ hinsert
      simp [producingStore, newEntry, hload, hsn]
    have hle : b.seqNum ≤ found.seqNum := by
      rw [hsn]
      by_cases hloads : b.blocksLoads
      · exact (hg.loads.newest b hmem hloads).2
      -- A write barrier blocks only what is also a store.
      obtain ⟨hstore, hstores⟩ : inst.isStore ∧ b.blocksStores := by
        simpa [MemInst.blocks, hloads] using hblocks
      obtain ⟨newer, hnewer, hnewerkind, hle⟩ := hkeeps.2.2 hload.1 hstore found hfound hkind b hmem hstores
      exact Nat.le_trans hle (hg.loads.newest newer hnewer hnewerkind).2
    exact ⟨found, hfound, hle, by simp [MemInst.blocks, hload.1, hkind], hdepends⟩
  · -- No memory barrier is in flight, or the instruction is a store only.
    have hnot : ¬ (inst.isLoad && b.blocksLoads) = true := by
      intro h
      obtain ⟨hisLoad, hloads⟩ := Bool.and_eq_true_iff.mp h
      exact hload ⟨hisLoad, (hg.loads.newest b hmem hloads).1⟩
    obtain ⟨hstore, hstores⟩ : inst.isStore ∧ b.blocksStores := by
      simpa [MemInst.blocks, hnot] using hblocks
    obtain ⟨hflag, hle⟩ := hg.stores.newest b hmem hstores
    obtain ⟨found, hfound, hkind, hsn⟩ := hg.stores.found hflag
    have hdepends : s'.Depends inst found := by
      apply insert_depends hwf horder.2.2 (mem_of_mem_filter hfound) _ hinsert
      have hload : (inst.isLoad && s.loadBarrier) = false := by simpa using hload
      simp [producingStore, newEntry, hload, hstore, hflag, hsn]
    exact ⟨found, hfound, hsn ▸ hle, by simp [MemInst.blocks, hstore, hkind], hdepends⟩

/-- A predictor that never predicts a dependence. -/
def independent : MemDepPred Unit where
  checkInst _ _ := 0
  insertStore _ _ _ := ()
  violation _ _ _ := ()
  issued _ _ _ _ := ()
  squash _ _ := ()

def memBarrier (seqNum : InstSeqNum) : MemInst := ⟨seqNum, 0, false, false, true, false, true⟩

def writeBarrier (seqNum : InstSeqNum) : MemInst := ⟨seqNum, 0, false, false, false, true, true⟩

def loadInst (seqNum : InstSeqNum) : MemInst := ⟨seqNum, 0, true, false, false, false, true⟩

/-- A write barrier completes after a memory barrier has followed it: the load waits
for the memory barrier. -/
theorem run_insert_depends_memBarrier :
    ∃ answers s, (machine independent).run (construct ()) [.insertBarrier (writeBarrier 1),
        .insertBarrier (memBarrier 2), .completeBarrier (writeBarrier 1)] = .ok (answers, s) ∧
      ∃ effects s', (machine independent).step s (.insert (loadInst 3)) = .ok (effects, s') ∧
        s'.Depends (loadInst 3) (memBarrier 2) := by
  have hkeeps : ∀ barriers : List MemInst, KeepsNewest MemInst.blocksLoads barriers barriers ∧
      KeepsNewest MemInst.blocksStores barriers barriers :=
    fun _ => ⟨fun _ hmem _ _ => .inl hmem, fun _ hmem _ _ => .inl hmem⟩
  have hpush : ∀ (b : MemInst) (barriers : List MemInst), KeepsNewest MemInst.blocksLoads barriers (b :: barriers) ∧
      KeepsNewest MemInst.blocksStores barriers (b :: barriers) :=
    fun b _ => ⟨fun _ hmem _ _ => .inl (.tail b hmem), fun _ hmem _ _ => .inl (.tail b hmem)⟩
  have hsteps : (machine independent).StepsAll (fun s op => s.ProgramOrder op ∧ s.KeepsBarriers op) (construct ())
      [.insertBarrier (writeBarrier 1), .insertBarrier (memBarrier 2), .completeBarrier (writeBarrier 1)] := by
    refine ⟨⟨⟨rfl, by decide, by decide⟩, (hpush _ _).1, (hpush _ _).2, trivial⟩, ?_⟩
    intro answer s h
    cases h
    refine ⟨⟨⟨rfl, by decide, by decide⟩, (hpush _ _).1, (hpush _ _).2, trivial⟩, ?_⟩
    intro answer s h
    cases h
    refine ⟨⟨⟨by decide, rfl⟩, ?_, ?_, trivial⟩, fun _ _ _ => trivial⟩
    · unfold KeepsNewest
      decide
    · unfold KeepsNewest
      decide
  obtain ⟨answers, s, hrun, horder⟩ : ∃ answers s, (machine independent).run (construct ())
      [.insertBarrier (writeBarrier 1), .insertBarrier (memBarrier 2), .completeBarrier (writeBarrier 1)] =
        .ok (answers, s) ∧ s.ProgramOrder (.insert (loadInst 3)) := ⟨_, _, rfl, rfl, by decide, by decide⟩
  refine ⟨answers, s, hrun, ?_⟩
  obtain ⟨effects, s', hinsert, hall⟩ :=
    run_insert_depends hrun hsteps horder ⟨(hkeeps _).1, (hkeeps _).2, fun _ h => by cases h⟩
  obtain ⟨newer, hmem, -, -, hdepends⟩ := hall (memBarrier 2) (by decide) rfl
  obtain rfl : newer = memBarrier 2 := by simpa [inFlight, Op.inFlight, writeBarrier, memBarrier] using hmem
  exact ⟨effects, s', hinsert, hdepends⟩

/-- A squash takes the newer of two memory barriers; a load then passes the older one,
which is still in flight. -/
theorem run_insert_passes_barrier :
    ∃ answers s effects s', (machine independent).run (construct ()) [.insertBarrier (memBarrier 1),
        .insertBarrier (memBarrier 2), .squash 1] = .ok (answers, s) ∧
      (machine independent).StepsAll ProgramOrder (construct ()) [.insertBarrier (memBarrier 1),
        .insertBarrier (memBarrier 2), .squash 1] ∧ s.ProgramOrder (.insert (loadInst 3)) ∧
      (machine independent).step s (.insert (loadInst 3)) = .ok (effects, s') ∧
      inFlight [.insertBarrier (memBarrier 1), .insertBarrier (memBarrier 2), .squash 1] = [memBarrier 1] ∧
      (memBarrier 1).blocks (loadInst 3) ∧ effects = [.addReadyMemInst 3] ∧
      ¬ s'.Depends (loadInst 3) (memBarrier 1) := by
  refine ⟨_, _, _, _, rfl, ⟨⟨rfl, by decide, by decide⟩, ?_⟩, ⟨rfl, by decide, by decide⟩, rfl, rfl,
    rfl, rfl, by decide⟩
  intro answer s h
  cases h
  refine ⟨⟨rfl, by decide, by decide⟩, ?_⟩
  intro answer s h
  exact ⟨trivial, fun _ _ _ => trivial⟩

end MemDepUnit

end Gem5.O3
