import Gem5.Lib.FirstPart
import Gem5.O3.Rename.Conservation

open Lib Result Lib.UndoLog Function List

namespace Gem5.O3.Rename

variable {isa : TheISA} {p : Params} {st st' : State}

/-- The registers of an entry that changed the mapping are of the class of its
architectural register, which is not a vector element. -/
structure RenameHistory.Typed (isa : TheISA) (p : Params) (entry : RenameHistory) : Prop where
  inUse : inUse p entry.archReg.regClass = true
  notElem : entry.archReg.regClass ≠ .VecElemClass
  inRange : entry.archReg.index < mapSize isa entry.archReg.regClass
  new : ∃ reg, entry.newPhysReg = some reg ∧ reg.regClass = entry.archReg.regClass
  prev : ∃ reg, entry.prevPhysReg = some reg ∧ reg.regClass = entry.archReg.regClass

/-- Rename maps and free lists hold physical registers of their class. -/
structure Typed (isa : TheISA) (p : Params) (freeList : RegClass → List PhysRegId)
    (renameMap : RegClass × Nat → PhysRegIdPtr) : Prop where
  mapped : ∀ c i, inUse p c = true → i < mapSize isa c → ∃ reg, renameMap (c, i) = some reg ∧ reg.regClass = c
  free : ∀ c, ∀ reg ∈ freeList c, reg.regClass = c

/-- The history buffer is in program order, newest first. -/
def Sorted (history : List RenameHistory) : Prop :=
  history.Pairwise fun newer older => older.instSeqNum ≤ newer.instSeqNum

/-- The invariant of the stage. -/
structure State.Typed (isa : TheISA) (p : Params) (st : State) : Prop where
  typed : Rename.Typed isa p st.freeList st.renameMap
  history : ∀ entry ∈ st.historyBuffer, entry.newPhysReg ≠ entry.prevPhysReg → entry.Typed isa p

variable {renameMap : RegClass × Nat → PhysRegIdPtr}

theorem Typed.setMap {freeList : RegClass → List PhysRegId} (h : Typed isa p freeList renameMap)
    (hreg : reg.regClass = key.1) : Typed isa p freeList (update renameMap key (some reg)) := by
  refine ⟨fun c i hc hi => ?_, h.free⟩
  by_cases heq : (c, i) = key
  · rw [heq, update_self]
    exact ⟨reg, rfl, hreg.trans (congrArg Prod.fst heq).symm⟩
  · rw [update_of_ne heq]
    exact h.mapped c i hc hi

theorem Typed.setFree {freeList : RegClass → List PhysRegId} (h : Typed isa p freeList renameMap)
    (hregs : ∀ reg ∈ regs, reg.regClass = c) : Typed isa p (update freeList c regs) renameMap := by
  refine ⟨h.mapped, fun other reg hmem => ?_⟩
  by_cases heq : other = c
  · rw [heq, update_self] at hmem
    exact (hregs reg hmem).trans heq.symm
  · rw [update_of_ne heq] at hmem
    exact h.free other reg hmem

theorem Typed.addFree {freeList : RegClass → List PhysRegId} (h : Typed isa p freeList renameMap) (reg : PhysRegId) :
    Typed isa p (update freeList reg.regClass (freeList reg.regClass ++ [reg])) renameMap :=
  h.setFree (forall_mem_append.mpr ⟨h.free _, forall_mem_singleton.mpr rfl⟩)

theorem flatIndex_of_not_elem {reg : RegId} (h : reg.regClass ≠ .VecElemClass) : reg.flatIndex isa = reg.index := by
  rw [RegId.flatIndex]
  split
  · exact absurd ‹_› h
  · rfl

/-- A destination that is renamed is no vector element. -/
theorem flattenRegId_not_elem {flatten : RegClass → Nat → Nat} (h : flattenRegId p flatten reg = .ok flat)
    (hin : inUse p flat.regClass = true) : flat.regClass ≠ .VecElemClass := by
  rw [flattenRegId] at h
  split at h
  case isTrue hscalar =>
    cases h
    exact hscalar
  case isFalse helem =>
    split at h
    · cases h
    cases h
    rename_i hmode
    intro heq
    rw [heq] at hin
    exact hmode (eq_of_beq hin)

/-! ### Renaming -/

variable {seqNum : InstSeqNum}

theorem renameDestReg_spec (h : Typed isa p st.freeList st.renameMap)
    (hdest : inUse p dest_reg.regClass = true → dest_reg.regClass ≠ .VecElemClass)
    (hrename : renameDestReg isa p seqNum st dest_reg = .ok (info, st')) :
    ∃ entry, st'.historyBuffer = entry :: st.historyBuffer ∧ entry.instSeqNum = seqNum ∧
      (entry.newPhysReg ≠ entry.prevPhysReg → entry.Typed isa p) ∧
      rewind st'.renameMap (changes [entry]) = st.renameMap ∧ Typed isa p st'.freeList st'.renameMap := by
  obtain ⟨⟨info', renamed⟩, hcall, hdone⟩ := bind_ok hrename
  cases hdone
  obtain ⟨hsame, rfl⟩ | ⟨reg, rest, hin, hindex, -, hfree, rfl, rfl⟩ := rename_spec hcall
  · refine ⟨_, rfl, rfl, fun hne => absurd hsame hne, ?_, h⟩
    rw [changes_cons_of_eq hsame]
    rfl
  have hreg : reg.regClass = dest_reg.regClass := h.free _ reg (hfree ▸ mem_cons_self)
  refine ⟨_, rfl, rfl, fun _ => ⟨hin, hdest hin, hindex, ⟨reg, rfl, hreg⟩, h.mapped _ _ hin hindex⟩, ?_, ?_⟩
  · by_cases hne : some reg = st.renameMap (dest_reg.regClass, dest_reg.index)
    · rw [changes_cons_of_eq hne, changes_nil, rewind, hne, update_eq_self]
    · rw [changes_cons_of_ne hne, changes_nil]
      exact rewind_push ..
  · apply Typed.setMap _ hreg
    apply h.setFree
    intro other hmem
    exact h.free _ other (hfree ▸ mem_cons_of_mem reg hmem)

variable {infos : List RenameInfo}

theorem renameDestRegs_spec (h : Typed isa p st.freeList st.renameMap)
    (hdest : ∀ dest_reg ∈ dest_regs, inUse p dest_reg.regClass = true → dest_reg.regClass ≠ .VecElemClass)
    (hrename : renameDestRegs isa p seqNum st dest_regs = .ok (infos, st')) :
    ∃ entries, st'.historyBuffer = entries ++ st.historyBuffer ∧ (∀ entry ∈ entries, entry.instSeqNum = seqNum) ∧
      (∀ entry ∈ entries, entry.newPhysReg ≠ entry.prevPhysReg → entry.Typed isa p) ∧
      rewind st'.renameMap (changes entries) = st.renameMap ∧ Typed isa p st'.freeList st'.renameMap := by
  induction dest_regs generalizing st infos with
  | nil =>
    cases hrename
    exact ⟨[], rfl, by simp, by simp, rfl, h⟩
  | cons dest_reg rest ih =>
    obtain ⟨hfirst, hdest⟩ := forall_mem_cons.mp hdest
    obtain ⟨⟨info, next⟩, hcall, hrest⟩ := bind_ok hrename
    obtain ⟨⟨later, last⟩, hlater, hdone⟩ := bind_ok hrest
    cases hdone
    obtain ⟨entry, hhistory, hseq, htyped, hrewind, hnext⟩ := renameDestReg_spec h hfirst hcall
    obtain ⟨entries, hhistory', hseq', htyped', hrewind', hlast⟩ := ih hnext hdest hlater
    refine ⟨entries ++ [entry], ?_, ?_, ?_, ?_, hlast⟩
    · rw [hhistory', hhistory, append_assoc]
      rfl
    · exact forall_mem_append.mpr ⟨hseq', forall_mem_singleton.mpr hseq⟩
    · exact forall_mem_append.mpr ⟨htyped', forall_mem_singleton.mpr htyped⟩
    · rw [changes_append, rewind_append, hrewind', hrewind]

theorem renameInst_spec {flatten : RegClass → Nat → Nat} (h : st.Typed isa p)
    (hrename : renameInst isa p flatten seqNum st dest_regs = .ok (infos, st')) :
    ∃ entries, st'.historyBuffer = entries ++ st.historyBuffer ∧ (∀ entry ∈ entries, entry.instSeqNum = seqNum) ∧
      rewind st'.renameMap (changes entries) = st.renameMap ∧ st'.Typed isa p := by
  obtain ⟨flat, hflat, hcall⟩ := bind_ok hrename
  have hdest : ∀ dest_reg ∈ flat, inUse p dest_reg.regClass = true → dest_reg.regClass ≠ .VecElemClass := by
    intro dest_reg hmem hin
    obtain ⟨original, -, hflatten⟩ := exists_of_mem_forall₂ (forall₂_of_mapM hflat) hmem
    exact flattenRegId_not_elem hflatten hin
  obtain ⟨entries, hhistory, hseq, htyped, hrewind, hst'⟩ := renameDestRegs_spec h.typed hdest hcall
  refine ⟨entries, hhistory, hseq, hrewind, hst', ?_⟩
  rw [hhistory]
  exact forall_mem_append.mpr ⟨htyped, h.history⟩

/-! ### Squashing and committing -/

theorem checkMode_of_inUse (h : inUse p c = true) : checkMode p c = .ok () := by
  cases c
  case VecRegClass => exact require_of_true h
  case VecElemClass => exact require_of_true h
  all_goals rfl

theorem addReg_returns (st : State) (h : Typed isa p st.freeList st.renameMap) (hreg : reg.regClass ≠ .MiscRegClass) :
    ∃ st', addReg st (some reg) = .ok st' ∧ Typed isa p st'.freeList st'.renameMap ∧ st'.renameMap = st.renameMap :=
  ⟨_, addReg_eq_ok_iff.mpr ⟨reg, rfl, hreg, rfl⟩, h.addFree reg, rfl⟩

theorem undoRename_returns {entry : RenameHistory} (h : Typed isa p st.freeList st.renameMap)
    (hentry : entry.newPhysReg ≠ entry.prevPhysReg → entry.Typed isa p) :
    ∃ st', undoRename isa p st entry = .ok st' ∧ Typed isa p st'.freeList st'.renameMap ∧
      st'.renameMap = rewind st.renameMap (changes [entry]) := by
  rw [undoRename]
  by_cases hne : entry.newPhysReg ≠ entry.prevPhysReg
  · obtain ⟨hin, helem, hindex, ⟨new, hnew, hnewclass⟩, prev, hprev, hprevclass⟩ := hentry hne
    have hmisc := inUse_ne_misc hin
    have hset : setEntry isa p st entry.archReg entry.prevPhysReg = .ok { st with
        renameMap := update st.renameMap (entry.archReg.regClass, entry.archReg.index) entry.prevPhysReg } := by
      simp only [setEntry, if_neg hmisc, hprev, hprevclass, BEq.rfl, bind_of_ok (require_of_true rfl),
        bind_of_ok (checkMode_of_inUse hin), SimpleRenameMap.setEntry, flatIndex_of_not_elem helem]
      rw [bind_of_ok (require_of_decide (Nat.le_of_lt hindex)), if_pos hindex]
    have hback : Typed isa p st.freeList
        (update st.renameMap (entry.archReg.regClass, entry.archReg.index) entry.prevPhysReg) :=
      hprev ▸ h.setMap hprevclass
    obtain ⟨st', hadd, hst', hmap⟩ := addReg_returns { st with
      renameMap := update st.renameMap (entry.archReg.regClass, entry.archReg.index) entry.prevPhysReg } hback
      (hnewclass ▸ hmisc)
    refine ⟨st', ?_, hst', ?_⟩
    · rw [if_pos hne, bind_of_ok hset, hnew, hadd]
    · rw [hmap, changes_cons_of_ne hne]
      rfl
  · rw [changes_cons_of_eq (not_not.mp hne), changes_nil]
    exact ⟨st, if_neg hne, h, rfl⟩

/-- The loop of `doSquash` undoes the entries that are too young. -/
theorem undoNewest_returns (h : Typed isa p st.freeList st.renameMap)
    (hhistory : ∀ entry ∈ history, entry.newPhysReg ≠ entry.prevPhysReg → entry.Typed isa p) :
    ∃ st', undoNewest isa p squashed_seq_num history st =
        .ok (history.dropWhile fun entry => entry.instSeqNum > squashed_seq_num, st') ∧
          Typed isa p st'.freeList st'.renameMap ∧
      st'.renameMap =
        rewind st.renameMap (changes (history.takeWhile fun entry => entry.instSeqNum > squashed_seq_num)) := by
  induction history generalizing st with
  | nil => exact ⟨st, rfl, h, rfl⟩
  | cons entry older ih =>
    obtain ⟨hentry, holder⟩ := forall_mem_cons.mp hhistory
    rw [undoNewest]
    by_cases hyounger : entry.instSeqNum > squashed_seq_num
    · obtain ⟨undone, hundo, hundone, hmap⟩ := undoRename_returns h hentry
      obtain ⟨st', hrest, hst', hmap'⟩ := ih hundone holder
      rw [if_pos hyounger, dropWhile_cons_of_pos (by simpa using hyounger),
        takeWhile_cons_of_pos (by simpa using hyounger), bind_of_ok hundo]
      refine ⟨st', hrest, hst', ?_⟩
      rw [hmap', hmap, ← rewind_append, ← changes_append]
      rfl
    · rw [if_neg hyounger, dropWhile_cons_of_neg (by simpa using hyounger),
        takeWhile_cons_of_neg (by simpa using hyounger)]
      exact ⟨st, rfl, h, rfl⟩

theorem doSquash_returns (h : st.Typed isa p) (squashed_seq_num : InstSeqNum) :
    ∃ st', doSquash isa p st squashed_seq_num = .ok st' ∧ st'.Typed isa p ∧
      st'.historyBuffer = st.historyBuffer.dropWhile (fun entry => entry.instSeqNum > squashed_seq_num) ∧
      st'.renameMap = rewind st.renameMap
        (changes (st.historyBuffer.takeWhile fun entry => entry.instSeqNum > squashed_seq_num)) := by
  obtain ⟨undone, hundo, hundone, hmap⟩ := undoNewest_returns h.typed h.history
  refine ⟨_, bind_of_ok hundo _, ⟨hundone, ?_⟩, rfl, hmap⟩
  intro entry hmem
  exact h.history entry ((dropWhile_sublist _).subset hmem)

theorem commitOldest_spec (h : Typed isa p st.freeList st.renameMap)
    (hcommit : commitOldest inst_seq_num queue st = .ok (rest, st')) :
    rest = queue.dropWhile (fun entry => entry.instSeqNum ≤ inst_seq_num) ∧ Typed isa p st'.freeList st'.renameMap ∧
      st'.renameMap = st.renameMap := by
  induction queue generalizing st with
  | nil =>
    cases hcommit
    exact ⟨rfl, h, rfl⟩
  | cons entry younger ih =>
    rw [commitOldest] at hcommit
    by_cases hdone : entry.instSeqNum ≤ inst_seq_num
    · rw [if_pos hdone] at hcommit
      obtain ⟨freed, hfree, hrest⟩ := bind_ok hcommit
      have hfreed : Typed isa p freed.freeList freed.renameMap ∧ freed.renameMap = st.renameMap := by
        rw [freePrev] at hfree
        by_cases hne : entry.newPhysReg ≠ entry.prevPhysReg
        · rw [if_pos hne] at hfree
          obtain ⟨prev, -, -, rfl⟩ := addReg_eq_ok_iff.mp hfree
          exact ⟨h.addFree prev, rfl⟩
        · rw [if_neg hne] at hfree
          cases hfree
          exact ⟨h, rfl⟩
      rw [dropWhile_cons_of_pos (by simpa using hdone), ← hfreed.2]
      exact ih hfreed.1 hrest
    · rw [if_neg hdone] at hcommit
      cases hcommit
      rw [dropWhile_cons_of_neg (by simpa using hdone)]
      exact ⟨rfl, h, rfl⟩

theorem removeFromHistory_spec (h : st.Typed isa p) (hcommit : removeFromHistory st inst_seq_num = .ok st') :
    st'.Typed isa p ∧ st'.renameMap = st.renameMap ∧ st'.historyBuffer =
      (st.historyBuffer.reverse.dropWhile fun entry => entry.instSeqNum ≤ inst_seq_num).reverse := by
  obtain ⟨⟨rest, committed⟩, hcall, hdone⟩ := bind_ok hcommit
  cases hdone
  obtain ⟨rfl, htyped, hmap⟩ := commitOldest_spec h.typed hcall
  refine ⟨⟨htyped, ?_⟩, hmap, rfl⟩
  intro entry hmem
  exact h.history entry (mem_reverse.mp ((dropWhile_sublist _).subset (mem_reverse.mp hmem)))

/-! ### Runs -/

/-- Instructions are renamed in program order. -/
def ProgramOrder (st : State) : InstOp → Prop
  | .renameInst _ seqNum _ => ∀ entry ∈ st.historyBuffer, entry.instSeqNum < seqNum
  | _ => True

/-- The calls that can follow the rename of `sn` before it is squashed: younger
instructions are renamed or squashed, and `sn` and older ones are committed. -/
def InstOp.Follows (sn : InstSeqNum) : InstOp → Prop
  | .renameInst _ seqNum _ => sn < seqNum
  | .doSquash squashed_seq_num => sn ≤ squashed_seq_num
  | .removeFromHistory inst_seq_num => inst_seq_num ≤ sn

/-- The call does not commit the rename. -/
def InstOp.leaves (entry : RenameHistory) : InstOp → Bool
  | .removeFromHistory inst_seq_num => inst_seq_num < entry.instSeqNum
  | _ => true

/-- What the oldest entries of a sorted history leave when they are committed. -/
theorem Sorted.commit (h : Sorted history) (inst_seq_num : InstSeqNum) :
    (history.reverse.dropWhile fun entry => entry.instSeqNum ≤ inst_seq_num).reverse =
      history.filter fun entry => inst_seq_num < entry.instSeqNum := by
  rw [dropWhile_eq_filter, filter_reverse, reverse_reverse]
  · congr 1
    funext entry
    rw [← decide_not, decide_eq_decide, Nat.not_le]
  · rw [pairwise_reverse]
    refine h.imp fun {newer older} hle hnewer => ?_
    exact decide_eq_true (Nat.le_trans hle (of_decide_eq_true hnewer))

theorem State.Typed.initial (hsize : ∀ c, mapSize isa c ≤ (PhysRegFile.getRegIds isa p c).length) :
    (State.initial isa p).Typed isa p := by
  refine ⟨⟨fun c i hc hi => ?_, fun c reg hmem => ?_⟩, fun entry hmem => by cases hmem⟩
  · have hlt := Nat.lt_of_lt_of_le hi (hsize c)
    refine ⟨(PhysRegFile.getRegIds isa p c)[i], ?_, getRegIds_regClass (getElem_mem hlt)⟩
    simp [State.initial, hc, hi, hlt]
  · simp only [State.initial] at hmem
    split at hmem
    · exact getRegIds_regClass (mem_of_mem_drop hmem)
    · cases hmem

/-- Every step keeps the history typed and in program order. -/
theorem State.Typed.step (h : st.Typed isa p) (hsorted : Sorted st.historyBuffer) (horder : ProgramOrder st op)
    (hstep : (instMachine isa p).step st op = .ok (infos, st')) : st'.Typed isa p ∧ Sorted st'.historyBuffer := by
  cases op with
  | renameInst flatten seqNum dest_regs =>
    obtain ⟨entries, hhistory, hseq, -, htyped⟩ := renameInst_spec h hstep
    refine ⟨htyped, ?_⟩
    rw [hhistory]
    refine pairwise_append.mpr ⟨?_, hsorted, ?_⟩
    · apply pairwise_of_forall_mem_list
      intro newer hnewer older holder
      rw [hseq newer hnewer, hseq older holder]
    · intro newer hnewer older holder
      rw [hseq newer hnewer]
      exact Nat.le_of_lt (horder older holder)
  | doSquash squashed_seq_num =>
    obtain ⟨squashed, hsquash, hdone⟩ := bind_ok hstep
    cases hdone
    obtain ⟨_, hreturns, htyped, hhistory, -⟩ := doSquash_returns h _
    cases hreturns.symm.trans hsquash
    refine ⟨htyped, ?_⟩
    rw [hhistory]
    exact Pairwise.sublist (dropWhile_sublist _) hsorted
  | removeFromHistory inst_seq_num =>
    obtain ⟨committed, hcommit, hdone⟩ := bind_ok hstep
    cases hdone
    obtain ⟨htyped, -, hhistory⟩ := removeFromHistory_spec h hcommit
    refine ⟨htyped, ?_⟩
    rw [hhistory, hsorted.commit]
    exact Pairwise.sublist filter_sublist hsorted

/-- The state leads back to the map `renameMap` with the history `kept`, once what is
younger than `sn` is undone. -/
structure LeadsBack (isa : TheISA) (p : Params) (sn : InstSeqNum) (renameMap : RegClass × Nat → PhysRegIdPtr)
    (kept : List RenameHistory) (st : State) : Prop where
  typed : st.Typed isa p
  sorted : Sorted kept
  older : ∀ entry ∈ kept, entry.instSeqNum ≤ sn
  history : ∃ newer, st.historyBuffer = newer ++ kept ∧ (∀ entry ∈ newer, sn < entry.instSeqNum) ∧
    rewind st.renameMap (changes newer) = renameMap

theorem LeadsBack.step (h : LeadsBack isa p sn renameMap kept st) (hop : op.Follows sn)
    (hstep : (instMachine isa p).step st op = .ok (infos, st')) :
    LeadsBack isa p sn renameMap (kept.filter fun entry => op.leaves entry) st' := by
  obtain ⟨htyped, hsorted, holder, newer, hhistory, hnewer, hrewind⟩ := h
  have hall : ∀ entry ∈ kept.filter fun entry => op.leaves entry, entry.instSeqNum ≤ sn := fun entry hmem =>
    holder entry (mem_of_mem_filter hmem)
  have hkept : Sorted (kept.filter fun entry => op.leaves entry) := Pairwise.filter _ hsorted
  cases op with
  | renameInst flatten seqNum dest_regs =>
    obtain ⟨entries, hhistory', hseq, hrewind', htyped'⟩ := renameInst_spec htyped hstep
    refine ⟨htyped', hkept, hall, entries ++ newer, ?_, ?_, ?_⟩
    · have hfilter : (kept.filter fun entry => (InstOp.renameInst flatten seqNum dest_regs).leaves entry) = kept :=
        filter_eq_self.mpr fun _ _ => rfl
      rw [hhistory', hhistory, append_assoc, hfilter]
    · exact forall_mem_append.mpr ⟨fun entry hmem => hseq entry hmem ▸ hop, hnewer⟩
    · rw [changes_append, rewind_append, hrewind', hrewind]
  | doSquash squashed_seq_num =>
    obtain ⟨squashed, hsquash, hdone⟩ := bind_ok hstep
    cases hdone
    obtain ⟨_, hreturns, htyped', hhistory', hmap⟩ := doSquash_returns htyped _
    cases hreturns.symm.trans hsquash
    -- Nothing of `kept` is squashed.
    have hnot : ∀ entry ∈ kept, decide (entry.instSeqNum > squashed_seq_num) = false := fun entry hmem =>
      decide_eq_false (Nat.not_lt.mpr (Nat.le_trans (holder entry hmem) hop))
    refine ⟨htyped', hkept, hall, newer.dropWhile fun entry => entry.instSeqNum > squashed_seq_num, ?_, ?_, ?_⟩
    · have hfilter : (kept.filter fun entry => (InstOp.doSquash squashed_seq_num).leaves entry) = kept :=
        filter_eq_self.mpr fun _ _ => rfl
      rw [hhistory', hhistory, dropWhile_append_of_not hnot, hfilter]
    · intro entry hmem
      exact hnewer entry ((dropWhile_sublist _).subset hmem)
    · rw [hmap, hhistory, takeWhile_append_of_not hnot, ← rewind_append, ← changes_append,
        takeWhile_append_dropWhile, hrewind]
  | removeFromHistory inst_seq_num =>
    obtain ⟨committed, hcommit, hdone⟩ := bind_ok hstep
    cases hdone
    obtain ⟨htyped', hmap, hhistory'⟩ := removeFromHistory_spec htyped hcommit
    have hnot : ∀ entry ∈ newer.reverse, decide (entry.instSeqNum ≤ inst_seq_num) = false := fun entry hmem =>
      decide_eq_false (Nat.not_le.mpr (Nat.lt_of_le_of_lt hop (hnewer entry (mem_reverse.mp hmem))))
    refine ⟨htyped', hkept, hall, newer, ?_, hnewer, hmap ▸ hrewind⟩
    rw [hhistory', hhistory, reverse_append, dropWhile_append_of_not hnot, reverse_append,
      reverse_reverse, hsorted.commit]
    rfl

theorem LeadsBack.run {sn : InstSeqNum} {kept : List RenameHistory} (h : LeadsBack isa p sn renameMap kept st)
    {ops : List InstOp} (hops : ∀ op ∈ ops, op.Follows sn) {infos : List (List RenameInfo)}
    (hrun : (instMachine isa p).run st ops = .ok (infos, st')) :
    LeadsBack isa p sn renameMap (kept.filter fun entry => ops.all fun op => op.leaves entry) st' := by
  induction ops generalizing st kept infos with
  | nil =>
    obtain ⟨-, rfl⟩ := Machine.run_nil_eq_ok_iff.mp hrun
    have hfilter : (kept.filter fun entry => ([] : List InstOp).all fun op => op.leaves entry) = kept :=
      filter_eq_self.mpr fun _ _ => rfl
    rwa [hfilter]
  | cons op ops ih =>
    obtain ⟨hop, hops⟩ := forall_mem_cons.mp hops
    obtain ⟨info, next, rest, hstep, hrest, -⟩ := Machine.run_cons_eq_ok_iff.mp hrun
    have hnext := ih (h.step hop hstep) hops hrest
    rw [filter_filter] at hnext
    simpa only [all_cons, Bool.and_comm] using hnext

/-- The squash of what is younger than `sn` gives the map back that the rename of `sn`
had left, and the part of its history that was not committed. -/
theorem doSquash_restores_renameMap {st₀ : State} (hst : construct isa p = .ok st₀) {ops : List InstOp}
    {infos : List (List RenameInfo)} (hrun : (instMachine isa p).run st₀ ops = .ok (infos, st))
    (horder : (instMachine isa p).StepsAll ProgramOrder st₀ ops) {flatten : RegClass → Nat → Nat} {sn : InstSeqNum}
    {dest_regs : List RegId} (hsn : ProgramOrder st (.renameInst flatten sn dest_regs)) {info : List RenameInfo}
    {renamed : State} (hrename : (instMachine isa p).step st (.renameInst flatten sn dest_regs) = .ok (info, renamed))
    {later : List InstOp} (hlater : ∀ op ∈ later, op.Follows sn) {infos' : List (List RenameInfo)}
    (hrun' : (instMachine isa p).run renamed later = .ok (infos', st')) :
    ∃ squashed, doSquash isa p st' sn = .ok squashed ∧ squashed.renameMap = renamed.renameMap ∧
      squashed.historyBuffer = renamed.historyBuffer.filter fun entry => later.all fun op => op.leaves entry := by
  obtain ⟨hsize, rfl⟩ := construct_spec hst
  have hinitial : (State.initial isa p).Typed isa p ∧ Sorted (State.initial isa p).historyBuffer :=
    ⟨.initial hsize, List.Pairwise.nil⟩
  have htyped : st.Typed isa p ∧ Sorted st.historyBuffer :=
    Machine.run_invariant (I := fun st => st.Typed isa p ∧ Sorted st.historyBuffer)
      (fun _ _ _ _ h horder hstep => h.1.step h.2 horder hstep) hinitial horder hrun
  obtain ⟨hrenamed, hsorted⟩ := htyped.1.step htyped.2 hsn hrename
  obtain ⟨entries, hhistory, hseq, -, -⟩ := renameInst_spec htyped.1 hrename
  have hback : LeadsBack isa p sn renamed.renameMap renamed.historyBuffer renamed := by
    refine ⟨hrenamed, hsorted, ?_, [], rfl, by simp, rfl⟩
    rw [hhistory]
    exact forall_mem_append.mpr ⟨fun entry hmem => (hseq entry hmem).le, fun entry hmem => (hsn entry hmem).le⟩
  obtain ⟨htyped', -, holder, newer, hnewest, hnewer, hrewind⟩ := hback.run hlater hrun'
  obtain ⟨squashed, hsquash, -, hhistory', hmap⟩ := doSquash_returns htyped' sn
  have hnot : ∀ entry ∈ renamed.historyBuffer.filter fun entry => later.all fun op => op.leaves entry,
      decide (entry.instSeqNum > sn) = false := fun entry hmem =>
    decide_eq_false (Nat.not_lt.mpr (holder entry hmem))
  have hall : ∀ entry ∈ newer, decide (entry.instSeqNum > sn) = true := fun entry hmem =>
    decide_eq_true (hnewer entry hmem)
  refine ⟨squashed, hsquash, ?_, ?_⟩
  · rw [hmap, hnewest, takeWhile_append_of_not hnot, takeWhile_eq_self_iff.mpr hall, hrewind]
  · rw [hhistory', hnewest, dropWhile_append_of_not hnot, dropWhile_eq_nil_iff.mpr hall, nil_append]

/-- An instruction that renames a register twice; an older instruction is committed and
a younger one renames the register once more before it is squashed. -/
theorem doSquash_restores_twice_renamed : ∃ st infos renamed info infos' st' squashed,
      (instMachine alpha smallAlpha).run (State.initial alpha smallAlpha) [.renameInst (fun _ i => i) 1 [floatReg 1]] =
        .ok (infos, st) ∧
      (instMachine alpha smallAlpha).step st (.renameInst (fun _ i => i) 2 [floatReg 2, floatReg 2]) =
      .ok (info, renamed) ∧
      (instMachine alpha smallAlpha).run renamed [.removeFromHistory 1, .renameInst (fun _ i => i) 3 [floatReg 2]] =
        .ok (infos', st') ∧ st'.renameMap ≠ renamed.renameMap ∧
      doSquash alpha smallAlpha st' 2 = .ok squashed ∧ squashed.renameMap = renamed.renameMap := by
  obtain ⟨infos, st, renamed, info, infos', st', hrun, hsn, hrename, hrun', hne⟩ :
      ∃ infos st renamed info infos' st', (instMachine alpha smallAlpha).run (State.initial alpha smallAlpha)
          [.renameInst (fun _ i => i) 1 [floatReg 1]] = .ok (infos, st) ∧
          (∀ entry ∈ st.historyBuffer, entry.instSeqNum < 2) ∧
        (instMachine alpha smallAlpha).step st (.renameInst (fun _ i => i) 2 [floatReg 2, floatReg 2]) =
          .ok (info, renamed) ∧
        (instMachine alpha smallAlpha).run renamed [.removeFromHistory 1, .renameInst (fun _ i => i) 3 [floatReg 2]] =
          .ok (infos', st') ∧
        st'.renameMap (.FloatRegClass, 2) ≠ renamed.renameMap (.FloatRegClass, 2) :=
    ⟨_, _, _, _, _, _, rfl, by decide, rfl, rfl, by decide⟩
  have hlater : ∀ op ∈ [InstOp.removeFromHistory 1, .renameInst (fun _ i => i) 3 [floatReg 2]], op.Follows 2 := by
    simp [InstOp.Follows]
  obtain ⟨squashed, hsquash, hmap, -⟩ :=
    doSquash_restores_renameMap rfl hrun ⟨fun _ h => (by cases h), fun _ _ _ => trivial⟩
    hsn hrename hlater hrun'
  exact ⟨st, infos, renamed, info, infos', st', squashed, hrun, hrename, hrun', fun heq => hne (heq ▸ rfl), hsquash,
    hmap⟩

end Gem5.O3.Rename
