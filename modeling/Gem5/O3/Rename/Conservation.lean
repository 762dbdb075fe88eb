import Gem5.Lib.UndoLog
import Gem5.O3.Rename.Model

open Lib Result Lib.UndoLog Function List

namespace Gem5.O3.Rename

open PhysRegFile (getRegIds)

variable {isa : TheISA} {p : Params}

/-- The change of the rename map that an entry of the history buffer records. -/
def RenameHistory.change (entry : RenameHistory) : Change (RegClass × Nat) PhysRegIdPtr :=
  ⟨(entry.archReg.regClass, entry.archReg.index), entry.newPhysReg, entry.prevPhysReg⟩

/-- The changes that a history records. Entries whose new register is the previous
one changed nothing. -/
def changes (history : List RenameHistory) : List (Change (RegClass × Nat) PhysRegIdPtr) :=
  (history.filter fun entry => entry.newPhysReg ≠ entry.prevPhysReg).map RenameHistory.change

/-- The entries of the rename map of a class. -/
def keys (isa : TheISA) (c : RegClass) : List (RegClass × Nat) := (range (mapSize isa c)).map (Prod.mk c)

/-- Every physical register is free, mapped or about to be given back, and only
one of these. A zero register stays with the architectural zero register, or
with the entries that renamed it. -/
structure Conserved (isa : TheISA) (p : Params) (freeList : RegClass → List PhysRegId)
    (renameMap : RegClass × Nat → PhysRegIdPtr) (log : List (Change (RegClass × Nat) PhysRegIdPtr)) : Prop where
  unwinds : Unwinds renameMap log
  inRange : ∀ change ∈ log, inUse p change.key.1 = true ∧ change.key ∈ keys isa change.key.1
  pool : ∀ c, inUse p c = true →
    ((freeList c).map some ++ holdings (keys isa c) renameMap log).Perm
      ((getRegIds isa p c).map some)
  idle : ∀ c, inUse p c = false → freeList c = []
  notFree : ∀ c, ∀ reg ∈ freeList c, reg.isZeroReg isa = false
  notNew : ∀ change ∈ log, ∀ z : PhysRegId, z.isZeroReg isa = true → change.new ≠ some z
  pinned : ∀ change ∈ log, ∀ z : PhysRegId, z.isZeroReg isa = true → change.old = some z →
    change.key = (z.regClass, isa.ZeroReg)
  mapped : ∀ key, ∀ z : PhysRegId, z.isZeroReg isa = true → renameMap key = some z →
    key = (z.regClass, isa.ZeroReg)
  intZero : ∀ change ∈ log, change.key ≠ (.IntRegClass, isa.ZeroReg)

variable {c : RegClass} {reg : PhysRegId}

section Registers

theorem RegId.scalar_inj : RegId.scalar c i h = RegId.scalar c j h ↔ i = j := by
  simp [RegId.scalar]

theorem getRegIds_regClass (h : reg ∈ getRegIds isa p c) : reg.regClass = c := by
  cases c
  case VecElemClass =>
    obtain ⟨i, -, hmem⟩ := mem_flatMap.mp h
    obtain ⟨e, -, rfl⟩ := mem_map.mp hmem
    rfl
  all_goals
    obtain ⟨i, -, rfl⟩ := mem_map.mp h
    rfl

theorem getRegIds_nodup (isa : TheISA) (p : Params) (c : RegClass) : (getRegIds isa p c).Nodup := by
  cases c
  case VecElemClass =>
    refine nodup_flatMap.mpr ⟨?_, ?_⟩
    · intro i _
      refine nodup_range.map ?_
      intro e e' heq
      simpa [RegId.elem] using heq
    · refine nodup_range.imp ?_
      intro i j hne reg hi hj
      obtain ⟨e, -, rfl⟩ := mem_map.mp hi
      obtain ⟨e', -, heq⟩ := mem_map.mp hj
      simp only [RegId.elem, RegId.mk.injEq] at heq
      exact hne heq.2.1.symm
  all_goals
    refine nodup_range.map ?_
    intro i j heq
    exact RegId.scalar_inj.mp heq

/-- Whether a register is a zero register depends on its class and index only. -/
theorem isZeroReg_of_index {z reg : RegId} (hz : z.isZeroReg isa = true) (hclass : reg.regClass = z.regClass)
    (hindex : reg.index = isa.ZeroReg) : reg.isZeroReg isa = true := by
  simp only [RegId.isZeroReg, Bool.or_eq_true, Bool.and_eq_true, beq_iff_eq] at hz ⊢
  rw [hclass]
  rcases hz with ⟨hint, -⟩ | ⟨hfloat, -⟩
  · exact .inl ⟨hint, hindex⟩
  · exact .inr ⟨hfloat, hindex⟩

theorem regIdx_of_getElem? (hreg : ((range n).map fun i => RegId.scalar c i h)[i]? = some reg) : i = reg.regIdx := by
  obtain ⟨hlt, rfl⟩ := List.getElem?_eq_some_iff.mp hreg
  rw [getElem_map, getElem_range]
  rfl

/-- The zero registers are the ones with the index of the architectural zero
register. -/
theorem getRegIds_zero (hz : z.isZeroReg isa = true) (h : (getRegIds isa p c)[i]? = some z) :
    (c, i) = (z.regClass, isa.ZeroReg) := by
  have hclass := getRegIds_regClass (mem_of_getElem? h)
  simp only [RegId.isZeroReg, Bool.or_eq_true, Bool.and_eq_true, beq_iff_eq] at hz
  -- Both classes number their registers by index.
  have hindex : i = z.regIdx := by
    rcases hz with ⟨hint, -⟩ | ⟨⟨-, hfloat⟩, -⟩
    · rw [← hclass, hint] at h
      exact regIdx_of_getElem? h
    · rw [← hclass, hfloat] at h
      exact regIdx_of_getElem? h
  rcases hz with ⟨-, hzero⟩ | ⟨-, hzero⟩ <;> rw [hclass, hindex, hzero]

end Registers

variable {key : RegClass × Nat}

section Keys

theorem keys_nodup (isa : TheISA) (c : RegClass) : (keys isa c).Nodup :=
  nodup_range.map fun _ _ h => (Prod.mk.inj h).2

theorem mem_keys : key ∈ keys isa c ↔ key.1 = c ∧ key.2 < mapSize isa c := by
  obtain ⟨c', i⟩ := key
  simp only [keys, mem_map, mem_range, Prod.mk.injEq]
  constructor
  · rintro ⟨j, hj, rfl, rfl⟩
    exact ⟨rfl, hj⟩
  · rintro ⟨rfl, hi⟩
    exact ⟨i, hi, rfl, rfl⟩

theorem changes_cons_of_ne (h : entry.newPhysReg ≠ entry.prevPhysReg) (history : List RenameHistory) :
    changes (entry :: history) = entry.change :: changes history := by
  rw [changes, filter_cons_of_pos (by simpa using h), map_cons, changes]

theorem changes_cons_of_eq (h : entry.newPhysReg = entry.prevPhysReg) (history : List RenameHistory) :
    changes (entry :: history) = changes history := by
  rw [changes, filter_cons_of_neg (by simpa using h), changes]

theorem changes_nil : changes [] = [] := rfl

theorem changes_append (newer older : List RenameHistory) :
    changes (newer ++ older) = changes newer ++ changes older := by
  rw [changes, filter_append, map_append, changes, changes]

end Keys

section Steps

variable {freeList : RegClass → List PhysRegId} {renameMap : RegClass × Nat → PhysRegIdPtr}
  {log : List (Change (RegClass × Nat) PhysRegIdPtr)}

/-- What is held for a class are physical registers of that class. -/
theorem Conserved.mem_getRegIds (h : Conserved isa p freeList renameMap log) (hc : inUse p c = true)
    {reg : PhysRegIdPtr} (hmem : reg ∈ holdings (keys isa c) renameMap log) :
    ∃ phys ∈ getRegIds isa p c, reg = some phys := by
  have hpool := (h.pool c hc).subset (mem_append_right _ hmem)
  obtain ⟨phys, hphys, rfl⟩ := mem_map.mp hpool
  exact ⟨phys, hphys, rfl⟩

theorem Conserved.not_held (h : Conserved isa p freeList renameMap log) (hc : inUse p c = true)
    (hfree : reg ∈ freeList c) : some reg ∉ holdings (keys isa c) renameMap log := by
  have hnodup : ((freeList c).map some ++ holdings (keys isa c) renameMap log).Nodup :=
    (h.pool c hc).nodup_iff.mpr ((getRegIds_nodup isa p c).map (Option.some_injective _))
  exact fun hheld => (nodup_append.mp hnodup).2.2 _ (mem_map_of_mem hfree) _ hheld rfl

theorem mem_holdings_of_mem_keys (hkey : key ∈ keys isa c) : renameMap key ∈ holdings (keys isa c) renameMap log :=
  mem_append_left _ (mem_map_of_mem hkey)

/-- A free register is mapped. -/
theorem Conserved.push (h : Conserved isa p freeList renameMap log) (hc : inUse p key.1 = true)
    (hkey : key ∈ keys isa key.1) (hzero : key ≠ (.IntRegClass, isa.ZeroReg)) (hfree : freeList key.1 = reg :: rest) :
    Conserved isa p (update freeList key.1 rest) (update renameMap key (some reg))
      (⟨key, some reg, renameMap key⟩ :: log) := by
  have hreg : reg.isZeroReg isa = false := h.notFree key.1 reg (hfree ▸ mem_cons_self)
  have hnotz : ∀ z : PhysRegId, z.isZeroReg isa = true → some reg ≠ some z := by
    rintro z hz heq
    rw [Option.some.inj heq, hz] at hreg
    cases hreg
  refine ⟨h.unwinds.push key (some reg), ?_, ?_, ?_, ?_, ?_, ?_, ?_, ?_⟩
  · exact forall_mem_cons.mpr ⟨⟨hc, hkey⟩, h.inRange⟩
  · intro c hin
    by_cases heq : c = key.1
    · subst heq
      have hpool := h.pool key.1 hin
      rw [hfree] at hpool
      rw [update_self]
      refine ((holdings_push (keys_nodup isa _) hkey (some reg)).append_left _).trans ?_
      exact perm_middle.trans hpool
    · have hother : key ∉ keys isa c := fun hmem => heq (mem_keys.mp hmem).1.symm
      rw [update_of_ne heq, holdings_cons_of_not_mem hother, holdings_update_of_not_mem hother]
      exact h.pool c hin
  · intro c hidle
    rw [update_of_ne (by rintro rfl; simp [hc] at hidle)]
    exact h.idle c hidle
  · intro c other hmem
    by_cases heq : c = key.1
    · subst heq
      rw [update_self] at hmem
      exact h.notFree key.1 other (hfree ▸ mem_cons_of_mem _ hmem)
    · rw [update_of_ne heq] at hmem
      exact h.notFree c other hmem
  · exact forall_mem_cons.mpr ⟨hnotz, h.notNew⟩
  · exact forall_mem_cons.mpr ⟨fun z hz hold => h.mapped key z hz hold, h.pinned⟩
  · intro other z hz hmap
    by_cases heq : other = key
    · rw [heq, update_self] at hmap
      exact absurd hmap (hnotz z hz)
    · rw [update_of_ne heq] at hmap
      exact h.mapped other z hz hmap
  · exact forall_mem_cons.mpr ⟨hzero, h.intZero⟩

/-- A register that is not the zero register becomes free. -/
theorem notFree_append (hreg : reg.isZeroReg isa = false)
    (hfree : ∀ c, ∀ reg ∈ freeList c, reg.isZeroReg isa = false) (c : RegClass) :
    ∀ other ∈ update freeList reg.regClass (freeList reg.regClass ++ [reg]) c, other.isZeroReg isa = false := by
  by_cases heq : c = reg.regClass
  · subst heq
    rw [update_self]
    exact forall_mem_append.mpr ⟨hfree _, forall_mem_singleton.mpr hreg⟩
  · rw [update_of_ne heq]
    exact hfree c

/-- A register that the map and the log no longer hold becomes free. -/
theorem Conserved.release (h : Conserved isa p freeList renameMap log) (hc : inUse p key.1 = true)
    (hheld : (holdings (keys isa key.1) renameMap log).Perm (some reg :: holdings (keys isa key.1) renameMap' log'))
    (hother : ∀ c, key ∉ keys isa c → holdings (keys isa c) renameMap log = holdings (keys isa c) renameMap' log') :
    (∀ c, inUse p c = true → ((update freeList reg.regClass (freeList reg.regClass ++ [reg]) c).map some ++
        holdings (keys isa c) renameMap' log').Perm ((getRegIds isa p c).map some)) ∧
      ∀ c, inUse p c = false → update freeList reg.regClass (freeList reg.regClass ++ [reg]) c = [] := by
  have hclass : reg.regClass = key.1 := by
    obtain ⟨phys, hphys, heq⟩ := h.mem_getRegIds hc (hheld.mem_iff.mpr mem_cons_self)
    rw [Option.some.inj heq]
    exact getRegIds_regClass hphys
  rw [hclass]
  refine ⟨fun c hin => ?_, fun c hidle => ?_⟩
  · by_cases heq : c = key.1
    · subst heq
      rw [update_self, map_append, append_assoc]
      exact (hheld.symm.append_left _).trans (h.pool _ hin)
    · rw [update_of_ne heq, ← hother c fun hmem => heq (mem_keys.mp hmem).1.symm]
      exact h.pool c hin
  · rw [update_of_ne (by rintro rfl; simp [hc] at hidle)]
    exact h.idle c hidle

/-- The newest change is undone, and its register becomes free. -/
theorem Conserved.pop (h : Conserved isa p freeList renameMap (change :: log)) (hreg : change.new = some reg) :
    Conserved isa p (update freeList reg.regClass (freeList reg.regClass ++ [reg]))
      (update renameMap change.key change.old) log := by
  obtain ⟨⟨hc, hkey⟩, hrange⟩ := forall_mem_cons.mp h.inRange
  obtain ⟨hnotz, hnew⟩ := forall_mem_cons.mp h.notNew
  obtain ⟨hpinned, hpins⟩ := forall_mem_cons.mp h.pinned
  obtain ⟨hpool, hidle⟩ := h.release hc (hreg ▸ holdings_pop (keys_nodup isa _) hkey h.unwinds.1) fun c hother => by
    rw [holdings_cons_of_not_mem hother, holdings_update_of_not_mem hother]
  have hzero : reg.isZeroReg isa = false := by
    by_contra hz
    exact hnotz reg (by simpa using hz) hreg
  refine ⟨h.unwinds.2, hrange, hpool, hidle, notFree_append hzero h.notFree, hnew, hpins, ?_,
    (forall_mem_cons.mp h.intZero).2⟩
  intro key z hz hmap
  by_cases heq : key = change.key
  · rw [heq, update_self] at hmap
    rw [heq]
    exact hpinned z hz hmap
  · rw [update_of_ne heq] at hmap
    exact h.mapped key z hz hmap

/-- The oldest change is committed, and the register it replaced becomes free. -/
theorem Conserved.commit {change : Change (RegClass × Nat) PhysRegIdPtr}
    (h : Conserved isa p freeList renameMap (log ++ [change])) (hreg : change.old = some reg)
    (hzero : reg.isZeroReg isa = false) :
    Conserved isa p (update freeList reg.regClass (freeList reg.regClass ++ [reg])) renameMap log := by
  obtain ⟨hc, hkey⟩ := h.inRange change (by simp)
  obtain ⟨hpool, hidle⟩ := h.release hc (hreg ▸ holdings_concat hkey) fun c hother => holdings_concat_of_not_mem hother
  have hsub : ∀ other ∈ log, other ∈ log ++ [change] := fun _ => mem_append_left _
  exact ⟨h.unwinds.of_append, fun other hmem => h.inRange other (hsub other hmem), hpool, hidle,
    notFree_append hzero h.notFree, fun other hmem => h.notNew other (hsub other hmem),
    fun other hmem => h.pinned other (hsub other hmem), h.mapped, fun other hmem => h.intZero other (hsub other hmem)⟩

end Steps

section Operations

variable {st st' : State}

theorem inUse_of_checkMode (hmisc : c ≠ .MiscRegClass) (h : checkMode p c = .ok ()) : inUse p c = true := by
  cases c
  case MiscRegClass => exact absurd rfl hmisc
  case VecRegClass => exact require_eq_ok_iff.mp h
  case VecElemClass => exact require_eq_ok_iff.mp h
  all_goals rfl

variable {arch_reg : RegId}

/-- Only the integer zero register is recognised as a zero register. -/
theorem eq_zeroReg (hclass : arch_reg.regClass = .IntRegClass) (hindex : arch_reg.index = isa.ZeroReg) :
    arch_reg = zeroReg isa arch_reg.regClass := by
  obtain ⟨regClass, regIdx, elemIdx, helem⟩ := arch_reg
  subst hclass
  have hnone : elemIdx = none := by simpa using helem
  subst hnone
  simp only [RegId.index] at hindex
  simp [zeroReg, initZeroReg, RegId.scalar, hindex]

theorem addReg_eq_ok_iff {reg : PhysRegIdPtr} :
    addReg st reg = .ok st' ↔ ∃ phys, reg = some phys ∧ phys.regClass ≠ .MiscRegClass ∧ st' = { st with
        freeList := update st.freeList phys.regClass (st.freeList phys.regClass ++ [phys]) } := by
  cases reg with
  | none => simp [addReg]
  | some phys =>
    simp only [addReg, bind_eq_ok_iff, require_eq_ok_iff, Option.some.injEq, Except.ok.injEq]
    constructor
    · rintro ⟨-, hmisc, rfl⟩
      exact ⟨phys, rfl, by simpa using hmisc, rfl⟩
    · rintro ⟨_, rfl, hmisc, rfl⟩
      exact ⟨(), by simpa using hmisc, rfl⟩

/-- What renaming a destination does to the rename map and the free list. -/
theorem rename_spec (h : rename isa p st arch_reg = .ok (info, st')) : info.1 = info.2 ∧ st' = st ∨
      ∃ reg rest, inUse p arch_reg.regClass = true ∧ arch_reg.index < mapSize isa arch_reg.regClass ∧
        arch_reg ≠ zeroReg isa arch_reg.regClass ∧ st.freeList arch_reg.regClass = reg :: rest ∧
        info = (some reg, st.renameMap (arch_reg.regClass, arch_reg.index)) ∧ st' = { st with
          freeList := update st.freeList arch_reg.regClass rest
          renameMap := update st.renameMap (arch_reg.regClass, arch_reg.index) (some reg) } := by
  unfold rename at h
  by_cases hmisc : arch_reg.regClass = .MiscRegClass
  · rw [if_pos hmisc] at h
    obtain ⟨phys, -, hdone⟩ := bind_ok h
    cases hdone
    exact .inl ⟨rfl, rfl⟩
  rw [if_neg hmisc] at h
  obtain ⟨_, hmode, hrename⟩ := bind_ok h
  unfold SimpleRenameMap.rename at hrename
  by_cases hindex : arch_reg.index < mapSize isa arch_reg.regClass
  · rw [if_pos hindex] at hrename
    by_cases hzero : arch_reg ≠ zeroReg isa arch_reg.regClass
    · rw [if_pos hzero] at hrename
      right
      cases hfree : st.freeList arch_reg.regClass with
      | nil =>
        rw [hfree] at hrename
        cases hrename
      | cons reg rest =>
        rw [hfree] at hrename
        cases hrename
        exact ⟨reg, rest, inUse_of_checkMode hmisc hmode, hindex, hzero, rfl, rfl, rfl⟩
    · rw [if_neg hzero] at hrename
      left
      cases hprev : st.renameMap (arch_reg.regClass, arch_reg.index) with
      | none =>
        rw [hprev] at hrename
        cases hrename
      | some prev =>
        rw [hprev] at hrename
        obtain ⟨-, -, hdone⟩ := bind_ok hrename
        cases hdone
        exact ⟨rfl, rfl⟩
  · rw [if_neg hindex] at hrename
    cases hrename

/-- The invariant of the stage. -/
def State.Conserved (isa : TheISA) (p : Params) (st : State) : Prop :=
  Rename.Conserved isa p st.freeList st.renameMap (changes st.historyBuffer)

theorem State.Conserved.renameDestReg (h : st.Conserved isa p)
    (hrename : renameDestReg isa p seqNum st dest_reg = .ok (info, st')) : st'.Conserved isa p := by
  obtain ⟨⟨info', renamed⟩, hcall, hdone⟩ := bind_ok hrename
  cases hdone
  unfold State.Conserved at h ⊢
  rcases rename_spec hcall with ⟨hsame, rfl⟩ | ⟨reg, rest, hin, hindex, hzero, hfree, rfl, rfl⟩
  · rw [changes_cons_of_eq hsame]
    exact h
  have hkey : (dest_reg.regClass, dest_reg.index) ∈ keys isa dest_reg.regClass := mem_keys.mpr ⟨rfl, hindex⟩
  have hne : some reg ≠ st.renameMap (dest_reg.regClass, dest_reg.index) := by
    intro heq
    refine h.not_held hin (hfree ▸ mem_cons_self) ?_
    rw [heq]
    exact mem_holdings_of_mem_keys hkey
  have hint : (dest_reg.regClass, dest_reg.index) ≠ (.IntRegClass, isa.ZeroReg) := by
    intro heq
    obtain ⟨hclass, hidx⟩ := Prod.mk.inj heq
    exact hzero (eq_zeroReg hclass hidx)
  rw [changes_cons_of_ne hne]
  exact h.push hin hkey hint hfree

theorem State.Conserved.renameDestRegs (h : st.Conserved isa p)
    (hrename : renameDestRegs isa p seqNum st dest_regs = .ok (infos, st')) : st'.Conserved isa p := by
  induction dest_regs generalizing st infos with
  | nil =>
    cases hrename
    exact h
  | cons dest_reg rest ih =>
    obtain ⟨⟨info, next⟩, hfirst, hrest⟩ := bind_ok hrename
    obtain ⟨⟨later, last⟩, hlater, hdone⟩ := bind_ok hrest
    cases hdone
    exact ih (h.renameDestReg hfirst) hlater

/-- Putting a mapping back changes the entry at the flat index. -/
theorem setEntry_spec (hmisc : arch_reg.regClass ≠ .MiscRegClass) (h : setEntry isa p st arch_reg phys_reg = .ok st') :
    st' = { st with renameMap := update st.renameMap (arch_reg.regClass, arch_reg.flatIndex isa) phys_reg } := by
  unfold setEntry at h
  rw [if_neg hmisc] at h
  cases phys_reg with
  | none => cases h
  | some phys =>
    obtain ⟨-, -, -, -, -, -, h⟩ := bind_ok₃ h
    split at h
    · cases h
      rfl
    · cases h

theorem inUse_ne_misc (h : inUse p c = true) : c ≠ .MiscRegClass := by
  rintro rfl
  cases h

/-- The loop of `doSquash`, over entries whose flat index is their index. -/
theorem Conserved.undoNewest (h : Conserved isa p st.freeList st.renameMap (changes history))
    (hindex : ∀ entry ∈ history.takeWhile fun entry => entry.instSeqNum > squashed_seq_num,
      entry.archReg.index = entry.archReg.flatIndex isa)
    (hundo : undoNewest isa p squashed_seq_num history st = .ok (rest, st')) :
    Conserved isa p st'.freeList st'.renameMap (changes rest) := by
  induction history generalizing st with
  | nil =>
    cases hundo
    exact h
  | cons entry older ih =>
    rw [Rename.undoNewest] at hundo
    by_cases hyounger : entry.instSeqNum > squashed_seq_num
    · rw [if_pos hyounger] at hundo
      rw [takeWhile_cons_of_pos (by simpa using hyounger)] at hindex
      obtain ⟨hentry, hindex⟩ := forall_mem_cons.mp hindex
      obtain ⟨undone, hfirst, hrest⟩ := bind_ok hundo
      refine ih ?_ hindex hrest
      unfold undoRename at hfirst
      by_cases hne : entry.newPhysReg ≠ entry.prevPhysReg
      · rw [if_pos hne] at hfirst
        rw [changes_cons_of_ne hne] at h
        obtain ⟨back, hset, hfree⟩ := bind_ok hfirst
        have hmisc := inUse_ne_misc (h.inRange entry.change mem_cons_self).1
        have hback := setEntry_spec hmisc hset
        rw [← hentry] at hback
        subst hback
        obtain ⟨reg, hreg, -, rfl⟩ := addReg_eq_ok_iff.mp hfree
        exact h.pop hreg
      · rw [if_neg hne] at hfirst
        cases hfirst
        rw [changes_cons_of_eq (not_not.mp hne)] at h
        exact h
    · rw [if_neg hyounger] at hundo
      cases hundo
      exact h

/-- The loop of `removeFromHistory`, over entries that do not rename the
floating-point zero register. -/
theorem Conserved.commitOldest (h : Conserved isa p st.freeList st.renameMap (changes queue.reverse))
    (hzero : ∀ entry ∈ queue.takeWhile fun entry => entry.instSeqNum ≤ inst_seq_num,
      entry.archReg.isZeroReg isa = true → entry.archReg.regClass = .IntRegClass)
    (hcommit : commitOldest inst_seq_num queue st = .ok (rest, st')) :
    Conserved isa p st'.freeList st'.renameMap (changes rest.reverse) := by
  induction queue generalizing st with
  | nil =>
    cases hcommit
    exact h
  | cons entry younger ih =>
    rw [Rename.commitOldest] at hcommit
    by_cases hdone : entry.instSeqNum ≤ inst_seq_num
    · rw [if_pos hdone] at hcommit
      rw [takeWhile_cons_of_pos (by simpa using hdone)] at hzero
      obtain ⟨hentry, hzero⟩ := forall_mem_cons.mp hzero
      obtain ⟨freed, hfirst, hrest⟩ := bind_ok hcommit
      refine ih ?_ hzero hrest
      rw [reverse_cons, changes_append] at h
      unfold freePrev at hfirst
      by_cases hne : entry.newPhysReg ≠ entry.prevPhysReg
      · rw [if_pos hne] at hfirst
        rw [changes_cons_of_ne hne] at h
        obtain ⟨reg, hreg, -, rfl⟩ := addReg_eq_ok_iff.mp hfirst
        refine h.commit hreg ?_
        -- A zero register would be the previous one of the zero register of its class.
        by_contra hz
        rw [Bool.not_eq_false] at hz
        have hmem : entry.change ∈ changes younger.reverse ++ [entry.change] := by simp
        have hkey := h.pinned entry.change hmem reg hz hreg
        obtain ⟨hclass, hidx⟩ := Prod.mk.inj hkey
        have hint := hentry (isZeroReg_of_index hz hclass hidx)
        exact h.intZero entry.change hmem (Prod.ext hint hidx)
      · rw [if_neg hne] at hfirst
        cases hfirst
        rw [changes_cons_of_eq (not_not.mp hne), changes_nil, append_nil] at h
        exact h
    · rw [if_neg hdone] at hcommit
      cases hcommit
      exact h

end Operations

section Initial

theorem map_getElem?_range {A : Type} {l : List A} (h : n ≤ l.length) :
    ((range n).map fun i => l[i]?) = (l.take n).map some := by
  apply ext_getElem
  · simp [h]
  · intro i hi _
    have hlt : i < l.length := by
      rw [length_map, length_range] at hi
      omega
    simp [hlt]

theorem mapSize_le (hint : isa.NumIntRegs ≤ p.numPhysIntRegs) (hfloat : isa.NumFloatRegs ≤ p.numPhysFloatRegs)
    (hvec : isa.NumVecRegs ≤ p.numPhysVecRegs) (hcc : isa.NumCCRegs ≤ p.numPhysCCRegs) (c : RegClass) :
    mapSize isa c ≤ (getRegIds isa p c).length := by
  cases c
  case IntRegClass => simpa [mapSize, getRegIds] using hint
  case FloatRegClass => simpa [mapSize, getRegIds] using hfloat
  case VecRegClass => simpa [mapSize, getRegIds] using hvec
  case VecElemClass =>
    simp only [mapSize, getRegIds, length_flatMap, length_map, length_range, map_const', sum_replicate_nat]
    exact Nat.mul_le_mul_right _ hvec
  case CCRegClass => simpa [mapSize, getRegIds] using hcc
  case MiscRegClass => exact Nat.zero_le _

theorem construct_spec (hst : construct isa p = .ok st) :
    (∀ c, mapSize isa c ≤ (getRegIds isa p c).length) ∧ st = State.initial isa p := by
  simp only [construct, bind_eq_ok_iff, require_eq_ok_iff, decide_eq_true_eq] at hst
  obtain ⟨-, hint, -, hfloat, -, hvec, -, hcc, hdone⟩ := hst
  cases hdone
  exact ⟨mapSize_le hint hfloat hvec hcc, rfl⟩

theorem zeroReg_lt_mapSize {z : PhysRegId} (hz : z.isZeroReg isa = true) : isa.ZeroReg < mapSize isa z.regClass := by
  simp only [RegId.isZeroReg, Bool.or_eq_true, Bool.and_eq_true, beq_iff_eq] at hz
  rcases hz with ⟨hint, -⟩ | ⟨⟨halpha, hfloat⟩, -⟩
  · rw [hint]
    exact isa.zeroReg_lt
  · rw [hfloat]
    exact isa.floatZeroReg_lt halpha

theorem conserved_initial (hsize : ∀ c, mapSize isa c ≤ (getRegIds isa p c).length) :
    (State.initial isa p).Conserved isa p := by
  have hnone : ∀ change ∈ changes (State.initial isa p).historyBuffer, False := fun _ => not_mem_nil
  refine ⟨trivial, fun change hmem => (hnone change hmem).elim, ?_, ?_, ?_, fun change hmem => (hnone change hmem).elim,
    fun change hmem => (hnone change hmem).elim, ?_, fun change hmem => (hnone change hmem).elim⟩
  · intro c hc
    have hmap : (keys isa c).map (State.initial isa p).renameMap =
        ((getRegIds isa p c).take (mapSize isa c)).map some := by
      rw [← map_getElem?_range (hsize c), keys, map_map]
      apply map_congr_left
      intro i hi
      exact if_pos ⟨hc, mem_range.mp hi⟩
    have hfree : (State.initial isa p).freeList c = (getRegIds isa p c).drop (mapSize isa c) := if_pos hc
    rw [holdings, hmap, hfree]
    simp only [State.initial, changes_nil, filter_nil, map_nil, append_nil]
    refine perm_append_comm.trans ?_
    rw [← map_append, take_append_drop]
  · intro c hc
    exact if_neg (by simp [hc])
  · intro c reg hmem
    by_contra hz
    rw [Bool.not_eq_false] at hz
    have hdrop : reg ∈ (getRegIds isa p c).drop (mapSize isa c) := by
      simp only [State.initial] at hmem
      split at hmem
      · exact hmem
      · cases hmem
    obtain ⟨i, hi⟩ := mem_iff_getElem?.mp hdrop
    rw [getElem?_drop] at hi
    obtain ⟨hclass, hidx⟩ := Prod.mk.inj (getRegIds_zero hz hi)
    have hlt := zeroReg_lt_mapSize hz
    rw [← hclass, ← hidx] at hlt
    exact absurd hlt (Nat.not_lt.mpr (Nat.le_add_right ..))
  · rintro ⟨c, i⟩ z hz hmap
    simp only [State.initial] at hmap
    split at hmap
    · exact getRegIds_zero hz hmap
    · cases hmap

end Initial

/-- The steps that conserve the registers: a squash undoes no rename of a vector
element whose flat index is not its index, and no committed rename is one of
the floating-point zero register. -/
def Restorable (isa : TheISA) : State → Op → Prop
  | st, .doSquash squashed_seq_num =>
    ∀ entry ∈ st.historyBuffer.takeWhile fun entry => entry.instSeqNum > squashed_seq_num,
      entry.archReg.index = entry.archReg.flatIndex isa
  | st, .removeFromHistory inst_seq_num =>
    ∀ entry ∈ st.historyBuffer.reverse.takeWhile fun entry => entry.instSeqNum ≤ inst_seq_num,
      entry.archReg.isZeroReg isa = true → entry.archReg.regClass = .IntRegClass
  | _, .renameDestRegs _ _ => True

theorem State.Conserved.step (h : st.Conserved isa p) (hop : Restorable isa st op)
    (hstep : (machine isa p).step st op = .ok (infos, st')) : st'.Conserved isa p := by
  cases op with
  | renameDestRegs seqNum dest_regs => exact h.renameDestRegs hstep
  | doSquash squashed_seq_num =>
    obtain ⟨left, hsquash, hdone⟩ := bind_ok hstep
    cases hdone
    obtain ⟨⟨rest, undone⟩, hundo, hdone⟩ := bind_ok hsquash
    cases hdone
    have hconserved := Rename.Conserved.undoNewest h hop hundo
    exact hconserved
  | removeFromHistory inst_seq_num =>
    obtain ⟨left, hremove, hdone⟩ := bind_ok hstep
    cases hdone
    obtain ⟨⟨rest, freed⟩, hcommit, hdone⟩ := bind_ok hremove
    cases hdone
    have hreverse : Rename.Conserved isa p st.freeList st.renameMap (changes st.historyBuffer.reverse.reverse) := by
      rw [reverse_reverse]
      exact h
    have hconserved := Rename.Conserved.commitOldest hreverse hop hcommit
    exact hconserved

/-- What the map and the log hold of a class are the entries of its map and the
previous registers of its renames. -/
theorem Conserved.holdings_eq {freeList : RegClass → List PhysRegId} {renameMap : RegClass × Nat → PhysRegIdPtr}
    (h : Conserved isa p freeList renameMap (changes history)) (c : RegClass) :
    holdings (keys isa c) renameMap (changes history) = ((range (mapSize isa c)).map fun i => renameMap (c, i)) ++
        (history.filter fun entry => entry.newPhysReg ≠ entry.prevPhysReg ∧ entry.archReg.regClass = c).map
          RenameHistory.prevPhysReg := by
  have hkey : ∀ entry ∈ history.filter fun entry => entry.newPhysReg ≠ entry.prevPhysReg,
      entry.change.key ∈ keys isa c ↔ entry.archReg.regClass = c := by
    intro entry hmem
    have hrange := (h.inRange entry.change (mem_map_of_mem hmem)).2
    constructor
    · exact fun hkeys => (mem_keys.mp hkeys).1
    · rintro rfl
      exact hrange
  rw [holdings, changes, filter_map, map_map, filter_filter, keys, map_map]
  congr 2
  apply filter_congr
  intro entry hmem
  by_cases hne : entry.newPhysReg ≠ entry.prevPhysReg
  · have hiff := hkey entry (mem_filter.mpr ⟨hmem, decide_eq_true hne⟩)
    simpa [hne, keys] using hiff
  · simp [hne]

/-- The registers of the rename stage are conserved in every run whose steps are
restorable: for each class of registers, the free list, the rename map and the
previous registers of the renames in flight have every physical register exactly
once, and no zero register or register with a fixed mapping is free. -/
theorem physical_registers_conserved (isa : TheISA) (p : Params) (st st' : State) (hst : construct isa p = .ok st)
    (ops : List Op) (infos : List (List RenameInfo)) (hrun : (machine isa p).run st ops = .ok (infos, st'))
    (hops : (machine isa p).StepsAll (Restorable isa) st ops) : (∀ c, inUse p c = true → (getRegIds isa p c).Nodup ∧
      ((st'.freeList c).map some ++ ((range (mapSize isa c)).map fun i => st'.renameMap (c, i)) ++
        (st'.historyBuffer.filter fun entry =>
          entry.newPhysReg ≠ entry.prevPhysReg ∧ entry.archReg.regClass = c).map RenameHistory.prevPhysReg).Perm
        ((getRegIds isa p c).map some)) ∧
      ∀ c, ∀ reg ∈ st'.freeList c, reg.isZeroReg isa = false ∧ PhysRegId.isFixedMapping reg = false := by
  obtain ⟨hsize, rfl⟩ := construct_spec hst
  have hconserved : st'.Conserved isa p := by
    refine Machine.run_invariant ?_ (conserved_initial hsize) hops hrun
    intro s op info s' h hop hstep
    exact h.step hop hstep
  refine ⟨?_, ?_⟩
  · intro c hc
    refine ⟨getRegIds_nodup isa p c, ?_⟩
    have hpool := hconserved.pool c hc
    rw [Conserved.holdings_eq hconserved, ← append_assoc] at hpool
    exact hpool
  · intro c reg hmem
    refine ⟨hconserved.notFree c reg hmem, ?_⟩
    cases hc : inUse p c with
    | false =>
      rw [hconserved.idle c hc] at hmem
      cases hmem
    | true =>
      have hpool := (hconserved.pool c hc).subset (mem_append_left _ (mem_map_of_mem hmem))
      have hclass := getRegIds_regClass ((mem_map_of_injective (Option.some_injective _)).mp hpool)
      have hmisc := inUse_ne_misc hc
      simp [PhysRegId.isFixedMapping, RegId.isRenameable, hclass, hmisc]

/-- An Alpha processor with a few registers to spare. -/
def smallAlpha : Params where
  numPhysIntRegs := 41
  numPhysFloatRegs := 35
  numPhysVecRegs := 1
  numPhysCCRegs := 0
  vecMode := .Full

/-- A destination of the integer or the floating-point registers. -/
def intReg (i : Nat) : RegId := .scalar .IntRegClass i RegClass.int_ne_vecElem

def floatReg (i : Nat) : RegId := .scalar .FloatRegClass i RegClass.float_ne_vecElem

/-- Two instructions, one of which renames a register twice and the integer zero
register; the other is squashed. -/
def squashedRenames : List Op :=
  [.renameDestRegs 1 [floatReg 1, floatReg 1, intReg 31, intReg 5], .renameDestRegs 2 [floatReg 1],
  .doSquash 1, .removeFromHistory 1]

theorem squashedRenames_restorable :
    (machine alpha smallAlpha).StepsAll (Restorable alpha) (State.initial alpha smallAlpha) squashedRenames := by
  refine ⟨trivial, ?_⟩
  intro infos state hstep
  cases hstep
  refine ⟨trivial, ?_⟩
  intro infos' state' hstep'
  cases hstep'
  refine ⟨?_, ?_⟩
  · simp only [Restorable]
    decide
  intro infos'' state'' hstep''
  cases hstep''
  refine ⟨?_, fun _ _ _ => trivial⟩
  simp only [Restorable]
  decide

theorem squashed_and_committed_renames_conserve_registers : ∃ st infos st', construct alpha smallAlpha = .ok st ∧
      (machine alpha smallAlpha).run st squashedRenames = .ok (infos, st') ∧
      (st'.historyBuffer = [] ∧ st'.freeList .FloatRegClass = [floatReg 34, floatReg 1, floatReg 32]) ∧
      ∀ reg ∈ st'.freeList .FloatRegClass, reg.isZeroReg alpha = false ∧ PhysRegId.isFixedMapping reg = false := by
  refine ⟨_, ?infos, ?final, rfl, ?run, ?left, (physical_registers_conserved alpha smallAlpha _ _ rfl _ _ ?run
    squashedRenames_restorable).2 .FloatRegClass⟩
  case run => rfl
  case left => exact ⟨rfl, rfl⟩

/-- The rename map of the floating-point registers takes an integer register for
its zero register. So the floating-point zero register of Alpha is renamed like
any other, and the commit frees it. -/
theorem committed_rename_frees_floating_point_zero_register : ∃ st infos st', construct alpha smallAlpha = .ok st ∧
      (machine alpha smallAlpha).run st [.renameDestRegs 1 [floatReg 31], .removeFromHistory 1] = .ok (infos, st') ∧
      st'.freeList .FloatRegClass = [floatReg 33, floatReg 34, floatReg 31] ∧ (floatReg 31).isZeroReg alpha = true :=
  ⟨_, _, _, rfl, rfl, rfl, rfl⟩

def elementsArm : Params where
  numPhysIntRegs := 43
  numPhysFloatRegs := 160
  numPhysVecRegs := 41
  numPhysCCRegs := 6
  vecMode := .Elem

-- `rename` writes the entry of the map under `index`, `setEntry` under `flatIndex`:
-- the squash frees the register of a vector element that stays in the map.
example : ∃ infos st',
    (machine arm elementsArm).run (State.initial arm elementsArm) [.renameDestRegs 1 [.elem 1 0], .doSquash 0] =
      .ok (infos, st') ∧
    st'.freeList .VecElemClass = [.elem 40 1, .elem 40 2, .elem 40 3, .elem 40 0] ∧
    st'.renameMap (.VecElemClass, 1) = some (.elem 40 0) :=
  ⟨_, _, rfl, rfl, rfl⟩

end Gem5.O3.Rename
