import Gem5.O3.LSQUnit.Invariant

open Lib Lib.Circular List

namespace Gem5.O3

namespace Queues

variable {l m : Nat} {q q' : Queues l m}

/-- The stores that can be written back come first, and each of the others has the
place of the first younger load. -/
structure StoresPlaced (q : Queues l m) : Prop where
  committed : q.unsent.Pairwise fun older younger => younger.canWB = true → older.canWB = true
  marks : ∀ tag ∈ q.unsent, tag.canWB = false → Marks LoadTag.seqNum q.loadHead q.loads tag.lqIdx tag.seqNum

/-- What the calls keep to, said of the queues. -/
def CommitsInOrder (q : Queues l m) : LSQUnit.Op l m → Prop
  | .insertLoad seqNum | .insertStore seqNum _ _ => (∀ n ∈ q.loadNums, n < seqNum) ∧ ∀ n ∈ q.storeNums, n < seqNum
  | .executeStore store_idx _ => ∀ pre tag post, q.unsent = pre ++ tag :: post →
    store_idx = advance q.storeHead (q.sent ++ pre).length → tag.isStoreConditional = true →
      ∀ older ∈ pre, older.canWB = true
  | .commitLoads youngest_inst => ∀ tag ∈ q.unsent, tag.canWB = false → youngest_inst < tag.seqNum
  | _ => True

theorem Moves.unsent_sublist (h : Moves q q') : q'.unsent.Sublist q.unsent ∧ q'.loadHead = q.loadHead := by
  cases h with
  | send hnext hcanWB => exact ⟨hnext ▸ sublist_cons_self _ _, rfl⟩
  | _ => exact ⟨.refl _, rfl⟩

namespace StoresPlaced

theorem empty : (Queues.empty : Queues l m).StoresPlaced := ⟨.nil, fun tag h => by cases h⟩

variable (h : q.StoresPlaced)
include h

/-- Some stores leave. -/
theorem sublist (hunsent : q'.unsent.Sublist q.unsent) (hhead : q'.loadHead = q.loadHead)
    (hloads : q'.loads = q.loads) : q'.StoresPlaced := by
  refine ⟨h.committed.sublist hunsent, fun tag htag hcanWB => ?_⟩
  rw [hhead, hloads]
  exact h.marks tag (hunsent.subset htag) hcanWB

theorem moves (hmoves : Relation.ReflTransGen Moves q q') : q'.StoresPlaced := by
  induction hmoves with
  | refl => exact h
  | tail _ hmove ih => exact ih.sublist hmove.unsent_sublist.1 hmove.unsent_sublist.2 hmove.storeNums.2

theorem insertLoad (hyounger : ∀ n ∈ q.storeNums, n < seqNum) : (q.insertLoad seqNum).StoresPlaced :=
  ⟨h.committed, fun tag htag hcanWB => (h.marks tag htag hcanWB).push (hyounger _ (mem_storeNums htag))⟩

theorem insertStore (hyounger : ∀ n ∈ q.loadNums, n < seqNum) (isStoreConditional : Bool) :
    (q.insertStore seqNum isStoreConditional).StoresPlaced := by
  refine ⟨?_, fun tag htag hcanWB => ?_⟩
  · refine pairwise_append.mpr ⟨h.committed, pairwise_singleton _ _, fun older _ younger hyounger hcanWB => ?_⟩
    rw [mem_singleton.mp hyounger] at hcanWB
    cases hcanWB
  · cases mem_append.mp htag with
    | inl htag => exact h.marks tag htag hcanWB
    | inr htag =>
      rw [mem_singleton.mp htag]
      exact .atTail fun load hload => hyounger _ (mem_loadNums hload)

theorem commitLoads (hstores : ∀ tag ∈ q.unsent, tag.canWB = false → youngest_inst < tag.seqNum)
    (hloads : q.loads = done ++ rest) (hdone : ∀ tag ∈ done, tag.seqNum ≤ youngest_inst) :
    { q with loadHead := advance q.loadHead done.length, loads := rest }.StoresPlaced := by
  refine ⟨h.committed, fun tag htag hcanWB => ?_⟩
  have hmarks := h.marks tag htag hcanWB
  rw [hloads] at hmarks
  exact hmarks.popFront fun load hload => Nat.lt_of_le_of_lt (hdone load hload) (hstores tag htag hcanWB)

/-- Some stores at the front can be written back. -/
theorem commit (hunsent : q.unsent = done ++ rest) :
    { q with unsent := done.map StoreTag.commit ++ rest }.StoresPlaced := by
  have hcommit : ∀ tag ∈ done.map StoreTag.commit, tag.canWB = true := by
    intro tag htag
    obtain ⟨before, -, rfl⟩ := mem_map.mp htag
    rfl
  have hcommitted := h.committed
  rw [hunsent] at hcommitted
  refine ⟨pairwise_append.mpr ⟨?_, (pairwise_append.mp hcommitted).2.1, fun a ha _ _ _ => hcommit a ha⟩,
    fun tag htag hcanWB => ?_⟩
  · exact pairwise_of_forall_mem_list fun a ha _ _ _ => hcommit a ha
  · cases mem_append.mp htag with
    | inl htag =>
      rw [hcommit tag htag] at hcanWB
      cases hcanWB
    | inr htag => exact h.marks tag (hunsent ▸ mem_append_right _ htag) hcanWB

/-- A store conditional can be written back once the older stores can. -/
theorem conditional (hunsent : q.unsent = pre ++ tag :: post)
    (hpre : ∀ older ∈ pre, older.canWB = true) : { q with unsent := pre ++ tag.commit :: post }.StoresPlaced := by
  have hpre' : pre.map StoreTag.commit = pre := by
    calc
      pre.map StoreTag.commit = pre.map id :=
        map_congr_left fun older holder => StoreTag.commit_eq_self (hpre older holder)
      _ = pre := map_id pre
  have hsplit : q.unsent = (pre ++ [tag]) ++ post := by simp [hunsent]
  have hall := h.commit hsplit
  rw [map_append, hpre', append_assoc] at hall
  exact hall

/-- The instructions younger than `squashed_num` leave, apart from the stores that
can be written back. -/
theorem squash (hord : q.Ordered) (hsquash : q.Step (.squash squashed_num) q') : q'.StoresPlaced := by
  obtain ⟨loads, unsent, young, squashed, hloads, hunsent, hyoung, -, -, hlast, rfl⟩ := hsquash
  have hcommitted : unsent.Pairwise fun older younger => younger.canWB = true → older.canWB = true := by
    have hcommitted := h.committed
    rw [hunsent] at hcommitted
    exact (pairwise_append.mp hcommitted).1
  refine ⟨hcommitted, fun tag htag hcanWB => ?_⟩
  have hle : tag.seqNum ≤ squashed_num := by
    obtain ⟨last, hlast'⟩ := Option.isSome_iff_exists.mp (getLast?_isSome.mpr (ne_nil_of_mem htag))
    have hnums : (unsent.map StoreTag.seqNum).Pairwise (· < ·) := by
      have hstores := hord.stores
      rw [storeNums, stores, hunsent, map_append, map_append] at hstores
      exact (pairwise_append.mp (pairwise_append.mp hstores).2.1).1
    refine Nat.le_trans (le_of_getLast hnums hlast' tag htag) ((hlast last hlast').resolve_right fun hcan => ?_)
    -- The last one could be written back before an older one.
    obtain ⟨init, rfl⟩ := getLast?_eq_some_iff.mp hlast'
    cases mem_append.mp htag with
    | inl htag =>
      rw [(pairwise_append.mp hcommitted).2.2 tag htag last (mem_singleton_self _) hcan] at hcanWB
      cases hcanWB
    | inr htag =>
      rw [mem_singleton.mp htag, hcan] at hcanWB
      cases hcanWB
  have hmarks := h.marks tag (hunsent ▸ mem_append_left _ htag) hcanWB
  rw [hloads] at hmarks
  exact hmarks.popBack fun load hload => Nat.lt_of_le_of_lt hle (hyoung load hload)

theorem step (hord : q.Ordered) (hop : q.CommitsInOrder op) (hstep : q.Step op q') : q'.StoresPlaced := by
  have hsame : q' = q → q'.StoresPlaced := by
    rintro rfl
    exact h
  cases op with
  | insertLoad seqNum =>
    cases hstep
    exact h.insertLoad hop.2
  | insertStore seqNum sc pf =>
    cases hstep
    exact h.insertStore hop.1 sc
  | executeStore store_idx acc =>
    rcases hstep with hq | ⟨pre, tag, post, hunsent, hsc, -, hidx, rfl⟩
    · exact hsame hq
    · exact h.conditional hunsent (hop pre tag post hunsent hidx hsc)
  | commitLoads youngest_inst =>
    obtain ⟨done, rest, hloads, hdone, rfl⟩ := hstep
    exact h.commitLoads hop hloads hdone
  | commitStores youngest_inst =>
    obtain ⟨done, rest, hunsent, rfl⟩ := hstep
    exact h.commit hunsent
  | writebackStores answers => exact h.moves hstep
  | recvRetry answers => exact h.moves hstep
  | completeStore store_idx => exact h.moves (.single hstep.1)
  | squash squashed_num => exact h.squash hord hstep
  | _ => exact hsame hstep

end StoresPlaced

end Queues

namespace LSQUnit

variable {l m : Nat} {p : LSQParams} {s s' : LSQUnit l m} {q : Queues l m}

/-- Instructions commit in program order: loads leave after the older stores were
marked, a store executes before it commits, and a store conditional executes
when the older stores have committed. -/
def CommitsInOrder (s : LSQUnit l m) : Op l m → Prop
  | .executeStore store_idx _ =>
    (s.storeQueue store_idx).canWB = false ∧ ∀ inst, (s.storeQueue store_idx).inst = some inst →
      inst.isStoreConditional = true → ∀ i, dist s.storeHead i < dist s.storeHead store_idx →
        (s.storeQueue i).canWB = true
  | .commitLoads youngest_inst => ∀ i inst, dist s.storeHead i < dist s.storeHead s.storeTail →
    (s.storeQueue i).inst = some inst → (s.storeQueue i).canWB = false → youngest_inst < inst.seqNum
  | _ => True

namespace Represents

variable {wb : Fin (m + 1)}

theorem commitsInOrder (h : s.Represents wb q) (hop : s.Orderly op) (horder : s.CommitsInOrder op) :
    q.CommitsInOrder op := by
  cases op with
  | insertLoad seqNum => exact h.younger hop.2
  | insertStore seqNum sc pf => exact h.younger hop.2
  | executeStore store_idx acc =>
    intro pre tag post hunsent hidx hsc older holder
    have hsplit : q.stores = (q.sent ++ pre) ++ tag :: post := by rw [Queues.stores, hunsent, append_assoc]
    obtain ⟨pre₁, pre₂, hpre⟩ := append_of_mem holder
    have hsplit' : q.stores = (q.sent ++ pre₁) ++ older :: (pre₂ ++ tag :: post) := by
      rw [hsplit, hpre]
      simp
    obtain ⟨i, inst, hi, hdist, -, hinst, htag⟩ := h.slot hsplit
    obtain ⟨i', inst', -, hdist', -, -, rfl⟩ := h.slot hsplit'
    rw [hidx, ← hi] at horder
    apply horder.2 inst hinst ((congrArg StoreTag.isStoreConditional htag).symm.trans hsc)
    rw [hdist, hdist', hpre]
    simp
  | commitLoads youngest_inst =>
    intro tag htag hcanWB
    obtain ⟨pre, post, hunsent⟩ := append_of_mem htag
    have hsplit : q.stores = (q.sent ++ pre) ++ tag :: post := by rw [Queues.stores, hunsent, append_assoc]
    obtain ⟨i, inst, -, hdist, hlt, hinst, rfl⟩ := h.slot hsplit
    exact horder i inst (hdist ▸ hlt) hinst hcanWB
  | _ => trivial

end Represents

/-- The test of `checkViolations` on a load. -/
def Conflicts (p : LSQParams) (inst : Checked) (load : LoadInst l m) : Prop :=
  (load.effAddrValid = true ∧ load.strictlyOrdered = false) ∧
    lastBlock p inst.effAddr inst.effSize ≥ firstBlock p load.effAddr ∧
    firstBlock p inst.effAddr ≤ lastBlock p load.effAddr load.effSize

/-- The walk of a store over the loads from one place on finds the oldest one that
conflicts with it, or stops at a load that is younger than the violator. -/
theorem checkViolationsFrom_catches (p : LSQParams) (inst : Checked) (hstore : inst.isLoad = false) {head : Fin (l + 1)}
    {pre rest : List (LoadTag l m)} (hord : ((pre ++ rest).map LoadTag.seqNum).Pairwise (· < ·))
    (h : LoadsHold s.loadQueue s.loads head s.loadTail (pre ++ rest)) (fuel : Nat) (hfuel : rest.length < fuel) :
    ∃ fault s', checkViolationsFrom p inst fuel (advance head pre.length) s = .ok (fault, s') ∧
      ∀ i load, s.loadQueue i = some load → pre.length ≤ dist head i → Conflicts p inst load →
        ∃ violator, s'.memDepViolator = some violator ∧ violator ≤ load.tag.seqNum := by
  induction rest generalizing pre fuel with
  | nil =>
    obtain ⟨fuel, rfl⟩ := Nat.exists_eq_succ_of_ne_zero (Nat.ne_of_gt hfuel)
    have htail : advance head pre.length = s.loadTail := by rw [h.tail, append_nil]
    refine ⟨false, s, by rw [checkViolationsFrom, if_pos htail], fun i load hload hi => ?_⟩
    have hlt := h.of_some hload
    rw [append_nil] at hlt
    omega
  | cons tag rest ih =>
    obtain ⟨fuel, rfl⟩ := Nat.exists_eq_succ_of_ne_zero (Nat.ne_of_gt (Nat.zero_lt_of_lt hfuel))
    obtain ⟨load, hload, rfl⟩ := h.middle
    have hlength := h.length_le
    rw [length_append, length_cons] at hlength
    have hdist : dist head (advance head pre.length) = pre.length := dist_advance head (by omega)
    have htail : advance head pre.length ≠ s.loadTail := by
      intro heq
      rw [heq, h.dist_tail, length_append, length_cons] at hdist
      omega
    -- The other loads from here on are younger.
    have hothers : ∀ i other, s.loadQueue i = some other → pre.length ≤ dist head i →
        other = load ∨ pre.length + 1 ≤ dist head i ∧ load.tag.seqNum < other.tag.seqNum := by
      intro i other hother hi
      cases Nat.eq_or_lt_of_le hi with
      | inl heq =>
        have hi : i = advance head pre.length := by rw [heq, advance_dist]
        rw [hi, hload] at hother
        cases hother
        exact .inl rfl
      | inr hlt => exact .inr ⟨hlt, lt_of_getElem? hord (h.get hload) (h.get hother) (by rwa [hdist])⟩
    have holdest : ∀ violator, violator ≤ load.tag.seqNum → ∀ i other, s.loadQueue i = some other →
        pre.length ≤ dist head i → violator ≤ other.tag.seqNum := by
      intro violator hle i other hother hi
      rcases hothers i other hother hi with rfl | ⟨-, hlt⟩
      · exact hle
      · exact Nat.le_trans hle (Nat.le_of_lt hlt)
    by_cases hconflict : Conflicts p inst load
    · obtain ⟨⟨hvalid, hordered⟩, hblocks⟩ := hconflict
      simp only [checkViolationsFrom, if_neg htail, hload, hvalid, hordered, if_pos hblocks, hstore]
      by_cases hviolator : (s.memDepViolator.any fun violator => load.tag.seqNum > violator) = true
      · obtain ⟨violator, hsome, hlt⟩ := (Option.any_eq_true _ _).mp hviolator
        refine ⟨false, s, by simp [hviolator], fun i other hother hi _ => ⟨violator, hsome, ?_⟩⟩
        exact holdest violator (Nat.le_of_lt (of_decide_eq_true hlt)) i other hother hi
      · refine ⟨true, { s with memDepViolator := some load.tag.seqNum }, by simp [hviolator],
          fun i other hother hi _ => ⟨_, rfl, ?_⟩⟩
        exact holdest _ (Nat.le_refl _) i other hother hi
    · -- The load is passed over.
      have hnext : checkViolationsFrom p inst (fuel + 1) (advance head pre.length) s =
          checkViolationsFrom p inst fuel (advance head (pre ++ [load.tag]).length) s := by
        rw [length_append, length_singleton, ← succ_advance]
        simp only [checkViolationsFrom, if_neg htail, hload]
        split
        · rfl
        rename_i hpass
        rw [if_neg]
        · rfl
        · intro hblocks
          exact hconflict ⟨by simpa using hpass, hblocks⟩
      rw [append_cons] at hord h
      obtain ⟨fault, s', hcheck, hcatches⟩ := ih hord h fuel (Nat.lt_of_succ_lt_succ hfuel)
      refine ⟨fault, s', hnext.trans hcheck, fun i other hother hi hconflict' => ?_⟩
      rcases hothers i other hother hi with rfl | ⟨hlt, -⟩
      · exact absurd hconflict' hconflict
      · exact hcatches i other hother (by simpa using hlt) hconflict'

/-- The access ends within the address space. -/
def NoWrap (effAddr : Addr) (effSize : BitVec 8) : Prop := effAddr.toNat + effSize.toNat ≤ 2 ^ 64

instance (effAddr : Addr) (effSize : BitVec 8) : Decidable (NoWrap effAddr effSize) :=
  inferInstanceAs (Decidable (effAddr.toNat + effSize.toNat ≤ 2 ^ 64))

/-- A byte of one access and a byte of the other lie in the same block. -/
def SharesBlock (p : LSQParams) (inst : Checked) (load : LoadInst l m) : Prop :=
  ∃ j < inst.effSize.toNat, ∃ k < load.effSize.toNat,
    (inst.effAddr.toNat + j) / 2 ^ p.depCheckShift = (load.effAddr.toNat + k) / 2 ^ p.depCheckShift

theorem toNat_firstBlock (p : LSQParams) (effAddr : Addr) :
    (firstBlock p effAddr).toNat = effAddr.toNat / 2 ^ p.depCheckShift := by
  rw [firstBlock, shr, Nat.mod_eq_of_lt p.shift_lt, BitVec.toNat_ushiftRight, Nat.shiftRight_eq_div_pow]

theorem toNat_lastBlock (p : LSQParams) (hsize : 0 < effSize.toNat) (hwrap : NoWrap effAddr effSize) :
    (lastBlock p effAddr effSize).toNat = (effAddr.toNat + effSize.toNat - 1) / 2 ^ p.depCheckShift := by
  have hlast : (effAddr + effSize.setWidth 64 - 1).toNat = effAddr.toNat + effSize.toNat - 1 := by
    unfold NoWrap at hwrap
    bv_omega
  rw [lastBlock, shr, Nat.mod_eq_of_lt p.shift_lt, BitVec.toNat_ushiftRight, Nat.shiftRight_eq_div_pow, hlast]

/-- Accesses that share a block pass the test on their first and last blocks. -/
theorem SharesBlock.conflicts (h : SharesBlock p inst load) (hinst : NoWrap inst.effAddr inst.effSize)
    (hload : NoWrap load.effAddr load.effSize) (hvalid : load.effAddrValid = true)
    (hordered : load.strictlyOrdered = false) : Conflicts p inst load := by
  obtain ⟨j, hj, k, hk, hblock⟩ := h
  refine ⟨⟨hvalid, hordered⟩, ?_, ?_⟩
  · rw [ge_iff_le, BitVec.le_def, toNat_firstBlock, toNat_lastBlock p (Nat.zero_lt_of_lt hj) hinst]
    calc
      load.effAddr.toNat / 2 ^ p.depCheckShift ≤ (load.effAddr.toNat + k) / 2 ^ p.depCheckShift :=
        Nat.div_le_div_right (Nat.le_add_right _ _)
      _ = (inst.effAddr.toNat + j) / 2 ^ p.depCheckShift := hblock.symm
      _ ≤ (inst.effAddr.toNat + inst.effSize.toNat - 1) / 2 ^ p.depCheckShift := Nat.div_le_div_right (by omega)
  · rw [BitVec.le_def, toNat_firstBlock, toNat_lastBlock p (Nat.zero_lt_of_lt hk) hload]
    calc
      inst.effAddr.toNat / 2 ^ p.depCheckShift ≤ (inst.effAddr.toNat + j) / 2 ^ p.depCheckShift :=
        Nat.div_le_div_right (Nat.le_add_right _ _)
      _ = (load.effAddr.toNat + k) / 2 ^ p.depCheckShift := hblock
      _ ≤ (load.effAddr.toNat + load.effSize.toNat - 1) / 2 ^ p.depCheckShift := Nat.div_le_div_right (by omega)

theorem SharesBlock.of_byte (hj : j < inst.effSize.toNat) (hk : k < load.effSize.toNat)
    (hbyte : inst.effAddr.toNat + j = load.effAddr.toNat + k) : SharesBlock p inst load :=
  ⟨j, hj, k, hk, by rw [hbyte]⟩

theorem Tracks.storesPlaced (h : Tracks p s q) (hplaced : q.StoresPlaced) (hop : s.Orderly op ∧ s.CommitsInOrder op)
    (hstep : s.step p op = .ok (answer, s')) : ∃ q', Tracks p s' q' ∧ q'.StoresPlaced := by
  obtain ⟨q', hq, hq', -⟩ := h.step hop.1 hstep
  exact ⟨q', hq', hplaced.step h.ordered (h.represents.commitsInOrder hop.1 hop.2) hq⟩

theorem run_storesPlaced (hrun : (machine p l m).run (construct l m) ops = .ok (answers, s))
    (hops : (machine p l m).StepsAll (fun s op => s.Orderly op ∧ s.CommitsInOrder op) (construct l m) ops) :
    ∃ q, Tracks p s q ∧ q.StoresPlaced :=
  Machine.run_invariant (I := fun s => ∃ q, Tracks p s q ∧ q.StoresPlaced)
    (fun s op answer s' hs hop hstep => by
      obtain ⟨q, hq, hplaced⟩ := hs
      exact hq.storesPlaced hplaced hop hstep)
    ⟨.empty, .construct p l m, .empty⟩ hops hrun

/-- After a squash no younger load is left. -/
theorem Tracks.squash_loads (h : Tracks p s q) (hsquash : s.squash squashed_num = .ok s')
    (hload : s'.loadQueue i = some load) : load.tag.seqNum ≤ squashed_num := by
  obtain ⟨q', ⟨loads, unsent, young, squashed, hloads, -, -, hlast, -, -, rfl⟩, hq', -⟩ :=
    squash_spec h.represents h.sending hsquash
  have hnums : (loads.map LoadTag.seqNum).Pairwise (· < ·) := by
    have hord := h.ordered.loads
    rw [Queues.loadNums, hloads, map_append] at hord
    exact (pairwise_append.mp hord).1
  obtain ⟨pre, post, hsplit, -⟩ := hq'.loads.split hload
  simp only at hsplit
  have hmem : load.tag ∈ loads := hsplit ▸ mem_append_right _ mem_cons_self
  obtain ⟨last, hlast'⟩ := Option.isSome_iff_exists.mp (getLast?_isSome.mpr (ne_nil_of_mem hmem))
  exact Nat.le_trans (Queues.le_of_getLast hnums hlast' _ hmem) (hlast last hlast')

/-- A store that has data and no fault checks the younger loads. -/
theorem finishStore_eq (hinst : (s.storeQueue store_idx).inst = some inst) (hfault : acc.fault = false)
    (hdelayed : acc.delayed = false) (hsize : (s.storeQueue store_idx).size ≠ 0) (hpredicate : acc.predicate = true) :
    s.finishStore p store_idx acc = (if inst.isStoreConditional then s.setCanWB store_idx else s).checkViolations p
      inst.lqIdx ⟨false, inst.effAddr, inst.effSize⟩ := by
  simp only [finishStore, hfault, hdelayed, hpredicate, hinst, if_neg hsize]
  rfl

/-- The check of a store returns, and the violator is then at least as old as every
younger load that conflicts with the store. -/
theorem finishStore_catches (h : s.Represents s.storeWBIdx q) (hord : q.Ordered) (hplaced : q.StoresPlaced)
    (hidx : dist s.storeHead store_idx < dist s.storeHead s.storeTail)
    (hcanWB : (s.storeQueue store_idx).canWB = false) (hinst : (s.storeQueue store_idx).inst = some inst)
    (hfault : acc.fault = false) (hdelayed : acc.delayed = false) (hsize : (s.storeQueue store_idx).size ≠ 0)
    (hpredicate : acc.predicate = true) : ∃ fault s', s.finishStore p store_idx acc = .ok (fault, s') ∧
      ∀ i load, s.loadQueue i = some load → inst.seqNum < load.tag.seqNum →
        Conflicts p ⟨false, inst.effAddr, inst.effSize⟩ load →
        ∃ violator, s'.memDepViolator = some violator ∧ violator ≤ load.tag.seqNum := by
  obtain ⟨pre, tag, post, hunsent, hnot, -, htag⟩ := h.unsent_of_not_canWB hidx hcanWB
  obtain ⟨inst', hinst', rfl⟩ := SQEntry.tag_eq_some_iff.mp htag
  rw [hinst] at hinst'
  cases hinst'
  obtain ⟨older, younger, hloads, hlqIdx, holder, -⟩ := hplaced.marks _ (hunsent ▸ by simp) hnot
  simp only at hlqIdx holder
  have hhold := h.loads
  have hnums := hord.loads
  rw [Queues.loadNums] at hnums
  rw [hloads] at hhold hnums
  have hlength := hhold.length_le
  rw [length_append] at hlength
  -- A store conditional is marked before, which changes nothing of the loads.
  obtain ⟨s₁, hs₁⟩ : ∃ s₁, s₁ = if inst.isStoreConditional then s.setCanWB store_idx else s := ⟨_, rfl⟩
  have hsame : s₁.loadQueue = s.loadQueue ∧ s₁.loads = s.loads ∧ s₁.loadTail = s.loadTail := by
    rw [hs₁]
    split <;> exact ⟨rfl, rfl, rfl⟩
  rw [← hsame.1, ← hsame.2.1, ← hsame.2.2] at hhold
  obtain ⟨fault, s', hcheck, hcatches⟩ := checkViolationsFrom_catches p ⟨false, inst.effAddr, inst.effSize⟩ rfl hnums
    hhold (l + 2) (by omega)
  refine ⟨fault, s', ?_, fun i load hload hlt => hcatches i load (hsame.1 ▸ hload) ?_⟩
  · rw [finishStore_eq hinst hfault hdelayed hsize hpredicate, ← hs₁, hlqIdx]
    exact hcheck
  · by_contra hnear
    have hat := hhold.get (hsame.1 ▸ hload)
    rw [getElem?_append_left (Nat.not_le.mp hnear)] at hat
    exact absurd (holder _ (mem_of_getElem? hat)) (Nat.not_lt.mpr (Nat.le_of_lt hlt))

/-- A load of eight bytes that is translated at once, and whose packet the cache
takes. -/
def loadEightBytes (vaddr : Addr) : LoadAcc where
  translation := some ⟨false, vaddr, 0⟩
  delayed := false
  fault := false
  predicate := true
  hasRequest := true
  isAtCommit := false
  req := some ⟨vaddr, 8, false, false, false, false, false⟩
  answers := [true]

end LSQUnit

end Gem5.O3
