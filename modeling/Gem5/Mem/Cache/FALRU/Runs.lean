import Gem5.Mem.Cache.FALRU.Construct

open Lib Result Lib.DoublyLinked BitVec

namespace Gem5.FALRU

variable {t t' : FALRU} {order : List Nat} {blk : Nat} {ticksToCycles : Nat → Nat}

/-- The invariant of the tag store: its list has some shape, and the hash table points
to blocks of it. -/
structure WellShaped (t : FALRU) : Prop where
  sized : t.Sized
  shape : ∃ order, t.Shape order
  hash : ∀ addr blk, t.tagHash addr = some blk → blk < t.numBlocks

section Steps

variable (h : t.WellShaped)
include h

/-- What has no part in the shape may change. -/
theorem WellShaped.congr (hframe : t' = { t with blks := t'.blks, tagHash := t'.tagHash })
    (hnext : ∀ b, (t'.blks b).next = (t.blks b).next) (hprev : ∀ b, (t'.blks b).prev = (t.blks b).prev)
    (hinCache : ∀ b, (t'.blks b).inCache = (t.blks b).inCache)
    (hhash : ∀ addr blk, t'.tagHash addr = some blk → blk < t.numBlocks) : t'.WellShaped := by
  obtain ⟨hsized, ⟨order, hshape⟩, -⟩ := h
  rw [hframe]
  refine ⟨{ hsized with }, ⟨order, ?_⟩, hhash⟩
  refine ⟨hshape.perm, hshape.head, hshape.tail, ?_, hshape.boundaries, ?_⟩
  · simp only [hnext, hprev]
    exact hshape.links
  · simp only [hinCache]
    exact hshape.inCache

theorem WellShaped.modifyCacheBlk (blk : Nat) (f : CacheBlk → CacheBlk) : (t.modifyCacheBlk blk f).WellShaped :=
  h.congr rfl (blks_modifyBlk_congr FALRUBlk.next fun _ => rfl) (blks_modifyBlk_congr FALRUBlk.prev fun _ => rfl)
    (blks_modifyBlk_congr FALRUBlk.inCache fun _ => rfl) h.hash

theorem WellShaped.rehash (tag addr : Addr) (hblk : blk < t.numBlocks) : (t.rehash tag addr blk).WellShaped := by
  refine h.congr rfl (fun _ => rfl) (fun _ => rfl) (fun _ => rfl) ?_
  intro a b hab
  change (if a = addr then some blk else if a = tag then none else t.tagHash a) = some b at hab
  by_cases haddr : a = addr
  · rw [if_pos haddr] at hab
    rwa [← Option.some.inj hab]
  rw [if_neg haddr] at hab
  by_cases htag : a = tag
  · rw [if_pos htag] at hab
    cases hab
  · rw [if_neg htag] at hab
    exact h.hash a b hab

/-- Moving a block other than the head succeeds and keeps the invariant. -/
theorem WellShaped.moveToHead (hblk : blk < t.numBlocks) (hne : blk ≠ t.head) :
    ∃ t', t.moveToHead blk = .ok t' ∧ Frame t t' ∧ t'.WellShaped := by
  obtain ⟨hsized, ⟨order, hshape⟩, hhash⟩ := h
  obtain ⟨pos, hpos⟩ := hshape.exists_pos hblk
  have hpos_pos : 0 < pos := by
    apply Nat.pos_of_ne_zero
    rintro rfl
    exact hne (Option.some.inj (hpos.symm.trans hshape.head))
  obtain ⟨t', hmove, hframe, hshape'⟩ := moveToHead_spec hsized hshape hpos hpos_pos
  refine ⟨t', hmove, hframe, hframe.sized hsized, ⟨_, hshape'⟩, ?_⟩
  rw [hframe.tagHash, hframe.numBlocks]
  exact hhash

theorem WellShaped.tail_lt : t.tail < t.numBlocks := by
  obtain ⟨order, hshape⟩ := h.shape
  exact hshape.lt hshape.tail

/-- The tail is behind every boundary. -/
theorem WellShaped.inCache_tail : (t.blks t.tail).inCache = 0 := by
  obtain ⟨hsized, ⟨order, hshape⟩, -⟩ := h
  apply eq_of_getLsbD_eq
  intro i _
  refine (hshape.inCache _ _ hshape.tail i).trans ?_
  refine (decide_eq_false ?_).trans getLsbD_zero.symm
  rintro ⟨hi, hle⟩
  have hlt := hsized.boundary_lt hi
  rw [hsized.boundary_numCaches] at hlt
  omega

theorem WellShaped.tail_ne_head : t.tail ≠ t.head := by
  obtain ⟨hsized, ⟨order, hshape⟩, -⟩ := h
  intro heq
  have htwo := hsized.two_le
  have := pos_inj hshape.nodup (hshape.tail.trans (congrArg some heq)) hshape.head
  omega

/-- `findVictim` always returns the tail. -/
theorem WellShaped.findVictim (addr : Addr) : ∃ t', t.findVictim addr = .ok (t.tail, t') ∧ t'.WellShaped := by
  obtain ⟨t', hmove, hframe, h'⟩ := h.moveToHead h.tail_lt h.tail_ne_head
  refine ⟨_, ?_, h'.rehash (t'.blks t.tail).tag (t'.blkAlign addr) (by rw [hframe.numBlocks]; exact h.tail_lt)⟩
  rw [FALRU.findVictim, h.inCache_tail, require_of_true (beq_self_eq_true _)]
  exact bind_of_ok hmove _

theorem WellShaped.of_findVictim (hvictim : t.findVictim addr = .ok (blk, t')) : t'.WellShaped := by
  obtain ⟨u, hok, hu⟩ := h.findVictim addr
  cases hok.symm.trans hvictim
  exact hu

theorem WellShaped.accessBlock (hok : t.accessBlock ticksToCycles addr curTick = .ok answer) :
    answer.2.2.2.WellShaped := by
  unfold FALRU.accessBlock at hok
  cases hlookup : t.hashLookup (t.blkAlign addr) with
  | none =>
    rw [hlookup] at hok
    cases hok
    exact h
  | some blk =>
    rw [hlookup] at hok
    by_cases hvalid : (t.blks blk).isValid = true
    · replace hok := (if_pos hvalid).symm.trans hok
      obtain ⟨-, t', -, hmove, hok⟩ := bind_ok₂ hok
      cases hok
      by_cases hhead : blk ≠ t.head
      · rw [touch, if_pos hhead] at hmove
        obtain ⟨u, hu, -, hshaped⟩ := h.moveToHead (h.hash _ _ hlookup) hhead
        cases hu.symm.trans hmove
        exact hshaped
      · rw [touch, if_neg hhead] at hmove
        cases hmove
        exact h
    · replace hok := (if_neg hvalid).symm.trans hok
      cases hok
      exact h

theorem WellShaped.step (hstep : (machine ticksToCycles).step t call = .ok (answer, t')) : t'.WellShaped := by
  cases call with
  | accessBlock addr curTick =>
    obtain ⟨result, hok, heq⟩ := map_ok hstep
    cases heq
    exact h.accessBlock hok
  | findVictim addr =>
    obtain ⟨⟨blk, u⟩, hok, heq⟩ := map_ok hstep
    cases heq
    exact h.of_findVictim hok
  | fill addr is_secure status =>
    obtain ⟨⟨blk, u⟩, hok, heq⟩ := map_ok hstep
    cases heq
    obtain ⟨⟨victim, v⟩, hvictim, hok⟩ := bind_ok hok
    obtain ⟨-, -, hok⟩ := bind_ok hok
    cases hok
    dsimp only
    exact (h.of_findVictim hvictim).modifyCacheBlk blk _
  | writeback addr is_secure status =>
    obtain ⟨⟨blk, u⟩, hok, heq⟩ := map_ok hstep
    cases heq
    obtain ⟨⟨victim, v⟩, hvictim, hok⟩ := bind_ok hok
    cases hok
    dsimp only
    exact (h.of_findVictim hvictim).modifyCacheBlk blk _
  | invalidateBlock blk =>
    obtain ⟨u, hok, heq⟩ := map_ok hstep
    cases heq
    unfold FALRU.invalidateBlock at hok
    split at hok
    · cases hok
      exact h.modifyCacheBlk blk _
    · cases hok

end Steps

section Check

variable (hsized : t.Sized) (hshape : t.Shape order)
include hsized

/-- The number of bytes up to a position is a boundary exactly at the last block of a
cache. -/
theorem size_eq_boundary_iff (k j : Nat) : k * t.blkSize.toNat + t.blkSize.toNat = 2 ^ (17 + j) ↔ k = t.boundary j := by
  obtain ⟨b, hb, hblkSize⟩ := hsized.blkSize
  have hdiv : 2 ^ (17 + j) = 2 ^ (17 + j - b) * 2 ^ b := by
    rw [← Nat.pow_add, Nat.sub_add_cancel (by omega)]
  have hpos := Nat.two_pow_pos b
  have hpos' := Nat.two_pow_pos (17 + j - b)
  rw [boundary, hblkSize, hdiv, Nat.mul_div_cancel _ hpos, ← Nat.succ_mul, Nat.mul_right_cancel_iff hpos]
  omega

include hshape

/-- The loop of `check` from position `k` on, by induction on the blocks left. `j` is
the first cache that ends at or behind the position. -/
theorem checkLoop_spec (hfuel : k + fuel = t.numBlocks) (hj : j ≤ t.numCaches) (hpassed : ∀ i < j, t.boundary i < k)
    (hahead : k < t.numBlocks → k ≤ t.boundary j) (hflags : ∀ i, flags.getLsbD i = decide (j ≤ i ∧ i < t.numCaches)) :
    t.checkLoop fuel order[k]? (k * t.blkSize.toNat) (2 ^ (17 + j)) j flags = .ok true := by
  induction fuel generalizing k j flags with
  | zero =>
    rw [List.getElem?_eq_none (by rw [hshape.length]; omega)]
    rfl
  | succ fuel ih =>
    have hk : k < t.numBlocks := by omega
    obtain ⟨blk, hblk⟩ := hshape.exists_at hk
    have hinCache : (t.blks blk).inCache = flags := by
      apply eq_of_getLsbD_eq
      intro i _
      rw [hshape.inCache k blk hblk, hflags]
      apply decide_eq_decide.mpr
      constructor
      · rintro ⟨hi, hle⟩
        refine ⟨?_, hi⟩
        by_contra hlt
        have := hpassed i (Nat.not_le.mp hlt)
        omega
      · rintro ⟨hle, hi⟩
        refine ⟨hi, Nat.le_trans (hahead hk) ?_⟩
        rcases Nat.eq_or_lt_of_le hle with rfl | hlt
        · exact Nat.le_refl _
        · exact Nat.le_of_lt (hsized.boundary_lt hlt)
    have hnext : (t.blks blk).next = order[k + 1]? := (hshape.links k blk hblk).1
    have htail : blk = t.tail ↔ k = t.numBlocks - 1 := by
      constructor
      · rintro rfl
        exact pos_inj hshape.nodup hblk hshape.tail
      · rintro rfl
        exact Option.some.inj (hblk.symm.trans hshape.tail)
    rw [hblk, checkLoop, deref_some (hshape.lt hblk)]
    refine (if_neg (not_not.mpr hinCache)).trans ?_
    have hsize := size_eq_boundary_iff hsized k j
    have hmul : k * t.blkSize.toNat + t.blkSize.toNat = (k + 1) * t.blkSize.toNat := (Nat.succ_mul k _).symm
    by_cases hend : k * t.blkSize.toNat + t.blkSize.toNat = 2 ^ (17 + j) ∧ blk ≠ t.tail
    · have hboundary : k = t.boundary j := hsize.mp hend.1
      have hlast : k ≠ t.numBlocks - 1 := fun heq => hend.2 (htail.mpr heq)
      have hjlt : j < t.numCaches := by
        apply Nat.lt_of_le_of_ne hj
        rintro rfl
        exact hlast (hboundary.trans hsized.boundary_numCaches)
      have hmark : t.cacheBoundaries j = some blk := by
        rw [hshape.boundaries j hjlt, ← hboundary, hblk]
      refine (if_pos hend).trans ((if_neg (by omega)).trans ((if_neg (not_not.mpr hmark)).trans ?_))
      rw [hnext, hmul, ← Nat.pow_succ]
      apply ih (by omega) hjlt
      · intro i hi
        rcases Nat.lt_succ_iff_lt_or_eq.mp hi with hi | hi
        · exact Nat.lt_succ_of_lt (hpassed i hi)
        · rw [hi, ← hboundary]
          exact Nat.lt_succ_self k
      · intro _
        rw [hboundary]
        exact hsized.boundary_lt (Nat.lt_succ_self j)
      · intro i
        rw [getLsbD_clear (Nat.lt_trans hjlt hsized.numCaches), hflags, ← decide_not, ← Bool.decide_and]
        exact decide_eq_decide.mpr (by omega)
    · refine (if_neg hend).trans ?_
      rw [hnext, hmul]
      apply ih (by omega) hj
      · exact fun i hi => Nat.lt_succ_of_lt (hpassed i hi)
      · intro hlt
        have hle := hahead hk
        have hne : k ≠ t.boundary j := by
          intro heq
          apply hend
          exact ⟨hsize.mpr heq, fun h => by have := htail.mp h; omega⟩
        omega
      · exact hflags

end Check

theorem WellShaped.check (h : t.WellShaped) : t.check = .ok true := by
  obtain ⟨hsized, ⟨order, hshape⟩, -⟩ := h
  have hspec := checkLoop_spec hsized hshape (k := 0) (j := 0) (Nat.zero_add t.numBlocks) (Nat.zero_le _)
    (fun i hi => absurd hi (Nat.not_lt_zero i)) (fun _ => Nat.zero_le _)
    (fun i => (hsized.cacheMask i).trans (decide_eq_decide.mpr ⟨fun hi => ⟨Nat.zero_le i, hi⟩, And.right⟩))
  rw [hshape.head, Nat.zero_mul] at hspec
  exact hspec

/-- In a tag store of at least 128 KB with blocks of at most 64 KB, whatever calls it
has served, the blocks form one list with the boundaries and flags of their
positions, `check` succeeds and so does `findVictim`. -/
theorem run_check {size blkSize : Unsigned} (hsize : isPowerOf2 size = true) (hlow : 2 ^ 17 ≤ size.toNat)
    (hblkSize : isPowerOf2 blkSize = true) (hblk : blkSize.toNat ≤ 2 ^ 16)
    (lookupLatency accessLatency : Nat) (ticksToCycles : Nat → Nat) :
    ∃ start, construct size blkSize lookupLatency accessLatency = .ok start ∧
      ∀ calls answers t, (machine ticksToCycles).run start calls = .ok (answers, t) →
        (∃ order, t.Shape order) ∧ t.check = .ok true ∧ ∀ addr, ∃ victim, t.findVictim addr = .ok victim := by
  obtain ⟨k, hk, hsize⟩ := isPowerOf2_iff.mp hsize
  obtain ⟨b, -, hblkSize⟩ := isPowerOf2_iff.mp hblkSize
  rw [hsize] at hlow
  rw [hblkSize] at hblk
  have hlow' : 17 ≤ k := (Nat.pow_le_pow_iff_right (by decide)).mp hlow
  have hb : b ≤ 16 := (Nat.pow_le_pow_iff_right (by decide)).mp hblk
  obtain ⟨start, hstart, hsized, hshape, -, hhash⟩ :=
    construct_spec hlow' hk hb hsize hblkSize lookupLatency accessLatency
  refine ⟨start, hstart, fun calls answers t hrun => ?_⟩
  have hwell : start.WellShaped := ⟨hsized, ⟨_, hshape⟩, fun addr blk h => by rw [hhash] at h; cases h⟩
  have h : t.WellShaped := ((Machine.Reaches.start).run hrun).invariant hwell fun _ _ _ _ h hstep => h.step hstep
  refine ⟨h.shape, h.check, fun addr => ?_⟩
  obtain ⟨t', hvictim, -⟩ := h.findVictim addr
  exact ⟨_, hvictim⟩

/-- A tag store of 256 KB with blocks of 64 KB. -/
theorem run_check_small : ∃ start, construct 0x40000 0x10000 1 2 = .ok start ∧
      ∀ calls answers t, (machine id).run start calls = .ok (answers, t) →
        (∃ order, t.Shape order) ∧ t.check = .ok true ∧ ∀ addr, ∃ victim, t.findVictim addr = .ok victim :=
  run_check (by decide) (by decide) (by decide) (by decide) 1 2 id

end Gem5.FALRU
