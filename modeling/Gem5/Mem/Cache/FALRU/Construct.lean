import Gem5.Mem.Cache.FALRU.Shape

open Lib Result Lib.DoublyLinked List

namespace Gem5.FALRU

namespace Setup

variable {s : Setup} {numCaches numBlocks m n : Nat} {cacheMask : BitVec 32}

/-- The position of the last block in the cache with index `i`, if the smallest one
has `2 ^ m` blocks. -/
def last (m i : Nat) : Nat := 2 ^ (m + i) - 1

theorem last_succ (m i : Nat) : last m i + 1 = 2 ^ (m + i) := Nat.sub_add_cancel (Nat.two_pow_pos _)

theorem last_lt {i j : Nat} (hij : i < j) : last m i < last m j := by
  have hpow : 2 ^ (m + i) < 2 ^ (m + j) := Nat.pow_lt_pow_right (by decide) (by omega)
  have hi := last_succ m i
  have hj := last_succ m j
  omega

theorem last_le {i j : Nat} (hij : i ≤ j) : last m i ≤ last m j := by
  rcases Nat.eq_or_lt_of_le hij with rfl | hlt
  · exact Nat.le_refl _
  · exact Nat.le_of_lt (last_lt hlt)

/-- What the loop of the constructor has done after `n` passes. `j` is the first
cache whose boundary it has not reached. -/
structure Built (s : Setup) (cacheMask : BitVec 32) (numCaches numBlocks m n : Nat) : Prop where
  index : s.index = 2 ^ (m + s.j)
  j_le : s.j ≤ numCaches
  passed : ∀ i < s.j, last m i ≤ n
  ahead : n < last m s.j
  flags : ∀ i, s.flags.getLsbD i = decide (s.j ≤ i ∧ i < numCaches)
  boundaries : ∀ i < s.j, s.cacheBoundaries i = some (last m i)
  inCache : ∀ k, 0 < k → k ≤ n → ∀ i, (s.blks k).inCache.getLsbD i = decide (i < numCaches ∧ k ≤ last m i)
  links : ∀ k, 0 < k → k ≤ n → (s.blks k).prev = some (k - 1) ∧ (s.blks k).next = some (k + 1)
  rest : ∀ k, k = 0 ∨ n < k → s.blks k = (start cacheMask numBlocks (2 ^ m)).blks k

theorem blks_modifyBlk_self (s : Setup) (blk : Nat) (f : FALRUBlk → FALRUBlk) :
    (s.modifyBlk blk f).blks blk = f (s.blks blk) := if_pos rfl

theorem blks_modifyBlk_of_ne {f : FALRUBlk → FALRUBlk} (h : other ≠ blk) :
    (s.modifyBlk blk f).blks other = s.blks other := if_neg h

theorem Built.start (hm : 1 ≤ m) (hmask : ∀ i, cacheMask.getLsbD i = decide (i < numCaches)) :
    (start cacheMask numBlocks (2 ^ m)).Built cacheMask numCaches numBlocks m 0 where
  index := rfl
  j_le := Nat.zero_le _
  passed i hi := absurd hi (Nat.not_lt_zero i)
  ahead := by
    have hpow : 2 ^ 1 ≤ 2 ^ (m + 0) := Nat.pow_le_pow_right (by decide) hm
    have := last_succ m 0
    change 0 < last m 0
    omega
  flags i := by
    rw [show (Setup.start cacheMask numBlocks (2 ^ m)).flags = cacheMask from rfl, hmask]
    exact decide_eq_decide.mpr ⟨fun h => ⟨Nat.zero_le i, h⟩, And.right⟩
  boundaries i hi := absurd hi (Nat.not_lt_zero i)
  inCache k hpos hle := absurd hpos (Nat.not_lt.mpr hle)
  links k hpos hle := absurd hpos (Nat.not_lt.mpr hle)
  rest _ _ := rfl

/-- What one pass does with the block at `n + 1`, whether it is a boundary or not. -/
theorem Built.block (h : s.Built cacheMask numCaches numBlocks m n) (s' : Setup) (hblk : s'.blks (n + 1) =
      { s.blks (n + 1) with inCache := s.flags, prev := some n, next := some (n + 2) })
    (hother : ∀ k, k ≠ n + 1 → s'.blks k = s.blks k) :
    (∀ k, 0 < k → k ≤ n + 1 → ∀ i, (s'.blks k).inCache.getLsbD i = decide (i < numCaches ∧ k ≤ last m i)) ∧
      (∀ k, 0 < k → k ≤ n + 1 → (s'.blks k).prev = some (k - 1) ∧ (s'.blks k).next = some (k + 1)) ∧
      (∀ k, k = 0 ∨ n + 1 < k → s'.blks k = (Setup.start cacheMask numBlocks (2 ^ m)).blks k) := by
  refine ⟨fun k hpos hle i => ?_, fun k hpos hle => ?_, fun k hk => ?_⟩
  · by_cases hk : k = n + 1
    · subst hk
      rw [hblk]
      refine (h.flags i).trans (decide_eq_decide.mpr ?_)
      constructor
      · rintro ⟨hj, hi⟩
        exact ⟨hi, Nat.le_trans h.ahead (last_le hj)⟩
      · rintro ⟨hi, hlast⟩
        refine ⟨?_, hi⟩
        by_contra hj
        have := h.passed i (Nat.not_le.mp hj)
        omega
    · rw [hother k hk]
      exact h.inCache k hpos (by omega) i
  · by_cases hk : k = n + 1
    · subst hk
      rw [hblk]
      exact ⟨rfl, rfl⟩
    · rw [hother k hk]
      exact h.links k hpos (by omega)
  · rw [hother k (by omega)]
    exact h.rest k (by omega)

/-- One pass of the loop. -/
theorem Built.pass (h : s.Built cacheMask numCaches numBlocks m n) (hcaches : numCaches < 32)
    (hblocks : numBlocks = 2 ^ (m + numCaches)) (hn : n + 1 < numBlocks - 1) :
    ∃ s', s.pass numCaches (n + 1) = .ok s' ∧ s'.Built cacheMask numCaches numBlocks m (n + 1) := by
  let f : FALRUBlk → FALRUBlk := fun blk => { blk with inCache := s.flags }
  let g : FALRUBlk → FALRUBlk := fun blk => { blk with prev := some (n + 1 - 1), next := some (n + 1 + 1) }
  have hself : ((s.modifyBlk (n + 1) f).modifyBlk (n + 1) g).blks (n + 1) =
      { s.blks (n + 1) with inCache := s.flags, prev := some n, next := some (n + 2) } := by
    rw [blks_modifyBlk_self, blks_modifyBlk_self]
    rfl
  have hother : ∀ k, k ≠ n + 1 → ((s.modifyBlk (n + 1) f).modifyBlk (n + 1) g).blks k = s.blks k := by
    intro k hk
    rw [blks_modifyBlk_of_ne hk, blks_modifyBlk_of_ne hk]
  have hlast := last_succ m s.j
  have hahead := h.ahead
  by_cases hindex : n + 1 + 1 = s.index
  · -- the block is the boundary of cache `s.j`
    have hboundary : last m s.j = n + 1 := by
      rw [h.index] at hindex
      omega
    have hj : s.j < numCaches := by
      by_contra hge
      have hle := last_le (m := m) (Nat.not_lt.mp hge)
      have := last_succ m numCaches
      omega
    obtain ⟨hinCache, hlinks, hrest⟩ := h.block
      { (s.modifyBlk (n + 1) f).modifyBlk (n + 1) g with
        cacheBoundaries := fun j => if j = s.j then some (n + 1) else s.cacheBoundaries j
        flags := s.flags &&& ~~~bit s.j
        j := s.j + 1
        index := s.index * 2 } hself hother
    refine ⟨_, ?_, ?_, ?_, ?_, ?_, ?_, ?_, hinCache, hlinks, hrest⟩
    · rw [Setup.pass, mark]
      refine (congrArg (· >>= _) ((if_pos hindex).trans (if_pos hj))).trans rfl
    · change s.index * 2 = 2 ^ (m + (s.j + 1))
      rw [h.index, ← Nat.add_assoc, Nat.pow_succ]
    · exact hj
    · intro i hi
      rcases Nat.lt_succ_iff_lt_or_eq.mp hi with hi | hi
      · exact Nat.le_succ_of_le (h.passed i hi)
      · rw [hi, hboundary]
    · change n + 1 < last m (s.j + 1)
      have := last_lt (m := m) (Nat.lt_add_one s.j)
      omega
    · intro i
      change (s.flags &&& ~~~bit s.j).getLsbD i = decide (s.j + 1 ≤ i ∧ i < numCaches)
      rw [getLsbD_clear (Nat.lt_trans hj hcaches), h.flags, ← decide_not, ← Bool.decide_and]
      exact decide_eq_decide.mpr (by omega)
    · intro i hi
      change (if i = s.j then some (n + 1) else s.cacheBoundaries i) = _
      by_cases hij : i = s.j
      · rw [if_pos hij, hij, hboundary]
      · rw [if_neg hij]
        exact h.boundaries i (by change i < s.j + 1 at hi; omega)
  · obtain ⟨hinCache, hlinks, hrest⟩ := h.block
      ((s.modifyBlk (n + 1) f).modifyBlk (n + 1) g) hself hother
    refine ⟨(s.modifyBlk (n + 1) f).modifyBlk (n + 1) g, ?_, h.index, h.j_le, ?_, ?_, h.flags,
      h.boundaries, hinCache, hlinks, hrest⟩
    · rw [Setup.pass, mark]
      exact (congrArg (· >>= _) (if_neg hindex)).trans rfl
    · exact fun i hi => Nat.le_succ_of_le (h.passed i hi)
    · change n + 1 < last m s.j
      rw [h.index] at hindex
      omega

/-- The whole loop, by induction on the number of passes. -/
theorem exists_built (hm : 1 ≤ m) (hmask : ∀ i, cacheMask.getLsbD i = decide (i < numCaches)) (hcaches : numCaches < 32)
    (hblocks : numBlocks = 2 ^ (m + numCaches)) (hn : n ≤ numBlocks - 2) :
    ∃ s, (range' 1 n).foldlM (Setup.pass numCaches) (Setup.start cacheMask numBlocks (2 ^ m)) = .ok s ∧
      s.Built cacheMask numCaches numBlocks m n := by
  induction n with
  | zero => exact ⟨_, rfl, .start hm hmask⟩
  | succ n ih =>
    obtain ⟨s, hloop, hbuilt⟩ := ih (Nat.le_of_succ_le hn)
    obtain ⟨s', hpass, hbuilt'⟩ := hbuilt.pass hcaches hblocks (by omega)
    refine ⟨s', ?_, hbuilt'⟩
    rw [range'_1_concat, foldlM_append, hloop, Nat.add_comm 1 n]
    exact (bind_pure _).trans hpass

/-- The blocks at the two ends, which the loop leaves alone. -/
theorem blks_start_zero (hblocks : 2 ≤ numBlocks) (index : Nat) :
    (start cacheMask numBlocks index).blks 0 = ⟨.construct, none, some 1, cacheMask⟩ := by
  rw [start, blks_modifyBlk_of_ne (by omega : 0 ≠ numBlocks - 1), blks_modifyBlk_self]

theorem blks_start_last (hblocks : 2 ≤ numBlocks) (hsmall : numBlocks < 2 ^ 32) (index : Nat) :
    (start cacheMask numBlocks index).blks (numBlocks - 1) = ⟨.construct, some (numBlocks - 2), none, 0⟩ := by
  have hwrap : (numBlocks + 2 ^ 32 - 2) % 2 ^ 32 = numBlocks - 2 := by omega
  rw [start, blks_modifyBlk_self, blks_modifyBlk_of_ne (by omega : numBlocks - 1 ≠ 0), hwrap]

variable (h : s.Built cacheMask numCaches numBlocks m (numBlocks - 2)) (htwo : 2 ≤ numBlocks)
include h htwo

/-- The blocks are linked in the order of the array. -/
theorem Built.links_range (hsmall : numBlocks < 2 ^ 32) :
    Links (fun blk => (s.blks blk).next) (fun blk => (s.blks blk).prev) (range numBlocks) := by
  intro k a hk
  obtain ⟨hlt, heq⟩ := List.getElem?_eq_some_iff.mp hk
  rw [getElem_range] at heq
  subst heq
  rw [length_range] at hlt
  beta_reduce
  by_cases hzero : k = 0
  · subst hzero
    rw [h.rest 0 (.inl rfl), blks_start_zero htwo, getElem?_range (by omega), if_pos rfl]
    exact ⟨rfl, rfl⟩
  rw [if_neg hzero, getElem?_range (by omega : k - 1 < numBlocks)]
  by_cases hlast : k = numBlocks - 1
  · rw [h.rest k (.inr (by omega)), hlast, blks_start_last htwo hsmall,
      getElem?_eq_none (by rw [length_range]; omega)]
    exact ⟨rfl, rfl⟩
  · obtain ⟨hprev, hnext⟩ := h.links k (by omega) (by omega)
    rw [getElem?_range (by omega)]
    exact ⟨hnext, hprev⟩

/-- The flags are those of the positions in the array. -/
theorem Built.inCache_range (hmask : ∀ i, cacheMask.getLsbD i = decide (i < numCaches)) (hsmall : numBlocks < 2 ^ 32)
    (hlast : last m numCaches + 1 = numBlocks) {k : Nat} (hk : k < numBlocks) (i : Nat) :
    (s.blks k).inCache.getLsbD i = decide (i < numCaches ∧ k ≤ last m i) := by
  by_cases hzero : k = 0
  · subst hzero
    rw [h.rest 0 (.inl rfl), blks_start_zero htwo]
    refine (hmask i).trans (decide_eq_decide.mpr ?_)
    omega
  by_cases hend : k = numBlocks - 1
  · rw [h.rest k (.inr (by omega)), hend, blks_start_last htwo hsmall]
    refine BitVec.getLsbD_zero.trans (decide_eq_false ?_).symm
    rintro ⟨hi, hle⟩
    have := last_lt (m := m) hi
    omega
  · exact h.inCache k (by omega) (by omega) i

end Setup

section Construct

variable {size blkSize : Unsigned} {k b : Nat}

/-- The mask has the flags of all tracked caches. -/
theorem getLsbD_cacheMask {numCaches : Nat} (h : numCaches < 32) (i : Nat) :
    (if numCaches > 0 then ((1#64 <<< numCaches) - 1).setWidth 32 else 0 : BitVec 32).getLsbD i =
    decide (i < numCaches) := by
  by_cases hpos : numCaches > 0
  · have hpow : 2 ^ numCaches < 2 ^ 64 := Nat.pow_lt_pow_right (by decide) (by omega)
    have hone : (1#64 <<< numCaches).toNat = 2 ^ numCaches := by
      rw [BitVec.toNat_shiftLeft, BitVec.toNat_ofNat, Nat.one_mod_eq_one.mpr (by decide), Nat.one_shiftLeft,
        Nat.mod_eq_of_lt hpow]
    have hval : ((1#64 <<< numCaches) - 1).toNat = 2 ^ numCaches - 1 := by
      rw [BitVec.toNat_sub_of_le (by rw [BitVec.le_def, hone]; exact Nat.two_pow_pos numCaches), hone]
      rfl
    rw [if_pos hpos, BitVec.getLsbD_setWidth, BitVec.getLsbD, hval, Nat.testBit_two_pow_sub_one, ← Bool.decide_and]
    exact decide_eq_decide.mpr (by omega)
  · rw [if_neg hpos, decide_eq_false (by omega)]
    exact BitVec.getLsbD_zero

variable (hk : 17 ≤ k) (hk' : k < 32) (hb : b ≤ 16) (hsize : size.toNat = 2 ^ k) (hblkSize : blkSize.toNat = 2 ^ b)
include hk hk' hb hsize hblkSize

/-- The constructor succeeds, with the blocks in the order of the array. -/
theorem construct_spec (lookupLatency accessLatency : Nat) :
    ∃ t, construct size blkSize lookupLatency accessLatency = .ok t ∧ t.Sized ∧ t.Shape (range t.numBlocks) ∧
      t.blkSize = blkSize ∧ ∀ addr, t.tagHash addr = none := by
  have hlog : floorLog2 size = k := floorLog2_of_pow hk' hsize
  have hmask : ∀ i, (if k - 17 > 0 then ((1#64 <<< (k - 17)) - 1).setWidth 32 else 0 : BitVec 32).getLsbD i =
      decide (i < k - 17) := getLsbD_cacheMask (by omega)
  generalize hcacheMask :
    (if k - 17 > 0 then ((1#64 <<< (k - 17)) - 1).setWidth 32 else 0 : BitVec 32) = cacheMask at hmask
  have hblocks : (size / blkSize).toNat = 2 ^ (17 - b + (k - 17)) := by
    rw [BitVec.toNat_udiv, hsize, hblkSize, Nat.pow_div (by omega : b ≤ k) (by decide)]
    congr 1
    omega
  generalize hnumBlocks : (size / blkSize).toNat = numBlocks at hblocks
  have hsmallest : smallest blkSize = 2 ^ (17 - b) := by
    rw [smallest, hblkSize, Nat.pow_div (by omega : b ≤ 17) (by decide)]
  have hlast : Setup.last (17 - b) (k - 17) + 1 = numBlocks := by rw [Setup.last_succ, hblocks]
  have htwo : 2 ≤ numBlocks := by
    rw [hblocks]
    exact Nat.pow_le_pow_right (by decide : 2 > 0) (by omega : 1 ≤ 17 - b + (k - 17))
  have hsmall : numBlocks < 2 ^ 32 := by
    rw [hblocks]
    exact Nat.pow_lt_pow_right (by decide) (by omega)
  obtain ⟨s, hloop, h⟩ :=
    Setup.exists_built (by omega : 1 ≤ 17 - b) hmask (by omega) hblocks (Nat.le_refl (numBlocks - 2))
  -- the loop has reached every boundary
  have hj : s.j = k - 17 := by
    have hle := h.j_le
    have hahead := h.ahead
    by_contra hne
    have := Setup.last_lt (m := 17 - b) (by omega : s.j < k - 17)
    omega
  have hindex : s.index = numBlocks := by rw [h.index, hj, hblocks]
  let t : FALRU :=
    { blkSize, lookupLatency, accessLatency, numCaches := k - 17, cacheMask, numBlocks
      cacheBoundaries := s.cacheBoundaries, blks := s.blks, head := 0, tail := numBlocks - 1, tagHash := fun _ => none }
  have hsized : t.Sized :=
    { blkSize := ⟨b, hb, hblkSize⟩
      numCaches := by change k - 17 < 32; omega
      numBlocks := by
        change numBlocks = 2 ^ (17 + (k - 17)) / blkSize.toNat
        rw [hblocks, hblkSize, Nat.pow_div (by omega : b ≤ 17 + (k - 17)) (by decide)]
        congr 1
        omega
      cacheMask := hmask }
  have hboundary : ∀ i, t.boundary i = Setup.last (17 - b) i := by
    intro i
    rw [boundary, Setup.last, show t.blkSize.toNat = 2 ^ b from hblkSize,
      Nat.pow_div (by omega : b ≤ 17 + i) (by decide)]
    congr 2
    omega
  refine ⟨t, ?_, hsized, ?_, rfl, fun _ => rfl⟩
  · have hpos : 0 < numBlocks := by omega
    simp only [construct, hlog, hcacheMask, hnumBlocks, hsmallest,
      require_of_true (isPowerOf2_iff.mpr ⟨b, by omega, hblkSize⟩),
      require_of_true (isPowerOf2_iff.mpr ⟨k, hk', hsize⟩), require_of_decide hk,
      require_of_decide hpos]
    refine (bind_of_ok hloop _).trans ?_
    rw [hj, hindex, require_of_true (beq_self_eq_true _), require_of_true (beq_self_eq_true _)]
    rfl
  · constructor
    case perm => exact List.Perm.refl _
    case head => exact getElem?_range (by change 0 < numBlocks; omega)
    case tail => exact getElem?_range (by change numBlocks - 1 < numBlocks; omega)
    case links => exact h.links_range htwo hsmall
    case boundaries =>
      intro i hi
      have hlt : Setup.last (17 - b) i < Setup.last (17 - b) (k - 17) := Setup.last_lt hi
      rw [hboundary, getElem?_range (by change _ < numBlocks; omega)]
      exact h.boundaries i (by rw [hj]; exact hi)
    case inCache =>
      intro pos blk hblk i
      obtain ⟨hlt, heq⟩ := List.getElem?_eq_some_iff.mp hblk
      rw [getElem_range] at heq
      subst heq
      rw [length_range] at hlt
      rw [hboundary]
      exact h.inCache_range htwo hmask hsmall hlast hlt i

end Construct

end Gem5.FALRU
