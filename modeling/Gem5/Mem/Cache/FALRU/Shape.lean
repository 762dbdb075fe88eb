import Gem5.Lib.DoublyLinked
import Gem5.Mem.Cache.FALRU.Model

open Lib Lib.DoublyLinked BitVec

namespace Gem5.FALRU

/-- The position of the last block in a cache of `2 ^ (17 + i)` bytes. -/
def boundary (t : FALRU) (i : Nat) : Nat := 2 ^ (17 + i) / t.blkSize.toNat - 1

/-- The sizes of a tag store in which each tracked cache has at least two blocks. -/
structure Sized (t : FALRU) : Prop where
  blkSize : ∃ b ≤ 16, t.blkSize.toNat = 2 ^ b
  numCaches : t.numCaches < 32
  numBlocks : t.numBlocks = 2 ^ (17 + t.numCaches) / t.blkSize.toNat
  cacheMask : ∀ i, t.cacheMask.getLsbD i = decide (i < t.numCaches)

/-- The blocks are in one list in this order, and the boundaries and flags are those
of their positions. -/
structure Shape (t : FALRU) (order : List Nat) : Prop where
  perm : order.Perm (List.range t.numBlocks)
  head : order[0]? = some t.head
  tail : order[t.numBlocks - 1]? = some t.tail
  links : Links (fun blk => (t.blks blk).next) (fun blk => (t.blks blk).prev) order
  boundaries : ∀ i < t.numCaches, t.cacheBoundaries i = order[t.boundary i]?
  inCache : ∀ k blk, order[k]? = some blk →
    ∀ i, (t.blks blk).inCache.getLsbD i = decide (i < t.numCaches ∧ k ≤ t.boundary i)

/-- Moving blocks in the list changes neither the sizes nor the hash table nor what a
block holds. -/
structure Frame (t t' : FALRU) : Prop where
  blkSize : t'.blkSize = t.blkSize
  numCaches : t'.numCaches = t.numCaches
  cacheMask : t'.cacheMask = t.cacheMask
  numBlocks : t'.numBlocks = t.numBlocks
  tagHash : t'.tagHash = t.tagHash
  cacheBlk : ∀ blk, (t'.blks blk).toCacheBlk = (t.blks blk).toCacheBlk

variable {t t' t'' : FALRU} {order : List Nat} {blk pos i : Nat}

section Bits

theorem getLsbD_bit (i c : Nat) : (bit i).getLsbD c = (decide (i < 32) && decide (i = c)) :=
  getLsbD_twoPow i c

theorem bit_and_ne_zero (hi : i < 32) (flags : BitVec 32) : bit i &&& flags ≠ 0 ↔ flags.getLsbD i = true := by
  constructor
  · intro hne
    by_contra hbit
    apply hne
    apply eq_of_getLsbD_eq
    intro c hc
    refine Eq.trans ?_ getLsbD_zero.symm
    rw [getLsbD_and, getLsbD_bit]
    by_cases hic : i = c
    · rw [← hic, Bool.eq_false_iff.mpr hbit, Bool.and_false]
    · rw [decide_eq_false hic, Bool.and_false, Bool.false_and]
  · intro hbit hzero
    have hat : (bit i &&& flags).getLsbD i = true := by
      rw [getLsbD_and, getLsbD_bit, hbit, decide_eq_true hi, decide_eq_true rfl]
      rfl
    rw [hzero] at hat
    exact Bool.false_ne_true (getLsbD_zero.symm.trans hat)

theorem getLsbD_clear (hi : i < 32) (flags : BitVec 32) (c : Nat) :
    (flags &&& ~~~bit i).getLsbD c = (flags.getLsbD c && !decide (c = i)) := by
  rw [getLsbD_and, getLsbD_not, getLsbD_bit, decide_eq_true hi, Bool.true_and]
  by_cases hc : c < 32
  · rw [decide_eq_true hc, Bool.true_and]
    congr 2
    exact decide_eq_decide.mpr eq_comm
  · rw [getLsbD_of_ge flags c (Nat.not_lt.mp hc), Bool.false_and, Bool.false_and]

end Bits

section Sizes

theorem Sized.boundary_succ (h : t.Sized) : ∃ m, 1 ≤ m ∧ ∀ i, t.boundary i + 1 = 2 ^ (m + i) := by
  obtain ⟨b, hb, hblkSize⟩ := h.blkSize
  refine ⟨17 - b, by omega, fun i => ?_⟩
  have hdiv : 2 ^ (17 + i) / 2 ^ b = 2 ^ (17 + i - b) := Nat.pow_div (by omega) (by decide)
  have hpos := Nat.two_pow_pos (17 + i - b)
  rw [boundary, hblkSize, hdiv, Nat.sub_add_cancel hpos]
  congr 1
  omega

theorem Sized.boundary_pos (h : t.Sized) (i : Nat) : 0 < t.boundary i := by
  obtain ⟨m, hm, hsucc⟩ := h.boundary_succ
  have hpow : 2 ^ 1 ≤ 2 ^ (m + i) := Nat.pow_le_pow_right (by decide) (by omega)
  have := hsucc i
  omega

theorem Sized.boundary_lt (h : t.Sized) (hij : i < j) : t.boundary i < t.boundary j := by
  obtain ⟨m, -, hsucc⟩ := h.boundary_succ
  have hpow : 2 ^ (m + i) < 2 ^ (m + j) := Nat.pow_lt_pow_right (by decide) (by omega)
  have hi := hsucc i
  have hj := hsucc j
  omega

theorem Sized.boundary_numCaches (h : t.Sized) : t.boundary t.numCaches = t.numBlocks - 1 := by
  rw [boundary, h.numBlocks]

theorem Sized.two_le (h : t.Sized) : 2 ≤ t.numBlocks := by
  have hpos := h.boundary_pos t.numCaches
  rw [h.boundary_numCaches] at hpos
  omega

theorem Frame.refl (t : FALRU) : Frame t t := ⟨rfl, rfl, rfl, rfl, rfl, fun _ => rfl⟩

theorem Frame.trans (h : Frame t t') (h' : Frame t' t'') : Frame t t'' :=
  ⟨h'.blkSize.trans h.blkSize, h'.numCaches.trans h.numCaches, h'.cacheMask.trans h.cacheMask,
    h'.numBlocks.trans h.numBlocks, h'.tagHash.trans h.tagHash, fun blk => (h'.cacheBlk blk).trans (h.cacheBlk blk)⟩

theorem Frame.boundary (h : Frame t t') (i : Nat) : t'.boundary i = t.boundary i := by
  rw [FALRU.boundary, h.blkSize, FALRU.boundary]

theorem Frame.sized (h : Frame t t') (hsized : t.Sized) : t'.Sized where
  blkSize := by rw [h.blkSize]; exact hsized.blkSize
  numCaches := by rw [h.numCaches]; exact hsized.numCaches
  numBlocks := by rw [h.numBlocks, h.numCaches, h.blkSize]; exact hsized.numBlocks
  cacheMask := by rw [h.cacheMask, h.numCaches]; exact hsized.cacheMask

end Sizes

section Blocks

variable {f : FALRUBlk → FALRUBlk}

theorem blks_modifyBlk_self (t : FALRU) (blk : Nat) (f : FALRUBlk → FALRUBlk) :
    (t.modifyBlk blk f).blks blk = f (t.blks blk) := if_pos rfl

theorem blks_modifyBlk_of_ne (h : other ≠ blk) : (t.modifyBlk blk f).blks other = t.blks other := if_neg h

/-- A field that `f` keeps is the same in every block. -/
theorem blks_modifyBlk_congr {A : Type} (field : FALRUBlk → A) (h : ∀ b, field (f b) = field b) (other : Nat) :
    field ((t.modifyBlk blk f).blks other) = field (t.blks other) := by
  by_cases hother : other = blk
  · rw [hother, blks_modifyBlk_self, h]
  · rw [blks_modifyBlk_of_ne hother]

theorem Frame.modifyBlk (t : FALRU) (blk : Nat) (h : ∀ b, (f b).toCacheBlk = b.toCacheBlk) :
    Frame t (t.modifyBlk blk f) :=
  ⟨rfl, rfl, rfl, rfl, rfl, blks_modifyBlk_congr FALRUBlk.toCacheBlk h⟩

theorem deref_some (h : blk < t.numBlocks) : t.deref (some blk) = .ok blk := if_pos h

variable (h : t.Shape order)
include h

theorem Shape.nodup : order.Nodup := h.perm.nodup_iff.mpr List.nodup_range

theorem Shape.length : order.length = t.numBlocks := by
  rw [h.perm.length_eq, List.length_range]

theorem Shape.lt (hblk : order[pos]? = some blk) : blk < t.numBlocks :=
  List.mem_range.mp (h.perm.mem_iff.mp (List.mem_of_getElem? hblk))

theorem Shape.pos_lt (hblk : order[pos]? = some blk) : pos < t.numBlocks := by
  rw [← h.length]
  exact (List.getElem?_eq_some_iff.mp hblk).1

theorem Shape.exists_at (hk : k < t.numBlocks) : ∃ b, order[k]? = some b :=
  ⟨_, List.getElem?_eq_getElem (by rw [h.length]; exact hk)⟩

theorem Shape.exists_pos (hblk : blk < t.numBlocks) : ∃ pos : Nat, order[pos]? = some blk :=
  List.mem_iff_getElem?.mp (h.perm.mem_iff.mpr (List.mem_range.mpr hblk))

end Blocks

/-- What the loop of `moveToHead` has done after `n` passes: the boundaries are those
of the new order, and the old boundaries that the block passes have lost the flag
of their cache. -/
structure Shifted (t t' : FALRU) (order : List Nat) (blk pos n : Nat) : Prop where
  frame : Frame t t'
  head : t'.head = t.head
  tail : t'.tail = t.tail
  next : ∀ b, (t'.blks b).next = (t.blks b).next
  prev : ∀ b, (t'.blks b).prev = (t.blks b).prev
  boundaries : ∀ i, t'.cacheBoundaries i = if i < n then (toHead blk pos order)[t.boundary i]? else t.cacheBoundaries i
  inCache : ∀ k b, order[k]? = some b → ∀ i, (t'.blks b).inCache.getLsbD i =
    ((t.blks b).inCache.getLsbD i && !decide (i < n ∧ t.boundary i < pos ∧ k = t.boundary i))

theorem Shifted.start (t : FALRU) (order : List Nat) (blk pos : Nat) : Shifted t t order blk pos 0 where
  frame := .refl t
  head := rfl
  tail := rfl
  next _ := rfl
  prev _ := rfl
  boundaries i := (if_neg (Nat.not_lt_zero i)).symm
  inCache k b _ i := by
    rw [decide_eq_false (fun h => Nat.not_lt_zero i h.1), Bool.not_false, Bool.and_true]

/-- What one more pass has to do. -/
theorem Shifted.succ (h : Shifted t t' order blk pos n) (hframe : Frame t' t'') (hhead : t''.head = t'.head)
    (htail : t''.tail = t'.tail) (hnext : ∀ b, (t''.blks b).next = (t'.blks b).next)
    (hprev : ∀ b, (t''.blks b).prev = (t'.blks b).prev)
    (hself : t''.cacheBoundaries n = (toHead blk pos order)[t.boundary n]?)
    (hother : ∀ i, i ≠ n → t''.cacheBoundaries i = t'.cacheBoundaries i)
    (hflags : ∀ k b, order[k]? = some b → ∀ i, (t''.blks b).inCache.getLsbD i =
      ((t'.blks b).inCache.getLsbD i && !decide (i = n ∧ t.boundary i < pos ∧ k = t.boundary i))) :
    Shifted t t'' order blk pos (n + 1) where
  frame := h.frame.trans hframe
  head := hhead.trans h.head
  tail := htail.trans h.tail
  next b := (hnext b).trans (h.next b)
  prev b := (hprev b).trans (h.prev b)
  boundaries i := by
    by_cases hi : i = n
    · rw [hi, hself, if_pos (Nat.lt_succ_self n)]
    · rw [hother i hi, h.boundaries]
      exact if_congr (by omega) rfl rfl
  inCache k b hb i := by
    rw [hflags k b hb, h.inCache k b hb, Bool.and_assoc, ← Bool.not_or, ← Bool.decide_or]
    congr 2
    rw [decide_eq_decide, ← or_and_right, Nat.lt_succ_iff_lt_or_eq]

section Loop

variable {n : Nat} (hsized : t.Sized) (hshape : t.Shape order) (hblk : order[pos]? = some blk)
include hsized hshape

theorem exists_boundary (hn : n < t.numCaches) : ∃ b, order[t.boundary n]? = some b := by
  apply hshape.exists_at
  have hlt := hsized.boundary_lt hn
  rw [hsized.boundary_numCaches] at hlt
  omega

/-- The block before the boundary is the new boundary if the block comes from behind
it or is the boundary. -/
theorem getElem?_toHead_boundary (blk : Nat) (hle : t.boundary n ≤ pos) (hb : order[t.boundary n]? = some b) :
    (t.blks b).prev = (toHead blk pos order)[t.boundary n]? := by
  have hnpos := hsized.boundary_pos n
  obtain ⟨k, hk⟩ : ∃ k, t.boundary n = k + 1 := ⟨t.boundary n - 1, by omega⟩
  refine (hshape.links _ b hb).2.trans ?_
  rw [if_neg (by omega), hk, getElem?_toHead_succ, if_pos (by omega), Nat.add_sub_cancel]

include hblk

/-- The flags in which the block differs from the head are those of the caches whose
last block is before it. -/
theorem getLsbD_updateMask (hn : n < t.numCaches) :
    ((t.blks blk).inCache ^^^ t.cacheMask).getLsbD n = decide (t.boundary n < pos) := by
  rw [getLsbD_xor, hshape.inCache pos blk hblk, hsized.cacheMask, decide_eq_true hn, Bool.xor_true]
  by_cases hle : pos ≤ t.boundary n
  · rw [decide_eq_true ⟨hn, hle⟩, decide_eq_false (by omega), Bool.not_true]
  · rw [decide_eq_false (fun h => hle h.2), decide_eq_true (by omega), Bool.not_false]

/-- One pass of the loop. -/
theorem Shifted.pass (h : Shifted t t' order blk pos n) (hn : n < t.numCaches) :
    ∃ t'', t'.shiftBoundary blk ((t.blks blk).inCache ^^^ t.cacheMask) n = .ok t'' ∧
      Shifted t t'' order blk pos (n + 1) := by
  obtain ⟨b, hb⟩ := exists_boundary hsized hshape hn
  have hbit : n < 32 := Nat.lt_trans hn hsized.numCaches
  have hold : t'.cacheBoundaries n = some b := by
    rw [h.boundaries, if_neg (Nat.lt_irrefl n), hshape.boundaries n hn, hb]
  unfold shiftBoundary
  by_cases hlt : t.boundary n < pos
  · -- the block comes from behind the boundary
    have hset : bit n &&& ((t.blks blk).inCache ^^^ t.cacheMask) ≠ 0 := by
      rw [bit_and_ne_zero hbit, getLsbD_updateMask hsized hshape hblk hn, decide_eq_true hlt]
    have hderef : t'.deref (t'.cacheBoundaries n) = .ok b := by
      rw [hold]
      exact deref_some (by rw [h.frame.numBlocks]; exact hshape.lt hb)
    have hprev := getElem?_toHead_boundary hsized hshape blk (Nat.le_of_lt hlt) hb
    rw [if_pos hset, hderef]
    let f : FALRUBlk → FALRUBlk := fun x => { x with inCache := x.inCache &&& ~~~bit n }
    have hframe : Frame t' (t'.modifyBlk b f) := .modifyBlk t' b fun _ => rfl
    refine ⟨(t'.modifyBlk b f).setBoundary n ((t'.modifyBlk b f).blks b).prev, rfl,
      h.succ ⟨rfl, rfl, rfl, rfl, rfl, hframe.cacheBlk⟩ rfl rfl
        (blks_modifyBlk_congr FALRUBlk.next (f := f) fun _ => rfl)
        (blks_modifyBlk_congr FALRUBlk.prev (f := f) fun _ => rfl) ?_ (fun i hi => if_neg hi) ?_⟩
    · rw [← hprev, ← h.prev b]
      refine (if_pos rfl).trans ?_
      rw [blks_modifyBlk_self]
    · intro k c hc i
      by_cases hcb : c = b
      · subst hcb
        have hk : k = t.boundary n := pos_inj hshape.nodup hc hb
        refine (congrArg (fun x : FALRUBlk => x.inCache.getLsbD i) (blks_modifyBlk_self t' c f)).trans ?_
        rw [getLsbD_clear hbit]
        congr 2
        exact decide_eq_decide.mpr ⟨fun hi => ⟨hi, hi ▸ ⟨hlt, hk⟩⟩, And.left⟩
      · refine (congrArg (fun x : FALRUBlk => x.inCache.getLsbD i) (blks_modifyBlk_of_ne (f := f) hcb)).trans ?_
        rw [decide_eq_false, Bool.not_false, Bool.and_true]
        rintro ⟨rfl, -, rfl⟩
        exact hcb (Option.some.inj (hc.symm.trans hb))
  have hclear : ¬bit n &&& ((t.blks blk).inCache ^^^ t.cacheMask) ≠ 0 := by
    rw [bit_and_ne_zero hbit, getLsbD_updateMask hsized hshape hblk hn, decide_eq_false hlt]
    exact Bool.false_ne_true
  -- no flag changes
  have hflags : ∀ k c, order[k]? = some c → ∀ i, (t'.blks c).inCache.getLsbD i =
      ((t'.blks c).inCache.getLsbD i && !decide (i = n ∧ t.boundary i < pos ∧ k = t.boundary i)) := by
    intro k c _ i
    rw [decide_eq_false, Bool.not_false, Bool.and_true]
    rintro ⟨rfl, hpos, -⟩
    exact hlt hpos
  rw [if_neg hclear]
  by_cases hself : t.boundary n = pos
  · -- the block is the boundary
    have hbblk : b = blk := by
      rw [hself, hblk] at hb
      exact (Option.some.inj hb).symm
    have hprev := getElem?_toHead_boundary hsized hshape blk (Nat.le_of_eq hself) hb
    rw [if_pos (by rw [hold, hbblk])]
    refine ⟨_, rfl, h.succ ⟨rfl, rfl, rfl, rfl, rfl, fun _ => rfl⟩ rfl rfl (fun _ => rfl) (fun _ => rfl) ?_
      (fun i hi => if_neg hi) hflags⟩
    rw [← hprev, hbblk, ← h.prev blk]
    exact if_pos rfl
  · -- the block stays in front of the boundary
    have hne : b ≠ blk := by
      rintro rfl
      exact hself (pos_inj hshape.nodup hb hblk)
    rw [if_neg (by rw [hold]; exact fun heq => hne (Option.some.inj heq))]
    refine ⟨_, rfl, h.succ (.refl t') rfl rfl (fun _ => rfl) (fun _ => rfl) ?_ (fun _ _ => rfl) hflags⟩
    have hnpos := hsized.boundary_pos n
    obtain ⟨k, hk⟩ : ∃ k, t.boundary n = k + 1 := ⟨t.boundary n - 1, by omega⟩
    rw [hold, ← hb, hk, getElem?_toHead_succ, if_neg (by omega)]

/-- The loop, by induction on the number of caches. -/
theorem exists_shifted (hn : n ≤ t.numCaches) :
    ∃ t', (List.range n).foldlM (shiftBoundary blk ((t.blks blk).inCache ^^^ t.cacheMask)) t = .ok t' ∧
      Shifted t t' order blk pos n := by
  induction n with
  | zero => exact ⟨t, rfl, .start t order blk pos⟩
  | succ n ih =>
    obtain ⟨t', hloop, hshifted⟩ := ih (Nat.le_of_succ_le hn)
    obtain ⟨t'', hpass, hshifted'⟩ := hshifted.pass hsized hshape hblk hn
    refine ⟨t'', ?_, hshifted'⟩
    rw [List.range_succ, List.foldlM_append, hloop]
    exact (bind_pure _).trans hpass

end Loop

/-- What `unlink` does with a block whose predecessor is `p`. -/
structure Unlinked (t t' : FALRU) (blk p : Nat) : Prop where
  frame : Frame t t'
  head : t'.head = t.head
  tail : t'.tail = if blk = t.tail then p else t.tail
  boundaries : t'.cacheBoundaries = t.cacheBoundaries
  inCache : ∀ b, (t'.blks b).inCache = (t.blks b).inCache
  next : ∀ b, (t'.blks b).next = if b = p then (t.blks blk).next else (t.blks b).next
  prev : ∀ b, (t'.blks b).prev = if (t.blks blk).next = some b then some p else (t.blks b).prev

section Links

variable {p : Nat} (hprev : (t.blks blk).prev = some p) (hp : p < t.numBlocks)
include hprev hp

theorem unlink_tail (htail : blk = t.tail) (hnext : (t.blks blk).next = none) :
    ∃ t', t.unlink blk = .ok t' ∧ Unlinked t t' blk p := by
  let f : FALRUBlk → FALRUBlk := fun b => { b with next := none }
  have hrequire : Result.require ((t.blks blk).next == none) = .ok () := Result.require_of_true (by rw [hnext]; rfl)
  refine ⟨{ t.modifyBlk p f with tail := p }, ?_, ?_⟩
  · rw [unlink, if_pos htail, hrequire, hprev, deref_some hp]
    rfl
  · constructor
    case frame =>
      have hframe : Frame t (t.modifyBlk p f) := .modifyBlk t p fun _ => rfl
      exact ⟨rfl, rfl, rfl, rfl, rfl, hframe.cacheBlk⟩
    case head => rfl
    case tail => rw [if_pos htail]
    case boundaries => rfl
    case inCache => exact blks_modifyBlk_congr FALRUBlk.inCache fun _ => rfl
    case next =>
      intro b
      by_cases hb : b = p
      · rw [if_pos hb, hnext, hb]
        exact congrArg FALRUBlk.next (blks_modifyBlk_self t p f)
      · rw [if_neg hb]
        exact congrArg FALRUBlk.next (blks_modifyBlk_of_ne (f := f) hb)
    case prev =>
      intro b
      rw [hnext, if_neg (by exact Option.some_ne_none b ∘ Eq.symm)]
      exact blks_modifyBlk_congr FALRUBlk.prev (f := f) (fun _ => rfl) b

theorem unlink_middle (htail : blk ≠ t.tail) (hnext : (t.blks blk).next = some n) (hn : n < t.numBlocks) :
    ∃ t', t.unlink blk = .ok t' ∧ Unlinked t t' blk p := by
  let f : FALRUBlk → FALRUBlk := fun b => { b with next := some n }
  let g : FALRUBlk → FALRUBlk := fun b => { b with prev := some p }
  have hkeep : ((t.modifyBlk p f).blks blk).prev = some p :=
    (blks_modifyBlk_congr FALRUBlk.prev (f := f) (fun _ => rfl) blk).trans hprev
  refine ⟨(t.modifyBlk p f).modifyBlk n g, ?_, ?_⟩
  · rw [unlink, if_neg htail, hprev, hnext, deref_some hp, deref_some hn]
    refine congrArg Except.ok ?_
    change (t.modifyBlk p f).modifyBlk n (fun b => { b with prev := ((t.modifyBlk p f).blks blk).prev }) = _
    rw [hkeep]
  · constructor
    case frame => exact (Frame.modifyBlk t p (f := f) fun _ => rfl).trans (.modifyBlk _ n fun _ => rfl)
    case head => rfl
    case tail => rw [if_neg htail]; rfl
    case boundaries => rfl
    case inCache =>
      intro b
      exact (blks_modifyBlk_congr FALRUBlk.inCache (f := g) (fun _ => rfl) b).trans
        (blks_modifyBlk_congr FALRUBlk.inCache (f := f) (fun _ => rfl) b)
    case next =>
      intro b
      refine (blks_modifyBlk_congr FALRUBlk.next (f := g) (fun _ => rfl) b).trans ?_
      by_cases hb : b = p
      · rw [if_pos hb, hnext, hb, blks_modifyBlk_self]
      · rw [if_neg hb, blks_modifyBlk_of_ne hb]
    case prev =>
      intro b
      by_cases hb : b = n
      · rw [hnext, hb, if_pos rfl, blks_modifyBlk_self]
      · rw [hnext, if_neg (fun heq => hb (Option.some.inj heq).symm), blks_modifyBlk_of_ne hb]
        exact blks_modifyBlk_congr FALRUBlk.prev (f := f) (fun _ => rfl) b

end Links

section LinkHead

theorem Frame.linkHead (t : FALRU) (blk : Nat) : Frame t (t.linkHead blk) := by
  have hframe := (Frame.modifyBlk t blk (f := fun b => { b with next := some t.head, prev := none }) fun _ => rfl).trans
    (.modifyBlk _ t.head (f := fun b => { b with prev := some blk }) fun _ => rfl)
  exact { hframe with }

theorem inCache_linkHead (t : FALRU) (blk b : Nat) : ((t.linkHead blk).blks b).inCache = (t.blks b).inCache := by
  refine (blks_modifyBlk_congr FALRUBlk.inCache (f := fun b => { b with prev := some blk }) (fun _ => rfl) b).trans ?_
  exact blks_modifyBlk_congr FALRUBlk.inCache (f := fun b => { b with next := some t.head, prev := none })
    (fun _ => rfl) b

theorem next_linkHead (t : FALRU) (blk b : Nat) :
    ((t.linkHead blk).blks b).next = if b = blk then some t.head else (t.blks b).next := by
  refine (blks_modifyBlk_congr FALRUBlk.next (f := fun b => { b with prev := some blk }) (fun _ => rfl) b).trans ?_
  by_cases hb : b = blk
  · rw [if_pos hb, hb, blks_modifyBlk_self]
  · rw [if_neg hb, blks_modifyBlk_of_ne hb]

theorem prev_linkHead (hne : blk ≠ t.head) (b : Nat) :
    ((t.linkHead blk).blks b).prev = if b = blk then none else if b = t.head then some blk else (t.blks b).prev := by
  let f : FALRUBlk → FALRUBlk := fun b => { b with next := some t.head, prev := none }
  let g : FALRUBlk → FALRUBlk := fun b => { b with prev := some blk }
  change (((t.modifyBlk blk f).modifyBlk t.head g).blks b).prev = _
  by_cases hb : b = blk
  · rw [if_pos hb, hb, blks_modifyBlk_of_ne hne, blks_modifyBlk_self]
  rw [if_neg hb]
  by_cases hhead : b = t.head
  · rw [if_pos hhead, hhead, blks_modifyBlk_self]
  · rw [if_neg hhead, blks_modifyBlk_of_ne hhead, blks_modifyBlk_of_ne hb]

end LinkHead

/-- The position of the tail after a block has been moved to the head. -/
theorem getElem?_toHead_last (hshape : t.Shape order) (hblk : order[pos]? = some blk) (hpos : 0 < pos)
    (hp : order[pos - 1]? = some p) :
    (toHead blk pos order)[t.numBlocks - 1]? = some (if blk = t.tail then p else t.tail) := by
  have hlt := hshape.pos_lt hblk
  obtain ⟨k, hk⟩ : ∃ k, t.numBlocks - 1 = k + 1 := ⟨t.numBlocks - 2, by omega⟩
  have htail := hshape.tail
  rw [hk] at htail ⊢
  rw [getElem?_toHead_succ]
  by_cases hlast : pos = k + 1
  · have hself : blk = t.tail := by
      rw [← hlast, hblk] at htail
      exact Option.some.inj htail
    rw [if_pos hself, if_pos (by omega), ← hp, hlast, Nat.add_sub_cancel]
  have hne : blk ≠ t.tail := by
    rintro rfl
    exact hlast (pos_inj hshape.nodup hblk htail)
  rw [if_neg hne, if_neg (by omega), htail]

/-- The links after a block has been taken out and put before the head. -/
theorem Unlinked.links (hshape : t.Shape order) (hblk : order[pos]? = some blk) (hpos : 0 < pos)
    (hp : order[pos - 1]? = some p) (hnext : ∀ b, (t'.blks b).next = (t.blks b).next)
    (hprev : ∀ b, (t'.blks b).prev = (t.blks b).prev) (hhead : t'.head = t.head) (h : Unlinked t' t'' blk p) :
    Links (fun b => ((t''.linkHead blk).blks b).next) (fun b => ((t''.linkHead blk).blks b).prev)
      (toHead blk pos order) := by
  have hne_head : t.head ≠ blk := by
    rintro rfl
    have := pos_inj hshape.nodup hblk hshape.head
    omega
  have hne_prev : p ≠ blk := by
    rintro rfl
    have := pos_inj hshape.nodup hblk hp
    omega
  have hhead' : t''.head = t.head := h.head.trans hhead
  obtain ⟨hnext_blk, hprev_blk⟩ := hshape.links pos blk hblk
  rw [if_neg (by omega), hp] at hprev_blk
  have hnext' : ∀ b, ((t''.linkHead blk).blks b).next =
      if b = blk then some t.head else if b = p then (t.blks blk).next else (t.blks b).next := by
    intro b
    rw [next_linkHead, h.next, hhead', hnext, hnext]
  have hprev' : ∀ b, ((t''.linkHead blk).blks b).prev =
      if b = blk then none else if b = t.head then some blk
      else if (t.blks blk).next = some b then some p else (t.blks b).prev := by
    intro b
    rw [prev_linkHead (hne_head.symm.trans_eq hhead'.symm), h.prev, hhead', hnext, hprev]
  apply hshape.links.toHead hshape.nodup hblk hpos hshape.head
  · rw [hnext', if_pos rfl]
  · rw [hprev', if_pos rfl]
  · intro b hb
    obtain rfl : p = b := Option.some.inj (hprev_blk.symm.trans hb)
    rw [hnext', if_neg hne_prev, if_pos rfl]
  · intro b hb hnot
    have hne : b ≠ p := fun heq => hnot (heq ▸ hprev_blk)
    rw [hnext', if_neg hb, if_neg hne]
  · rw [hprev', if_neg hne_head, if_pos rfl]
  · intro b hb
    have hat : order[pos + 1]? = some b := hnext_blk.symm.trans hb
    have hb_blk : b ≠ blk := by
      rintro rfl
      have := pos_inj hshape.nodup hblk hat
      omega
    have hb_head : b ≠ t.head := by
      rintro rfl
      have := pos_inj hshape.nodup hat hshape.head
      omega
    rw [hprev', if_neg hb_blk, if_neg hb_head, if_pos hb]
    exact hprev_blk.symm
  · intro b hb hb_head hnot
    rw [hprev', if_neg hb, if_neg hb_head, if_neg hnot]

/-- The flags after a block has been moved are those of the new positions. -/
theorem Shifted.inCache_toHead (hshape : t.Shape order) (hblk : order[pos]? = some blk)
    (h : Shifted t t' order blk pos t.numCaches) (hk : (toHead blk pos order)[k + 1]? = some b) (i : Nat) :
    b ≠ blk ∧ (t'.blks b).inCache.getLsbD i = decide (i < t.numCaches ∧ k + 1 ≤ t.boundary i) := by
  obtain ⟨m, hm, hcases⟩ := exists_of_toHead hk
  constructor
  · rintro rfl
    have := pos_inj hshape.nodup hm hblk
    omega
  · rw [h.inCache m b hm, hshape.inCache m b hm, ← decide_not, ← Bool.decide_and]
    apply decide_eq_decide.mpr
    omega

/-- `moveToHead` on a block that is not the head. -/
theorem moveToHead_spec (hsized : t.Sized) (hshape : t.Shape order) (hblk : order[pos]? = some blk) (hpos : 0 < pos) :
    ∃ t', t.moveToHead blk = .ok t' ∧ Frame t t' ∧ t'.Shape (toHead blk pos order) := by
  obtain ⟨u, hloop, hu⟩ := exists_shifted hsized hshape hblk (Nat.le_refl t.numCaches)
  let f : FALRUBlk → FALRUBlk := fun b => { b with inCache := u.cacheMask }
  have hv : Frame u (u.modifyBlk blk f) := .modifyBlk u blk fun _ => rfl
  -- the links of the block before it moves
  have hlt := hshape.pos_lt hblk
  obtain ⟨p, hp⟩ := hshape.exists_at (by omega : pos - 1 < t.numBlocks)
  obtain ⟨hnext, hprev⟩ := hshape.links pos blk hblk
  rw [if_neg (by omega), hp] at hprev
  have hnext_v : ∀ b, ((u.modifyBlk blk f).blks b).next = (t.blks b).next := fun b =>
    (blks_modifyBlk_congr FALRUBlk.next (f := f) (fun _ => rfl) b).trans (hu.next b)
  have hprev_v : ∀ b, ((u.modifyBlk blk f).blks b).prev = (t.blks b).prev := fun b =>
    (blks_modifyBlk_congr FALRUBlk.prev (f := f) (fun _ => rfl) b).trans (hu.prev b)
  have hpv : p < (u.modifyBlk blk f).numBlocks := by
    rw [hv.numBlocks, hu.frame.numBlocks]
    exact hshape.lt hp
  have hne_head : blk ≠ t.head := by
    rintro rfl
    have := pos_inj hshape.nodup hblk hshape.head
    omega
  obtain ⟨w, hunlink, hw⟩ : ∃ w, (u.modifyBlk blk f).unlink blk = .ok w ∧ Unlinked (u.modifyBlk blk f) w blk p := by
    by_cases hlast : pos + 1 = t.numBlocks
    · apply unlink_tail ((hprev_v blk).trans hprev) hpv
      · have htail := hshape.tail
        rw [← hlast, Nat.add_sub_cancel, hblk] at htail
        exact (Option.some.inj htail).trans hu.tail.symm
      · refine (hnext_v blk).trans (hnext.trans ?_)
        exact List.getElem?_eq_none (by rw [hshape.length]; omega)
    · obtain ⟨n, hn⟩ := hshape.exists_at (by omega : pos + 1 < t.numBlocks)
      apply unlink_middle ((hprev_v blk).trans hprev) hpv _ ((hnext_v blk).trans (hnext.trans hn))
      · rw [hv.numBlocks, hu.frame.numBlocks]
        exact hshape.lt hn
      · intro heq
        have htail := hshape.tail
        have : pos = t.numBlocks - 1 := pos_inj hshape.nodup hblk (htail.trans (congrArg some (heq.trans hu.tail).symm))
        omega
  have hframe : Frame t (w.linkHead blk) := hu.frame.trans (hv.trans (hw.frame.trans (.linkHead w blk)))
  refine ⟨w.linkHead blk, ?_, hframe, ?_⟩
  · rw [moveToHead, hloop]
    refine (if_pos ?_).trans ?_
    · exact hne_head.trans_eq hu.head.symm
    · exact (congrArg (· >>= fun t => Except.ok (t.linkHead blk)) hunlink).trans rfl
  · constructor
    case perm =>
      rw [hframe.numBlocks]
      exact (toHead_perm hblk).trans hshape.perm
    case head => rfl
    case tail =>
      rw [hframe.numBlocks, getElem?_toHead_last hshape hblk hpos hp]
      refine congrArg some (Eq.trans ?_ hw.tail.symm)
      rw [show (u.modifyBlk blk f).tail = t.tail from hu.tail]
    case links =>
      exact hw.links hshape hblk hpos hp hnext_v hprev_v hu.head
    case boundaries =>
      intro i hi
      rw [hframe.boundary]
      refine (congrFun hw.boundaries i).trans ((hu.boundaries i).trans (if_pos ?_))
      rwa [← hframe.numCaches]
    case inCache =>
      intro k b hk i
      rw [inCache_linkHead, hw.inCache, hframe.numCaches, hframe.boundary]
      cases k with
      | zero =>
        obtain rfl : blk = b := Option.some.inj hk
        rw [blks_modifyBlk_self]
        refine (congrArg (getLsbD · i) hu.frame.cacheMask).trans ((hsized.cacheMask i).trans ?_)
        exact decide_eq_decide.mpr (by omega)
      | succ k =>
        obtain ⟨hne, hflags⟩ := hu.inCache_toHead hshape hblk hk i
        rw [blks_modifyBlk_of_ne hne, hflags]

end Gem5.FALRU
