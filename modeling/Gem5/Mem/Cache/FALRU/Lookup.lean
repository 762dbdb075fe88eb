import Gem5.Mem.Cache.FALRU.Runs

open Lib Result

namespace Gem5.FALRU

/-- A step of a run: the state before, the call and the answer. -/
abbrev Entry : Type := FALRU × Call × Option Nat

/-- The allocation that a step makes: the address and the block. -/
def Entry.allocates : Entry → Option (Addr × Nat)
  | (t, .fill addr .., answer) => answer.map (t.blkAlign addr, ·)
  | (t, .writeback addr .., answer) => answer.map (t.blkAlign addr, ·)
  | _ => none

/-- The block that a step takes from its address, to use it again or to invalidate
it. -/
def Entry.removes : Entry → Option Nat
  | (_, .fill .., answer) => answer
  | (_, .writeback .., answer) => answer
  | (_, .invalidateBlock blk, _) => some blk
  | _ => none

/-- The block that was last allocated for a block address, unless it has been evicted
or invalidated since. The log has the newest step first. -/
def resident : List Entry → Addr → Option Nat
  | [], _ => none
  | entry :: log, addr =>
    match entry.allocates with
    | some (allocated, blk) => if addr = allocated then some blk else (resident log addr).filter (· ≠ blk)
    | none => (resident log addr).filter (entry.removes ≠ some ·)

/-- The calls other than a `findVictim` whose block is not used. -/
def Call.Fills : Call → Prop
  | .findVictim _ => False
  | _ => True

/-- A block is allocated only for the address whose tag it already has. -/
def ForStoredTag (t : FALRU) : Call → Prop
  | .fill addr _ _ => (t.blks t.tail).tag = t.blkAlign addr
  | .writeback addr _ _ => (t.blks t.tail).tag = t.blkAlign addr
  | _ => True

variable {t t' : FALRU} {blk : Nat} {ticksToCycles : Nat → Nat}

section Frames

theorem Frame.shiftBoundary (h : t.shiftBoundary blk updateMask i = .ok t') : Frame t t' := by
  unfold FALRU.shiftBoundary at h
  by_cases hset : bit i &&& updateMask ≠ 0
  · rw [if_pos hset] at h
    obtain ⟨boundary, -, h⟩ := bind_ok h
    cases h
    have hframe := Frame.modifyBlk t boundary (f := fun b => { b with inCache := b.inCache &&& ~~~bit i }) fun _ => rfl
    exact ⟨rfl, rfl, rfl, rfl, rfl, hframe.cacheBlk⟩
  · rw [if_neg hset] at h
    split at h
    · cases h
      exact ⟨rfl, rfl, rfl, rfl, rfl, fun _ => rfl⟩
    · cases h
      exact .refl t

theorem Frame.unlink (h : t.unlink blk = .ok t') : Frame t t' := by
  unfold FALRU.unlink at h
  split at h
  · obtain ⟨-, tail, -, -, h⟩ := bind_ok₂ h
    cases h
    have hframe := Frame.modifyBlk t tail (f := fun b => { b with next := none }) fun _ => rfl
    exact ⟨rfl, rfl, rfl, rfl, rfl, hframe.cacheBlk⟩
  obtain ⟨prev, next, -, -, h⟩ := bind_ok₂ h
  cases h
  exact (Frame.modifyBlk t prev (f := fun b => { b with next := (t.blks blk).next }) fun _ => rfl).trans
    (.modifyBlk _ next fun _ => rfl)

/-- `moveToHead` changes neither the hash table nor what the blocks hold, whatever the
list looks like. -/
theorem Frame.moveToHead (h : t.moveToHead blk = .ok t') : Frame t t' := by
  obtain ⟨u, hloop, h⟩ := bind_ok h
  have hu : Frame t u := by
    refine foldlM_induction (I := fun _ u => Frame t u) ?_ (.refl t) hloop
    intro _ _ v w hv hpass
    exact hv.trans (.shiftBoundary hpass)
  have hv : Frame u (u.modifyBlk blk fun b => { b with inCache := u.cacheMask }) := .modifyBlk u blk fun _ => rfl
  dsimp only at h
  split at h
  · obtain ⟨w, hunlink, h⟩ := bind_ok h
    cases h
    exact hu.trans (hv.trans ((Frame.unlink hunlink).trans (.linkHead w blk)))
  · cases h
    exact hu.trans hv

theorem Frame.blkAlign (h : Frame t t') (addr : Addr) : t'.blkAlign addr = t.blkAlign addr := by
  rw [FALRU.blkAlign, h.blkSize, FALRU.blkAlign]

/-- What `findVictim` does with the hash table, besides moving the tail. -/
theorem findVictim_eq_ok (h : t.findVictim addr = .ok (blk, t')) :
    ∃ u, Frame t u ∧ blk = t.tail ∧ t' = u.rehash (t.blks t.tail).tag (t.blkAlign addr) t.tail := by
  obtain ⟨-, u, -, hmove, h⟩ := bind_ok₂ h
  cases h
  have hframe := Frame.moveToHead hmove
  refine ⟨u, hframe, rfl, ?_⟩
  rw [hframe.cacheBlk, hframe.blkAlign]

theorem Frame.accessBlock (h : t.accessBlock ticksToCycles addr curTick = .ok answer) : Frame t answer.2.2.2 := by
  unfold FALRU.accessBlock at h
  split at h
  · cases h
    exact .refl t
  split at h
  · obtain ⟨-, u, -, htouch, h⟩ := bind_ok₂ h
    cases h
    unfold touch at htouch
    split at htouch
    · exact .moveToHead htouch
    · cases htouch
      exact .refl t
  · cases h
    exact .refl t

end Frames

/-- The invariant of runs in which blocks are allocated only for the address whose tag
they have. As nothing sets a tag, this is address 0 for every block. -/
structure Found (t : FALRU) (log : List Entry) : Prop where
  tag : ∀ blk, (t.blks blk).tag = 0
  hash : ∀ addr, addr ≠ 0 → t.tagHash addr = none
  lookup : ∀ addr blk, resident log addr = some blk ↔ t.tagHash addr = some blk ∧ (t.blks blk).isValid = true

section Construct

theorem cacheBlk_pass {s s' : Setup} {numCaches i : Nat} (h : ∀ k, (s.blks k).toCacheBlk = .construct)
    (hpass : s.pass numCaches i = .ok s') (k : Nat) : (s'.blks k).toCacheBlk = .construct := by
  obtain ⟨u, hmark, hpass⟩ := bind_ok hpass
  cases hpass
  have hu : u.blks = (s.modifyBlk i fun blk => { blk with inCache := s.flags }).blks := by
    unfold Setup.mark at hmark
    split at hmark
    · split at hmark
      · cases hmark
        rfl
      · cases hmark
    · cases hmark
      rfl
  by_cases hk : k = i
  · rw [hk, Setup.blks_modifyBlk_self, hu, Setup.blks_modifyBlk_self]
    exact h i
  · rw [Setup.blks_modifyBlk_of_ne hk, hu, Setup.blks_modifyBlk_of_ne hk]
    exact h k

theorem cacheBlk_start (cacheMask : BitVec 32) (numBlocks index k : Nat) :
    ((Setup.start cacheMask numBlocks index).blks k).toCacheBlk = .construct := by
  rw [Setup.start]
  by_cases hlast : k = numBlocks - 1
  · rw [hlast, Setup.blks_modifyBlk_self]
    by_cases hzero : numBlocks - 1 = 0
    · rw [hzero, Setup.blks_modifyBlk_self]
    · rw [Setup.blks_modifyBlk_of_ne hzero]
  rw [Setup.blks_modifyBlk_of_ne hlast]
  by_cases hzero : k = 0
  · rw [hzero, Setup.blks_modifyBlk_self]
  · rw [Setup.blks_modifyBlk_of_ne hzero]

/-- A new tag store holds nothing. -/
theorem cacheBlk_construct {size blkSize : Unsigned} {lookupLatency accessLatency : Nat}
    (h : FALRU.construct size blkSize lookupLatency accessLatency = .ok t) :
    (∀ blk, (t.blks blk).toCacheBlk = .construct) ∧ ∀ addr, t.tagHash addr = none := by
  obtain ⟨-, -, -, -, -, -, h⟩ := bind_ok₃ h
  obtain ⟨-, s, -, -, hloop, -, h⟩ := bind_ok₃ h
  obtain ⟨-, -, h⟩ := bind_ok h
  cases h
  refine ⟨?_, fun _ => rfl⟩
  exact foldlM_induction (I := fun _ s => ∀ k, (s.blks k).toCacheBlk = .construct)
    (fun _ _ _ _ hs hpass => cacheBlk_pass hs hpass) (cacheBlk_start _ _ _) hloop

theorem Found.construct {size blkSize : Unsigned} {lookupLatency accessLatency : Nat}
    (h : FALRU.construct size blkSize lookupLatency accessLatency = .ok t) : t.Found [] := by
  obtain ⟨hcacheBlk, hhash⟩ := cacheBlk_construct h
  refine ⟨fun blk => ?_, fun addr _ => hhash addr, fun addr blk => ?_⟩
  · rw [hcacheBlk]
    rfl
  · rw [hhash]
    constructor
    · intro h
      cases h
    · rintro ⟨h, -⟩
      cases h

end Construct

section Steps

variable {log : List Entry}

theorem resident_of_allocates (h : entry.allocates = some (allocated, blk)) (addr : Addr) :
    resident (entry :: log) addr = if addr = allocated then some blk else (resident log addr).filter (· ≠ blk) := by
  rw [resident, h]

theorem resident_of_removes (h : entry.allocates = none) (addr : Addr) :
    resident (entry :: log) addr = (resident log addr).filter (entry.removes ≠ some ·) := by
  rw [resident, h]

variable (h : t.Found log)
include h

theorem Found.frame (hframe : Frame t t') : t'.Found log := by
  refine ⟨fun blk => ?_, fun addr haddr => ?_, fun addr blk => ?_⟩
  · rw [hframe.cacheBlk]
    exact h.tag blk
  · rw [hframe.tagHash]
    exact h.hash addr haddr
  · rw [hframe.tagHash, hframe.cacheBlk]
    exact h.lookup addr blk

/-- A lookup finds the resident block. -/
theorem Found.findBlock (addr : Addr) : t.findBlock addr = .ok (resident log (t.blkAlign addr)) := by
  unfold FALRU.findBlock hashLookup
  have hresident := h.lookup (t.blkAlign addr)
  cases hhash : t.tagHash (t.blkAlign addr) with
  | none =>
    have hnone : resident log (t.blkAlign addr) = none := by
      apply Option.eq_none_iff_forall_ne_some.mpr
      intro blk hblk
      rw [hresident, hhash] at hblk
      cases hblk.1
    rw [hnone]
  | some blk =>
    by_cases hvalid : (t.blks blk).isValid = true
    · have hzero : t.blkAlign addr = 0 := by
        by_contra hne
        rw [h.hash _ hne] at hhash
        cases hhash
      rw [(hresident blk).mpr ⟨hhash, hvalid⟩]
      refine (if_pos hvalid).trans ?_
      rw [h.tag, hzero, require_of_true (beq_self_eq_true _)]
      rfl
    · have hnone : resident log (t.blkAlign addr) = none := by
        apply Option.eq_none_iff_forall_ne_some.mpr
        intro b hb
        obtain ⟨hsome, hb⟩ := (hresident b).mp hb
        rw [hhash] at hsome
        cases hsome
        exact hvalid hb
      rw [hnone]
      exact if_neg hvalid

/-- An allocation for the address whose tag the tail has. -/
theorem Found.allocate (htag : (t.blks t.tail).tag = t.blkAlign addr)
    (hvictim : t.findVictim addr = .ok (blk, t')) {f : CacheBlk → CacheBlk} (hf : ∀ b, (f b).tag = b.tag)
    (hvalid : ∀ b, (f b).isValid = true) (hentry : entry.allocates = some (t.blkAlign addr, blk)) :
    (t'.modifyCacheBlk blk f).Found (entry :: log) := by
  obtain ⟨u, hframe, rfl, rfl⟩ := findVictim_eq_ok hvictim
  have hu := h.frame hframe
  rw [← htag, h.tag] at hentry ⊢
  refine ⟨fun b => ?_, fun a ha => ?_, fun a b => ?_⟩
  · refine (blks_modifyBlk_congr (fun b : FALRUBlk => b.tag) ?_ b).trans (hu.tag b)
    exact fun b => hf b.toCacheBlk
  · refine (if_neg ha).trans ((if_neg ha).trans ?_)
    exact hu.hash a ha
  · rw [resident_of_allocates hentry]
    by_cases ha : a = 0
    · have hhash : ((u.rehash 0 0 t.tail).modifyCacheBlk t.tail f).tagHash a = some t.tail := if_pos ha
      rw [if_pos ha, hhash]
      refine ⟨fun hb => ⟨hb, ?_⟩, And.left⟩
      cases hb
      rw [modifyCacheBlk, blks_modifyBlk_self]
      exact hvalid _
    · have hhash : ((u.rehash 0 0 t.tail).modifyCacheBlk t.tail f).tagHash a = none :=
        (if_neg ha).trans ((if_neg ha).trans (hu.hash a ha))
      rw [if_neg ha, hhash, Option.filter_eq_some_iff, h.lookup, h.hash a ha]
      constructor
      · rintro ⟨⟨hb, -⟩, -⟩
        cases hb
      · rintro ⟨hb, -⟩
        cases hb

theorem Found.invalidate (blk : Nat) (hallocates : entry.allocates = none)
    (hremoves : entry.removes = some blk) : (t.modifyCacheBlk blk CacheBlk.invalidate).Found (entry :: log) := by
  refine ⟨fun b => ?_, h.hash, fun a b => ?_⟩
  · refine (blks_modifyBlk_congr (fun b : FALRUBlk => b.tag) ?_ b).trans (h.tag b)
    exact fun _ => rfl
  · rw [resident_of_removes hallocates, Option.filter_eq_some_iff, h.lookup, hremoves, decide_eq_true_iff, and_assoc]
    refine and_congr_right fun _ => ?_
    by_cases hb : b = blk
    · rw [hb, modifyCacheBlk, blks_modifyBlk_self]
      refine ⟨fun hne => absurd rfl hne.2, fun hinvalid => ?_⟩
      rw [CacheBlk.isValid_invalidate] at hinvalid
      cases hinvalid
    · rw [modifyCacheBlk, blks_modifyBlk_of_ne hb]
      exact and_iff_left fun heq => hb (Option.some.inj heq).symm

theorem Found.cons_of_none (hallocates : entry.allocates = none) (hremoves : entry.removes = none) :
    t.Found (entry :: log) := by
  refine ⟨h.tag, h.hash, fun a b => ?_⟩
  rw [resident_of_removes hallocates, hremoves, Option.filter_eq_some_iff, ← h.lookup]
  exact and_iff_left (decide_eq_true (Option.some_ne_none b ∘ Eq.symm))

theorem Found.step (hfills : call.Fills) (htag : t.ForStoredTag call)
    (hstep : (machine ticksToCycles).step t call = .ok (answer, t')) : t'.Found ((t, call, answer) :: log) := by
  cases call with
  | accessBlock addr curTick =>
    obtain ⟨result, hok, heq⟩ := map_ok hstep
    cases heq
    exact (h.frame (.accessBlock hok)).cons_of_none rfl rfl
  | findVictim addr => exact absurd hfills id
  | fill addr is_secure status =>
    obtain ⟨⟨blk, u⟩, hok, heq⟩ := map_ok hstep
    cases heq
    obtain ⟨⟨victim, v⟩, hvictim, hok⟩ := bind_ok hok
    obtain ⟨-, -, hok⟩ := bind_ok hok
    cases hok
    exact h.allocate htag hvictim (f := fun b => b.markValid is_secure status) (fun _ => rfl)
      (fun b => b.isValid_markValid is_secure status) rfl
  | writeback addr is_secure status =>
    obtain ⟨⟨blk, u⟩, hok, heq⟩ := map_ok hstep
    cases heq
    obtain ⟨⟨victim, v⟩, hvictim, hok⟩ := bind_ok hok
    cases hok
    refine h.allocate htag hvictim (f := fun b => { b with status := 0 }.markValid is_secure status) (fun _ => rfl)
      (fun _ => CacheBlk.isValid_markValid _ is_secure status) ?_
    rfl
  | invalidateBlock blk =>
    obtain ⟨u, hok, heq⟩ := map_ok hstep
    cases heq
    unfold FALRU.invalidateBlock at hok
    split at hok
    · cases hok
      exact h.invalidate blk rfl rfl
    · cases hok

end Steps

/-- As long as blocks are allocated only for the address whose tag they already have,
`findBlock` returns the block that is resident for an address. -/
theorem run_findBlock {size blkSize : Unsigned} {lookupLatency accessLatency : Nat} {start : FALRU}
    (hstart : construct size blkSize lookupLatency accessLatency = .ok start) {calls : List Call}
    (hcalls : (machine ticksToCycles).logged.StepsAll
      (fun s call => call.Fills ∧ s.1.ForStoredTag call) (start, []) calls)
    {answers : List (Option Nat)} {log : List Entry}
    (hrun : (machine ticksToCycles).logged.run (start, []) calls = .ok (answers, t, log)) (addr : Addr) :
    t.findBlock addr = .ok (resident log (t.blkAlign addr)) := by
  have hfound : t.Found log := by
    refine Machine.run_invariant (I := fun s => s.1.Found s.2) ?_ (Found.construct hstart) hcalls hrun
    rintro ⟨s, log⟩ call answer after h ⟨hfills, htag⟩ hstep
    obtain ⟨s', hcall, rfl⟩ := Machine.logged_step_eq_ok_iff.mp hstep
    exact h.step hfills htag hcall
  exact hfound.findBlock addr

/-- In a cache of two blocks, address 0 is filled and then accessed. -/
theorem run_findBlock_zero : ∃ start answers t log, construct 0x20000 0x10000 1 2 = .ok start ∧
      (machine id).logged.run (start, []) [.fill 0 false 0, .accessBlock 0x40 5] = .ok (answers, t, log) ∧
      resident log (t.blkAlign 0x40) = some 1 ∧ t.findBlock 0x40 = .ok (resident log (t.blkAlign 0x40)) := by
  refine ⟨?start, ?answers, ?t, ?log, ?construct, ?run, ?resident, run_findBlock ?construct ?fills ?run 0x40⟩
  case construct | run | resident => rfl
  exact ⟨⟨trivial, rfl⟩, fun _ _ _ => ⟨⟨trivial, trivial⟩, fun _ _ _ => trivial⟩⟩

/-- In a cache of 256 KB with blocks of 64 bytes, the first fill of address 0x40 leaves
the block with tag 0, and looking the address up fails the assertion. -/
theorem findBlock_of_fill_fails : ∃ start, construct 0x40000 0x40 1 2 = .ok start ∧ start.findBlock 0x40 = .ok none ∧
      ∃ answers t log, (machine id).logged.run (start, []) [.fill 0x40 false 0] = .ok (answers, t, log) ∧
        resident log (t.blkAlign 0x40) = some start.tail ∧ t.findBlock 0x40 = .error .assertion := by
  obtain ⟨start, hstart, hsized, hshape, hblkSize, hhash⟩ :=
    construct_spec (by decide : 17 ≤ 18) (by decide) (by decide : 6 ≤ 16)
    (by decide : (0x40000 : Unsigned).toNat = 2 ^ 18)
      (by decide : (0x40 : Unsigned).toNat = 2 ^ 6) 1 2
  obtain ⟨hcacheBlk, -⟩ := cacheBlk_construct hstart
  have hwell : start.WellShaped := ⟨hsized, ⟨_, hshape⟩, fun addr blk h => by rw [hhash] at h; cases h⟩
  have halign : start.blkAlign 0x40 = 0x40 := by
    rw [blkAlign, hblkSize]
    decide
  obtain ⟨u, hvictim, -⟩ := hwell.findVictim 0x40
  obtain ⟨v, hframe, -, rfl⟩ := findVictim_eq_ok hvictim
  let u := v.rehash (start.blks start.tail).tag (start.blkAlign 0x40) start.tail
  let w := u.modifyCacheBlk start.tail fun b => b.markValid false 0
  have hblk : (u.blks start.tail).toCacheBlk = .construct := (hframe.cacheBlk start.tail).trans (hcacheBlk start.tail)
  have hfill : start.fill 0x40 false 0 = .ok (start.tail, w) := by
    rw [fill, hvictim]
    refine bind_of_ok (require_of_true ?_) _
    exact congrArg (fun b => !CacheBlk.isValid b) hblk
  have hw : (w.blks start.tail).toCacheBlk = CacheBlk.construct.markValid false 0 := by
    rw [← hblk]
    exact congrArg FALRUBlk.toCacheBlk (blks_modifyBlk_self u start.tail _)
  have hwalign : w.blkAlign 0x40 = 0x40 := (hframe.blkAlign 0x40).trans halign
  refine ⟨start, hstart, ?_, [some start.tail], w, [(start, .fill 0x40 false 0, some start.tail)], ?_, ?_, ?_⟩
  · rw [findBlock, hashLookup, hhash]
  · refine Machine.run_cons_eq_ok_iff.mpr ⟨_, _, [], Machine.logged_step_eq_ok_iff.mpr ⟨w, ?_, rfl⟩, rfl, rfl⟩
    exact congrArg (Except.map fun answer => (some answer.1, answer.2)) hfill
  · have hentry : Entry.allocates (start, .fill 0x40 false 0, some start.tail) = some (0x40, start.tail) :=
      congrArg (fun a => some (a, start.tail)) halign
    rw [resident_of_allocates hentry, if_pos hwalign]
  · have hhashed : w.hashLookup 0x40 = some start.tail := if_pos halign.symm
    simp only [findBlock, hhashed, hw, hwalign]
    rfl

end Gem5.FALRU
