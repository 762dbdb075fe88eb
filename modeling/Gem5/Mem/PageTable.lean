import Gem5.Base.IntMath
import Gem5.Lib.Run

open Lib List Result

namespace Gem5

/-- What the page table uses of the `TlbEntry` of the instruction set. -/
structure TlbEntry (E : Type) where
  /-- `TlbEntry()`. -/
  default : E
  /-- `TlbEntry(asn, vaddr, paddr, uncacheable, read_only)`. -/
  construct : Addr → Addr → Addr → Bool → Bool → E
  updateVaddr : E → Addr → E

/-- The entries of RISC-V, which hold nothing but `_pageStart`. -/
def TlbEntry.riscv : TlbEntry Addr where
  default := 0
  construct _ _ paddr _ _ := paddr
  updateVaddr entry _ := entry

/-- `cacheElement`. -/
structure CacheElement (E : Type) where
  valid : Bool
  vaddr : Addr
  entry : E
  deriving DecidableEq, Repr

/-- The array `pTableCache[3]`. -/
structure PTableCache (E : Type) where
  first : CacheElement E
  second : CacheElement E
  third : CacheElement E
  deriving DecidableEq, Repr

/-- `FuncPageTable`, with the fields of `PageTableBase`. -/
structure FuncPageTable (E : Type) where
  pTableCache : PTableCache E
  pageSize : Addr
  offsetMask : Addr
  pid : BitVec 64
  pTable : Addr → Option E

/-- `Clobber`, `Uncacheable` and `ReadOnly` of `MappingFlags`. -/
def MappingFlags.Clobber : BitVec 64 := 1
def MappingFlags.Uncacheable : BitVec 64 := 4
def MappingFlags.ReadOnly : BitVec 64 := 8

variable {E : Type}

namespace CacheElement

/-- The element holds an entry for the page. -/
def holds (element : CacheElement E) (vaddr : Addr) : Bool := element.valid && element.vaddr == vaddr

def invalidate (element : CacheElement E) : CacheElement E := { element with valid := false }

theorem holds_iff {element : CacheElement E} {vaddr : Addr} :
    element.holds vaddr = true ↔ element.valid = true ∧ element.vaddr = vaddr := by
  simp [holds]

@[simp] theorem holds_invalidate (element : CacheElement E) (vaddr : Addr) :
    element.invalidate.holds vaddr = false := rfl

end CacheElement

namespace PTableCache

variable (cache : PTableCache E)

/-- `updateCache`. -/
def update (vaddr : Addr) (entry : E) : PTableCache E :=
  ⟨⟨true, vaddr, entry⟩, cache.first, cache.second⟩

/-- `eraseCacheEntry`. -/
def erase (vaddr : Addr) : PTableCache E :=
  if cache.first.holds vaddr then { cache with first := cache.first.invalidate }
  else if cache.second.holds vaddr then { cache with second := cache.second.invalidate }
  else if cache.third.holds vaddr then { cache with third := cache.third.invalidate }
  else cache

/-- The entry that `lookup` takes from the cache, if there is one. -/
def find (page_addr : Addr) : Option E :=
  if cache.first.holds page_addr then some cache.first.entry
  else if cache.second.holds page_addr then some cache.second.entry
  else if cache.third.holds page_addr then some cache.third.entry
  else none

def elements : List (CacheElement E) := [cache.first, cache.second, cache.third]

/-- Some element holds an entry for the page. -/
def Holds (vaddr : Addr) : Prop := ∃ element ∈ cache.elements, element.holds vaddr = true

variable {cache}

instance (cache : PTableCache E) (vaddr : Addr) : Decidable (cache.Holds vaddr) :=
  inferInstanceAs (Decidable (∃ element ∈ cache.elements, element.holds vaddr = true))

/-- Every entry held is the one of the table, and no page is held twice. -/
structure Coherent (cache : PTableCache E) (pTable : Addr → Option E) : Prop where
  entry : ∀ element ∈ cache.elements, ∀ vaddr, element.holds vaddr = true → pTable vaddr = some element.entry
  distinct : cache.elements.Pairwise fun e f => ∀ vaddr, e.holds vaddr = true → f.holds vaddr = false

variable {pTable pTable' : Addr → Option E} {vaddr : Addr}

theorem Coherent.find (h : cache.Coherent pTable) {entry : E} (hfind : cache.find vaddr = some entry) :
    pTable vaddr = some entry := by
  unfold PTableCache.find at hfind
  split at hfind
  · cases hfind
    exact h.entry cache.first (by simp [elements]) vaddr ‹_›
  split at hfind
  · cases hfind
    exact h.entry cache.second (by simp [elements]) vaddr ‹_›
  split at hfind
  · cases hfind
    exact h.entry cache.third (by simp [elements]) vaddr ‹_›
  · cases hfind

theorem not_holds_of_find (h : cache.find vaddr = none) : ¬ cache.Holds vaddr := by
  unfold find at h
  split at h
  · cases h
  split at h
  · cases h
  · split at h
    · cases h
    · simp_all [Holds, elements]

/-- The table may change at a page that is not held. -/
theorem Coherent.frame (h : cache.Coherent pTable) (hfresh : ¬ cache.Holds vaddr)
    (hsame : ∀ other, other ≠ vaddr → pTable' other = pTable other) : cache.Coherent pTable' := by
  refine ⟨fun element hmem other hholds => ?_, h.distinct⟩
  have hne : other ≠ vaddr := by
    rintro rfl
    exact hfresh ⟨element, hmem, hholds⟩
  rw [hsame other hne]
  exact h.entry element hmem other hholds

/-- An entry for a page that is not held may be added, if it is the one of the
table. -/
theorem Coherent.update (h : cache.Coherent pTable) (hfresh : ¬ cache.Holds vaddr) {entry : E}
    (hentry : pTable vaddr = some entry) : (cache.update vaddr entry).Coherent pTable := by
  obtain ⟨hentries, hdistinct⟩ := h
  have hpair : ∀ element ∈ cache.elements, element.holds vaddr = false := by
    intro element hmem
    exact Bool.eq_false_iff.mpr fun hholds => hfresh ⟨element, hmem, hholds⟩
  constructor
  · intro element hmem other hholds
    simp only [elements, PTableCache.update, mem_cons, not_mem_nil, or_false] at hmem
    obtain rfl | rfl | rfl := hmem
    · obtain ⟨-, rfl⟩ := CacheElement.holds_iff.mp hholds
      exact hentry
    · exact hentries _ (by simp [elements]) other hholds
    · exact hentries _ (by simp [elements]) other hholds
  · simp only [elements, PTableCache.update, pairwise_cons, mem_cons, not_mem_nil, or_false] at hdistinct hpair ⊢
    refine ⟨?_, ?_⟩
    · rintro element (rfl | rfl) other hholds
      · obtain ⟨-, rfl⟩ := CacheElement.holds_iff.mp hholds
        exact hpair _ (.inl rfl)
      · obtain ⟨-, rfl⟩ := CacheElement.holds_iff.mp hholds
        exact hpair _ (.inr (.inl rfl))
    · refine ⟨?_, by simp⟩
      rintro _ rfl
      exact hdistinct.1 _ (.inl rfl)

/-- What is still held after an entry is erased was held before. -/
theorem mem_of_erase (hmem : element ∈ (cache.erase vaddr).elements) (hholds : element.holds other = true) :
    element ∈ cache.elements := by
  unfold erase at hmem
  split at hmem
  · simp only [elements, mem_cons, not_mem_nil, or_false] at hmem ⊢
    obtain rfl | hmem := hmem
    · simp at hholds
    · exact .inr hmem
  split at hmem
  · simp only [elements, mem_cons, not_mem_nil, or_false] at hmem ⊢
    obtain hmem | rfl | hmem := hmem
    · exact .inl hmem
    · simp at hholds
    · exact .inr (.inr hmem)
  · split at hmem
    · simp only [elements, mem_cons, not_mem_nil, or_false] at hmem ⊢
      obtain hmem | hmem | rfl := hmem
      · exact .inl hmem
      · exact .inr (.inl hmem)
      · simp at hholds
    · exact hmem

/-- Erasing clears one element only, which is enough when no page is held
twice. -/
theorem Coherent.not_holds_erase (h : cache.Coherent pTable) : ¬ (cache.erase vaddr).Holds vaddr := by
  have hdistinct := h.distinct
  simp only [elements, pairwise_cons, mem_cons, not_mem_nil, or_false] at hdistinct
  obtain ⟨hfirst, hsecond, -⟩ := hdistinct
  rintro ⟨element, hmem, hholds⟩
  unfold PTableCache.erase at hmem
  split at hmem
  · rename_i hheld
    simp only [elements, mem_cons, not_mem_nil, or_false] at hmem
    obtain rfl | hmem := hmem
    · simp at hholds
    · rw [hfirst element hmem vaddr hheld] at hholds
      cases hholds
  · split at hmem
    · rename_i hnot hheld
      simp only [elements, mem_cons, not_mem_nil, or_false] at hmem
      obtain rfl | rfl | rfl := hmem
      · exact hnot hholds
      · simp at hholds
      · rw [hsecond _ rfl vaddr hheld] at hholds
        cases hholds
    · split at hmem
      · simp only [elements, mem_cons, not_mem_nil, or_false] at hmem
        obtain rfl | rfl | rfl := hmem <;> simp_all
      · simp only [elements, mem_cons, not_mem_nil, or_false] at hmem
        obtain rfl | rfl | rfl := hmem <;> contradiction

/-- An entry may be erased whatever becomes of the page in the table. -/
theorem Coherent.erase (h : cache.Coherent pTable) (hsame : ∀ other, other ≠ vaddr → pTable' other = pTable other) :
    (cache.erase vaddr).Coherent pTable' := by
  constructor
  · intro element hmem other hholds
    have hne : other ≠ vaddr := by
      rintro rfl
      exact h.not_holds_erase ⟨element, hmem, hholds⟩
    rw [hsame other hne]
    exact h.entry element (mem_of_erase hmem hholds) other hholds
  · have hdistinct := h.distinct
    simp only [elements, pairwise_cons, mem_cons, not_mem_nil, or_false] at hdistinct
    unfold PTableCache.erase
    split
    · simp_all [elements]
    · split
      · simp_all [elements]
      · split <;> simp_all [elements]

theorem holds_of_update (h : (cache.update vaddr entry).Holds other) : other = vaddr ∨ cache.Holds other := by
  obtain ⟨element, hmem, hholds⟩ := h
  simp only [elements, update, mem_cons, not_mem_nil, or_false] at hmem
  obtain rfl | rfl | rfl := hmem
  · exact .inl (CacheElement.holds_iff.mp hholds).2.symm
  · exact .inr ⟨_, by simp [elements], hholds⟩
  · exact .inr ⟨_, by simp [elements], hholds⟩

end PTableCache

namespace FuncPageTable

/-- A page table without mappings. The constructor marks the elements of the
cache invalid and leaves what they hold uninitialised. -/
def construct (pid : BitVec 64) (pageSize : Addr) (uninit : CacheElement E) : Result (FuncPageTable E) := do
  require (isPowerOf2Long pageSize)
  .ok
    { pTableCache := ⟨uninit.invalidate, uninit.invalidate, uninit.invalidate⟩
      pageSize := pageSize
      offsetMask := mask (floorLog2Long pageSize)
      pid := pid
      pTable := fun _ => none }

variable (t : FuncPageTable E)

def pageAlign (a : Addr) : Addr := a &&& ~~~t.offsetMask

def pageOffset (a : Addr) : Addr := a &&& t.offsetMask

/-- `pTable[vaddr] = entry`, or `pTable.erase(vaddr)`. -/
def setPTable (vaddr : Addr) (entry : Option E) : FuncPageTable E :=
  { t with pTable := fun other => if other = vaddr then entry else t.pTable other }

def eraseCacheEntry (vaddr : Addr) : FuncPageTable E :=
  { t with pTableCache := t.pTableCache.erase vaddr }

def updateCache (vaddr : Addr) (entry : E) : FuncPageTable E :=
  { t with pTableCache := t.pTableCache.update vaddr entry }

/-- The distances from the start of a region of `size` bytes, an `int64_t`, at
which the loops `for (; size > 0; size -= pageSize, ...)` stop. -/
def offsets (pageSize : Addr) (size : BitVec 64) : List Addr :=
  (range ((size.toInt.toNat + pageSize.toNat - 1) / pageSize.toNat)).map fun i => BitVec.ofNat 64 i * pageSize

section Operations

variable (isa : TlbEntry E) (t : FuncPageTable E)

/-- One pass of the loop of `map`. -/
def mapPage (vaddr paddr : Addr) (flags : BitVec 64) : Result (FuncPageTable E) :=
  if flags &&& MappingFlags.Clobber = 0 && (t.pTable vaddr).isSome then .error .assertion
  else
    let entry := isa.construct t.pid vaddr paddr (flags &&& MappingFlags.Uncacheable != 0)
      (flags &&& MappingFlags.ReadOnly != 0)
    .ok (((t.setPTable vaddr (some entry)).eraseCacheEntry vaddr).updateCache vaddr entry)

def map (vaddr paddr : Addr) (size flags : BitVec 64) : Result (FuncPageTable E) := do
  require (t.pageOffset vaddr = 0)
  (offsets t.pageSize size).foldlM (fun t d => mapPage isa t (vaddr + d) (paddr + d) flags) t

/-- One pass of the loop of `remap`. `pTable[new_vaddr]` creates an entry when the
page is moved onto itself, since it has just been erased. -/
def remapPage (vaddr new_vaddr : Addr) : Result (FuncPageTable E) :=
  match t.pTable vaddr with
  | none => .error .assertion
  | some entry =>
    let t := ((t.setPTable new_vaddr (some entry)).setPTable vaddr none).eraseCacheEntry vaddr
    let moved := isa.updateVaddr ((t.pTable new_vaddr).getD isa.default) new_vaddr
    .ok ((t.setPTable new_vaddr (some moved)).updateCache new_vaddr moved)

def remap (vaddr : Addr) (size : BitVec 64) (new_vaddr : Addr) : Result (FuncPageTable E) := do
  require (t.pageOffset vaddr = 0)
  require (t.pageOffset new_vaddr = 0)
  (offsets t.pageSize size).foldlM (fun t d => remapPage isa t (vaddr + d) (new_vaddr + d)) t

/-- One pass of the loop of `unmap`. -/
def unmapPage (vaddr : Addr) : Result (FuncPageTable E) :=
  if (t.pTable vaddr).isSome then .ok ((t.setPTable vaddr none).eraseCacheEntry vaddr) else .error .assertion

def unmap (vaddr : Addr) (size : BitVec 64) : Result (FuncPageTable E) := do
  require (t.pageOffset vaddr = 0)
  (offsets t.pageSize size).foldlM (fun t d => t.unmapPage (vaddr + d)) t

/-- `lookup`. The entry found, if any, is the value of the output argument. -/
def lookup (vaddr : Addr) : Option E × FuncPageTable E :=
  let page_addr := t.pageAlign vaddr
  match t.pTableCache.find page_addr with
  | some entry => (some entry, t)
  | none =>
    match t.pTable page_addr with
    | none => (none, t)
    | some entry => (some entry, t.updateCache page_addr entry)

variable {t}

/-- The calls on a page table. -/
inductive Call where
  | map (vaddr paddr : Addr) (size flags : BitVec 64)
  | remap (vaddr : Addr) (size : BitVec 64) (new_vaddr : Addr)
  | unmap (vaddr : Addr) (size : BitVec 64)
  | lookup (vaddr : Addr)
  deriving DecidableEq, Repr

/-- A page table that serves calls, with the entry that a `lookup` found as its
answer. -/
def machine : Machine (FuncPageTable E) Call (Option E) where
  step t
    | .map vaddr paddr size flags => (map isa t vaddr paddr size flags).map (none, ·)
    | .remap vaddr size new_vaddr => (remap isa t vaddr size new_vaddr).map (none, ·)
    | .unmap vaddr size => (t.unmap vaddr size).map (none, ·)
    | .lookup vaddr => .ok (t.lookup vaddr)

end Operations

/-- The cache agrees with the table. -/
def Coherent (t : FuncPageTable E) : Prop := t.pTableCache.Coherent t.pTable

/-- The call does not move pages onto other pages for which the cache holds an
entry. -/
def MovesToUncached : Call → Prop
  | .remap vaddr size new_vaddr =>
    vaddr = new_vaddr ∨ ∀ d ∈ offsets t.pageSize size, ¬ t.pTableCache.Holds (new_vaddr + d)
  | _ => True

variable {isa : TlbEntry E} {t t' : FuncPageTable E} {vaddr new_vaddr : Addr}

theorem pTable_setPTable_of_ne (h : other ≠ vaddr) : (t.setPTable vaddr entry).pTable other = t.pTable other := if_neg h

theorem pTable_setPTable_self (t : FuncPageTable E) (vaddr : Addr) (entry : Option E) :
    (t.setPTable vaddr entry).pTable vaddr = entry := if_pos rfl

theorem Coherent.construct {pid : BitVec 64} {pageSize : Addr} {uninit : CacheElement E}
    (h : FuncPageTable.construct pid pageSize uninit = .ok t) : t.Coherent := by
  obtain ⟨-, -, hdone⟩ := bind_ok h
  cases hdone
  constructor
  · intro element hmem other hholds
    simp only [PTableCache.elements, mem_cons, not_mem_nil, or_false, or_self] at hmem
    subst hmem
    cases hholds
  · simp [PTableCache.elements]

/-- The loops visit a page once: the region is smaller than the address space. -/
theorem offsets_nodup (pageSize : Addr) (size : BitVec 64) : (offsets pageSize size).Nodup := by
  refine List.Nodup.map_on ?_ nodup_range
  intro i hi j hj heq
  rw [mem_range] at hi hj
  have hpos : 0 < pageSize.toNat := by
    by_contra hzero
    rw [Nat.eq_zero_of_not_pos hzero, Nat.div_zero] at hi
    omega
  have hsize : size.toInt.toNat < 2 ^ 63 := by
    have := size.toInt_lt
    omega
  have hexact : ∀ k, k < (size.toInt.toNat + pageSize.toNat - 1) / pageSize.toNat →
      (BitVec.ofNat 64 k * pageSize).toNat = k * pageSize.toNat := by
    intro k hk
    have hprod : (k + 1) * pageSize.toNat ≤ size.toInt.toNat + pageSize.toNat - 1 :=
      (Nat.mul_le_mul_right _ hk).trans (Nat.div_mul_le_self _ _)
    rw [Nat.add_mul, Nat.one_mul] at hprod
    have hle : k ≤ k * pageSize.toNat := Nat.le_mul_of_pos_right k hpos
    rw [BitVec.toNat_mul, BitVec.toNat_ofNat, Nat.mod_eq_of_lt (by omega : k < 2 ^ 64), Nat.mod_eq_of_lt (by omega)]
  have hnat := congrArg BitVec.toNat heq
  rw [hexact i hi, hexact j hj] at hnat
  exact Nat.eq_of_mul_eq_mul_right hpos hnat

/-- Changing a page in the table and erasing its entry goes together. -/
theorem Coherent.eraseCacheEntry (h : t.Coherent) (vaddr : Addr) (entry : Option E) :
    ((t.setPTable vaddr entry).eraseCacheEntry vaddr).Coherent :=
  PTableCache.Coherent.erase h fun _ hne => pTable_setPTable_of_ne hne

theorem Coherent.mapPage {paddr : Addr} {flags : BitVec 64} (h : t.Coherent)
    (hmap : mapPage isa t vaddr paddr flags = .ok t') : t'.Coherent := by
  unfold FuncPageTable.mapPage at hmap
  split at hmap
  · cases hmap
  · cases hmap
    exact PTableCache.Coherent.update (h.eraseCacheEntry vaddr _) h.not_holds_erase (pTable_setPTable_self t vaddr _)

section

variable (h : t.Coherent)
include h

theorem Coherent.unmapPage (hunmap : t.unmapPage vaddr = .ok t') : t'.Coherent := by
  unfold FuncPageTable.unmapPage at hunmap
  split at hunmap
  · cases hunmap
    exact h.eraseCacheEntry vaddr none
  · cases hunmap

/-- Moving a page keeps the cache coherent if no entry is left for the page it
is moved onto. -/
theorem Coherent.remapPage (hfresh : vaddr = new_vaddr ∨ ¬ t.pTableCache.Holds new_vaddr)
    (hremap : remapPage isa t vaddr new_vaddr = .ok t') :
    t'.Coherent ∧ ∀ other, t'.pTableCache.Holds other → other = new_vaddr ∨ t.pTableCache.Holds other := by
  unfold FuncPageTable.remapPage at hremap
  split at hremap
  · cases hremap
  rename_i entry hentry
  cases hremap
  have herase : (t.pTableCache.erase vaddr).Coherent (t.setPTable vaddr none).pTable := h.eraseCacheEntry vaddr none
  have hgone : ¬ (t.pTableCache.erase vaddr).Holds new_vaddr := by
    rcases hfresh with rfl | hfresh
    · exact h.not_holds_erase
    · rintro ⟨element, hmem, hholds⟩
      exact hfresh ⟨element, PTableCache.mem_of_erase hmem hholds, hholds⟩
  constructor
  · refine (herase.frame hgone ?_).update hgone (pTable_setPTable_self _ new_vaddr _)
    intro other hne
    refine (pTable_setPTable_of_ne hne).trans ?_
    by_cases hother : other = vaddr
    · rw [hother, pTable_setPTable_self]
      exact pTable_setPTable_self _ vaddr none
    · rw [pTable_setPTable_of_ne hother]
      exact (pTable_setPTable_of_ne hother).trans (pTable_setPTable_of_ne hne)
  · intro other hholds
    rcases PTableCache.holds_of_update hholds with rfl | ⟨element, hmem, hheld⟩
    · exact .inl rfl
    · exact .inr ⟨element, PTableCache.mem_of_erase hmem hheld, hheld⟩

theorem Coherent.remap
    (hmoves : vaddr = new_vaddr ∨ ∀ d ∈ offsets t.pageSize size, ¬ t.pTableCache.Holds (new_vaddr + d))
    (hremap : remap isa t vaddr size new_vaddr = .ok t') : t'.Coherent := by
  obtain ⟨-, -, -, -, hloop⟩ := bind_ok₂ hremap
  -- the destinations still to come are not held: the entries added belong to earlier ones
  have hkept := foldlM_induction
    (I := fun later (t : FuncPageTable E) => t.Coherent ∧ later.Nodup ∧
      (vaddr = new_vaddr ∨ ∀ d ∈ later, ¬ t.pTableCache.Holds (new_vaddr + d)))
    (fun d later t t' hI hpage => ?_) ⟨h, offsets_nodup t.pageSize size, hmoves⟩ hloop
  · exact hkept.1
  · obtain ⟨hcoherent, hnodup, hfresh⟩ := hI
    obtain ⟨hd, hlater⟩ := nodup_cons.mp hnodup
    have hpageFresh : vaddr + d = new_vaddr + d ∨ ¬ t.pTableCache.Holds (new_vaddr + d) := by
      rcases hfresh with rfl | hfresh
      · exact .inl rfl
      · exact .inr (hfresh d mem_cons_self)
    obtain ⟨hcoherent', hholds⟩ := hcoherent.remapPage hpageFresh hpage
    refine ⟨hcoherent', hlater, hfresh.imp_right fun hfresh e he hheld => ?_⟩
    rcases hholds _ hheld with heq | hheld
    · rw [BitVec.add_right_inj] at heq
      exact hd (heq ▸ he)
    · exact hfresh e (mem_cons_of_mem d he) hheld

/-- While the cache is coherent, a lookup returns what the table holds. -/
theorem Coherent.lookup (vaddr : Addr) :
    (t.lookup vaddr).1 = t.pTable (t.pageAlign vaddr) ∧ (t.lookup vaddr).2.Coherent := by
  cases hfind : t.pTableCache.find (t.pageAlign vaddr) with
  | some entry =>
    simp only [FuncPageTable.lookup, hfind]
    exact ⟨(PTableCache.Coherent.find h hfind).symm, h⟩
  | none =>
    cases hentry : t.pTable (t.pageAlign vaddr) with
    | none =>
      simp only [FuncPageTable.lookup, hfind, hentry]
      exact ⟨trivial, h⟩
    | some entry =>
      simp only [FuncPageTable.lookup, hfind, hentry]
      exact ⟨trivial, PTableCache.Coherent.update h (PTableCache.not_holds_of_find hfind) hentry⟩

theorem Coherent.step (hmoves : t.MovesToUncached call)
    (hstep : (machine isa).step t call = .ok (answer, t')) : t'.Coherent := by
  cases call with
  | map vaddr paddr size flags =>
    obtain ⟨after, hmap, heq⟩ := map_ok hstep
    cases heq
    obtain ⟨-, -, hloop⟩ := bind_ok hmap
    exact foldlM_induction (I := fun _ t => t.Coherent) (fun d later t t' hI hpage => hI.mapPage hpage) h hloop
  | remap vaddr size new_vaddr =>
    obtain ⟨after, hremap, heq⟩ := map_ok hstep
    cases heq
    exact h.remap hmoves hremap
  | unmap vaddr size =>
    obtain ⟨after, hunmap, heq⟩ := map_ok hstep
    cases heq
    obtain ⟨-, -, hloop⟩ := bind_ok hunmap
    exact foldlM_induction (I := fun _ t => t.Coherent) (fun d later t t' hI hpage => hI.unmapPage hpage) h hloop
  | lookup vaddr =>
    have hafter := (h.lookup vaddr).2
    rwa [Except.ok.inj hstep] at hafter

end

/-- The cache of translations is not observable in runs that never move pages
onto other pages it holds. -/
theorem run_lookup {pid : BitVec 64} {pageSize : Addr} {uninit : CacheElement E} {start : FuncPageTable E}
    (hstart : construct pid pageSize uninit = .ok start) {calls : List Call} {answers : List (Option E)}
    (hmoves : (machine isa).StepsAll MovesToUncached start calls)
    (hrun : (machine isa).run start calls = .ok (answers, t)) (vaddr : Addr) :
    (t.lookup vaddr).1 = t.pTable (t.pageAlign vaddr) := by
  have hcoherent : t.Coherent := Machine.run_invariant (I := Coherent)
    (fun s c o s' hI hguard hstep => hI.step hguard hstep) (.construct hstart) hmoves hrun
  exact (hcoherent.lookup vaddr).1

/-- A page table of 4 KB pages, before the first call. -/
def example4K : FuncPageTable Addr :=
  { pTableCache := ⟨⟨false, 0, 0⟩, ⟨false, 0, 0⟩, ⟨false, 0, 0⟩⟩
    pageSize := 0x1000
    offsetMask := 0xfff
    pid := 1
    pTable := fun _ => none }

theorem construct_example4K : construct 1 0x1000 ⟨false, 0, 0⟩ = .ok example4K := rfl

/-- Two pages are mapped, the first is moved to a free address and looked up. -/
theorem run_lookup_moved :
    ∃ answers t, (machine .riscv).run example4K [.map 0x10000 0x5000 0x2000 0, .remap 0x10000 0x1000 0x20000] =
        .ok (answers, t) ∧
      (t.lookup 0x20008).1 = t.pTable (t.pageAlign 0x20008) ∧ (t.lookup 0x20008).1 = some 0x5000 := by
  refine ⟨?answers, ?t, ?run, run_lookup construct_example4K ?calls ?run 0x20008, ?found⟩
  case run | found => rfl
  obtain ⟨mapped, hmap, hcache, hsize⟩ : ∃ t, (machine .riscv).step example4K (.map 0x10000 0x5000 0x2000 0) =
      .ok (none, t) ∧ t.pTableCache = ⟨⟨true, 0x11000, 0x6000⟩, ⟨true, 0x10000, 0x5000⟩, ⟨false, 0, 0⟩⟩ ∧
      t.pageSize = 0x1000 := ⟨_, rfl, rfl, rfl⟩
  refine ⟨trivial, fun answer s hstep => ?_⟩
  rw [hmap] at hstep
  cases hstep
  refine ⟨.inr ?_, fun _ _ _ => trivial⟩
  have hoffsets : offsets 0x1000 0x1000 = [0] := rfl
  rw [hcache, hsize, hoffsets]
  simp only [mem_singleton, forall_eq]
  decide

/-- A page is moved onto a page that is mapped and cached, and unmapped again: the
table no longer maps it, and `lookup` still finds the translation it had before
the move. -/
theorem run_lookup_stale : ∃ answers t, construct 1 0x1000 ⟨false, 0, 0⟩ = .ok example4K ∧
      (machine .riscv).run example4K
        [.map 0x10000 0x5000 0x2000 0, .remap 0x10000 0x1000 0x11000, .unmap 0x11000 0x1000] = .ok (answers, t) ∧
      t.pTable (t.pageAlign 0x11000) = none ∧ (t.lookup 0x11000).1 = some 0x6000 :=
  ⟨_, _, construct_example4K, rfl, rfl, rfl⟩

end FuncPageTable

end Gem5
