import Gem5.Base.AddrRange
import Gem5.Lib.OrderedMap
import Gem5.Lib.Run

open Lib List

namespace Gem5

instance : IsTrans AddrRange fun r s => r.lt s = true := ⟨fun _ _ _ => AddrRange.lt_trans⟩

/-- The map from address ranges to values, a `std::map` ordered by `operator<`. -/
abbrev AddrRangeMap (V : Type) : Type := OrderedMap AddrRange V AddrRange.lt

namespace AddrRangeMap

variable {V : Type}

variable (tree : AddrRangeMap V)

/-- `i->first`. -/
def key (i : Nat) : Result AddrRange :=
  match tree.entries[i]? with
  | some entry => .ok entry.1
  | none => .error .dangling

/-- The loop of `find` that steps backwards from position `i`, and the test that
follows it. -/
def stepBack (tree : AddrRangeMap V) (r orig_range : AddrRange) : Nat → Result Nat
  | 0 => do
    let first ← tree.key 0
    if ← first.intersects r then .ok 0 else .ok tree.size
  | i + 1 => do
    let range ← tree.key (i + 1)
    if range.mergesWith orig_range then do
      let range ← tree.key i
      if ← range.intersects r then .ok i else stepBack tree r orig_range i
    else if ← range.intersects r then .ok (i + 1) else .ok tree.size

/-- `find(const AddrRange &r)`. -/
def find (r : AddrRange) : Result Nat :=
  if tree.entries.isEmpty then .ok tree.size
  else
    match tree.upperBound r with
    | 0 => do
      let first ← tree.key 0
      if ← first.intersects r then .ok 0 else .ok tree.size
    | i + 1 => do
      let range ← tree.key i
      if ← range.intersects r then .ok i
      else if range.interleaved then tree.stepBack r range i
      else .ok tree.size

/-- `find(const Addr &r)`. -/
def findAddr (r : Addr) : Result Nat := tree.find (.RangeSize r 1)

def intersect (r : AddrRange) : Result Bool := do
  let i ← tree.find r
  .ok (i != tree.size)

def insert (tree : AddrRangeMap V) (r : AddrRange) (d : V) : Result (Nat × AddrRangeMap V) := do
  if ← tree.intersect r then .ok (tree.size, tree) else .ok (OrderedMap.insert tree r d)

/-- `erase(p)`. -/
def erase (p : Nat) : Result (AddrRangeMap V) :=
  if p < tree.size then .ok (tree.eraseRange p (p + 1)) else .error .dangling

/-- `erase(p, q)`. -/
def eraseUpTo (p q : Nat) : Result (AddrRangeMap V) :=
  if p ≤ q ∧ q ≤ tree.size then .ok (tree.eraseRange p q) else .error .dangling

def clear : AddrRangeMap V := tree.eraseRange 0 tree.size

variable {tree}

/-- Some address is in both ranges. -/
def Overlap (r s : AddrRange) : Prop := ∃ a, r.contains a = true ∧ s.contains a = true

variable {r s : AddrRange}

theorem start_le_of_not_lt (h : r.lt s = false) : s.start ≤ r.start := by
  rw [Bool.eq_false_iff, ne_eq, AddrRange.lt_iff, not_or] at h
  have hlt := h.1
  rw [BitVec.lt_def] at hlt
  rw [BitVec.le_def]
  omega

theorem start_le_of_lt (h : r.lt s = true) : r.start ≤ s.start := by
  rw [AddrRange.lt_iff, BitVec.lt_def, ← BitVec.toNat_inj] at h
  rw [BitVec.le_def]
  omega

theorem mem_of_upTo (hmem : entry ∈ tree.upTo r) : entry ∈ tree.entries := by
  rw [← tree.upTo_append_past r]
  exact mem_append_left _ hmem

theorem mem_upTo_of_not_lt (hmem : entry ∈ tree.entries) (hlt : r.lt entry.1 = false) : entry ∈ tree.upTo r := by
  rw [← tree.upTo_append_past r] at hmem
  rcases mem_append.mp hmem with hupTo | hpast
  · exact hupTo
  · rw [OrderedMap.lt_of_mem_past hpast] at hlt
    cases hlt

theorem key_eq_ok_iff : tree.key i = .ok r ↔ ∃ d, tree.entries[i]? = some (r, d) := by
  unfold key
  split
  · rename_i entry hentry
    rw [hentry]
    constructor
    · intro h
      cases h
      exact ⟨entry.2, rfl⟩
    · rintro ⟨d, hd⟩
      cases hd
      rfl
  · rename_i hnone
    rw [hnone]
    constructor
    · intro h
      cases h
    · rintro ⟨d, hd⟩
      cases hd

/-- The entry before an upper bound is the last of those that do not come after
the key. -/
theorem entries_upperBound (h : tree.upperBound r = i + 1) :
    ∃ before entry, tree.upTo r = before ++ [entry] ∧ before.length = i ∧ tree.entries[i]? = some entry := by
  have hne : tree.upTo r ≠ [] := by
    intro hnil
    simp [OrderedMap.upperBound, hnil] at h
  have hsplit := dropLast_concat_getLast hne
  have hlength : (tree.upTo r).dropLast.length = i := by
    rw [length_dropLast]
    change tree.upperBound r - 1 = i
    omega
  refine ⟨_, _, hsplit.symm, hlength, ?_⟩
  rw [← tree.upTo_append_past r, getElem?_append_left (by change i < tree.upperBound r; omega)]
  conv => lhs; rw [← hsplit]
  rw [getElem?_append_right (by omega), hlength, Nat.sub_self]
  rfl

/-- If there is no entry before it, the upper bound is the first entry. -/
theorem past_of_upperBound (h : tree.upperBound r = 0) : tree.past r = tree.entries := by
  rw [← tree.upTo_append_past r, eq_nil_of_length_eq_zero h, nil_append]

end AddrRangeMap

end Gem5
