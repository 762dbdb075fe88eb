import Gem5.Base.AddrRangeMap
import Mathlib.Data.List.Pairwise

open Lib Result List BitVec

namespace Gem5.AddrRangeMap

open AddrRange (mergesWith_iff intersects_RangeSize_one RangeSize inRange_of_contains)

variable {V : Type}

/-- The map divides the addresses it covers: its ranges are valid, no two have an
address in common, and with an interleaved range it has all the ranges that
this one shares its addresses with. -/
structure Decodable (tree : AddrRangeMap V) : Prop where
  valid : ∀ entry ∈ tree.entries, entry.1.valid = true
  disjoint : tree.entries.Pairwise fun p q => ¬ Overlap p.1 q.1
  complete : ∀ entry ∈ tree.entries, entry.1.interleaved = true → ∀ m < 2 ^ entry.1.intlvBits.toNat,
    ∃ other ∈ tree.entries, other.1.mergesWith entry.1 = true ∧ other.1.intlvMatch.toNat = m

/-- `find(addr)` returns the one stored range that contains the address, and
the end if there is none. -/
def Decodes (tree : AddrRangeMap V) (a : Addr) : Prop :=
  ∃ i, tree.findAddr a = .ok i ∧
    ((∃ entry, tree.entries[i]? = some entry ∧ entry.1.contains a = true ∧
        ∀ other ∈ tree.entries, other.1.contains a = true → other = entry) ∨
      (i = tree.size ∧ ∀ entry ∈ tree.entries, entry.1.contains a = false))

variable {tree : AddrRangeMap V} {a : Addr}

/-- The loop looks at the ranges in front of it while it stays in the group, and
returns the one that contains the address. -/
theorem stepBack_of_between (hlt : j < i) (hfound : tree.entries[j]? = some found)
    (hcontains : found.1.contains a = true) (hbetween : ∀ k, j < k → k ≤ i → ∃ entry, tree.entries[k]? = some entry ∧
      entry.1.mergesWith orig = true ∧ entry.1.contains a = false) : tree.stepBack (.RangeSize a 1) orig i = .ok j := by
  induction i with
  | zero => cases hlt
  | succ i ih =>
    obtain ⟨entry, hentry, hmerges, -⟩ := hbetween (i + 1) hlt le_rfl
    rw [stepBack, bind_of_ok (key_eq_ok_iff.mpr ⟨entry.2, hentry⟩), if_pos hmerges]
    rcases Nat.lt_or_eq_of_le (Nat.le_of_lt_succ hlt) with hless | rfl
    · obtain ⟨next, hnext, -, hnot⟩ := hbetween i hless (Nat.le_succ i)
      rw [bind_of_ok (key_eq_ok_iff.mpr ⟨next.2, hnext⟩), intersects_RangeSize_one,
        bind_of_ok rfl, hnot, if_neg Bool.false_ne_true]
      exact ih hless fun k hk hki => hbetween k hk (Nat.le_succ_of_le hki)
    · rw [bind_of_ok (key_eq_ok_iff.mpr ⟨found.2, hfound⟩), intersects_RangeSize_one,
        bind_of_ok rfl, hcontains, if_pos rfl]

/-- A test for the address at a position of the map. -/
theorem test_cases (hi : i < tree.size) (otherwise : Result Nat) :
    ∃ entry, tree.entries[i]? = some entry ∧
      (do let range ← tree.key i; if ← range.intersects (.RangeSize a 1) then .ok i else otherwise) =
        if entry.1.contains a then .ok i else otherwise := by
  obtain ⟨entry, hentry⟩ : ∃ entry, tree.entries[i]? = some entry := ⟨_, getElem?_eq_getElem hi⟩
  refine ⟨entry, hentry, ?_⟩
  rw [bind_of_ok (key_eq_ok_iff.mpr ⟨entry.2, hentry⟩), intersects_RangeSize_one, bind_of_ok rfl]

/-- What the loop returns contains the address, and it does not look further on. -/
theorem stepBack_cases (orig : AddrRange) (hi : i < tree.size) : tree.stepBack (.RangeSize a 1) orig i = .ok tree.size ∨
      ∃ j ≤ i, ∃ entry, tree.stepBack (.RangeSize a 1) orig i = .ok j ∧ tree.entries[j]? = some entry ∧
        entry.1.contains a = true := by
  induction i with
  | zero =>
    obtain ⟨entry, hentry, htest⟩ := test_cases (a := a) hi (.ok tree.size)
    rw [stepBack, htest]
    cases hcontains : entry.1.contains a with
    | true => exact .inr ⟨0, le_rfl, entry, if_pos rfl, hentry, hcontains⟩
    | false => exact .inl (if_neg Bool.false_ne_true)
  | succ i ih =>
    have hi' : i < tree.size := Nat.lt_of_succ_lt hi
    obtain ⟨range, hrange⟩ : ∃ range, tree.entries[i + 1]? = some range := ⟨_, getElem?_eq_getElem hi⟩
    rw [stepBack, bind_of_ok (key_eq_ok_iff.mpr ⟨range.2, hrange⟩)]
    cases hmerges : range.1.mergesWith orig with
    | true =>
      obtain ⟨entry, hentry, htest⟩ := test_cases (a := a) hi' (tree.stepBack (.RangeSize a 1) orig i)
      rw [if_pos rfl, htest]
      cases hcontains : entry.1.contains a with
      | true => exact .inr ⟨i, Nat.le_succ i, entry, if_pos rfl, hentry, hcontains⟩
      | false =>
        rw [if_neg Bool.false_ne_true]
        rcases ih hi' with hend | ⟨j, hj, found, hresult, hfound, hin⟩
        · exact .inl hend
        · exact .inr ⟨j, Nat.le_succ_of_le hj, found, hresult, hfound, hin⟩
    | false =>
      rw [if_neg Bool.false_ne_true, intersects_RangeSize_one, bind_of_ok rfl]
      cases hcontains : range.1.contains a with
      | true => exact .inr ⟨i + 1, le_rfl, range, if_pos rfl, hrange, hcontains⟩
      | false => exact .inl (if_neg Bool.false_ne_true)

/-- Whatever the map holds, what is returned contains the address, and is either
the first range or one that does not come after the address. -/
theorem findAddr_cases (tree : AddrRangeMap V) (a : Addr) : tree.findAddr a = .ok tree.size ∨
      ∃ i entry, tree.findAddr a = .ok i ∧ tree.entries[i]? = some entry ∧ entry.1.contains a = true ∧
        (i < tree.upperBound (.RangeSize a 1) ∨ tree.upperBound (.RangeSize a 1) = 0) := by
  unfold findAddr find
  cases hlist : tree.entries with
  | nil => exact .inl rfl
  | cons first rest =>
    have hpos : 0 < tree.size := by simp [OrderedMap.size, hlist]
    have hlength : tree.upperBound (.RangeSize a 1) ≤ tree.size := by
      have hsplit := congrArg length (tree.upTo_append_past (.RangeSize a 1))
      rw [length_append] at hsplit
      exact Nat.le_trans (Nat.le_add_right _ _) hsplit.le
    rw [if_neg (by simp), ← hlist]
    cases hbound : tree.upperBound (.RangeSize a 1) with
    | zero =>
      obtain ⟨entry, hentry, htest⟩ := test_cases (a := a) hpos (.ok tree.size)
      simp only [htest]
      cases hcontains : entry.1.contains a with
      | true => exact .inr ⟨0, entry, if_pos rfl, hentry, hcontains, .inr trivial⟩
      | false => exact .inl (if_neg Bool.false_ne_true)
    | succ i =>
      have hi : i < tree.size := by omega
      obtain ⟨entry, hentry⟩ : ∃ entry, tree.entries[i]? = some entry := ⟨_, getElem?_eq_getElem hi⟩
      simp only [bind_of_ok (key_eq_ok_iff.mpr ⟨entry.2, hentry⟩), intersects_RangeSize_one, bind_of_ok rfl]
      cases hcontains : entry.1.contains a with
      | true => exact .inr ⟨i, entry, if_pos rfl, hentry, hcontains, .inl (Nat.lt_succ_self i)⟩
      | false =>
        rw [if_neg Bool.false_ne_true]
        split
        · rcases stepBack_cases (a := a) entry.1 hi with hend | ⟨j, hj, found, hresult, hfound, hin⟩
          · exact .inl hend
          · exact .inr ⟨j, found, hresult, hfound, hin, .inl (Nat.lt_succ_of_le hj)⟩
        · exact .inl rfl

/-- The ranges that contain an address and come after it are those that start at
it and have another match value than 0. -/
theorem lt_iff_of_contains (h : r.contains a = true) :
    (RangeSize a 1).lt r = true ↔ r.start = a ∧ r.intlvMatch ≠ 0 := by
  have hstart := (inRange_of_contains h).1
  have hpos : (0#8 < r.intlvMatch) ↔ r.intlvMatch ≠ 0 := BitVec.pos_iff_ne_zero _
  rw [AddrRange.lt_iff, AddrRange.RangeSize_one]
  change a < r.start ∨ a = r.start ∧ 0#8 < r.intlvMatch ↔ _
  rw [hpos]
  rw [le_def] at hstart
  constructor
  · rintro (hlt | ⟨rfl, hne⟩)
    · rw [lt_def] at hlt
      omega
    · exact ⟨rfl, hne⟩
  · rintro ⟨rfl, hne⟩
    exact .inr ⟨rfl, hne⟩

/-- Entries at different positions are different. -/
theorem index_unique {i j : Nat} {entry : AddrRange × V} (hi : tree.entries[i]? = some entry)
    (hj : tree.entries[j]? = some entry) : i = j := by
  have hirrefl := AddrRange.lt_irrefl entry.1
  rcases Nat.lt_trichotomy i j with hlt | heq | hgt
  · rw [OrderedMap.lt_of_getElem? hlt hi hj] at hirrefl
    cases hirrefl
  · exact heq
  · rw [OrderedMap.lt_of_getElem? hgt hj hi] at hirrefl
    cases hirrefl

theorem findAddr_of_first (hfirst : tree.entries[0]? = some first) (ha : first.1.contains a = true)
    (hbound : tree.upperBound (.RangeSize a 1) = 0) : tree.findAddr a = .ok 0 := by
  have hnonempty : tree.entries.isEmpty = false := by
    rw [isEmpty_eq_false_iff]
    exact ne_nil_of_mem (mem_of_getElem? hfirst)
  rw [findAddr, find, hnonempty, if_neg Bool.false_ne_true, hbound]
  simp only [bind_of_ok (key_eq_ok_iff.mpr ⟨first.2, hfirst⟩), intersects_RangeSize_one, bind_of_ok rfl, ha, if_pos]

namespace Decodable

variable (h : tree.Decodable)
include h

theorem eq_of_contains (hp : p ∈ tree.entries) (hq : q ∈ tree.entries)
    (hpa : p.1.contains a = true) (hqa : q.1.contains a = true) : p = q := by
  by_contra hne
  have hsymm : Std.Symm fun p q : AddrRange × V => ¬ Overlap p.1 q.1 := by
    constructor
    rintro p q hdisjoint ⟨b, hq, hp⟩
    exact hdisjoint ⟨b, hp, hq⟩
  exact h.disjoint.forall hp hq hne ⟨a, hpa, hqa⟩

/-- The match values are 8 bits wide, so that a whole group has no more than 8
interleaving bits. -/
theorem intlvBits_le (hmem : entry ∈ tree.entries) (hintlv : entry.1.interleaved = true) :
    entry.1.intlvBits.toNat ≤ 8 := by
  have hpos := Nat.two_pow_pos entry.1.intlvBits.toNat
  obtain ⟨other, -, -, hmatch⟩ := h.complete entry hmem hintlv (2 ^ entry.1.intlvBits.toNat - 1) (by omega)
  have hlt := other.1.intlvMatch.isLt
  have hle : 2 ^ entry.1.intlvBits.toNat ≤ 2 ^ 8 := by omega
  exact (Nat.pow_le_pow_iff_right (by decide)).mp hle

theorem selected_lt (hmem : entry ∈ tree.entries) (hintlv : entry.1.interleaved = true) (a : Addr) :
    (AddrRange.selected entry.1.intlvHighBit entry.1.xorHighBit entry.1.intlvBits a).toNat <
      2 ^ entry.1.intlvBits.toNat := by
  have hle := h.intlvBits_le hmem hintlv
  have hfield : ∀ high : Nat, (bits a high (high - entry.1.intlvBits.toNat + 1)).toNat <
      2 ^ entry.1.intlvBits.toNat := fun high => bits_toNat_lt (by omega) (by omega)
  unfold AddrRange.selected
  by_cases hxor : entry.1.xorHighBit = 0
  · simp only [if_pos hxor]
    exact hfield _
  · simp only [if_neg hxor, toNat_xor]
    exact Nat.xor_lt_two_pow (hfield _) (hfield _)

/-- Every address between the bounds of a stored range is in this range or in one
that belongs to the same group. -/
theorem exists_contains (hmem : entry ∈ tree.entries) (hin : entry.1.start ≤ a ∧ a ≤ entry.1.end_) :
    ∃ other ∈ tree.entries, other.1.contains a = true ∧ other.1.mergesWith entry.1 = true ∧
      (entry.1.interleaved = false → other = entry) := by
  cases hintlv : entry.1.interleaved with
  | false =>
    exact ⟨entry, hmem, (AddrRange.contains_iff_of_plain hintlv).mpr hin, mergesWith_iff.mpr (by simp), fun _ => rfl⟩
  | true =>
    obtain ⟨other, hother, hmerges, hmatch⟩ := h.complete entry hmem hintlv _ (h.selected_lt hmem hintlv a)
    obtain ⟨⟨hstart, hend⟩, hhigh, hxor, hbits⟩ := mergesWith_iff.mp hmerges
    refine ⟨other, hother, ?_, hmerges, fun hplain => by cases hplain⟩
    have hintlv' : other.1.interleaved = true := by
      rw [AddrRange.interleaved, ← hbits]
      exact hintlv
    rw [AddrRange.contains_iff_of_interleaved hintlv', ← hstart, ← hend, ← hhigh, ← hxor, ← hbits]
    refine ⟨hin, eq_of_toNat_eq ?_⟩
    rw [toNat_setWidth, hmatch, Nat.mod_eq_of_lt (isLt _)]

/-- A range that starts between the start of another and an address in it is this
range itself, or one of its group. -/
theorem mergesWith_of_start_le (hp : p ∈ tree.entries) (hc : c ∈ tree.entries)
    (hstart : c.1.start ≤ p.1.start) (hle : p.1.start ≤ a) (ha : c.1.contains a = true) :
    p.1.mergesWith c.1 = true ∧ (c.1.interleaved = false → p = c) := by
  have hend := (inRange_of_contains ha).2
  obtain ⟨c', hc', hc'in, hc'c, hcplain⟩ := h.exists_contains hc ⟨hstart, BitVec.le_trans hle hend⟩
  obtain ⟨p', hp', hp'in, hp'p, hpplain⟩ := h.exists_contains hp ⟨BitVec.le_refl _, of_decide_eq_true (h.valid p hp)⟩
  obtain rfl := h.eq_of_contains hc' hp' hc'in hp'in
  rw [mergesWith_iff] at *
  obtain ⟨⟨hcs, hce⟩, hch, hcx, hcb⟩ := hc'c
  obtain ⟨⟨hps, hpe⟩, hph, hpx, hpb⟩ := hp'p
  refine ⟨⟨⟨hcs.trans hps.symm, hce.trans hpe.symm⟩, hch.trans hph.symm, hcx.trans hpx.symm, hcb.trans hpb.symm⟩, ?_⟩
  intro hplain
  have hplain' : p.1.interleaved = false := by
    rw [AddrRange.interleaved, hpb, ← hcb]
    exact hplain
  exact (hpplain hplain').symm.trans (hcplain hplain)

/-- A range that contains the address and does not come after it is found: what
stands between it and the upper bound belongs to its group. -/
theorem findAddr_of_not_lt {j : Nat} {c : AddrRange × V} (hc : tree.entries[j]? = some c)
    (ha : c.1.contains a = true) (hlt : (RangeSize a 1).lt c.1 = false) : tree.findAddr a = .ok j := by
  have hmem := mem_of_getElem? hc
  have hj := (OrderedMap.lt_upperBound_iff hc).mpr hlt
  have hnonempty : tree.entries.isEmpty = false := by
    rw [isEmpty_eq_false_iff]
    exact ne_nil_of_mem hmem
  obtain ⟨i, hbound⟩ : ∃ i, tree.upperBound (.RangeSize a 1) = i + 1 := Nat.exists_eq_add_one.mpr (by omega)
  obtain ⟨-, last, -, -, hlast⟩ := entries_upperBound hbound
  -- What comes after the range up to the bound starts no later than the address.
  have hbetween : ∀ k, j < k → k ≤ i → ∃ entry, tree.entries[k]? = some entry ∧
      entry.1.mergesWith c.1 = true ∧ c.1.interleaved = true ∧ entry.1.contains a = false := by
    intro k hjk hki
    have hk : k < tree.size := Nat.lt_of_le_of_lt hki (List.getElem?_eq_some_iff.mp hlast).1
    obtain ⟨entry, hentry⟩ : ∃ entry, tree.entries[k]? = some entry := ⟨_, getElem?_eq_getElem hk⟩
    have hne : entry ≠ c := by
      rintro rfl
      exact absurd (index_unique hc hentry) (Nat.ne_of_lt hjk)
    have hstart := start_le_of_lt (OrderedMap.lt_of_getElem? hjk hc hentry)
    have hupTo : k < tree.upperBound (.RangeSize a 1) := by omega
    have hle : entry.1.start ≤ a := start_le_of_not_lt ((OrderedMap.lt_upperBound_iff hentry).mp hupTo)
    obtain ⟨hmerges, hplain⟩ := h.mergesWith_of_start_le (mem_of_getElem? hentry) hmem hstart hle ha
    refine ⟨entry, hentry, hmerges, ?_, ?_⟩
    · by_contra hnot
      exact hne (hplain (Bool.not_eq_true _ ▸ hnot))
    · by_contra hin
      exact hne (h.eq_of_contains (mem_of_getElem? hentry) hmem (Bool.not_eq_false _ ▸ hin) ha)
  rw [findAddr, find, hnonempty, if_neg Bool.false_ne_true, hbound]
  simp only [bind_of_ok (key_eq_ok_iff.mpr ⟨last.2, hlast⟩), intersects_RangeSize_one, bind_of_ok rfl]
  rcases Nat.lt_or_eq_of_le (by omega : j ≤ i) with hji | rfl
  · obtain ⟨entry, hentry, hmerges, hintlv, hnot⟩ := hbetween i hji le_rfl
    obtain rfl : last = entry := Option.some.inj (hlast.symm.trans hentry)
    obtain ⟨⟨hstart, hend⟩, hhigh, hxor, hbits⟩ := mergesWith_iff.mp hmerges
    have hintlv' : last.1.interleaved = true := by
      rw [AddrRange.interleaved, ← hbits]
      exact hintlv
    rw [hnot, if_neg Bool.false_ne_true, hintlv', if_pos rfl]
    apply stepBack_of_between hji hc ha
    intro k hjk hki
    obtain ⟨other, hother, hmerges', -, hout⟩ := hbetween k hjk hki
    refine ⟨other, hother, ?_, hout⟩
    rw [mergesWith_iff] at hmerges' ⊢
    rw [← hstart, ← hend, ← hhigh, ← hxor, ← hbits]
    exact hmerges'
  · obtain rfl : last = c := Option.some.inj (hlast.symm.trans hc)
    rw [ha, if_pos rfl]

/-- If every range comes after the address, only the first one can contain it: a
group has a range with match value 0, which does not come after its start. -/
theorem eq_zero_of_forall_lt {j : Nat} {c : AddrRange × V} (hc : tree.entries[j]? = some c)
    (ha : c.1.contains a = true) (hbound : tree.upperBound (.RangeSize a 1) = 0) : j = 0 := by
  have hmem := mem_of_getElem? hc
  have hafter : ∀ {k : Nat} {entry : AddrRange × V}, tree.entries[k]? = some entry →
    (RangeSize a 1).lt entry.1 = true := by
    intro k entry hentry
    by_contra hnot
    have hk := (OrderedMap.lt_upperBound_iff hentry).mpr (Bool.not_eq_true _ ▸ hnot)
    omega
  by_contra hj
  obtain ⟨first, hfirst⟩ : ∃ first, tree.entries[0]? = some first := ⟨_, getElem?_eq_getElem (length_pos_of_mem hmem)⟩
  obtain ⟨hcstart, -⟩ := (lt_iff_of_contains ha).mp (hafter hc)
  have hfa : a ≤ first.1.start := start_le_of_lt (hafter hfirst)
  have hfc := start_le_of_lt (OrderedMap.lt_of_getElem? (by omega : 0 < j) hfirst hc)
  rw [hcstart] at hfc
  have hintlv : c.1.interleaved = true := by
    by_contra hplain
    obtain ⟨-, heq⟩ := h.mergesWith_of_start_le (mem_of_getElem? hfirst) hmem (hcstart ▸ hfa) hfc ha
    rw [heq (Bool.not_eq_true _ ▸ hplain)] at hfirst
    exact hj (index_unique hc hfirst)
  obtain ⟨member, hmember, hmerges, hzero⟩ := h.complete c hmem hintlv 0 (Nat.two_pow_pos _)
  obtain ⟨k, hk⟩ := mem_iff_getElem?.mp hmember
  have hlt := hafter hk
  have hmstart := (mergesWith_iff.mp hmerges).1.1
  have hastart : (RangeSize a 1).start = a := rfl
  rw [AddrRange.lt_iff, hastart, lt_def, lt_def, ← hmstart, hcstart, hzero] at hlt
  omega

end Decodable

/-- The address is found exactly when no range but the first that starts at it and
has another match value than 0 contains it. -/
theorem decodes_iff (h : tree.Decodable) (a : Addr) :
    tree.Decodes a ↔ ¬ ∃ i entry, 0 < i ∧ tree.entries[i]? = some entry ∧ entry.1.start = a ∧
      entry.1.intlvMatch ≠ 0 ∧ entry.1.contains a = true := by
  by_cases hnone : ∀ entry ∈ tree.entries, entry.1.contains a = false
  · -- What is returned contains the address, so that it is the end.
    have hdecodes : tree.Decodes a := by
      rcases findAddr_cases tree a with hend | ⟨i, entry, -, hentry, hin, -⟩
      · exact ⟨_, hend, .inr ⟨rfl, hnone⟩⟩
      · rw [hnone entry (mem_of_getElem? hentry)] at hin
        cases hin
    refine iff_of_true hdecodes ?_
    rintro ⟨i, entry, -, hentry, -, -, hin⟩
    rw [hnone entry (mem_of_getElem? hentry)] at hin
    cases hin
  · push Not at hnone
    obtain ⟨c, hmem, hin⟩ := hnone
    have ha : c.1.contains a = true := Bool.not_eq_false _ ▸ hin
    obtain ⟨j, hc⟩ := mem_iff_getElem?.mp hmem
    have hunique : ∀ other ∈ tree.entries, other.1.contains a = true → other = c :=
      fun other hother hin => h.eq_of_contains hother hmem hin ha
    cases hlt : (RangeSize a 1).lt c.1 with
    | false =>
      refine iff_of_true ⟨j, h.findAddr_of_not_lt hc ha hlt, .inl ⟨c, hc, ha, hunique⟩⟩ ?_
      rintro ⟨i, entry, -, hentry, hstart, hmatch, hentryin⟩
      obtain rfl := hunique entry (mem_of_getElem? hentry) hentryin
      rw [(lt_iff_of_contains ha).mpr ⟨hstart, hmatch⟩] at hlt
      cases hlt
    | true =>
      obtain ⟨hstart, hmatch⟩ := (lt_iff_of_contains ha).mp hlt
      cases hbound : tree.upperBound (.RangeSize a 1) with
      | zero =>
        obtain rfl := h.eq_zero_of_forall_lt hc ha hbound
        refine iff_of_true ⟨0, findAddr_of_first hc ha hbound, .inl ⟨c, hc, ha, hunique⟩⟩ ?_
        rintro ⟨i, entry, hi, hentry, -, -, hentryin⟩
        obtain rfl := hunique entry (mem_of_getElem? hentry) hentryin
        exact absurd (index_unique hc hentry) (Nat.ne_of_lt hi)
      | succ i =>
        -- Only ranges before the upper bound are looked at, and this one is not.
        have hj : ¬ j < tree.upperBound (.RangeSize a 1) := by
          rw [OrderedMap.lt_upperBound_iff hc, hlt]
          exact Bool.noConfusion
        refine iff_of_false ?_ (not_not.mpr ⟨j, c, by omega, hc, hstart, hmatch, ha⟩)
        rintro ⟨k, hfind, hresult⟩
        rcases findAddr_cases tree a with hend | ⟨k', entry, -, hentry, hentryin, hk' | hzero⟩
        · obtain rfl : tree.size = k := Except.ok.inj (hend.symm.trans hfind)
          rcases hresult with ⟨entry, hentry, -⟩ | ⟨-, hempty⟩
          · exact absurd (List.getElem?_eq_some_iff.mp hentry).1 (Nat.lt_irrefl _)
          · rw [hempty c hmem] at ha
            cases ha
        · obtain rfl := hunique entry (mem_of_getElem? hentry) hentryin
          exact hj (index_unique hc hentry ▸ hk')
        · omega

/-- The first of two banks that share the addresses 0x40 to 0xbf, by bit 6. -/
def bank0 : AddrRange := ⟨0x40, 0xbf, 6, 0, 1, 0, rfl⟩

def bank1 : AddrRange := ⟨0x40, 0xbf, 6, 0, 1, 1, rfl⟩

/-- The two banks, and a range behind them. -/
def banks : AddrRangeMap Nat := ⟨[(bank0, 0), (bank1, 1), (.plain 0xc0 0xff, 2)], by decide⟩

theorem banks_decodable : banks.Decodable where
  valid := by decide
  disjoint := by
    have hplain : ∀ {r : AddrRange}, r.end_ = 0xbf → ¬ Overlap r (.plain 0xc0 0xff) := by
      rintro r hend ⟨a, hr, hp⟩
      have hle := (inRange_of_contains hr).2
      have hge := (inRange_of_contains hp).1
      rw [hend] at hle
      exact absurd (BitVec.le_trans hge hle) (by decide)
    have hbanks : ¬ Overlap bank0 bank1 := by
      rintro ⟨a, h₀, h₁⟩
      have h₀ := ((AddrRange.contains_iff_of_interleaved rfl).mp h₀).2
      have h₁ := ((AddrRange.contains_iff_of_interleaved rfl).mp h₁).2
      exact absurd (h₀.symm.trans h₁) (by decide)
    simp only [banks, pairwise_cons, forall_mem_cons]
    exact ⟨⟨hbanks, hplain rfl, fun _ hmem => absurd hmem not_mem_nil⟩,
      ⟨hplain rfl, fun _ hmem => absurd hmem not_mem_nil⟩, fun _ hmem => absurd hmem not_mem_nil, .nil⟩
  complete := by decide

theorem decodes_iff_banks : banks.Decodable ∧ banks.Decodes 0x80 := by
  refine ⟨banks_decodable, (decodes_iff banks_decodable 0x80).mpr ?_⟩
  rintro ⟨i, entry, -, hentry, hstart, -, -⟩
  have hall : ∀ entry ∈ banks.entries, entry.1.start ≠ 0x80 := by decide
  exact hall entry (mem_of_getElem? hentry) hstart

/-- The first address of the banks is in the second one, and is not found. -/
theorem banks_not_decodes : banks.Decodable ∧ banks.findAddr 0x40 = .ok banks.size ∧ (bank1, 1) ∈ banks.entries ∧
      bank1.contains 0x40 = true :=
  ⟨banks_decodable, by decide, by decide, by decide⟩

end Gem5.AddrRangeMap
