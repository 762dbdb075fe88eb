import Gem5.Base.AddrRangeMap

open Lib Result List BitVec

namespace Gem5.AddrRangeMap

variable {V : Type}

/-- The stored ranges are valid and not interleaved, and no two have an address
in common. -/
structure PlainDisjoint (tree : AddrRangeMap V) : Prop where
  plain : ∀ entry ∈ tree.entries, entry.1.interleaved = false
  valid : ∀ entry ∈ tree.entries, entry.1.valid = true
  disjoint : tree.entries.Pairwise fun p q => ¬ Overlap p.1 q.1

/-- What `find` and `insert` are for: `find` returns a stored range that has an
address in common with `r` if there is one, and `insert` refuses `r` in that
case only. -/
def Exact (tree : AddrRangeMap V) (r : AddrRange) : Prop :=
  (∃ i, tree.find r = .ok i ∧
    ((∃ s, tree.key i = .ok s ∧ Overlap s r) ↔ ∃ entry ∈ tree.entries, Overlap entry.1 r)) ∧
  ∀ d, ∃ i after, tree.insert r d = .ok (i, after) ∧
    ((i = after.size ∧ after = tree) ↔ ∃ entry ∈ tree.entries, Overlap entry.1 r)

/-- A stored range that comes before `r` reaches it, or none comes before it, or
no range that comes after it starts inside it. -/
def Sheltered (tree : AddrRangeMap V) (r : AddrRange) : Prop :=
  (∃ entry ∈ tree.entries, r.lt entry.1 = false ∧ r.start ≤ entry.1.end_) ∨
    (∀ entry ∈ tree.entries, r.lt entry.1 = true) ∨
    ∀ entry ∈ tree.entries, r.lt entry.1 = true → r.end_ < entry.1.start

/-- The changes of a map of ranges that are valid and not interleaved. -/
inductive Op (V : Type) where
  | insert (r : AddrRange) (d : V) (plain : r.interleaved = false) (valid : r.valid = true)
  | erase (p : Nat)
  | eraseUpTo (p q : Nat)
  | clear

/-- The map, which answers an insertion with an iterator. -/
def machine (V : Type) : Machine (AddrRangeMap V) (Op V) (Option Nat) where
  step
    | tree, .insert r d _ _ => do
      let (i, after) ← tree.insert r d
      .ok (some i, after)
    | tree, .erase p => do
      let after ← tree.erase p
      .ok (none, after)
    | tree, .eraseUpTo p q => do
      let after ← tree.eraseUpTo p q
      .ok (none, after)
    | tree, .clear => .ok (none, tree.clear)

/-- The condition on a step: only insertions have one. -/
def ShelteredStep (tree : AddrRangeMap V) : Op V → Prop
  | .insert r _ _ _ => tree.Sheltered r
  | _ => True

variable {tree : AddrRangeMap V} {r : AddrRange}

namespace PlainDisjoint

variable {entry : AddrRange × V}

section

variable (h : tree.PlainDisjoint)
include h

theorem overlap_iff (hmem : entry ∈ tree.entries) (hr : r.interleaved = false)
    (hv : r.valid = true) : Overlap entry.1 r ↔ entry.1.start ≤ r.end_ ∧ r.start ≤ entry.1.end_ :=
  AddrRange.exists_common_iff (h.plain entry hmem) hr (h.valid entry hmem) hv

theorem intersects_eq (hmem : entry ∈ tree.entries) (hr : r.interleaved = false) :
    entry.1.intersects r = .ok (decide (entry.1.start ≤ r.end_ ∧ r.start ≤ entry.1.end_)) :=
  AddrRange.intersects_of_plain (h.plain entry hmem) hr

/-- Each stored range ends before the next one starts. -/
theorem end_lt_start : tree.entries.Pairwise fun p q => p.1.end_ < q.1.start := by
  have hboth := tree.sorted.and h.disjoint
  refine List.Pairwise.imp_of_mem ?_ hboth
  rintro p q hp hq ⟨hlt, hdisjoint⟩
  rw [Overlap, AddrRange.exists_common_iff (h.plain p hp) (h.plain q hq) (h.valid p hp) (h.valid q hq)] at hdisjoint
  have hstart := start_le_of_lt hlt
  have hvalid : q.1.start ≤ q.1.end_ := of_decide_eq_true (h.valid q hq)
  simp only [le_def, lt_def] at *
  omega

/-- Of the ranges that do not come after `r`, only the last one can reach it. -/
theorem overlap_last (hsplit : tree.upTo r = before ++ [last]) (hmem : entry ∈ tree.upTo r)
    (hreach : r.start ≤ entry.1.end_) : entry = last := by
  rw [hsplit] at hmem
  rcases mem_append.mp hmem with hbefore | hlast
  · have hpair := h.end_lt_start
    rw [← tree.upTo_append_past r, hsplit, pairwise_append] at hpair
    have hlt := (pairwise_append.mp hpair.1).2.2 entry hbefore last mem_cons_self
    have hlast : last ∈ tree.upTo r := by
      rw [hsplit]
      exact mem_append_right _ mem_cons_self
    have hle := start_le_of_not_lt (OrderedMap.not_lt_of_mem_upTo hlast)
    simp only [le_def, lt_def] at *
    omega
  · exact mem_singleton.mp hlast

variable (hr : r.interleaved = false) (hv : r.valid = true)
include hr hv

/-- The ranges that `find` looks at: the last of those that do not come after `r`,
or else the first of the map. What it does not find comes after `r`, behind a
range that does not reach it. -/
theorem find_cases : (∃ i entry, tree.find r = .ok i ∧ tree.entries[i]? = some entry ∧ Overlap entry.1 r ∧
      (r.lt entry.1 = false ∨ ∀ other ∈ tree.entries, r.lt other.1 = true)) ∨
    (tree.find r = .ok tree.size ∧ ∀ entry ∈ tree.entries, Overlap entry.1 r →
      r.lt entry.1 = true ∧ ∃ other ∈ tree.entries, r.lt other.1 = false) := by
  unfold find
  cases hlist : tree.entries with
  | nil =>
    refine .inr ⟨if_pos rfl, ?_⟩
    intro entry hmem
    cases hmem
  | cons first rest =>
    rw [if_neg (by simp)]
    have hfirst : first ∈ tree.entries := by simp [hlist]
    cases hbound : tree.upperBound r with
    | zero =>
      have hpast : ∀ other ∈ tree.entries, r.lt other.1 = true := by
        intro other hother
        rw [← past_of_upperBound hbound] at hother
        exact OrderedMap.lt_of_mem_past hother
      have hkey : tree.key 0 = .ok first.1 := key_eq_ok_iff.mpr ⟨first.2, by simp [hlist]⟩
      simp only [hkey, bind_of_ok rfl, h.intersects_eq hfirst hr]
      by_cases hmeets : first.1.start ≤ r.end_ ∧ r.start ≤ first.1.end_
      · refine .inl ⟨0, first, ?_, by simp, (h.overlap_iff hfirst hr hv).mpr hmeets, .inr (hlist ▸ hpast)⟩
        simp [hmeets]
      refine .inr ⟨by simp [hmeets], ?_⟩
      intro entry hmem hoverlap
      -- The first range starts after `r` ends, and so do the later ones.
      exfalso
      rw [← hlist] at hmem
      rw [h.overlap_iff hmem hr hv] at hoverlap
      have hbefore := start_le_of_lt (hpast first hfirst)
      have hvalid : first.1.start ≤ first.1.end_ := of_decide_eq_true (h.valid first hfirst)
      rw [hlist] at hmem
      rcases mem_cons.mp hmem with rfl | hrest
      · exact hmeets hoverlap
      have hpair := h.end_lt_start
      rw [hlist] at hpair
      have hlt := (pairwise_cons.mp hpair).1 entry hrest
      simp only [le_def, lt_def] at *
      omega
    | succ i =>
      obtain ⟨before, last, hsplit, -, hlast⟩ := entries_upperBound hbound
      have hupTo : last ∈ tree.upTo r := by
        rw [hsplit]
        exact mem_append_right _ mem_cons_self
      have hmem := mem_of_upTo hupTo
      have hnot := OrderedMap.not_lt_of_mem_upTo hupTo
      have hkey : tree.key i = .ok last.1 := key_eq_ok_iff.mpr ⟨last.2, hlast⟩
      simp only [hkey, bind_of_ok rfl, h.intersects_eq hmem hr, h.plain last hmem]
      by_cases hmeets : last.1.start ≤ r.end_ ∧ r.start ≤ last.1.end_
      · refine .inl ⟨i, last, ?_, hlist ▸ hlast, (h.overlap_iff hmem hr hv).mpr hmeets, .inl hnot⟩
        simp [hmeets]
      refine .inr ⟨by simp [hmeets], ?_⟩
      intro entry hentry hoverlap
      rw [← hlist] at hentry
      refine ⟨?_, last, hlist ▸ hmem, hnot⟩
      by_contra hbefore
      rw [Bool.not_eq_true] at hbefore
      have hreach := ((h.overlap_iff hentry hr hv).mp hoverlap)
      obtain rfl := h.overlap_last hsplit (mem_upTo_of_not_lt hentry hbefore) hreach.2
      exact hmeets hreach

/-- A range that comes before `r` and reaches it has an address in common with it,
as has a range that comes after it and starts inside it. -/
theorem overlap_of_reaches (hmem : entry ∈ tree.entries) (hlt : r.lt entry.1 = false)
    (hreach : r.start ≤ entry.1.end_) : Overlap entry.1 r := by
  have hstart := start_le_of_not_lt hlt
  have hvalid : r.start ≤ r.end_ := of_decide_eq_true hv
  rw [h.overlap_iff hmem hr hv]
  exact ⟨BitVec.le_trans hstart hvalid, hreach⟩

theorem overlap_of_starts_inside (hmem : entry ∈ tree.entries) (hlt : r.lt entry.1 = true)
    (hinside : entry.1.start ≤ r.end_) : Overlap entry.1 r := by
  have hstart := start_le_of_lt hlt
  have hvalid : entry.1.start ≤ entry.1.end_ := of_decide_eq_true (h.valid entry hmem)
  rw [h.overlap_iff hmem hr hv]
  exact ⟨hinside, BitVec.le_trans hstart hvalid⟩

end

/-- An insertion is refused when `find` finds a range. -/
theorem insert_of_found (hfind : tree.find r = .ok i) (hentry : tree.entries[i]? = some entry) (d : V) :
    tree.insert r d = .ok (tree.size, tree) := by
  have hlt := (List.getElem?_eq_some_iff.mp hentry).1
  have hne : (i != tree.size) = true := bne_iff_ne.mpr (Nat.ne_of_lt hlt)
  simp [insert, intersect, hfind, bind_of_ok rfl, hne]

/-- Otherwise, if no stored range has the start of `r`, it is made. -/
theorem insert_of_not_found (hfind : tree.find r = .ok tree.size)
    (hfree : ∀ entry ∈ tree.entries, r.lt entry.1 = false → entry.1.lt r = true) (d : V) :
    ∃ i after, tree.insert r d = .ok (i, after) ∧ after.entries = tree.upTo r ++ (r, d) :: tree.past r ∧
      i < after.size := by
  have hlast : ∀ p ∈ (tree.upTo r).getLast?, p.1.lt r = true := by
    intro p hp
    have hmem := mem_of_getLast? hp
    exact hfree p (mem_of_upTo hmem) (OrderedMap.not_lt_of_mem_upTo hmem)
  refine ⟨tree.upperBound r, ⟨tree.upTo r ++ (r, d) :: tree.past r, tree.sorted_insert hlast⟩, ?_, rfl, ?_⟩
  · simp [insert, intersect, hfind, bind_of_ok rfl, OrderedMap.insert, dif_pos hlast]
  · simp [OrderedMap.upperBound, OrderedMap.size]

section

variable (h : tree.PlainDisjoint)
include h

section

variable (hr : r.interleaved = false) (hv : r.valid = true)
include hr hv

/-- A range that comes before `r` and does not reach it has another start. -/
theorem lt_of_not_overlap (hmem : entry ∈ tree.entries) (hlt : r.lt entry.1 = false) (hnot : ¬ Overlap entry.1 r) :
    entry.1.lt r = true := by
  have hreach : ¬ r.start ≤ entry.1.end_ := fun hreach => hnot (h.overlap_of_reaches hr hv hmem hlt hreach)
  have hvalid : entry.1.start ≤ entry.1.end_ := of_decide_eq_true (h.valid entry hmem)
  rw [AddrRange.lt_iff]
  left
  simp only [le_def, lt_def] at *
  omega

/-- What a sheltered range does not find there is not. -/
theorem not_overlap_of_sheltered (hsheltered : tree.Sheltered r) (hmissed : ∀ entry ∈ tree.entries, Overlap entry.1 r →
      r.lt entry.1 = true ∧ ∃ other ∈ tree.entries, r.lt other.1 = false) :
    ∀ entry ∈ tree.entries, ¬ Overlap entry.1 r := by
  intro entry hmem hoverlap
  obtain ⟨hlt, other, hother, hbefore⟩ := hmissed entry hmem hoverlap
  rcases hsheltered with ⟨reaching, hreaching, hnot, hreach⟩ | hnone | hoff
  · have hfound := (hmissed reaching hreaching (h.overlap_of_reaches hr hv hreaching hnot hreach)).1
    rw [hnot] at hfound
    cases hfound
  · rw [hnone other hother] at hbefore
    cases hbefore
  · have hinside := ((h.overlap_iff hmem hr hv).mp hoverlap).1
    have hpast := hoff entry hmem hlt
    rw [le_def] at hinside
    rw [lt_def] at hpast
    omega

/-- `find` and `insert` are exact for the ranges that are sheltered, and for no
others. -/
theorem exact_iff : tree.Exact r ↔ tree.Sheltered r := by
  rcases h.find_cases hr hv with ⟨i, entry, hfind, hentry, hoverlap, hwhere⟩ | ⟨hfind, hmissed⟩
  · -- The range that is found is a reason both for the answers and for the shelter.
    have hmem := mem_of_getElem? hentry
    have hexact : tree.Exact r := by
      refine ⟨⟨i, hfind, ?_⟩, fun d => ⟨_, _, insert_of_found hfind hentry d, ?_⟩⟩
      · exact ⟨fun _ => ⟨entry, hmem, hoverlap⟩, fun _ => ⟨entry.1, key_eq_ok_iff.mpr ⟨entry.2, hentry⟩, hoverlap⟩⟩
      · exact ⟨fun _ => ⟨entry, hmem, hoverlap⟩, fun _ => ⟨rfl, rfl⟩⟩
    have hsheltered : tree.Sheltered r := by
      rcases hwhere with hnot | hall
      · exact .inl ⟨entry, hmem, hnot, ((h.overlap_iff hmem hr hv).mp hoverlap).2⟩
      · exact .inr (.inl hall)
    exact iff_of_true hexact hsheltered
  · have hkey : ∀ s, tree.key tree.size ≠ .ok s := by
      intro s hs
      obtain ⟨d, hd⟩ := key_eq_ok_iff.mp hs
      exact absurd (List.getElem?_eq_some_iff.mp hd).1 (Nat.lt_irrefl _)
    constructor
    · rintro ⟨⟨i, hi, hiff⟩, -⟩
      obtain rfl : tree.size = i := by rwa [hfind, Except.ok.injEq] at hi
      refine .inr (.inr ?_)
      intro entry hmem hlt
      by_contra hinside
      rw [BitVec.not_lt] at hinside
      obtain ⟨s, hs, -⟩ := hiff.mpr ⟨entry, hmem, h.overlap_of_starts_inside hr hv hmem hlt hinside⟩
      exact hkey s hs
    · intro hsheltered
      have hnone := h.not_overlap_of_sheltered hr hv hsheltered hmissed
      refine ⟨⟨_, hfind, ?_⟩, fun d => ?_⟩
      · exact iff_of_false (fun ⟨s, hs, _⟩ => hkey s hs) (fun ⟨entry, hmem, hoverlap⟩ => hnone entry hmem hoverlap)
      · obtain ⟨i, after, hinsert, -, hlt⟩ := insert_of_not_found hfind
          (fun entry hmem hlt => h.lt_of_not_overlap hr hv hmem hlt (hnone entry hmem)) d
        refine ⟨i, after, hinsert, iff_of_false ?_ ?_⟩
        · rintro ⟨rfl, -⟩
          exact absurd hlt (Nat.lt_irrefl _)
        · rintro ⟨entry, hmem, hoverlap⟩
          exact hnone entry hmem hoverlap

theorem insert (hsheltered : tree.Sheltered r) {after : AddrRangeMap V} (hinsert : tree.insert r d = .ok (i, after)) :
    after.PlainDisjoint := by
  rcases h.find_cases hr hv with ⟨found, entry, hfind, hentry, -, -⟩ | ⟨hfind, hmissed⟩
  · rw [insert_of_found hfind hentry d] at hinsert
    cases hinsert
    exact h
  have hnone := h.not_overlap_of_sheltered hr hv hsheltered hmissed
  obtain ⟨j, made, hmade, hentries, -⟩ := insert_of_not_found hfind
    (fun entry hmem hlt => h.lt_of_not_overlap hr hv hmem hlt (hnone entry hmem)) d
  rw [hmade] at hinsert
  cases hinsert
  have hperm : after.entries.Perm ((r, d) :: tree.entries) := by
    rw [hentries, ← tree.upTo_append_past r]
    exact perm_middle
  have hall : ∀ {P : AddrRange × V → Prop}, P (r, d) → (∀ entry ∈ tree.entries, P entry) →
      ∀ entry ∈ after.entries, P entry := by
    intro P hnew hold entry hmem
    rcases mem_cons.mp (hperm.mem_iff.mp hmem) with rfl | hmem
    · exact hnew
    · exact hold entry hmem
  refine ⟨hall hr h.plain, hall hv h.valid, ?_⟩
  refine (hperm.pairwise_iff ?_).mpr (pairwise_cons.mpr ⟨?_, h.disjoint⟩)
  · rintro p q hdisjoint ⟨a, hq, hp⟩
    exact hdisjoint ⟨a, hp, hq⟩
  · rintro entry hmem ⟨a, hnew, hold⟩
    exact hnone entry hmem ⟨a, hold, hnew⟩

end

theorem eraseRange (i j : Nat) : PlainDisjoint (OrderedMap.eraseRange tree i j) := by
  have hsub : (OrderedMap.eraseRange tree i j).entries.Sublist tree.entries := tree.eraseRange_sublist i j
  exact ⟨fun entry hmem => h.plain entry (hsub.subset hmem), fun entry hmem => h.valid entry (hsub.subset hmem),
    h.disjoint.sublist hsub⟩

theorem step (hop : tree.ShelteredStep op) {after : AddrRangeMap V}
    (hstep : (machine V).step tree op = .ok (answer, after)) : after.PlainDisjoint := by
  cases op with
  | insert r d hr hv =>
    obtain ⟨⟨i, made⟩, hinsert, hdone⟩ := bind_ok hstep
    cases hdone
    exact h.insert hr hv hop hinsert
  | erase p =>
    obtain ⟨made, herase, hdone⟩ := bind_ok hstep
    cases hdone
    unfold AddrRangeMap.erase at herase
    split at herase
    · cases herase
      exact h.eraseRange p (p + 1)
    · cases herase
  | eraseUpTo p q =>
    obtain ⟨made, herase, hdone⟩ := bind_ok hstep
    cases hdone
    unfold AddrRangeMap.eraseUpTo at herase
    split at herase
    · cases herase
      exact h.eraseRange p q
    · cases herase
  | clear =>
    cases hstep
    exact h.eraseRange 0 tree.size

end

theorem empty : PlainDisjoint (OrderedMap.empty : AddrRangeMap V) :=
  ⟨fun _ hmem => absurd hmem not_mem_nil, fun _ hmem => absurd hmem not_mem_nil, .nil⟩

end PlainDisjoint

/-- As long as every range is sheltered when it is inserted, the stored ranges have
no address in common, and `find` and `insert` are exact for the ranges that
are sheltered then. -/
theorem run_disjoint_of_sheltered {ops : List (Op V)} {answers : List (Option Nat)}
    (hrun : (machine V).run .empty ops = .ok (answers, tree)) (hsteps : (machine V).StepsAll ShelteredStep .empty ops) :
    (tree.entries.Pairwise fun p q => ¬ Overlap p.1 q.1) ∧
      ∀ r : AddrRange, r.interleaved = false → r.valid = true → (tree.Exact r ↔ tree.Sheltered r) := by
  have hdisjoint : tree.PlainDisjoint :=
    Machine.run_invariant (fun _ _ _ _ h hop hstep => h.step hop hstep) .empty hsteps hrun
  exact ⟨hdisjoint.disjoint, fun r hr hv => hdisjoint.exact_iff hr hv⟩

/-- The insertion of the range between two addresses. -/
def insertPlain (start end_ : Addr) (h : start ≤ end_) : Op Unit :=
  .insert (.plain start end_) () (AddrRange.plain_interleaved start end_) (decide_eq_true h)

/-- Two ranges with a gap between them are inserted. -/
def insertApart : List (Op Unit) := [insertPlain 10 40 (by decide), insertPlain 60 90 (by decide)]

theorem run_disjoint_of_sheltered_apart : ∃ answers tree, (machine Unit).run .empty insertApart = .ok (answers, tree) ∧
      (tree.entries.Pairwise fun p q => ¬ Overlap p.1 q.1) ∧
      (tree.Exact (.plain 30 70) ↔ tree.Sheltered (.plain 30 70)) := by
  have hsteps : (machine Unit).StepsAll ShelteredStep .empty insertApart := by
    refine ⟨.inr (.inl fun _ hmem => absurd hmem not_mem_nil), ?_⟩
    intro answer after hfirst
    refine ⟨.inr (.inr ?_), fun _ _ _ => trivial⟩
    have hentries : (Except.ok after.entries : Result _) = .ok [(.plain 10 40, ())] := by
      have hmap := congrArg (Except.map fun result => result.2.entries) hfirst
      exact hmap.symm.trans (by decide +kernel)
    intro entry hmem hlt
    rw [Except.ok.inj hentries, mem_singleton] at hmem
    rw [hmem] at hlt
    exact absurd hlt (by decide)
  obtain ⟨⟨answers, tree⟩, hrun, -⟩ := map_ok
    (by decide +kernel : ((machine Unit).run .empty insertApart).map (fun result => result.1) = .ok [some 0, some 1])
  obtain ⟨hdisjoint, hexact⟩ := run_disjoint_of_sheltered hrun hsteps
  exact ⟨answers, tree, hrun, hdisjoint, hexact _ (AddrRange.plain_interleaved 30 70) (by decide)⟩

/-- A range that fills the end of the gap and more is not sheltered by the first
range, which does not reach it, and is stored over the second. -/
theorem run_overlapping : ((machine Unit).run .empty (insertApart ++ [insertPlain 50 70 (by decide)])).map
      (fun result => (result.1, result.2.entries.map fun entry => (entry.1.start, entry.1.end_))) =
      .ok ([some 0, some 1, some 1], [(10, 40), (50, 70), (60, 90)]) ∧ Overlap (.plain 50 70) (.plain 60 90) :=
  ⟨by decide +kernel, 65, by decide, by decide⟩

end Gem5.AddrRangeMap
