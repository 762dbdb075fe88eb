import Gem5.Pred.Indirect

open Lib Result List Function

namespace Gem5.IndirectPredictor

variable {PC Inst : Type} {p : Params}

/-- The entries that `getSetIndex` hashes, newest first. -/
def window (p : Params) (pathHist : List HistoryEntry) : List HistoryEntry :=
  pathHist.reverse.take p.pathLength.toNat

theorem hashPath_take (hash_shift position : Nat) (entries : List HistoryEntry) (hash : Addr) :
    hashPath p hash_shift position (entries.take (p.pathLength.toNat - position)) hash =
      hashPath p hash_shift position entries hash := by
  induction entries generalizing position hash with
  | nil => rw [take_nil]
  | cons entry older ih =>
    by_cases hlt : position < p.pathLength.toNat
    · have hsucc : p.pathLength.toNat - position = p.pathLength.toNat - (position + 1) + 1 := by omega
      rw [hsucc, take_succ_cons, hashPath, hashPath, if_pos hlt, if_pos hlt, ih]
    · have hzero : p.pathLength.toNat - position = 0 := by omega
      rw [hzero, take_zero, hashPath, hashPath, if_neg hlt]

/-- The set of a branch depends on the path through its window only. -/
theorem getSetIndex_eq_of_window (h : window p pathHist = window p other) (br_addr : Addr) (ghr : Unsigned) :
    getSetIndex p pathHist br_addr ghr = getSetIndex p other br_addr ghr := by
  have hhash : ∀ hash_shift hash,
      hashPath p hash_shift 0 pathHist.reverse hash = hashPath p hash_shift 0 other.reverse hash := by
    intro hash_shift hash
    have htake := congrArg (fun entries => hashPath p hash_shift 0 entries hash) h
    simpa only [window, Nat.sub_zero] using
      (hashPath_take hash_shift 0 pathHist.reverse hash).symm.trans
        (htake.trans (hashPath_take hash_shift 0 other.reverse hash))
  unfold getSetIndex
  simp only [hhash]

/-- Dropping the oldest entry of a path that is longer than the window. -/
theorem window_tail (h : p.pathLength.toNat < pathHist.length) : window p pathHist.tail = window p pathHist := by
  cases pathHist with
  | nil => rfl
  | cons oldest pathHist =>
    rw [length_cons, Nat.lt_succ_iff, ← length_reverse] at h
    rw [window, window, tail_cons, reverse_cons, take_append_of_le_length h]

/-- The set and the tag that `lookup` searches. -/
def lookupKey (p : Params) (ipred : State p PC) (br_addr : Addr) (ghr : Unsigned) (tid : ThreadID) :
    Result (Addr × Addr) := do
  let set_index ← getSetIndex p (ipred.threadInfo tid).pathHist br_addr ghr
  .ok (set_index, getTag p br_addr)

/-- The set and the tag that `recordTarget` writes. -/
def recordKey (p : Params) (ipred : State p PC) (ghr : Unsigned) (tid : ThreadID) : Result (Addr × Addr) :=
  match (ipred.threadInfo tid).pathHist.getLast? with
  | none => .error .dangling
  | some hist_entry => do
    let set_index ← getSetIndex p (ipred.threadInfo tid).pathHist.dropLast hist_entry.pcAddr ghr
    .ok (set_index, getTag p hist_entry.pcAddr)

/-- `found` is the target in the first way of the set that holds the tag. -/
def Searches (ipred : State p PC) (key : Addr × Addr) (found : Option PC) : Prop :=
  ∃ iset, Table.read ipred.targetCache key.1.toNat = .ok iset ∧
    found = (findWay iset key.2).map fun way => (iset.get way).target

/-- One way of the set is given the tag and the target, and no other way of the
cache changes. -/
def Writes (ipred ipred' : State p PC) (key : Addr × Addr) (target : PC) : Prop :=
  ∃ iset way iset', Table.read ipred.targetCache key.1.toNat = .ok iset ∧
    Table.write iset way ⟨key.2, target⟩ = .ok iset' ∧
    Table.write ipred.targetCache key.1.toNat iset' = .ok ipred'.targetCache

/-- `lookup` searches the set and the tag of its key. -/
theorem lookup_searches (h : lookup p ipred br_addr ghr tid = .ok found) :
    ∃ key, lookupKey p ipred br_addr ghr tid = .ok key ∧ Searches ipred key found := by
  obtain ⟨set_index, iset, hindex, hset, hdone⟩ := bind_ok₂ h
  cases hdone
  exact ⟨_, bind_of_ok hindex _, iset, readSet_eq_ok_iff.mp hset, rfl⟩

/-- `recordTarget` replaces a way of the set in its key, under the tag of the
key, and the target of the newest path entry. -/
theorem recordTarget_spec {isa : ISA PC Inst} {ipred ipred' : State p PC}
    (h : recordTarget isa p ipred ghr target tid rand = .ok ipred') : ∃ hist_entry set_index tag iset iset',
      (ipred.threadInfo tid).pathHist.getLast? = some hist_entry ∧ recordKey p ipred ghr tid = .ok (set_index, tag) ∧
      readSet p ipred set_index = .ok iset ∧ replaceWay iset tag target rand = .ok iset' ∧
      Table.write ipred.targetCache set_index.toNat iset' = .ok ipred'.targetCache ∧
      ipred'.threadInfo tid = { ipred.threadInfo tid with
        pathHist := (ipred.threadInfo tid).pathHist.dropLast ++
          [{ hist_entry with targetAddr := isa.instAddr target }] } := by
  unfold recordTarget at h
  cases hlast : (ipred.threadInfo tid).pathHist.getLast? with
  | none =>
    simp only [hlast] at h
    cases h
  | some hist_entry =>
    simp only [hlast] at h
    obtain ⟨set_index, iset, iset', hindex, hset, hreplace, hrest⟩ := bind_ok₃ h
    obtain ⟨targetCache, hwrite, hdone⟩ := bind_ok hrest
    cases hdone
    refine ⟨hist_entry, set_index, _, iset, iset', rfl, ?_, hset, hreplace, hwrite, ?_⟩
    · simp only [recordKey, hlast]
      exact bind_of_ok hindex _
    · simp only [State.setThreadInfo, update_self]

theorem recordTarget_writes {isa : ISA PC Inst} (h : recordTarget isa p ipred ghr target tid rand = .ok ipred')
    (hkey : recordKey p ipred ghr tid = .ok key) : Writes ipred ipred' key target := by
  obtain ⟨_, set_index, tag, iset, iset', -, hrecord, hset, hreplace, hwrite, -⟩ := recordTarget_spec h
  obtain rfl := Except.ok.inj (hkey.symm.trans hrecord)
  obtain ⟨way, hway⟩ := replaceWay_ok hreplace
  exact ⟨iset, way, iset', readSet_eq_ok_iff.mp hset, hway, hwrite⟩

/-- A commit drops the oldest path entry only while a committed entry stands
behind a whole window. -/
theorem commit_pathHist (ipred : State p PC) (seq_num : InstSeqNum) (tid : ThreadID) :
    ((commit p ipred seq_num tid).threadInfo tid).pathHist = (ipred.threadInfo tid).pathHist ∨
      ((commit p ipred seq_num tid).threadInfo tid).pathHist = (ipred.threadInfo tid).pathHist.tail ∧
        ∃ position head, p.pathLength.toNat ≤ position ∧
          (ipred.threadInfo tid).pathHist[position]? = some head ∧ head.seqNum ≤ seq_num := by
  unfold commit
  cases hhead : (ipred.threadInfo tid).pathHist[(ipred.threadInfo tid).headHistEntry]? with
  | none =>
    simp only [hhead]
    exact .inl trivial
  | some head =>
    simp only [hhead]
    by_cases hdone : head.seqNum ≤ seq_num
    · by_cases hlength : (ipred.threadInfo tid).headHistEntry ≥ p.pathLength.toNat
      · simp only [if_pos hdone, if_pos hlength, State.setThreadInfo, update_self]
        exact .inr ⟨trivial, _, head, hlength, hhead, hdone⟩
      · simp only [if_pos hdone, if_neg hlength, State.setThreadInfo, update_self]
        exact .inl trivial
    · simp only [if_neg hdone]
      exact .inl trivial

/-- The entries of a path are in the order of their sequence numbers. -/
def InOrder (pathHist : List HistoryEntry) : Prop :=
  pathHist.Pairwise fun older younger => older.seqNum < younger.seqNum

/-- The path has the entry of a branch, behind the window `hashed`. -/
def Recorded (p : Params) (pathHist : List HistoryEntry) (br_addr : Addr) (seq_num : InstSeqNum)
    (hashed : List HistoryEntry) : Prop :=
  ∃ older hist_entry younger, pathHist = older ++ hist_entry :: younger ∧ hist_entry.pcAddr = br_addr ∧
    hist_entry.seqNum = seq_num ∧ window p older = hashed

section

variable {pathHist hashed : List HistoryEntry} {br_addr : Addr} {seq_num : InstSeqNum}

section

variable (h : Recorded p pathHist br_addr seq_num hashed)
include h

theorem Recorded.append (newer : List HistoryEntry) : Recorded p (pathHist ++ newer) br_addr seq_num hashed := by
  obtain ⟨older, hist_entry, younger, rfl, hentry⟩ := h
  refine ⟨older, hist_entry, younger ++ newer, ?_, hentry⟩
  rw [append_assoc, cons_append]

/-- Squashing to the branch or to a younger one. -/
theorem Recorded.takeWhile (hpath : InOrder pathHist) (hle : seq_num ≤ squashed_sn) :
    Recorded p (pathHist.takeWhile fun entry => entry.seqNum ≤ squashed_sn) br_addr seq_num hashed := by
  obtain ⟨older, hist_entry, younger, rfl, hpc, rfl, hwindow⟩ := h
  refine ⟨older, hist_entry, younger.takeWhile fun entry => entry.seqNum ≤ squashed_sn, ?_, hpc, rfl, hwindow⟩
  have holder : ∀ entry ∈ older, decide (entry.seqNum ≤ squashed_sn) = true := by
    intro entry hmem
    have hlt := (pairwise_append.mp hpath).2.2 entry hmem hist_entry mem_cons_self
    exact decide_eq_true (Nat.le_of_lt (Nat.lt_of_lt_of_le hlt hle))
  have hentry : decide (hist_entry.seqNum ≤ squashed_sn) = true := decide_eq_true hle
  rw [takeWhile_append_of_pos holder, takeWhile_cons, hentry, if_pos rfl]

/-- Dropping the oldest entry while a committed one stands behind a whole
window: the entry of a branch in flight is younger still. -/
theorem Recorded.tail (hpath : InOrder pathHist)
    {head : HistoryEntry} (hlength : p.pathLength.toNat ≤ position) (hhead : pathHist[position]? = some head)
    (hlt : head.seqNum < seq_num) : Recorded p pathHist.tail br_addr seq_num hashed := by
  obtain ⟨older, hist_entry, younger, rfl, hpc, rfl, rfl⟩ := h
  have hposition : position < older.length := by
    by_contra hge
    rw [getElem?_append_right (by omega)] at hhead
    rcases mem_cons.mp (mem_of_getElem? hhead) with rfl | hmem
    · exact Nat.lt_irrefl _ hlt
    · have hyounger := (pairwise_cons.mp (pairwise_append.mp hpath).2.1).1 head hmem
      exact Nat.lt_asymm hlt hyounger
  have hne : older ≠ [] := by
    rintro rfl
    exact absurd hposition (Nat.not_lt_zero _)
  refine ⟨older.tail, hist_entry, younger, ?_, hpc, rfl, window_tail (by omega)⟩
  rw [tail_append_of_ne_nil hne]

/-- Correcting the target of the newest entry. -/
theorem Recorded.retarget (hlast : pathHist.getLast? = some newest)
    (targetAddr : Addr) : Recorded p (pathHist.dropLast ++ [{ newest with targetAddr }]) br_addr seq_num hashed := by
  obtain ⟨older, hist_entry, younger, rfl, hpc, hsn, hwindow⟩ := h
  cases younger with
  | nil =>
    rw [getLast?_append_of_ne_nil _ (cons_ne_nil _ _), getLast?_singleton] at hlast
    obtain rfl := Option.some.inj hlast
    refine ⟨older, { hist_entry with targetAddr }, [], ?_, hpc, hsn, hwindow⟩
    rw [dropLast_concat]
  | cons next younger =>
    refine ⟨older, hist_entry, (next :: younger).dropLast ++ [{ newest with targetAddr }], ?_, hpc, hsn, hwindow⟩
    rw [dropLast_append_of_ne_nil (cons_ne_nil _ _), dropLast_cons_of_ne_nil (cons_ne_nil _ _),
      append_assoc, cons_append]

/-- The newest entry of a path that was squashed to the branch is its own, and
the rest is the path from the window on. -/
theorem Recorded.newest (hpath : InOrder pathHist) (hsquashed : ∀ entry ∈ pathHist, entry.seqNum ≤ seq_num) :
    ∃ hist_entry, pathHist.getLast? = some hist_entry ∧ hist_entry.pcAddr = br_addr ∧
      hist_entry.seqNum = seq_num ∧ window p pathHist.dropLast = hashed := by
  obtain ⟨older, hist_entry, younger, rfl, hpc, rfl, hwindow⟩ := h
  cases younger with
  | nil =>
    refine ⟨hist_entry, ?_, hpc, rfl, ?_⟩
    · rw [getLast?_append_of_ne_nil _ (cons_ne_nil _ _), getLast?_singleton]
    · rw [dropLast_concat, hwindow]
  | cons next younger =>
    have hlt := (pairwise_cons.mp (pairwise_append.mp hpath).2.1).1 next mem_cons_self
    have hle := hsquashed next (by simp)
    exact absurd hlt (Nat.not_lt.mpr hle)

end

theorem InOrder.retarget (h : InOrder pathHist) (hlast : pathHist.getLast? = some newest) (targetAddr : Addr) :
    InOrder (pathHist.dropLast ++ [{ newest with targetAddr }]) := by
  have hpath : pathHist = pathHist.dropLast ++ [newest] := (dropLast_append_getLast? newest hlast).symm
  rw [hpath] at h
  obtain ⟨holder, -, hlt⟩ := pairwise_append.mp h
  refine pairwise_append.mpr ⟨holder, pairwise_singleton .., ?_⟩
  intro older hmem entry hentry
  rw [mem_singleton.mp hentry]
  exact hlt older hmem newest (mem_singleton_self _)

end

/-- When the newest entry is the one of the branch, behind the window it was
predicted with, its target goes where the branch was looked up. -/
theorem recordKey_eq_lookupKey (hlast : (ipred.threadInfo tid).pathHist.getLast? = some hist_entry)
    (hwindow : window p (ipred.threadInfo tid).pathHist.dropLast = window p (predicted.threadInfo tid).pathHist)
    (ghr : Unsigned) : recordKey p ipred ghr tid = lookupKey p predicted hist_entry.pcAddr ghr tid := by
  simp only [recordKey, hlast, lookupKey, getSetIndex_eq_of_window hwindow]

end Gem5.IndirectPredictor
