import Gem5.Pred.LTAGE.Model

open Lib Result BitVec Table

namespace Gem5.LTAGE

variable {p : Params} {s s' : State p} {tid : ThreadID} {pc : Addr} {taken : Bool} {bi : BranchInfo p}

/-- The tag by which `getLoop` looks a branch up. -/
def Params.ltag (p : Params) (pc : Addr) : BitVec 32 := (shr pc (p.logSizeLoopPred - 2).toNat).setWidth 32

/-- The direction that `predict` finds for a conditional branch, before it changes
anything. -/
def direction (p : Params) (s : State p) (tid : ThreadID) (pc : Addr) : Result Bool := do
  let bi ← tagePredict p s tid pc (.initial p true)
  let (loopPred, bi) ← getLoop p s pc bi
  .ok (if s.loopUseCounter.toInt ≥ 0 ∧ bi.loopPredValid then loopPred else bi.tagePred)

/-- The search finds the first entry with the tag. -/
theorem findLoop_eq_some_iff : findLoop p s loopIndex loopTag (List.range' start count) = .ok (some (way, entry)) ↔
      (start ≤ way ∧ way < start + count) ∧
        (read s.ltable (loopIndex.toNat + way) = .ok entry ∧ entry.tag.setWidth 32 = loopTag) ∧
        ∀ i, start ≤ i → i < way → ∃ other, read s.ltable (loopIndex.toNat + i) = .ok other ∧
          other.tag.setWidth 32 ≠ loopTag := by
  induction count generalizing start with
  | zero =>
    constructor
    · intro h
      cases h
    · rintro ⟨hway, -⟩
      omega
  | succ count ih =>
    rw [List.range'_succ]
    cases hread : read s.ltable (loopIndex.toNat + start) with
    | error fault =>
      rw [findLoop, bind_of_error hread]
      refine iff_of_false (fun h => by cases h) ?_
      rintro ⟨hway, ⟨hentry, -⟩, hbefore⟩
      rcases hway.1.eq_or_lt with rfl | hlt
      · rw [hread] at hentry
        cases hentry
      · obtain ⟨other, hother, -⟩ := hbefore start le_rfl hlt
        rw [hread] at hother
        cases hother
    | ok found =>
      rw [findLoop, bind_of_ok hread]
      by_cases htag : found.tag.setWidth 32 = loopTag
      · rw [if_pos htag]
        constructor
        · intro h
          cases h
          exact ⟨⟨le_rfl, by omega⟩, ⟨hread, htag⟩, fun i hle hlt => absurd hle (by omega)⟩
        · rintro ⟨hway, ⟨hentry, -⟩, hbefore⟩
          rcases hway.1.eq_or_lt with rfl | hlt
          · rw [hread] at hentry
            cases hentry
            rfl
          obtain ⟨other, hother, hne⟩ := hbefore start le_rfl hlt
          rw [hread] at hother
          cases hother
          exact absurd htag hne
      · rw [if_neg htag, ih]
        constructor
        · rintro ⟨hway, hentry, hbefore⟩
          refine ⟨by omega, hentry, fun i hle hlt => ?_⟩
          rcases hle.eq_or_lt with rfl | hle
          · exact ⟨found, hread, htag⟩
          · exact hbefore i hle hlt
        · rintro ⟨hway, ⟨hentry, hmatch⟩, hbefore⟩
          have hne : start ≠ way := by
            rintro rfl
            rw [hread] at hentry
            cases hentry
            exact htag hmatch
          exact ⟨by omega, ⟨hentry, hmatch⟩, fun i hle hlt => hbefore i (by omega) hlt⟩

theorem getLoop_eq (h : getLoop p s pc bi = .ok (loopPred, bi')) :
    bi'.loopIndex = p.lindex pc ∧ bi'.loopTag = p.ltag pc ∧ bi'.condBranch = bi.condBranch ∧
      ((findLoop p s (p.lindex pc) (p.ltag pc) (List.range' 0 4) = .ok none ∧ bi'.loopHit = -1) ∨
        ∃ way entry, findLoop p s (p.lindex pc) (p.ltag pc) (List.range' 0 4) = .ok (some (way, entry)) ∧
          bi'.loopHit = way ∧ bi'.currentIter = entry.currentIterSpec) := by
  obtain ⟨found, hfind, h⟩ := bind_ok h
  cases found with
  | none =>
    cases h
    exact ⟨rfl, rfl, rfl, .inl ⟨hfind, rfl⟩⟩
  | some hit =>
    cases h
    exact ⟨rfl, rfl, rfl, .inr ⟨hit.1, hit.2, hfind, rfl, rfl⟩⟩

theorem tagePredict_condBranch (h : tagePredict p s tid pc bi = .ok bi') : bi'.condBranch = bi.condBranch := by
  simp only [tagePredict, bind_eq_ok_iff] at h
  obtain ⟨hitBank, -, hitBankIndex, -, altBank, -, altBankIndex, -, h⟩ := h
  split at h <;> simp only [bind_eq_ok_iff] at h
  · obtain ⟨_, -, _, -, hdone⟩ := h
    cases hdone
    rfl
  · obtain ⟨_, -, hdone⟩ := h
    cases hdone
    rfl

/-- What `specLoopUpdate` makes of an entry. -/
def LoopEntry.speculate (taken : Bool) (entry : LoopEntry) : LoopEntry :=
  { entry with currentIterSpec := if taken ≠ entry.dir then 0 else entry.currentIterSpec + 1 }

/-- The count of an entry stays only where it starts again from 0. -/
theorem LoopEntry.speculate_currentIterSpec_eq_iff {entry : LoopEntry} :
    (entry.speculate taken).currentIterSpec = entry.currentIterSpec ↔
      entry.currentIterSpec = 0 ∧ entry.dir ≠ taken := by
  rw [speculate]
  by_cases hdir : entry.dir = taken
  · simp [hdir]
  · simp only [ne_eq, hdir, Ne.symm hdir, not_false_eq_true, if_true, and_true]
    exact eq_comm

theorem LoopEntry.speculate_eq_self {entry : LoopEntry}
    (h : (entry.speculate taken).currentIterSpec = entry.currentIterSpec) : entry.speculate taken = entry := by
  cases entry
  simpa [speculate] using h

/-- A lookup records which entry of the loop table it hit, and counts in the first
one of the set. -/
theorem lookup_loop (h : lookup p s tid pc = .ok (taken, bi, s')) :
    direction p s tid pc = .ok taken ∧ bi.loopIndex = p.lindex pc ∧ bi.loopTag = p.ltag pc ∧ bi.condBranch = true ∧
      ((findLoop p s (p.lindex pc) (p.ltag pc) (List.range' 0 4) = .ok none ∧ bi.loopHit = -1 ∧ s'.ltable = s.ltable) ∨
        ∃ way entry, findLoop p s (p.lindex pc) (p.ltag pc) (List.range' 0 4) = .ok (some (way, entry)) ∧
          bi.loopHit = way ∧ bi.currentIter = entry.currentIterSpec ∧
          modify s.ltable (p.lindex pc).toNat (LoopEntry.speculate taken) = .ok s'.ltable) := by
  obtain ⟨⟨_, found, predicted⟩, hpredict, h⟩ := bind_ok h
  obtain ⟨⟨_, tHist⟩, -, h⟩ := bind_ok h
  obtain ⟨_, -, hdone⟩ := bind_ok h
  cases hdone
  obtain ⟨⟨_, _⟩, hpred, hpredict⟩ := bind_ok hpredict
  obtain ⟨_, hspec, hdone⟩ := bind_ok hpredict
  cases hdone
  rw [if_pos rfl] at hpred
  obtain ⟨tage, ⟨loopPred, looped⟩, htage, hloop, hdone⟩ := bind_ok₂ hpred
  cases hdone
  obtain ⟨hindex, htag, hcond, hhit⟩ := getLoop_eq hloop
  refine ⟨?_, hindex, htag, hcond.trans (tagePredict_condBranch htage), ?_⟩
  · exact bind_eq_ok_iff.mpr ⟨tage, htage, bind_eq_ok_iff.mpr ⟨(loopPred, looped), hloop, rfl⟩⟩
  · rcases hhit with ⟨hfind, hmiss⟩ | ⟨way, entry, hfind, hhit, hiter⟩
    · rw [specLoopUpdate, if_neg (by simp [hmiss])] at hspec
      cases hspec
      exact .inl ⟨hfind, hmiss, rfl⟩
    · rw [specLoopUpdate, if_pos (by simp [hhit])] at hspec
      obtain ⟨ltable, hmodify, hdone⟩ := bind_ok hspec
      cases hdone
      exact .inr ⟨way, entry, hfind, hhit, hiter, hmodify⟩

/-- The only entry of the loop table whose speculative count differs is the one
that the branch hit. -/
def CountsInHit (s s' : State p) (bi : BranchInfo p) : Prop :=
  ∀ i, ∀ hi : i < p.ltableSize, s'.ltable[i].currentIterSpec ≠ s.ltable[i].currentIterSpec →
    0 ≤ bi.loopHit ∧ (i : Int) = bi.loopIndex.toNat + bi.loopHit ∧ s.ltable[i].tag.setWidth 32 = bi.loopTag

/-- The first entry with the tag of the branch is the first of its set, or the
count of the first one starts again from 0 and was there already. -/
def CountsWhereFound (p : Params) (s : State p) (tid : ThreadID) (pc : Addr) : Prop :=
  ∀ way entry, findLoop p s (p.lindex pc) (p.ltag pc) (List.range' 0 4) = .ok (some (way, entry)) → way = 0 ∨
    ∃ first taken, Table.read s.ltable (p.lindex pc).toNat = .ok first ∧ direction p s tid pc = .ok taken ∧
      first.currentIterSpec = 0 ∧ first.dir ≠ taken

/-- A branch that is looked up and squashed leaves the loop table as it was, and
the lookup counts in the entry it hit, exactly when the entry that
`specLoopUpdate` counts in is the one that was hit or does not change. -/
theorem squash_restores_loops_iff (s : State p) (tid : ThreadID) (pc : Addr) (taken : Bool) (bi : BranchInfo p)
    (s' : State p) (h : lookup p s tid pc = .ok (taken, bi, s')) :
    ((∃ last, (predictor p).squash s' tid bi = .ok last ∧ last.ltable = s.ltable) ∧ CountsInHit s s' bi) ↔
      CountsWhereFound p s tid pc := by
  obtain ⟨hdirection, hindex, htag, hcond, hhit⟩ := lookup_loop h
  rcases hhit with ⟨hfind, hmiss, hsame⟩ | ⟨way, entry, hfind, hway, hiter, hmodify⟩
  · -- nothing was hit: neither the lookup nor the squash writes
    have hsquash : (predictor p).squash s' tid bi = .ok s' := if_neg (by simp [hmiss])
    refine iff_of_true ⟨⟨s', hsquash, hsame⟩, ?_⟩ ?_
    · intro i hi hne
      rw [hsame] at hne
      exact absurd rfl hne
    · intro way entry hother
      rw [hfind] at hother
      cases hother
  · obtain ⟨-, ⟨hread, hentry⟩, -⟩ := findLoop_eq_some_iff.mp hfind
    obtain ⟨hlt, rfl⟩ := Table.read_eq_ok_iff.mp hread
    obtain ⟨hfirst, htable⟩ := Table.modify_eq_ok_iff.mp hmodify
    have hsquash : (predictor p).squash s' tid bi = .ok { s' with
        ltable := (s'.ltable.set ((p.lindex pc).toNat + way) { s'.ltable[(p.lindex pc).toNat + way] with
          currentIterSpec := s.ltable[(p.lindex pc).toNat + way].currentIterSpec }) } := by
      change restoreIter p s' bi = _
      rw [restoreIter, if_pos ⟨hcond, by simp [hway]⟩, hindex, hway, hiter, Int.toNat_natCast,
        bind_of_ok (Table.modify_of_lt _ hlt _)]
    rw [hsquash]
    have hfound : CountsWhereFound p s tid pc ↔ way = 0 ∨
        (s.ltable[(p.lindex pc).toNat].speculate taken).currentIterSpec =
        s.ltable[(p.lindex pc).toNat].currentIterSpec := by
      rw [LoopEntry.speculate_currentIterSpec_eq_iff]
      constructor
      · intro hcounts
        refine (hcounts way _ hfind).imp_right ?_
        rintro ⟨first, other, hread, hother, hcount⟩
        rw [Table.read_of_lt _ hfirst] at hread
        rw [hdirection] at hother
        cases hread
        cases hother
        exact hcount
      · intro hcount other entry hother
        rw [hfind] at hother
        cases hother
        exact hcount.imp_right fun hcount => ⟨_, taken, Table.read_of_lt _ hfirst, hdirection, hcount⟩
    rw [hfound]
    by_cases hzero : way = 0
    · -- the entry that was counted in gets its count back
      subst hzero
      refine iff_of_true ⟨⟨_, rfl, ?_⟩, ?_⟩ (.inl rfl)
      · simp only [← htable, Nat.add_zero, Vector.getElem_set_self, Vector.set_set]
        exact Vector.set_getElem_self hfirst
      · intro i hi hne
        by_cases heq : (p.lindex pc).toNat = i
        · subst heq
          exact ⟨by simp [hway], by simp [hindex, hway], htag ▸ hentry⟩
        · rw [← htable, Vector.getElem_set_ne hfirst hi heq] at hne
          exact absurd rfl hne
    · simp only [hzero, false_or]
      constructor
      · rintro ⟨-, hcounts⟩
        by_contra hne
        have hhit := (hcounts _ hfirst (by simpa only [← htable, Vector.getElem_set_self] using hne)).2.1
        rw [hindex, hway] at hhit
        omega
      · intro hsame
        -- the count of the first entry stays, so that nothing changes
        have hall : s'.ltable = s.ltable := by
          rw [← htable, LoopEntry.speculate_eq_self hsame]
          exact Vector.set_getElem_self hfirst
        refine ⟨⟨_, rfl, ?_⟩, ?_⟩
        · simp only [hall]
          exact Vector.set_getElem_self hlt
        · intro i hi hne
          rw [hall] at hne
          exact absurd rfl hne

theorem squash_restores_first_loop :
    ∃ taken bi s', lookup smallParams (.initial smallParams fun _ => 0) 0 0 = .ok (taken, bi, s') ∧
    (∃ last, (predictor smallParams).squash s' 0 bi = .ok last ∧
      last.ltable = (State.initial smallParams fun _ => 0).ltable) ∧
    CountsInHit (.initial smallParams fun _ => 0) s' bi := by
  have hreturns : (lookup smallParams (.initial smallParams fun _ => 0) 0 0).map (fun _ => ()) =
    .ok () := by decide +kernel
  obtain ⟨⟨taken, bi, s'⟩, hlookup, -⟩ := map_ok hreturns
  refine ⟨taken, bi, s', hlookup, (squash_restores_loops_iff _ 0 0 _ _ _ hlookup).mpr ?_⟩
  intro way entry hfind
  have hfirst : findLoop smallParams (.initial smallParams fun _ => 0) (smallParams.lindex 0) (smallParams.ltag 0)
    (List.range' 0 4) =
      .ok (some (0, .initial)) := by decide +kernel
  rw [hfirst] at hfind
  cases hfind
  exact .inl rfl

/-- The branch at 5 gets the second entry of its set. After a lookup of the branch
at 0, which counts in the first entry, its own lookup sets that count back to 0,
and the squash does not restore it. -/
theorem squash_loses_count_of_other_loop :
    (do
      let (_, bi, s) ← lookup smallParams (.initial smallParams fun _ => 1) 0 5
      let s ← update smallParams s 0 true bi false
      let (_, _, s) ← lookup smallParams s 0 0
      let (_, bi, looked) ← lookup smallParams s 0 5
      let last ← (predictor smallParams).squash looked 0 bi
      .ok (bi.loopHit, s.ltable.toList.map LoopEntry.currentIterSpec,
        last.ltable.toList.map LoopEntry.currentIterSpec)) =
    (.ok (1, [1, 0, 0, 0], [0, 0, 0, 0]) : Result (Int × List (BitVec 16) × List (BitVec 16))) := by
  decide +kernel

/-- What the tries of `loopUpdate` that find no free entry do to an entry. -/
def LoopEntry.AgesTo (before after : LoopEntry) : Prop := after.tag = before.tag ∧ (before.age = 0 → after.age = 0)

theorem LoopEntry.AgesTo.trans {a b c : LoopEntry} (hab : a.AgesTo b) (hbc : b.AgesTo c) : a.AgesTo c :=
  ⟨hbc.1.trans hab.1, fun h => hbc.2 (hab.2 h)⟩

/-- The allocation ages the entries that it passes, and gives its tag to at most one
of the set. -/
theorem allocateLoop_spec (h : allocateLoop p taken bi nrand tries before = .ok after) :
    (∀ i, ∀ hi : i < p.ltableSize, before[i].AgesTo after[i]) ∨
      ∃ way entry, way < 4 ∧ read after (bi.loopIndex.toNat + way) = .ok entry ∧
        entry.tag = bi.loopTag.setWidth 16 ∧
        ∀ i, ∀ hi : i < p.ltableSize, bi.loopIndex.toNat + way ≠ i → before[i].AgesTo after[i] := by
  induction tries generalizing before with
  | nil =>
    cases h
    exact .inl fun i hi => ⟨rfl, id⟩
  | cons try_ later ih =>
    obtain ⟨entry, hread, h⟩ := bind_ok h
    obtain ⟨hlt, rfl⟩ := read_eq_ok_iff.mp hread
    split at h
    · obtain ⟨-, rfl⟩ := write_eq_ok_iff.mp h
      refine .inr ⟨_, _, ?_, read_of_lt _ hlt, by rw [Vector.getElem_set_self], fun i hi hne => ?_⟩
      · rw [toNat_and]
        exact Nat.lt_of_le_of_lt Nat.and_le_right (by decide)
      · rw [Vector.getElem_set_ne _ _ hne]
        exact ⟨rfl, id⟩
    · rename_i hage
      obtain ⟨older, hwrite, h⟩ := bind_ok h
      obtain ⟨_, hset⟩ := write_eq_ok_iff.mp hwrite
      have holder : ∀ i, ∀ hi : i < p.ltableSize, before[i].AgesTo older[i] := by
        intro i hi
        rw [← hset, Vector.getElem_set]
        split
        · rename_i heq
          subst heq
          exact ⟨rfl, fun hzero => absurd hzero hage⟩
        · exact ⟨rfl, id⟩
      rcases ih h with hall | ⟨way, entry, hway, hread, htag, hothers⟩
      · exact .inl fun i hi => (holder i hi).trans (hall i hi)
      · exact .inr ⟨way, entry, hway, hread, htag, fun i hi hne => (holder i hi).trans (hothers i hi hne)⟩

/-- An update after a hit does not bring a free entry to its full age at once. -/
theorem LoopEntry.loopUpdate_age {entry : LoopEntry} (h : entry.age = 0) :
    (entry.loopUpdate taken loopPredValid loopPred tagePred).age ≠ 7 := by
  unfold loopUpdate
  grind

/-- The loop entry `i` gets allocated. -/
def Allocated (s s' : State p) (i : Nat) : Prop := ∃ _ : i < p.ltableSize, s.ltable[i].age = 0 ∧ s'.ltable[i].age = 7

/-- `getLoop` hits the loop entry `i`. -/
def HitsLoop (s : State p) (pc : Addr) (bi : BranchInfo p) (i : Nat) : Prop :=
  ∃ loopPred bi', getLoop p s pc bi = .ok (loopPred, bi') ∧ 0 ≤ bi'.loopHit ∧ bi'.loopIndex.toNat + bi'.loopHit = i

theorem hitsLoop_iff (hway : way < 4) : HitsLoop s pc bi ((p.lindex pc).toNat + way) ↔
    ∃ entry, (read s.ltable ((p.lindex pc).toNat + way) = .ok entry ∧ entry.tag.setWidth 32 = p.ltag pc) ∧
      ∀ i < way, ∃ other, read s.ltable ((p.lindex pc).toNat + i) = .ok other ∧ other.tag.setWidth 32 ≠ p.ltag pc := by
  constructor
  · rintro ⟨loopPred, bi', hloop, hhit, heq⟩
    obtain ⟨hindex, -, -, ⟨-, hmiss⟩ | ⟨found, entry, hfind, hfound, -⟩⟩ := getLoop_eq hloop
    · rw [hmiss] at hhit
      cases hhit
    obtain rfl : found = way := by
      rw [hindex, hfound] at heq
      omega
    obtain ⟨-, hentry, hbefore⟩ := findLoop_eq_some_iff.mp hfind
    exact ⟨entry, hentry, fun i hlt => hbefore i (Nat.zero_le i) hlt⟩
  · rintro ⟨entry, hentry, hbefore⟩
    have hfind : findLoop p s (p.lindex pc) (p.ltag pc) (List.range' 0 4) = .ok (some (way, entry)) :=
      findLoop_eq_some_iff.mpr ⟨⟨Nat.zero_le way, by omega⟩, hentry, fun i _ hlt => hbefore i hlt⟩
    exact ⟨_, _, bind_of_ok hfind _, Int.natCast_nonneg way, rfl⟩

/-- The tag of the branch fits into the entries, and no free entry of its set stands
behind one that has the tag. -/
def FindsAllocated (p : Params) (s : State p) (pc : Addr) : Prop :=
  ∀ way < 4, ∀ entry, Table.read s.ltable ((p.lindex pc).toNat + way) = .ok entry → entry.age = 0 →
    (p.ltag pc).toNat < 2 ^ 16 ∧
      ∀ i < way, ∀ other, Table.read s.ltable ((p.lindex pc).toNat + i) = .ok other → other.tag.setWidth 32 ≠ p.ltag pc

theorem setWidth_setWidth_eq_iff {tag : BitVec 32} : (tag.setWidth 16).setWidth 32 = tag ↔ tag.toNat < 2 ^ 16 := by
  rw [← toNat_inj, toNat_setWidth, toNat_setWidth]
  omega

/-- An allocated loop entry is hit by the next `getLoop`, whatever entry the random
number selects, exactly when the tag of the branch fits into 16 bits and no entry
in front of a free one has it. -/
theorem getLoop_hits_allocated_iff (s : State p) (pc : Addr) (taken : Bool) (bi : BranchInfo p)
    (hindex : bi.loopIndex = p.lindex pc) (htag : bi.loopTag = p.ltag pc) :
    (∀ random_mt s' i, loopUpdate p { s with random_mt } taken bi = .ok s' → Allocated s s' i → HitsLoop s' pc bi i) ↔
      (taken = true → bi.loopHit < 0 → FindsAllocated p s pc) := by
  constructor
  · intro hhits htaken hmiss way hway entry hread hage
    obtain ⟨hlt, rfl⟩ := Table.read_eq_ok_iff.mp hread
    have hfirst : ((BitVec.ofNat 32 way + BitVec.ofNat 32 0) &&& 3).toNat = way := by interval_cases way <;> rfl
    -- the random number selects this entry
    obtain ⟨fresh, hfresh, hage', halloc⟩ : ∃ fresh : LoopEntry, fresh.tag = (p.ltag pc).setWidth 16 ∧ fresh.age = 7 ∧
        allocateLoop p taken bi (BitVec.ofNat 32 way) [0, 1, 2, 3] s.ltable =
          .ok (s.ltable.set ((p.lindex pc).toNat + way) fresh) := by
      refine ⟨{ s.ltable[(p.lindex pc).toNat + way] with
        dir := !taken, tag := (p.ltag pc).setWidth 16, numIter := 0, age := 7, confidence := 0,
        currentIter := 1 }, rfl, rfl, ?_⟩
      simp only [allocateLoop, hfirst, hindex, htag]
      rw [bind_of_ok hread, if_pos hage, Table.write_of_lt _ hlt]
    have hupdate : loopUpdate p { s with random_mt := fun _ => BitVec.ofNat 32 way } taken bi = .ok { s with
        ltable := s.ltable.set ((p.lindex pc).toNat + way) fresh, random_mt := fun _ => BitVec.ofNat 32 way } := by
      rw [loopUpdate, if_neg (by omega), if_pos htaken]
      exact bind_of_ok halloc _
    have hhit := hhits _ _ _ hupdate ⟨hlt, hage, by simpa using hage'⟩
    obtain ⟨entry, ⟨hentry, hmatch⟩, hbefore⟩ := (hitsLoop_iff hway).mp hhit
    rw [Table.read_of_lt _ hlt, Vector.getElem_set_self] at hentry
    cases hentry
    rw [hfresh] at hmatch
    refine ⟨setWidth_setWidth_eq_iff.mp hmatch, fun i hi other hother => ?_⟩
    obtain ⟨hlt', rfl⟩ := Table.read_eq_ok_iff.mp hother
    obtain ⟨other, hother, hne⟩ := hbefore i hi
    rw [Table.read_of_lt _ hlt', Vector.getElem_set_ne _ _ (by omega)] at hother
    cases hother
    exact hne
  · intro hfinds random_mt s' i hupdate hallocated
    obtain ⟨hlt, hage, hage'⟩ := hallocated
    unfold loopUpdate at hupdate
    split at hupdate
    · obtain ⟨ltable, hmodify, hdone⟩ := bind_ok hupdate
      cases hdone
      obtain ⟨_, rfl⟩ := Table.modify_eq_ok_iff.mp hmodify
      rw [Vector.getElem_set] at hage'
      split at hage'
      · rename_i heq
        subst heq
        exact absurd hage' (LoopEntry.loopUpdate_age hage)
      · rw [hage] at hage'
        cases hage'
    · rename_i hmiss
      split at hupdate
      · rename_i htaken
        obtain ⟨ltable, halloc, hdone⟩ := bind_ok hupdate
        cases hdone
        rcases allocateLoop_spec halloc with hall | ⟨way, entry, hway, hread, hentry, hothers⟩
        · rw [(hall i hlt).2 hage] at hage'
          cases hage'
        rw [hindex] at hread hothers
        by_cases heq : (p.lindex pc).toNat + way = i
        · subst heq
          obtain ⟨hfits, hbefore⟩ := hfinds htaken (by omega) way hway _ (Table.read_of_lt _ hlt) hage
          refine (hitsLoop_iff hway).mpr ⟨entry, ⟨hread, ?_⟩, fun j hj => ?_⟩
          · rw [hentry, htag]
            exact setWidth_setWidth_eq_iff.mpr hfits
          · have hlt' : (p.lindex pc).toNat + j < p.ltableSize := by omega
            refine ⟨_, Table.read_of_lt _ hlt', ?_⟩
            rw [(hothers _ hlt' (by omega)).1]
            exact hbefore j hj _ (Table.read_of_lt _ hlt')
        · rw [(hothers i hlt heq).2 hage] at hage'
          cases hage'
      · cases hupdate
        rw [hage] at hage'
        cases hage'

/-- What is recorded for the branch at 5, which is not in the table. -/
def smallMiss : BranchInfo smallParams :=
  { BranchInfo.initial smallParams true with loopIndex := smallParams.lindex 5, loopTag := smallParams.ltag 5 }

theorem getLoop_hits_allocated_small :
    ∃ s', loopUpdate smallParams (.initial smallParams fun _ => 0) true smallMiss = .ok s' ∧
    Allocated (.initial smallParams fun _ => 0) s' 0 ∧ HitsLoop s' 5 smallMiss 0 := by
  have hrun : (loopUpdate smallParams (.initial smallParams fun _ => 0) true smallMiss).map
      (fun s' => (s'.ltable.get ⟨0, by decide⟩).age) = .ok 7 := by decide +kernel
  obtain ⟨s', hupdate, hage⟩ := map_ok hrun
  have hallocated : Allocated (.initial smallParams fun _ => 0) s' 0 := ⟨by decide, rfl, hage⟩
  refine ⟨s', hupdate, hallocated,
    (getLoop_hits_allocated_iff _ 5 true smallMiss rfl rfl).mpr ?_ _ s' 0 hupdate hallocated⟩
  intro _ _ way hway entry hread hage
  refine ⟨by decide, fun i hi other hother => ?_⟩
  obtain ⟨hin, rfl⟩ := Table.read_eq_ok_iff.mp hother
  rw [State.initial, Vector.getElem_replicate]
  decide

/-- The tag of the branch at 65536 is stored as 0: its entry is never hit. -/
theorem getLoop_misses_allocated :
    (do
      let (_, bi, s) ← lookup smallParams (.initial smallParams fun _ => 0) 0 0x10000
      let s ← update smallParams s 0 true bi false
      let (_, bi) ← getLoop smallParams s 0x10000 bi
      .ok (bi.loopHit, s.ltable.toList.map LoopEntry.age)) =
    (.ok (-1, [7, 0, 0, 0]) : Result (Int × List (BitVec 8))) := by
  decide +kernel

end Gem5.LTAGE
