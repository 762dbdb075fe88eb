import Gem5.Pred.LTAGE.Model

open Lib Result List

namespace Gem5.LTAGE

variable {p : Params} {s s' : State p} {tid : ThreadID} {taken : Bool} {bi : BranchInfo p}

/-- Entry `i` of a bank. -/
def State.slot (s : State p) (bank i : Nat) : Option TageEntry := (s.gtable bank)[i]?

/-- Entry `i` of the bank does not have the tag that it had. -/
def Rewritten (s s' : State p) (bank i : Nat) : Prop :=
  (s'.slot bank i).map TageEntry.tag ≠ (s.slot bank i).map TageEntry.tag

instance (s s' : State p) (bank i : Nat) : Decidable (Rewritten s s' bank i) := inferInstanceAs (Decidable (_ ≠ _))

/-- Entry `i` of the bank is the one of the branch. It is not useful, and its tag is
another one. -/
def Free (s : State p) (bi : BranchInfo p) (bank i : Nat) : Prop :=
  ∃ index tag entry, bankIndex p bi bank = .ok index ∧ index.toNat = i ∧ Table.read bi.tableTags (bank - 1) = .ok tag ∧
    s.slot bank i = some entry ∧ entry.u = 0 ∧ entry.tag ≠ tag

theorem entry_eq_ok_iff : s.entry bank index = .ok entry ↔ s.slot bank index.toNat = some entry := by
  rw [State.entry, Table.read_eq_ok_iff, State.slot, Vector.getElem?_eq_some_iff]

theorem modifyEntry_slot {f : TageEntry → TageEntry} (h : s.modifyEntry bank index f = .ok s') :
    ∃ entry, s.slot bank index.toNat = some entry ∧ s'.slot bank index.toNat = some (f entry) ∧
      ∀ other i, (other, i) ≠ (bank, index.toNat) → s'.slot other i = s.slot other i := by
  obtain ⟨table, hmodify, hdone⟩ := bind_ok h
  cases hdone
  obtain ⟨hlt, rfl⟩ := Table.modify_eq_ok_iff.mp hmodify
  refine ⟨(s.gtable bank)[index.toNat], ?_, ?_, fun other i hne => ?_⟩
  · simp [State.slot, hlt]
  · simp [State.slot, hlt]
  · by_cases heq : other = bank
    · subst heq
      have hi : index.toNat ≠ i := fun heq => hne (by rw [heq])
      simp [State.slot, Vector.getElem?_set_ne hlt hi]
    · simp [State.slot, Function.update_of_ne heq]

theorem modifyEntry_tag {f : TageEntry → TageEntry} (h : s.modifyEntry bank index f = .ok s')
    (hf : ∀ entry, (f entry).tag = entry.tag) (other i : Nat) : ¬Rewritten s s' other i := by
  obtain ⟨entry, hentry, hentry', hothers⟩ := modifyEntry_slot h
  rw [Rewritten, not_not]
  by_cases heq : (other, i) = (bank, index.toNat)
  · cases heq
    rw [hentry, hentry', Option.map_some, Option.map_some, hf]
  · rw [hothers other i heq]

theorem rewritten_congr (h : ¬Rewritten s s₁ bank i) (h' : ¬Rewritten s₁' s' bank i) :
    Rewritten s s' bank i ↔ Rewritten s₁ s₁' bank i := by
  rw [Rewritten, not_not] at h h'
  rw [Rewritten, Rewritten, h, h']

/-- The banks of the loop in which the entry of the branch is free get its tag. -/
theorem allocate_rewritten (hbanks : banks.Nodup) (h : allocate p taken bi banks s = .ok s') (bank i : Nat) :
    Rewritten s s' bank i ↔ bank ∈ banks ∧ Free s bi bank i := by
  induction banks generalizing s with
  | nil =>
    cases h
    simp [Rewritten]
  | cons first later ih =>
    obtain ⟨hfirst, hlater⟩ := nodup_cons.mp hbanks
    obtain ⟨index, tag, next, hindex, htag, hmodify, h⟩ := bind_ok₃ h
    obtain ⟨entry, hentry, hentry', hothers⟩ := modifyEntry_slot hmodify
    have hrest := ih hlater h
    by_cases heq : bank = first
    · subst heq
      simp only [hfirst, false_and, iff_false] at hrest
      have hsame : ¬Rewritten s s bank i := by simp [Rewritten]
      rw [rewritten_congr hsame hrest]
      by_cases hi : i = index.toNat
      · subst hi
        rw [Rewritten, hentry, hentry']
        constructor
        · intro hne
          by_cases hu : entry.u = 0
          · simp only [hu, if_true, Option.map_some, ne_eq, Option.some.injEq] at hne
            exact ⟨mem_cons_self, index, tag, entry, hindex, rfl, htag, hentry, hu, Ne.symm hne⟩
          · rw [if_neg hu] at hne
            exact absurd rfl hne
        · rintro ⟨-, other, otherTag, found, hother, -, hotherTag, hfound, hu, hne⟩
          rw [hentry] at hfound
          rw [htag] at hotherTag
          cases hfound
          cases hotherTag
          simpa [hu] using Ne.symm hne
      · rw [Rewritten, hothers bank i (by simp [hi])]
        refine iff_of_false (fun h => h rfl) ?_
        rintro ⟨-, index', -, -, hindex', rfl, -⟩
        rw [hindex] at hindex'
        cases hindex'
        exact hi rfl
    · have hslot : next.slot bank i = s.slot bank i := hothers bank i (by simp [heq])
      have hnext : ¬Rewritten s next bank i := by simp [Rewritten, hslot]
      have hsame : ¬Rewritten s' s' bank i := by simp [Rewritten]
      rw [← rewritten_congr hnext hsame] at hrest
      rw [hrest, Free, Free, hslot, mem_cons]
      simp [heq]

/-- A smallest `u` above 0 is below those of all banks above `hitBank`. -/
theorem minUseful_pos {start min : BitVec 8} (h : minUseful p s bi bank start = .ok min) (hpos : 0 < min.toInt) :
    0 < start.toInt ∧ ∀ other, bi.hitBank < other → other ≤ bank → ∀ index entry,
      bankIndex p bi other = .ok index → s.entry other index = .ok entry → 0 < entry.u.toInt := by
  induction bank generalizing start with
  | zero =>
    cases h
    exact ⟨hpos, fun other hlt hle => by omega⟩
  | succ i ih =>
    rw [minUseful] at h
    split at h
    · obtain ⟨index, entry, hindex, hentry, h⟩ := bind_ok₂ h
      obtain ⟨hstart, hothers⟩ := ih h
      have hboth : 0 < entry.u.toInt ∧ 0 < start.toInt := by
        split at hstart <;> omega
      refine ⟨hboth.2, fun other hlt hle otherIndex found hother hfound => ?_⟩
      rcases hle.eq_or_lt with rfl | hle
      · rw [show bankIndex p bi (i + 1) = .ok index from hindex] at hother
        cases hother
        rw [hentry] at hfound
        cases hfound
        exact hboth.1
      · exact hothers other hlt (by omega) otherIndex found hother hfound
    · rename_i hle
      cases h
      exact ⟨hpos, fun other hlt hle' => by omega⟩

/-- `P` holds of at most one entry. -/
def AtMostOne (P : Nat → Nat → Prop) : Prop := ∀ bank i bank' i', P bank i → P bank' i' → bank = bank' ∧ i = i'

/-- Entry `i` of the bank is free, and in a bank that the loop of `update` visits. -/
def Candidate (s : State p) (bi : BranchInfo p) (nrand : BitVec 32) (bank i : Nat) : Prop :=
  firstBank p bi nrand ≤ bank ∧ bank ≤ p.nHistoryTables ∧ Free s bi bank i

theorem Free.unique (h : Free s bi bank i) (h' : Free s' bi bank i') : i = i' := by
  obtain ⟨index, -, -, hindex, rfl, -⟩ := h
  obtain ⟨index', -, -, hindex', rfl, -⟩ := h'
  rw [hindex] at hindex'
  cases hindex'
  rfl

/-- The allocation rewrites the tags of the candidates. Without any, it makes the
entry of the first bank free, and rewrites that. -/
theorem allocateEntries_rewritten (h : allocateEntries p s taken bi nrand = .ok s') :
    (AtMostOne (Rewritten s s') ↔ AtMostOne (Candidate s bi nrand)) ∧
      ∀ bank i, Rewritten s s' bank i → bi.hitBank < bank ∧ bank ≤ p.nHistoryTables := by
  obtain ⟨min, freed, hmin, hfree, h⟩ := bind_ok₂ h
  have hfirst : bi.hitBank < firstBank p bi nrand :=
    Nat.lt_of_lt_of_le (Nat.lt_succ_self bi.hitBank) (Nat.le_add_right _ _)
  have hvisited : ∀ bank, bank ∈ range' (firstBank p bi nrand) (p.nHistoryTables + 1 - firstBank p bi nrand) ↔
      firstBank p bi nrand ≤ bank ∧ bank ≤ p.nHistoryTables := by
    intro bank
    rw [mem_range'_1]
    omega
  have hafter := allocate_rewritten nodup_range' h
  simp only [hvisited, and_assoc] at hafter
  split at hfree
  · rename_i hpos
    obtain ⟨index, hindex, hmodify⟩ := bind_ok hfree
    have huseful := (minUseful_pos hmin hpos).2
    have hrewritten : ∀ bank i, Rewritten s s' bank i ↔ Candidate freed bi nrand bank i := fun bank i =>
      (rewritten_congr (modifyEntry_tag hmodify (fun _ => rfl) bank i) (by simp [Rewritten])).trans (hafter bank i)
    have hnone : ∀ bank i, ¬Candidate s bi nrand bank i := by
      rintro bank i ⟨hle, hle', index, tag, entry, hindex, rfl, -, hentry, hu, -⟩
      have hpos := huseful bank (by omega) hle' index entry hindex (entry_eq_ok_iff.mpr hentry)
      rw [hu] at hpos
      cases hpos
    refine ⟨iff_of_true ?_ fun bank i _ _ hcandidate => absurd hcandidate (hnone bank i), fun bank i hbank => ?_⟩
    · -- only the bank whose entry was made free has one
      have hbank : ∀ bank i, Candidate freed bi nrand bank i → bank = firstBank p bi nrand := by
        intro bank i hcandidate
        by_contra hne
        obtain ⟨hle, hle', index', tag, entry, hindex', hi, htag, hentry, hu⟩ := hcandidate
        obtain ⟨-, -, -, hothers⟩ := modifyEntry_slot hmodify
        rw [hothers bank i (by simp [hne])] at hentry
        exact hnone bank i ⟨hle, hle', index', tag, entry, hindex', hi, htag, hentry, hu⟩
      intro bank i bank' i' h h'
      rw [hrewritten] at h h'
      obtain rfl := (hbank bank i h).trans (hbank bank' i' h').symm
      exact ⟨rfl, h.2.2.unique h'.2.2⟩
    · have hcandidate := (hrewritten bank i).mp hbank
      exact ⟨Nat.lt_of_lt_of_le hfirst hcandidate.1, hcandidate.2.1⟩
  · cases hfree
    refine ⟨?_, fun bank i hbank => ?_⟩
    · simp only [AtMostOne, hafter, Candidate]
    · obtain ⟨hle, hle', -⟩ := (hafter bank i).mp hbank
      exact ⟨Nat.lt_of_lt_of_le hfirst hle, hle'⟩

/-- All entries keep their tags. -/
def SameTags (s s' : State p) : Prop := ∀ bank i, ¬Rewritten s s' bank i

theorem SameTags.trans (h : SameTags s s₁) (h' : SameTags s₁ s') : SameTags s s' := fun bank i hrewritten =>
  h' bank i ((rewritten_congr (h bank i) (by simp [Rewritten])).mp hrewritten)

theorem SameTags.of_gtable (h : s'.gtable = s.gtable) : SameTags s s' :=
  fun bank i => by simp [Rewritten, State.slot, h]

theorem baseUpdate_tags (h : baseUpdate p s taken bi = .ok s') : SameTags s s' := by
  obtain ⟨btable, -, hdone⟩ := bind_ok h
  cases hdone
  exact .of_gtable rfl

theorem resetUseful_tags (s : State p) : SameTags s (resetUseful p s) := by
  intro bank i
  rw [Rewritten, not_not, resetUseful]
  dsimp only [State.slot]
  split
  · dsimp only
    split
    · rw [Vector.getElem?_map, Option.map_map]
      rfl
    · rfl
  · rfl

theorem trainProviders_tags (h : trainProviders p s taken longest_match_pred bi = .ok s') : SameTags s s' := by
  unfold trainProviders at h
  split at h
  · obtain ⟨entry, ctr, provider, -, -, hprovider, h⟩ := bind_ok₃ h
    obtain ⟨alternate, halternate, h⟩ := bind_ok h
    have hsame : SameTags provider alternate := by
      split at halternate
      · split at halternate
        · obtain ⟨_, _, -, -, halternate⟩ := bind_ok₂ halternate
          exact modifyEntry_tag halternate fun _ => rfl
        · exact baseUpdate_tags halternate
      · cases halternate
        exact .of_gtable rfl
    have hlast : SameTags alternate s' := by
      split at h
      · exact modifyEntry_tag h fun entry => by split <;> rfl
      · cases h
        exact .of_gtable rfl
    exact SameTags.trans (modifyEntry_tag hprovider fun _ => rfl) (hsame.trans hlast)
  · exact baseUpdate_tags h

theorem loopUpdate_gtable (h : loopUpdate p s taken bi = .ok s') : s'.gtable = s.gtable := by
  unfold loopUpdate at h
  split at h
  · obtain ⟨_, -, hdone⟩ := bind_ok h
    cases hdone
    rfl
  split at h
  · obtain ⟨_, -, hdone⟩ := bind_ok h
    cases hdone
    rfl
  · cases h
    rfl

/-- `alloc` in `update`: the prediction was wrong, there are longer banks, and not
just a new entry was overruled that was right. -/
def Allocates (p : Params) (taken : Bool) (bi : BranchInfo p) : Prop :=
  bi.tagePred ≠ taken ∧ bi.hitBank < p.nHistoryTables ∧
    ¬((bi.hitBank > 0 && bi.pseudoNewAlloc) ∧ (bi.hitBank > 0 && bi.longestMatchPred) = taken)

/-- Apart from the allocation, an update keeps all tags. -/
theorem updateTables_rewritten (h : updateTables p s taken bi nrand = .ok s') :
    ∃ before allocated : State p, before.gtable = s.gtable ∧ SameTags allocated s' ∧
      ((Allocates p taken bi ∧ allocateEntries p before taken bi nrand = .ok allocated) ∨
        (¬Allocates p taken bi ∧ allocated = before)) := by
  obtain ⟨looped, loopUseCounter, useAltPredForNewlyAllocated, hloop, -, -, h⟩ := bind_ok₃ h
  obtain ⟨allocated, halloc, h⟩ := bind_ok h
  have htable := loopUpdate_gtable hloop
  refine ⟨{ looped with loopUseCounter, useAltPredForNewlyAllocated }, allocated, htable,
    (resetUseful_tags allocated).trans (trainProviders_tags h), ?_⟩
  split at halloc
  · rename_i hallocates
    exact .inl ⟨hallocates, halloc⟩
  · rename_i hnot
    cases halloc
    exact .inr ⟨hnot, rfl⟩

/-- A commit rewrites the tag of at most one entry, which is in a bank above the one
that was hit, exactly when it does not allocate or at most one of the entries
of the branch in the banks it visits is free. -/
theorem update_rewrites_one_tag_iff (s : State p) (tid : ThreadID) (taken : Bool) (bi : BranchInfo p) (s' : State p)
    (hcond : bi.condBranch = true) (h : update p s tid taken bi false = .ok s') :
    (AtMostOne (Rewritten s s') ∧ ∀ bank i, Rewritten s s' bank i → bi.hitBank < bank ∧ bank ≤ p.nHistoryTables) ↔
      (Allocates p taken bi → AtMostOne (Candidate s bi (s.random_mt 0 &&& 3))) := by
  rw [update, if_neg Bool.false_ne_true] at h
  dsimp only [State.draw] at h
  rw [if_pos hcond] at h
  obtain ⟨before, allocated, htable, hlast, ⟨hallocates, halloc⟩ | ⟨hnot, rfl⟩⟩ := updateTables_rewritten h
  · obtain ⟨hone, hbanks⟩ := allocateEntries_rewritten halloc
    have hrewritten : Rewritten s s' = Rewritten before allocated := funext₂ fun bank i =>
      propext (rewritten_congr (SameTags.of_gtable htable bank i) (hlast bank i))
    have hcandidate : Candidate before bi (s.random_mt 0 &&& 3) = Candidate s bi (s.random_mt 0 &&& 3) := by
      funext bank i
      simp only [Candidate, Free, State.slot, htable]
    rw [hrewritten, hone, hcandidate]
    exact ⟨fun h _ => h.1, fun h => ⟨h hallocates, hbanks⟩⟩
  · have hsame : SameTags s s' := (SameTags.of_gtable htable).trans hlast
    refine iff_of_true ⟨?_, fun bank i hbank => absurd hbank (hsame bank i)⟩ fun hallocates => absurd hallocates hnot
    exact fun bank i _ _ hbank => absurd hbank (hsame bank i)

def twoBanks : Params := { smallParams with nHistoryTables := 2, nHistoryTables_le := by decide }

/-- The draw skips the first bank, so that the entry of the second is the only candidate. -/
theorem update_rewrites_one_tag_second_bank : ∃ predicted bi s s',
      lookup twoBanks (.initial twoBanks fun _ => 1) 0 5 = .ok (predicted, bi, s) ∧
      update twoBanks s 0 true bi false = .ok s' ∧ Rewritten s s' 2 3 ∧ AtMostOne (Rewritten s s') := by
  have hrun : (lookup twoBanks (.initial twoBanks fun _ => 1) 0 5).bind (fun (_, bi, s) =>
      (update twoBanks s 0 true bi false).map fun s' =>
        (bi.condBranch, decide (Rewritten s s' 2 3), firstBank twoBanks bi (s.random_mt 0 &&& 3))) =
      .ok (true, true, 2) := by decide +kernel
  obtain ⟨⟨predicted, bi, s⟩, hlookup, hrest⟩ := bind_ok hrun
  obtain ⟨s', hupdate, hlast⟩ := map_ok hrest
  simp only [Prod.mk.injEq, decide_eq_true_eq] at hlast
  obtain ⟨hcond, hrewritten, hfirst⟩ := hlast
  refine ⟨predicted, bi, s, s', hlookup, hupdate, hrewritten,
    ((update_rewrites_one_tag_iff s 0 true bi s' hcond hupdate).mpr ?_).1⟩
  rintro - bank i bank' i' ⟨hle, (hbank : bank ≤ 2), hfree⟩ ⟨hle', (hbank' : bank' ≤ 2), hfree'⟩
  obtain rfl : bank = bank' := by omega
  exact ⟨rfl, hfree.unique hfree'⟩

/-- A branch that is mispredicted without a hit gets an entry in both banks. -/
theorem update_rewrites_two_tags :
    (do
      let (predicted, bi, s) ← lookup twoBanks (.initial twoBanks fun _ => 0) 0 5
      let s' ← update twoBanks s 0 true bi false
      .ok (predicted, bi.hitBank,
        [s.slot 1 0, s'.slot 1 0, s.slot 2 3, s'.slot 2 3].map fun entry => entry.map TageEntry.tag)) =
    (.ok (false, 0, [some 0, some 5, some 0, some 5]) : Result (Bool × Nat × List (Option (BitVec 16)))) := by
  decide +kernel

end Gem5.LTAGE
