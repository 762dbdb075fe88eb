import Gem5.Mem.Cache.MSHR.Model

open Lib Result List

namespace Gem5.MSHR

/-- The packets of the targets that do not come from a snoop, in order. -/
def demand (ts : List Target) : List Nat := (ts.filter fun t => t.source ≠ .FromSnoop).map fun t => t.pkt.ptr

variable {t : Target} {ts : List Target} {pkt : Packet} {above above' : Above} {source : Source} {alloc_on_fill : Bool}
  {curTick readyTime order : Nat}

theorem demand_append (ts us : List Target) : demand (ts ++ us) = demand ts ++ demand us := by
  rw [demand, filter_append, map_append, demand, demand]

theorem demand_cons_of_ne (h : t.source ≠ .FromSnoop) (ts : List Target) :
    demand (t :: ts) = t.pkt.ptr :: demand ts := by
  rw [demand, filter_cons_of_pos (by exact decide_eq_true h), map_cons, demand]

theorem demand_cons_of_eq (h : t.source = .FromSnoop) (ts : List Target) : demand (t :: ts) = demand ts := by
  rw [demand, filter_cons_of_neg (by rw [decide_eq_true_iff]; exact not_not.mpr h), demand]

theorem demand_nil : demand [] = [] := rfl

/-- Targets that differ in what a list may change of its targets. -/
def SameTarget (t t' : Target) : Prop := t'.source = t.source ∧ t'.pkt.ptr = t.pkt.ptr

variable {ts' : List Target}

theorem demand_congr (h : Forall₂ SameTarget ts ts') : demand ts' = demand ts := by
  induction h with
  | nil => rfl
  | @cons t t' ts ts' hsame _ ih =>
    by_cases hsource : t.source = .FromSnoop
    · rw [demand_cons_of_eq (hsame.1.trans hsource), demand_cons_of_eq hsource, ih]
    · rw [demand_cons_of_ne (hsame.1 ▸ hsource), demand_cons_of_ne hsource, hsame.2, ih]

theorem eq_nil_congr (h : Forall₂ SameTarget ts ts') : ts' = [] ↔ ts = [] := by
  cases h with
  | nil => exact Iff.rfl
  | cons =>
    constructor
    · intro h
      cases h
    · intro h
      cases h

variable {l l' : TargetList}

theorem targets_updateFlags (h : l.updateFlags pkt source alloc_on_fill = .ok l') : l'.targets = l.targets := by
  unfold TargetList.updateFlags at h
  split at h
  · obtain ⟨needsWritable, -, h⟩ := bind_ok h
    cases h
    rfl
  · cases h
    rfl

theorem targets_populateFlags (h : l.populateFlags = .ok l') : l'.targets = l.targets :=
  foldlM_induction (I := fun _ u => u.targets = l.targets)
    (fun _ _ _ _ hu hpass => (targets_updateFlags hpass).trans hu) rfl h

theorem targets_add {markPending : Bool}
    (h : l.add above pkt curTick readyTime order source markPending alloc_on_fill = .ok (l', above')) :
    ∃ t, l'.targets = l.targets ++ [t] ∧ t.pkt = pkt ∧ t.source = source := by
  obtain ⟨u, ⟨marked, after⟩, hflags, -, h⟩ := bind_ok₂ h
  cases h
  exact ⟨_, congrArg (· ++ _) (targets_updateFlags hflags), rfl, rfl⟩

theorem replaceUpgrade_spec (h : replaceUpgrade pkt = .ok pkt') :
    pkt'.ptr = pkt.ptr ∧ pkt'.cmd = replacement pkt.cmd := by
  unfold replaceUpgrade at h
  dsimp only at h
  split at h
  · obtain ⟨-, -, h⟩ := bind_ok h
    split at h
    · unfold Packet.allocate at h
      split at h
      · obtain ⟨-, -, h⟩ := bind_ok h
        cases h
        exact ⟨rfl, rfl⟩
      · cases h
        exact ⟨rfl, rfl⟩
    · cases h
      exact ⟨rfl, rfl⟩
  · cases h
    exact ⟨rfl, rfl⟩

/-- A target before and after its upgrade is replaced. -/
structure Replaced (t t' : Target) : Prop where
  same : SameTarget t t'
  cmd : t'.pkt.cmd = replacement t.pkt.cmd
  allocOnFill : t'.allocOnFill = t.allocOnFill

/-- The upgrades of a list that has any are all replaced. -/
theorem replaceUpgrades_spec (h : l.replaceUpgrades = .ok l') :
    (l.hasUpgrade = true ∧ ∃ targets, Forall₂ Replaced l.targets targets ∧
      l' = { l with targets, hasUpgrade := false }) ∨
      (l.hasUpgrade = false ∧ l' = l) := by
  unfold TargetList.replaceUpgrades at h
  split at h
  · rename_i hupgrade
    obtain ⟨targets, hmap, h⟩ := bind_ok h
    cases h
    refine .inl ⟨hupgrade, targets, (forall₂_of_mapM hmap).imp fun t t' ht => ?_, rfl⟩
    obtain ⟨pkt, hpkt, ht⟩ := bind_ok ht
    cases ht
    obtain ⟨hptr, hcmd⟩ := replaceUpgrade_spec hpkt
    exact ⟨⟨rfl, hptr⟩, hcmd, rfl⟩
  · rename_i hupgrade
    cases h
    exact .inr ⟨Bool.eq_false_iff.mpr hupgrade, rfl⟩

/-- Clearing the flags above changes the marks of the targets only. -/
theorem clearAll_spec (h : TargetList.clearAll ts above = .ok (ts', above')) :
    Forall₂ (fun t t' => ∃ markedPending, t' = { t with markedPending }) ts ts' := by
  induction ts generalizing above ts' with
  | nil =>
    cases h
    exact .nil
  | cons t ts ih =>
    obtain ⟨⟨first, next⟩, hfirst, h⟩ := bind_ok h
    obtain ⟨⟨rest, last⟩, hrest, h⟩ := bind_ok h
    cases h
    refine .cons ?_ (ih hrest)
    unfold TargetList.clearAbove at hfirst
    split at hfirst
    · split at hfirst
      · obtain ⟨-, -, hfirst⟩ := bind_ok hfirst
        cases hfirst
        exact ⟨_, rfl⟩
      · cases hfirst
        exact ⟨_, rfl⟩
    · cases hfirst
      exact ⟨_, rfl⟩

/-- The requests that make `updateFlags` set `hasUpgrade`. -/
def upgrades (cmd : MemCmd) : Bool := cmd.isRequest && (cmd.isUpgrade || cmd == .StoreCondReq)

theorem upgrades_replacement (cmd : MemCmd) : upgrades (replacement cmd) = false := by cases cmd <;> rfl

theorem needsWritable_replacement (cmd : MemCmd) :
    (replacement cmd).needsWritable = cmd.needsWritable := by cases cmd <;> rfl

/-- The flags of the list say what the target needs. -/
structure TargetList.Covers (l : TargetList) (t : Target) : Prop where
  needsWritable : t.pkt.cmd.needsWritable = true → l.needsWritable = true
  hasUpgrade : upgrades t.pkt.cmd = true → l.hasUpgrade = true
  allocOnFill : t.allocOnFill = true → l.allocOnFill = true

/-- The flags of the list say what its targets need, snoops apart. -/
def TargetList.Covered (l : TargetList) : Prop := ∀ t ∈ l.targets, t.source ≠ .FromSnoop → l.Covers t

theorem TargetList.Covered.of_nil (h : l.targets = []) : l.Covered := by
  intro t ht
  rw [h] at ht
  cases ht

theorem covers_updateFlags (h : l.updateFlags pkt source alloc_on_fill = .ok l') : (∀ t, l.Covers t → l'.Covers t) ∧
      ∀ t : Target, t.pkt = pkt → t.allocOnFill = alloc_on_fill → source ≠ .FromSnoop → l'.Covers t := by
  unfold TargetList.updateFlags at h
  split at h
  · obtain ⟨needsWritable, hwritable, h⟩ := bind_ok h
    obtain ⟨-, -, hwritable⟩ := bind_ok hwritable
    cases hwritable
    cases h
    constructor
    · intro t ht
      constructor <;> simp only [Bool.or_eq_true]
      · exact fun hneeds => .inl (ht.needsWritable hneeds)
      · exact fun hneeds => .inl (ht.hasUpgrade hneeds)
      · exact fun hneeds => .inl (ht.allocOnFill hneeds)
    · rintro t rfl rfl -
      constructor <;> simp +contextual [upgrades]
  · rename_i hsource
    cases h
    exact ⟨fun _ => id, fun _ _ _ hne => absurd hne hsource⟩

/-- Populating the flags covers all targets of the list. -/
theorem covered_populateFlags (h : l.populateFlags = .ok l') : l'.Covered := by
  have hall : ∀ t ∈ l.targets, t ∈ ([] : List Target) ∨ (t.source ≠ .FromSnoop → l'.Covers t) := by
    -- those that are still to come are not covered yet
    refine foldlM_induction (I := fun later u => ∀ t ∈ l.targets, t ∈ later ∨ (t.source ≠ .FromSnoop → u.Covers t))
      ?_ (fun t ht => .inl ht) h
    intro first later u u' hu hpass t ht
    obtain ⟨hkeeps, hfirst⟩ := covers_updateFlags hpass
    obtain hmem | hcovers := hu t ht
    · cases hmem with
      | head => exact .inr (hfirst first rfl rfl)
      | tail _ hmem => exact .inl hmem
    · exact .inr fun hsource => hkeeps t (hcovers hsource)
  intro t ht
  rw [targets_populateFlags h] at ht
  exact (hall t ht).resolve_left not_mem_nil

theorem covered_add {curTick readyTime order : Nat} {markPending : Bool}
    (h : l.add above pkt curTick readyTime order source markPending alloc_on_fill = .ok (l', above')) (hl : l.Covered) :
    l'.Covered := by
  obtain ⟨u, ⟨marked, after⟩, hflags, -, h⟩ := bind_ok₂ h
  cases h
  obtain ⟨hkeeps, hnew⟩ := covers_updateFlags hflags
  have hcovers : ∀ t, u.Covers t → TargetList.Covers { u with targets := u.targets ++
      [⟨curTick, readyTime, order, pkt, source, marked, alloc_on_fill⟩] } t := fun t ht => ⟨ht.1, ht.2, ht.3⟩
  intro t ht hsource
  apply hcovers
  rw [targets_updateFlags hflags] at ht
  obtain ht | ht := mem_append.mp ht
  · exact hkeeps t (hl t ht hsource)
  · cases mem_singleton.mp ht
    exact hnew _ rfl rfl hsource

/-- What a list may change of its targets: their sources and packets are the same, and
the flags still say what they need. -/
structure Alters (l l' : TargetList) : Prop where
  same : List.Forall₂ SameTarget l.targets l'.targets
  reset : l.isReset = true → l'.isReset = true
  covered : l.Covered → l'.Covered

theorem Alters.refl (l : TargetList) : Alters l l := ⟨forall₂_same.mpr fun _ _ => ⟨rfl, rfl⟩, id, id⟩

theorem alters_replaceUpgrades (h : l.replaceUpgrades = .ok l') : Alters l l' := by
  obtain ⟨hupgrade, targets, htargets, rfl⟩ | ⟨-, rfl⟩ := replaceUpgrades_spec h
  · refine ⟨htargets.imp fun _ _ ht => ht.same, fun hreset => ?_, fun hl t' ht' hsource => ?_⟩
    · simp [TargetList.isReset, hupgrade] at hreset
    · obtain ⟨t, ht, hreplaced⟩ := exists_of_mem_forall₂ htargets ht'
      have hcovers := hl t ht (hreplaced.same.1 ▸ hsource)
      refine ⟨fun hneeds => ?_, fun hneeds => ?_, fun hneeds => ?_⟩
      · rw [hreplaced.cmd, needsWritable_replacement] at hneeds
        exact hcovers.needsWritable hneeds
      · rw [hreplaced.cmd, upgrades_replacement] at hneeds
        cases hneeds
      · exact hcovers.allocOnFill (hreplaced.allocOnFill ▸ hneeds)
  · exact .refl l'

variable (h : l.clearDownstreamPending above = .ok (l', above'))
include h

/-- Clearing the flags above keeps what the targets need. -/
theorem targets_clearDownstreamPending :
    ∀ t' ∈ l'.targets, ∃ t ∈ l.targets, t.source = t'.source ∧ t.pkt = t'.pkt ∧ t.allocOnFill = t'.allocOnFill := by
  obtain ⟨⟨targets, after⟩, hclear, h⟩ := bind_ok h
  cases h
  intro t' ht'
  obtain ⟨t, ht, markedPending, rfl⟩ := exists_of_mem_forall₂ (clearAll_spec hclear) ht'
  exact ⟨t, ht, rfl, rfl, rfl⟩

theorem alters_clearDownstreamPending : Alters l l' := by
  have hneeds := targets_clearDownstreamPending h
  obtain ⟨⟨targets, after⟩, hclear, h⟩ := bind_ok h
  cases h
  refine ⟨(clearAll_spec hclear).imp ?_, id, fun hl t' ht' hsource => ?_⟩
  · rintro t _ ⟨markedPending, rfl⟩
    exact ⟨rfl, rfl⟩
  · obtain ⟨t, ht, hsame, hpkt, hfill⟩ := hneeds t' ht'
    obtain ⟨hwritable, hupgrade, halloc⟩ := hl t ht (hsame ▸ hsource)
    exact ⟨hpkt ▸ hwritable, hpkt ▸ hupgrade, hfill ▸ halloc⟩

end Gem5.MSHR
